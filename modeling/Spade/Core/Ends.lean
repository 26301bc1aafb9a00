import Spade.Core.Turns

set_option autoImplicit false

/-!
# Nothing is left behind

As long as every result settles its block, a scheduler with nothing executable and
nothing in flight has nothing pending, and the loop ends with all blocks run.
-/
namespace Spade
open UUIDPackage SinglePipelineScheduler

namespace Trace

/-- Every block was handed out, and whatever was handed out has a result. -/
def AllRun (p : Pipeline) (t : Trace) : Prop :=
  (∀ b ∈ p.blocks, ∃ inv ∈ t.handedOut, inv.id = b.id) ∧
    ∀ inv ∈ t.handedOut, ∃ e ∈ t.reported, e.1 = inv

section
variable [UUIDPackage]

/-- What is returned is an error or settles its block. -/
def Finishes (N : ℕ) (t : Trace) : Call → Prop
  | .report σ n result => t.Executes N (.report σ n result) ∧
      (result.status ≠ .error → t.sched.Settled result)
  | _ => True

instance (N : ℕ) (t : Trace) (c : Call) : Decidable (t.Finishes N c) :=
  match c with
  | .next => isTrue trivial
  | .drain => isTrue trivial
  | .report _ _ result => inferInstanceAs (Decidable
      (_ ∧ (result.status ≠ .error → (_ ∨ _))))

variable {p : Pipeline} {manifests : Manifests} {t : Trace} {N : ℕ}

/-- When the loop ends every block has been handed out. -/
theorem AtHead.end_of_loop (hacc : Accepted p manifests) {rank : UUID → ℕ}
    (hrank : ∀ b ∈ p.blocks, ∀ ref ∈ b.inputs, rank ref.depID < rank b.id)
    (hnames : ∀ b ∈ p.blocks, b.name ≠ "") (h : AtHead p manifests N t) (hset : AllSettled p t)
    (hends : t.ends = true) : AllRun p t.next := by
  have hexec : t.sched.executableBlocks = [] := by
    cases he : t.sched.executableBlocks with
    | nil => rfl
    | cons inv rest =>
      obtain ⟨b, hb, heq⟩ := h.stocked.invariant.causal.made inv
        (Or.inl (by rw [he]; exact List.mem_cons_self))
      have hname : inv.blockId = "" := by simpa [ends, SinglePipelineScheduler.next, he] using hends
      rw [heq] at hname
      exact absurd hname (hnames b hb)
  have hnext : t.next.handedOut = t.handedOut := by
    simp [Trace.next, isReady, hexec]
  have hnone : ∀ inv, ¬t.Awaited inv := by
    rintro inv ⟨hi, hno⟩
    obtain ⟨e, he, hei⟩ := h.done inv hi
    exact hno e he (by rw [hei])
  refine ⟨?_, ?_⟩
  · rw [hnext]
    exact (h.stocked.unstranded hacc hrank hset hexec hnone).2
  · rw [hnext]
    exact h.done

theorem AtHead.runPipeline_complete (hacc : Accepted p manifests) (hkeys : KeysApart p)
    (hdist : DistinctKeys p N) {rank : UUID → ℕ}
    (hrank : ∀ b ∈ p.blocks, ∀ ref ∈ b.inputs, rank ref.depID < rank b.id)
    (hnames : ∀ b ∈ p.blocks, b.name ≠ "") (turns : List Turn) (h : AtHead p manifests N t)
    (hset : AllSettled p t) (hrun : Runs.Along call (Finishes N) t (loopCalls turns t))
    (hexit : (runPipeline turns t).1 = some .complete) : AllRun p (runPipeline turns t).2 := by
  induction turns generalizing t with
  | nil =>
    unfold runPipeline at hexit ⊢
    by_cases hends : t.ends = true
    · rw [if_pos hends]
      exact h.end_of_loop hacc hrank hnames hset hends
    · rw [if_neg hends] at hexit
      cases hexit
  | cons turn turns ih =>
    unfold runPipeline at hexit ⊢
    unfold loopCalls at hrun
    by_cases hends : t.ends = true
    · rw [if_pos hends]
      exact h.end_of_loop hacc hrank hnames hset hends
    · rw [if_neg hends] at hexit hrun ⊢
      cases hres : turn.result with
      | none =>
        rw [hres] at hexit
        cases hexit
      | some result =>
        rw [hres] at hexit hrun
        dsimp only at hexit hrun ⊢
        by_cases herr : result.status = .error
        · rw [if_pos herr] at hexit
          cases hexit
        · rw [if_neg herr] at hexit hrun ⊢
          have hfalse : t.ends = false := Bool.not_eq_true _ ▸ hends
          obtain ⟨inv, rest, he, hnext, htaken⟩ := front_of_ends hfalse
          obtain ⟨-, ⟨⟨hid, hst, hlen⟩, hsettled⟩, hrest⟩ := hrun
          rw [show t.call .next = t.next from rfl] at hid hsettled hrest
          rw [call_turn hfalse] at hrest
          rw [htaken] at hid hsettled
          have hid' : result.id = inv.id := hid inv (by simp [taken])
          have hst' : result.status = .complete ∨ result.status = .map := by
            rcases List.mem_cons.mp hst with hs | hs
            · exact Or.inl hs
            · rcases List.mem_cons.mp hs with hs | hs
              · exact Or.inr hs
              · exact absurd (List.mem_singleton.mp hs) herr
          rw [hnext, htaken] at hexit hrest ⊢
          refine ih (h.turn hacc hkeys hdist _ he hid' hst' hlen) ?_ hrest hexit
          exact AllSettled.report (t := t.taken [inv] rest) h.stocked.invariant.causal.pipeline hset _
            hid' (hsettled herr)

/-- Results that all settle their blocks leave no scheduler and no loop behind. -/
theorem no_stranded {τ : MapOrder} (hval : validatePipeline τ p manifests = [])
    (hkeys : KeysApart p) (hdist : DistinctKeys p N) :
    (∀ calls, Runs.Along call (fun t c => t.Fresh c ∧ t.Settles N c) (start p manifests) calls →
      Runs.Always call (Unstranded p) (start p manifests) calls) ∧
    ∀ turns, (∀ b ∈ p.blocks, b.name ≠ "") →
      Runs.Along call (Finishes N) (start p manifests) (loopCalls turns (start p manifests)) →
      (runPipeline turns (start p manifests)).1 = some .complete →
        AllRun p (runPipeline turns (start p manifests)).2 := by
  have hacc := accepted_of_validate hval
  obtain ⟨rank, hrank⟩ := rank_of_validate hval
  have hset : AllSettled p (start p manifests) := fun e he => absurd he List.not_mem_nil
  constructor
  · intro calls hrun
    have hkeep : ∀ t c, Stocked p manifests N t ∧ AllSettled p t → t.Fresh c ∧ t.Settles N c →
        Stocked p manifests N (t.call c) ∧ AllSettled p (t.call c) :=
      fun _ _ h hc => stocked_call hacc hkeys hdist h hc
    exact (Runs.always_of_along call hkeep ⟨stocked_start hacc, hset⟩ hrun).mono call
      fun _ h => h.1.unstranded hacc hrank h.2
  · intro turns hnames hrun hexit
    exact (atHead_start hacc).runPipeline_complete hacc hkeys hdist hrank hnames turns hset hrun hexit

end
end Trace
end Spade

namespace Spade.Trace
open Samples Uuid

/-- The blocks of `mapped` with `k` items for its map block. -/
def mappedTurns (k : ℕ) : List Turn :=
  [⟨.stored, some (completed 1)⟩, ⟨.stored, some (expanded 2 k)⟩, ⟨.stored, some (completed 3)⟩,
    ⟨.stored, some (completed 4)⟩]

theorem no_stranded_mapped : (Runs.Always call (Unstranded mapped) (start mapped manifests)
      [.next, .report .stored 0 (completed 1), .next, .report .stored 1 (expanded 2 1)]) ∧
    AllRun mapped (runPipeline (mappedTurns 1) (start mapped manifests)).2 := by
  have hval : validatePipeline .stored mapped manifests = [] := by decide
  have hkeys : KeysApart mapped := keysApart (by decide)
  have hdist : DistinctKeys mapped 1 := by decide +kernel
  exact ⟨(no_stranded hval hkeys hdist).1 _ (by decide),
    (no_stranded hval hkeys hdist).2 _ (by decide) (by decide) (by decide)⟩

/-- An expansion without items leaves the mapped block pending, and the loop ends. -/
theorem no_stranded_fails :
    let calls : List Call :=
      [.next, .report .stored 0 (completed 1), .next, .report .stored 1 (expanded 2 0)]
    let t := Runs.run call (start mapped manifests) calls
    let last := runPipeline (mappedTurns 0) (start mapped manifests)
    validatePipeline .stored mapped manifests = [] ∧
      Runs.Along call (fun t c => t.Fresh c ∧ c.status? ≠ some .error) (start mapped manifests) calls ∧
      t.sched.cancelled = false ∧ ¬Unstranded mapped t ∧ last.1 = some .complete ∧
      ¬AllRun mapped last.2 := by
  intro calls t last
  refine ⟨by decide, by decide, by decide, ?_, by decide, ?_⟩
  · intro h
    have hexec : t.sched.executableBlocks = [] := List.isEmpty_iff.mp (by decide)
    have hdone : ∀ inv ∈ t.handedOut,
        ¬∀ e ∈ t.reported, e.1.invocationID ≠ inv.invocationID := by decide
    have hempty := (h hexec fun inv hi => hdone inv hi.1 hi.2).1
    have hpend : blockID 3 ∈ t.sched.pendingBlocks := by decide
    rw [hempty] at hpend
    exact AList.notMem_empty _ hpend
  · intro h
    have hno : ∀ inv ∈ last.2.handedOut, inv.id ≠ blockID 3 := by decide
    obtain ⟨inv, hi, hid⟩ := h.1 (block "step" 3 [2]) (by simp [mapped, pipeline])
    exact hno inv hi hid

end Spade.Trace
