import Spade.Core.Acyclic
import Spade.Core.Barrier
import Spade.Core.Held

set_option autoImplicit false

/-!
# When the scheduler has nothing left to do

A block that is pending waits for one that has not completed, and every block has an
invocation in a queue or handed out. A result that is not recorded leaves the blocks
that read its block behind.
-/
namespace Spade
open UUIDPackage

namespace SinglePipelineScheduler

/-- Nothing that is pending is ready. -/
def Waits (s : SinglePipelineScheduler) : Prop :=
  ∀ k inv, s.pendingBlocks.lookup k = some inv → s.ready inv = false

theorem waits_promote (σ : MapOrder) (s : SinglePipelineScheduler) : (s.promoteReady σ).Waits := by
  obtain ⟨-, -, hc, -, -, hpend⟩ := promoteReady_spec σ s
  intro k inv hk
  have hr := ((hpend k inv).mp hk).2
  unfold ready at hr ⊢
  rwa [hc]

theorem Waits.update [UUIDPackage] (σ : MapOrder) {s : SinglePipelineScheduler} (h : s.Waits)
    (r : BlockInvocationResult) : (s.update σ r).Waits := by
  by_cases herr : r.status = .error
  · rw [update_error σ s herr]
    intro k inv hk
    simp at hk
  by_cases hcomp : r.status = .complete
  · rw [update_complete σ s hcomp]
    exact waits_promote σ _
  by_cases hmap : r.status = .map
  · rw [update_map σ s hmap]
    exact waits_promote σ _
  by_cases hred : r.status = .reduce
  · rw [update_reduce σ s hred]
    intro k inv hk
    have hg := handleReduce_gathered σ s
    rw [hg.same]
    exact h k inv (hg.pending k inv hk)
  · rwa [update_other σ s herr hcomp hmap hred]

/-- `Update` records the result, or no block reads its block. -/
def Settled [UUIDPackage] (s : SinglePipelineScheduler) (r : BlockInvocationResult) : Prop :=
  s.records r = true ∨ ∀ b ∈ s.pipeline.blocks, ∀ ref ∈ b.inputs, ref.depID ≠ r.id

end SinglePipelineScheduler

namespace Trace
open SinglePipelineScheduler

/-- The invocation is in flight. -/
def Awaited [UUIDPackage] (t : Trace) (inv : BlockInvocation) : Prop :=
  inv ∈ t.handedOut ∧ ∀ e ∈ t.reported, e.1.invocationID ≠ inv.invocationID

/-- With both nothing executable and nothing in flight, nothing is pending and an invocation of
every block has been handed out. -/
def Unstranded [UUIDPackage] (p : Pipeline) (t : Trace) : Prop :=
  t.sched.executableBlocks = [] → (∀ inv, ¬t.Awaited inv) →
    t.sched.pendingBlocks = ∅ ∧ ∀ b ∈ p.blocks, ∃ inv ∈ t.handedOut, inv.id = b.id

section
variable [UUIDPackage]

/-- A result of an invocation that was handed out, and no duplicate. -/
def Fresh (t : Trace) : Call → Prop
  | .report _ n result =>
    match t.handedOut[n]? with
    | none => False
    | some inv => result.id = inv.id ∧ (inv.mapIndex = none → inv.id ∉ t.sched.completedBlocks)
  | _ => True

/-- The result is not an error, has at most `N` items and settles its block. -/
def Settles (N : ℕ) (t : Trace) : Call → Prop
  | .report _ _ result =>
    result.status ≠ .error ∧ result.items.length ≤ N ∧ t.sched.Settled result
  | _ => True

instance (t : Trace) (c : Call) : Decidable (t.Fresh c) :=
  match c with
  | .next => isTrue trivial
  | .drain => isTrue trivial
  | .report _ n result =>
    match h : t.handedOut[n]? with
    | none => isFalse (by simp [Fresh, h])
    | some inv => decidable_of_iff
        (result.id = inv.id ∧ (inv.mapIndex = none → inv.id ∉ t.sched.completedBlocks))
        (by simp [Fresh, h])

instance (N : ℕ) (t : Trace) (c : Call) : Decidable (t.Settles N c) :=
  match c with
  | .next => isTrue trivial
  | .drain => isTrue trivial
  | .report _ _ result => inferInstanceAs (Decidable
      (result.status ≠ .error ∧ result.items.length ≤ N ∧ (_ ∨ _)))

theorem Fresh.report {t : Trace} {σ : MapOrder} {n : ℕ} {result : BlockInvocationResult}
    (h : t.Fresh (.report σ n result)) : ∃ inv ∈ t.handedOut, result.id = inv.id ∧
      (inv.mapIndex = none → inv.id ∉ t.sched.completedBlocks) ∧
      t.call (.report σ n result) = t.report σ inv result := by
  cases hn : t.handedOut[n]? with
  | none => simp [Fresh, hn] at h
  | some inv =>
    simp only [Fresh, hn] at h
    exact ⟨inv, List.mem_of_getElem? hn, h.1, h.2, by simp only [call, hn]⟩

variable {p : Pipeline} {manifests : Manifests} {t : Trace} {N : ℕ}

/-- The invariant of runs whose results all settle their blocks. -/
structure Stocked (p : Pipeline) (manifests : Manifests) (N : ℕ) (t : Trace) : Prop where
  invariant : Invariant p manifests t
  bounded : Bounded N t
  waits : t.sched.Waits
  held : ∀ b ∈ p.blocks, ∃ inv, t.Holds inv ∧ inv.id = b.id

theorem stocked_start (hacc : Accepted p manifests) : Stocked p manifests N (start p manifests) := by
  obtain ⟨g, hg, -⟩ := hacc.graph
  obtain ⟨-, -, hc, -, -, he, hl, hpend⟩ := registered_queues manifests hg
  refine ⟨⟨causal_start hacc, indexing_start hacc⟩, fun e h => absurd h List.not_mem_nil, ?_, ?_⟩
  · intro k inv hk
    obtain ⟨b, hb, hin, -, rfl⟩ := hl k inv hk
    obtain ⟨ref, href⟩ := List.exists_mem_of_ne_nil _ hin
    rw [← Bool.not_eq_true]
    intro hr
    have hdep := depsCompleted_iff.mp hr ref href (hacc.known b hb ref href).1
    change ref.depID ∈ (registered p manifests).completedBlocks at hdep
    rw [hc] at hdep
    exact AList.notMem_empty _ hdep
  · intro b hb
    by_cases hin : b.inputs = []
    · refine ⟨b.invocation p.id none, Or.inl ?_, rfl⟩
      change _ ∈ (registered p manifests).executableBlocks
      rw [he]
      exact List.mem_map_of_mem (List.mem_filter.mpr ⟨hb, by simp [hin]⟩)
    · obtain ⟨inv, hinv⟩ := GoMap.lookup_of_mem (hpend b hb hin)
      obtain ⟨c, hcm, -, hcb, rfl⟩ := hl _ _ hinv
      exact ⟨_, Or.inr (Or.inr ⟨_, hinv⟩), hcb⟩

theorem Stocked.taken (h : Stocked p manifests N t) {out rest : List BlockInvocation}
    (he : t.sched.executableBlocks = out ++ rest) : Stocked p manifests N (t.taken out rest) := by
  refine ⟨h.invariant.taken he, h.bounded, h.waits, fun b hb => ?_⟩
  obtain ⟨inv, hi, hid⟩ := h.held b hb
  exact ⟨inv, (holds_taken he inv).mpr hi, hid⟩

/-- No block gets lost in an update without error. -/
theorem Stocked.held_report (hacc : Accepted p manifests) (hkeys : KeysApart p)
    (hdist : DistinctKeys p N) (h : Stocked p manifests N t) (σ : MapOrder) {inv : BlockInvocation}
    {result : BlockInvocationResult} (hinv : inv ∈ t.handedOut) (hid : result.id = inv.id)
    (hfresh : inv.mapIndex = none → inv.id ∉ t.sched.completedBlocks)
    (herr : result.status ≠ .error) (hlen : result.items.length ≤ N) {b : PipelineBlock}
    (hb : b ∈ p.blocks) : ∃ i, (t.report σ inv result).Holds i ∧ i.id = b.id := by
  obtain ⟨i, hi, hib⟩ := h.held b hb
  unfold Trace.report
  by_cases hcomp : result.status = .complete
  · rw [update_complete σ _ hcomp]
    exact ⟨i, (holds_promote (t := { t with sched := { t.sched with
      completedBlocks := t.sched.completedBlocks.insert result.id result } }) σ i).mpr hi, hib⟩
  by_cases hmap : result.status = .map
  · rw [update_map σ _ hmap]
    have hpromote := fun i => (holds_promote
      (t := { t with sched := t.sched.handleMap σ result, reported := t.reported ++ [(inv, result)] })
      σ i).mpr
    by_cases hexp : t.sched.expands result = true
    · have hs := h.invariant.spreads hacc hkeys hdist h.bounded σ hinv hid hfresh hmap hlen hexp
      rcases hs.keeps i hi with hi | hd
      · exact ⟨i, hpromote i hi, hib⟩
      · have hpos : 0 < result.items.length := List.length_pos_iff.mpr (of_decide_eq_true hexp).1
        exact ⟨_, hpromote _ (hs.makes b hb (hib ▸ hd) 0 hpos), rfl⟩
    · have hsame : t.sched.handleMap σ result = t.sched := by
        rcases handleMap_same σ t.sched result with ⟨-, hs⟩ | ⟨_, hx, -⟩
        · exact hs
        · exact absurd hx hexp
      exact ⟨i, hpromote i (by rw [hsame]; exact hi), hib⟩
  by_cases hred : result.status = .reduce
  · rw [update_reduce σ _ hred]
    have hg := handleReduce_gathered σ t.sched
    rcases hi with hi | hi | ⟨k, hk⟩
    · exact ⟨i, Or.inl (hg.stays i hi), hib⟩
    · exact ⟨i, Or.inr (Or.inl hi), hib⟩
    · rcases hg.kept k (GoMap.mem_of_lookup hk) with hm | ⟨c, hc, hck, hm⟩
      · obtain ⟨j, hj⟩ := GoMap.lookup_of_mem hm
        have hij := hg.pending k j hj
        rw [hk] at hij
        cases hij
        exact ⟨i, Or.inr (Or.inr ⟨k, hj⟩), hib⟩
      · rw [h.invariant.causal.pipeline] at hc hm
        have hbase := h.invariant.indexing.based hacc hkeys h.invariant.causal c hc i (hck ▸ hk)
        exact ⟨_, Or.inl hm, by rw [← hib, hbase]⟩
  · rw [update_other σ _ herr hcomp hmap hred]
    exact ⟨i, hi, hib⟩

theorem Stocked.report (hacc : Accepted p manifests) (hkeys : KeysApart p)
    (hdist : DistinctKeys p N) (h : Stocked p manifests N t) (σ : MapOrder) {inv : BlockInvocation}
    {result : BlockInvocationResult} (hinv : inv ∈ t.handedOut) (hid : result.id = inv.id)
    (hfresh : inv.mapIndex = none → inv.id ∉ t.sched.completedBlocks)
    (herr : result.status ≠ .error) (hlen : result.items.length ≤ N) :
    Stocked p manifests N (t.report σ inv result) :=
  ⟨h.invariant.report hacc hkeys σ hinv hid hfresh, h.bounded.note hlen, h.waits.update σ result,
    fun _ hb => h.held_report hacc hkeys hdist σ hinv hid hfresh herr hlen hb⟩

/-- Every block with a result is completed, or no block reads it. -/
def AllSettled (p : Pipeline) (t : Trace) : Prop :=
  ∀ e ∈ t.reported, e.1.id ∈ t.sched.completedBlocks ∨
    ∀ b ∈ p.blocks, ∀ ref ∈ b.inputs, ref.depID ≠ e.1.id

theorem AllSettled.report (hp : t.sched.pipeline = p) (h : AllSettled p t) (σ : MapOrder)
    {inv : BlockInvocation} {result : BlockInvocationResult} (hid : result.id = inv.id)
    (hset : t.sched.Settled result) : AllSettled p (t.report σ inv result) := by
  have hmono : ∀ k ∈ t.sched.completedBlocks, k ∈ (t.sched.update σ result).completedBlocks :=
    fun k hk => (completed_update σ t.sched result k).mpr (Or.inl hk)
  intro e he
  rcases List.mem_append.mp he with he | he
  · exact (h e he).imp_left (hmono _)
  · rw [List.mem_singleton.mp he]
    rcases hset with hr | hu
    · exact Or.inl ((completed_update σ t.sched result _).mpr (Or.inr ⟨hid.symm, hr⟩))
    · rw [hp] at hu
      exact Or.inr fun b hb ref href => by
        rw [← hid]
        exact hu b hb ref href

/-- The pending block of least rank would have all its dependencies completed. -/
theorem Stocked.unstranded (hacc : Accepted p manifests) {rank : UUID → ℕ}
    (hrank : ∀ b ∈ p.blocks, ∀ ref ∈ b.inputs, rank ref.depID < rank b.id)
    (h : Stocked p manifests N t) (hset : AllSettled p t) : Unstranded p t := by
  intro hexec hnone
  have hdone : ∀ inv ∈ t.handedOut, ∃ e ∈ t.reported, e.1.id = inv.id := by
    intro inv hi
    have hr : ¬∀ e ∈ t.reported, e.1.invocationID ≠ inv.invocationID := fun hr => hnone inv ⟨hi, hr⟩
    simp only [not_forall, not_not] at hr
    obtain ⟨e, he, heq⟩ := hr
    have hidx : ∀ i, t.Holds i → i.Indexed := by
      intro i hi j hj
      rcases h.invariant.of_holds h.bounded hi with ⟨b, -, rfl | ⟨k, -, rfl⟩⟩
      · cases hj
      · cases hj
        exact Int.natCast_nonneg k
    have hidE := (parse_invocationID e.1
      (hidx e.1 (Or.inr (Or.inl (h.invariant.causal.reported e he).1)))).1
    rw [heq, (parse_invocationID inv (hidx inv (Or.inr (Or.inl hi)))).1] at hidE
    exact ⟨e, he, hidE.symm⟩
  have hfree : ∀ (n : ℕ) (b : PipelineBlock), b ∈ p.blocks → rank b.id ≤ n →
      ∀ inv, inv.id = b.id → ∀ k, t.sched.pendingBlocks.lookup k ≠ some inv := by
    intro n
    induction n using Nat.strong_induction_on with
    | _ n ih =>
      intro b hb hn inv hib k hk
      have hnot := h.waits k inv hk
      rw [← Bool.not_eq_true] at hnot
      refine hnot (depsCompleted_iff.mpr fun ref href _ => ?_)
      obtain ⟨c, hc, heq⟩ := h.invariant.causal.made inv (Or.inr (Or.inr ⟨k, hk⟩))
      have hcb : c = b := unique_of_nodup hacc.nodup hc hb (by rw [← hib, heq]; rfl)
      rw [heq, hcb] at href
      obtain ⟨d, hd, hdid⟩ := List.mem_map.mp (hacc.known b hb ref href).2
      obtain ⟨j, hj, hjd⟩ := h.held d hd
      rcases hj with hj | hj | ⟨k', hk'⟩
      · rw [hexec] at hj
        exact absurd hj List.not_mem_nil
      · obtain ⟨e, he, hid⟩ := hdone j hj
        rcases hset e he with hc | hu
        · rwa [hid, hjd, hdid] at hc
        · exact absurd (by rw [hid, hjd, hdid]) (hu b hb ref href)
      · have hlt := hrank b hb ref href
        rw [← hdid] at hlt
        exact absurd hk' (ih (rank d.id) (by omega) d hd (le_refl _) j hjd k')
  have hempty : ∀ k inv, t.sched.pendingBlocks.lookup k ≠ some inv := by
    intro k inv hk
    obtain ⟨b, hb, heq⟩ := h.invariant.causal.made inv (Or.inr (Or.inr ⟨k, hk⟩))
    exact hfree _ b hb (le_refl _) inv (by rw [heq]; rfl) k hk
  refine ⟨GoMap.eq_empty_of_lookup fun k => ?_, fun b hb => ?_⟩
  · cases hl : t.sched.pendingBlocks.lookup k with
    | none => rfl
    | some inv => exact absurd hl (hempty k inv)
  · obtain ⟨i, hi, hib⟩ := h.held b hb
    rcases hi with hi | hi | ⟨k, hk⟩
    · rw [hexec] at hi
      exact absurd hi List.not_mem_nil
    · exact ⟨i, hi, hib⟩
    · exact absurd hk (hempty k i)

theorem stocked_call (hacc : Accepted p manifests) (hkeys : KeysApart p) (hdist : DistinctKeys p N)
    {c : Call} (h : Stocked p manifests N t ∧ AllSettled p t) (hc : t.Fresh c ∧ t.Settles N c) :
    Stocked p manifests N (t.call c) ∧ AllSettled p (t.call c) := by
  obtain ⟨hs, hset⟩ := h
  cases c with
  | next =>
    obtain ⟨out, rest, he, heq⟩ := t.next_taken
    rw [Trace.call, heq]
    exact ⟨hs.taken he, hset⟩
  | drain => exact ⟨hs.taken (List.append_nil _).symm, hset⟩
  | report σ n result =>
    obtain ⟨hfresh, herr, hlen, hsettled⟩ := hc
    obtain ⟨inv, hinv, hid, hnew, heq⟩ := hfresh.report
    rw [heq]
    exact ⟨hs.report hacc hkeys hdist σ hinv hid hnew herr hlen,
      hset.report hs.invariant.causal.pipeline σ hid hsettled⟩

end
end Trace
end Spade
