import Spade.Core.Rehydrate

set_option autoImplicit false

/-!
# A replay of any results

No map context is known while results are replayed, so `Map` and `Reduce` results change
nothing and an error empties the queues. A block without a `Complete` result, and with
it some executable one, is left otherwise.
-/
namespace Spade
open UUIDPackage SinglePipelineScheduler MultiTenantScheduler

/-- The dependencies of the blocks come before them in some order. -/
def Pipeline.Ranked (p : Pipeline) : Prop :=
  ∃ rank : UUID → ℕ, ∀ b ∈ p.blocks, ∀ r ∈ b.inputs, rank r.depID < rank b.id

/-- The blocks that are replayed as complete. -/
def completions (l : List BlockInvocationResult) : List UUID :=
  (l.filter fun r => r.status = .complete).map BlockInvocationResult.id

variable {p : Pipeline} {manifests : Manifests} {done : List UUID} {s : SinglePipelineScheduler}

theorem Replayed.executable_of_open (hacc : Accepted p manifests) (hrank : p.Ranked)
    (h : Replayed p done s) {b : PipelineBlock} (hb : b ∈ p.blocks) (hopen : b.id ∉ done) :
    s.executableBlocks ≠ [] := by
  intro hnil
  obtain ⟨rank, hrank⟩ := hrank
  have hall : ∀ n, ∀ b ∈ p.blocks, rank b.id < n → b.id ∈ done := by
    intro n
    induction n with
    | zero => exact fun b _ hn => absurd hn (Nat.not_lt_zero _)
    | succ n ih =>
      intro b hb hn
      have hready : s.ready (b.invocation p.id none) = true := by
        rw [h.ready_iff hacc hb]
        intro ref href
        obtain ⟨b', hb', hid⟩ := List.mem_map.mp (hacc.known b hb ref href).2
        have hlt := hrank b hb ref href
        rw [← hid] at hlt ⊢
        exact ih b' hb' (by omega)
      rcases h.split.ready b hb hready with hc | he | ho
      · exact (h.completed _).mp hc
      · rw [hnil] at he
        cases he
      · exact ho.elim
  exact hopen (hall _ b hb (Nat.lt_succ_self _))

variable [UUIDPackage] (σ : MapOrder)

omit [UUIDPackage] in
/-- Nothing is left to promote. -/
theorem Replayed.promoteReady (h : Replayed p done s) : s.promoteReady σ = s := by
  have hnone : (σ.range s.pendingBlocks).filter
      (fun e => depsCompleted s.completedBlocks e.2.inputs) = [] := by
    rw [List.filter_eq_nil_iff]
    rintro ⟨k, inv⟩ he hr
    obtain ⟨b, -, -, -, hn⟩ := (h.split.pending k inv).mp ((σ.mem_range _ _ _).mp he)
    rw [SinglePipelineScheduler.ready, hr] at hn
    cases hn
  unfold SinglePipelineScheduler.promoteReady
  rw [hnone]
  rfl

theorem Replayed.replay_same (h : Replayed p done s) (hctx : s.mapContexts = ∅)
    {r : BlockInvocationResult} (hr : r.status = .map ∨ r.status = .reduce) :
    MultiTenantScheduler.replay σ s r = s := by
  have hplain : ¬(r.status = .complete ∨ r.status = .error) := by
    rcases hr with hr | hr <;> simp [hr]
  have hupdate : s.update σ r = s := by
    unfold SinglePipelineScheduler.update
    rcases hr with hr | hr
    · have hmap : s.handleMap σ r = s := by
        unfold handleMap
        rw [hctx]
        split_ifs <;> rfl
      rw [hr]
      dsimp only
      rw [hmap, h.promoteReady σ]
    · rw [hr]
      dsimp only
      unfold handleReduce
      have hempty : σ.range s.mapContexts = [] := by
        rw [hctx]
        exact (σ.range_perm _).eq_nil
      rw [hempty]
      rfl
  unfold MultiTenantScheduler.replay
  dsimp only
  rw [if_neg hplain, hupdate]

theorem replay_contexts {r : BlockInvocationResult} (hctx : s.mapContexts = ∅)
    (hr : r.status = .complete) : (MultiTenantScheduler.replay σ s r).mapContexts = ∅ := by
  rw [replay_complete σ hr, update_complete σ s hr]
  dsimp only
  rw [(promoteReady_spec σ _).2.2.2.1]
  exact hctx

theorem Replayed.foldl_any (hacc : Accepted p manifests) {l : List BlockInvocationResult}
    (hl : ∀ r ∈ l, r.status = .complete ∨ r.status = .map ∨ r.status = .reduce)
    (h : Replayed p done s) (hctx : s.mapContexts = ∅) :
    Replayed p ((completions l).reverse ++ done) (l.foldl (MultiTenantScheduler.replay σ) s) := by
  induction l generalizing done s with
  | nil => exact h
  | cons r l ih =>
    have hrest : ∀ r' ∈ l, r'.status = .complete ∨ r'.status = .map ∨ r'.status = .reduce :=
      fun r' hr' => hl r' (List.mem_cons_of_mem r hr')
    rw [List.foldl_cons]
    rcases hl r List.mem_cons_self with hr | hr
    · have hnext := ih hrest (h.replay σ hacc hr) (replay_contexts σ hctx hr)
      have hcons : completions (r :: l) = r.id :: completions l := by
        unfold completions
        rw [List.filter_cons_of_pos (by simpa using hr), List.map_cons]
      rw [hcons, List.reverse_cons, List.append_assoc]
      exact hnext
    · have hcons : completions (r :: l) = completions l := by
        unfold completions
        rw [List.filter_cons_of_neg (by rcases hr with hr | hr <;> simp [hr])]
      rw [hcons, h.replay_same σ hctx hr]
      exact ih hrest h hctx

omit [UUIDPackage] in
theorem new_contexts (p : Pipeline) : (newSchedulerForPipeline p).mapContexts = ∅ := by
  unfold newSchedulerForPipeline SinglePipelineScheduler.addPipeline
  cases buildDependencyGraph p with
  | error err => rfl
  | ok g =>
    obtain ⟨pending, heq, -⟩ := foldl_addBlock p.blocks { pipeline := p, graph := g }
    exact congrArg SinglePipelineScheduler.mapContexts heq

/-- A block without a `Complete` result leaves something to run. -/
theorem executable_of_replay (hacc : Accepted p manifests) (hrank : p.Ranked)
    {l : List BlockInvocationResult}
    (hl : ∀ r ∈ l, r.status = .complete ∨ r.status = .map ∨ r.status = .reduce)
    {b : PipelineBlock} (hb : b ∈ p.blocks) (hopen : b.id ∉ completions l) :
    (l.foldl (MultiTenantScheduler.replay σ) (newSchedulerForPipeline p)).executableBlocks ≠ [] := by
  have hnew := (replayed_new hacc).1
  refine (hnew.foldl_any σ hacc hl (new_contexts p)).executable_of_open hacc hrank hb ?_
  rw [List.append_nil, List.mem_reverse]
  exact hopen

end Spade
