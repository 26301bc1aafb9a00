import Spade.Core.MultiTenant
import Spade.Core.Samples
import Spade.Core.Split

set_option autoImplicit false

/-!
# What `Rehydrate` rebuilds from `Complete` results

A result is pruned from the queue only when it is replayed, so the replay of a
block before one of its dependencies leaves it behind.
-/
namespace Spade
open UUIDPackage SinglePipelineScheduler MultiTenantScheduler

/-- No id precedes a dependency of its block, given those that came before. -/
def Pipeline.inOrder (p : Pipeline) (done : List UUID) : List UUID → Bool
  | [] => true
  | id :: ids =>
    (p.blocks.all fun b => b.id ≠ id || b.inputs.all fun ref => ref.depID ∈ id :: done) &&
      p.inOrder (id :: done) ids

/-- The state that the results of the blocks `done` call for. -/
structure Rehydrated (p : Pipeline) (done : List UUID) (s : SinglePipelineScheduler) : Prop where
  completed : ∀ k, k ∈ s.completedBlocks ↔ k ∈ done
  executable : ∀ k, k ∈ s.executableBlocks.map BlockInvocation.id ↔
    k ∉ done ∧ ∃ b ∈ p.blocks, b.id = k ∧ ∀ ref ∈ b.inputs, ref.depID ∈ done
  once : (s.executableBlocks.map BlockInvocation.id).Nodup
  pending : ∀ k, k ∈ s.pendingBlocks ↔
    k ∉ done ∧ ∃ b ∈ p.blocks, b.id = k ∧ ¬∀ ref ∈ b.inputs, ref.depID ∈ done

/-- What holds of the replay whatever the order. -/
structure Replayed (p : Pipeline) (done : List UUID) (s : SinglePipelineScheduler) : Prop where
  split : s.Split p fun _ => False
  completed : ∀ k, k ∈ s.completedBlocks ↔ k ∈ done
  once : (s.executableBlocks.map BlockInvocation.id).Nodup

/-- None of the blocks is in a queue. -/
def Clear (ids : List UUID) (s : SinglePipelineScheduler) : Prop :=
  (∀ inv ∈ s.executableBlocks, inv.id ∉ ids) ∧ ∀ k ∈ s.pendingBlocks, k ∉ ids

section
variable {p : Pipeline} {manifests : Manifests} {done : List UUID} {s : SinglePipelineScheduler}

theorem Replayed.ready_iff (hacc : Accepted p manifests) (h : Replayed p done s) {b : PipelineBlock}
    (hb : b ∈ p.blocks) :
    s.ready (b.invocation p.id none) = true ↔ ∀ ref ∈ b.inputs, ref.depID ∈ done := by
  rw [ready_invocation, depsCompleted_iff]
  refine forall₂_congr fun ref hr => ?_
  rw [h.completed]
  exact ⟨fun hd => hd (hacc.known b hb ref hr).1, fun hd _ => hd⟩

theorem Replayed.pending_iff (hacc : Accepted p manifests) (h : Replayed p done s) (k : UUID) :
    k ∈ s.pendingBlocks ↔ ∃ b ∈ p.blocks, b.id = k ∧ ¬∀ ref ∈ b.inputs, ref.depID ∈ done := by
  rw [GoMap.mem_iff_lookup]
  constructor
  · rintro ⟨inv, hl⟩
    obtain ⟨b, hb, hk, rfl, hn⟩ := (h.split.pending k inv).mp hl
    refine ⟨b, hb, hk, fun hd => ?_⟩
    rw [(h.ready_iff hacc hb).mpr hd] at hn
    cases hn
  · rintro ⟨b, hb, hk, hd⟩
    refine ⟨_, (h.split.pending k _).mpr ⟨b, hb, hk, rfl, ?_⟩⟩
    by_contra hn
    exact hd ((h.ready_iff hacc hb).mp (by simpa using hn))

/-- All that can go wrong is a block that is left behind. -/
theorem Replayed.rehydrated_iff (hacc : Accepted p manifests) (h : Replayed p done s) :
    Rehydrated p done s ↔ Clear done s := by
  constructor
  · intro hr
    exact ⟨fun inv hi => ((hr.executable inv.id).mp (List.mem_map_of_mem hi)).1,
      fun k hk => ((hr.pending k).mp hk).1⟩
  · rintro ⟨hexec, hpend⟩
    refine ⟨h.completed, fun k => ⟨fun hk => ?_, ?_⟩, h.once, fun k => ⟨fun hk => ?_, ?_⟩⟩
    · obtain ⟨inv, hi, rfl⟩ := List.mem_map.mp hk
      obtain ⟨b, hb, heq, hr⟩ := h.split.released inv (Or.inl hi)
      rw [heq] at hr
      exact ⟨hexec inv hi, b, hb, by rw [heq]; rfl, (h.ready_iff hacc hb).mp hr⟩
    · rintro ⟨hk, b, hb, rfl, hd⟩
      rcases h.split.ready b hb ((h.ready_iff hacc hb).mpr hd) with hc | he | ho
      · exact absurd ((h.completed _).mp hc) hk
      · exact List.mem_map.mpr ⟨_, he, rfl⟩
      · exact ho.elim
    · exact ⟨hpend k hk, (h.pending_iff hacc k).mp hk⟩
    · rintro ⟨-, hb⟩
      exact (h.pending_iff hacc k).mpr hb

variable [UUIDPackage] (σ : MapOrder) {r : BlockInvocationResult}

theorem replay_complete (hr : r.status = .complete) : replay σ s r = { s.update σ r with
    executableBlocks := (s.update σ r).executableBlocks.filter fun inv => inv.id ≠ r.id } := by
  simp [replay, hr]

theorem mem_replay (hr : r.status = .complete) (inv : BlockInvocation) :
    inv ∈ (replay σ s r).executableBlocks ↔
      inv ∈ (s.update σ r).executableBlocks ∧ inv.id ≠ r.id := by
  rw [replay_complete σ hr]
  simp

theorem replay_pending (hr : r.status = .complete) :
    (replay σ s r).pendingBlocks = (s.update σ r).pendingBlocks := by
  rw [replay_complete σ hr]

theorem Replayed.replay (hacc : Accepted p manifests) (h : Replayed p done s)
    (hr : r.status = .complete) : Replayed p (r.id :: done) (replay σ s r) := by
  obtain ⟨hcomp, -, -⟩ := complete_spec (s := s) σ hr
  have honce := h.split.promoted_nodup σ hacc hr h.once
  rw [replay_complete σ hr]
  refine ⟨(h.split.complete σ hr).prune ?_, fun k => ?_, ?_⟩
  · intro b _ hb
    have hid : b.id = r.id := by simpa [PipelineBlock.invocation] using of_decide_eq_false hb
    exact (hcomp b.id).mpr (Or.inr hid)
  · rw [hcomp, h.completed, List.mem_cons, or_comm]
  · exact honce.sublist (List.filter_sublist.map BlockInvocation.id)

/-- Pending blocks stay pending or become executable. -/
theorem Replayed.moved (h : Replayed p done s) (hr : r.status = .complete) {k : UUID}
    (hk : k ∈ s.pendingBlocks) : k ∈ (s.update σ r).pendingBlocks ∨
      ∃ inv ∈ (s.update σ r).executableBlocks, inv.id = k := by
  obtain ⟨-, hexec, hpend⟩ := complete_spec (s := s) σ hr
  obtain ⟨inv, hl⟩ := GoMap.lookup_of_mem hk
  by_cases hn : (s.update σ r).ready inv = true
  · obtain ⟨b, -, hid, rfl, -⟩ := (h.split.pending k inv).mp hl
    exact Or.inr ⟨_, (hexec _).mpr (Or.inr ⟨k, hl, hn⟩), hid⟩
  · exact Or.inl (GoMap.mem_of_lookup ((hpend k inv).mpr ⟨hl, by simpa using hn⟩))

/-- A replay in order leaves nothing behind, and one out of order does. -/
theorem Replayed.clear_iff (hacc : Accepted p manifests) (h : Replayed p done s)
    (hclear : Clear done s) (hr : r.status = .complete) :
    Clear (r.id :: done) (MultiTenantScheduler.replay σ s r) ↔
      ∀ b ∈ p.blocks, b.id = r.id → ∀ ref ∈ b.inputs, ref.depID ∈ r.id :: done := by
  have hnext := h.replay σ hacc hr
  obtain ⟨-, hexec, hpend⟩ := complete_spec (s := s) σ hr
  constructor
  · intro hc b hb hid
    by_contra hd
    exact hc.2 r.id ((hnext.pending_iff hacc _).mpr ⟨b, hb, hid, hd⟩) (by simp)
  · intro hd
    constructor
    · intro inv hi
      obtain ⟨hi, hne⟩ := (mem_replay σ hr inv).mp hi
      rw [List.mem_cons, not_or]
      refine ⟨hne, ?_⟩
      rcases (hexec inv).mp hi with hi | ⟨k, hk, -⟩
      · exact hclear.1 inv hi
      · obtain ⟨b, -, hid, rfl, -⟩ := (h.split.pending k inv).mp hk
        change b.id ∉ done
        rw [hid]
        exact hclear.2 k (GoMap.mem_of_lookup hk)
    · intro k hk
      rw [List.mem_cons, not_or]
      constructor
      · rintro rfl
        obtain ⟨b, hb, hid, hn⟩ := (hnext.pending_iff hacc _).mp hk
        exact hn (hd b hb hid)
      · rw [replay_pending σ hr] at hk
        obtain ⟨inv, hl⟩ := GoMap.lookup_of_mem hk
        exact hclear.2 k (GoMap.mem_of_lookup ((hpend k inv).mp hl).1)

/-- What is left behind once stays in a queue. -/
theorem Replayed.stuck (h : Replayed p done s) (hclear : ¬Clear done s)
    (hr : r.status = .complete) (hnew : r.id ∉ done) :
    ¬Clear (r.id :: done) (MultiTenantScheduler.replay σ s r) := by
  obtain ⟨-, hexec, -⟩ := complete_spec (s := s) σ hr
  have keep : ∀ inv ∈ (s.update σ r).executableBlocks, inv.id ∈ done →
      inv ∈ (MultiTenantScheduler.replay σ s r).executableBlocks := fun inv hi hd =>
    (mem_replay σ hr inv).mpr ⟨hi, fun hid => hnew (hid ▸ hd)⟩
  rintro ⟨hc, hp⟩
  refine hclear ⟨fun inv hi hd => ?_, fun k hk hd => ?_⟩
  · exact hc inv (keep inv ((hexec inv).mpr (Or.inl hi)) hd) (by simp [hd])
  · rcases h.moved σ hr hk with hk | ⟨inv, hi, rfl⟩
    · exact hp k (by rwa [replay_pending σ hr]) (by simp [hd])
    · exact hc inv (keep inv hi hd) (by simp [hd])

theorem Replayed.foldl (hacc : Accepted p manifests) {l : List BlockInvocationResult}
    (hl : ∀ r ∈ l, r.status = .complete) (h : Replayed p done s) :
    Replayed p ((l.map BlockInvocationResult.id).reverse ++ done)
      (l.foldl (MultiTenantScheduler.replay σ) s) := by
  induction l generalizing done s with
  | nil => exact h
  | cons r l ih =>
    have hnext := ih (fun r' hr' => hl r' (by simp [hr'])) (h.replay σ hacc (hl r (by simp)))
    simpa using hnext

theorem Replayed.foldl_stuck (hacc : Accepted p manifests) {l : List BlockInvocationResult}
    (hl : ∀ r ∈ l, r.status = .complete) (h : Replayed p done s) (hclear : ¬Clear done s)
    (hn : ((l.map BlockInvocationResult.id).reverse ++ done).Nodup) :
    ¬Clear ((l.map BlockInvocationResult.id).reverse ++ done)
      (l.foldl (MultiTenantScheduler.replay σ) s) := by
  induction l generalizing done s with
  | nil => exact hclear
  | cons r l ih =>
    have hr := hl r (by simp)
    simp only [List.map_cons, List.reverse_cons, List.append_assoc, List.singleton_append] at hn ⊢
    have hnew : r.id ∉ done := (List.nodup_cons.mp (List.nodup_append.mp hn).2.1).1
    exact ih (fun r' hr' => hl r' (by simp [hr'])) (h.replay σ hacc hr) (h.stuck σ hclear hr hnew) hn

theorem Replayed.foldl_clear_iff (hacc : Accepted p manifests) {l : List BlockInvocationResult}
    (hl : ∀ r ∈ l, r.status = .complete) (h : Replayed p done s) (hclear : Clear done s)
    (hn : ((l.map BlockInvocationResult.id).reverse ++ done).Nodup) :
    Clear ((l.map BlockInvocationResult.id).reverse ++ done)
        (l.foldl (MultiTenantScheduler.replay σ) s) ↔
      p.inOrder done (l.map BlockInvocationResult.id) = true := by
  induction l generalizing done s with
  | nil => exact iff_of_true hclear rfl
  | cons r l ih =>
    have hr := hl r (by simp)
    have hrest : ∀ r' ∈ l, r'.status = .complete := fun r' hr' => hl r' (by simp [hr'])
    have hone := h.clear_iff σ hacc hclear hr
    have hfirst : (p.blocks.all fun b => b.id ≠ r.id ||
        b.inputs.all fun ref => ref.depID ∈ r.id :: done) = true ↔
        ∀ b ∈ p.blocks, b.id = r.id → ∀ ref ∈ b.inputs, ref.depID ∈ r.id :: done := by
      simp only [List.all_eq_true, Bool.or_eq_true, decide_eq_true_eq]
      exact forall₂_congr fun b _ => by rw [ne_eq, ← imp_iff_not_or]
    simp only [List.map_cons, List.reverse_cons, List.append_assoc, List.singleton_append] at hn ⊢
    rw [Pipeline.inOrder, Bool.and_eq_true, hfirst, ← hone]
    by_cases hnow : Clear (r.id :: done) (MultiTenantScheduler.replay σ s r)
    · rw [List.foldl_cons, ih hrest (h.replay σ hacc hr) hnow hn]
      simp [hnow]
    · refine iff_of_false ?_ fun hall => hnow hall.1
      exact (h.replay σ hacc hr).foldl_stuck σ hacc hrest hnow hn

end

section
variable [UUIDPackage] {p : Pipeline} {manifests : Manifests}

omit [UUIDPackage] in
theorem replayed_new (hacc : Accepted p manifests) :
    Replayed p [] (newSchedulerForPipeline p) ∧ Clear [] (newSchedulerForPipeline p) := by
  obtain ⟨g, hg, -⟩ := hacc.graph
  obtain ⟨-, -, hc, -, -, he, -, -⟩ := registered_queues manifests hg
  have hc : (newSchedulerForPipeline p).completedBlocks = ∅ := hc
  have he : (newSchedulerForPipeline p).executableBlocks = _ := he
  refine ⟨⟨split_new hacc, fun k => ?_, ?_⟩, fun _ _ => by simp, fun _ _ => by simp⟩
  · rw [hc]
    exact iff_of_false (AList.notMem_empty k) (by simp)
  · rw [he, List.map_map]
    exact hacc.nodup.sublist (List.filter_sublist.map PipelineBlock.id)

/-- What a whole replay leaves. -/
theorem replayed_all (hacc : Accepted p manifests) {l : List BlockInvocationResult}
    (hl : ∀ r ∈ l, r.status = .complete) (hn : (l.map BlockInvocationResult.id).Nodup)
    (σ : MapOrder) :
    Replayed p (l.map BlockInvocationResult.id) (l.foldl (replay σ) (newSchedulerForPipeline p)) ∧
      (Clear (l.map BlockInvocationResult.id) (l.foldl (replay σ) (newSchedulerForPipeline p)) ↔
        p.inOrder [] (l.map BlockInvocationResult.id) = true) := by
  obtain ⟨hnew, hclear⟩ := replayed_new hacc
  have hfinal := hnew.foldl σ hacc hl
  have hiff := hnew.foldl_clear_iff σ hacc hl hclear (by simpa using hn)
  have hmem : ∀ k, k ∈ (l.map BlockInvocationResult.id).reverse ++ [] ↔
      k ∈ l.map BlockInvocationResult.id := by simp
  refine ⟨⟨hfinal.split, fun k => (hfinal.completed k).trans (hmem k), hfinal.once⟩, ?_⟩
  rw [← hiff]
  simp only [Clear, hmem]

omit [UUIDPackage] in
/-- Results that come sorted by their blocks are in order when the blocks are sorted so. -/
theorem inOrder_of_sorted {le : UUID → UUID → Prop} (hanti : ∀ u v, le u v → le v u → u = v)
    {ids done : List UUID} (hs : ids.Pairwise le)
    (hdeps : ∀ id ∈ ids, ∀ b ∈ p.blocks, b.id = id → ∀ ref ∈ b.inputs,
      ref.depID ∈ done ∨ ref.depID ∈ ids ∧ le ref.depID id) : p.inOrder done ids = true := by
  induction ids generalizing done with
  | nil => rfl
  | cons id ids ih =>
    obtain ⟨hle, hs⟩ := List.pairwise_cons.mp hs
    rw [Pipeline.inOrder, Bool.and_eq_true]
    constructor
    · simp only [List.all_eq_true, Bool.or_eq_true, decide_eq_true_eq]
      intro b hb
      rw [ne_eq, ← imp_iff_not_or]
      intro hid ref href
      rcases hdeps id (by simp) b hb hid ref href with hd | ⟨hd, hbefore⟩
      · simp [hd]
      · rcases List.mem_cons.mp hd with hd | hd
        · simp [hd]
        · simp [hanti _ _ hbefore (hle _ hd)]
    · refine ih hs fun id' hid' b hb hb' ref href => ?_
      rcases hdeps id' (by simp [hid']) b hb hb' ref href with hd | ⟨hd, hbefore⟩
      · exact Or.inl (by simp [hd])
      · rcases List.mem_cons.mp hd with hd | hd
        · exact Or.inl (by simp [hd])
        · exact Or.inr ⟨hd, hbefore⟩

/-- The replay of `Complete` results rebuilds the scheduler exactly when no result precedes
the result of a dependency of its block. -/
theorem rehydrate_iff {τ : MapOrder} (hval : validatePipeline τ p manifests = [])
    {l : List BlockInvocationResult} (hl : ∀ r ∈ l, r.status = .complete)
    (hn : (l.map BlockInvocationResult.id).Nodup) (σ : MapOrder) (s : MultiTenantScheduler) :
    (∃ ps, (s.rehydrate σ p l).schedulers.lookup p.id = some ps ∧
      Rehydrated p (l.map BlockInvocationResult.id) ps) ↔
      p.inOrder [] (l.map BlockInvocationResult.id) = true := by
  have hacc := accepted_of_validate hval
  obtain ⟨hset, hiff⟩ := replayed_all hacc hl hn σ
  have hlook : (s.rehydrate σ p l).schedulers.lookup p.id =
      some (l.foldl (replay σ) (newSchedulerForPipeline p)) := AList.lookup_insert _
  rw [← hiff, ← hset.rehydrated_iff hacc]
  constructor
  · rintro ⟨ps, hps, h⟩
    rw [hlook] at hps
    cases hps
    exact h
  · exact fun h => ⟨_, hlook, h⟩

end
end Spade

namespace Spade.Samples
open Uuid

theorem rehydrate_zigzag :
    (∃ ps, (({} : MultiTenantScheduler).rehydrate .stored zigzag
        [completed 2, completed 1]).schedulers.lookup zigzag.id = some ps ∧
      Rehydrated zigzag [blockID 2, blockID 1] ps) ↔
      zigzag.inOrder [] [blockID 2, blockID 1] = true :=
  have hval : validatePipeline .stored zigzag manifests = [] := by decide
  rehydrate_iff hval (by decide) (by decide) .stored {}

/-- Block 1 depends on block 2 and is replayed before it. -/
theorem rehydrate_fails : validatePipeline .stored zigzag manifests = [] ∧
    ¬∃ ps, (({} : MultiTenantScheduler).rehydrate .stored zigzag
        [completed 1, completed 2]).schedulers.lookup zigzag.id = some ps ∧
      Rehydrated zigzag [blockID 1, blockID 2] ps := by
  refine ⟨by decide, ?_⟩
  rintro ⟨ps, hps, h⟩
  have hbad : ∀ e ∈ (({} : MultiTenantScheduler).rehydrate .stored zigzag
      [completed 1, completed 2]).schedulers.items,
      blockID 1 ∈ e.2.executableBlocks.map BlockInvocation.id := by decide
  obtain ⟨hno, -⟩ := (h.executable _).mp (hbad _ ((GoMap.mem_items _ _ _).mpr hps))
  exact hno (by simp)

end Spade.Samples
