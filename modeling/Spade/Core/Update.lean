import Spade.Core.FanOut

set_option autoImplicit false

/-! # `Update` by the kind of result -/
namespace Spade
open UUIDPackage
variable [UUIDPackage]

namespace SinglePipelineScheduler

theorem update_error (σ : MapOrder) (s : SinglePipelineScheduler)
    {result : BlockInvocationResult} (h : result.status = .error) :
    s.update σ result = { s with pendingBlocks := ∅, executableBlocks := [], cancelled := true } := by
  unfold update
  rw [h]

theorem update_complete (σ : MapOrder) (s : SinglePipelineScheduler)
    {result : BlockInvocationResult} (h : result.status = .complete) :
    s.update σ result =
      { s with completedBlocks := s.completedBlocks.insert result.id result }.promoteReady σ := by
  unfold update
  rw [h]

theorem update_map (σ : MapOrder) (s : SinglePipelineScheduler)
    {result : BlockInvocationResult} (h : result.status = .map) :
    s.update σ result = (s.handleMap σ result).promoteReady σ := by
  unfold update
  rw [h]

theorem update_reduce (σ : MapOrder) (s : SinglePipelineScheduler)
    {result : BlockInvocationResult} (h : result.status = .reduce) :
    s.update σ result = s.handleReduce σ := by
  unfold update
  rw [h]

theorem update_other (σ : MapOrder) (s : SinglePipelineScheduler)
    {result : BlockInvocationResult} (h₁ : result.status ≠ .error) (h₂ : result.status ≠ .complete)
    (h₃ : result.status ≠ .map) (h₄ : result.status ≠ .reduce) : s.update σ result = s := by
  unfold update
  split
  · exact absurd (by assumption) h₁
  · exact absurd (by assumption) h₂
  · exact absurd (by assumption) h₃
  · exact absurd (by assumption) h₄
  · rfl

/-- The result carries items and belongs to a map context. -/
def expands (s : SinglePipelineScheduler) (r : BlockInvocationResult) : Bool :=
  r.items ≠ [] ∧ r.id ∈ s.mapContexts

/-- The results that `Update` stores in `CompletedBlocks`. -/
def records (s : SinglePipelineScheduler) (r : BlockInvocationResult) : Bool :=
  r.status = .complete ∨ r.status = .map ∧ s.expands r

theorem foldl_fanOut_same (n : ℕ) (ids : List UUID) (s : SinglePipelineScheduler) :
    s.SameButQueues (ids.foldl (fanOut n) s) := by
  induction ids generalizing s with
  | nil => rfl
  | cons id ids ih =>
    have hone : s.SameButQueues (s.fanOut n id) := by
      have h := (foldl_fanOutOne (s.fanOutOriginal id) (List.range n)
        { s with pendingBlocks := s.pendingBlocks.erase id }).1
      exact h
    exact hone.trans (ih _)

/-- `HandleMap` on the fields other than the queues. -/
theorem handleMap_same (σ : MapOrder) (s : SinglePipelineScheduler) (r : BlockInvocationResult) :
    (s.expands r = false ∧ s.handleMap σ r = s) ∨ ∃ ctx, s.expands r = true ∧
      s.mapContexts.lookup r.id = some ctx ∧
      SameButQueues { s with
        mapContexts := s.mapContexts.insert r.id { ctx with expansionItems := r.items }
        completedBlocks := s.completedBlocks.insert r.id r } (s.handleMap σ r) := by
  by_cases hne : r.items = []
  · exact Or.inl ⟨by simp [expands, hne], handleMap_skip σ (Or.inl hne)⟩
  · cases hctx : s.mapContexts.lookup r.id with
    | none =>
      have hno : r.id ∉ s.mapContexts := by
        intro hm
        obtain ⟨ctx, h⟩ := GoMap.lookup_of_mem hm
        rw [hctx] at h
        cases h
      exact Or.inl ⟨by simp [expands, hno], handleMap_skip σ (Or.inr hctx)⟩
    | some ctx =>
      refine Or.inr ⟨ctx, by simp [expands, hne, GoMap.mem_of_lookup hctx], rfl, ?_⟩
      unfold handleMap
      simp only [hne, if_false, hctx]
      exact foldl_fanOut_same _ _ _

theorem update_completedBlocks (σ : MapOrder) (s : SinglePipelineScheduler)
    (r : BlockInvocationResult) : (s.update σ r).completedBlocks =
      if s.records r then s.completedBlocks.insert r.id r else s.completedBlocks := by
  by_cases herr : r.status = .error
  · simp [update_error σ s herr, records, herr]
  by_cases hcomp : r.status = .complete
  · rw [update_complete σ s hcomp, (promoteReady_spec σ _).2.2.1]
    simp [records, hcomp]
  by_cases hmap : r.status = .map
  · rw [update_map σ s hmap, (promoteReady_spec σ _).2.2.1]
    rcases handleMap_same σ s r with ⟨hx, hs⟩ | ⟨ctx, hx, -, hs⟩
    · simp [hs, records, hcomp, hx]
    · rw [hs]
      simp [records, hmap, hx]
  by_cases hred : r.status = .reduce
  · rw [update_reduce σ s hred, (handleReduce_gathered σ s).same]
    simp [records, hcomp, hmap]
  · simp [update_other σ s herr hcomp hmap hred, records, hcomp, hmap]

theorem completed_update (σ : MapOrder) (s : SinglePipelineScheduler) (r : BlockInvocationResult)
    (k : UUID) : k ∈ (s.update σ r).completedBlocks ↔
      k ∈ s.completedBlocks ∨ k = r.id ∧ s.records r = true := by
  rw [update_completedBlocks]
  split_ifs with h
  · rw [AList.mem_insert, or_comm]
    simp [h]
  · simp [h]

/-- The contexts of `s'` are those of `s` with other items at most. -/
def SameContexts (s s' : SinglePipelineScheduler) : Prop :=
  (∀ m ctx, s'.mapContexts.lookup m = some ctx → ∃ ctx', s.mapContexts.lookup m = some ctx' ∧
    ctx.mappedBlockIDs = ctx'.mappedBlockIDs ∧ ctx.reduceBlockID = ctx'.reduceBlockID) ∧
  ∀ m, m ∈ s'.mapContexts ↔ m ∈ s.mapContexts

omit [UUIDPackage] in
theorem sameContexts_of_eq {s s' : SinglePipelineScheduler} (h : s'.mapContexts = s.mapContexts) :
    s.SameContexts s' := by
  unfold SameContexts
  rw [h]
  exact ⟨fun _ ctx hm => ⟨ctx, hm, rfl, rfl⟩, fun _ => Iff.rfl⟩

omit [UUIDPackage] in
theorem sameContexts_insert {s s' : SinglePipelineScheduler} {m : UUID} {ctx : MapContext}
    {items : List ExpansionItem} (hm : s.mapContexts.lookup m = some ctx)
    (h : s'.mapContexts = s.mapContexts.insert m { ctx with expansionItems := items }) :
    s.SameContexts s' := by
  unfold SameContexts
  rw [h]
  refine ⟨fun k c hk => ?_, fun k => ?_⟩
  · rw [GoMap.lookup_insert_if] at hk
    split at hk
    · rename_i he
      cases hk
      exact ⟨ctx, he ▸ hm, rfl, rfl⟩
    · exact ⟨c, hk, rfl, rfl⟩
  · rw [AList.mem_insert]
    exact ⟨fun h => h.elim (fun he => he ▸ GoMap.mem_of_lookup hm) fun h => h, Or.inr⟩

theorem update_static (σ : MapOrder) (s : SinglePipelineScheduler) (r : BlockInvocationResult) :
    s.SameStatic (s.update σ r) ∧
    (s.update σ r).cancelled = (s.cancelled || decide (r.status = .error)) ∧
    s.SameContexts (s.update σ r) := by
  by_cases herr : r.status = .error
  · rw [update_error σ s herr]
    exact ⟨⟨rfl, rfl, rfl⟩, by simp [herr], sameContexts_of_eq rfl⟩
  by_cases hcomp : r.status = .complete
  · rw [update_complete σ s hcomp]
    obtain ⟨hs, hc, -, hm, -⟩ := promoteReady_spec σ
      { s with completedBlocks := s.completedBlocks.insert r.id r }
    exact ⟨hs, by simp [hc, herr], sameContexts_of_eq hm⟩
  by_cases hmap : r.status = .map
  · rw [update_map σ s hmap]
    obtain ⟨⟨h₁, h₂, h₃⟩, hc, -, hm, -⟩ := promoteReady_spec σ (s.handleMap σ r)
    unfold SameStatic
    rw [h₁, h₂, h₃, hc]
    rcases handleMap_same σ s r with ⟨-, hs⟩ | ⟨ctx, -, hctx, hs⟩
    · rw [hs] at hm ⊢
      exact ⟨⟨rfl, rfl, rfl⟩, by simp [herr], sameContexts_of_eq hm⟩
    · refine ⟨?_, ?_, sameContexts_insert hctx (hm.trans (by rw [hs]))⟩
      · rw [hs]
        exact ⟨rfl, rfl, rfl⟩
      · rw [hs]
        simp [herr]
  by_cases hred : r.status = .reduce
  · rw [update_reduce σ s hred]
    have hs := (handleReduce_gathered σ s).same
    exact ⟨by rw [hs]; exact ⟨rfl, rfl, rfl⟩, by rw [hs]; simp [herr],
      sameContexts_of_eq (by rw [hs])⟩
  · rw [update_other σ s herr hcomp hmap hred]
    exact ⟨⟨rfl, rfl, rfl⟩, by simp [herr], sameContexts_of_eq rfl⟩

end SinglePipelineScheduler
end Spade
