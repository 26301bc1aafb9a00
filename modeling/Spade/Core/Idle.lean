import Spade.Core.Update

set_option autoImplicit false

/-! # Which results leave both queues empty -/
namespace Spade
open UUIDPackage
variable [UUIDPackage]

namespace SinglePipelineScheduler

/-- Both queues are empty. -/
def idle (s : SinglePipelineScheduler) : Bool :=
  s.pendingBlocks.items.isEmpty && s.executableBlocks.isEmpty

omit [UUIDPackage] in
theorem idle_iff {s : SinglePipelineScheduler} :
    s.idle = true ↔ (∀ k, k ∉ s.pendingBlocks) ∧ s.executableBlocks = [] := by
  simp only [idle, Bool.and_eq_true, List.isEmpty_iff, GoMap.items_eq_nil]
  refine and_congr_left fun _ => ⟨fun h k => h ▸ AList.notMem_empty k, fun h => ?_⟩
  exact GoMap.eq_empty_of_lookup fun k => AList.lookup_eq_none.mpr (h k)

omit [UUIDPackage] in
theorem not_idle_of_executable {s : SinglePipelineScheduler} {i : BlockInvocation}
    (h : i ∈ s.executableBlocks) : s.idle = false := by
  by_contra hi
  have he := (idle_iff.mp (by simpa using hi)).2
  rw [he] at h
  cases h

omit [UUIDPackage] in
theorem not_idle_of_pending {s : SinglePipelineScheduler} {k : UUID} (h : k ∈ s.pendingBlocks) :
    s.idle = false := by
  by_contra hi
  exact (idle_iff.mp (by simpa using hi)).1 k h

/-- The results that put something into the queues of an idle scheduler: an expansion of a
context with mapped blocks, or a `Reduce` result while some context gathers. -/
def revives (s : SinglePipelineScheduler) (r : BlockInvocationResult) : Bool :=
  match r.status with
  | .map => r.items ≠ [] && s.mapContexts.items.any fun e =>
      e.1 = r.id && !e.2.mappedBlockIDs.items.isEmpty
  | .reduce => s.mapContexts.items.any fun e =>
      gathers s.completedBlocks e.2 && s.pipeline.blocks.any fun b => b.id = e.2.reduceBlockID
  | _ => false

omit [UUIDPackage] in
theorem idle_promote (σ : MapOrder) (s : SinglePipelineScheduler) :
    (s.promoteReady σ).idle = s.idle := by
  obtain ⟨-, -, -, -, hexec, hpend⟩ := promoteReady_spec σ s
  rw [Bool.eq_iff_iff, idle_iff, idle_iff]
  constructor
  · rintro ⟨hp, he⟩
    refine ⟨fun k hk => ?_, List.eq_nil_iff_forall_not_mem.mpr fun i hi => ?_⟩
    · obtain ⟨inv, hl⟩ := GoMap.lookup_of_mem hk
      by_cases hr : s.ready inv = true
      · have hmem := (hexec inv).mpr (Or.inr ⟨k, hl, hr⟩)
        rw [he] at hmem
        cases hmem
      · exact hp k (GoMap.mem_of_lookup ((hpend k inv).mpr ⟨hl, by simpa using hr⟩))
    · have hmem := (hexec i).mpr (Or.inl hi)
      rw [he] at hmem
      cases hmem
  · rintro ⟨hp, he⟩
    refine ⟨fun k hk => ?_, List.eq_nil_iff_forall_not_mem.mpr fun i hi => ?_⟩
    · obtain ⟨inv, hl⟩ := GoMap.lookup_of_mem hk
      exact hp k (GoMap.mem_of_lookup ((hpend k inv).mp hl).1)
    · rcases (hexec i).mp hi with hi | ⟨k, hk, -⟩
      · rw [he] at hi
        cases hi
      · exact hp k (GoMap.mem_of_lookup hk)

theorem not_idle_fanOut {n : ℕ} (hn : 0 < n) (id : UUID) (s : SinglePipelineScheduler) :
    (s.fanOut n id).idle = false := by
  obtain ⟨-, -, -, -, -, hmade⟩ := foldl_fanOutOne (s.fanOutOriginal id) (List.range n)
    { s with pendingBlocks := s.pendingBlocks.erase id }
  rcases hmade 0 (List.mem_range.mpr hn) with h | h
  · exact not_idle_of_executable h
  · exact not_idle_of_pending h

theorem idle_foldl_fanOut {n : ℕ} (hn : 0 < n) (ids : List UUID) (s : SinglePipelineScheduler) :
    (ids.foldl (fanOut n) s).idle = (s.idle && ids.isEmpty) := by
  rcases List.eq_nil_or_concat ids with rfl | ⟨ids', id, rfl⟩
  · simp
  · rw [List.concat_eq_append, List.foldl_append, List.foldl_cons, List.foldl_nil,
      not_idle_fanOut hn]
    simp

theorem idle_handleMap (σ : MapOrder) (s : SinglePipelineScheduler) {r : BlockInvocationResult}
    (hs : r.status = .map) : (s.handleMap σ r).idle = (s.idle && !s.revives r) := by
  unfold revives
  simp only [hs]
  by_cases hne : r.items = []
  · rw [handleMap_skip σ (Or.inl hne)]
    simp [hne]
  · cases hctx : s.mapContexts.lookup r.id with
    | none =>
      rw [handleMap_skip σ (Or.inr hctx)]
      have hno : s.mapContexts.items.any (fun e =>
          decide (e.1 = r.id) && !e.2.mappedBlockIDs.items.isEmpty) = false := by
        rw [List.any_eq_false]
        rintro ⟨m, c⟩ hm
        rw [GoMap.mem_items] at hm
        simp only [Bool.and_eq_true, decide_eq_true_eq, not_and]
        rintro rfl
        rw [hctx] at hm
        cases hm
      rw [hno]
      simp
    | some ctx =>
      have hany : s.mapContexts.items.any (fun e =>
          decide (e.1 = r.id) && !e.2.mappedBlockIDs.items.isEmpty) =
          !ctx.mappedBlockIDs.items.isEmpty := by
        rw [Bool.eq_iff_iff, List.any_eq_true]
        constructor
        · rintro ⟨⟨m, c⟩, hm, h⟩
          rw [GoMap.mem_items] at hm
          simp only [Bool.and_eq_true, decide_eq_true_eq] at h
          obtain ⟨rfl, h⟩ := h
          rw [hctx] at hm
          cases hm
          exact h
        · exact fun h => ⟨(r.id, ctx), (GoMap.mem_items _ _ _).mpr hctx, by simpa using h⟩
      have hkeys : (σ.keys ctx.mappedBlockIDs).isEmpty = ctx.mappedBlockIDs.items.isEmpty := by
        rw [Bool.eq_iff_iff, List.isEmpty_iff, List.isEmpty_iff, MapOrder.keys,
          List.map_eq_nil_iff]
        have hp := σ.range_perm ctx.mappedBlockIDs
        constructor
        · intro h
          rw [h] at hp
          exact hp.nil_eq.symm
        · intro h
          rw [h] at hp
          exact hp.eq_nil
      unfold handleMap
      simp only [hne, if_false, hctx]
      rw [idle_foldl_fanOut (List.length_pos_iff.mpr hne), hany, hkeys]
      simp [idle, hne]

theorem gatherOne_spec (s : SinglePipelineScheduler) (ctx : MapContext) :
    (s.gatherOne ctx).completedBlocks = s.completedBlocks ∧
    (s.gatherOne ctx).pipeline = s.pipeline ∧
    (s.gatherOne ctx).idle = (s.idle && !(gathers s.completedBlocks ctx &&
      s.pipeline.blocks.any fun b => b.id = ctx.reduceBlockID)) := by
  unfold gatherOne
  by_cases hg : gathers s.completedBlocks ctx = true
  · rw [if_pos hg]
    cases hf : s.pipeline.blocks.find? fun pb => pb.id = ctx.reduceBlockID with
    | none =>
      have hany : (s.pipeline.blocks.any fun b => decide (b.id = ctx.reduceBlockID)) = false :=
        List.any_eq_false.mpr fun b hb => List.find?_eq_none.mp hf b hb
      refine ⟨rfl, rfl, ?_⟩
      rw [hany]
      simp
    | some pb =>
      obtain ⟨hpb, hid⟩ := find_block_some hf
      have hany : (s.pipeline.blocks.any fun b => decide (b.id = ctx.reduceBlockID)) = true :=
        List.any_eq_true.mpr ⟨pb, hpb, by simpa using hid⟩
      refine ⟨rfl, rfl, ?_⟩
      rw [hg, hany, not_idle_of_executable (i := pb.invocation s.pipeline.id none) (by simp)]
      simp
  · rw [if_neg hg]
    refine ⟨rfl, rfl, ?_⟩
    simp [hg]

theorem idle_handleReduce (σ : MapOrder) (s : SinglePipelineScheduler) :
    (s.handleReduce σ).idle = (s.idle && !(s.mapContexts.items.any fun e =>
      gathers s.completedBlocks e.2 && s.pipeline.blocks.any fun b => b.id = e.2.reduceBlockID)) := by
  have key : ∀ (l : List (UUID × MapContext)) (t : SinglePipelineScheduler),
      t.completedBlocks = s.completedBlocks → t.pipeline = s.pipeline →
      (l.foldl (fun s e => s.gatherOne e.2) t).idle = (t.idle && !(l.any fun e =>
        gathers s.completedBlocks e.2 &&
          s.pipeline.blocks.any fun b => b.id = e.2.reduceBlockID)) := by
    intro l
    induction l with
    | nil => simp
    | cons e l ih =>
      intro t hc hp
      obtain ⟨hc', hp', hi⟩ := t.gatherOne_spec e.2
      rw [List.foldl_cons, ih _ (hc'.trans hc) (hp'.trans hp), hi, hc, hp, List.any_cons,
        Bool.not_or, Bool.and_assoc]
  rw [handleReduce_eq, key _ s rfl rfl]
  congr 2
  rw [Bool.eq_iff_iff, List.any_eq_true, List.any_eq_true]
  simp only [(σ.range_perm s.mapContexts).mem_iff]

/-- An idle scheduler stays idle exactly at the results that do not revive it. -/
theorem idle_update (σ : MapOrder) (s : SinglePipelineScheduler) {r : BlockInvocationResult}
    (hne : r.status ≠ .error) : (s.update σ r).idle = (s.idle && !s.revives r) := by
  by_cases hcomp : r.status = .complete
  · rw [update_complete σ s hcomp, idle_promote]
    simp [revives, hcomp, idle]
  by_cases hmap : r.status = .map
  · rw [update_map σ s hmap, idle_promote, idle_handleMap σ s hmap]
  by_cases hred : r.status = .reduce
  · rw [update_reduce σ s hred, idle_handleReduce]
    simp [revives, hred]
  · rw [update_other σ s hne hcomp hmap hred]
    unfold revives
    split
    · exact absurd (by assumption) hmap
    · exact absurd (by assumption) hred
    · simp

end SinglePipelineScheduler
end Spade
