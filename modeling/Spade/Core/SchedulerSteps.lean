import Spade.Core.Accepted
import Spade.Core.Scheduler

set_option autoImplicit false

/-!
# What each operation of the scheduler does to its queues

One lemma per operation, from which the invariants are derived.
-/
namespace Spade
open UUIDPackage

theorem depsCompleted_iff {completed : GoMap UUID BlockInvocationResult} {inputs : List InputRef} :
    depsCompleted completed inputs = true ↔
      ∀ r ∈ inputs, r.depID ≠ UUID.nil → r.depID ∈ completed := by
  simp only [depsCompleted, List.all_eq_true, Bool.or_eq_true, decide_eq_true_eq]
  exact forall₂_congr fun r _ => ⟨fun h hn => h.resolve_left hn, fun h => or_iff_not_imp_left.mpr h⟩

theorem depsCompleted_mono {c c' : GoMap UUID BlockInvocationResult} {inputs : List InputRef}
    (h : ∀ k ∈ c, k ∈ c') (hd : depsCompleted c inputs = true) : depsCompleted c' inputs = true :=
  depsCompleted_iff.mpr fun r hr hn => h _ (depsCompleted_iff.mp hd r hr hn)

theorem find_block {p : Pipeline} (hu : p.blockIDs.Nodup) {b : PipelineBlock} (hb : b ∈ p.blocks) :
    p.blocks.find? (fun pb => pb.id = b.id) = some b := by
  cases hf : p.blocks.find? (fun pb => pb.id = b.id) with
  | none =>
    have hx := List.find?_eq_none.mp hf b hb
    simp at hx
  | some c =>
    have hc := List.mem_of_find?_eq_some hf
    have hid := List.find?_some hf
    rw [unique_of_nodup hu hc hb (by simpa using hid)]

theorem find_block_some {p : Pipeline} {id : UUID} {b : PipelineBlock}
    (h : p.blocks.find? (fun pb => pb.id = id) = some b) : b ∈ p.blocks ∧ b.id = id :=
  ⟨List.mem_of_find?_eq_some h, by simpa using List.find?_some h⟩

namespace SinglePipelineScheduler

/-- The fields that `Update` leaves alone whatever the result. -/
def SameStatic (s s' : SinglePipelineScheduler) : Prop :=
  s'.pipeline = s.pipeline ∧ s'.manifests = s.manifests ∧ s'.graph = s.graph

/-- The entries `promoteReady` moves. -/
def ready (s : SinglePipelineScheduler) (inv : BlockInvocation) : Bool :=
  depsCompleted s.completedBlocks inv.inputs

theorem foldl_promote (ks : List UUID) (hn : ks.Nodup) (s : SinglePipelineScheduler) :
    ks.foldl promote s = { s with
      executableBlocks := s.executableBlocks ++ ks.map fun k => (s.pendingBlocks.lookup k).getD .zero
      pendingBlocks := ks.foldl (fun m k => m.erase k) s.pendingBlocks } := by
  induction ks generalizing s with
  | nil => simp
  | cons k ks ih =>
    obtain ⟨hk, hks⟩ := List.nodup_cons.mp hn
    rw [List.foldl_cons, ih hks]
    have hsame : ks.map (fun j => ((s.pendingBlocks.erase k).lookup j).getD BlockInvocation.zero) =
        ks.map fun j => (s.pendingBlocks.lookup j).getD .zero := by
      apply List.map_congr_left
      intro j hj
      have hne : j ≠ k := fun h => hk (h ▸ hj)
      rw [GoMap.lookup_erase_if, if_neg hne]
    simp only [promote, hsame, List.map_cons, List.foldl_cons, List.append_assoc,
      List.singleton_append]

/-- `promoteReady` appends the ready entries and takes them out of the pending map. -/
theorem promoteReady_eq (σ : MapOrder) (s : SinglePipelineScheduler) :
    ∃ pending, s.promoteReady σ = { s with
        executableBlocks := s.executableBlocks ++
          ((σ.range s.pendingBlocks).filter fun e => s.ready e.2).map Prod.snd
        pendingBlocks := pending } ∧
      ∀ k, pending.lookup k =
        (s.pendingBlocks.lookup k).bind fun inv => if s.ready inv then none else some inv := by
  let chosen := (σ.range s.pendingBlocks).filter fun e => s.ready e.2
  have hnodup : (chosen.map Prod.fst).Nodup :=
    (σ.range_nodup s.pendingBlocks).sublist (List.filter_sublist.map Prod.fst)
  have hchosen : ∀ e ∈ chosen, s.pendingBlocks.lookup e.1 = some e.2 ∧ s.ready e.2 = true :=
    fun e he => ⟨(σ.mem_range _ _ _).mp (List.mem_filter.mp he).1, (List.mem_filter.mp he).2⟩
  have hmap : (chosen.map Prod.fst).map (fun k => (s.pendingBlocks.lookup k).getD .zero) =
      chosen.map Prod.snd := by
    rw [List.map_map]
    apply List.map_congr_left
    intro e he
    simp [(hchosen e he).1]
  refine ⟨(chosen.map Prod.fst).foldl (fun m k => m.erase k) s.pendingBlocks, ?_, ?_⟩
  · change (chosen.map Prod.fst).foldl promote s = _
    rw [foldl_promote _ hnodup, hmap]
  · intro k
    rw [GoMap.lookup_foldl_erase]
    have hk : k ∈ chosen.map Prod.fst ↔ ∃ inv, s.pendingBlocks.lookup k = some inv ∧
        s.ready inv = true := by
      rw [List.mem_map]
      constructor
      · rintro ⟨e, he, rfl⟩
        exact ⟨e.2, hchosen e he⟩
      · rintro ⟨inv, hl, hr⟩
        exact ⟨(k, inv), List.mem_filter.mpr ⟨(σ.mem_range _ _ _).mpr hl, hr⟩, rfl⟩
    cases hl : s.pendingBlocks.lookup k with
    | none => simp [hk, hl]
    | some inv => by_cases hr : s.ready inv = true <;> simp [hk, hl, hr]

/-- Membership in the queues after `promoteReady`. -/
theorem promoteReady_spec (σ : MapOrder) (s : SinglePipelineScheduler) :
    s.SameStatic (s.promoteReady σ) ∧ (s.promoteReady σ).cancelled = s.cancelled ∧
    (s.promoteReady σ).completedBlocks = s.completedBlocks ∧
    (s.promoteReady σ).mapContexts = s.mapContexts ∧
    (∀ inv, inv ∈ (s.promoteReady σ).executableBlocks ↔ inv ∈ s.executableBlocks ∨
      ∃ k, s.pendingBlocks.lookup k = some inv ∧ s.ready inv = true) ∧
    ∀ k inv, (s.promoteReady σ).pendingBlocks.lookup k = some inv ↔
      s.pendingBlocks.lookup k = some inv ∧ s.ready inv = false := by
  obtain ⟨pending, heq, hl⟩ := promoteReady_eq σ s
  rw [heq]
  refine ⟨⟨rfl, rfl, rfl⟩, rfl, rfl, rfl, ?_, ?_⟩
  · intro inv
    simp only [List.mem_append, List.mem_map, List.mem_filter, Prod.exists, σ.mem_range]
    constructor
    · rintro (h | ⟨k, v, ⟨hk, hr⟩, rfl⟩)
      · exact Or.inl h
      · exact Or.inr ⟨k, hk, hr⟩
    · rintro (h | ⟨k, hk, hr⟩)
      · exact Or.inl h
      · exact Or.inr ⟨k, inv, ⟨hk, hr⟩, rfl⟩
  · intro k inv
    rw [hl k]
    cases hv : s.pendingBlocks.lookup k with
    | none => simp
    | some v =>
      by_cases hr : s.ready v = true
      · simp only [Option.bind_some, hr, if_true, Option.some.injEq]
        constructor
        · exact fun h => by cases h
        · rintro ⟨rfl, hf⟩
          rw [hr] at hf
          cases hf
      · simp only [Option.bind_some, hr, Option.some.injEq]
        constructor
        · intro h
          cases h
          exact ⟨rfl, by simpa using hr⟩
        · rintro ⟨rfl, -⟩
          rfl

/-! The state of a scheduler that has just been created. -/

theorem foldl_addBlock (bs : List PipelineBlock) (s : SinglePipelineScheduler) :
    ∃ pending, bs.foldl addBlock s = { s with
        executableBlocks := s.executableBlocks ++
          (bs.filter fun b => b.inputs.isEmpty).map fun b => b.invocation s.pipeline.id none
        pendingBlocks := pending } ∧
      (∀ k inv, pending.lookup k = some inv → s.pendingBlocks.lookup k = some inv ∨
        ∃ b ∈ bs, b.inputs ≠ [] ∧ b.id = k ∧ inv = b.invocation s.pipeline.id none) ∧
      ∀ b ∈ bs, b.inputs ≠ [] → b.id ∈ pending := by
  induction bs generalizing s with
  | nil => exact ⟨s.pendingBlocks, by simp, fun _ _ h => Or.inl h, by simp⟩
  | cons b bs ih =>
    rw [List.foldl_cons]
    by_cases hb : b.inputs = []
    · obtain ⟨pending, heq, hl, hm⟩ := ih (s.addBlock b)
      have hadd : s.addBlock b = { s with
          executableBlocks := s.executableBlocks ++ [b.invocation s.pipeline.id none] } := by
        simp [addBlock, hb]
      rw [hadd] at heq hl
      rw [hadd]
      refine ⟨pending, ?_, ?_, ?_⟩
      · rw [heq]
        simp [hb]
      · intro k inv h
        rcases hl k inv h with h | ⟨c, hc, h⟩
        · exact Or.inl h
        · exact Or.inr ⟨c, by simp [hc], h⟩
      · intro c hc hne
        rcases List.mem_cons.mp hc with rfl | hc
        · exact absurd hb hne
        · exact hm c hc hne
    · obtain ⟨pending, heq, hl, hm⟩ := ih (s.addBlock b)
      have hadd : s.addBlock b = { s with
          pendingBlocks := s.pendingBlocks.insert b.id (b.invocation s.pipeline.id none) } := by
        simp [addBlock, hb]
      rw [hadd] at heq hl
      rw [hadd]
      have hkeep : ∀ k ∈ s.pendingBlocks.insert b.id (b.invocation s.pipeline.id none),
          k ∈ pending := by
        clear ih hm hl
        have hgen : ∀ (l : List PipelineBlock) (s : SinglePipelineScheduler),
            ∀ k ∈ s.pendingBlocks, k ∈ (l.foldl addBlock s).pendingBlocks := by
          intro l
          induction l with
          | nil => exact fun _ _ h => h
          | cons c l ih =>
            intro s k hk
            rw [List.foldl_cons]
            apply ih
            unfold addBlock
            split
            · exact hk
            · exact (AList.mem_insert _).mpr (Or.inr hk)
        intro k hk
        have := hgen bs { s with
          pendingBlocks := s.pendingBlocks.insert b.id (b.invocation s.pipeline.id none) } k hk
        rwa [heq] at this
      refine ⟨pending, ?_, ?_, ?_⟩
      · rw [heq]
        simp [hb]
      · intro k inv h
        rcases hl k inv h with h | ⟨c, hc, h⟩
        · rw [GoMap.lookup_insert_if] at h
          split at h
          · rename_i hk
            cases h
            exact Or.inr ⟨b, by simp, hb, hk.symm, rfl⟩
          · exact Or.inl h
        · exact Or.inr ⟨c, by simp [hc], h⟩
      · intro c hc hne
        rcases List.mem_cons.mp hc with rfl | hc
        · exact hkeep _ (by simp)
        · exact hm c hc hne

end SinglePipelineScheduler
end Spade
