import Spade.Core.Contexts

set_option autoImplicit false

/-! # What `HandleMap` and `HandleReduce` do to the queues -/
namespace Spade
open UUIDPackage
variable [UUIDPackage]

/-- No block carries the key of an invocation of a mapped block. -/
def KeysApart (p : Pipeline) : Prop :=
  ∀ id ∈ p.blockIDs, ∀ i : ℕ, newSHA1 id (itoa i) ∉ p.blockIDs

namespace SinglePipelineScheduler

/-- `s'` differs from `s` in its two queues at most. -/
def SameButQueues (s s' : SinglePipelineScheduler) : Prop :=
  s' = { s with executableBlocks := s'.executableBlocks, pendingBlocks := s'.pendingBlocks }

omit [UUIDPackage] in
theorem SameButQueues.trans {s s' s'' : SinglePipelineScheduler} (h : s.SameButQueues s')
    (h' : s'.SameButQueues s'') : s.SameButQueues s'' := by
  unfold SameButQueues at *
  rw [h', h]

/-- Under the key of a block stands its own invocation without index. -/
def Based (p : Pipeline) (s : SinglePipelineScheduler) : Prop :=
  ∀ b ∈ p.blocks, ∀ inv, s.pendingBlocks.lookup b.id = some inv → inv = b.invocation p.id none

theorem foldl_fanOutOne (o : BlockInvocation) (l : List ℕ) (s : SinglePipelineScheduler) :
    s.SameButQueues (l.foldl (fanOutOne o) s) ∧
    (∀ inv ∈ (l.foldl (fanOutOne o) s).executableBlocks, inv ∈ s.executableBlocks ∨
      s.ready inv = true ∧ ∃ i ∈ l, inv = { o with mapIndex := some (i : Int) }) ∧
    (∀ inv ∈ s.executableBlocks, inv ∈ (l.foldl (fanOutOne o) s).executableBlocks) ∧
    (∀ k inv, (l.foldl (fanOutOne o) s).pendingBlocks.lookup k = some inv →
      s.pendingBlocks.lookup k = some inv ∨ ∃ i ∈ l, k = newSHA1 o.id (itoa i) ∧
        inv = { o with mapIndex := some (i : Int) }) ∧
    (∀ k ∈ s.pendingBlocks, k ∈ (l.foldl (fanOutOne o) s).pendingBlocks) ∧
    ∀ i ∈ l, { o with mapIndex := some (i : Int) } ∈ (l.foldl (fanOutOne o) s).executableBlocks ∨
      newSHA1 o.id (itoa i) ∈ (l.foldl (fanOutOne o) s).pendingBlocks := by
  induction l generalizing s with
  | nil => exact ⟨rfl, fun _ h => Or.inl h, fun _ h => h, fun _ _ h => Or.inl h, fun _ h => h, by simp⟩
  | cons j l ih =>
    rw [List.foldl_cons]
    obtain ⟨h₁, h₂, h₃, h₄, h₅, h₆⟩ := ih (fanOutOne o s j)
    by_cases hr : depsCompleted s.completedBlocks o.inputs = true
    · have hone : fanOutOne o s j = { s with executableBlocks := s.executableBlocks ++
          [{ o with mapIndex := some (j : Int) }] } := by simp [fanOutOne, hr]
      rw [hone] at h₁ h₂ h₃ h₄ h₅ h₆ ⊢
      refine ⟨h₁, ?_, fun inv h => h₃ inv (by simp [h]), ?_, h₅, ?_⟩
      · intro inv h
        rcases h₂ inv h with h | ⟨hrd, i, hi, rfl⟩
        · rcases List.mem_append.mp h with h | h
          · exact Or.inl h
          · rw [List.mem_singleton.mp h]
            exact Or.inr ⟨hr, j, by simp, rfl⟩
        · exact Or.inr ⟨hrd, i, by simp [hi], rfl⟩
      · intro k inv h
        rcases h₄ k inv h with h | ⟨i, hi, h⟩
        · exact Or.inl h
        · exact Or.inr ⟨i, by simp [hi], h⟩
      · intro i hi
        rcases List.mem_cons.mp hi with rfl | hi
        · exact Or.inl (h₃ _ (by simp))
        · exact h₆ i hi
    · let inv : BlockInvocation := { o with mapIndex := some (j : Int) }
      have hone : fanOutOne o s j = { s with
          pendingBlocks := s.pendingBlocks.insert (newSHA1 o.id (itoa j)) inv } := by
        simp [fanOutOne, hr, inv]
      rw [hone] at h₁ h₂ h₃ h₄ h₅ h₆ ⊢
      refine ⟨h₁, ?_, h₃, ?_, ?_, ?_⟩
      · intro inv h
        rcases h₂ inv h with h | ⟨hrd, i, hi, rfl⟩
        · exact Or.inl h
        · exact Or.inr ⟨hrd, i, by simp [hi], rfl⟩
      · intro k inv h
        rcases h₄ k inv h with h | ⟨i, hi, h⟩
        · rw [GoMap.lookup_insert_if] at h
          split at h
          · cases h
            exact Or.inr ⟨j, by simp, by assumption, rfl⟩
          · exact Or.inl h
        · exact Or.inr ⟨i, by simp [hi], h⟩
      · exact fun k hk => h₅ k ((AList.mem_insert _).mpr (Or.inr hk))
      · intro i hi
        rcases List.mem_cons.mp hi with rfl | hi
        · exact Or.inr (h₅ _ ((AList.mem_insert _).mpr (Or.inl rfl)))
        · exact h₆ i hi

/-- The `n` invocations of every block in `ids` have taken the place of the block's own. -/
structure Spread (p : Pipeline) (n : ℕ) (ids : List UUID) (s s' : SinglePipelineScheduler) :
    Prop where
  same : s.SameButQueues s'
  executable : ∀ inv ∈ s'.executableBlocks, inv ∈ s.executableBlocks ∨ s.ready inv = true ∧
    ∃ b ∈ p.blocks, b.id ∈ ids ∧ ∃ i < n, inv = b.invocation p.id (some (i : Int))
  stays : ∀ inv ∈ s.executableBlocks, inv ∈ s'.executableBlocks
  pending : ∀ k inv, s'.pendingBlocks.lookup k = some inv →
    (s.pendingBlocks.lookup k = some inv ∧ k ∉ ids) ∨ ∃ b ∈ p.blocks, b.id ∈ ids ∧
      ∃ i < n, k = newSHA1 b.id (itoa i) ∧ inv = b.invocation p.id (some (i : Int))
  kept : ∀ k ∈ s.pendingBlocks, k ∉ ids → k ∈ s'.pendingBlocks
  made : ∀ b ∈ p.blocks, b.id ∈ ids → ∀ i < n,
    b.invocation p.id (some (i : Int)) ∈ s'.executableBlocks ∨
      newSHA1 b.id (itoa i) ∈ s'.pendingBlocks

theorem fanOut_spread {p : Pipeline} (hu : p.blockIDs.Nodup) (n : ℕ) {s : SinglePipelineScheduler}
    (hp : s.pipeline = p) (hs : s.Based p) {b : PipelineBlock} (hb : b ∈ p.blocks) :
    Spread p n [b.id] s (s.fanOut n b.id) := by
  have ho : s.fanOutOriginal b.id = b.invocation p.id none := by
    unfold fanOutOriginal
    cases hl : s.pendingBlocks.lookup b.id with
    | some inv => exact hs b hb inv hl
    | none => simp only [hp, find_block hu hb]
  obtain ⟨h₁, h₂, h₃, h₄, h₅, h₆⟩ := foldl_fanOutOne (b.invocation p.id none) (List.range n)
    { s with pendingBlocks := s.pendingBlocks.erase b.id }
  have hout : s.fanOut n b.id = (List.range n).foldl (fanOutOne (b.invocation p.id none))
      { s with pendingBlocks := s.pendingBlocks.erase b.id } := by rw [fanOut, ho]
  rw [← hout] at h₁ h₂ h₃ h₄ h₅ h₆
  refine ⟨h₁, ?_, h₃, ?_, ?_, ?_⟩
  · intro inv h
    rcases h₂ inv h with h | ⟨hr, i, hi, rfl⟩
    · exact Or.inl h
    · exact Or.inr ⟨hr, b, hb, by simp, i, List.mem_range.mp hi, rfl⟩
  · intro k inv h
    rcases h₄ k inv h with h | ⟨i, hi, hk, rfl⟩
    · rw [GoMap.lookup_erase_if] at h
      split at h
      · cases h
      · exact Or.inl ⟨h, by simpa⟩
    · exact Or.inr ⟨b, hb, by simp, i, List.mem_range.mp hi, hk, rfl⟩
  · exact fun k hk hne => h₅ k (AList.mem_erase.mpr ⟨by simpa using hne, hk⟩)
  · intro c hc hid i hi
    have hcb : c = b := unique_of_nodup hu hc hb (by simpa using hid)
    subst hcb
    exact h₆ i (List.mem_range.mpr hi)

theorem Based.fanOut {p : Pipeline} (hu : p.blockIDs.Nodup) (hk : KeysApart p) (n : ℕ)
    {s : SinglePipelineScheduler} (hp : s.pipeline = p) (hs : s.Based p) {b : PipelineBlock}
    (hb : b ∈ p.blocks) : (s.fanOut n b.id).pipeline = p ∧ (s.fanOut n b.id).Based p := by
  have hone := fanOut_spread hu n hp hs hb
  refine ⟨by rw [hone.same]; exact hp, ?_⟩
  intro c hc inv h
  rcases hone.pending c.id inv h with ⟨h, -⟩ | ⟨d, hd, -, i, -, hki, -⟩
  · exact hs c hc inv h
  · exact absurd (hki ▸ List.mem_map_of_mem hc) (hk d.id (List.mem_map_of_mem hd) i)

theorem foldl_fanOut {p : Pipeline} (hu : p.blockIDs.Nodup) (hk : KeysApart p) (n : ℕ)
    (ids : List UUID) (hids : ∀ id ∈ ids, id ∈ p.blockIDs) (s : SinglePipelineScheduler)
    (hp : s.pipeline = p) (hs : s.Based p) : Spread p n ids s (ids.foldl (fanOut n) s) := by
  induction ids generalizing s with
  | nil =>
    exact ⟨rfl, fun _ h => Or.inl h, fun _ h => h, fun _ _ h => Or.inl ⟨h, by simp⟩,
      fun _ h _ => h, by simp⟩
  | cons id ids ih =>
    rw [List.foldl_cons]
    obtain ⟨b, hb, rfl⟩ := List.mem_map.mp (hids id (by simp))
    have hone := fanOut_spread hu n hp hs hb
    obtain ⟨hp', hs'⟩ := Based.fanOut hu hk n hp hs hb
    have hrest := ih (fun id h => hids id (by simp [h])) _ hp' hs'
    have hready : ∀ inv, (s.fanOut n b.id).ready inv = s.ready inv := by
      intro inv
      rw [hone.same]
      rfl
    have hfree : ∀ c ∈ p.blocks, ∀ i : ℕ, newSHA1 c.id (itoa i) ∉ ids := fun c hc i h =>
      hk c.id (List.mem_map_of_mem hc) i (hids _ (by simp [h]))
    refine ⟨hone.same.trans hrest.same, ?_, fun inv h => hrest.stays inv (hone.stays inv h), ?_, ?_, ?_⟩
    · intro inv h
      rcases hrest.executable inv h with h | ⟨hr, c, hc, hid, h⟩
      · rcases hone.executable inv h with h | ⟨hr, c, hc, hid, h⟩
        · exact Or.inl h
        · exact Or.inr ⟨hr, c, hc, List.mem_cons.mpr (Or.inl (List.mem_singleton.mp hid)), h⟩
      · exact Or.inr ⟨hready inv ▸ hr, c, hc, List.mem_cons.mpr (Or.inr hid), h⟩
    · intro k inv h
      rcases hrest.pending k inv h with ⟨h, hni⟩ | ⟨c, hc, hid, h⟩
      · rcases hone.pending k inv h with ⟨h, hnb⟩ | ⟨c, hc, hid, h⟩
        · refine Or.inl ⟨h, ?_⟩
          simp only [List.mem_singleton] at hnb
          simp [hnb, hni]
        · exact Or.inr ⟨c, hc, List.mem_cons.mpr (Or.inl (List.mem_singleton.mp hid)), h⟩
      · exact Or.inr ⟨c, hc, List.mem_cons.mpr (Or.inr hid), h⟩
    · intro k hk' hne
      simp only [List.mem_cons, not_or] at hne
      exact hrest.kept k (hone.kept k hk' (by simpa using hne.1)) hne.2
    · intro c hc hid i hi
      rcases List.mem_cons.mp hid with h | h
      · rcases hone.made c hc (by simp [h]) i hi with hm | hm
        · exact Or.inl (hrest.stays _ hm)
        · exact Or.inr (hrest.kept _ hm (hfree c hc i))
      · exact hrest.made c hc h i hi

/-- `HandleMap` records an effective expansion and spreads the blocks of its context. -/
theorem handleMap_spread {p : Pipeline} (hu : p.blockIDs.Nodup) (hk : KeysApart p) (σ : MapOrder)
    {s : SinglePipelineScheduler} (hp : s.pipeline = p) (hs : s.Based p)
    {result : BlockInvocationResult} {ctx : MapContext} (hne : result.items ≠ [])
    (hctx : s.mapContexts.lookup result.id = some ctx)
    (hids : ∀ id ∈ ctx.mappedBlockIDs, id ∈ p.blockIDs) :
    ∃ ids : List UUID, (∀ id, id ∈ ids ↔ id ∈ ctx.mappedBlockIDs) ∧
      Spread p result.items.length ids
        { s with
          mapContexts := s.mapContexts.insert result.id { ctx with expansionItems := result.items }
          completedBlocks := s.completedBlocks.insert result.id result }
        (s.handleMap σ result) := by
  refine ⟨σ.keys ctx.mappedBlockIDs, σ.mem_keys _, ?_⟩
  unfold handleMap
  simp only [hne, if_false, hctx]
  exact foldl_fanOut hu hk _ _ (fun id h => hids id ((σ.mem_keys _ _).mp h)) _ hp hs

theorem handleMap_skip (σ : MapOrder) {s : SinglePipelineScheduler} {result : BlockInvocationResult}
    (h : result.items = [] ∨ s.mapContexts.lookup result.id = none) : s.handleMap σ result = s := by
  unfold handleMap
  rcases h with h | h
  · simp [h]
  · simp only [h]
    split <;> rfl

/-- What `HandleReduce` may do: queue the reduce block of a context that gathers. -/
structure Gathered (s s' : SinglePipelineScheduler) : Prop where
  same : s.SameButQueues s'
  executable : ∀ inv ∈ s'.executableBlocks, inv ∈ s.executableBlocks ∨
    ∃ m ctx b, s.mapContexts.lookup m = some ctx ∧ gathers s.completedBlocks ctx = true ∧
      b ∈ s.pipeline.blocks ∧ b.id = ctx.reduceBlockID ∧ inv = b.invocation s.pipeline.id none
  stays : ∀ inv ∈ s.executableBlocks, inv ∈ s'.executableBlocks
  pending : ∀ k inv, s'.pendingBlocks.lookup k = some inv → s.pendingBlocks.lookup k = some inv
  kept : ∀ k ∈ s.pendingBlocks, k ∈ s'.pendingBlocks ∨
    ∃ b ∈ s.pipeline.blocks, b.id = k ∧ b.invocation s.pipeline.id none ∈ s'.executableBlocks

/-- The loop body of `HandleReduce`. -/
def gatherOne (s : SinglePipelineScheduler) (ctx : MapContext) : SinglePipelineScheduler :=
  if gathers s.completedBlocks ctx then
    match s.pipeline.blocks.find? fun pb => pb.id = ctx.reduceBlockID with
    | none => s
    | some pb =>
      { s with
        executableBlocks := s.executableBlocks ++ [pb.invocation s.pipeline.id none]
        pendingBlocks := s.pendingBlocks.erase pb.id }
  else s

theorem handleReduce_eq (σ : MapOrder) (s : SinglePipelineScheduler) :
    s.handleReduce σ = (σ.range s.mapContexts).foldl (fun s e => s.gatherOne e.2) s := rfl

theorem gatherOne_cases (s : SinglePipelineScheduler) (ctx : MapContext) :
    s.gatherOne ctx = s ∨ gathers s.completedBlocks ctx = true ∧ ∃ pb ∈ s.pipeline.blocks,
      pb.id = ctx.reduceBlockID ∧ s.gatherOne ctx = { s with
        executableBlocks := s.executableBlocks ++ [pb.invocation s.pipeline.id none]
        pendingBlocks := s.pendingBlocks.erase pb.id } := by
  unfold gatherOne
  by_cases hg : gathers s.completedBlocks ctx = true
  · rw [if_pos hg]
    cases hf : s.pipeline.blocks.find? fun pb => pb.id = ctx.reduceBlockID with
    | none => exact Or.inl rfl
    | some pb =>
      obtain ⟨hpb, hid⟩ := find_block_some hf
      exact Or.inr ⟨hg, pb, hpb, hid, rfl⟩
  · rw [if_neg hg]
    exact Or.inl rfl

theorem Gathered.one {s t : SinglePipelineScheduler} (ht : s.Gathered t) {e : UUID × MapContext}
    (he : s.mapContexts.lookup e.1 = some e.2) : s.Gathered (t.gatherOne e.2) := by
  have hc : t.completedBlocks = s.completedBlocks := by rw [ht.same]
  have hp : t.pipeline = s.pipeline := by rw [ht.same]
  rcases gatherOne_cases t e.2 with h | ⟨hg, pb, hpb, hid, h⟩
  · rwa [h]
  · rw [h]
    rw [hc] at hg
    rw [hp] at hpb ⊢
    refine ⟨?_, ?_, fun inv h => by simp [ht.stays inv h], ?_, ?_⟩
    · have hsame := ht.same
      unfold SameButQueues at hsame ⊢
      rw [hsame]
    · intro inv h
      rcases List.mem_append.mp h with h | h
      · exact ht.executable inv h
      · exact Or.inr ⟨e.1, e.2, pb, he, hg, hpb, hid, List.mem_singleton.mp h⟩
    · intro k inv h
      rw [GoMap.lookup_erase_if] at h
      split at h
      · cases h
      · exact ht.pending k inv h
    · intro k hk
      rcases ht.kept k hk with h | ⟨b, hb, hbk, h⟩
      · by_cases hkb : k = pb.id
        · exact Or.inr ⟨pb, hpb, hkb.symm, by simp⟩
        · exact Or.inl (AList.mem_erase.mpr ⟨hkb, h⟩)
      · exact Or.inr ⟨b, hb, hbk, by simp [h]⟩

theorem handleReduce_gathered (σ : MapOrder) (s : SinglePipelineScheduler) :
    s.Gathered (s.handleReduce σ) := by
  have key : ∀ (l : List (UUID × MapContext)) (t : SinglePipelineScheduler),
      (∀ e ∈ l, s.mapContexts.lookup e.1 = some e.2) → s.Gathered t →
      s.Gathered (l.foldl (fun s e => s.gatherOne e.2) t) := by
    intro l
    induction l with
    | nil => exact fun _ _ h => h
    | cons e l ih =>
      exact fun t hl ht => ih _ (fun e he => hl e (by simp [he])) (ht.one (hl e (by simp)))
  rw [handleReduce_eq]
  exact key _ s (fun e he => (σ.mem_range _ e.1 e.2).mp he)
    ⟨rfl, fun _ h => Or.inl h, fun _ h => h, fun _ _ h => h, fun _ h => Or.inl h⟩

end SinglePipelineScheduler
end Spade
