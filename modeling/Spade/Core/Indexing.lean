import Spade.Core.Trace

set_option autoImplicit false

/-!
# Map indices over a trace

Invocations with an index come from an expansion of that many items, and a block
that has been spread has no invocation without index left.
-/
namespace Spade
open UUIDPackage SinglePipelineScheduler

namespace Trace
variable [UUIDPackage]

structure Indexing (p : Pipeline) (manifests : Manifests) (t : Trace) : Prop where
  keyed : ∀ k inv, t.sched.pendingBlocks.lookup k = some inv →
    inv.mapIndex = none ∧ k = inv.id ∨
      ∃ i : ℕ, inv.mapIndex = some (i : Int) ∧ k = newSHA1 inv.id (itoa i)
  indexed : ∀ inv, t.Holds inv → inv.mapIndex = none ∨ ∃ (m : UUID) (n i : ℕ),
    inv.mapIndex = some (i : Int) ∧ i < n ∧ FannedOut p manifests t m n ∧
      Downstream p manifests m inv.id
  spread : ∀ m n inv, FannedOut p manifests t m n → Downstream p manifests m inv.id →
    t.Holds inv → inv.mapIndex ≠ none

variable {p : Pipeline} {manifests : Manifests} {t : Trace}

omit [UUIDPackage] in
/-- Only an expansion with items of a map block counts. -/
theorem fannedOut_append {inv : BlockInvocation} {result : BlockInvocationResult} {m : UUID}
    {n : ℕ} {s' : SinglePipelineScheduler} :
    FannedOut p manifests { t with sched := s', reported := t.reported ++ [(inv, result)] } m n ↔
      FannedOut p manifests t m n ∨ p.kind manifests m = some .map ∧ n ≠ 0 ∧ inv.id = m ∧
        result.status = .map ∧ result.items.length = n := by
  simp only [FannedOut, List.mem_append, List.mem_singleton, or_and_right, exists_or,
    exists_eq_left, and_or_left]

omit [UUIDPackage] in
theorem fannedOut_note {inv : BlockInvocation} {result : BlockInvocationResult}
    (h : result.status = .map → p.kind manifests inv.id = some .map → result.items = [])
    {m : UUID} {n : ℕ} {s' : SinglePipelineScheduler} :
    FannedOut p manifests { t with sched := s', reported := t.reported ++ [(inv, result)] } m n ↔
      FannedOut p manifests t m n := by
  rw [fannedOut_append]
  refine ⟨fun hf => hf.resolve_right ?_, Or.inl⟩
  rintro ⟨hk, hn, rfl, hs, hl⟩
  rw [h hs hk] at hl
  exact hn hl.symm

/-- Changes that bring in nothing but reduce blocks. -/
theorem Indexing.keep (h : Indexing p manifests t) {t' : Trace}
    (hfan : ∀ m n, FannedOut p manifests t' m n ↔ FannedOut p manifests t m n)
    (hholds : ∀ inv, t'.Holds inv →
      t.Holds inv ∨ inv.mapIndex = none ∧ p.kind manifests inv.id = some .reduce)
    (hpend : ∀ k inv, t'.sched.pendingBlocks.lookup k = some inv →
      t.sched.pendingBlocks.lookup k = some inv) : Indexing p manifests t' := by
  refine ⟨fun k inv hk => h.keyed k inv (hpend k inv hk), ?_, ?_⟩
  · intro inv hi
    rcases hholds inv hi with hi | ⟨hi, -⟩
    · rcases h.indexed inv hi with hn | ⟨m, n, i, hidx, hlt, hf, hd⟩
      · exact Or.inl hn
      · exact Or.inr ⟨m, n, i, hidx, hlt, (hfan m n).mpr hf, hd⟩
    · exact Or.inl hi
  · intro m n inv hf hd hi
    rcases hholds inv hi with hi | ⟨-, hk⟩
    · exact h.spread m n inv ((hfan m n).mp hf) hd hi
    · obtain ⟨k, hk', hne⟩ := hd.kind
      rw [hk] at hk'
      cases hk'
      exact absurd rfl hne

/-- Under a block's own key stands its invocation without index. -/
theorem Indexing.based (hacc : Accepted p manifests) (hkeys : KeysApart p)
    (hc : Causal p manifests t) (h : Indexing p manifests t) : t.sched.Based p := by
  intro b hb inv hk
  have hholds : t.Holds inv := Or.inr (Or.inr ⟨_, hk⟩)
  rcases h.keyed _ _ hk with ⟨hn, hid⟩ | ⟨i, -, hid⟩
  · obtain ⟨c, hcm, heq⟩ := hc.made inv hholds
    have hcb : c = b := unique_of_nodup hacc.nodup hcm hb (by rw [hid, heq]; rfl)
    rw [heq, hn, hcb]
  · exact absurd (hid ▸ List.mem_map_of_mem hb) (hkeys inv.id (made_inputs hc hholds).1 i)

/-- A map block that was handed out is no mapped block. -/
theorem unindexed (hacc : Accepted p manifests) (hc : Causal p manifests t)
    (h : Indexing p manifests t) {inv : BlockInvocation} (hinv : t.Released inv)
    (hk : p.kind manifests inv.id = some .map) : inv.mapIndex = none := by
  rcases h.indexed inv hinv.holds with hn | ⟨m, n, i, -, -, hf, hd⟩
  · exact hn
  · by_cases hm : inv.id = m
    · rw [← hm] at hd
      exact absurd hd (hc.acyclic inv hinv)
    · exact absurd hd (hacc.not_nested hf.1 hk hm)

/-- The state between the fan-out of an expansion and the readiness scan after it. -/
theorem map_step (hacc : Accepted p manifests) (hkeys : KeysApart p) (σ : MapOrder)
    (hc : Causal p manifests t) (h : Indexing p manifests t) {inv : BlockInvocation}
    {result : BlockInvocationResult} (hinv : inv ∈ t.handedOut) (hid : result.id = inv.id)
    (hfresh : inv.mapIndex = none → inv.id ∉ t.sched.completedBlocks)
    (hst : result.status = .map) (hk : p.kind manifests inv.id = some .map)
    (hne : result.items ≠ []) :
    Causal p manifests { t with
      sched := t.sched.handleMap σ result, reported := t.reported ++ [(inv, result)] } ∧
    Indexing p manifests { t with
      sched := t.sched.handleMap σ result, reported := t.reported ++ [(inv, result)] } := by
  obtain ⟨ctx, hctx⟩ := GoMap.lookup_of_mem (hc.has inv.id hk)
  obtain ⟨-, hmapped, -⟩ := hc.contexts _ _ hctx
  have hids : ∀ id ∈ ctx.mappedBlockIDs, id ∈ p.blockIDs := fun id hm =>
    ((hmapped id).mp hm).mem_blockIDs
  obtain ⟨ids, hmem, hspread⟩ := handleMap_spread hacc.nodup hkeys σ hc.pipeline
    (h.based hacc hkeys hc) hne (by rw [hid]; exact hctx) hids
  have hnew : inv.id ∉ t.sched.completedBlocks :=
    hfresh (unindexed hacc hc h (Or.inr hinv) hk)
  have hin : ∀ d, d ∈ ids ↔ Downstream p manifests inv.id d := fun d => by rw [hmem, hmapped]
  have hfan : ∀ (s' : SinglePipelineScheduler) (m : UUID) (n : ℕ),
      FannedOut p manifests { t with sched := s', reported := t.reported ++ [(inv, result)] } m n ↔
        FannedOut p manifests t m n ∨ inv.id = m ∧ result.items.length = n := by
    intro s' m n
    rw [fannedOut_append]
    constructor
    · rintro (hf | ⟨-, -, hm, -, hl⟩)
      · exact Or.inl hf
      · exact Or.inr ⟨hm, hl⟩
    · rintro (hf | ⟨rfl, rfl⟩)
      · exact Or.inl hf
      · exact Or.inr ⟨hk, fun h0 => hne (List.eq_nil_of_length_eq_zero h0), rfl, hst, rfl⟩
  constructor
  · let contexts := t.sched.mapContexts.insert result.id { ctx with expansionItems := result.items }
    have hold : ∀ m c, contexts.lookup m = some c → ∃ ctx', t.sched.mapContexts.lookup m = some ctx' ∧
        c.mappedBlockIDs = ctx'.mappedBlockIDs ∧ c.reduceBlockID = ctx'.reduceBlockID := by
      intro m c hm
      rw [GoMap.lookup_insert_if] at hm
      split at hm
      · rename_i he
        cases hm
        exact ⟨ctx, by rw [he, hid]; exact hctx, rfl, rfl⟩
      · exact ⟨c, hm, rfl, rfl⟩
    have hrec := hc.record hinv hid (Or.inr ⟨hst, hid ▸ hk, hne⟩) hold
      (fun m hm => (AList.mem_insert _).mpr (Or.inr hm))
    refine hrec.queues hacc hspread.same ?_ ?_
    · intro i hi
      rcases hspread.executable i hi with hi | ⟨hr, b, hb, -, j, -, rfl⟩
      · exact Or.inl (Or.inl hi)
      · exact Or.inr ⟨⟨b, hb, rfl⟩, Or.inr hr⟩
    · intro k i hi
      rcases hspread.pending k i hi with ⟨hi, -⟩ | ⟨b, hb, -, j, -, -, rfl⟩
      · exact hc.made i (Or.inr (Or.inr ⟨k, hi⟩))
      · exact ⟨b, hb, rfl⟩
  · have hold : ∀ i, t.Holds i → i.mapIndex = none ∨ ∃ (m : UUID) (n j : ℕ),
        i.mapIndex = some (j : Int) ∧ j < n ∧ FannedOut p manifests { t with
          sched := t.sched.handleMap σ result, reported := t.reported ++ [(inv, result)] } m n ∧
          Downstream p manifests m i.id := by
      intro i hi
      rcases h.indexed i hi with hn | ⟨m, n, j, hidx, hlt, hf, hd⟩
      · exact Or.inl hn
      · exact Or.inr ⟨m, n, j, hidx, hlt, (hfan _ m n).mpr (Or.inl hf), hd⟩
    refine ⟨?_, ?_, ?_⟩
    · intro k i hi
      rcases hspread.pending k i hi with ⟨hi, -⟩ | ⟨b, hb, -, j, -, hkey, rfl⟩
      · exact h.keyed k i hi
      · exact Or.inr ⟨j, rfl, hkey⟩
    · rintro i (hi | hi | ⟨k, hi⟩)
      · rcases hspread.executable i hi with hi | ⟨-, b, hb, hbid, j, hj, rfl⟩
        · exact hold i (Or.inl hi)
        · exact Or.inr ⟨inv.id, _, j, rfl, hj, (hfan _ _ _).mpr (Or.inr ⟨rfl, rfl⟩),
            (hin b.id).mp hbid⟩
      · exact hold i (Or.inr (Or.inl hi))
      · rcases hspread.pending k i hi with ⟨hi, -⟩ | ⟨b, hb, hbid, j, hj, -, rfl⟩
        · exact hold i (Or.inr (Or.inr ⟨k, hi⟩))
        · exact Or.inr ⟨inv.id, _, j, rfl, hj, (hfan _ _ _).mpr (Or.inr ⟨rfl, rfl⟩),
            (hin b.id).mp hbid⟩
    · intro m n i hf hd hi
      rcases (hfan _ m n).mp hf with hf | ⟨rfl, -⟩
      · rcases hi with hi | hi | ⟨k, hi⟩
        · rcases hspread.executable i hi with hi | ⟨-, b, hb, -, j, -, rfl⟩
          · exact h.spread m n i hf hd (Or.inl hi)
          · exact nofun
        · exact h.spread m n i hf hd (Or.inr (Or.inl hi))
        · rcases hspread.pending k i hi with ⟨hi, -⟩ | ⟨b, hb, -, j, -, -, rfl⟩
          · exact h.spread m n i hf hd (Or.inr (Or.inr ⟨k, hi⟩))
          · exact nofun
      · rcases hi with hi | hi | ⟨k, hi⟩
        · rcases hspread.executable i hi with hi | ⟨-, b, hb, -, j, -, rfl⟩
          · exact absurd (hc.upstream hacc hd i (Or.inl hi) rfl) hnew
          · exact nofun
        · exact absurd (hc.upstream hacc hd i (Or.inr hi) rfl) hnew
        · rcases hspread.pending k i hi with ⟨hi, hni⟩ | ⟨b, hb, -, j, -, -, rfl⟩
          · intro hn
            rcases h.keyed k i hi with ⟨-, hkey⟩ | ⟨j, hj, -⟩
            · exact hni ((hin k).mpr (hkey ▸ hd))
            · rw [hn] at hj
              cases hj
          · exact nofun

end Trace
end Spade
