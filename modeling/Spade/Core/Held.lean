import Spade.Core.Once

set_option autoImplicit false

/-!
# No invocation gets lost

The pending map has one entry for each waiting invocation as long as the keys that
are derived for the mapped ones differ.
-/
namespace Spade
open UUIDPackage SinglePipelineScheduler
variable [UUIDPackage]

/-- `NewSHA1` has different results for the first `N` invocations of all blocks. -/
def DistinctKeys (p : Pipeline) (N : ℕ) : Prop :=
  ∀ a ∈ p.blocks, ∀ b ∈ p.blocks, ∀ i < N, ∀ j < N,
    newSHA1 a.id (itoa i) = newSHA1 b.id (itoa j) → a.id = b.id ∧ i = j

instance (p : Pipeline) (N : ℕ) : Decidable (DistinctKeys p N) :=
  inferInstanceAs (Decidable (∀ a ∈ p.blocks, _))

/-- The key under which an invocation is pending. -/
def BlockInvocation.key (inv : BlockInvocation) : UUID :=
  match inv.mapIndex with
  | none => inv.id
  | some i => newSHA1 inv.id (itoa i)

/-- One of the invocations of `p` whose index, if any, is below `N`. -/
def BlockInvocation.Of (p : Pipeline) (N : ℕ) (inv : BlockInvocation) : Prop :=
  ∃ b ∈ p.blocks, inv = b.invocation p.id none ∨
    ∃ i < N, inv = b.invocation p.id (some (i : Int))

section
variable {p : Pipeline} {manifests : Manifests} {N : ℕ}

theorem key_injective (hacc : Accepted p manifests) (hkeys : KeysApart p) (hdist : DistinctKeys p N)
    {a b : BlockInvocation} (ha : a.Of p N) (hb : b.Of p N) (h : a.key = b.key) : a = b := by
  obtain ⟨c, hc, rfl | ⟨i, hi, rfl⟩⟩ := ha <;> obtain ⟨d, hd, rfl | ⟨j, hj, rfl⟩⟩ := hb <;>
    have hcm := List.mem_map_of_mem (f := PipelineBlock.id) hc <;>
    have hdm := List.mem_map_of_mem (f := PipelineBlock.id) hd
  · rw [unique_of_nodup hacc.nodup hc hd h]
  · change c.id = newSHA1 d.id (itoa j) at h
    exact absurd (h ▸ hcm) (hkeys d.id hdm j)
  · change newSHA1 c.id (itoa i) = d.id at h
    exact absurd (h ▸ hdm) (hkeys c.id hcm i)
  · obtain ⟨hid, rfl⟩ := hdist c hc d hd i hi j hj h
    rw [unique_of_nodup hacc.nodup hc hd hid]

end

namespace Trace
variable {p : Pipeline} {manifests : Manifests} {t : Trace} {N : ℕ}

/-- No result so far had more than `N` items. -/
def Bounded (N : ℕ) (t : Trace) : Prop := ∀ e ∈ t.reported, e.2.items.length ≤ N

omit [UUIDPackage] in
theorem Bounded.note (h : Bounded N t) {s' : SinglePipelineScheduler} {inv : BlockInvocation}
    {result : BlockInvocationResult} (hr : result.items.length ≤ N) :
    Bounded N { t with sched := s', reported := t.reported ++ [(inv, result)] } := by
  intro e he
  rcases List.mem_append.mp he with he | he
  · exact h e he
  · rw [List.mem_singleton.mp he]
    exact hr

theorem Invariant.of_holds (h : Invariant p manifests t) (hb : Bounded N t) {inv : BlockInvocation}
    (hi : t.Holds inv) : inv.Of p N := by
  obtain ⟨b, hbm, heq⟩ := h.causal.made inv hi
  refine ⟨b, hbm, ?_⟩
  rcases h.indexing.indexed inv hi with hn | ⟨m, n, i, hidx, hlt, ⟨-, -, e, he, -, -, hlen⟩, -⟩
  · exact Or.inl (by rw [heq, hn])
  · have hle := hb e he
    exact Or.inr ⟨i, by omega, by rw [heq, hidx]⟩

theorem Invariant.key_of_pending (h : Invariant p manifests t) {k : UUID} {inv : BlockInvocation}
    (hk : t.sched.pendingBlocks.lookup k = some inv) : k = inv.key := by
  unfold BlockInvocation.key
  rcases h.indexing.keyed k inv hk with ⟨hn, rfl⟩ | ⟨i, hi, rfl⟩
  · rw [hn]
  · rw [hi]

/-- Under the key of an invocation stands that invocation. -/
theorem Invariant.pending_key (hacc : Accepted p manifests) (hkeys : KeysApart p)
    (hdist : DistinctKeys p N) (h : Invariant p manifests t) (hb : Bounded N t)
    {inv : BlockInvocation} (hi : inv.Of p N) (hm : inv.key ∈ t.sched.pendingBlocks) :
    t.sched.pendingBlocks.lookup inv.key = some inv := by
  obtain ⟨i, hl⟩ := GoMap.lookup_of_mem hm
  rw [hl, key_injective hacc hkeys hdist (h.of_holds hb (Or.inr (Or.inr ⟨_, hl⟩))) hi
    (h.key_of_pending hl).symm]

omit [UUIDPackage] in
theorem holds_promote (σ : MapOrder) (inv : BlockInvocation) :
    Holds { t with sched := t.sched.promoteReady σ } inv ↔ t.Holds inv := by
  obtain ⟨-, -, -, -, hexec, hpend⟩ := promoteReady_spec σ t.sched
  unfold Holds
  constructor
  · rintro (hi | hi | ⟨k, hi⟩)
    · rcases (hexec inv).mp hi with hi | ⟨k, hk, -⟩
      · exact Or.inl hi
      · exact Or.inr (Or.inr ⟨k, hk⟩)
    · exact Or.inr (Or.inl hi)
    · exact Or.inr (Or.inr ⟨k, ((hpend k inv).mp hi).1⟩)
  · rintro (hi | hi | ⟨k, hi⟩)
    · exact Or.inl ((hexec inv).mpr (Or.inl hi))
    · exact Or.inr (Or.inl hi)
    · by_cases hr : t.sched.ready inv = true
      · exact Or.inl ((hexec inv).mpr (Or.inr ⟨k, hi, hr⟩))
      · exact Or.inr (Or.inr ⟨k, (hpend k inv).mpr ⟨hi, by simpa using hr⟩⟩)

/-- What a trace holds after the fan-out of an expansion. -/
structure Spreads (p : Pipeline) (manifests : Manifests) (t t' : Trace)
    (result : BlockInvocationResult) : Prop where
  keeps : ∀ inv, t.Holds inv → t'.Holds inv ∨ Downstream p manifests result.id inv.id
  makes : ∀ b ∈ p.blocks, Downstream p manifests result.id b.id →
    ∀ i < result.items.length, t'.Holds (b.invocation p.id (some (i : Int)))

theorem Invariant.spreads (hacc : Accepted p manifests) (hkeys : KeysApart p)
    (hdist : DistinctKeys p N) (h : Invariant p manifests t) (hb : Bounded N t) (σ : MapOrder)
    {inv : BlockInvocation} {result : BlockInvocationResult} (hinv : inv ∈ t.handedOut)
    (hid : result.id = inv.id) (hfresh : inv.mapIndex = none → inv.id ∉ t.sched.completedBlocks)
    (hmap : result.status = .map) (hlen : result.items.length ≤ N)
    (hexp : t.sched.expands result = true) :
    Spreads p manifests t { t with
      sched := t.sched.handleMap σ result, reported := t.reported ++ [(inv, result)] } result := by
  obtain ⟨hne, hmem⟩ := of_decide_eq_true hexp
  obtain ⟨ctx, hctx⟩ := GoMap.lookup_of_mem hmem
  obtain ⟨-, hmapped, -⟩ := h.causal.contexts _ _ hctx
  have hids : ∀ id ∈ ctx.mappedBlockIDs, id ∈ p.blockIDs := fun id hm =>
    ((hmapped id).mp hm).mem_blockIDs
  obtain ⟨ids, hin, hspread⟩ := handleMap_spread hacc.nodup hkeys σ h.causal.pipeline
    (h.indexing.based hacc hkeys h.causal) hne hctx hids
  have h' := h.record_map hacc hkeys σ hinv hid hfresh hmap
  have hb' : Bounded N { t with
      sched := t.sched.handleMap σ result, reported := t.reported ++ [(inv, result)] } :=
    hb.note hlen
  have pending : ∀ {i : BlockInvocation}, i.Of p N → i.key ∈ (t.sched.handleMap σ result).pendingBlocks →
      Holds { t with
        sched := t.sched.handleMap σ result, reported := t.reported ++ [(inv, result)] } i :=
    fun hi hm => Or.inr (Or.inr ⟨_, h'.pending_key hacc hkeys hdist hb' hi hm⟩)
  constructor
  · rintro i (hi | hi | ⟨k, hk⟩)
    · exact Or.inl (Or.inl (hspread.stays i hi))
    · exact Or.inl (Or.inr (Or.inl hi))
    · have hof := h.of_holds hb (Or.inr (Or.inr ⟨k, hk⟩))
      by_cases hkm : k ∈ ids
      · refine Or.inr ?_
        have hdown := (hmapped k).mp ((hin k).mp hkm)
        rcases h.indexing.keyed k i hk with ⟨-, rfl⟩ | ⟨j, -, rfl⟩
        · exact hdown
        · exact absurd hdown.mem_blockIDs
            (hkeys i.id (made_inputs h.causal (Or.inr (Or.inr ⟨_, hk⟩))).1 j)
      · refine Or.inl (pending hof ?_)
        rw [← h.key_of_pending hk]
        exact hspread.kept k (GoMap.mem_of_lookup hk) hkm
  · intro b hbm hd i hi
    rcases hspread.made b hbm ((hin b.id).mpr ((hmapped b.id).mpr hd)) i hi with hm | hm
    · exact Or.inl hm
    · exact pending ⟨b, hbm, Or.inr ⟨i, by omega, rfl⟩⟩ hm

end Trace
end Spade
