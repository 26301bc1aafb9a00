import Spade.Core.Trace

set_option autoImplicit false

/-! # Every invocation of a trace is one of a block of its pipeline -/
namespace Spade
open UUIDPackage
variable [UUIDPackage]

namespace SinglePipelineScheduler

/-- The invocation stands in one of the two queues. -/
def Queued (s : SinglePipelineScheduler) (inv : BlockInvocation) : Prop :=
  inv ∈ s.executableBlocks ∨ ∃ k, s.pendingBlocks.lookup k = some inv

/-- A property of invocations that the scheduler's own copies have. -/
structure Closed (s : SinglePipelineScheduler) (G : BlockInvocation → Prop) : Prop where
  index : ∀ inv (i : ℕ), G inv → G { inv with mapIndex := some (i : Int) }
  block : ∀ b ∈ s.pipeline.blocks, G (b.invocation s.pipeline.id none)
  queued : ∀ inv, s.Queued inv → G inv

variable {G : BlockInvocation → Prop} {s : SinglePipelineScheduler}

omit [UUIDPackage] in
theorem Closed.change (h : s.Closed G) {s' : SinglePipelineScheduler}
    (hp : s'.pipeline = s.pipeline) (hq : ∀ inv, s'.Queued inv → G inv) : s'.Closed G :=
  ⟨h.index, by rw [hp]; exact h.block, hq⟩

omit [UUIDPackage] in
theorem Closed.promote (h : s.Closed G) (σ : MapOrder) : (s.promoteReady σ).Closed G := by
  obtain ⟨⟨hp, -⟩, -, -, -, hexec, hpend⟩ := promoteReady_spec σ s
  refine h.change hp ?_
  rintro inv (hi | ⟨k, hi⟩)
  · rcases (hexec inv).mp hi with hi | ⟨k, hk, -⟩
    · exact h.queued inv (Or.inl hi)
    · exact h.queued inv (Or.inr ⟨k, hk⟩)
  · exact h.queued inv (Or.inr ⟨k, ((hpend k inv).mp hi).1⟩)

theorem Closed.fanOut (h : s.Closed G) (n : ℕ) {id : UUID} (hid : id ∈ s.pipeline.blockIDs) :
    (s.fanOut n id).Closed G := by
  have ho : G (s.fanOutOriginal id) := by
    unfold fanOutOriginal
    cases hl : s.pendingBlocks.lookup id with
    | some inv => exact h.queued inv (Or.inr ⟨id, hl⟩)
    | none =>
      cases hf : s.pipeline.blocks.find? fun pb => pb.id = id with
      | some pb => exact h.block pb (find_block_some hf).1
      | none =>
        obtain ⟨b, hb, hbid⟩ := List.mem_map.mp hid
        have hx := List.find?_eq_none.mp hf b hb
        simp [hbid] at hx
  obtain ⟨h₁, h₂, -, h₄, -⟩ := foldl_fanOutOne (s.fanOutOriginal id) (List.range n)
    { s with pendingBlocks := s.pendingBlocks.erase id }
  refine h.change (by unfold SinglePipelineScheduler.fanOut; rw [h₁]) ?_
  rintro inv (hi | ⟨k, hi⟩)
  · rcases h₂ inv hi with hi | ⟨-, i, -, rfl⟩
    · exact h.queued inv (Or.inl hi)
    · exact h.index _ i ho
  · rcases h₄ k inv hi with hi | ⟨i, -, -, rfl⟩
    · rw [GoMap.lookup_erase_if] at hi
      split at hi
      · cases hi
      · exact h.queued inv (Or.inr ⟨k, hi⟩)
    · exact h.index _ i ho

theorem Closed.foldl_fanOut (h : s.Closed G) (n : ℕ) (ids : List UUID)
    (hids : ∀ id ∈ ids, id ∈ s.pipeline.blockIDs) :
    (ids.foldl (SinglePipelineScheduler.fanOut n) s).Closed G := by
  induction ids generalizing s with
  | nil => exact h
  | cons id ids ih =>
    have hp : (s.fanOut n id).pipeline = s.pipeline := by
      rw [show s.SameButQueues (s.fanOut n id) from foldl_fanOut_same n [id] s]
    refine ih (h.fanOut n (hids id (by simp))) fun j hj => ?_
    rw [hp]
    exact hids j (by simp [hj])

theorem Closed.update (h : s.Closed G) (σ : MapOrder) (r : BlockInvocationResult)
    (hids : ∀ m ctx, s.mapContexts.lookup m = some ctx →
      ∀ d ∈ ctx.mappedBlockIDs, d ∈ s.pipeline.blockIDs) : (s.update σ r).Closed G := by
  by_cases herr : r.status = .error
  · rw [update_error σ s herr]
    refine h.change rfl ?_
    rintro inv (hi | ⟨k, hi⟩)
    · cases hi
    · simp at hi
  by_cases hcomp : r.status = .complete
  · rw [update_complete σ s hcomp]
    have hrec : Closed { s with completedBlocks := s.completedBlocks.insert r.id r } G :=
      h.change rfl h.queued
    exact hrec.promote σ
  by_cases hmap : r.status = .map
  · rw [update_map σ s hmap]
    apply Closed.promote
    unfold handleMap
    split_ifs
    · exact h
    · cases hctx : s.mapContexts.lookup r.id with
      | none => exact h
      | some ctx =>
        have hrec : Closed { s with
            mapContexts := s.mapContexts.insert r.id { ctx with expansionItems := r.items }
            completedBlocks := s.completedBlocks.insert r.id r } G := h.change rfl h.queued
        exact hrec.foldl_fanOut _ _ fun id hid => hids _ ctx hctx id ((σ.mem_keys _ _).mp hid)
  by_cases hred : r.status = .reduce
  · rw [update_reduce σ s hred]
    have hg := handleReduce_gathered σ s
    refine h.change (by rw [hg.same]) ?_
    rintro inv (hi | ⟨k, hi⟩)
    · rcases hg.executable inv hi with hi | ⟨m, ctx, b, -, -, hb, -, rfl⟩
      · exact h.queued inv (Or.inl hi)
      · exact h.block b hb
    · exact h.queued inv (Or.inr ⟨k, hg.pending k inv hi⟩)
  · rw [update_other σ s herr hcomp hmap hred]
    exact h

end SinglePipelineScheduler

namespace Trace
open SinglePipelineScheduler

structure Formed (p : Pipeline) (manifests : Manifests) (t : Trace) : Prop where
  pipeline : t.sched.pipeline = p
  known : t.sched.manifests = some manifests
  contexts : ∀ m ctx, t.sched.mapContexts.lookup m = some ctx →
    p.kind manifests m = some .map ∧ (∀ d, d ∈ ctx.mappedBlockIDs ↔ Downstream p manifests m d) ∧
      (ctx.reduceBlockID = UUID.nil ∨ p.kind manifests ctx.reduceBlockID = some .reduce)
  has : ∀ m, p.kind manifests m = some .map → m ∈ t.sched.mapContexts
  made : ∀ inv, t.Holds inv → (∃ b ∈ p.blocks, inv = b.invocation p.id inv.mapIndex) ∧ inv.Indexed

variable {p : Pipeline} {manifests : Manifests} {t : Trace}

omit [UUIDPackage] in
theorem Formed.contexts_of_same (h : Formed p manifests t) {s' : SinglePipelineScheduler}
    (hs : t.sched.SameContexts s') {m : UUID} {ctx : MapContext}
    (hm : s'.mapContexts.lookup m = some ctx) : p.kind manifests m = some .map ∧
      (∀ d, d ∈ ctx.mappedBlockIDs ↔ Downstream p manifests m d) ∧
      (ctx.reduceBlockID = UUID.nil ∨ p.kind manifests ctx.reduceBlockID = some .reduce) := by
  obtain ⟨ctx', hm', h₁, h₂⟩ := hs.1 m ctx hm
  rw [h₁, h₂]
  exact h.contexts m ctx' hm'

theorem formed_of_reachable (hacc : Accepted p manifests)
    {Q : Trace → BlockInvocation → BlockInvocationResult → Prop}
    (h : Reachable p manifests Q t) : Formed p manifests t := by
  induction h with
  | start =>
    obtain ⟨g, hg, -⟩ := hacc.graph
    obtain ⟨hp, -, -, hman, -, he, hl, -⟩ := registered_queues manifests hg
    refine ⟨hp, hman, ?_, fun m hm => GoMap.mem_iff_lookup.mpr (context_of_map hacc hm), ?_⟩
    · intro m ctx hm
      obtain ⟨hk, hd, hr, -⟩ := context_spec hacc hm
      exact ⟨hk, hd, hr⟩
    · rintro inv (hi | hi | ⟨k, hi⟩)
      · change inv ∈ (registered p manifests).executableBlocks at hi
        rw [he] at hi
        obtain ⟨b, hb, rfl⟩ := List.mem_map.mp hi
        exact ⟨⟨b, (List.mem_filter.mp hb).1, rfl⟩, nofun⟩
      · cases hi
      · obtain ⟨b, hb, -, -, rfl⟩ := hl k inv hi
        exact ⟨⟨b, hb, rfl⟩, nofun⟩
  | @handOut t _ ih =>
    refine ⟨ih.pipeline, ih.known, ih.contexts, ih.has, ?_⟩
    rintro inv (hi | hi | hi)
    · cases hi
    · rcases List.mem_append.mp hi with hi | hi
      · exact ih.made inv (Or.inr (Or.inl hi))
      · exact ih.made inv (Or.inl hi)
    · exact ih.made inv (Or.inr (Or.inr hi))
  | @requeue t inv _ hinv ih =>
    refine ⟨ih.pipeline, ih.known, ih.contexts, ih.has, ?_⟩
    rintro i (hi | hi)
    · rcases List.mem_cons.mp hi with rfl | hi
      · exact ih.made i (Or.inr (Or.inl hinv))
      · exact ih.made i (Or.inl hi)
    · exact ih.made i (Or.inr hi)
  | @cancel t _ ih =>
    refine ⟨ih.pipeline, ih.known, ih.contexts, ih.has, ?_⟩
    rintro inv (hi | hi | ⟨k, hi⟩)
    · cases hi
    · exact ih.made inv (Or.inr (Or.inl hi))
    · simp [Trace.cancel, cancelPipeline] at hi
  | @report t σ inv result _ hinv hid _ _ ih =>
    obtain ⟨⟨hp, hman, -⟩, -, hctx⟩ := update_static σ t.sched result
    have hclosed : t.sched.Closed fun inv =>
        (∃ b ∈ p.blocks, inv = b.invocation p.id inv.mapIndex) ∧ inv.Indexed := by
      refine ⟨?_, ?_, ?_⟩
      · rintro i j ⟨⟨b, hb, heq⟩, -⟩
        refine ⟨⟨b, hb, by rw [heq]; rfl⟩, fun k hk => ?_⟩
        cases hk
        exact Int.natCast_nonneg j
      · rw [ih.pipeline]
        exact fun b hb => ⟨⟨b, hb, rfl⟩, nofun⟩
      · exact fun i hi => ih.made i (hi.elim Or.inl fun h => Or.inr (Or.inr h))
    have hnew := hclosed.update σ result fun m ctx hm d hd => by
      rw [ih.pipeline]
      exact (((ih.contexts m ctx hm).2.1 d).mp hd).mem_blockIDs
    refine ⟨hp.trans ih.pipeline, hman.trans ih.known, fun m ctx hm => ih.contexts_of_same hctx hm,
      fun m hm => (hctx.2 m).mpr (ih.has m hm), ?_⟩
    rintro i (hi | hi | hi)
    · exact hnew.queued i (Or.inl hi)
    · exact ih.made i (Or.inr (Or.inl hi))
    · exact hnew.queued i (Or.inr hi)

end Trace
end Spade
