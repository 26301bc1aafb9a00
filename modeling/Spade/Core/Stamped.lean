import Spade.Core.Contexts
import Spade.Core.Formed
import Spade.Core.MultiTenant

set_option autoImplicit false

/-! # Whatever happens to a scheduler, its queues hold invocations of its blocks -/
namespace Spade
open UUIDPackage

/-- An invocation that the scheduler makes of a block. -/
def BlockInvocation.Made (p : Pipeline) (inv : BlockInvocation) : Prop :=
  (∃ b ∈ p.blocks, inv = b.invocation p.id inv.mapIndex) ∧ inv.Indexed

/-- What the invocations of a pipeline have, the mapped ones too. -/
structure Pipeline.Marks (p : Pipeline) (G : BlockInvocation → Prop) : Prop where
  index : ∀ inv (i : ℕ), G inv → G { inv with mapIndex := some (i : Int) }
  block : ∀ b ∈ p.blocks, G (b.invocation p.id none)

theorem marks_pipelineId (p : Pipeline) : p.Marks fun inv => inv.pipelineId = p.id :=
  ⟨fun _ _ h => h, fun _ _ => rfl⟩

theorem marks_made (p : Pipeline) : p.Marks (BlockInvocation.Made p) := by
  refine ⟨fun inv i h => ?_, fun b hb => ⟨⟨b, hb, rfl⟩, nofun⟩⟩
  obtain ⟨⟨b, hb, heq⟩, -⟩ := h
  refine ⟨⟨b, hb, by rw [heq]; rfl⟩, fun k hk => ?_⟩
  cases hk
  exact Int.natCast_nonneg i

namespace SinglePipelineScheduler

/-- The queues hold invocations of one kind, and a fan-out concerns the blocks of the pipeline. -/
structure Stamped (p : Pipeline) (G : BlockInvocation → Prop) (s : SinglePipelineScheduler) :
    Prop where
  pipeline : s.pipeline = p
  queued : ∀ inv, s.Queued inv → G inv
  contexts : ∀ m ctx, s.mapContexts.lookup m = some ctx → ∀ d ∈ ctx.mappedBlockIDs, d ∈ p.blockIDs

variable {p : Pipeline} {G : BlockInvocation → Prop} {s : SinglePipelineScheduler}

theorem Stamped.closed (h : s.Stamped p G) (hG : p.Marks G) : s.Closed G := by
  refine ⟨hG.index, ?_, h.queued⟩
  rw [h.pipeline]
  exact hG.block

theorem Stamped.shrink (h : s.Stamped p G) {s' : SinglePipelineScheduler}
    (hp : s'.pipeline = s.pipeline) (hm : s'.mapContexts = s.mapContexts)
    (hq : ∀ inv, s'.Queued inv → G inv) : s'.Stamped p G := by
  refine ⟨hp.trans h.pipeline, hq, ?_⟩
  rw [hm]
  exact h.contexts

theorem Stamped.update [UUIDPackage] (h : s.Stamped p G) (hG : p.Marks G) (σ : MapOrder)
    (r : BlockInvocationResult) : (s.update σ r).Stamped p G := by
  obtain ⟨⟨hp, -, -⟩, -, hctx⟩ := update_static σ s r
  have hclosed := (h.closed hG).update σ r fun m ctx hm d hd => by
    rw [h.pipeline]
    exact h.contexts m ctx hm d hd
  refine ⟨hp.trans h.pipeline, hclosed.queued, fun m ctx hm d hd => ?_⟩
  obtain ⟨ctx', hm', hmapped, -⟩ := hctx.1 m ctx hm
  exact h.contexts m ctx' hm' d (hmapped ▸ hd)

theorem Stamped.replay [UUIDPackage] (h : s.Stamped p G) (hG : p.Marks G) (σ : MapOrder)
    (r : BlockInvocationResult) : (MultiTenantScheduler.replay σ s r).Stamped p G := by
  have hu := h.update hG σ r
  unfold MultiTenantScheduler.replay
  dsimp only
  split_ifs
  · refine hu.shrink rfl rfl ?_
    rintro inv (hi | hi)
    · exact hu.queued inv (.inl (List.mem_filter.mp hi).1)
    · exact hu.queued inv (.inr hi)
  · exact hu

theorem Stamped.foldl_replay [UUIDPackage] (hG : p.Marks G) (σ : MapOrder)
    (l : List BlockInvocationResult) (h : s.Stamped p G) :
    (l.foldl (MultiTenantScheduler.replay σ) s).Stamped p G := by
  induction l generalizing s with
  | nil => exact h
  | cons r l ih => exact ih (h.replay hG σ r)

theorem stamped_new (hG : p.Marks G) : (newSchedulerForPipeline p).Stamped p G := by
  unfold newSchedulerForPipeline addPipeline
  cases hg : buildDependencyGraph p with
  | error e =>
    refine ⟨rfl, ?_, fun m ctx hm => by cases hm⟩
    rintro inv (hi | ⟨k, hi⟩)
    · cases hi
    · cases hi
  | ok g =>
    obtain ⟨pending, heq, hl, -⟩ := foldl_addBlock p.blocks { pipeline := p, graph := g }
    dsimp only
    rw [heq]
    refine ⟨rfl, ?_, fun m ctx hm => by cases hm⟩
    rintro inv (hi | ⟨k, hi⟩)
    · obtain ⟨b, hb, rfl⟩ := List.mem_map.mp hi
      exact hG.block b (List.mem_filter.mp hb).1
    · rcases hl k inv hi with hi | ⟨b, hb, -, -, rfl⟩
      · cases hi
      · exact hG.block b hb

/-- The walk adds blocks that the lookup has. -/
theorem walk_mapped (g : DependencyGraph) (blocks : GoMap UUID PipelineBlock)
    (manifests : Manifests) (n : ℕ) (id : UUID) (ctx : MapContext) :
    ∀ d ∈ (walkMapContext g blocks manifests n id ctx).mappedBlockIDs,
      d ∈ ctx.mappedBlockIDs ∨ d ∈ blocks := by
  induction n generalizing id ctx with
  | zero => exact fun d hd => .inl hd
  | succ n ih =>
    unfold walkMapContext
    generalize g.forwardOf id = l
    induction l generalizing ctx with
    | nil => exact fun d hd => .inl hd
    | cons x l ihl =>
      intro d hd
      rw [List.foldl_cons] at hd
      cases hk : kindOf blocks manifests x with
      | none =>
        rw [hk] at hd
        exact ihl ctx d hd
      | some k =>
        have hx : x ∈ blocks := by
          cases hb : blocks.lookup x with
          | none => simp [kindOf, hb] at hk
          | some b => exact GoMap.mem_of_lookup hb
        rw [hk] at hd
        dsimp only at hd
        by_cases hred : k = .reduce
        · rw [if_pos hred] at hd
          exact ihl { ctx with reduceBlockID := x } d hd
        · rw [if_neg hred] at hd
          rcases ihl _ d hd with hd | hd
          · rcases ih x _ d hd with hd | hd
            · rcases (AList.mem_insert _).mp hd with rfl | hd
              · exact .inr hx
              · exact .inl hd
            · exact .inr hd
          · exact .inr hd

theorem Stamped.identify (h : s.Stamped p G) (manifests : Option Manifests) :
    { s with manifests := manifests }.identifyMapContexts.Stamped p G := by
  unfold identifyMapContexts
  cases manifests with
  | none => exact h.shrink rfl rfl h.queued
  | some manifests =>
    refine ⟨h.pipeline, h.queued, ?_⟩
    intro m ctx hm d hd
    rcases (foldl_contexts manifests _ _ _ _ _).mp hm with ⟨-, rfl⟩ | ⟨-, hm⟩
    · rcases walk_mapped _ _ _ _ _ _ d hd with hd | hd
      · cases hd
      · obtain ⟨b, hb⟩ := GoMap.lookup_of_mem hd
        obtain ⟨hmem, hid⟩ := mem_blockByID hb
        rw [← h.pipeline]
        exact List.mem_map.mpr ⟨b, hmem, hid⟩
    · cases hm

end SinglePipelineScheduler

end Spade
