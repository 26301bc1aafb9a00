import Spade.Core.Rewritten
import Spade.Web.Bindings
import Spade.Web.Kept

set_option autoImplicit false

/-!
# A pipeline that was opened and saved

What the worker accepts, and how it wires the blocks, before and after the editor.
-/
namespace Spade

/-- A block of a pipeline and the one that a second pipeline has in its place. -/
structure SameBlock (σ : MapOrder) (manifests : Manifests) (p p' : Pipeline)
    (b b' : PipelineBlock) : Prop where
  id : b'.id = b.id
  name : b'.name = b.name
  args : b'.args.getD ∅ = b.args.getD ∅
  wires : ∀ current, manifests.lookup b.name = some current → ∃ out out',
    resolveInputs σ b (depManifests p manifests b) current = .ok out ∧
    resolveInputs σ b' (depManifests p' manifests b') current = .ok out' ∧
    ∀ n, wireOf out' n = wireOf out n

/-- The second pipeline is accepted, and its blocks are those of the first and wired like them. -/
def Preserves (σ : MapOrder) (manifests : Manifests) (p p' : Pipeline) : Prop :=
  validatePipeline σ p' manifests = [] ∧
    List.Forall₂ (SameBlock σ manifests p p') p.blocks p'.blocks

theorem rewrites_reopen : Rewrites Flow.reopenBlock where
  id _ := rfl
  name _ := rfl
  depends b _ := depIDs_reopened b.inputs

theorem Valid.provided {σ : MapOrder} {p : Pipeline} {manifests : Manifests}
    (h : Valid σ p manifests) {b : PipelineBlock} (hb : b ∈ p.blocks) :
    Provided p manifests b.inputs := by
  intro r hr
  obtain ⟨hnil, hmem⟩ := h.known b hb r hr
  obtain ⟨d, hd, hid⟩ := List.mem_map.mp hmem
  refine ⟨hnil, d, hd, ?_, h.named d hd⟩
  rw [← hid]
  exact find_block h.nodup hd

/-- The wiring of an accepted pipeline is preserved if and only if all its blocks keep theirs. -/
theorem preserves_iff {σ : MapOrder} {p : Pipeline} {manifests : Manifests}
    (h : validatePipeline σ p manifests = []) (v7 : UUID) :
    Preserves σ manifests p ((Flow.yamlToNodes p).exportPipelineObject v7) ↔
      ∀ b ∈ p.blocks, ∀ current, manifests.lookup b.name = some current →
        Keeps σ (depManifests p manifests b) current b.inputs := by
  have hvalid := valid_of_validate h
  have hblocks := Flow.reopen_blocks hvalid.nodup v7
  generalize (Flow.yamlToNodes p).exportPipelineObject v7 = p' at hblocks ⊢
  have hresolve : ∀ b ∈ p.blocks, ∀ current,
      resolveInputs σ (Flow.reopenBlock b) (depManifests p' manifests (Flow.reopenBlock b)) current =
        resolveInputs σ (Flow.reopenBlock b) (depManifests p manifests b) current := by
    intro b hb current
    exact (resolveInputs_congr
      (rewrites_reopen.depManifests_eq hblocks (hvalid.provided hb)) _ current).symm
  unfold Preserves
  rw [hblocks, List.forall₂_map_right_iff, List.forall₂_same]
  constructor
  · rintro ⟨-, hsame⟩ b hb current hm
    obtain ⟨out, out', hout, hout', hwires⟩ := (hsame b hb).wires current hm
    rw [hresolve b hb] at hout'
    exact (rewired_iff hout).mp ⟨out', hout', hwires⟩
  · intro hkeeps
    have hrewired : ∀ b ∈ p.blocks, ∀ current, manifests.lookup b.name = some current →
        ∃ out out', resolveInputs σ b (depManifests p manifests b) current = .ok out ∧
          resolveInputs σ (Flow.reopenBlock b) (depManifests p' manifests (Flow.reopenBlock b))
            current = .ok out' ∧ ∀ n, wireOf out' n = wireOf out n := by
      intro b hb current hm
      obtain ⟨out, hout⟩ := hvalid.resolves b hb current hm
      obtain ⟨out', hout', hwires⟩ := (rewired_iff hout).mpr (hkeeps b hb current hm)
      exact ⟨out, out', hout, by rw [hresolve b hb, hout'], hwires⟩
    refine ⟨Valid.validate ?_, fun b hb => ⟨rfl, rfl, rfl, hrewired b hb⟩⟩
    refine rewrites_reopen.valid hblocks hvalid (fun _ => rfl) fun b hb current hm => ?_
    obtain ⟨_, out', -, hout', -⟩ := hrewired b hb current hm
    exact ⟨out', hout'⟩

end Spade

namespace Spade.Samples

/-- A step that names its source twice, with and without an output. -/
def doubledStep : PipelineBlock :=
  { block "step" 2 [] with
    inputs := [{ id := blockID 1 }, { block := some (blockID 1), output := "out" }] }

def doubled : Pipeline := pipeline 10 [block "source" 1 [], doubledStep]

def asTo (n : ℕ) (output input : String) : InputRef := ⟨some (blockID n), output, input, UUID.nil⟩

/-- A study that says where the two collections go. -/
def assignedStudy : PipelineBlock :=
  { block "study" 2 [] with inputs := [asTo 1 "rows" "table", asTo 1 "files" "images"] }

def assigned : Pipeline := pipeline 11 [block "sampler" 1 [], assignedStudy]

end Spade.Samples

namespace Spade
open Samples

theorem preserves_doubled : Preserves .stored manifests doubled
    ((Flow.yamlToNodes doubled).exportPipelineObject (pipelineID 1)) := by
  refine (preserves_iff (by decide) (pipelineID 1)).mpr (List.forall_mem_cons.mpr ⟨?_, ?_⟩)
  · intro current hm
    cases hm
    exact ⟨[], [], rfl, rfl, trivial, nofun, .refl _, by decide⟩
  · refine List.forall_mem_singleton.mpr fun current hm => ?_
    cases hm
    have hfirst := first_step (show outputDecl (depManifests doubled manifests doubledStep)
      (blockID 1, "out") = some { type := "file" } by decide)
    exact ⟨[((blockID 1, "out"), "data")], [((blockID 1, "out"), "data")],
      ⟨"data", [], ⟨by decide, hfirst⟩, rfl, rfl⟩, by decide, ⟨hfirst, trivial⟩, by decide, .refl _,
      by decide⟩

/-- Both collections of the sampler fit both inputs of the study, and without `as` they are
exchanged. -/
theorem preserves_fails : validatePipeline .stored assigned studyManifests = [] ∧
    ¬Preserves .stored studyManifests assigned
      ((Flow.yamlToNodes assigned).exportPipelineObject (pipelineID 1)) := by
  refine ⟨by decide, ?_⟩
  rintro ⟨-, hsame⟩
  rw [Flow.reopen_blocks (by decide)] at hsame
  obtain _ | ⟨-, hsame⟩ := hsame
  obtain _ | ⟨hstudy, -⟩ := hsame
  obtain ⟨out, out', hout, hout', hwires⟩ := hstudy.wires study rfl
  have hbefore : (resolveInputs .stored assignedStudy
      (depManifests assigned studyManifests assignedStudy) study).toOption.bind
        (fun out => wireOf out "table") = some (blockID 1, "rows") := by decide
  have hafter : (resolveInputs .stored (Flow.reopenBlock assignedStudy) (depManifests
      ((Flow.yamlToNodes assigned).exportPipelineObject (pipelineID 1)) studyManifests
      (Flow.reopenBlock assignedStudy)) study).toOption.bind
        (fun out => wireOf out "table") = some (blockID 1, "files") := by decide
  rw [show resolveInputs .stored assignedStudy _ study = _ from hout] at hbefore
  rw [show resolveInputs .stored (Flow.reopenBlock assignedStudy) _ study = _ from hout'] at hafter
  have heq := (hafter.symm.trans (hwires "table")).trans hbefore
  exact absurd heq (by decide)

end Spade
