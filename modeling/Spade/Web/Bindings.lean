import Spade.Core.Dependencies
import Spade.Core.Samples
import Spade.Core.Settling
import Spade.Web.Wiring

set_option autoImplicit false

/-!
# The wiring of an exported block

The editor knows which input every binding is for. The export names the output only, and
the worker finds the input anew.
-/
namespace Spade
open FirstFit

/-- The outputs that are bound on an edge, each with the input that it is bound to. -/
def FlowEdge.choices (e : FlowEdge) : List ((UUID × String) × String) :=
  (e.data.bindings.getD []).map fun b => ((e.source, b.output), b.input)

/-- The choices for the inputs of a node, in the order of the edges. -/
def Flow.choices (f : Flow) (id : UUID) : List ((UUID × String) × String) :=
  (f.edges.filter fun e => e.target = id).flatMap FlowEdge.choices

/-- A flow all of whose edges into a node carry bindings that were offered for them, no input
being bound on two edges. -/
structure Wired (manifests : Manifests) (f : Flow) (id : UUID) (current : BlockManifest) : Prop where
  ids : (f.nodes.map FlowNode.id).Nodup
  nonzero : ∀ n ∈ f.nodes, n.id ≠ UUID.nil
  edges : (f.edges.map fun e => (e.source, e.target)).Nodup
  offered : ∀ e ∈ f.edges, e.target = id → ∃ s ∈ f.nodes, s.id = e.source ∧
    ∃ upstream bindings, manifests.lookup s.name = some upstream ∧
      e.data.bindings = some bindings ∧ Offered upstream current bindings
  once : (f.edges.filter fun e => e.target = id).Pairwise fun e e' =>
    (e.choices.map Prod.snd).Disjoint (e'.choices.map Prod.snd)

/-- Every input that is bound gets what was chosen for it. -/
def Receives (σ : MapOrder) (manifests : Manifests) (p : Pipeline) (b : PipelineBlock)
    (current : BlockManifest) (choices : List ((UUID × String) × String)) : Prop :=
  ∃ out, resolveInputs σ b (depManifests p manifests b) current = .ok out ∧
    ∀ c ∈ choices, ∃ decl, out.lookup c.2 = some ⟨c.2, c.1.1, c.1.2, decl⟩

/-! The references of an exported block. -/

theorem FlowEdge.refs_cases (e : FlowEdge) :
    e.refs = e.choices.map (fun c => { block := some c.1.1, output := c.1.2 }) ∨
      e.refs = [{ id := e.source }] ∧ e.choices = [] := by
  unfold FlowEdge.refs FlowEdge.choices
  split
  · rename_i b bs hb
    rw [hb, Option.getD_some, List.map_map]
    exact .inl rfl
  · rename_i hno
    refine .inr ⟨rfl, ?_⟩
    cases hb : e.data.bindings with
    | none => rfl
    | some l =>
      cases l with
      | nil => rfl
      | cons b bs => exact absurd hb (hno b bs)

theorem FlowEdge.choices_source {e : FlowEdge} : ∀ c ∈ e.choices, c.1.1 = e.source := by
  intro c hc
  obtain ⟨b, -, rfl⟩ := List.mem_map.mp hc
  rfl

theorem FlowEdge.explicit_refs (e : FlowEdge) :
    explicitOutputs e.refs = e.choices.map Prod.fst := by
  rcases e.refs_cases with h | ⟨h, hc⟩
  · rw [h, explicitOutputs, List.filterMap_map]
    exact List.filterMap_eq_map ▸ rfl
  · rw [h, hc]
    rfl

theorem FlowEdge.mem_refs {e : FlowEdge} {r : InputRef} (hr : r ∈ e.refs) :
    r.as = "" ∧ r.depID = e.source ∧
      (r.block = none → r = { id := e.source } ∧ e.choices = []) := by
  rcases e.refs_cases with h | ⟨h, hc⟩
  · rw [h] at hr
    obtain ⟨c, hc, rfl⟩ := List.mem_map.mp hr
    exact ⟨rfl, FlowEdge.choices_source c hc, nofun⟩
  · rw [h] at hr
    obtain rfl := List.mem_singleton.mp hr
    exact ⟨rfl, rfl, fun _ => ⟨rfl, hc⟩⟩

theorem explicit_refsInto (f : Flow) (id : UUID) :
    explicitOutputs (f.refsInto id) = (f.choices id).map Prod.fst := by
  unfold Flow.refsInto Flow.choices
  induction f.edges.filter fun e => e.target = id with
  | nil => rfl
  | cons e l ih =>
    rw [List.flatMap_cons, List.flatMap_cons, List.map_append, ← ih, ← e.explicit_refs]
    exact List.filterMap_append

namespace Wired
variable {manifests : Manifests} {f : Flow} {id : UUID} {current : BlockManifest}

/-- The edges into the node come from different blocks. -/
theorem sources (h : Wired manifests f id current) :
    ((f.edges.filter fun e => e.target = id).map FlowEdge.source).Nodup := by
  have hsub : ((f.edges.filter fun e => e.target = id).map fun e => (e.source, e.target)).Nodup :=
    (List.filter_sublist.map _).nodup h.edges
  rw [List.nodup_iff_pairwise_ne, List.pairwise_map] at hsub ⊢
  refine hsub.imp_of_mem fun {e e'} he he' hne heq => hne ?_
  have ht := (List.mem_filter.mp he).2
  have ht' := (List.mem_filter.mp he').2
  rw [decide_eq_true_eq] at ht ht'
  rw [heq, ht, ht']

/-- No input is chosen for twice. -/
theorem choices_nodup (h : Wired manifests f id current) :
    ((f.choices id).map Prod.snd).Nodup := by
  have honce := h.once
  have hoffered : ∀ e ∈ f.edges.filter fun e => e.target = id, (e.choices.map Prod.snd).Nodup := by
    intro e he
    obtain ⟨hmem, ht⟩ := List.mem_filter.mp he
    obtain ⟨s, -, -, upstream, bindings, -, hb, hoff⟩ := h.offered e hmem (by simpa using ht)
    unfold FlowEdge.choices
    rw [hb, Option.getD_some, List.map_map]
    exact hoff.nodup
  unfold Flow.choices
  rw [List.map_flatMap, List.nodup_flatMap]
  exact ⟨hoffered, honce⟩

/-- An upstream block of the node and its manifest. -/
theorem provided (h : Wired manifests f id current) (v7 : UUID) :
    Provided (f.exportPipelineObject v7) manifests (f.refsInto id) := by
  intro r hr
  obtain ⟨e, he, hr⟩ := List.mem_flatMap.mp hr
  obtain ⟨hmem, ht⟩ := List.mem_filter.mp he
  obtain ⟨s, hs, hsid, upstream, _, hup, -, -⟩ := h.offered e hmem (by simpa using ht)
  obtain ⟨-, hdep, -⟩ := FlowEdge.mem_refs hr
  have hblocks : (f.exportPipelineObject v7).blocks =
      f.nodes.map fun n => { n.block with inputs := f.refsInto n.id } := Flow.exportBlocks_eq h.ids
  have hn : (f.exportPipelineObject v7).blockIDs.Nodup := by
    rw [Pipeline.blockIDs, hblocks, List.map_map]
    exact h.ids
  have hblock : { s.block with inputs := f.refsInto s.id } ∈ (f.exportPipelineObject v7).blocks := by
    rw [hblocks]
    exact List.mem_map_of_mem hs
  refine ⟨hdep ▸ hsid ▸ h.nonzero s hs, _, hblock, ?_, GoMap.mem_of_lookup hup⟩
  rw [hdep, ← hsid]
  exact find_block hn hblock

/-- Every upstream block has its manifest among those for the resolution. -/
theorem known (h : Wired manifests f id current) (v7 : UUID) {b : PipelineBlock}
    (hin : b.inputs = f.refsInto id) :
    ∀ r ∈ b.inputs, r.depID ∈ depManifests (f.exportPipelineObject v7) manifests b := by
  intro r hr
  have hprov := hin ▸ h.provided v7
  obtain ⟨-, d, -, hd, hm⟩ := hprov r hr
  rw [GoMap.mem_iff_lookup, depManifests_lookup hprov, if_pos (List.mem_map_of_mem hr),
    Pipeline.manifestOf, hd, Option.bind_some]
  exact GoMap.lookup_of_mem hm

/-- Bare references come from other blocks than the choices. -/
theorem bare_unused (h : Wired manifests f id current) {r : InputRef} (hr : r ∈ f.refsInto id)
    (hb : r.block = none) : ∀ c ∈ f.choices id, c.1.1 ≠ r.id := by
  intro c hc heq
  obtain ⟨e, he, hr⟩ := List.mem_flatMap.mp hr
  obtain ⟨e', he', hc⟩ := List.mem_flatMap.mp hc
  obtain ⟨-, -, hbare⟩ := FlowEdge.mem_refs hr
  obtain ⟨rfl, hnone⟩ := hbare hb
  have hsource : e'.source = e.source := (FlowEdge.choices_source c hc).symm.trans heq
  obtain rfl := List.inj_on_of_nodup_map h.sources he' he hsource
  rw [hnone] at hc
  cases hc

theorem bare_once (h : Wired manifests f id current) :
    ((f.refsInto id).filter fun r => r.block = none).Pairwise fun r r' => r.id ≠ r'.id := by
  have hsources := h.sources
  unfold Flow.refsInto
  generalize f.edges.filter (fun e => e.target = id) = l at hsources ⊢
  induction l with
  | nil => exact List.Pairwise.nil
  | cons e l ih =>
    rw [List.map_cons, List.nodup_cons] at hsources
    rw [List.flatMap_cons, List.filter_append, List.pairwise_append]
    refine ⟨?_, ih hsources.2, fun r hr r' hr' heq => ?_⟩
    · rcases e.refs_cases with he | ⟨he, -⟩
      · rw [he, List.filter_eq_nil_iff.mpr]
        · exact List.Pairwise.nil
        · intro r hr
          obtain ⟨c, -, rfl⟩ := List.mem_map.mp hr
          simp
      · rw [he]
        exact List.pairwise_singleton _ _
    · obtain ⟨hr, hb⟩ := List.mem_filter.mp hr
      obtain ⟨hr', hb'⟩ := List.mem_filter.mp hr'
      obtain ⟨e', he', hr'⟩ := List.mem_flatMap.mp hr'
      rw [decide_eq_true_eq] at hb hb'
      obtain ⟨rfl, -⟩ := (FlowEdge.mem_refs hr).2.2 hb
      obtain ⟨rfl, -⟩ := (FlowEdge.mem_refs hr').2.2 hb'
      exact hsources.1 (List.mem_map.mpr ⟨e', he', heq.symm⟩)

end Wired

/-- What the editor binds is what the worker wires if and only if first fit serves the outputs
in the order of the export as they were chosen, inputs of one output being interchangeable,
and the bare references and the inputs left over settle. -/
theorem receives_iff {manifests : Manifests} {f : Flow} {id : UUID} {current : BlockManifest}
    (h : Wired manifests f id current) (σ : MapOrder) (v7 : UUID) {b : PipelineBlock}
    (hb : b ∈ (f.exportPipelineObject v7).blocks) (hid : b.id = id) :
    Receives σ manifests (f.exportPipelineObject v7) b current (f.choices id) ↔
      (∃ l, l.map Prod.fst = (f.choices id).map Prod.fst ∧ l.Perm (f.choices id) ∧
        Serves (Suits (depManifests (f.exportPipelineObject v7) manifests b) current) [] l ∧
        ∀ e ∈ l, e.2 ≠ "") ∧
      settles (current.inputs.items.filter fun e => e.1 ∉ (f.choices id).map Prod.snd)
        ((bareOutputs (depManifests (f.exportPipelineObject v7) manifests b) σ b.inputs).map
          fun x => x.2.2) = true := by
  have hin : b.inputs = f.refsInto id := by
    change b ∈ f.exportBlocks at hb
    rw [Flow.exportBlocks_eq h.ids] at hb
    obtain ⟨n, -, rfl⟩ := List.mem_map.mp hb
    exact congrArg f.refsInto hid
  have hknown := h.known v7 hin
  have hexplicit : explicitOutputs b.inputs = (f.choices id).map Prod.fst := by
    rw [hin, explicit_refsInto]
  have has : ∀ r ∈ b.inputs, r.block ≠ none → r.as = "" := by
    intro r hr _
    obtain ⟨e, -, hr⟩ := List.mem_flatMap.mp (hin ▸ hr)
    exact (FlowEdge.mem_refs hr).1
  unfold Receives
  generalize depManifests (f.exportPipelineObject v7) manifests b = deps at hknown ⊢
  have hbares : ∀ m, b.inputs.foldlM (resolveBare σ deps current) m =
      (bareOutputs deps σ b.inputs).foldlM (resolveNext σ current) m := by
    refine fun m => bares_eq fun r hr hrb => ?_
    have hdep := hknown r hr
    rwa [InputRef.depID, hrb] at hdep
  have hfirst : ∀ m', b.inputs.foldlM (resolveExplicit deps current) {} = .ok m' ↔
      ∃ l, l.map Prod.fst = explicitOutputs b.inputs ∧ Serves (Suits deps current) [] l ∧
        (∀ e ∈ l, e.2 ≠ "") ∧ m' = l.foldl (Matching.choose deps) {} :=
    fun m' => explicits_iff has fun n => by simp [Matching.open]
  rw [hexplicit] at hfirst
  have hsettles : ∀ l, l.map Prod.fst = (f.choices id).map Prod.fst →
      l.Perm (f.choices id) → Serves (Suits deps current) [] l →
      ((∃ m', (bareOutputs deps σ b.inputs).foldlM (resolveNext σ current)
          (l.foldl (Matching.choose deps) {}) = .ok m' ∧
        ∀ n input, current.inputs.lookup n = some input → m'.open n = true →
          isScalar input.type = true) ↔
      settles (current.inputs.items.filter fun e => e.1 ∉ (f.choices id).map Prod.snd)
        ((bareOutputs deps σ b.inputs).map fun x => x.2.2) = true) := by
    intro l hl hperm hserves
    have hopens : ∀ e : String × InputDeclaration,
        (l.foldl (Matching.choose deps) {}).open e.1 =
          decide (e.1 ∉ (f.choices id).map Prod.snd) := by
      intro e
      rw [Bool.eq_iff_iff, open_foldl hserves.each, decide_eq_true_eq, (hperm.map Prod.snd).mem_iff]
      simp [Matching.open]
    rw [settles_iff]
    · simp only [hopens]
    · rw [hin]
      exact bareOutputs_nodup h.bare_once
    · intro x hx
      obtain ⟨r, hr, hrb, hxid, -⟩ := mem_bareOutputs.mp hx
      rw [← Bool.not_eq_true, (foldl_choose hserves.each Matching.sound_empty).2.2.2, hl]
      rintro (hmem | hused)
      · obtain ⟨c, hc, heq⟩ := List.mem_map.mp hmem
        refine h.bare_unused (hin ▸ hr) hrb c hc ?_
        rw [← hxid, heq]
      · simp [Matching.used] at hused
  constructor
  · rintro ⟨out, hout, hgets⟩
    obtain ⟨m₁, m₂, h₁, h₂, hopen, rfl⟩ := resolveInputs_iff.mp hout
    obtain ⟨l, hl, hserves, hne, rfl⟩ := (hfirst m₁).mp h₁
    rw [hbares] at h₂
    obtain ⟨hsound, horigin, -, hused⟩ := foldl_choose hserves.each Matching.sound_empty
    have hsub : f.choices id ⊆ l := by
      intro c hc
      obtain ⟨decl, hc'⟩ := hgets c hc
      rcases nexts_origin h₂ hc' with hin' | ⟨-, hfree⟩
      · rcases horigin c.2 _ hin' with hmem | hnone
        · exact hmem
        · simp at hnone
      · have hmem := (hused c.1).mpr (.inl (hl ▸ List.mem_map_of_mem hc))
        rw [hfree] at hmem
        cases hmem
    have hperm : l.Perm (f.choices id) := by
      have hnodup : (f.choices id).Nodup := List.Nodup.of_map _ h.choices_nodup
      have hlen : l.length ≤ (f.choices id).length := by
        rw [← List.length_map Prod.fst, hl, List.length_map]
      exact ((List.subperm_of_subset hnodup hsub).perm_of_length_le hlen).symm
    exact ⟨⟨l, hl, hperm, hserves, hne⟩, (hsettles l hl hperm hserves).mp ⟨m₂, h₂, hopen⟩⟩
  · rintro ⟨⟨l, hl, hperm, hserves, hne⟩, hrest⟩
    obtain ⟨m₂, h₂, hopen⟩ := (hsettles l hl hperm hserves).mpr hrest
    refine ⟨m₂.resolved, resolveInputs_iff.mpr ⟨_, m₂, (hfirst _).mpr ⟨l, hl, hserves, hne, rfl⟩, ?_,
      hopen, rfl⟩, fun c hc => ?_⟩
    · rw [hbares]
      exact h₂
    · have hsound := (foldl_choose hserves.each Matching.sound_empty).1
      obtain ⟨decl, -, hlookup⟩ := chosen_foldl hserves.each hserves.nodup.1 Matching.sound_empty c
        (hperm.mem_iff.mpr hc)
      exact ⟨decl, (hsound.nexts h₂).2 _ _ hlookup⟩

end Spade

namespace Spade.Samples

/-- Two nodes with an edge. -/
def edgeFlow (source target : String) (bindings : List ResolvedBinding) : Flow where
  nodes := [⟨blockID 1, source, source, ∅⟩, ⟨blockID 2, target, target, ∅⟩]
  edges := [⟨blockID 1, blockID 2, ⟨some bindings, false⟩⟩]

theorem edgeFlow_wired {manifests : Manifests} {source target : String}
    {bindings : List ResolvedBinding} {upstream current : BlockManifest}
    (hup : manifests.lookup source = some upstream) (h : Offered upstream current bindings) :
    Wired manifests (edgeFlow source target bindings) (blockID 2) current := by
  have hids : [blockID 1, blockID 2].Nodup := by decide
  have hsource : blockID 1 ≠ UUID.nil := by decide
  have htarget : blockID 2 ≠ UUID.nil := by decide
  refine ⟨hids, fun n hn => ?_, List.nodup_singleton _, fun e he _ => ?_, ?_⟩
  · rcases List.mem_cons.mp hn with rfl | hn
    · exact hsource
    · obtain rfl := List.mem_singleton.mp hn
      exact htarget
  · obtain rfl := List.mem_singleton.mp he
    exact ⟨⟨blockID 1, source, source, ∅⟩, List.mem_cons_self, rfl, upstream, bindings, hup, rfl, h⟩
  · change List.Pairwise _ [_]
    exact List.pairwise_singleton _ _

def portManifest (ins : List (String × String)) (outs : List (String × String)) : BlockManifest where
  id := "ports"
  kind := .standard
  inputs := ins.foldl (fun m e => m.insert e.1 { type := "collection", itemType := e.2 }) ∅
  outputs := outs.foldl (fun m e => m.insert e.1 { type := "collection", itemType := e.2 }) ∅

/-- Collections of two kinds, and a block that takes one of each. -/
def sampler : BlockManifest := portManifest [] [("rows", "json"), ("files", "file")]

def study : BlockManifest := portManifest [("images", "file"), ("table", "json")] []

def studyManifests : Manifests := ((∅ : Manifests).insert "sampler" sampler).insert "study" study

/-- The bindings of the two by their item types. -/
def studyBindings : List ResolvedBinding := [⟨"rows", "table"⟩, ⟨"files", "images"⟩]

end Spade.Samples

namespace Spade
open Samples FirstFit

/-- The block behind an edge of two nodes, as it is exported. -/
def edgeTarget (target : String) (outputs : List String) : PipelineBlock where
  id := blockID 2
  name := target
  inputs := outputs.map fun output => { block := some (blockID 1), output := output }
  args := some ∅

/-- An ordinary step. -/
def stepManifest : BlockManifest where
  id := "step"
  kind := .standard
  inputs := (∅ : GoMap String InputDeclaration).insert "data" { type := "file" }
  outputs := (∅ : GoMap String OutputDeclaration).insert "out" { type := "file" }

def sourceManifest : BlockManifest where
  id := "source"
  kind := .standard
  outputs := (∅ : GoMap String OutputDeclaration).insert "out" { type := "file" }

/-- An ordinary step has one input, which takes a file. -/
theorem first_step {dependencies : GoMap UUID BlockManifest} {x : UUID × String}
    (h : outputDecl dependencies x = some { type := "file" }) :
    First (Suits dependencies stepManifest) [] x "data" := by
  refine ⟨⟨_, { type := "file" }, h, by decide, by decide⟩, List.not_mem_nil, ?_⟩
  rintro n' ⟨decl, input, -, hi, -⟩ hlt
  obtain rfl : n' = "data" := by
    by_contra hne
    change ((∅ : GoMap String InputDeclaration).insert "data" { type := "file" }).lookup n' = _ at hi
    rw [AList.lookup_insert_ne hne] at hi
    cases hi
  exact absurd hlt (lt_irrefl _)

theorem receives_step :
    let f := edgeFlow "source" "step" [⟨"out", "data"⟩]
    Receives .stored manifests (f.exportPipelineObject (pipelineID 1)) (edgeTarget "step" ["out"])
      stepManifest (f.choices (blockID 2)) := by
  have hoffered : Offered sourceManifest stepManifest [⟨"out", "data"⟩] :=
    .ok (show resolveConnection sourceManifest stepManifest [] = .ok _ from by decide)
  have hup : manifests.lookup "source" = some sourceManifest := rfl
  refine (receives_iff (edgeFlow_wired hup hoffered) .stored
    (pipelineID 1) (List.mem_cons_of_mem _ List.mem_cons_self) rfl).mpr ⟨?_, by decide⟩
  refine ⟨[((blockID 1, "out"), "data")], rfl, List.Perm.refl _, ⟨first_step ?_, trivial⟩,
    by decide⟩
  decide

/-- The table is bound to the input for the table, and goes to the one for the images. -/
theorem receives_fails :
    let f := edgeFlow "sampler" "study" studyBindings
    let p := f.exportPipelineObject (pipelineID 1)
    validatePipeline .stored p studyManifests = [] ∧ Wired studyManifests f (blockID 2) study ∧
      edgeTarget "study" ["rows", "files"] ∈ p.blocks ∧
      ¬Receives .stored studyManifests p (edgeTarget "study" ["rows", "files"]) study
        (f.choices (blockID 2)) := by
  have hoffered : Offered sampler study studyBindings :=
    .ok (show resolveConnection sampler study [] = .ok studyBindings from by decide)
  refine ⟨by decide, edgeFlow_wired (AList.lookup_insert_ne (by decide)) hoffered,
    List.mem_cons_of_mem _ List.mem_cons_self, ?_⟩
  rintro ⟨out, hout, hgets⟩
  obtain ⟨decl, hdecl⟩ := hgets ((blockID 1, "rows"), "table") List.mem_cons_self
  have hread : ((resolveInputs .stored (edgeTarget "study" ["rows", "files"])
      (depManifests ((edgeFlow "sampler" "study" studyBindings).exportPipelineObject (pipelineID 1))
        studyManifests (edgeTarget "study" ["rows", "files"])) study).toOption.bind fun out =>
      (out.lookup "table").map ResolvedInput.sourceOutputName) = some "files" := by decide
  rw [hout, Except.toOption, Option.bind_some, hdecl] at hread
  exact absurd (show "rows" = "files" from Option.some.inj hread) (by decide)

end Spade
