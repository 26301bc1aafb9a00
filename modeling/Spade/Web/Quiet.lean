import Mathlib.Data.List.Forall2
import Spade.Core.Dependencies
import Spade.Core.Samples
import Spade.Core.Valid
import Spade.Web.Cycle

set_option autoImplicit false

/-!
# The editor accepts what `ValidatePipeline` accepts

The two validators see one pipeline when its blocks agree field by field, with the ids
written as text. A field that is missing in the editor is an empty one.
-/
namespace Spade.Web
open UUIDPackage

section
variable [UUIDPackage]

def InputRef.of (r : Spade.InputRef) : InputRef :=
  match r.block with
  | none => .bare (string r.id)
  | some block => .explicit (string block) r.output

structure Block.Mirrors (b : Block) (pb : PipelineBlock) : Prop where
  id : b.id = string pb.id
  name : b.name = pb.name
  inputs : b.refs = pb.inputs.map InputRef.of
  args : b.args.getD ∅ = pb.args.getD ∅

def Pipeline.Mirrors (pipeline : Pipeline) (p : Spade.Pipeline) : Prop :=
  List.Forall₂ Block.Mirrors (pipeline.blocks.getD []) p.blocks

end

structure BlockManifest.Mirrors (m : BlockManifest) (bm : Spade.BlockManifest) : Prop where
  kind : m.kind = bm.kind
  inputs : ∀ n, ((m.inputs.getD ∅).lookup n).map PortDecl.type =
    (bm.inputs.lookup n).map InputDeclaration.type
  outputs : ∀ n, ((m.outputs.getD ∅).lookup n).map PortDecl.type =
    (bm.outputs.lookup n).map OutputDeclaration.type

def ManifestsMirror (ms : GoMap String BlockManifest) (manifests : Manifests) : Prop :=
  ∀ name, Option.Rel BlockManifest.Mirrors (ms.lookup name) (manifests.lookup name)

/-! The two pipelines. -/

section
variable [UUIDPackage]

theorem string_injective : Function.Injective (string : UUID → String) := by
  intro u v h
  have hu := parse_string u
  rw [h, parse_string v] at hu
  exact (Prod.mk.inj hu).1.symm

theorem refToId_of (r : Spade.InputRef) : refToId (InputRef.of r) = string r.depID := by
  unfold InputRef.of InputRef.depID
  cases r.block <;> rfl

variable {blocks : List Block} {pbs : List PipelineBlock}

theorem ids_of_mirrors (h : List.Forall₂ Block.Mirrors blocks pbs) :
    blocks.map Block.id = (pbs.map PipelineBlock.id).map string := by
  induction h with
  | nil => rfl
  | cons hb _ ih => rw [List.map_cons, ih, hb.id, List.map_cons, List.map_cons]

theorem mem_of_mirrors (h : List.Forall₂ Block.Mirrors blocks pbs) {b : Block} (hb : b ∈ blocks) :
    ∃ pb ∈ pbs, b.Mirrors pb := by
  induction h with
  | nil => cases hb
  | cons hhead _ ih =>
    rcases List.mem_cons.mp hb with rfl | hb
    · exact ⟨_, List.mem_cons_self, hhead⟩
    · obtain ⟨pb, hpb, hm⟩ := ih hb
      exact ⟨pb, List.mem_cons_of_mem _ hpb, hm⟩

theorem find_of_mirrors (h : List.Forall₂ Block.Mirrors blocks pbs) (u : UUID) :
    Option.Rel Block.Mirrors (blocks.find? fun x => x.id = string u)
      (pbs.find? fun x => x.id = u) := by
  induction h with
  | nil => exact Option.Rel.none
  | @cons b pb _ _ hb _ ih =>
    by_cases hu : pb.id = u
    · rw [List.find?_cons_of_pos (by simp [hb.id, hu]), List.find?_cons_of_pos (by simp [hu])]
      exact Option.Rel.some hb
    · rw [List.find?_cons_of_neg, List.find?_cons_of_neg (by simp [hu])]
      · exact ih
      · rw [decide_eq_true_eq, hb.id]
        exact fun heq => hu (string_injective heq)

theorem Block.Mirrors.ref {b : Block} {pb : PipelineBlock} (h : b.Mirrors pb) {ref : InputRef}
    (href : ref ∈ b.refs) : ∃ r ∈ pb.inputs, ref = InputRef.of r := by
  rw [h.inputs] at href
  obtain ⟨r, hr, rfl⟩ := List.mem_map.mp href
  exact ⟨r, hr, rfl⟩

end

/-! The two maps of manifests. -/

theorem manifestAt_mirrors {ms : GoMap String BlockManifest} {manifests : Manifests}
    (h : ManifestsMirror ms manifests) {name : String} {bm : Spade.BlockManifest}
    (hbm : manifests.lookup name = some bm) :
    ∃ m, manifestAt ms name = some m ∧ m.Mirrors bm := by
  have hrel := h name
  unfold manifestAt property
  rw [hbm] at hrel
  cases hm : ms.lookup name with
  | none =>
    rw [hm] at hrel
    cases hrel
  | some m =>
    rw [hm] at hrel
    cases hrel with
    | some hmm => exact ⟨m, rfl, hmm⟩

theorem hasOutput_of_lookup {m : BlockManifest} {bm : Spade.BlockManifest} (h : m.Mirrors bm)
    {output : String} {decl : OutputDeclaration} (hdecl : bm.outputs.lookup output = some decl) :
    hasOutput m output = true := by
  have hout := h.outputs output
  rw [hdecl] at hout
  unfold hasOutput
  cases ho : m.outputs with
  | none =>
    rw [ho] at hout
    cases hout
  | some outputs =>
    rw [ho] at hout
    dsimp only at hout ⊢
    obtain ⟨d, hd, -⟩ := Option.map_eq_some_iff.mp hout
    rw [property, show outputs.lookup output = some d from hd]
    rfl

theorem any_type_of_lookup {V : Type} {type : V → String} {ports : GoMap String PortDecl}
    {decls : GoMap String V}
    (h : ∀ n, (ports.lookup n).map PortDecl.type = (decls.lookup n).map type) {t : String}
    (hany : (decls.items.any fun e => type e.2 = t) = true) :
    (ports.items.any fun e => e.2.type = t) = true := by
  obtain ⟨⟨n, d⟩, hmem, ht⟩ := List.any_eq_true.mp hany
  rw [GoMap.mem_items] at hmem
  have hn := h n
  rw [hmem] at hn
  obtain ⟨port, hport, htype⟩ := Option.map_eq_some_iff.mp hn
  refine List.any_eq_true.mpr ⟨(n, port), (GoMap.mem_items _ _ _).mpr hport, ?_⟩
  rw [decide_eq_true_eq] at ht ⊢
  exact htype.trans ht

/-! Check by check. -/

theorem checkUnique_nil {seen : List String} {blocks : List Block}
    (h : (blocks.map Block.id).Nodup) (hseen : ∀ b ∈ blocks, b.id ∉ seen) :
    checkUnique seen blocks = [] := by
  induction blocks generalizing seen with
  | nil => rfl
  | cons b bs ih =>
    rw [List.map_cons, List.nodup_cons] at h
    rw [checkUnique, if_neg (hseen b List.mem_cons_self), List.nil_append]
    refine ih h.2 fun c hc hm => ?_
    rcases List.mem_cons.mp hm with heq | hm
    · exact h.1 (heq ▸ List.mem_map_of_mem hc)
    · exact hseen c (List.mem_cons_of_mem b hc) hm

section
variable [UUIDPackage] {σ : MapOrder} {pipeline : Pipeline} {p : Spade.Pipeline}
  {ms : GoMap String BlockManifest} {manifests : Manifests}

theorem nodup_of_mirrors (hp : pipeline.Mirrors p) (h : Valid σ p manifests) :
    ((pipeline.blocks.getD []).map Block.id).Nodup := by
  rw [ids_of_mirrors hp]
  exact List.Nodup.map string_injective h.nodup

theorem findCycle_none (hp : pipeline.Mirrors p) (h : Valid σ p manifests) :
    findCycle (pipeline.blocks.getD []) = some none := by
  obtain ⟨rank, hrank⟩ := h.rank
  let rankOf : String → ℕ := fun id => rank (parse id).1
  have hdown : ∀ v dep, References (pipeline.blocks.getD []) v dep → rankOf dep < rankOf v := by
    rintro v dep ⟨b, hb, rfl, hdep, -⟩
    obtain ⟨ref, href, rfl⟩ := List.mem_map.mp hdep
    obtain ⟨pb, hpb, hmir⟩ := mem_of_mirrors hp hb
    obtain ⟨r, hr, rfl⟩ := hmir.ref href
    change rank (parse (refToId (InputRef.of r))).1 < rank (parse b.id).1
    rw [refToId_of, hmir.id, parse_string, parse_string]
    exact hrank pb hpb r hr
  have hdowns : ∀ v w, Relation.TransGen (References (pipeline.blocks.getD [])) v w →
      rankOf w < rankOf v := by
    intro v w h
    induction h with
    | single hedge => exact hdown v _ hedge
    | tail _ hedge ih => exact (hdown _ _ hedge).trans ih
  obtain ⟨r, hr, hiff, -⟩ := findCycle_ends (nodup_of_mirrors hp h)
  rw [hr, Option.some.injEq]
  by_contra hsome
  obtain ⟨v, hcycle⟩ := hiff.mp hsome
  exact Nat.lt_irrefl _ (hdowns v v hcycle)

theorem checkReferences_nil (hp : pipeline.Mirrors p) (h : Valid σ p manifests) :
    checkReferences (pipeline.blocks.getD []) = [] := by
  refine List.flatMap_eq_nil_iff.mpr fun b hb => List.filterMap_eq_nil_iff.mpr fun ref href => ?_
  obtain ⟨pb, hpb, hmir⟩ := mem_of_mirrors hp hb
  obtain ⟨r, hr, rfl⟩ := hmir.ref href
  rw [refToId_of, ids_of_mirrors hp]
  exact if_pos (List.mem_map_of_mem (h.known pb hpb r hr).2)

/-- Every block has its manifest on both sides. -/
theorem mirrored (hp : pipeline.Mirrors p) (hm : ManifestsMirror ms manifests)
    (h : Valid σ p manifests) {b : Block} (hb : b ∈ pipeline.blocks.getD []) :
    ∃ pb ∈ p.blocks, b.Mirrors pb ∧ ∃ bm, manifests.lookup pb.name = some bm ∧
      ∃ m, manifestAt ms b.name = some m ∧ m.Mirrors bm := by
  obtain ⟨pb, hpb, hmir⟩ := mem_of_mirrors hp hb
  obtain ⟨bm, hbm⟩ := GoMap.lookup_of_mem (h.named pb hpb)
  refine ⟨pb, hpb, hmir, bm, hbm, manifestAt_mirrors hm ?_⟩
  rw [hmir.name]
  exact hbm

theorem checkNames_nil (hp : pipeline.Mirrors p) (hm : ManifestsMirror ms manifests)
    (h : Valid σ p manifests) : checkNames ms (pipeline.blocks.getD []) = [] := by
  refine List.filterMap_eq_nil_iff.mpr fun b hb => ?_
  obtain ⟨pb, -, -, bm, -, m, hat, -⟩ := mirrored hp hm h hb
  rw [hat]

omit [UUIDPackage] in
/-- An explicit reference of an accepted pipeline names an output of the block it is to. -/
theorem output_of_valid (h : Valid σ p manifests) {pb : PipelineBlock} (hpb : pb ∈ p.blocks)
    {r : Spade.InputRef} (hr : r ∈ pb.inputs) {block : UUID} (hblock : r.block = some block) :
    ∃ d, (p.blocks.find? fun x => x.id = block) = some d ∧
      ∃ dm, manifests.lookup d.name = some dm ∧ ∃ decl, dm.outputs.lookup r.output = some decl := by
  obtain ⟨bm, hbm⟩ := GoMap.lookup_of_mem (h.named pb hpb)
  obtain ⟨out, hout⟩ := h.resolves pb hpb bm hbm
  have hprovided : Provided p manifests pb.inputs :=
    Accepted.provided ⟨h.nodup, h.known, h.named, h.mapReduce⟩ hpb
  unfold resolveInputs at hout
  cases h₁ : pb.inputs.foldlM (resolveExplicit (depManifests p manifests pb) bm) {} with
  | error e =>
    rw [h₁] at hout
    cases hout
  | ok m₁ =>
    obtain ⟨c, c', hstep⟩ := foldlM_ok h₁ r hr
    unfold resolveExplicit at hstep
    rw [hblock] at hstep
    dsimp only at hstep
    cases hdep : (depManifests p manifests pb).lookup block with
    | none =>
      rw [hdep] at hstep
      cases hstep
    | some dm =>
      rw [hdep] at hstep
      dsimp only at hstep
      cases hdecl : dm.outputs.lookup r.output with
      | none =>
        rw [hdecl] at hstep
        cases hstep
      | some decl =>
        rw [depManifests_lookup hprovided] at hdep
        split_ifs at hdep with hmem
        obtain ⟨d, hd, hname⟩ := Option.bind_eq_some_iff.mp hdep
        exact ⟨d, hd, dm, hname, decl, hdecl⟩

theorem checkOutputs_nil (hp : pipeline.Mirrors p) (hm : ManifestsMirror ms manifests)
    (h : Valid σ p manifests) : checkOutputs ms (pipeline.blocks.getD []) = [] := by
  refine List.flatMap_eq_nil_iff.mpr fun b hb => ?_
  obtain ⟨pb, hpb, hmir, bm, -, m, hat, -⟩ := mirrored hp hm h hb
  rw [hat]
  refine List.filterMap_eq_nil_iff.mpr fun ref href => ?_
  obtain ⟨r, hr, rfl⟩ := hmir.ref href
  unfold InputRef.of
  cases hblock : r.block with
  | none => rfl
  | some block =>
    obtain ⟨d, hd, dm, hdm, decl, hdecl⟩ := output_of_valid h hpb hr hblock
    have hfind := find_of_mirrors hp block
    rw [hd] at hfind
    dsimp only
    cases hup : (pipeline.blocks.getD []).find? fun x => x.id = string block with
    | none => rfl
    | some upstream =>
      rw [hup] at hfind
      cases hfind with
      | some hsame =>
        obtain ⟨m', hat', hmir'⟩ := manifestAt_mirrors hm (hsame.name ▸ hdm)
        dsimp only
        rw [hat']
        exact if_pos (hasOutput_of_lookup hmir' hdecl)

theorem checkArgs_nil {σ' : MapOrder} (hp : pipeline.Mirrors p) (hm : ManifestsMirror ms manifests)
    (h : Valid σ p manifests) : checkArgs σ' ms (pipeline.blocks.getD []) = [] := by
  refine List.flatMap_eq_nil_iff.mpr fun b hb => ?_
  obtain ⟨pb, hpb, hmir, bm, hbm, m, hat, hmm⟩ := mirrored hp hm h hb
  rw [hat]
  refine List.filterMap_eq_nil_iff.mpr fun e he => if_neg ?_
  obtain ⟨n, port⟩ := e
  rw [MapOrder.mem_range] at he
  rintro ⟨hscalar, hnone⟩
  have htype := hmm.inputs n
  rw [he] at htype
  obtain ⟨decl, hdecl, hsame⟩ := Option.map_eq_some_iff.mp htype.symm
  have hmem : n ∈ pb.args.getD ∅ := by
    refine h.args pb hpb bm hbm n decl hdecl ?_
    rw [hsame]
    exact hscalar
  obtain ⟨v, hv⟩ := GoMap.lookup_of_mem hmem
  rw [property, hmir.args, hv] at hnone
  cases hnone

theorem checkMapReduce_nil (hp : pipeline.Mirrors p) (hm : ManifestsMirror ms manifests)
    (h : Valid σ p manifests) : checkMapReduce ms (pipeline.blocks.getD []) = [] := by
  obtain ⟨g, -, hmap⟩ := h.mapReduce
  refine List.flatMap_eq_nil_iff.mpr fun b hb => ?_
  obtain ⟨pb, hpb, hmir, bm, hbm, m, hat, hmm⟩ := mirrored hp hm h hb
  have hcheck := List.flatMap_eq_nil_iff.mp hmap pb hpb
  rw [hbm] at hcheck
  dsimp only at hcheck
  rw [List.append_eq_nil_iff] at hcheck
  rw [hat]
  dsimp only
  rw [hmm.kind, List.append_eq_nil_iff]
  constructor
  · refine if_neg ?_
    rintro ⟨hkind, hno⟩
    have hexp := hcheck.1
    rw [if_pos hkind, checkMapBlock, List.append_eq_nil_iff, List.append_eq_nil_iff] at hexp
    have hany : (bm.outputs.items.any fun e => e.2.type = "expansion") = true := by
      by_contra hfalse
      have hfirst := hexp.1.1
      rw [if_neg hfalse] at hfirst
      cases hfirst
    exact hno (any_type_of_lookup hmm.outputs hany)
  · refine if_neg ?_
    rintro ⟨hkind, hno⟩
    have hcol := hcheck.2
    rw [if_pos hkind, checkReduceBlock] at hcol
    have hany : (bm.inputs.items.any fun e => e.2.type = "collection") = true := by
      by_contra hfalse
      rw [if_neg hfalse] at hcol
      cases hcol
    exact hno (any_type_of_lookup hmm.inputs hany)

theorem validatePipeline_ok {σ' : MapOrder} (hp : pipeline.Mirrors p)
    (hm : ManifestsMirror ms manifests) (h : Spade.validatePipeline σ p manifests = []) :
    validatePipeline σ' pipeline (some ms) = some ⟨true, []⟩ := by
  have hvalid := valid_of_validate h
  have hunique : checkUnique [] (pipeline.blocks.getD []) = [] :=
    checkUnique_nil (nodup_of_mirrors hp hvalid) fun _ _ => List.not_mem_nil
  simp only [validatePipeline, findCycle_none hp hvalid, hunique, checkReferences_nil hp hvalid,
    checkNames_nil hp hm hvalid, checkOutputs_nil hp hm hvalid, checkArgs_nil hp hm hvalid,
    checkMapReduce_nil hp hm hvalid]
  rfl

end

/-! A source and a step that reads its output by name. -/

theorem ManifestsMirror.insert {ms : GoMap String BlockManifest} {manifests : Manifests}
    (h : ManifestsMirror ms manifests) (name : String) {m : BlockManifest}
    {bm : Spade.BlockManifest} (hm : m.Mirrors bm) :
    ManifestsMirror (ms.insert name m) (manifests.insert name bm) := by
  intro n
  rw [GoMap.lookup_insert_if, GoMap.lookup_insert_if]
  split_ifs
  · exact Option.Rel.some hm
  · exact h n

theorem lookup_port {V : Type} {type : V → String} (n : String) {decl : V} {port : PortDecl}
    (h : port.type = type decl) (k : String) :
    (((∅ : GoMap String PortDecl).insert n port).lookup k).map PortDecl.type =
      (((∅ : GoMap String V).insert n decl).lookup k).map type := by
  rw [GoMap.lookup_insert_if, GoMap.lookup_insert_if]
  split_ifs
  · exact congrArg some h
  · rfl

open Samples Uuid

def sourceDecl : Spade.BlockManifest where
  id := "source"
  kind := .standard
  outputs := (∅ : GoMap String OutputDeclaration).insert "out" { type := "file" }

def sourcePort : BlockManifest where
  kind := .standard
  outputs := some ((∅ : GoMap String PortDecl).insert "out" ⟨"file"⟩)

def stepDecl : Spade.BlockManifest where
  id := "step"
  kind := .standard
  inputs := (∅ : GoMap String InputDeclaration).insert "data" { type := "file" }

def stepPort : BlockManifest where
  kind := .standard
  inputs := some ((∅ : GoMap String PortDecl).insert "data" ⟨"file"⟩)

def stepPipeline : Spade.Pipeline := pipeline 1 [block "source" 1 [],
  { block "step" 2 [] with inputs := [{ block := some (blockID 1), output := "out" }] }]

theorem validatePipeline_step :
    validatePipeline .stored
      { blocks := some [{ id := "019cf4bc-0000-7000-8000-000000000001", name := "source" },
          { id := "019cf4bc-0000-7000-8000-000000000002", name := "step",
            inputs := some [.explicit "019cf4bc-0000-7000-8000-000000000001" "out"] }] }
      (some (((∅ : GoMap String BlockManifest).insert "source" sourcePort).insert "step" stepPort)) =
      some ⟨true, []⟩ := by
  let manifests := ((∅ : Manifests).insert "source" sourceDecl).insert "step" stepDecl
  have hval : Spade.validatePipeline .stored stepPipeline manifests = [] := by decide
  refine validatePipeline_ok (p := stepPipeline) ?_ ?_ hval
  · exact .cons ⟨by decide, rfl, rfl, rfl⟩
      (.cons ⟨by decide, rfl, by decide, rfl⟩ .nil)
  · have hnone : ManifestsMirror ∅ ∅ := fun _ => Option.Rel.none
    have hsource : sourcePort.Mirrors sourceDecl :=
      ⟨rfl, fun _ => rfl, lookup_port (V := OutputDeclaration) "out" rfl⟩
    have hstep : stepPort.Mirrors stepDecl :=
      ⟨rfl, lookup_port (V := InputDeclaration) "data" rfl, fun _ => rfl⟩
    exact (hnone.insert "source" hsource).insert "step" hstep

end Spade.Web
