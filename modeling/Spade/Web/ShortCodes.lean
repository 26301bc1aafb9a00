import Spade.Core.Samples
import Spade.Core.ShortCodes

set_option autoImplicit false

/-!
# The short codes of an uploaded pipeline

`utils/short_codes.ts` on what the YAML parser makes of an upload. A field that is missing
is none; `others` are the fields that no reader of pipelines knows.
-/
namespace Spade.Web
open Interning

structure ExplicitRef where
  block : Option Value := none
  output : Option Value := none
  as : Option Value := none
  others : List (String × Value) := []

inductive UploadedRef where
  | bare (id : String)
  | explicit (r : ExplicitRef)

structure UploadedBlock where
  id : Option Value := none
  name : Option Value := none
  inputs : Option (List UploadedRef) := none
  outputs : Option Value := none
  args : Option Value := none
  others : List (String × Value) := []

structure UploadedPipeline where
  id : Option Value := none
  name : Option Value := none
  version : Option Value := none
  description : Option Value := none
  blocks : Option (List UploadedBlock) := none
  others : List (String × Value) := []

inductive UploadError where
  | pipelineId (code : String)
  | typeError
  deriving DecidableEq

/-- The short code that a field holds. -/
def shortCode : Option Value → Option String
  | some (.str s) => if isShortCode s then some s else none
  | _ => none

abbrev UploadWalk := Walk String String UploadError

section
variable (uuidv7 : ℕ → String)

/-- `uuidv7` with the number of the call. -/
def mint (_code : String) (n : ℕ) : Except UploadError String := .ok (uuidv7 n)

def resolveField (v : Option Value) : UploadWalk (Option Value) :=
  match shortCode v with
  | some code => do
    let id ← intern (mint uuidv7) code
    return some (.str id)
  | none => pure v

def resolveRef : UploadedRef → UploadWalk UploadedRef
  | .bare id =>
    if isShortCode id then do
      let id ← intern (mint uuidv7) id
      return .bare id
    else pure (.bare id)
  | .explicit r => do
    let block ← resolveField uuidv7 r.block
    return .explicit { block := block, output := r.output }

def resolveBlock (b : UploadedBlock) : UploadWalk UploadedBlock := do
  let id ← resolveField uuidv7 b.id
  match b.inputs with
  | none => throw .typeError
  | some inputs => do
    let inputs ← inputs.mapM (resolveRef uuidv7)
    return { id := id, name := b.name, inputs := some inputs, args := b.args }

def resolveShortCodes (p : UploadedPipeline) : Except UploadError UploadedPipeline :=
  match shortCode p.id with
  | some code => .error (.pipelineId code)
  | none =>
    match p.blocks with
    | none => .error .typeError
    | some blocks =>
      match blocks.mapM (resolveBlock uuidv7) {} with
      | .error e => .error e
      | .ok (blocks, _) => .ok {
          id := p.id, name := p.name, version := p.version, description := p.description,
          blocks := some blocks }

end

/-! Substitution, and the codes it is about. -/

def substituteField (f : String → String) (v : Option Value) : Option Value :=
  match shortCode v with
  | some code => some (.str (f code))
  | none => v

def UploadedRef.substitute (f : String → String) : UploadedRef → UploadedRef
  | .bare id => .bare (if isShortCode id then f id else id)
  | .explicit r => .explicit { r with block := substituteField f r.block }

def UploadedBlock.substitute (f : String → String) (b : UploadedBlock) : UploadedBlock :=
  { b with
    id := substituteField f b.id
    inputs := b.inputs.map fun inputs => inputs.map (UploadedRef.substitute f) }

def UploadedPipeline.substitute (f : String → String) (p : UploadedPipeline) : UploadedPipeline :=
  { p with blocks := p.blocks.map fun blocks => blocks.map (UploadedBlock.substitute f) }

def UploadedRef.codes : UploadedRef → List String
  | .bare id => if isShortCode id then [id] else []
  | .explicit r => (shortCode r.block).toList

def UploadedBlock.codes (b : UploadedBlock) : List String :=
  (shortCode b.id).toList ++ (b.inputs.getD []).flatMap UploadedRef.codes

def UploadedPipeline.codes (p : UploadedPipeline) : List String :=
  (p.blocks.getD []).flatMap UploadedBlock.codes

/-- The first calls return different ids. -/
def NeverRepeats (uuidv7 : ℕ → String) (calls : ℕ) : Prop :=
  ∀ i < calls, ∀ j < calls, uuidv7 i = uuidv7 j → i = j

/-- Different codes get different ids, each from a call. -/
def Fresh (uuidv7 : ℕ → String) (codes : List String) (f : String → String) : Prop :=
  (∀ c ∈ codes, ∃ i, f c = uuidv7 i) ∧ ∀ c ∈ codes, ∀ c' ∈ codes, f c = f c' → c = c'

/-- One substitution of fresh ids for short codes, and nothing else. -/
def Substitutes (uuidv7 : ℕ → String) (p : UploadedPipeline) : Prop :=
  ∃ f, Fresh uuidv7 p.codes f ∧ resolveShortCodes uuidv7 p = .ok (p.substitute f)

/-! The fields that the function carries over. -/

def UploadedRef.Plain : UploadedRef → Prop
  | .bare _ => True
  | .explicit r => r.as = none ∧ r.others = []

structure UploadedBlock.Plain (b : UploadedBlock) : Prop where
  outputs : b.outputs = none
  others : b.others = []
  inputs : ∃ inputs, b.inputs = some inputs ∧ ∀ r ∈ inputs, r.Plain

structure UploadedPipeline.Plain (p : UploadedPipeline) : Prop where
  id : shortCode p.id = none
  others : p.others = []
  blocks : ∃ blocks, p.blocks = some blocks ∧ ∀ b ∈ blocks, b.Plain

section
variable {uuidv7 : ℕ → String}

theorem mint_ok (uuidv7 : ℕ → String) (code : String) (n : ℕ) : ∃ id, mint uuidv7 code n = .ok id := ⟨_, rfl⟩

theorem spells_resolveField (v : Option Value) : Spells (mint uuidv7) (resolveField uuidv7 v)
    (shortCode v).toList fun f => substituteField f v := by
  unfold resolveField substituteField
  cases shortCode v with
  | none => exact spells_pure v
  | some code => exact (spells_intern code).map fun id => some (Value.str id)

theorem total_resolveField (uuidv7 : ℕ → String) (v : Option Value) : Total (resolveField uuidv7 v) := by
  unfold resolveField
  cases shortCode v with
  | none => exact total_pure v
  | some code => exact (total_intern (mint_ok uuidv7) code).bind fun id => total_pure _

theorem spells_resolveRef {r : UploadedRef} (h : r.Plain) : Spells (mint uuidv7)
    (resolveRef uuidv7 r) r.codes fun f => r.substitute f := by
  cases r with
  | bare id =>
    unfold resolveRef UploadedRef.codes UploadedRef.substitute
    dsimp only
    split_ifs with hcode
    · exact (spells_intern id).map UploadedRef.bare
    · exact spells_pure _
  | explicit r =>
    obtain ⟨block, output, as, others⟩ := r
    obtain ⟨rfl, rfl⟩ : as = none ∧ others = [] := h
    exact (spells_resolveField block).map fun block =>
      UploadedRef.explicit { block := block, output := output }

theorem total_resolveRef (r : UploadedRef) : Total (resolveRef uuidv7 r) := by
  cases r with
  | bare id =>
    unfold resolveRef
    dsimp only
    split_ifs with hcode
    · exact (total_intern (mint_ok uuidv7) id).bind fun id => total_pure _
    · exact total_pure _
  | explicit r => exact (total_resolveField uuidv7 r.block).bind fun block => total_pure _

theorem spells_resolveBlock {b : UploadedBlock} (h : b.Plain) : Spells (mint uuidv7)
    (resolveBlock uuidv7 b) b.codes fun f => b.substitute f := by
  obtain ⟨id, name, inputs, outputs, args, others⟩ := b
  obtain ⟨houtputs, hothers, refs, hrefs, hplain⟩ := h
  obtain rfl : outputs = none := houtputs
  obtain rfl : others = [] := hothers
  obtain rfl : inputs = some refs := hrefs
  refine (spells_resolveField id).bind (fun f g => (⟨substituteField f id, name,
    some (refs.map (UploadedRef.substitute g)), none, args, []⟩ : UploadedBlock)) fun f => ?_
  exact (Spells.mapM fun r hr => spells_resolveRef (hplain r hr)).map fun refs =>
    (⟨substituteField f id, name, some refs, none, args, []⟩ : UploadedBlock)

theorem total_resolveBlock {b : UploadedBlock} (h : b.Plain) : Total (resolveBlock uuidv7 b) := by
  obtain ⟨refs, hrefs, -⟩ := h.inputs
  unfold resolveBlock
  rw [hrefs]
  exact (total_resolveField uuidv7 b.id).bind fun id =>
    (Total.mapM fun r _ => total_resolveRef r).bind fun refs => total_pure _

/-- What comes out of a block has the fields that the function writes. -/
theorem resolveBlock_plain {b b' : UploadedBlock} {s s' : Interner String String}
    (h : resolveBlock uuidv7 b s = .ok (b', s')) : b'.Plain := by
  unfold resolveBlock at h
  obtain ⟨⟨id, s₁⟩, hid⟩ := total_resolveField uuidv7 b.id s
  change Except.bind (resolveField uuidv7 b.id s) _ = _ at h
  rw [hid] at h
  cases hin : b.inputs with
  | none =>
    rw [hin] at h
    cases h
  | some inputs =>
    rw [hin] at h
    change Except.bind (inputs.mapM (resolveRef uuidv7) s₁) _ = _ at h
    cases hrefs : inputs.mapM (resolveRef uuidv7) s₁ with
    | error e =>
      rw [hrefs] at h
      cases h
    | ok r =>
      obtain ⟨refs, s₂⟩ := r
      rw [hrefs] at h
      cases h
      refine ⟨rfl, rfl, refs, rfl, fun r hr => ?_⟩
      obtain ⟨r', -, t, t', hr'⟩ := mem_mapM hrefs r hr
      cases r' with
      | bare id =>
        unfold resolveRef at hr'
        dsimp only at hr'
        split_ifs at hr' with hcode
        · obtain ⟨⟨v, t₁⟩, hv⟩ := total_intern (mint_ok uuidv7) id t
          change Except.bind (intern (mint uuidv7) id t) _ = _ at hr'
          rw [hv] at hr'
          cases hr'
          trivial
        · cases hr'
          trivial
      | explicit r' =>
        unfold resolveRef at hr'
        obtain ⟨⟨v, t₁⟩, hv⟩ := total_resolveField uuidv7 r'.block t
        change Except.bind (resolveField uuidv7 r'.block t) _ = _ at hr'
        rw [hv] at hr'
        cases hr'
        exact ⟨rfl, rfl⟩

theorem UploadedRef.plain_substitute {f : String → String} {r : UploadedRef} :
    (r.substitute f).Plain ↔ r.Plain := by
  cases r <;> rfl

theorem UploadedBlock.plain_substitute {f : String → String} {b : UploadedBlock}
    (h : (b.substitute f).Plain) : b.Plain := by
  obtain ⟨inputs, hin, hplain⟩ := h.inputs
  obtain ⟨refs, hrefs, rfl⟩ := Option.map_eq_some_iff.mp hin
  exact ⟨h.outputs, h.others, refs, hrefs, fun r hr =>
    UploadedRef.plain_substitute.mp (hplain _ (List.mem_map_of_mem hr))⟩

theorem plain_of_substitutes {p : UploadedPipeline} (h : Substitutes uuidv7 p) : p.Plain := by
  obtain ⟨f, -, h⟩ := h
  unfold resolveShortCodes at h
  cases hid : shortCode p.id with
  | some code =>
    rw [hid] at h
    cases h
  | none =>
    rw [hid] at h
    cases hblocks : p.blocks with
    | none =>
      rw [hblocks] at h
      cases h
    | some blocks =>
      rw [hblocks] at h
      dsimp only at h
      cases hwalk : blocks.mapM (resolveBlock uuidv7) {} with
      | error e =>
        rw [hwalk] at h
        cases h
      | ok r =>
        obtain ⟨blocks', s⟩ := r
        rw [hwalk] at h
        have hp := Except.ok.inj h
        have hothers : [] = p.others := congrArg UploadedPipeline.others hp
        have hsame : some blocks' = p.blocks.map fun blocks =>
            blocks.map (UploadedBlock.substitute f) := congrArg UploadedPipeline.blocks hp
        rw [hblocks, Option.map_some, Option.some.injEq] at hsame
        refine ⟨hid, hothers.symm, blocks, hblocks, fun b hb => ?_⟩
        have hmem : b.substitute f ∈ blocks' := hsame ▸ List.mem_map_of_mem hb
        obtain ⟨b', -, t, t', hb'⟩ := mem_mapM hwalk _ hmem
        exact UploadedBlock.plain_substitute (resolveBlock_plain hb')

theorem substitutes_of_plain {p : UploadedPipeline} (hfresh : NeverRepeats uuidv7 p.codes.length)
    (h : p.Plain) : Substitutes uuidv7 p := by
  obtain ⟨id, name, version, description, pblocks, others⟩ := p
  obtain ⟨hid, hothers, blocks, hblocks, hplain⟩ := h
  obtain rfl : others = [] := hothers
  obtain rfl : pblocks = some blocks := hblocks
  have hspells : Spells (mint uuidv7) (blocks.mapM (resolveBlock uuidv7))
      (blocks.flatMap UploadedBlock.codes) fun f => blocks.map fun b => b.substitute f :=
    Spells.mapM fun b hb => spells_resolveBlock (hplain b hb)
  obtain ⟨⟨blocks', s⟩, hwalk⟩ := Total.mapM (fun b hb => total_resolveBlock (hplain b hb)) {}
  obtain ⟨hgrow, hval⟩ := hspells.run {} blocks' s hwalk
  obtain ⟨slot, hslot⟩ := hgrow.slots
  have hsource : ∀ c ∈ blocks.flatMap UploadedBlock.codes,
      slot c < (blocks.flatMap UploadedBlock.codes).length ∧
        (s.bindings.lookup c).getD default = uuidv7 (slot c) := by
    intro c hc
    obtain ⟨v, hv⟩ := GoMap.lookup_of_mem ((hgrow.bound c).mpr (Or.inr hc))
    obtain ⟨-, hlt, hdraw⟩ := hslot.source c v (by simp) hv
    have hle := hgrow.drawn.2
    rw [hv, Option.getD_some]
    refine ⟨?_, (Except.ok.inj hdraw).symm⟩
    simp only [Nat.zero_add] at hle
    omega
  refine ⟨fun c => (s.bindings.lookup c).getD default, ⟨fun c hc => ⟨slot c, (hsource c hc).2⟩,
    fun c hc c' hc' heq => ?_⟩, ?_⟩
  · obtain ⟨hlt, hc₁⟩ := hsource c hc
    obtain ⟨hlt', hc₂⟩ := hsource c' hc'
    dsimp only at heq
    rw [hc₁, hc₂] at heq
    exact hslot.apart c c' (by simp) (by simp) ((hgrow.bound c).mpr (Or.inr hc))
      ((hgrow.bound c').mpr (Or.inr hc')) (hfresh _ hlt _ hlt' heq)
  · unfold resolveShortCodes
    dsimp only
    rw [show shortCode id = none from hid]
    dsimp only
    rw [hwalk, hval _ hgrow.reads]
    rfl

theorem substitutes_iff {p : UploadedPipeline} (hfresh : NeverRepeats uuidv7 p.codes.length) :
    Substitutes uuidv7 p ↔ p.Plain :=
  ⟨plain_of_substitutes, substitutes_of_plain hfresh⟩

end

/-! A block that reads another one by its code. -/

open Samples

def sampleV7 (n : ℕ) : String := Uuid.string (blockID n)

def uploaded (ref : ExplicitRef) : UploadedPipeline where
  name := some (.str "p")
  blocks := some [{ id := some (.str "@source"), name := some (.str "data.x"), inputs := some [] },
    { id := some (.str "@clip"), name := some (.str "data.z"), inputs := some [.explicit ref] }]

theorem substitutes_tiles : Substitutes sampleV7
    (uploaded { block := some (.str "@source"), output := some (.str "tiles") }) := by
  refine (substitutes_iff ?_).mpr ⟨rfl, rfl, _, rfl, ?_⟩
  · change ∀ i < 3, ∀ j < 3, sampleV7 i = sampleV7 j → i = j
    decide
  · refine List.forall_mem_cons.mpr ⟨⟨rfl, rfl, [], rfl, nofun⟩, List.forall_mem_singleton.mpr ?_⟩
    exact ⟨rfl, rfl, _, rfl, List.forall_mem_singleton.mpr ⟨rfl, rfl⟩⟩

/-- The name of the input is lost. -/
theorem substitutes_fails :
    let p := uploaded ⟨some (.str "@source"), some (.str "tiles"), some (.str "mask"), []⟩
    NeverRepeats sampleV7 p.codes.length ∧ ¬Substitutes sampleV7 p := by
  refine ⟨?_, ?_⟩
  · change ∀ i < 3, ∀ j < 3, sampleV7 i = sampleV7 j → i = j
    decide
  · intro h
    obtain ⟨-, -, blocks, hblocks, hplain⟩ := plain_of_substitutes h
    cases hblocks
    obtain ⟨-, -, refs, hrefs, hplain⟩ := hplain _ (List.mem_cons_of_mem _ List.mem_cons_self)
    cases hrefs
    obtain ⟨has, -⟩ := hplain _ List.mem_cons_self
    cases has

end Spade.Web
