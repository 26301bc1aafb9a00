import Mathlib.Data.List.Sort
import Mathlib.Data.String.Basic
import Spade.Core.Types

set_option autoImplicit false

/-! # Matching the references of a block with its declared inputs -/
namespace Spade
open UUIDPackage

structure ResolvedInput where
  inputName : String
  sourceBlockID : UUID
  sourceOutputName : String
  sourceOutputDecl : OutputDeclaration
  deriving DecidableEq

def typesCompatible (inputType outputType : String) : Bool :=
  if inputType = outputType then true
  else if outputType = "expansion" ∧
      (inputType = "file" ∨ inputType = "directory" ∨ inputType = "collection") then true
  else if outputType = "file" ∧ inputType = "collection" then true
  else false

/-- The input types whose values come from the arguments. -/
def isScalar (type : String) : Bool := type = "string" ∨ type = "number" ∨ type = "boolean"

inductive ResolveError where
  | unknownExplicit (block : UUID)
  | noOutput (block : UUID) (output : String)
  | unknownTarget (as : String)
  | incompatible (as inputType outputType : String)
  | noUnmatched (outputType : String) (block : UUID) (output : String)
  | unknownBare (id : UUID)
  | ambiguous (id : UUID) (output outputType : String) (candidates : List String)
  | noSource (input type : String)
  deriving DecidableEq

def quoteChar (c : Char) : String :=
  if c = '"' then "\\\"" else if c = '\\' then "\\\\"
  else if c = '\n' then "\\n" else if c = '\r' then "\\r" else if c = '\t' then "\\t"
  else String.singleton c

/-- The verb `%q`, for printable text. -/
def quoted (s : String) : String := "\"" ++ String.join (s.toList.map quoteChar) ++ "\""

def ResolveError.message [UUIDPackage] : ResolveError → String
  | unknownExplicit block => "explicit reference to unknown block " ++ string block
  | noOutput block output => "block " ++ string block ++ " has no output named " ++ quoted output
  | unknownTarget as => "explicit reference targets unknown input " ++ quoted as
  | incompatible as inputType outputType =>
    "explicit reference to " ++ quoted as ++ ": type " ++ quoted inputType ++
      " not compatible with output type " ++ quoted outputType
  | noUnmatched outputType block output =>
    "no unmatched input of type " ++ quoted outputType ++ " for explicit reference to " ++
      string block ++ "." ++ output
  | unknownBare id => "bare reference to unknown block " ++ string id
  | ambiguous id output outputType candidates =>
    "ambiguous type match: output " ++ string id ++ "." ++ output ++ " (type " ++
      quoted outputType ++ ") matches multiple inputs: [" ++ " ".intercalate candidates ++ "]"
  | noSource input type =>
    "input " ++ quoted input ++ " (type " ++ quoted type ++ ") has no matching source"

/-- `resolved`, `matchedInputs` and `matchedOutputs` on the way through the steps. -/
structure Matching where
  resolved : GoMap String ResolvedInput := ∅
  matchedInputs : GoMap String Bool := ∅
  matchedOutputs : GoMap (UUID × String) Bool := ∅

def Matching.record (m : Matching) (input : String) (source : UUID) (output : String)
    (decl : OutputDeclaration) : Matching where
  resolved := m.resolved.insert input ⟨input, source, output, decl⟩
  matchedInputs := m.matchedInputs.insert input true
  matchedOutputs := m.matchedOutputs.insert (source, output) true

def Matching.open (m : Matching) (input : String) : Bool :=
  !(m.matchedInputs.lookup input).getD false

/-- The input an explicit reference goes to: the one named by `as`, else the first
unmatched compatible one by name. -/
def explicitTarget (current : BlockManifest) (m : Matching) (ref : InputRef) (block : UUID)
    (decl : OutputDeclaration) : Except ResolveError String :=
  if ref.as ≠ "" then
    match current.inputs.lookup ref.as with
    | none => .error (.unknownTarget ref.as)
    | some input =>
      if typesCompatible input.type decl.type then .ok ref.as
      else .error (.incompatible ref.as input.type decl.type)
  else
    let names := current.inputs.items.insertionSort fun a b => a.1 ≤ b.1
    let found := names.find? fun e => m.open e.1 && typesCompatible e.2.type decl.type
    let matchedInput := (found.map Prod.fst).getD ""
    if matchedInput = "" then .error (.noUnmatched decl.type block ref.output) else .ok matchedInput

/-- Step 1 for one reference. -/
def resolveExplicit (dependencies : GoMap UUID BlockManifest) (current : BlockManifest)
    (m : Matching) (ref : InputRef) : Except ResolveError Matching :=
  match ref.block with
  | none => .ok m
  | some block =>
    match dependencies.lookup block with
    | none => .error (.unknownExplicit block)
    | some dep =>
      match dep.outputs.lookup ref.output with
      | none => .error (.noOutput block ref.output)
      | some decl =>
        match explicitTarget current m ref block decl with
        | .error e => .error e
        | .ok matchedInput => .ok (m.record matchedInput block ref.output decl)

/-- Steps 2 and 3 for one output of a dependency. -/
def resolveOutput (σ : MapOrder) (current : BlockManifest) (source : UUID) (m : Matching)
    (out : String × OutputDeclaration) : Except ResolveError Matching :=
  if (m.matchedOutputs.lookup (source, out.1)).getD false then .ok m
  else
    let candidates := (σ.range current.inputs).filter fun e =>
      m.open e.1 && typesCompatible e.2.type out.2.type
    match candidates with
    | [] => .ok m
    | [e] => .ok (m.record e.1 source out.1 out.2)
    | _ => .error (.ambiguous source out.1 out.2.type (candidates.map Prod.fst))

/-- Step 2 for one reference. -/
def resolveBare (σ : MapOrder) (dependencies : GoMap UUID BlockManifest)
    (current : BlockManifest) (m : Matching) (ref : InputRef) : Except ResolveError Matching :=
  match ref.block with
  | some _ => .ok m
  | none =>
    match dependencies.lookup ref.id with
    | none => .error (.unknownBare ref.id)
    | some dep => (σ.range dep.outputs).foldlM (resolveOutput σ current ref.id) m

def resolveInputs (σ : MapOrder) (block : PipelineBlock) (dependencies : GoMap UUID BlockManifest)
    (current : BlockManifest) : Except ResolveError (GoMap String ResolvedInput) := do
  let m₁ ← block.inputs.foldlM (resolveExplicit dependencies current) {}
  let m₂ ← block.inputs.foldlM (resolveBare σ dependencies current) m₁
  match (σ.range current.inputs).find? fun e => m₂.open e.1 && !isScalar e.2.type with
  | some e => .error (.noSource e.1 e.2.type)
  | none => .ok m₂.resolved

theorem foldlM_ok {α β ε : Type} {f : β → α → Except ε β} {l : List α} {b b' : β}
    (h : l.foldlM f b = .ok b') : ∀ a ∈ l, ∃ c c', f c a = .ok c' := by
  induction l generalizing b with
  | nil => simp
  | cons x l ih =>
    rw [List.foldlM_cons] at h
    cases hx : f b x with
    | error e =>
      rw [hx] at h
      cases h
    | ok c =>
      rw [hx] at h
      intro a ha
      rcases List.mem_cons.mp ha with rfl | ha
      · exact ⟨b, c, hx⟩
      · exact ih h a ha

/-- A block whose inputs resolve refers to known dependencies only. -/
theorem resolveInputs_known {σ : MapOrder} {block : PipelineBlock}
    {dependencies : GoMap UUID BlockManifest} {current : BlockManifest}
    {out : GoMap String ResolvedInput}
    (h : resolveInputs σ block dependencies current = .ok out) :
    ∀ r ∈ block.inputs, r.depID ∈ dependencies := by
  intro r hr
  unfold resolveInputs at h
  cases h₁ : block.inputs.foldlM (resolveExplicit dependencies current) {} with
  | error e =>
    rw [h₁] at h
    cases h
  | ok m₁ =>
    rw [h₁] at h
    cases h₂ : block.inputs.foldlM (resolveBare σ dependencies current) m₁ with
    | error e =>
      simp only [h₂, bind, Except.bind] at h
      cases h
    | ok m₂ =>
      cases hb : r.block with
      | some b =>
        obtain ⟨c, c', hc⟩ := foldlM_ok h₁ r hr
        simp only [resolveExplicit, hb] at hc
        cases hd : dependencies.lookup b with
        | none => simp [hd] at hc
        | some dep => simpa [InputRef.depID, hb] using GoMap.mem_of_lookup hd
      | none =>
        obtain ⟨c, c', hc⟩ := foldlM_ok h₂ r hr
        simp only [resolveBare, hb] at hc
        cases hd : dependencies.lookup r.id with
        | none => simp [hd] at hc
        | some dep => simpa [InputRef.depID, hb] using GoMap.mem_of_lookup hd

end Spade
