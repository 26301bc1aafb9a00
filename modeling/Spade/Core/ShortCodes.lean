import Spade.Core.Types
import Spade.Lib.Interning

set_option autoImplicit false

/-!
# The short codes of a pipeline file

`ResolveShortCodes` on the nodes of a parsed file. A pointer into the tree stands for the
place that it leads to, so that what is written through it is put back there.
-/
namespace Spade
open UUIDPackage Interning

def isIdentifierStart (c : Char) : Bool := 'A' ≤ c ∧ c ≤ 'Z' ∨ 'a' ≤ c ∧ c ≤ 'z' ∨ c = '_'

/-- The pattern `^@[A-Za-z_][A-Za-z0-9_]*$`. -/
def isShortCode (s : String) : Bool :=
  match s.toList with
  | '@' :: c :: rest =>
    isIdentifierStart c && rest.all fun c => isIdentifierStart c || decide ('0' ≤ c ∧ c ≤ '9')
  | _ => false

structure Scalar where
  style : ℕ
  tag : String
  value : String
  deriving DecidableEq

/-- A `yaml.Node` of a document without aliases. -/
inductive YamlNode where
  | sequence (style : ℕ) (tag : String) (content : List YamlNode)
  | mapping (style : ℕ) (tag : String) (content : List (YamlNode × YamlNode))
  | scalar (s : Scalar)

namespace YamlNode

def kind : YamlNode → ℕ
  | sequence .. => 2
  | mapping .. => 4
  | scalar _ => 8

def value : YamlNode → String
  | scalar s => s.value
  | _ => ""

/-- What is written through the pointer that `mappingValue` returns. -/
def setMappingValue (key : String) (v : YamlNode) : List (YamlNode × YamlNode) → List (YamlNode × YamlNode)
  | [] => []
  | e :: l => if e.1.value = key then (e.1, v) :: l else e :: setMappingValue key v l

end YamlNode

def mappingValue (m : YamlNode) (key : String) : Option YamlNode :=
  match m with
  | .mapping _ _ content => (content.find? fun e => e.1.value = key).map Prod.snd
  | _ => none

structure Lockfile where
  pipeline : String := ""
  version : String := ""
  bindings : Option (GoMap String UUID) := none

inductive ShortCodeError where
  | nilRoot
  | notMapping (kind : ℕ)
  | pipelineId (code : String)
  | notSequence (kind : ℕ)
  | generating (code error : String)
  deriving DecidableEq

def ShortCodeError.message : ShortCodeError → String
  | nilRoot => "nil pipeline root"
  | notMapping kind => "pipeline root must be a YAML mapping, got kind " ++ toString kind
  | pipelineId code =>
    "short code \"" ++ code ++ "\" is not allowed on the pipeline-level `id` field " ++
      "(spec/pipeline.md §6.1): omit `id` to let the CLI generate one at " ++
      "run/submission time, or use a concrete UUID"
  | notSequence kind => "`blocks` must be a sequence, got kind " ++ toString kind
  | generating code error => "generating UUIDv7 for " ++ code ++ ": " ++ error

abbrev CodeWalk := Walk String UUID ShortCodeError

/-- Walk through the value at a key, if there is one. -/
def atKey (key : String) (walk : YamlNode → CodeWalk YamlNode) (m : YamlNode) : CodeWalk YamlNode :=
  match m with
  | .mapping style tag content =>
    match mappingValue m key with
    | none => pure m
    | some v => do
      let v ← walk v
      return .mapping style tag (YamlNode.setMappingValue key v content)
  | m => pure m

section
variable [UUIDPackage] (newV7 : ℕ → Except String UUID)

/-- The call of `uuid.NewV7` with a number. -/
def generate (code : String) (n : ℕ) : Except ShortCodeError UUID :=
  match newV7 n with
  | .ok id => .ok id
  | .error e => .error (.generating code e)

def resolveScalar : YamlNode → CodeWalk YamlNode
  | .scalar s =>
    if isShortCode s.value then do
      let id ← intern (generate newV7) s.value
      return .scalar ⟨0, "", string id⟩
    else pure (.scalar s)
  | n => pure n

def resolveItem (item : YamlNode) : CodeWalk YamlNode :=
  match item with
  | .scalar _ => resolveScalar newV7 item
  | .mapping .. => atKey "block" (resolveScalar newV7) item
  | _ => pure item

def resolveInputNodes : YamlNode → CodeWalk YamlNode
  | .sequence style tag content => do
    let content ← content.mapM (resolveItem newV7)
    return .sequence style tag content
  | n => pure n

def resolveBlockNode (block : YamlNode) : CodeWalk YamlNode := do
  let block ← atKey "id" (resolveScalar newV7) block
  atKey "inputs" (resolveInputNodes newV7) block

def resolveBlockNodes : YamlNode → CodeWalk YamlNode
  | .sequence style tag content => do
    let content ← content.mapM (resolveBlockNode newV7)
    return .sequence style tag content
  | n => throw (.notSequence n.kind)

def isShortCodeId (e : YamlNode × YamlNode) : Bool :=
  match e.2 with
  | .scalar s => e.1.value = "id" ∧ isShortCode s.value
  | _ => false

/-- The tree, the lockfile and the flag `changed` of a call that succeeds. -/
def resolveShortCodes (root : Option YamlNode) (lock : Lockfile) :
    Except ShortCodeError (YamlNode × Lockfile × Bool) :=
  match root with
  | none => .error .nilRoot
  | some (.mapping style tag content) =>
    match content.find? isShortCodeId with
    | some e => .error (.pipelineId e.2.value)
    | none =>
      match atKey "blocks" (resolveBlockNodes newV7) (.mapping style tag content)
          { bindings := lock.bindings.getD ∅ } with
      | .error e => .error e
      | .ok (root, s) => .ok (root, { lock with bindings := some s.bindings }, s.changed)
  | some root => .error (.notMapping root.kind)

end
end Spade
