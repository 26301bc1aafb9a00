import Spade.Lib.GoMap

set_option autoImplicit false

/-! # The data model of `core/types.go` -/
namespace Spade

abbrev UUID := BitVec 128

instance : LawfulBEq UUID := inferInstance

/-- `uuid.Nil`, the zero value of the type. -/
def UUID.nil : UUID := 0

/-- What the program uses of the uuid package. `parse` returns the bytes it has
read when it fails, next to the flag that it succeeded. -/
class UUIDPackage where
  string : UUID → String
  parse : String → UUID × Bool
  newSHA1 : UUID → String → UUID
  parse_string : ∀ u, parse (string u) = (u, true)
  string_no_dot : ∀ u, '.' ∉ (string u).toList

/-- A decoded YAML value, the `any` of argument maps. -/
inductive Value where
  | null
  | bool (b : Bool)
  | int (i : Int)
  | str (s : String)
  | seq (l : List Value)
  | mapping (l : List (Value × Value))

/-- `block` is nil for bare references, whose target is `id`. -/
structure InputRef where
  block : Option UUID := none
  output : String := ""
  as : String := ""
  id : UUID := UUID.nil
  deriving DecidableEq

/-- The block a reference names, in either form. -/
def InputRef.depID (r : InputRef) : UUID :=
  match r.block with
  | some b => b
  | none => r.id

/-- `other` is any string that is none of the three constants. -/
inductive BlockKind where
  | standard | map | reduce
  | other (s : String)
  deriving DecidableEq

structure InputDeclaration where
  type : String
  format : String := ""
  description : String := ""
  itemType : String := ""
  deriving DecidableEq

structure OutputDeclaration where
  type : String
  format : String := ""
  description : String := ""
  itemType : String := ""
  deriving DecidableEq

structure BlockManifest where
  id : String
  version : String := ""
  kind : BlockKind := .other ""
  network : Bool := false
  description : String := ""
  entrypoint : String := ""
  inputs : GoMap String InputDeclaration := ∅
  outputs : GoMap String OutputDeclaration := ∅

/-- `args` is `none` for a nil map. -/
structure PipelineBlock where
  id : UUID
  name : String
  inputs : List InputRef := []
  outputs : List String := []
  args : Option (GoMap String Value) := none

structure Pipeline where
  id : UUID
  name : String := ""
  version : String := ""
  description : String := ""
  blocks : List PipelineBlock

def Pipeline.blockIDs (p : Pipeline) : List UUID := p.blocks.map PipelineBlock.id

structure BlockInvocation where
  id : UUID
  blockId : String
  pipelineId : UUID
  inputs : List InputRef
  arguments : Option (GoMap String Value)
  mapIndex : Option Int := none

/-- The zero `BlockInvocation`, read from a map at a key it does not have. -/
def BlockInvocation.zero : BlockInvocation := ⟨UUID.nil, "", UUID.nil, [], none, none⟩

/-- `other` is any string that is none of the seven constants. -/
inductive ExecutionStatus where
  | awaiting | pending | running | complete | error | map | reduce
  | other (s : String)
  deriving DecidableEq

structure ExpansionItem where
  path : String
  key : String
  deriving DecidableEq

structure ExpansionManifest where
  items : List ExpansionItem
  deriving DecidableEq

structure BlockInvocationResult where
  id : UUID
  pipelineId : UUID
  status : ExecutionStatus
  outputs : List String := []
  expansion : Option ExpansionManifest := none
  error : String := ""
  exitCode : Int := 0
  logsPath : String := ""
  deriving DecidableEq

structure WorkerAssignment where
  invocationID : String
  blockName : String
  pipelineID : UUID
  workDir : String
  args : Option (GoMap String Value)
  inputs : List InputRef

structure WorkerResult where
  invocationID : String
  pipelineID : UUID
  status : ExecutionStatus
  error : String := ""
  expansion : Option ExpansionManifest := none
  outputHashes : GoMap String String := ∅
  exitCode : Int := 0
  logsPath : String := ""

/-- The items of a result, none when it carries no expansion. -/
def BlockInvocationResult.items (r : BlockInvocationResult) : List ExpansionItem :=
  match r.expansion with
  | some e => e.items
  | none => []

/-- The invocation `AddPipeline`, `HandleMap` and `HandleReduce` make of a block. -/
def PipelineBlock.invocation (b : PipelineBlock) (pid : UUID) (idx : Option Int) : BlockInvocation :=
  ⟨b.id, b.name, pid, b.inputs, b.args, idx⟩

end Spade
