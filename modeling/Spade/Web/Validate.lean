import Spade.Core.Types
import Spade.Lib.Colouring

set_option autoImplicit false

/-!
# The validator of the editor

The checks of `utils/validate.ts`. Plain objects are maps, and a key that an object does not
have may still be one of those that every object inherits.
-/
namespace Spade.Web

def objectPrototype : List String :=
  ["constructor", "__defineGetter__", "__defineSetter__", "hasOwnProperty", "__lookupGetter__",
    "__lookupSetter__", "isPrototypeOf", "propertyIsEnumerable", "toString", "valueOf",
    "__proto__", "toLocaleString"]

inductive Property (V : Type) where
  | own (v : V)
  | inherited

def property {V : Type} (object : GoMap String V) (key : String) : Option (Property V) :=
  match object.lookup key with
  | some v => some (.own v)
  | none => if key ∈ objectPrototype then some .inherited else none

inductive InputRef where
  | bare (id : String)
  | explicit (block output : String)
  deriving DecidableEq

structure Block where
  id : String
  name : String
  inputs : Option (List InputRef) := none
  args : Option (GoMap String Value) := none

structure Pipeline where
  blocks : Option (List Block) := none

structure PortDecl where
  type : String

structure BlockManifest where
  kind : BlockKind := .other ""
  inputs : Option (GoMap String PortDecl) := none
  outputs : Option (GoMap String PortDecl) := none

/-- What the map of the manifests inherits has none of the fields of a manifest. -/
def manifestAt (manifests : GoMap String BlockManifest) (name : String) : Option BlockManifest :=
  match property manifests name with
  | none => none
  | some (.own m) => some m
  | some .inherited => some {}

def refToId : InputRef → String
  | .bare id => id
  | .explicit block _ => block

def Block.refs (b : Block) : List InputRef := b.inputs.getD []

inductive ValidationError where
  | duplicateId (id : String)
  | missingBlock (block ref : String)
  | unknownType (block name : String)
  | cycle (path : List String)
  | missingOutput (block output upstream : String)
  | missingArg (block input : String)
  | noExpansion (block : String)
  | noCollection (block : String)
  deriving DecidableEq

def ValidationError.message : ValidationError → String
  | duplicateId id => "Duplicate block id: " ++ id
  | missingBlock block ref =>
    "Block \"" ++ block ++ "\" references missing block id \"" ++ ref ++ "\"."
  | unknownType block name => "Block \"" ++ block ++ "\" uses unknown block type \"" ++ name ++ "\"."
  | cycle path => "Pipeline contains a cycle: " ++ " → ".intercalate path
  | missingOutput block output upstream =>
    "Block \"" ++ block ++ "\" references output \"" ++ output ++ "\" that does not exist on \"" ++
      upstream ++ "\"."
  | missingArg block input => "Block \"" ++ block ++ "\" missing required arg \"" ++ input ++ "\"."
  | noExpansion block =>
    "Map block \"" ++ block ++ "\" must declare an output of type \"expansion\"."
  | noCollection block => "Reduce block \"" ++ block ++ "\" must declare a \"collection\" input."

/-- Check 1, with `seen` on the way. -/
def checkUnique : List String → List Block → List ValidationError
  | _, [] => []
  | seen, b :: bs =>
    (if b.id ∈ seen then [.duplicateId b.id] else []) ++ checkUnique (b.id :: seen) bs

/-- Check 2. -/
def checkReferences (blocks : List Block) : List ValidationError :=
  blocks.flatMap fun b => b.refs.filterMap fun ref =>
    if refToId ref ∈ blocks.map Block.id then none else some (.missingBlock b.id (refToId ref))

/-- Check 3. -/
def checkNames (manifests : GoMap String BlockManifest) (blocks : List Block) :
    List ValidationError :=
  blocks.filterMap fun b =>
    match manifestAt manifests b.name with
    | none => some (.unknownType b.id b.name)
    | some _ => none

/-- `Map.set`: a key that is set again keeps its place. -/
def mapSet {V : Type} (key : String) (v : V) : List (String × V) → List (String × V)
  | [] => [(key, v)]
  | e :: l => if e.1 = key then (key, v) :: l else e :: mapSet key v l

def mapGet {V : Type} (l : List (String × V)) (key : String) : Option V :=
  (l.find? fun e => e.1 = key).map Prod.snd

def adjacency (blocks : List Block) : List (String × List String) :=
  blocks.foldl (fun adj b => mapSet b.id (b.refs.map refToId) adj) []

/-- The cycle that check 4 finds; a search goes no deeper than there are blocks. -/
def findCycle (blocks : List Block) : Option (Option (List String)) :=
  let adj := adjacency blocks
  Colouring.searchAll (fun id => (mapGet adj id).isSome) (fun id => (mapGet adj id).getD [])
    (adj.map Prod.fst).length (adj.map Prod.fst) {}

def hasOutput (m : BlockManifest) (output : String) : Bool :=
  match m.outputs with
  | none => false
  | some outputs => (property outputs output).isSome

/-- Checks 5 and 6. -/
def checkOutputs (manifests : GoMap String BlockManifest) (blocks : List Block) :
    List ValidationError :=
  blocks.flatMap fun b =>
    match manifestAt manifests b.name with
    | none => []
    | some _ => b.refs.filterMap fun ref =>
      match ref with
      | .bare _ => none
      | .explicit block output =>
        match blocks.find? fun x => x.id = block with
        | none => none
        | some upstream =>
          match manifestAt manifests upstream.name with
          | none => none
          | some m =>
            if hasOutput m output then none else some (.missingOutput b.id output upstream.name)

def isScalar (decl : PortDecl) : Bool :=
  decl.type = "string" ∨ decl.type = "number" ∨ decl.type = "boolean"

/-- Check 7. -/
def checkArgs (σ : MapOrder) (manifests : GoMap String BlockManifest) (blocks : List Block) :
    List ValidationError :=
  blocks.flatMap fun b =>
    match manifestAt manifests b.name with
    | none => []
    | some m => (σ.range (m.inputs.getD ∅)).filterMap fun e =>
      if isScalar e.2 ∧ (property (b.args.getD ∅) e.1).isNone then some (.missingArg b.id e.1)
      else none

/-- Check 8. -/
def checkMapReduce (manifests : GoMap String BlockManifest) (blocks : List Block) :
    List ValidationError :=
  blocks.flatMap fun b =>
    match manifestAt manifests b.name with
    | none => []
    | some m =>
      (if m.kind = .map ∧ ¬ (m.outputs.getD ∅).items.any fun e => e.2.type = "expansion"
        then [.noExpansion b.id] else []) ++
      (if m.kind = .reduce ∧ ¬ (m.inputs.getD ∅).items.any fun e => e.2.type = "collection"
        then [.noCollection b.id] else [])

structure ValidationResult where
  ok : Bool
  errors : List String
  deriving DecidableEq

/-- The result, if the search for a cycle ends. -/
def validatePipeline (σ : MapOrder) (pipeline : Pipeline)
    (manifests : Option (GoMap String BlockManifest)) : Option ValidationResult :=
  let blocks := pipeline.blocks.getD []
  match findCycle blocks with
  | none => none
  | some cycle =>
    let errors := checkUnique [] blocks ++ checkReferences blocks ++
      (match manifests with
        | none => []
        | some manifests => checkNames manifests blocks) ++
      cycle.toList.map ValidationError.cycle ++
      (match manifests with
        | none => []
        | some manifests => checkOutputs manifests blocks ++ checkArgs σ manifests blocks ++
          checkMapReduce manifests blocks)
    some ⟨errors.isEmpty, errors.map ValidationError.message⟩

end Spade.Web
