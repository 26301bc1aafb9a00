import Spade.Core.Graph
import Spade.Core.Resolve
import Spade.Lib.DepthFirst

set_option autoImplicit false

/-! # `ValidatePipeline` and what an accepted pipeline is known to be -/
namespace Spade
open UUIDPackage

inductive PipelineError where
  | duplicateId (block : UUID)
  | unknownReference (block ref : UUID)
  | unknownBlockType (block : UUID) (name : String)
  | graph (e : GraphError)
  | resolve (block : UUID) (name : String) (e : ResolveError)
  | missingArg (block : UUID) (input : String)
  | noExpansion (block : UUID) (name : String)
  | noDownstreamReduce (block : UUID) (name : String)
  | nestedMap (block : UUID) (name : String)
  | noCollection (block : UUID) (name : String)
  deriving DecidableEq

def PipelineError.message [UUIDPackage] : PipelineError → String
  | duplicateId block => "duplicate block invocation id: " ++ string block
  | unknownReference block ref =>
    "block " ++ string block ++ " references unknown invocation id " ++ string ref
  | unknownBlockType block name =>
    "block " ++ string block ++ " references unknown block type " ++ quoted name
  | graph e => e.message
  | resolve block name e => "block " ++ string block ++ " (" ++ name ++ "): " ++ e.message
  | missingArg block input => "block " ++ string block ++ " missing required arg " ++ quoted input
  | noExpansion block name =>
    "map block " ++ string block ++ " (" ++ name ++ ") must have an expansion output"
  | noDownstreamReduce block name =>
    "map block " ++ string block ++ " (" ++ name ++ ") has no downstream reduce block"
  | nestedMap block name =>
    "map block " ++ string block ++ " (" ++ name ++ ") has a nested map before its reduce"
  | noCollection block name =>
    "reduce block " ++ string block ++ " (" ++ name ++ ") must have a collection input"

abbrev Manifests := GoMap String BlockManifest

/-- The lookup from id to block; of blocks with one id the last is kept. -/
def Pipeline.blockByID (p : Pipeline) : GoMap UUID PipelineBlock :=
  p.blocks.foldl (fun m b => m.insert b.id b) ∅

/-- The manifest kind of a block in the lookup, if it has a manifest. -/
def kindOf (blocks : GoMap UUID PipelineBlock) (manifests : Manifests) (id : UUID) :
    Option BlockKind :=
  match blocks.lookup id with
  | none => none
  | some b =>
    match manifests.lookup b.name with
    | none => none
    | some m => some m.kind

def reduceVerdict (blocks : GoMap UUID PipelineBlock) (manifests : Manifests) (id : UUID) :
    DepthFirst.Verdict :=
  match kindOf blocks manifests id with
  | none => .skip
  | some k => if k = .reduce then .found else .descend

def nestedVerdict (start : UUID) (blocks : GoMap UUID PipelineBlock) (manifests : Manifests)
    (id : UUID) : DepthFirst.Verdict :=
  match kindOf blocks manifests id with
  | none => .skip
  | some k =>
    if k = .reduce then .skip else if k = .map ∧ id ≠ start then .found else .descend

/-- The depth of a search is bounded by the number of blocks. -/
def DependencyGraph.depth (g : DependencyGraph) : ℕ := g.allBlocks.keys.length + 1

def hasDownstreamReduce (id : UUID) (g : DependencyGraph) (blocks : GoMap UUID PipelineBlock)
    (manifests : Manifests) : Bool :=
  (DepthFirst.visit g.forwardOf (reduceVerdict blocks manifests) g.depth id []).1

def hasNestedMap (mapID : UUID) (g : DependencyGraph) (blocks : GoMap UUID PipelineBlock)
    (manifests : Manifests) : Bool :=
  (DepthFirst.visit g.forwardOf (nestedVerdict mapID blocks manifests) g.depth mapID []).1

def checkMapBlock (g : DependencyGraph) (blocks : GoMap UUID PipelineBlock) (manifests : Manifests)
    (b : PipelineBlock) (m : BlockManifest) : List PipelineError :=
  (if m.outputs.items.any fun e => e.2.type = "expansion" then [] else [.noExpansion b.id b.name]) ++
  (if hasDownstreamReduce b.id g blocks manifests then [] else [.noDownstreamReduce b.id b.name]) ++
  (if hasNestedMap b.id g blocks manifests then [.nestedMap b.id b.name] else [])

def checkReduceBlock (b : PipelineBlock) (m : BlockManifest) : List PipelineError :=
  if m.inputs.items.any fun e => e.2.type = "collection" then [] else [.noCollection b.id b.name]

def validateMapReduce (p : Pipeline) (manifests : Manifests) (g : DependencyGraph) :
    List PipelineError :=
  p.blocks.flatMap fun b =>
    match manifests.lookup b.name with
    | none => []
    | some m =>
      (if m.kind = .map then checkMapBlock g p.blockByID manifests b m else []) ++
      (if m.kind = .reduce then checkReduceBlock b m else [])

/-- Check 1, with `idSet` on the way. -/
def checkUnique : List PipelineBlock → GoMap UUID Bool → List PipelineError
  | [], _ => []
  | b :: bs, idSet =>
    (if (idSet.lookup b.id).getD false then [.duplicateId b.id] else []) ++
      checkUnique bs (idSet.insert b.id true)

/-- Check 2. -/
def checkReferences (p : Pipeline) : List PipelineError :=
  p.references.filterMap fun e =>
    if e.2.depID ≠ UUID.nil ∧ e.2.depID ∉ p.blockIDs
    then some (.unknownReference e.1 e.2.depID) else none

/-- Check 3. -/
def checkNames (p : Pipeline) (manifests : Manifests) : List PipelineError :=
  p.blocks.filterMap fun b =>
    if b.name ∈ manifests then none else some (.unknownBlockType b.id b.name)

/-- The manifests of the blocks that the references of `b` name. -/
def depManifests (p : Pipeline) (manifests : Manifests) (b : PipelineBlock) :
    GoMap UUID BlockManifest :=
  b.inputs.foldl (fun deps r =>
    if r.depID = UUID.nil then deps
    else match p.blocks.find? fun d => d.id = r.depID with
      | none => deps
      | some d =>
        match manifests.lookup d.name with
        | none => deps
        | some m => deps.insert r.depID m) ∅

/-- Checks 5 and 6. -/
def checkInputs (σ : MapOrder) (p : Pipeline) (manifests : Manifests) : List PipelineError :=
  p.blocks.filterMap fun b =>
    match manifests.lookup b.name with
    | none => none
    | some current =>
      match resolveInputs σ b (depManifests p manifests b) current with
      | .ok _ => none
      | .error e => some (.resolve b.id b.name e)

/-- Check 7. -/
def checkArgs (σ : MapOrder) (p : Pipeline) (manifests : Manifests) : List PipelineError :=
  p.blocks.flatMap fun b =>
    match manifests.lookup b.name with
    | none => []
    | some m => (σ.range m.inputs).filterMap fun e =>
        if isScalar e.2.type ∧ e.1 ∉ b.args.getD ∅ then some (.missingArg b.id e.1) else none

def validatePipeline (σ : MapOrder) (p : Pipeline) (manifests : Manifests) : List PipelineError :=
  checkUnique p.blocks ∅ ++ checkReferences p ++ checkNames p manifests ++
    match buildDependencyGraph p with
    | .error e => [.graph e]
    | .ok g =>
      (match topologicalSort σ g with
        | .error e => [.graph e]
        | .ok _ => []) ++
      checkInputs σ p manifests ++ checkArgs σ p manifests ++ validateMapReduce p manifests g

end Spade
