import Spade.Core.InvocationText
import Spade.Core.Validate

set_option autoImplicit false

/-! # `SinglePipelineScheduler` of `core/scheduler.go` -/
namespace Spade
open UUIDPackage

structure MapContext where
  mapBlockID : UUID
  expansionItems : List ExpansionItem := []
  mappedBlockIDs : GoMap UUID Bool := ∅
  reduceBlockID : UUID := UUID.nil

structure SinglePipelineScheduler where
  pipeline : Pipeline
  cancelled : Bool := false
  executableBlocks : List BlockInvocation := []
  completedBlocks : GoMap UUID BlockInvocationResult := ∅
  pendingBlocks : GoMap UUID BlockInvocation := ∅
  manifests : Option Manifests := none
  mapContexts : GoMap UUID MapContext := ∅
  graph : DependencyGraph := {}

/-- The loop over the inputs of an invocation: is every block they name completed? -/
def depsCompleted (completed : GoMap UUID BlockInvocationResult) (inputs : List InputRef) : Bool :=
  inputs.all fun r => r.depID = UUID.nil || decide (r.depID ∈ completed)

namespace SinglePipelineScheduler

def addBlock (s : SinglePipelineScheduler) (item : PipelineBlock) : SinglePipelineScheduler :=
  let invocation := item.invocation s.pipeline.id none
  if item.inputs.isEmpty then
    { s with executableBlocks := s.executableBlocks ++ [invocation] }
  else { s with pendingBlocks := s.pendingBlocks.insert item.id invocation }

def addPipeline (s : SinglePipelineScheduler) (p : Pipeline) :
    SinglePipelineScheduler × Option GraphError :=
  match buildDependencyGraph p with
  | .error e => ({ s with pipeline := p, cancelled := false }, some e)
  | .ok g => (p.blocks.foldl addBlock { s with pipeline := p, cancelled := false, graph := g }, none)

def cancelPipeline (s : SinglePipelineScheduler) : SinglePipelineScheduler :=
  { s with cancelled := true, pendingBlocks := ∅, executableBlocks := [] }

def promote (s : SinglePipelineScheduler) (id : UUID) : SinglePipelineScheduler :=
  { s with
    executableBlocks := s.executableBlocks ++ [(s.pendingBlocks.lookup id).getD .zero]
    pendingBlocks := s.pendingBlocks.erase id }

def promoteReady (σ : MapOrder) (s : SinglePipelineScheduler) : SinglePipelineScheduler :=
  let newlyExecutable := ((σ.range s.pendingBlocks).filter fun e =>
    depsCompleted s.completedBlocks e.2.inputs).map Prod.fst
  newlyExecutable.foldl promote s

def isReady (s : SinglePipelineScheduler) : Bool := !s.executableBlocks.isEmpty

/-- The zero invocation is returned when none is executable; the flag tells that none is
pending either. -/
def next (s : SinglePipelineScheduler) : SinglePipelineScheduler × BlockInvocation × Bool :=
  match s.executableBlocks with
  | block :: rest => ({ s with executableBlocks := rest }, block, false)
  | [] => (s, .zero, s.pendingBlocks.items.isEmpty)

def walkMapContext (g : DependencyGraph) (blocks : GoMap UUID PipelineBlock)
    (manifests : Manifests) : ℕ → UUID → MapContext → MapContext
  | 0, _, ctx => ctx
  | n + 1, id, ctx => (g.forwardOf id).foldl (fun ctx downstream =>
      match kindOf blocks manifests downstream with
      | none => ctx
      | some k =>
        if k = .reduce then { ctx with reduceBlockID := downstream }
        else walkMapContext g blocks manifests n downstream
          { ctx with mappedBlockIDs := ctx.mappedBlockIDs.insert downstream true }) ctx

/-- The depth of the walk over an acyclic graph is bounded by the number of blocks. -/
def mapContext (s : SinglePipelineScheduler) (manifests : Manifests) (id : UUID) : MapContext :=
  walkMapContext s.graph s.pipeline.blockByID manifests s.graph.depth id { mapBlockID := id }

def identifyMapContexts (s : SinglePipelineScheduler) : SinglePipelineScheduler :=
  match s.manifests with
  | none => s
  | some manifests =>
    { s with mapContexts := s.pipeline.blocks.foldl (fun contexts b =>
        match manifests.lookup b.name with
        | none => contexts
        | some m =>
          if m.kind = .map then contexts.insert b.id (s.mapContext manifests b.id)
          else contexts) ∅ }

section
variable [UUIDPackage]

/-- Invocation `i` of a mapped block: executable at once or pending under a derived key. -/
def fanOutOne (original : BlockInvocation) (s : SinglePipelineScheduler) (i : ℕ) :
    SinglePipelineScheduler :=
  let inv : BlockInvocation := { original with mapIndex := some i }
  let mappedKey := newSHA1 original.id (itoa i)
  if depsCompleted s.completedBlocks inv.inputs then
    { s with executableBlocks := s.executableBlocks ++ [inv] }
  else { s with pendingBlocks := s.pendingBlocks.insert mappedKey inv }

def fanOutOriginal (s : SinglePipelineScheduler) (blockID : UUID) : BlockInvocation :=
  match s.pendingBlocks.lookup blockID with
  | some inv => inv
  | none =>
    match s.pipeline.blocks.find? fun pb => pb.id = blockID with
    | some pb => pb.invocation s.pipeline.id none
    | none => .zero

def fanOut (n : ℕ) (s : SinglePipelineScheduler) (blockID : UUID) : SinglePipelineScheduler :=
  (List.range n).foldl (fanOutOne (s.fanOutOriginal blockID))
    { s with pendingBlocks := s.pendingBlocks.erase blockID }

def handleMap (σ : MapOrder) (s : SinglePipelineScheduler) (result : BlockInvocationResult) :
    SinglePipelineScheduler :=
  if result.items = [] then s
  else
    match s.mapContexts.lookup result.id with
    | none => s
    | some ctx =>
      (σ.keys ctx.mappedBlockIDs).foldl (fanOut result.items.length)
        { s with
          mapContexts := s.mapContexts.insert result.id { ctx with expansionItems := result.items }
          completedBlocks := s.completedBlocks.insert result.id result }

/-- `HandleReduce`'s test on one context: every derived key is completed. -/
def allMappedComplete (completed : GoMap UUID BlockInvocationResult) (ctx : MapContext) : Bool :=
  ctx.mappedBlockIDs.keys.all fun blockID =>
    (List.range ctx.expansionItems.length).all fun i => newSHA1 blockID (itoa i) ∈ completed

/-- The contexts whose reduce block `HandleReduce` makes executable. -/
def gathers (completed : GoMap UUID BlockInvocationResult) (ctx : MapContext) : Bool :=
  ctx.reduceBlockID ≠ UUID.nil && ctx.expansionItems ≠ [] && allMappedComplete completed ctx

def handleReduce (σ : MapOrder) (s : SinglePipelineScheduler) : SinglePipelineScheduler :=
  (σ.range s.mapContexts).foldl (fun s e =>
    if gathers s.completedBlocks e.2 then
      match s.pipeline.blocks.find? fun pb => pb.id = e.2.reduceBlockID with
      | none => s
      | some pb =>
        { s with
          executableBlocks := s.executableBlocks ++ [pb.invocation s.pipeline.id none]
          pendingBlocks := s.pendingBlocks.erase pb.id }
    else s) s

def update (σ : MapOrder) (s : SinglePipelineScheduler) (result : BlockInvocationResult) :
    SinglePipelineScheduler :=
  match result.status with
  | .error => { s with pendingBlocks := ∅, executableBlocks := [], cancelled := true }
  | .complete =>
    { s with completedBlocks := s.completedBlocks.insert result.id result }.promoteReady σ
  | .map => (s.handleMap σ result).promoteReady σ
  | .reduce => s.handleReduce σ
  | _ => s

end
end SinglePipelineScheduler

def newSchedulerForPipeline (p : Pipeline) : SinglePipelineScheduler :=
  (SinglePipelineScheduler.addPipeline { pipeline := p } p).1

end Spade
