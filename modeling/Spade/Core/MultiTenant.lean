import Spade.Core.Scheduler

set_option autoImplicit false

/-! # `MultiTenantScheduler` with the helpers of `core/scheduler_server.go` -/
namespace Spade
open UUIDPackage

structure MultiTenantScheduler where
  pipelines : GoMap UUID Pipeline := ∅
  schedulers : GoMap UUID SinglePipelineScheduler := ∅
  currentExecutions : GoMap UUID BlockInvocation := ∅
  pipelineOrder : List UUID := []

namespace MultiTenantScheduler

def addPipeline (s : MultiTenantScheduler) (p : Pipeline) : MultiTenantScheduler :=
  { s with
    pipelines := s.pipelines.insert p.id p
    schedulers := s.schedulers.insert p.id (newSchedulerForPipeline p)
    pipelineOrder := s.pipelineOrder ++ [p.id] }

/-- `none` is the error of a pipeline that is not registered. -/
def cancelPipeline (s : MultiTenantScheduler) (id : UUID) : Option MultiTenantScheduler :=
  match s.schedulers.lookup id with
  | none => none
  | some ps => some { s with
      schedulers := s.schedulers.insert id ps.cancelPipeline
      pipelines := s.pipelines.erase id
      pipelineOrder := s.pipelineOrder.erase id }

def drainOne (acc : GoMap UUID SinglePipelineScheduler × List BlockInvocation) (pid : UUID) :
    GoMap UUID SinglePipelineScheduler × List BlockInvocation :=
  match acc.1.lookup pid with
  | none => acc
  | some ps =>
    if ps.executableBlocks.isEmpty then acc
    else (acc.1.insert pid { ps with executableBlocks := [] }, acc.2 ++ ps.executableBlocks)

def drain (s : MultiTenantScheduler) : MultiTenantScheduler × List BlockInvocation :=
  let acc := s.pipelineOrder.foldl drainOne (s.schedulers, [])
  ({ s with schedulers := acc.1 }, acc.2)

section
variable [UUIDPackage]

/-- `none` is the error of a result for a pipeline that is not registered. -/
def update (σ : MapOrder) (s : MultiTenantScheduler) (invocationId : UUID)
    (result : BlockInvocationResult) : Option MultiTenantScheduler :=
  match s.schedulers.lookup result.pipelineId with
  | none => none
  | some ps => some { s with
      schedulers := s.schedulers.insert result.pipelineId (ps.update σ result)
      currentExecutions := s.currentExecutions.erase invocationId }

/-- The two branches of `IsAlreadyProcessed` for one scheduler. -/
def processedBy (id : UUID) (mapIdx : Option Int) (ps : SinglePipelineScheduler) : Bool :=
  if id ∈ ps.completedBlocks then
    match mapIdx with
    | none => true
    | some i => newSHA1 id (itoa i) ∈ ps.completedBlocks
  else
    match mapIdx with
    | none => false
    | some i => newSHA1 id (itoa i) ∈ ps.completedBlocks

def isAlreadyProcessed (s : MultiTenantScheduler) (invocationID : String) : Bool :=
  match parseInvocationIDForScheduler invocationID with
  | (id, mapIdx, true) => s.schedulers.items.any fun e => processedBy id mapIdx e.2
  | (_, _, false) => false

/-- The loop body of `Rehydrate`: replay a result, then prune its block. -/
def replay (σ : MapOrder) (ps : SinglePipelineScheduler) (r : BlockInvocationResult) :
    SinglePipelineScheduler :=
  let ps' := ps.update σ r
  if r.status = .complete ∨ r.status = .error then
    { ps' with executableBlocks := ps'.executableBlocks.filter fun inv => inv.id ≠ r.id }
  else ps'

def rehydrate (σ : MapOrder) (s : MultiTenantScheduler) (p : Pipeline)
    (completedResults : List BlockInvocationResult) : MultiTenantScheduler :=
  let s' := s.addPipeline p
  { s' with schedulers :=
      s'.schedulers.insert p.id (completedResults.foldl (replay σ) (newSchedulerForPipeline p)) }

/-- `ps.Manifests = manifestMap; ps.IdentifyMapContexts()` of the engine. -/
def setManifests (s : MultiTenantScheduler) (pid : UUID) (manifests : Manifests) :
    MultiTenantScheduler :=
  match s.schedulers.lookup pid with
  | none => s
  | some ps => { s with
      schedulers := s.schedulers.insert pid
        { ps with manifests := some manifests }.identifyMapContexts }

end
end MultiTenantScheduler

/-- The worker's map index is not part of the result. -/
def workerResultToInvocationResult [UUIDPackage] (r : WorkerResult) : BlockInvocationResult where
  id := (parseInvocationIDForScheduler r.invocationID).1
  pipelineId := r.pipelineID
  status := r.status
  expansion := r.expansion
  error := r.error
  exitCode := r.exitCode
  logsPath := r.logsPath

end Spade
