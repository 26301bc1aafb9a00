import Spade.Core.MultiTenant
import Spade.Server.Store

set_option autoImplicit false

/-! # The engine of the scheduling server over `MemStore` -/
namespace Spade
open UUIDPackage

/-- What the engine uses of the yaml and json packages. -/
class Encoding where
  yamlMarshal : Pipeline → Option String
  yamlUnmarshal : String → Option Pipeline
  jsonExpansion : ExpansionManifest → String
  jsonReadExpansion : String → Option ExpansionManifest
  jsonHashes : GoMap String String → String

/-- The payload of `spade.jobs`. -/
structure Job where
  assignment : WorkerAssignment
  pipeline : Pipeline
  manifests : Manifests

structure CallbackPayload where
  status : PipelineStatus
  errorMsg : String
  invocations : List InvocationRecord
  deriving DecidableEq

/-- `callbacks` are the calls that the registered callback has received. -/
structure Engine where
  store : MemStore := {}
  sched : MultiTenantScheduler := {}
  callbacks : List (UUID × CallbackPayload) := []

/-- What an engine operation meets outside: the order of its loops over maps, the
clock, the manifests of the provider and the outcome of `uuid.NewV7`. -/
structure Env where
  order : MapOrder := .stored
  now : Time := 1
  manifests : Manifests
  newV7 : Option UUID := none

inductive EngineError where
  | newV7
  | validation (errs : List PipelineError)
  | marshal
  | alreadyExists
  | notFound
  | unknownPipeline
  deriving DecidableEq

def buildJobForInvocation [UUIDPackage] (inv : BlockInvocation) (p : Pipeline)
    (manifests : Manifests) (workDir : String) : Job where
  assignment := ⟨inv.invocationID, inv.blockId, p.id, workDir, inv.arguments, inv.inputs⟩
  pipeline := p
  manifests := manifests

/-- The manifests of the block of an invocation and of its direct dependencies. -/
def dispatchManifests (manifests : Manifests) (p : Pipeline) (inv : BlockInvocation) : Manifests :=
  let own : Manifests :=
    match manifests.lookup inv.blockId with
    | none => ∅
    | some m => (∅ : Manifests).insert inv.blockId m
  inv.inputs.foldl (fun acc ref =>
    if ref.depID = UUID.nil then acc
    else match p.blocks.find? fun pb => pb.id = ref.depID with
      | none => acc
      | some pb =>
        match manifests.lookup pb.name with
        | none => acc
        | some m => acc.insert pb.name m) own

def statusFromWorker : ExecutionStatus → InvocationStatus
  | .complete => .complete
  | .error => .error
  | .map => .map
  | .reduce => .reduce
  | .awaiting => .other "waiting"
  | .pending => .pending
  | .running => .other "running"
  | .other s => .other s

/-- The row of an invocation that has not been dispatched. -/
def pendingRow [UUIDPackage] (status : InvocationStatus) (inv : BlockInvocation) :
    InvocationRecord :=
  { id := inv.invocationID, pipelineID := inv.pipelineId, blockID := inv.id,
    blockName := inv.blockId, mapIndex := inv.mapIndex, status := status }

section
variable [UUIDPackage]

def collectPendingRowsLocked (σ : MapOrder) (sched : MultiTenantScheduler) (pid : UUID)
    (status : ExecutionStatus) (exp : Option ExpansionManifest) : List InvocationRecord :=
  if status ≠ .map ∨ exp = none then []
  else match sched.schedulers.lookup pid with
    | none => []
    | some ps =>
      (ps.executableBlocks.filter fun inv => inv.mapIndex.isSome).map (pendingRow .ready) ++
      (((σ.range ps.pendingBlocks).map Prod.snd).filter fun inv => inv.mapIndex.isSome).map
        (pendingRow .pending)

def pipelineCompleteLocked (sched : MultiTenantScheduler) (pid : UUID) : Bool :=
  match sched.schedulers.lookup pid with
  | none => false
  | some ps =>
    !ps.cancelled && ps.pendingBlocks.items.isEmpty && ps.executableBlocks.isEmpty

namespace Engine

def fireCallback (pid : UUID) (status : PipelineStatus) (errMsg : String) (e : Engine) : Engine :=
  { e with callbacks := e.callbacks ++ [(pid, ⟨status, errMsg, e.store.loadInvocations pid⟩)] }

/-- Stamp a terminal status, log it and tell the callback. -/
def finish (env : Env) (pid : UUID) (status : PipelineStatus) (eventType : EventType)
    (errMsg : String) (e : Engine) : Engine :=
  fireCallback pid status errMsg { e with
    store := ((e.store.updatePipelineStatus env.now pid status).getD e.store).appendEvent env.now
      { pipelineID := pid, eventType := eventType } }

/-- The rows written at submission, one per block. -/
def submittedRow (pid : UUID) (pb : PipelineBlock) : InvocationRecord :=
  { id := string pb.id, pipelineID := pid, blockID := pb.id, blockName := pb.name,
    status := .pending }

/-- The part of `SubmitPipeline` after validation. -/
def registerPipeline (env : Env) (p : Pipeline) (yamlBody submitter : String) (e : Engine) :
    Engine × Option EngineError :=
  let row : PipelineRecord :=
    { id := p.id, name := p.name, version := p.version, description := p.description,
      yaml := yamlBody, status := .running, submittedAt := env.now, submitterUserID := submitter }
  match e.store.insertPipeline env.now row with
  | none => (e, some .alreadyExists)
  | some store =>
    let store := store.appendEvent env.now
      { pipelineID := p.id, eventType := .submitted, payloadJSON := yamlBody }
    let store := p.blocks.foldl (fun st pb => st.upsertInvocation (submittedRow p.id pb)) store
    ({ e with
      store := store
      sched := (e.sched.addPipeline p).setManifests p.id env.manifests }, none)

/-- The pipeline as the caller sees it afterwards, with a fresh id if it had none. -/
def submittedPipeline (env : Env) (p : Pipeline) : Option Pipeline :=
  if p.id = UUID.nil then env.newV7.map fun id => { p with id := id } else some p

variable [Encoding]

def submitPipeline (env : Env) (pp : Pipeline) (yamlBody submitter : String) (e : Engine) :
    Engine × Option EngineError :=
  match submittedPipeline env pp with
  | none => (e, some .newV7)
  | some p =>
    let errs := validatePipeline env.order p env.manifests
    if errs ≠ [] then (e, some (.validation errs))
    else
      match if yamlBody = "" then Encoding.yamlMarshal p else some yamlBody with
      | none => (e, some .marshal)
      | some body => registerPipeline env p body submitter e

omit [Encoding] in
/-- A pipeline the scheduler does not know is still updated in the store. -/
def cancelPipeline (env : Env) (id : UUID) (e : Engine) : Engine × Option EngineError :=
  let sched := (e.sched.cancelPipeline id).getD e.sched
  match e.store.updatePipelineStatus env.now id .cancelled with
  | none => ({ e with sched := sched }, some .notFound)
  | some store => (fireCallback id .cancelled "" { e with
      sched := sched
      store := store.appendEvent env.now { pipelineID := id, eventType := .pipelineCancelled } },
    none)

/-- The row of a reported result; the block name is taken over from the stored row. -/
def resultRow (env : Env) (wr : WorkerResult) (store : MemStore) : InvocationRecord where
  id := wr.invocationID
  pipelineID := wr.pipelineID
  blockID := (workerResultToInvocationResult wr).id
  blockName := ((store.loadInvocation wr.invocationID).map InvocationRecord.blockName).getD ""
  mapIndex := (parseInvocationID wr.invocationID).2.1
  status := statusFromWorker wr.status
  completedAt := some env.now
  exitCode := wr.exitCode
  logsPath := wr.logsPath
  errorMessage := wr.error
  outputHashesJSON := if wr.outputHashes.items.isEmpty then "" else Encoding.jsonHashes wr.outputHashes
  expansionJSON := (wr.expansion.map Encoding.jsonExpansion).getD ""

/-- The store writes of `applyResult` up to the event of the block. -/
def persistResult (env : Env) (wr : WorkerResult) (pendingRows : List InvocationRecord)
    (store : MemStore) : MemStore :=
  let store := store.upsertInvocation (resultRow env wr store)
  let store := pendingRows.foldl (fun st row => st.upsertInvocation row) store
  store.appendEvent env.now
    { pipelineID := wr.pipelineID, invocationID := wr.invocationID,
      eventType := if wr.status = .error then .blockFailed else .blockCompleted }

def applyResult (env : Env) (wr : WorkerResult) (e : Engine) : Engine × Option EngineError :=
  if e.sched.isAlreadyProcessed wr.invocationID then (e, none)
  else
    match e.sched.update env.order (parseInvocationID wr.invocationID).1
        (workerResultToInvocationResult wr) with
    | none => (e, some .unknownPipeline)
    | some sched =>
      let pendingRows :=
        collectPendingRowsLocked env.order sched wr.pipelineID wr.status wr.expansion
      let e' : Engine := { e with
        sched := sched
        store := persistResult env wr pendingRows e.store }
      if wr.status = .error then
        (finish env wr.pipelineID .failed .pipelineFailed wr.error e', none)
      else if pipelineCompleteLocked sched wr.pipelineID then
        (finish env wr.pipelineID .complete .pipelineCompleted "" e', none)
      else (e', none)

/-! Dispatch: `Drain` first, then one publish after the other. -/

inductive Dispatch where
  | skipped
  | published (job : Job)
  | failed

omit [Encoding] in
/-- Put an invocation back at the head of its scheduler's queue. -/
def requeue (inv : BlockInvocation) (sched : MultiTenantScheduler) : MultiTenantScheduler :=
  match sched.schedulers.lookup inv.pipelineId with
  | none => sched
  | some ps => { sched with
      schedulers := sched.schedulers.insert inv.pipelineId
        { ps with executableBlocks := inv :: ps.executableBlocks } }

omit [Encoding] in
def dispatchedRow (env : Env) (inv : BlockInvocation) : InvocationRecord :=
  { pendingRow .dispatched inv with dispatchedAt := some env.now }

omit [Encoding] in
/-- The loop body of `dispatchSweep`; `ok` is the outcome of `Publish`. -/
def dispatchOne (env : Env) (ok : Bool) (inv : BlockInvocation) (e : Engine) : Engine × Dispatch :=
  match e.sched.schedulers.lookup inv.pipelineId with
  | none => (e, .skipped)
  | some ps =>
    if ok then
      let job := buildJobForInvocation inv ps.pipeline
        (dispatchManifests env.manifests ps.pipeline inv) ""
      let store := (e.store.upsertInvocation (dispatchedRow env inv)).appendEvent env.now
        { pipelineID := inv.pipelineId, invocationID := inv.invocationID,
          eventType := .blockDispatched }
      ({ e with store := store }, .published job)
    else ({ e with sched := requeue inv e.sched }, .failed)

/-- What a sweep leaves: the engine, the invocations published with their jobs, and
the invocation whose publish failed. -/
structure Sweep where
  engine : Engine
  published : List (BlockInvocation × Job) := []
  failed : Option BlockInvocation := none

omit [Encoding] in
/-- `outcome n` is the outcome of the n-th call of `Publish` from here. -/
def dispatchAll (env : Env) : (ℕ → Bool) → List BlockInvocation → Engine → Sweep
  | _, [], e => { engine := e }
  | outcome, inv :: rest, e =>
    match dispatchOne env (outcome 0) inv e with
    | (e', .skipped) => dispatchAll env outcome rest e'
    | (e', .published job) =>
      let sweep := dispatchAll env (fun n => outcome (n + 1)) rest e'
      { sweep with published := (inv, job) :: sweep.published }
    | (e', .failed) => { engine := e', failed := some inv }

omit [Encoding] in
def dispatchSweep (env : Env) (outcome : ℕ → Bool) (e : Engine) : Sweep :=
  dispatchAll env outcome e.sched.drain.2 { e with sched := e.sched.drain.1 }

/-! Recovery of the schedulers from the store. -/

def recordToResult (inv : InvocationRecord) (pid : UUID) (status : ExecutionStatus) :
    BlockInvocationResult where
  id := inv.blockID
  pipelineId := pid
  status := status
  exitCode := inv.exitCode
  logsPath := inv.logsPath
  error := inv.errorMessage
  expansion := if inv.expansionJSON = "" then none else Encoding.jsonReadExpansion inv.expansionJSON

/-- The results replayed for the rows of a pipeline: only rows with a result count. -/
def replayResults (pid : UUID) (rows : List InvocationRecord) : List BlockInvocationResult :=
  rows.filterMap fun inv =>
    match inv.status with
    | .complete => some (recordToResult inv pid .complete)
    | .error => some (recordToResult inv pid .error)
    | .map => some (recordToResult inv pid .map)
    | .reduce => some (recordToResult inv pid .reduce)
    | _ => none

/-- A stored body that does not parse is skipped. -/
def recoverOne (env : Env) (sched : MultiTenantScheduler)
    (ap : PipelineRecord × List InvocationRecord) : MultiTenantScheduler :=
  match Encoding.yamlUnmarshal ap.1.yaml with
  | none => sched
  | some p =>
    let p := if p.id = UUID.nil then { p with id := ap.1.id } else p
    (sched.rehydrate env.order p (replayResults ap.1.id ap.2)).setManifests p.id env.manifests

def recover (env : Env) (e : Engine) : Engine :=
  { e with sched := (e.store.loadActivePipelinesForRestart env.order).foldl (recoverOne env) e.sched }

end Engine
end
end Spade
