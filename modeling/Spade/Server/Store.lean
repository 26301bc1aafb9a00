import Mathlib.Data.List.Sort
import Mathlib.Data.String.Basic
import Spade.Core.Types

set_option autoImplicit false

/-! # The store: records and `MemStore` -/
namespace Spade

/-- Nanoseconds; zero is the zero `time.Time`. -/
abbrev Time := ℕ

inductive PipelineStatus where
  | running | complete | failed | cancelled
  | other (s : String)
  deriving DecidableEq

def PipelineStatus.terminal (s : PipelineStatus) : Bool :=
  s = .complete ∨ s = .failed ∨ s = .cancelled

inductive InvocationStatus where
  | pending | ready | dispatched | complete | error | map | reduce
  | other (s : String)
  deriving DecidableEq

structure PipelineRecord where
  id : UUID
  name : String
  version : String
  description : String
  yaml : String
  status : PipelineStatus
  submittedAt : Time
  completedAt : Option Time := none
  submitterUserID : String
  deriving DecidableEq

structure InvocationRecord where
  id : String
  pipelineID : UUID
  blockID : UUID
  blockName : String
  mapIndex : Option Int := none
  status : InvocationStatus
  dispatchedAt : Option Time := none
  completedAt : Option Time := none
  exitCode : Int := 0
  logsPath : String := ""
  errorMessage : String := ""
  outputHashesJSON : String := ""
  expansionJSON : String := ""
  deriving DecidableEq

inductive EventType where
  | submitted | blockDispatched | blockCompleted | blockFailed
  | pipelineCompleted | pipelineCancelled | pipelineFailed
  deriving DecidableEq

structure PipelineEvent where
  id : ℕ := 0
  pipelineID : UUID
  invocationID : String := ""
  eventType : EventType
  payloadJSON : String := ""
  createdAt : Time := 0
  deriving DecidableEq

structure MemStore where
  pipelines : GoMap UUID PipelineRecord := ∅
  invocations : GoMap String InvocationRecord := ∅
  events : List PipelineEvent := []

namespace MemStore

/-- `none` is `ErrAlreadyExists`. -/
def insertPipeline (now : Time) (p : PipelineRecord) (m : MemStore) : Option MemStore :=
  if p.id ∈ m.pipelines then none
  else
    let p := if p.submittedAt = 0 then { p with submittedAt := now } else p
    let p := if p.status = .other "" then { p with status := .running } else p
    some { m with pipelines := m.pipelines.insert p.id p }

def loadPipeline (id : UUID) (m : MemStore) : Option PipelineRecord := m.pipelines.lookup id

/-- `none` is `ErrNotFound`. -/
def updatePipelineStatus (now : Time) (id : UUID) (status : PipelineStatus) (m : MemStore) :
    Option MemStore :=
  match m.pipelines.lookup id with
  | none => none
  | some rec =>
    let rec' := { rec with
      status := status
      completedAt := if status.terminal then some now else rec.completedAt }
    some { m with pipelines := m.pipelines.insert id rec' }

/-- Fields the caller left zero are taken over from the row. -/
def mergeInvocation (existing rec : InvocationRecord) : InvocationRecord := { rec with
  status := if rec.status = .other "" then existing.status else rec.status
  dispatchedAt := rec.dispatchedAt.or existing.dispatchedAt
  completedAt := rec.completedAt.or existing.completedAt
  logsPath := if rec.logsPath = "" then existing.logsPath else rec.logsPath
  errorMessage := if rec.errorMessage = "" then existing.errorMessage else rec.errorMessage
  outputHashesJSON :=
    if rec.outputHashesJSON = "" then existing.outputHashesJSON else rec.outputHashesJSON
  expansionJSON := if rec.expansionJSON = "" then existing.expansionJSON else rec.expansionJSON }

def upsertInvocation (rec : InvocationRecord) (m : MemStore) : MemStore :=
  match m.invocations.lookup rec.id with
  | none => { m with invocations := m.invocations.insert rec.id rec }
  | some existing =>
    if existing.status = .complete ∨ existing.status = .error then m
    else { m with invocations := m.invocations.insert rec.id (mergeInvocation existing rec) }

def loadInvocation (invocationID : String) (m : MemStore) : Option InvocationRecord :=
  m.invocations.lookup invocationID

def loadInvocations (pipelineID : UUID) (m : MemStore) : List InvocationRecord :=
  ((m.invocations.items.map Prod.snd).filter fun rec => rec.pipelineID = pipelineID).insertionSort
    fun a b => a.id ≤ b.id

/-- The running pipelines, each with its rows by id, in the order of submission. -/
def loadActivePipelinesForRestart (σ : MapOrder) (m : MemStore) :
    List (PipelineRecord × List InvocationRecord) :=
  let running := ((σ.range m.pipelines).map Prod.snd).filter fun rec => rec.status = .running
  (running.map fun rec => (rec, m.loadInvocations rec.id)).insertionSort
    fun a b => a.1.submittedAt ≤ b.1.submittedAt

def appendEvent (now : Time) (evt : PipelineEvent) (m : MemStore) : MemStore :=
  { m with events := m.events ++ [{ evt with
      id := m.events.length + 1
      createdAt := if evt.createdAt = 0 then now else evt.createdAt }] }

end MemStore
end Spade
