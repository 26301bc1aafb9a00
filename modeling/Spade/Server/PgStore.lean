import Spade.Lib.Runs
import Spade.Lib.Table
import Spade.Server.Store

set_option autoImplicit false

/-!
# `PgStore`, and the operations of a `Store`

The tables of `PgStore` are keyed by their primary keys. A query without `ORDER BY`
lists the rows in an order of the database's own; texts are ordered by code points.
-/
namespace Spade

/-- `sequence` is the last value of the sequence behind the ids of the events. -/
structure PgStore where
  pipelines : GoMap UUID PipelineRecord := ∅
  invocations : GoMap String InvocationRecord := ∅
  events : GoMap ℕ PipelineEvent := ∅
  sequence : ℕ := 0

/-- The rows that neither store overwrites. -/
def InvocationRecord.terminal (rec : InvocationRecord) : Bool :=
  rec.status = .complete ∨ rec.status = .error

namespace PgStore

/-- `none` is `ErrAlreadyExists`. -/
def insertPipeline (now : Time) (p : PipelineRecord) (s : PgStore) : Option PgStore :=
  let p := if p.submittedAt = 0 then { p with submittedAt := now } else p
  let p := if p.status = .other "" then { p with status := .running } else p
  if p.id ∈ s.pipelines then none
  else some { s with pipelines := s.pipelines.insert p.id p }

def loadPipeline (id : UUID) (s : PgStore) : Option PipelineRecord := s.pipelines.lookup id

/-- The columns that `Updates` assigns. -/
def updates (now : Time) (status : PipelineStatus) (rec : PipelineRecord) : PipelineRecord :=
  if status = .complete ∨ status = .failed ∨ status = .cancelled then
    { rec with status := status, completedAt := some now }
  else { rec with status := status }

/-- `none` is `ErrNotFound`. -/
def updatePipelineStatus (now : Time) (id : UUID) (status : PipelineStatus) (s : PgStore) :
    Option PgStore :=
  match s.pipelines.lookup id with
  | none => none
  | some rec => some { s with pipelines := s.pipelines.insert id (updates now status rec) }

/-- `DO UPDATE SET` of the listed columns. -/
def assignColumns (existing excluded : InvocationRecord) : InvocationRecord := { existing with
  pipelineID := excluded.pipelineID
  blockID := excluded.blockID
  blockName := excluded.blockName
  mapIndex := excluded.mapIndex
  status := excluded.status
  dispatchedAt := excluded.dispatchedAt
  completedAt := excluded.completedAt
  exitCode := excluded.exitCode
  logsPath := excluded.logsPath
  errorMessage := excluded.errorMessage
  outputHashesJSON := excluded.outputHashesJSON
  expansionJSON := excluded.expansionJSON }

def upsertInvocation (rec : InvocationRecord) (s : PgStore) : PgStore := { s with
  invocations := Table.upsert InvocationRecord.terminal assignColumns rec.id rec s.invocations }

def loadInvocation (invocationID : String) (s : PgStore) : Option InvocationRecord :=
  s.invocations.lookup invocationID

def loadInvocations (pipelineID : UUID) (s : PgStore) : List InvocationRecord :=
  ((s.invocations.items.map Prod.snd).filter fun rec => rec.pipelineID = pipelineID).insertionSort
    fun a b => a.id ≤ b.id

def loadActivePipelinesForRestart (rows : MapOrder) (s : PgStore) :
    List (PipelineRecord × List InvocationRecord) :=
  (((rows.range s.pipelines).map Prod.snd).filter fun rec => rec.status = .running).map
    fun rec => (rec, s.loadInvocations rec.id)

/-- The primary key of a new event: its own, or the next value of the sequence. -/
def eventID (evt : PipelineEvent) (s : PgStore) : ℕ :=
  if evt.id = 0 then s.sequence + 1 else evt.id

/-- The flag tells that the row was inserted; a key that is taken is an error. -/
def appendEvent (now : Time) (evt : PipelineEvent) (s : PgStore) : PgStore × Bool :=
  let s' := { s with sequence := if evt.id = 0 then s.sequence + 1 else s.sequence }
  if s.eventID evt ∈ s.events then (s', false)
  else ({ s' with events := s.events.insert (s.eventID evt) { evt with
      id := s.eventID evt
      createdAt := if evt.createdAt = 0 then now else evt.createdAt } }, true)

end PgStore

/-! The operations and their results. -/

inductive StoreOp where
  | insertPipeline (p : PipelineRecord)
  | updatePipelineStatus (id : UUID) (status : PipelineStatus)
  | upsertInvocation (rec : InvocationRecord)
  | appendEvent (evt : PipelineEvent)
  | loadPipeline (id : UUID)
  | loadInvocation (invocationID : String)
  | loadInvocations (pipelineID : UUID)
  | loadActivePipelinesForRestart

inductive Reply where
  | ok | alreadyExists | notFound | failed
  | pipeline (rec : PipelineRecord)
  | invocation (rec : InvocationRecord)
  | invocations (rows : List InvocationRecord)
  | active (pipelines : List (PipelineRecord × List InvocationRecord))
  deriving DecidableEq

/-- `σ` is the order of a loop over a map, or that of the rows of a query. -/
def MemStore.perform (now : Time) (σ : MapOrder) (m : MemStore) : StoreOp → MemStore × Reply
  | .insertPipeline p =>
    match m.insertPipeline now p with
    | none => (m, .alreadyExists)
    | some m' => (m', .ok)
  | .updatePipelineStatus id status =>
    match m.updatePipelineStatus now id status with
    | none => (m, .notFound)
    | some m' => (m', .ok)
  | .upsertInvocation rec => (m.upsertInvocation rec, .ok)
  | .appendEvent evt => (m.appendEvent now evt, .ok)
  | .loadPipeline id =>
    match m.loadPipeline id with
    | none => (m, .notFound)
    | some rec => (m, .pipeline rec)
  | .loadInvocation id =>
    match m.loadInvocation id with
    | none => (m, .notFound)
    | some rec => (m, .invocation rec)
  | .loadInvocations pid => (m, .invocations (m.loadInvocations pid))
  | .loadActivePipelinesForRestart => (m, .active (m.loadActivePipelinesForRestart σ))

def PgStore.perform (now : Time) (σ : MapOrder) (s : PgStore) : StoreOp → PgStore × Reply
  | .insertPipeline p =>
    match s.insertPipeline now p with
    | none => (s, .alreadyExists)
    | some s' => (s', .ok)
  | .updatePipelineStatus id status =>
    match s.updatePipelineStatus now id status with
    | none => (s, .notFound)
    | some s' => (s', .ok)
  | .upsertInvocation rec => (s.upsertInvocation rec, .ok)
  | .appendEvent evt =>
    match s.appendEvent now evt with
    | (s', false) => (s', .failed)
    | (s', true) => (s', .ok)
  | .loadPipeline id =>
    match s.loadPipeline id with
    | none => (s, .notFound)
    | some rec => (s, .pipeline rec)
  | .loadInvocation id =>
    match s.loadInvocation id with
    | none => (s, .notFound)
    | some rec => (s, .invocation rec)
  | .loadInvocations pid => (s, .invocations (s.loadInvocations pid))
  | .loadActivePipelinesForRestart => (s, .active (s.loadActivePipelinesForRestart σ))

/-- `MemStore` writes a row like a table that merges. -/
theorem MemStore.upsertInvocation_eq (rec : InvocationRecord) (m : MemStore) :
    m.upsertInvocation rec = { m with
      invocations := Table.upsert InvocationRecord.terminal mergeInvocation rec.id rec
        m.invocations } := by
  unfold upsertInvocation Table.upsert InvocationRecord.terminal
  cases m.invocations.lookup rec.id with
  | none => rfl
  | some existing =>
    by_cases h : existing.status = .complete ∨ existing.status = .error
    · simp [h]
    · simp [h]

theorem assignColumns_eq {existing rec : InvocationRecord} (h : existing.id = rec.id) :
    PgStore.assignColumns existing rec = rec := by
  unfold PgStore.assignColumns
  rw [h]

end Spade
