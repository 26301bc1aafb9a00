import Spade.Server.Identity

set_option autoImplicit false

/-!
# The runs table

The web UI and the scheduler share it: runs are queued and updated by the one (`runs.ts`),
claimed and marked as failed by the other (`outbox.go`).
-/
namespace Spade

inductive RunStatus where
  | queued | running | succeeded | failed | canceled
  deriving DecidableEq

def RunStatus.terminal (s : RunStatus) : Bool := s = .succeeded ∨ s = .failed ∨ s = .canceled

structure RunRow where
  id : String
  pipelineId : Option String := none
  ownerId : String
  name : Option String := none
  yaml : String
  status : RunStatus := .queued
  error : Option String := none
  startedAt : Option Time := none
  finishedAt : Option Time := none
  createdAt : Time := 0
  updatedAt : Time := 0
  deriving DecidableEq

abbrev RunsTable := GoMap String RunRow

namespace RunsTable

/-- `repo.create`; the id is the primary key. -/
def create (input : RunRow) (runs : RunsTable) : Option RunsTable :=
  if input.id ∈ runs then none else some (runs.insert input.id input)

/-- An update of the rows with an id. -/
def update (id : String) (f : RunRow → RunRow) (runs : RunsTable) : RunsTable :=
  match runs.lookup id with
  | none => runs
  | some row => runs.insert id (f row)

/-! The outbox. -/

/-- The oldest queued runs; `σ` stands for the order of rows that are of one age. -/
def fetchQueued (σ : MapOrder) (limit : ℕ) (runs : RunsTable) : List QueuedRun :=
  let rows := ((σ.range runs).map Prod.snd).filter fun row => row.status = .queued
  let sorted := rows.insertionSort fun a b => a.createdAt ≤ b.createdAt
  (sorted.take limit).map fun row => ⟨row.id, row.yaml, row.ownerId⟩

def RunRow.markRunning (now : Time) (row : RunRow) : RunRow :=
  { row with status := .running, startedAt := some now, updatedAt := now }

/-- The flag tells whether a row was affected; if none was, the caller gets
`ErrAlreadyClaimed`. -/
def markRunning (now : Time) (id : String) (runs : RunsTable) : RunsTable × Bool :=
  match runs.lookup id with
  | none => (runs, false)
  | some row =>
    if row.status = .queued then (runs.insert id (RunRow.markRunning now row), true)
    else (runs, false)

def markFailed (now : Time) (id errMsg : String) (runs : RunsTable) : RunsTable :=
  runs.update id fun row =>
    { row with status := .failed, error := some errMsg, finishedAt := some now, updatedAt := now }

/-! The callback. -/

/-- `error` is `undefined`, `null` or a text. -/
def updateStatus (now : Time) (id : String) (status : RunStatus) (error : Option (Option String))
    (runs : RunsTable) : RunsTable :=
  runs.update id fun row => { row with
    status := status
    updatedAt := now
    error := error.getD row.error
    startedAt := if status = .running then some now else row.startedAt
    finishedAt := if status.terminal then some now else row.finishedAt }

/-- What a `PATCH` of a run carries for its row. -/
structure StatusBody where
  status : Option RunStatus := none
  error : Option String := none
  deriving DecidableEq

/-- A body without a status leaves the row, and one without an error its error. -/
def patch (now : Time) (id : String) (body : StatusBody) (runs : RunsTable) : RunsTable :=
  match body.status with
  | none => runs
  | some status => runs.updateStatus now id status (body.error.map some)

/-! What each of them does to a row. -/

variable {runs : RunsTable} {id id' : String} {now : Time}

theorem update_lookup (f : RunRow → RunRow) : (runs.update id f).lookup id' =
    if id' = id then (runs.lookup id).map f else runs.lookup id' := by
  unfold update
  cases h : runs.lookup id with
  | none =>
    split_ifs with hid
    · rw [hid, h]
      rfl
    · rfl
  | some row =>
    rw [GoMap.lookup_insert_if]
    rfl

theorem mem_update (f : RunRow → RunRow) : id' ∈ runs.update id f ↔ id' ∈ runs := by
  rw [GoMap.mem_iff_lookup, GoMap.mem_iff_lookup, update_lookup]
  split_ifs with hid
  · subst hid
    cases runs.lookup id' <;> simp
  · rfl

theorem create_eq_some {input : RunRow} {runs' : RunsTable} :
    runs.create input = some runs' ↔ input.id ∉ runs ∧ runs' = runs.insert input.id input := by
  unfold create
  split_ifs with h
  · simp [h]
  · simp [h, eq_comm]

theorem markRunning_lookup : (runs.markRunning now id).1.lookup id' =
    if id' = id ∧ (runs.markRunning now id).2 = true
    then (runs.lookup id).map (RunRow.markRunning now) else runs.lookup id' := by
  unfold markRunning
  cases h : runs.lookup id with
  | none => simp
  | some row =>
    dsimp only
    split_ifs with hq hid hid
    · rw [GoMap.lookup_insert_if, if_pos hid.1]
      rfl
    · rw [GoMap.lookup_insert_if, if_neg fun h => hid ⟨h, rfl⟩]
    · cases hid.2
    · rfl

theorem markRunning_claims : (runs.markRunning now id).2 = true ↔
    ∃ row, runs.lookup id = some row ∧ row.status = .queued := by
  unfold markRunning
  cases runs.lookup id with
  | none => simp
  | some row =>
    dsimp only
    split_ifs with hq <;> simp [hq]

/-- Only runs that are queued are fetched. -/
theorem mem_fetchQueued {σ : MapOrder} {limit : ℕ} {run : QueuedRun}
    (h : run ∈ runs.fetchQueued σ limit) : ∃ id row, runs.lookup id = some row ∧
      row.status = .queued ∧ run = ⟨row.id, row.yaml, row.ownerId⟩ := by
  obtain ⟨row, hrow, rfl⟩ := List.mem_map.mp h
  have hmem := (List.perm_insertionSort _ _).mem_iff.mp (List.mem_of_mem_take hrow)
  obtain ⟨hmem, hq⟩ := List.mem_filter.mp hmem
  obtain ⟨e, he, rfl⟩ := List.mem_map.mp hmem
  exact ⟨e.1, e.2, (σ.mem_range _ _ _).mp he, of_decide_eq_true hq, rfl⟩

end RunsTable
end Spade
