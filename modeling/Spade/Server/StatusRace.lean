import Spade.Lib.Runs
import Spade.Server.RunsTable

set_option autoImplicit false

/-!
# The end of a run in the web UI

The row of a run has three writers: `MarkRunning` and `MarkFailed` of the outbox, and the
callback of the scheduler.
-/
namespace Spade.RunsTable

inductive Write where
  | markRunning
  | markFailed (errMsg : String)
  | patch (body : StatusBody)
  deriving DecidableEq

/-- A write for a run, and the time on the clock of the writer. -/
abbrev TimedWrite := Time × String × Write

def write (runs : RunsTable) (a : TimedWrite) : RunsTable :=
  match a.2.2 with
  | .markRunning => (runs.markRunning a.1 a.2.1).1
  | .markFailed errMsg => runs.markFailed a.1 a.2.1 errMsg
  | .patch body => runs.patch a.1 a.2.1 body

def SameEnd (row row' : RunRow) : Prop :=
  row'.status = row.status ∧ row'.error = row.error ∧ row'.finishedAt = row.finishedAt

/-- If the run has ended it ends in the same way later on. -/
def EndStays (id : String) (runs runs' : RunsTable) : Prop :=
  ∀ row, runs.lookup id = some row → row.status.terminal = true →
    ∃ row', runs'.lookup id = some row' ∧ SameEnd row row'

/-- Once the run has ended, at any time of a run of writes, its end does not change again. -/
def EndsOnce (id : String) (runs : RunsTable) (l : List TimedWrite) : Prop :=
  ∀ l₁ l₂ l₃, l = l₁ ++ l₂ ++ l₃ →
    EndStays id (Runs.run write runs l₁) (Runs.run write runs (l₁ ++ l₂))

/-- A write that comes after the end says what the row says, at the time that it has. -/
def Write.Repeats (now : Time) (row : RunRow) : Write → Prop
  | .markRunning => True
  | .markFailed errMsg =>
    row.status = .failed ∧ row.error = some errMsg ∧ row.finishedAt = some now
  | .patch body => ∀ status, body.status = some status → row.status = status ∧
      (body.error = none ∨ row.error = body.error) ∧ row.finishedAt = some now

def NotLate (id : String) (runs : RunsTable) (a : TimedWrite) : Prop :=
  a.2.1 = id → ∀ row, runs.lookup id = some row → row.status.terminal = true →
    a.2.2.Repeats a.1 row

variable {runs : RunsTable} {id : String}

theorem EndStays.refl (runs : RunsTable) : EndStays id runs runs :=
  fun row h _ => ⟨row, h, rfl, rfl, rfl⟩

theorem EndStays.trans {runs' runs'' : RunsTable} (h : EndStays id runs runs')
    (h' : EndStays id runs' runs'') : EndStays id runs runs'' := by
  intro row hrow hterm
  obtain ⟨row', hrow', hs, he, hf⟩ := h row hrow hterm
  obtain ⟨row'', hrow'', hs', he', hf'⟩ := h' row' hrow' (hs ▸ hterm)
  exact ⟨row'', hrow'', hs'.trans hs, he'.trans he, hf'.trans hf⟩

theorem write_other {a : TimedWrite} (h : a.2.1 ≠ id) :
    (write runs a).lookup id = runs.lookup id := by
  obtain ⟨now, id', w⟩ := a
  have hne : id ≠ id' := Ne.symm h
  cases w with
  | markRunning =>
    change (runs.markRunning now id').1.lookup id = _
    rw [markRunning_lookup, if_neg fun h => hne h.1]
  | markFailed errMsg =>
    change (runs.update id' _).lookup id = _
    rw [update_lookup, if_neg hne]
  | patch body =>
    change (runs.patch now id' body).lookup id = _
    unfold patch
    cases body.status with
    | none => rfl
    | some status =>
      dsimp only
      unfold updateStatus
      rw [update_lookup, if_neg hne]

/-- What a write makes of a row that has ended. -/
theorem write_ended {now : Time} {row : RunRow} (hrow : runs.lookup id = some row)
    (hterm : row.status.terminal = true) (w : Write) :
    (∃ row', (write runs (now, id, w)).lookup id = some row' ∧ SameEnd row row') ↔
      w.Repeats now row := by
  cases w with
  | markRunning =>
    have hno : (runs.markRunning now id).2 ≠ true := by
      rw [Ne, markRunning_claims]
      rintro ⟨row', hrow', hq⟩
      rw [hrow] at hrow'
      cases hrow'
      rw [hq] at hterm
      cases hterm
    refine iff_of_true ⟨row, ?_, rfl, rfl, rfl⟩ trivial
    change (runs.markRunning now id).1.lookup id = _
    rw [markRunning_lookup, if_neg fun h => hno h.2, hrow]
  | markFailed errMsg =>
    change (∃ row', (runs.update id _).lookup id = some row' ∧ _) ↔ _
    rw [update_lookup, if_pos rfl, hrow]
    simp only [Option.map_some, Option.some.injEq, exists_eq_left', SameEnd, Write.Repeats]
    exact and_congr eq_comm (and_congr eq_comm eq_comm)
  | patch body =>
    change (∃ row', (runs.patch now id body).lookup id = some row' ∧ _) ↔ _
    unfold patch
    simp only [Write.Repeats]
    cases hs : body.status with
    | none => exact iff_of_true ⟨row, hrow, rfl, rfl, rfl⟩ nofun
    | some status =>
      dsimp only
      unfold updateStatus
      rw [update_lookup, if_pos rfl, hrow]
      simp only [Option.map_some, Option.some.injEq, exists_eq_left', SameEnd, forall_eq']
      constructor
      · rintro ⟨rfl, he, hf⟩
        rw [if_pos hterm] at hf
        refine ⟨rfl, ?_, hf.symm⟩
        cases hb : body.error with
        | none => exact .inl rfl
        | some errMsg =>
          rw [hb] at he
          exact .inr he.symm
      · rintro ⟨rfl, he, hf⟩
        rw [if_pos hterm]
        refine ⟨rfl, ?_, hf.symm⟩
        cases hb : body.error with
        | none => rfl
        | some errMsg =>
          rw [hb] at he
          exact (he.resolve_left nofun).symm

theorem write_ends_iff (a : TimedWrite) :
    EndStays id runs (write runs a) ↔ NotLate id runs a := by
  unfold EndStays NotLate
  by_cases hid : a.2.1 = id
  · obtain ⟨now, id', w⟩ := a
    obtain rfl : id' = id := hid
    simp only [forall_const]
    exact forall₃_congr fun row hrow hterm => write_ended hrow hterm w
  · rw [write_other hid]
    exact iff_of_true (EndStays.refl runs) fun h => absurd h hid

/-- The end of a run is final if and only if no write comes after it but repetitions. -/
theorem ends_once_iff (runs : RunsTable) (id : String) (l : List TimedWrite) :
    EndsOnce id runs l ↔ Runs.Along write (NotLate id) runs l := by
  have hbetween := Runs.along_iff_between write (R := EndStays id) EndStays.refl
    (fun _ _ _ => EndStays.trans) runs l
  unfold EndsOnce
  rw [← hbetween]
  exact ⟨.mono write fun s a => (write_ends_iff a).mp, .mono write fun s a => (write_ends_iff a).mpr⟩

/-- A queued run. -/
def oneRun : RunsTable :=
  (∅ : RunsTable).insert "r" { id := "r", ownerId := "u", yaml := "blocks: []" }

/-- The callback for the end comes before the one for the start. -/
def lateStart : List TimedWrite :=
  [(1, "r", .markRunning), (3, "r", .patch { status := some .failed, error := some "exit 1" }),
    (4, "r", .patch { status := some .running })]

theorem ends_once_fails : ¬EndsOnce "r" oneRun lateStart := by
  intro h
  have hend := h (lateStart.take 2) (lateStart.drop 2) [] rfl
  obtain ⟨row, hrow, hsame⟩ := hend
    { id := "r", ownerId := "u", yaml := "blocks: []", status := .failed, error := some "exit 1"
      startedAt := some 1, finishedAt := some 3, updatedAt := 3 } (by decide) rfl
  have hlast : ((Runs.run write oneRun lateStart).lookup "r").map RunRow.status = some .running := by
    decide
  rw [show (Runs.run write oneRun lateStart).lookup "r" = some row from hrow] at hlast
  exact absurd ((Option.some.inj hlast).symm.trans hsame.1) (by decide)

end Spade.RunsTable
