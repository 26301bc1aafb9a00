import Spade.Core.Replay
import Spade.Server.Faults
import Spade.Server.Recovery

set_option autoImplicit false

/-!
# Crashes between the writes of a result

A restart sees what was written. A running pipeline has something to run afterwards if
no row of it is an error and one of its blocks has no complete row.
-/
namespace Spade
open UUIDPackage

namespace MemStore

/-- A row of the pipeline gives the block this status. -/
def Finishes (m : MemStore) (pid k : UUID) (status : InvocationStatus) : Prop :=
  ∃ e ∈ m.invocations.items, e.2.pipelineID = pid ∧ e.2.blockID = k ∧ e.2.status = status

instance (m : MemStore) (pid k : UUID) (status : InvocationStatus) :
    Decidable (m.Finishes pid k status) :=
  inferInstanceAs (Decidable (∃ e ∈ m.invocations.items, _))

variable {m : MemStore} {pid k : UUID} {status : InvocationStatus}

theorem finishes_iff : m.Finishes pid k status ↔ ∃ key row,
    m.invocations.lookup key = some row ∧ row.pipelineID = pid ∧ row.blockID = k ∧
      row.status = status := by
  unfold Finishes
  simp only [Prod.exists, GoMap.mem_items]

theorem finishes_congr {m' : MemStore} (h : m'.invocations = m.invocations) :
    m'.Finishes pid k status ↔ m.Finishes pid k status := by
  unfold Finishes
  rw [h]

/-- The result of a row comes from the row that is upserted. -/
theorem finishes_upsert (hst : status = .complete ∨ status = .error) {rec : InvocationRecord}
    (h : (m.upsertInvocation rec).Finishes pid k status) : m.Finishes pid k status ∨
      rec.pipelineID = pid ∧ rec.blockID = k ∧ rec.status = status := by
  obtain ⟨key, row, hl, hpid, hk, hs⟩ := finishes_iff.mp h
  rw [upsert_lookup] at hl
  split_ifs at hl with hkey
  · cases hl
    cases he : m.invocations.lookup rec.id with
    | none =>
      rw [he] at hpid hk hs
      exact .inr ⟨hpid, hk, hs⟩
    | some e =>
      rw [he] at hpid hk hs
      unfold upserted at hpid hk hs
      dsimp only at hpid hk hs
      by_cases hterm : e.status = .complete ∨ e.status = .error
      · rw [if_pos hterm] at hpid hk hs
        exact .inl (finishes_iff.mpr ⟨rec.id, e, he, hpid, hk, hs⟩)
      · rw [if_neg hterm] at hpid hk hs
        refine .inr ⟨hpid, hk, ?_⟩
        unfold mergeInvocation at hs
        dsimp only at hs
        split_ifs at hs with hempty
        · rw [hs] at hterm
          exact absurd hst hterm
        · exact hs
  · exact .inl (finishes_iff.mpr ⟨key, row, hl, hpid, hk, hs⟩)

theorem finishes_foldl (hst : status = .complete ∨ status = .error) (now : Time)
    (l : List StoreWrite) (h : (l.foldl (write now) m).Finishes pid k status) :
    m.Finishes pid k status ∨ ∃ rec, .upsert rec ∈ l ∧ rec.pipelineID = pid ∧ rec.blockID = k ∧
      rec.status = status := by
  induction l generalizing m with
  | nil => exact .inl h
  | cons a l ih =>
    rcases ih h with h | ⟨rec, hrec, hfin⟩
    · cases a with
      | upsert rec =>
        rcases finishes_upsert hst h with h | hfin
        · exact .inl h
        · exact .inr ⟨rec, List.mem_cons_self, hfin⟩
      | event evt => exact .inl ((finishes_congr rfl).mp h)
      | status id st =>
        exact .inl ((finishes_congr (updatePipelineStatus_invocations now id st m)).mp h)
    · exact .inr ⟨rec, List.mem_cons_of_mem a hrec, hfin⟩

/-- A record is running after the writes only if no status has been written to it. -/
theorem running_foldl (now : Time) {l : List StoreWrite}
    (hl : ∀ id st, .status id st ∈ l → st ≠ .running) {rec : PipelineRecord}
    (hrec : (l.foldl (write now) m).pipelines.lookup pid = some rec)
    (hrun : rec.status = .running) :
    m.pipelines.lookup pid = some rec ∧ ∀ st, .status pid st ∉ l := by
  induction l generalizing m with
  | nil => exact ⟨hrec, fun _ h => by cases h⟩
  | cons a l ih =>
    obtain ⟨hl', hno⟩ := ih (fun id st h => hl id st (List.mem_cons_of_mem a h)) hrec
    cases a with
    | upsert rec' =>
      change (m.upsertInvocation rec').pipelines.lookup pid = some rec at hl'
      rw [upsertInvocation_pipelines] at hl'
      exact ⟨hl', fun st h => hno st (by simpa using h)⟩
    | event evt => exact ⟨hl', fun st h => hno st (by simpa using h)⟩
    | status id st =>
      change ((m.updatePipelineStatus now id st).getD m).pipelines.lookup pid = some rec at hl'
      rw [updatePipelineStatus_lookup] at hl'
      by_cases hid : pid = id
      · rw [if_pos hid] at hl'
        obtain ⟨old, -, rfl⟩ := Option.map_eq_some_iff.mp hl'
        exact absurd hrun (hl id st List.mem_cons_self)
      · rw [if_neg hid] at hl'
        refine ⟨hl', fun st' h => ?_⟩
        rcases List.mem_cons.mp h with heq | h
        · cases heq
          exact hid rfl
        · exact hno st' h

theorem ids_foldl (now : Time) (l : List StoreWrite)
    (h : ∀ pid rec, m.pipelines.lookup pid = some rec → rec.id = pid) :
    ∀ pid rec, (l.foldl (write now) m).pipelines.lookup pid = some rec → rec.id = pid := by
  induction l generalizing m with
  | nil => exact h
  | cons a l ih =>
    apply ih
    intro pid rec hrec
    cases a with
    | upsert rec' =>
      change (m.upsertInvocation rec').pipelines.lookup pid = some rec at hrec
      rw [upsertInvocation_pipelines] at hrec
      exact h pid rec hrec
    | event evt => exact h pid rec hrec
    | status id st =>
      change ((m.updatePipelineStatus now id st).getD m).pipelines.lookup pid = some rec at hrec
      rw [updatePipelineStatus_lookup] at hrec
      by_cases hid : pid = id
      · rw [if_pos hid] at hrec
        obtain ⟨old, hold, rfl⟩ := Option.map_eq_some_iff.mp hrec
        exact h pid old hold
      · rw [if_neg hid] at hrec
        exact h pid rec hrec

/-- Writes leave the rows under other keys alone. -/
theorem lookup_foldl (now : Time) {l : List StoreWrite} {key : String}
    (hl : ∀ rec, .upsert rec ∈ l → rec.id ≠ key) :
    (l.foldl (write now) m).invocations.lookup key = m.invocations.lookup key := by
  induction l generalizing m with
  | nil => rfl
  | cons a l ih =>
    rw [List.foldl_cons, ih fun rec hrec => hl rec (List.mem_cons_of_mem a hrec)]
    cases a with
    | upsert rec =>
      change (m.upsertInvocation rec).invocations.lookup key = _
      rw [upsert_lookup, if_neg (hl rec List.mem_cons_self).symm]
    | event evt => rfl
    | status id st =>
      change ((m.updatePipelineStatus now id st).getD m).invocations.lookup key = _
      rw [updatePipelineStatus_invocations]

end MemStore

variable [UUIDPackage] [Encoding]

namespace Engine

/-- Every running pipeline has something executable after a restart, or a row that is
dispatched. -/
def NoZombie (env : Env) (m : MemStore) : Prop :=
  ∀ pid rec, m.pipelines.lookup pid = some rec → rec.status = .running →
    (∃ ps, (recover env { store := m }).sched.schedulers.lookup pid = some ps ∧
      ps.executableBlocks ≠ []) ∨
    ∃ key row, m.invocations.lookup key = some row ∧ row.pipelineID = pid ∧
      row.status = .dispatched

/-- The record reads back as a pipeline that has a block to run. -/
structure Resumes (m : MemStore) (rec : PipelineRecord) (p : Pipeline) : Prop where
  read : recoveredPipeline rec = some p
  id : p.id = rec.id
  accepted : ∃ manifests, Accepted p manifests
  ranked : p.Ranked
  clean : ∀ k, ¬m.Finishes rec.id k .error
  unfinished : ∃ b ∈ p.blocks, ¬m.Finishes rec.id b.id .complete

omit [UUIDPackage] in
theorem mem_replayResults {pid : UUID} {rows : List InvocationRecord} {r : BlockInvocationResult}
    (h : r ∈ replayResults pid rows) : ∃ row ∈ rows, row.blockID = r.id ∧
      (row.status = .complete ∧ r.status = .complete ∨ row.status = .error ∧ r.status = .error ∨
        r.status = .map ∨ r.status = .reduce) := by
  obtain ⟨row, hrow, hr⟩ := List.mem_filterMap.mp h
  refine ⟨row, hrow, ?_⟩
  split at hr
  · rename_i hst
    cases hr
    exact ⟨rfl, .inl ⟨hst, rfl⟩⟩
  · rename_i hst
    cases hr
    exact ⟨rfl, .inr (.inl ⟨hst, rfl⟩)⟩
  · cases hr
    exact ⟨rfl, .inr (.inr (.inl rfl))⟩
  · cases hr
    exact ⟨rfl, .inr (.inr (.inr rfl))⟩
  · cases hr

theorem recovered_executable (env : Env) {m : MemStore} {rec : PipelineRecord} {p : Pipeline}
    (h : Resumes m rec p) :
    (recovered env p (replayResults rec.id (m.loadInvocations rec.id))).executableBlocks ≠ [] := by
  obtain ⟨manifests, hacc⟩ := h.accepted
  obtain ⟨b, hb, hopen⟩ := h.unfinished
  have hrows : ∀ row ∈ m.loadInvocations rec.id, m.Finishes rec.id row.blockID row.status := by
    intro row hrow
    obtain ⟨hpid, key, hl⟩ := (MemStore.mem_loadInvocations _ _ _).mp hrow
    exact MemStore.finishes_iff.mpr ⟨key, row, hl, hpid, rfl, rfl⟩
  refine executable_of_replay env.order hacc h.ranked (fun r hr => ?_) hb fun hdone => ?_
  · obtain ⟨row, hrow, -, ⟨-, hs⟩ | ⟨hs, -⟩ | hs⟩ := mem_replayResults hr
    · exact .inl hs
    · exact absurd (hs ▸ hrows row hrow) (h.clean _)
    · exact .inr hs
  · obtain ⟨r, hr, hid⟩ := List.mem_map.mp hdone
    obtain ⟨hr, hcomp⟩ := List.mem_filter.mp hr
    have hcomp : r.status = .complete := by simpa using hcomp
    obtain ⟨row, hrow, hblock, ⟨hs, -⟩ | ⟨-, hs⟩ | hs⟩ := mem_replayResults hr
    · rw [← hid, ← hblock] at hopen
      exact hopen (hs ▸ hrows row hrow)
    · rw [hcomp] at hs
      cases hs
    · rw [hcomp] at hs
      rcases hs with hs | hs <;> cases hs

/-- What a restart finds for each running pipeline. -/
theorem recover_executable (env : Env) {m : MemStore}
    (hids : ∀ pid rec, m.pipelines.lookup pid = some rec → rec.id = pid)
    (hread : ∀ pid rec, m.pipelines.lookup pid = some rec → rec.status = .running →
      ∃ p, recoveredPipeline rec = some p ∧ p.id = rec.id) {pid : UUID} {rec : PipelineRecord}
    {p : Pipeline} (hrec : m.pipelines.lookup pid = some rec) (hrun : rec.status = .running)
    (h : Resumes m rec p) : ∃ ps, (recover env { store := m }).sched.schedulers.lookup pid = some ps ∧
      ps.executableBlocks ≠ [] := by
  have hap : (rec, m.loadInvocations rec.id) ∈ m.loadActivePipelinesForRestart env.order :=
    (mem_loadActive env.order).mpr ⟨⟨pid, hrec⟩, hrun, rfl⟩
  have hfold := foldl_recoverOne env (loadActive_ids env.order hids) (fun ap hap => ?_) {} hap
    h.read
  · rw [← hids pid rec hrec]
    exact ⟨_, hfold, recovered_executable env h⟩
  · obtain ⟨⟨pid', hrec'⟩, hrun', -⟩ := (mem_loadActive env.order).mp hap
    exact hread pid' ap.1 hrec' hrun'

/-! The writes of a result. -/

def appliedWrites (env : Env) (wr : WorkerResult) (e : Engine) : List StoreWrite :=
  if e.sched.isAlreadyProcessed wr.invocationID then []
  else
    match e.sched.update env.order (parseInvocationID wr.invocationID).1
        (workerResultToInvocationResult wr) with
    | none => []
    | some sched => .upsert (resultRow env wr e.store) ::
        resultWrites wr (collectPendingRowsLocked env.order sched wr.pipelineID wr.status wr.expansion)
          (pipelineCompleteLocked sched wr.pipelineID)

/-- What is left of the store when the engine crashes after `k` writes of a result. -/
def crashed (env : Env) (wr : WorkerResult) (k : ℕ) (e : Engine) : MemStore :=
  Writes.brokenOff (MemStore.write env.now) k (appliedWrites env wr e) e.store

variable {env : Env} {wr : WorkerResult} {e : Engine}

theorem applyResult_store (env : Env) (wr : WorkerResult) (e : Engine) :
    (e.applyResult env wr).1.store =
      (appliedWrites env wr e).foldl (MemStore.write env.now) e.store := by
  unfold applyResult appliedWrites
  by_cases hp : e.sched.isAlreadyProcessed wr.invocationID = true
  · rw [if_pos hp, if_pos hp]
    rfl
  · rw [if_neg hp, if_neg hp]
    cases e.sched.update env.order (parseInvocationID wr.invocationID).1
        (workerResultToInvocationResult wr) with
    | none => rfl
    | some sched =>
      dsimp only
      have hwrites := foldl_resultWrites env wr
        (collectPendingRowsLocked env.order sched wr.pipelineID wr.status wr.expansion)
        (pipelineCompleteLocked sched wr.pipelineID) e.store
      rw [List.foldl_cons]
      change _ = (resultWrites wr _ _).foldl (MemStore.write env.now)
        (e.store.upsertInvocation (resultRow env wr e.store))
      rw [hwrites]
      unfold ending
      by_cases herr : wr.status = .error
      · simp only [if_pos herr]
        rfl
      · simp only [if_neg herr]
        cases pipelineCompleteLocked sched wr.pipelineID <;> rfl

/-- After the last write the crash comes too late. -/
theorem crashed_all {k : ℕ} (h : (appliedWrites env wr e).length ≤ k) :
    crashed env wr k e = (e.applyResult env wr).1.store := by
  rw [applyResult_store]
  exact Writes.brokenOff_all _ h

theorem appliedWrites_dropped (h : e.takes wr = false) : appliedWrites env wr e = [] := by
  unfold appliedWrites
  by_cases hp : e.sched.isAlreadyProcessed wr.invocationID = true
  · rw [if_pos hp]
  · have hnone : e.sched.schedulers.lookup wr.pipelineID = none := by
      simpa [takes, hp] using h
    rw [if_neg hp]
    unfold MultiTenantScheduler.update workerResultToInvocationResult
    dsimp only
    rw [hnone]

theorem appliedWrites_taken (env : Env) (h : e.takes wr = true) :
    ∃ ps sched, e.sched.schedulers.lookup wr.pipelineID = some ps ∧
      sched.schedulers.lookup wr.pipelineID =
        some (ps.update env.order (workerResultToInvocationResult wr)) ∧
      appliedWrites env wr e = .upsert (resultRow env wr e.store) ::
        resultWrites wr (collectPendingRowsLocked env.order sched wr.pipelineID wr.status wr.expansion)
          (pipelineCompleteLocked sched wr.pipelineID) := by
  obtain ⟨hproc, ps, sched, hps, hs, hl⟩ := World.update_of_takes h env.order
  refine ⟨ps, sched, hps, hl, ?_⟩
  unfold appliedWrites
  rw [hproc, if_neg Bool.false_ne_true, hs]

omit [Encoding] in
theorem mem_pendingRows {σ : MapOrder} {sched : MultiTenantScheduler} {pid : UUID}
    {status : ExecutionStatus} {exp : Option ExpansionManifest} {rec : InvocationRecord}
    (h : rec ∈ collectPendingRowsLocked σ sched pid status exp) :
    rec.status = .ready ∨ rec.status = .pending := by
  unfold collectPendingRowsLocked at h
  split_ifs at h
  · cases h
  · split at h
    · cases h
    · rcases List.mem_append.mp h with h | h
      · obtain ⟨inv, -, rfl⟩ := List.mem_map.mp h
        exact .inl rfl
      · obtain ⟨inv, -, rfl⟩ := List.mem_map.mp h
        exact .inr rfl

/-- The rows of a result are that of the result itself and rows that nobody has run. -/
theorem mem_upsert_applied {rec : InvocationRecord} (h : .upsert rec ∈ appliedWrites env wr e) :
    e.takes wr = true ∧ (rec = resultRow env wr e.store ∨ rec.status = .ready ∨ rec.status = .pending) := by
  cases ht : e.takes wr with
  | false =>
    rw [appliedWrites_dropped ht] at h
    cases h
  | true =>
    obtain ⟨ps, sched, -, -, hwrites⟩ := appliedWrites_taken env ht
    rw [hwrites] at h
    refine ⟨rfl, ?_⟩
    rcases List.mem_cons.mp h with heq | h
    · cases heq
      exact .inl rfl
    · unfold resultWrites at h
      rcases List.mem_append.mp h with h | h
      · obtain ⟨row, hrow, heq⟩ := List.mem_map.mp h
        cases heq
        exact .inr (mem_pendingRows hrow)
      · rcases List.mem_cons.mp h with heq | h
        · cases heq
        · cases hend : ending wr (pipelineCompleteLocked sched wr.pipelineID) with
          | none =>
            rw [hend] at h
            cases h
          | some x =>
            rw [hend] at h
            simp at h

theorem mem_status_applied {id : UUID} {st : PipelineStatus}
    (h : .status id st ∈ appliedWrites env wr e) : id = wr.pipelineID ∧ st ≠ .running := by
  cases ht : e.takes wr with
  | false =>
    rw [appliedWrites_dropped ht] at h
    cases h
  | true =>
    obtain ⟨ps, sched, -, -, hwrites⟩ := appliedWrites_taken env ht
    rw [hwrites] at h
    rcases List.mem_cons.mp h with heq | h
    · cases heq
    · unfold resultWrites at h
      rcases List.mem_append.mp h with h | h
      · obtain ⟨row, -, heq⟩ := List.mem_map.mp h
        cases heq
      · rcases List.mem_cons.mp h with heq | h
        · cases heq
        · unfold ending at h
          split at h
          · cases h
          · rename_i status eventType msg hend
            simp only [List.mem_cons, StoreWrite.status.injEq, reduceCtorEq, List.not_mem_nil,
              or_false] at h
            obtain ⟨rfl, rfl⟩ := h
            refine ⟨rfl, ?_⟩
            split_ifs at hend <;> cases hend <;> simp

end Engine
end Spade
