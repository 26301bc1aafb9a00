import Spade.Server.Faults
import Spade.Server.FirstResult

set_option autoImplicit false

/-!
# Results that cannot be stored

The scheduler takes a result before its row is written. When the write fails, the
scheduler has moved on, a second delivery is taken for a duplicate, and there is none,
since the message is discarded.
-/
namespace Spade
open UUIDPackage

/-- What a delivery comes to. -/
inductive Settlement where
  | accepted | requeued | discarded
  deriving DecidableEq

/-- `Nack` of a delivery. -/
def nack (requeue : Bool) : Settlement := if requeue then .requeued else .discarded

/-- The queue once the delivery of its first message is settled. -/
def Settlement.queue (wr : WorkerResult) (rest : List WorkerResult) : Settlement → List WorkerResult
  | .requeued => wr :: rest
  | .accepted | .discarded => rest

variable [UUIDPackage] [Encoding]

namespace Engine
variable (env : Env) (fails : ℕ → Bool) (wr : WorkerResult) (e : Engine)

/-- The body of `resultLoop` for one delivery. -/
def resultTurn : Engine × Settlement :=
  if wr.invocationID = "" then (e, nack false)
  else
    match applyFaulty env fails wr e with
    | (e', some _) => (e', nack false)
    | (e', none) => (e', .accepted)

/-- A result that meets this error leaves the scheduler alone, has its whole effect when it is
applied again, and is still on the queue. -/
def Retriable (err : CallError) : Prop :=
  (applyFaulty env fails wr e).2 = some err →
    (applyFaulty env fails wr e).1.sched = e.sched ∧
    (∀ env' fails', applyFaulty env' fails' wr (applyFaulty env fails wr e).1 =
      applyFaulty env' fails' wr e) ∧
    ∀ rest, wr ∈ (resultTurn env fails wr e).2.queue wr rest

/-- The row of the result can be written, if the scheduler takes the result at all. -/
def Storable : Prop := e.takes wr = true → fails 1 = false

/-- The result is a duplicate, or its pipeline is known. -/
def Expected : Prop :=
  e.sched.isAlreadyProcessed wr.invocationID = true ∨ wr.pipelineID ∈ e.sched.schedulers

variable {env fails wr e}

theorem applyFaulty_duplicate (h : e.sched.isAlreadyProcessed wr.invocationID = true) :
    applyFaulty env fails wr e = (e, none) := by
  unfold applyFaulty
  rw [if_pos h]

omit [Encoding] in
theorem update_isSome (env : Env) (h : wr.pipelineID ∈ e.sched.schedulers) :
    ∃ sched, e.sched.update env.order (parseInvocationID wr.invocationID).1
      (workerResultToInvocationResult wr) = some sched := by
  obtain ⟨ps, hps⟩ := GoMap.lookup_of_mem h
  unfold MultiTenantScheduler.update workerResultToInvocationResult
  dsimp only
  rw [hps]
  exact ⟨_, rfl⟩

omit [Encoding] in
theorem update_none (h : wr.pipelineID ∉ e.sched.schedulers) :
    e.sched.update env.order (parseInvocationID wr.invocationID).1
      (workerResultToInvocationResult wr) = none := by
  have hnone : e.sched.schedulers.lookup wr.pipelineID = none := AList.lookup_eq_none.mpr h
  unfold MultiTenantScheduler.update workerResultToInvocationResult
  dsimp only
  rw [hnone]

/-- The scheduler moves on whether or not the row can be written, and that is the only
failure that is an error. -/
theorem applyFaulty_taken (hp : e.sched.isAlreadyProcessed wr.invocationID = false)
    {sched : MultiTenantScheduler} (hs : e.sched.update env.order
      (parseInvocationID wr.invocationID).1 (workerResultToInvocationResult wr) = some sched) :
    (applyFaulty env fails wr e).1.sched = sched ∧
      (applyFaulty env fails wr e).2 = if fails 1 then some .store else none := by
  unfold applyFaulty
  rw [hp, if_neg Bool.false_ne_true, hs]
  dsimp only
  cases hf : fails 1 with
  | true =>
    rw [if_pos rfl]
    simp
  | false =>
    rw [if_neg Bool.false_ne_true, if_neg Bool.false_ne_true]
    cases ending wr (pipelineCompleteLocked sched wr.pipelineID) with
    | none => exact ⟨rfl, rfl⟩
    | some x =>
      obtain ⟨status, eventType, errMsg⟩ := x
      unfold announce
      split_ifs <;> exact ⟨rfl, rfl⟩

theorem applyFaulty_unknown (hp : e.sched.isAlreadyProcessed wr.invocationID = false)
    (hk : wr.pipelineID ∉ e.sched.schedulers) :
    applyFaulty env fails wr e = (e, some (.engine .unknownPipeline)) := by
  unfold applyFaulty
  rw [hp, if_neg Bool.false_ne_true, update_none hk]

/-- The three ways that a result can go. -/
theorem applyFaulty_error (env : Env) (fails : ℕ → Bool) (wr : WorkerResult) (e : Engine) :
    (applyFaulty env fails wr e).2 =
      if e.sched.isAlreadyProcessed wr.invocationID = true then none
      else if wr.pipelineID ∉ e.sched.schedulers then some (.engine .unknownPipeline)
      else if fails 1 then some .store else none := by
  cases hp : e.sched.isAlreadyProcessed wr.invocationID with
  | true => rw [applyFaulty_duplicate hp, if_pos rfl]
  | false =>
    rw [if_neg Bool.false_ne_true]
    by_cases hk : wr.pipelineID ∈ e.sched.schedulers
    · obtain ⟨sched, hs⟩ := update_isSome env hk
      rw [if_neg (not_not.mpr hk), (applyFaulty_taken hp hs).2]
    · rw [if_pos hk, applyFaulty_unknown hp hk]

theorem applyFaulty_store_iff :
    (applyFaulty env fails wr e).2 = some .store ↔ ¬Storable fails wr e := by
  unfold Storable takes
  rw [applyFaulty_error]
  simp only [← AList.lookup_isSome]
  cases e.sched.isAlreadyProcessed wr.invocationID <;>
    cases (e.sched.schedulers.lookup wr.pipelineID).isSome <;> cases fails 1 <;> simp

theorem applyFaulty_none_iff :
    (applyFaulty env fails wr e).2 = none ↔ Storable fails wr e ∧ Expected wr e := by
  unfold Storable Expected takes
  rw [applyFaulty_error]
  simp only [← AList.lookup_isSome]
  cases e.sched.isAlreadyProcessed wr.invocationID <;>
    cases (e.sched.schedulers.lookup wr.pipelineID).isSome <;> cases fails 1 <;> simp

theorem applyFaulty_sched (ht : e.takes wr = true) :
    (applyFaulty env fails wr e).1.sched = (e.applyResult env wr).1.sched := by
  obtain ⟨hp, hl⟩ : e.sched.isAlreadyProcessed wr.invocationID = false ∧
      (e.sched.schedulers.lookup wr.pipelineID).isSome = true := by simpa [takes] using ht
  obtain ⟨sched, hs⟩ := update_isSome env (AList.lookup_isSome.mp hl)
  have hhealthy : (applyFaulty env (fun _ => false) wr e).1.sched = sched :=
    (applyFaulty_taken hp hs).1
  rw [applyFaulty_healthy fun _ => rfl] at hhealthy
  rw [(applyFaulty_taken hp hs).1, hhealthy]

/-- A second delivery of a result that is recorded is taken for a duplicate. -/
theorem retry_dropped (ht : e.takes wr = true)
    (hok : (parseInvocationIDForScheduler wr.invocationID).2.2 = true)
    (hw : ({ engine := e } : World).FirstWins wr) (env' : Env) (fails' : ℕ → Bool) :
    applyFaulty env' fails' wr (applyFaulty env fails wr e).1 =
      ((applyFaulty env fails wr e).1, none) := by
  apply applyFaulty_duplicate
  rw [applyFaulty_sched ht]
  exact (World.processed_after (w := { engine := e }) env ht hok).mpr hw

/-- Every delivery that meets an error is lost. -/
theorem resultTurn_discards {err : CallError} (h : (applyFaulty env fails wr e).2 = some err) :
    (resultTurn env fails wr e).2 = .discarded := by
  unfold resultTurn
  split_ifs
  · rfl
  · generalize applyFaulty env fails wr e = r at h
    obtain ⟨e', err'⟩ := r
    cases h
    rfl

theorem retriable_iff (err : CallError) :
    Retriable env fails wr e err ↔ (applyFaulty env fails wr e).2 ≠ some err := by
  unfold Retriable
  constructor
  · intro h herr
    have hin := (h herr).2.2 []
    rw [resultTurn_discards herr] at hin
    cases hin
  · exact fun hne herr => absurd herr hne

/-- A result can be retried after an error only if there is none: none of the store, or
none at all. -/
theorem retriable (env : Env) (fails : ℕ → Bool) (wr : WorkerResult) (e : Engine) :
    (Retriable env fails wr e .store ↔ Storable fails wr e) ∧
      ((∀ err, Retriable env fails wr e err) ↔ Storable fails wr e ∧ Expected wr e) := by
  simp only [retriable_iff]
  constructor
  · rw [ne_eq, applyFaulty_store_iff, not_not]
  · rw [← applyFaulty_none_iff, Option.eq_none_iff_forall_ne_some]

end Engine
end Spade

namespace Spade.Engine
open Samples Uuid

/-- The first block of the chain is complete, and its row cannot be written. -/
theorem retriable_fails : ¬∀ (ops : List (Env × Op)), Runs.Along World.step World.Admits {} ops →
    ∀ env fails wr, Retriable env fails wr (World.run {} ops).engine .store := by
  intro h
  have hrun := h (submit chain :: sweepOne) (by decide) env (fun n => n = 1)
    (result chain (string (blockID 1)) .complete)
  rw [(retriable _ _ _ _).1] at hrun
  revert hrun
  unfold Storable
  decide

end Spade.Engine
