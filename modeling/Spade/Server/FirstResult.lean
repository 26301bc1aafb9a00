import Spade.Server.Callbacks
import Spade.Server.Samples
import Spade.Server.Tracking

set_option autoImplicit false

/-!
# When the first result of an invocation is the last

Duplicates are looked up under the key of the invocation and results are recorded
under the id of the block. Later results of an invocation are dropped exactly when
the first one is recorded under the key that is looked up.
-/
namespace Spade
open UUIDPackage
variable [UUIDPackage] [Encoding]

namespace World

/-- From here on no result with the ids of `wr` changes the engine, whatever comes before it. -/
def Settled (w : World) (wr : WorkerResult) : Prop :=
  ∀ (later : List (Env × Op)) (env : Env) (wr' : WorkerResult),
    wr'.invocationID = wr.invocationID → wr'.pipelineID = wr.pipelineID →
    ((w.run later).engine.applyResult env wr').1 = (w.run later).engine

/-- The key under which the duplicates of a result are looked up. -/
def keyOf (wr : WorkerResult) : UUID :=
  MultiTenantScheduler.detectionKey (parseInvocationIDForScheduler wr.invocationID).1
    (parseInvocationIDForScheduler wr.invocationID).2.1

/-- The result is a duplicate already, or it is recorded under the key of its invocation. -/
def FirstWins (w : World) (wr : WorkerResult) : Prop :=
  w.engine.sched.isAlreadyProcessed wr.invocationID = true ∨
    keyOf wr = (workerResultToInvocationResult wr).id ∧
      ∃ ps ∈ w.engine.sched.schedulers.lookup wr.pipelineID,
        ps.records (workerResultToInvocationResult wr) = true

variable {w : World} {a : Env × Op}

omit [Encoding] in
theorem Moves.completed {pid : UUID} {ps ps' : SinglePipelineScheduler} (h : w.Moves pid ps a ps')
    {k : UUID} (hk : k ∈ ps.completedBlocks) : k ∈ ps'.completedBlocks := by
  cases h with
  | result => exact (SinglePipelineScheduler.completed_update _ _ _ _).mpr (Or.inl hk)
  | _ => exact hk

omit [Encoding] in
theorem processed_iff {id : String} (hok : (parseInvocationIDForScheduler id).2.2 = true) :
    w.engine.sched.isAlreadyProcessed id = true ↔
      ∃ pid ps, w.engine.sched.schedulers.lookup pid = some ps ∧
        MultiTenantScheduler.detectionKey (parseInvocationIDForScheduler id).1
          (parseInvocationIDForScheduler id).2.1 ∈ ps.completedBlocks :=
  MultiTenantScheduler.isAlreadyProcessed_iff (by rw [← hok])

/-- What is processed stays processed. -/
theorem processed_run {id : String} (hok : (parseInvocationIDForScheduler id).2.2 = true)
    (hw : w.Stored) (h : w.engine.sched.isAlreadyProcessed id = true) (later : List (Env × Op)) :
    (w.run later).engine.sched.isAlreadyProcessed id = true := by
  induction later generalizing w with
  | nil => exact h
  | cons a later ih =>
    refine ih (stored_step hw) ?_
    obtain ⟨pid, ps, hps, hk⟩ := (processed_iff hok).mp h
    obtain ⟨ps', hps', hm⟩ := moves_of_lookup (a := a) hw hps
    exact (processed_iff hok).mpr ⟨pid, ps', hps', hm.completed hk⟩

theorem settled_of_processed {wr : WorkerResult}
    (hok : (parseInvocationIDForScheduler wr.invocationID).2.2 = true) (hw : w.Stored)
    (h : w.engine.sched.isAlreadyProcessed wr.invocationID = true) : w.Settled wr := by
  intro later env wr' hid _
  refine Engine.dropped_spec env wr' _ ?_
  rw [Engine.takes, hid, processed_run hok hw h later]
  rfl

omit [UUIDPackage] [Encoding] in
theorem upsertInvocation_events (rec : InvocationRecord) (m : MemStore) :
    (m.upsertInvocation rec).events = m.events := by
  unfold MemStore.upsertInvocation
  split
  · rfl
  · split <;> rfl

omit [UUIDPackage] [Encoding] in
theorem foldl_upsert_events (rows : List InvocationRecord) (m : MemStore) :
    (rows.foldl (fun st row => st.upsertInvocation row) m).events = m.events := by
  induction rows generalizing m with
  | nil => rfl
  | cons row rows ih => rw [List.foldl_cons, ih, upsertInvocation_events]

theorem persistResult_events (env : Env) (wr : WorkerResult) (rows : List InvocationRecord)
    (store : MemStore) :
    (Engine.persistResult env wr rows store).events.length = store.events.length + 1 := by
  simp only [Engine.persistResult, MemStore.appendEvent, List.length_append, foldl_upsert_events,
    upsertInvocation_events, List.length_singleton]

omit [UUIDPackage] [Encoding] in
theorem finish_events (env : Env) (pid : UUID) (status : PipelineStatus) (eventType : EventType)
    (msg : String) (e : Engine) :
    (e.finish env pid status eventType msg).store.events.length = e.store.events.length + 1 := by
  have h : ((e.store.updatePipelineStatus env.now pid status).getD e.store).events =
      e.store.events := by
    unfold MemStore.updatePipelineStatus
    split <;> rfl
  simp only [Engine.finish, Engine.fireCallback, MemStore.appendEvent, List.length_append, h,
    List.length_singleton]

/-- A result that is taken leaves a trace in the event log. -/
theorem taken_events (env : Env) {wr : WorkerResult} {e : Engine} (ht : e.takes wr = true) :
    e.store.events.length < (e.applyResult env wr).1.store.events.length := by
  obtain ⟨hproc, ps, sched, -, hs, -⟩ := update_of_takes ht env.order
  unfold Engine.applyResult
  rw [hproc, hs]
  simp only [Bool.false_eq_true, if_false]
  split_ifs
  · rw [finish_events, persistResult_events]
    omega
  · rw [finish_events, persistResult_events]
    omega
  · rw [persistResult_events]
    omega

theorem settled_drops {wr : WorkerResult} (h : w.Settled wr) : w.engine.takes wr = false := by
  by_contra ht
  have hsame := h [] { manifests := ∅ } wr rfl rfl
  have hlt := taken_events { manifests := ∅ } (e := w.engine) (by simpa using ht)
  rw [show (w.engine.applyResult { manifests := ∅ } wr).1 = w.engine from hsame] at hlt
  exact lt_irrefl _ hlt

omit [Encoding] in
theorem dispatched_origin (hw : w.Sound) {wr : WorkerResult} (hd : w.Dispatched wr) :
    ∃ ps, w.engine.sched.schedulers.lookup wr.pipelineID = some ps ∧
      (parseInvocationIDForScheduler wr.invocationID).2.2 = true := by
  obtain ⟨j, hj, -, hpid⟩ := id hd
  obtain ⟨inv, hinv, -, hjp⟩ := hw.published j hj
  obtain ⟨ps, hps⟩ := GoMap.lookup_of_mem (hjp.symm.trans hpid ▸ hw.handed inv hinv)
  obtain ⟨manifests, t, ht⟩ := hw.tracks _ ps hps
  obtain ⟨-, -, -, -, -, hok⟩ := result_origin hw hd ht
  exact ⟨ps, hps, hok⟩

/-- After a result that is no duplicate, its invocation is processed exactly when the result
is recorded under its key. -/
theorem processed_after (env : Env) {wr : WorkerResult} (ht : w.engine.takes wr = true)
    (hok : (parseInvocationIDForScheduler wr.invocationID).2.2 = true) :
    (w.step (env, .result wr)).engine.sched.isAlreadyProcessed wr.invocationID = true ↔
      w.FirstWins wr := by
  obtain ⟨hl, -⟩ := Engine.taken_spec env wr w.engine ht
  have hstep : ∀ k, (w.step (env, .result wr)).engine.sched.schedulers.lookup k =
      if k = wr.pipelineID then (w.engine.sched.schedulers.lookup k).map fun ps =>
        ps.update env.order (workerResultToInvocationResult wr)
      else w.engine.sched.schedulers.lookup k := hl
  rw [processed_iff hok]
  unfold FirstWins
  rw [processed_iff hok]
  constructor
  · rintro ⟨pid, ps', hps', hk⟩
    rw [hstep] at hps'
    split at hps'
    · rename_i hpid
      obtain ⟨ps, hps, rfl⟩ := Option.map_eq_some_iff.mp hps'
      rcases (SinglePipelineScheduler.completed_update _ _ _ _).mp hk with hk | ⟨hk, hr⟩
      · exact Or.inl ⟨pid, ps, hps, hk⟩
      · exact Or.inr ⟨hk, ps, hpid ▸ hps, hr⟩
    · exact Or.inl ⟨pid, ps', hps', hk⟩
  · rintro (⟨pid, ps, hps, hk⟩ | ⟨hk, ps, hps, hr⟩)
    · refine ⟨pid, ?_⟩
      rw [hstep, hps]
      split_ifs
      · exact ⟨_, rfl, (SinglePipelineScheduler.completed_update _ _ _ _).mpr (Or.inl hk)⟩
      · exact ⟨ps, rfl, hk⟩
    · have hps : w.engine.sched.schedulers.lookup wr.pipelineID = some ps := hps
      refine ⟨wr.pipelineID, _, by rw [hstep, if_pos rfl, hps, Option.map_some], ?_⟩
      exact (SinglePipelineScheduler.completed_update _ _ _ _).mpr (Or.inr ⟨hk, hr⟩)

/-- The first result of a dispatched invocation is final exactly when it is a duplicate
itself or recorded under the key of the invocation. -/
theorem first_result_wins_iff {ops : List (Env × Op)} (hrun : Runs.Along step Admits {} ops)
    (env : Env) {wr : WorkerResult} (hd : (run {} ops).Dispatched wr) :
    ((run {} ops).step (env, .result wr)).Settled wr ↔ (run {} ops).FirstWins wr := by
  generalize hw' : run {} ops = w at hd
  have hw : w.Sound := hw' ▸ sound_run hrun
  obtain ⟨ps, hps, hok⟩ := dispatched_origin hw hd
  by_cases hp : w.engine.sched.isAlreadyProcessed wr.invocationID = true
  · refine iff_of_true (settled_of_processed hok (stored_step hw.stored) ?_) (Or.inl hp)
    exact processed_run hok hw.stored hp [(env, .result wr)]
  · have ht : w.engine.takes wr = true := by
      simp [Engine.takes, hp, hps]
    rw [← processed_after env ht hok]
    constructor
    · intro hset
      obtain ⟨ps', hps', -⟩ := moves_of_lookup (a := (env, .result wr)) hw.stored hps
      have hdrop := settled_drops hset
      simpa [Engine.takes, hps'] using hdrop
    · exact settled_of_processed hok (stored_step hw.stored)

end World
end Spade

namespace Spade.World
open Samples Uuid

theorem first_result_wins_chain :
    ((run {} (submit chain :: sweepOne)).step (complete chain 1)).Settled
        (result chain (string (blockID 1)) .complete) ↔
      (run {} (submit chain :: sweepOne)).FirstWins (result chain (string (blockID 1)) .complete) :=
  first_result_wins_iff (by decide) env (by decide)

/-- The same error a second time calls back a second time. -/
theorem first_result_wins_fails :
    Runs.Along step Admits {} (submit chain :: sweepOne) ∧
      (run {} (submit chain :: sweepOne)).Dispatched (result chain (string (blockID 1)) .error) ∧
      ¬((run {} (submit chain :: sweepOne)).step (fail chain 1)).Settled
        (result chain (string (blockID 1)) .error) := by
  refine ⟨by decide, by decide, fun h => ?_⟩
  have hsame := h [] env (result chain (string (blockID 1)) .error) rfl rfl
  have hcalls := congrArg (fun e => e.callbacks.length) hsame
  revert hcalls
  decide

end Spade.World
