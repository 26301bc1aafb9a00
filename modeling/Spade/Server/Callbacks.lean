import Spade.Core.Idle
import Spade.Server.Steps

set_option autoImplicit false

/-!
# Callbacks and pipeline records

A step either announces one terminal status, to the callback and in the record of the
pipeline, or leaves both alone.
-/
namespace Spade
open UUIDPackage
variable [UUIDPackage] [Encoding]

namespace World

/-- The status and the time that a terminal transition stamps on a record. -/
def stamped (now : Time) (status : PipelineStatus) (rec : PipelineRecord) : PipelineRecord :=
  { rec with status := status, completedAt := some now }

/-- The terminal transitions: which step announces which status for a pipeline. -/
inductive Announces (w : World) : Env × Op → UUID → PipelineStatus → Prop where
  | cancelled {env : Env} {id : UUID} (hs : id ∈ w.engine.store.pipelines) :
      Announces w (env, .cancel id) id .cancelled
  | failed {env : Env} {wr : WorkerResult} (ht : w.engine.takes wr = true)
      (hs : wr.status = .error) : Announces w (env, .result wr) wr.pipelineID .failed
  | complete {env : Env} {wr : WorkerResult} {ps : SinglePipelineScheduler}
      (ht : w.engine.takes wr = true) (hs : wr.status ≠ .error)
      (hl : w.engine.sched.schedulers.lookup wr.pipelineID = some ps)
      (hc : (ps.update env.order (workerResultToInvocationResult wr)).cancelled = false)
      (hi : (ps.update env.order (workerResultToInvocationResult wr)).idle = true) :
      Announces w (env, .result wr) wr.pipelineID .complete

omit [Encoding] in
/-- No step announces twice. -/
theorem announces_unique {w : World} {a : Env × Op} {pid pid' : UUID} {st st' : PipelineStatus}
    (h : w.Announces a pid st) (h' : w.Announces a pid' st') : pid = pid' ∧ st = st' := by
  cases h with
  | cancelled => cases h'; exact ⟨rfl, rfl⟩
  | failed _ hs =>
    cases h' with
    | failed => exact ⟨rfl, rfl⟩
    | complete _ hs' => exact absurd hs hs'
  | complete _ hs =>
    cases h' with
    | failed _ hs' => exact absurd hs' hs
    | complete => exact ⟨rfl, rfl⟩

omit [Encoding] in
theorem Announces.terminal {w : World} {a : Env × Op} {pid : UUID} {st : PipelineStatus}
    (h : w.Announces a pid st) : st.terminal = true := by
  cases h <;> rfl

omit [Encoding] in
/-- When a result that is no error announces its pipeline complete. -/
theorem announces_complete_iff {w : World} {env : Env} {wr : WorkerResult}
    {ps : SinglePipelineScheduler} (ht : w.engine.takes wr = true) (hs : wr.status ≠ .error)
    (hl : w.engine.sched.schedulers.lookup wr.pipelineID = some ps) :
    w.Announces (env, .result wr) wr.pipelineID .complete ↔
      ps.cancelled = false ∧ ps.idle = true ∧
        ps.revives (workerResultToInvocationResult wr) = false := by
  have hcan : (ps.update env.order (workerResultToInvocationResult wr)).cancelled = ps.cancelled := by
    have hne : (workerResultToInvocationResult wr).status ≠ .error := hs
    rw [(SinglePipelineScheduler.update_static _ _ _).2.1]
    simp [hne]
  have hidle := SinglePipelineScheduler.idle_update env.order ps
    (r := workerResultToInvocationResult wr) hs
  constructor
  · generalize hst : PipelineStatus.complete = status
    intro h
    cases h with
    | failed => cases hst
    | complete _ _ hl' hc hi =>
      rw [hl] at hl'
      cases hl'
      rw [hidle, Bool.and_eq_true, Bool.not_eq_true'] at hi
      exact ⟨hcan ▸ hc, hi.1, hi.2⟩
  · rintro ⟨hc, hi, hr⟩
    exact .complete ht hs hl (by rw [hcan, hc]) (by rw [hidle, hi, hr]; rfl)

/-- A step without a terminal transition. -/
structure Quiet (w w' : World) : Prop where
  callbacks : w'.engine.callbacks = w.engine.callbacks
  records : ∀ k rec, w.engine.store.pipelines.lookup k = some rec →
    w'.engine.store.pipelines.lookup k = some rec
  fresh : ∀ k, w.engine.store.pipelines.lookup k = none →
    ∀ rec ∈ w'.engine.store.pipelines.lookup k, rec.status = .running

/-- A step with one. -/
structure Announced (now : Time) (pid : UUID) (status : PipelineStatus) (w w' : World) : Prop where
  callbacks : ∃ payload : CallbackPayload, payload.status = status ∧
    w'.engine.callbacks = w.engine.callbacks ++ [(pid, payload)]
  records : ∀ k, w'.engine.store.pipelines.lookup k =
    if k = pid then (w.engine.store.pipelines.lookup k).map (stamped now status)
    else w.engine.store.pipelines.lookup k

omit [UUIDPackage] [Encoding] in
theorem finish_announced (env : Env) (pid : UUID) {status : PipelineStatus}
    (hterm : status.terminal = true) (eventType : EventType) (msg : String) {w w' : World}
    {e : Engine} (hw' : w'.engine = e.finish env pid status eventType msg)
    (hc : e.callbacks = w.engine.callbacks)
    (hr : e.store.pipelines = w.engine.store.pipelines) :
    Announced env.now pid status w w' := by
  constructor
  · rw [hw', Engine.finish, Engine.fireCallback, hc]
    exact ⟨_, rfl, rfl⟩
  · intro k
    rw [hw']
    simp only [Engine.finish, Engine.fireCallback, MemStore.appendEvent_pipelines]
    rw [MemStore.updatePipelineStatus_lookup, hr]
    unfold stamped
    simp only [hterm, if_true]

omit [UUIDPackage] [Encoding] in
theorem quiet_of_eq {w w' : World} (hc : w'.engine.callbacks = w.engine.callbacks)
    (hr : w'.engine.store.pipelines = w.engine.store.pipelines) : w.Quiet w' := by
  refine ⟨hc, fun k rec h => by rw [hr, h], fun k h rec hrec => ?_⟩
  rw [hr, h] at hrec
  cases hrec

theorem quiet_submit (w : World) (env : Env) (pp : Pipeline) (body who : String) :
    w.Quiet (w.step (env, .submit pp body who)) := by
  change Quiet w { w with engine := (w.engine.submitPipeline env pp body who).1 }
  rcases Engine.submit_cases env pp body who w.engine with heq | ⟨p, b, -, -, hnew, heq⟩
  · rw [heq]
    exact quiet_of_eq rfl rfl
  · rw [heq]
    obtain ⟨-, -, hcb⟩ := Engine.register_spec env p b who w.engine hnew
    have hrec := Engine.register_records env p b who w.engine hnew
    refine ⟨hcb, fun k rec h => ?_, fun k h rec hl => ?_⟩
    · rw [hrec, GoMap.lookup_insert_if, if_neg, h]
      rintro rfl
      exact hnew (GoMap.mem_of_lookup h)
    · rw [hrec, GoMap.lookup_insert_if] at hl
      split at hl
      · cases hl
        rfl
      · rw [h] at hl
        cases hl

theorem quiet_drain (w : World) (env : Env) : w.Quiet (w.step (env, .drain)) := by
  unfold step
  dsimp only
  split
  · exact quiet_of_eq rfl rfl
  · exact quiet_of_eq rfl rfl

theorem quiet_publish (w : World) (env : Env) (ok : Bool) :
    w.Quiet (w.step (env, .publish ok)) := by
  unfold step
  dsimp only
  split
  · exact quiet_of_eq rfl rfl
  · rename_i inv rest hs
    unfold Engine.dispatchOne
    cases w.engine.sched.schedulers.lookup inv.pipelineId with
    | none => exact quiet_of_eq rfl rfl
    | some ps =>
      cases ok with
      | true =>
        refine quiet_of_eq rfl ?_
        simp only [if_true, MemStore.appendEvent_pipelines, MemStore.upsertInvocation_pipelines]
      | false => exact quiet_of_eq rfl rfl

omit [Encoding] in
/-- The scheduler that a taken result leaves. -/
theorem update_of_takes {e : Engine} {wr : WorkerResult} (ht : e.takes wr = true) (σ : MapOrder) :
    e.sched.isAlreadyProcessed wr.invocationID = false ∧
    ∃ ps sched, e.sched.schedulers.lookup wr.pipelineID = some ps ∧
      e.sched.update σ (parseInvocationID wr.invocationID).1 (workerResultToInvocationResult wr) =
        some sched ∧
      sched.schedulers.lookup wr.pipelineID =
        some (ps.update σ (workerResultToInvocationResult wr)) := by
  obtain ⟨hproc, hreg⟩ : e.sched.isAlreadyProcessed wr.invocationID = false ∧
      (e.sched.schedulers.lookup wr.pipelineID).isSome = true := by
    simpa [Engine.takes] using ht
  obtain ⟨ps, hps⟩ := Option.isSome_iff_exists.mp hreg
  obtain ⟨sched, hs⟩ : ∃ sched, e.sched.update σ (parseInvocationID wr.invocationID).1
      (workerResultToInvocationResult wr) = some sched := by
    unfold MultiTenantScheduler.update
    simp only [workerResultToInvocationResult, hps]
    exact ⟨_, rfl⟩
  have hl := MultiTenantScheduler.update_lookup hs wr.pipelineID
  have hpid : wr.pipelineID = (workerResultToInvocationResult wr).pipelineId := rfl
  rw [if_pos hpid, hps, Option.map_some] at hl
  exact ⟨hproc, ps, sched, hps, hs, hl⟩

omit [UUIDPackage] [Encoding] in
theorem pipelineComplete_iff {sched : MultiTenantScheduler} {pid : UUID}
    {ps : SinglePipelineScheduler} (hl : sched.schedulers.lookup pid = some ps) :
    pipelineCompleteLocked sched pid = true ↔ ps.cancelled = false ∧ ps.idle = true := by
  unfold pipelineCompleteLocked SinglePipelineScheduler.idle
  rw [hl]
  simp only [Bool.and_eq_true, Bool.not_eq_true', and_assoc]

/-- Either one announcement, or nothing terminal happens. -/
theorem result_callbacks (w : World) (env : Env) (wr : WorkerResult) :
    (∃ pid status, w.Announces (env, .result wr) pid status ∧
      Announced env.now pid status w (w.step (env, .result wr))) ∨
    ((∀ pid status, ¬w.Announces (env, .result wr) pid status) ∧
      (w.step (env, .result wr)).engine.callbacks = w.engine.callbacks ∧
      (w.step (env, .result wr)).engine.store.pipelines = w.engine.store.pipelines) := by
  by_cases ht : w.engine.takes wr = true
  · obtain ⟨hproc, ps, sched, hps, hs, hl⟩ := update_of_takes ht env.order
    have hiff := pipelineComplete_iff hl
    let e : Engine := { w.engine with
      sched := sched
      store := Engine.persistResult env wr
        (collectPendingRowsLocked env.order sched wr.pipelineID wr.status wr.expansion)
        w.engine.store }
    have hstore : e.store.pipelines = w.engine.store.pipelines :=
      Engine.persistResult_pipelines _ _ _ _
    by_cases herr : wr.status = .error
    · refine Or.inl ⟨_, .failed, .failed ht herr, ?_⟩
      refine finish_announced env wr.pipelineID rfl .pipelineFailed wr.error (e := e) ?_ rfl hstore
      simp only [step, Engine.applyResult, hproc, Bool.false_eq_true, if_false, hs, herr, if_true, e]
    · by_cases hcomp : pipelineCompleteLocked sched wr.pipelineID = true
      · obtain ⟨hc, hi⟩ := hiff.mp hcomp
        refine Or.inl ⟨_, .complete, .complete ht herr hps hc hi, ?_⟩
        refine finish_announced env wr.pipelineID rfl .pipelineCompleted "" (e := e) ?_ rfl hstore
        simp only [step, Engine.applyResult, hproc, Bool.false_eq_true, if_false, hs, herr, hcomp,
          if_true, e]
      · have hstep : (w.step (env, .result wr)).engine = e := by
          simp only [step, Engine.applyResult, hproc, Bool.false_eq_true, if_false, hs, herr, hcomp,
            e]
        refine Or.inr ⟨fun pid status h => ?_, by rw [hstep], by rw [hstep, hstore]⟩
        cases h with
        | failed _ hs' => exact herr hs'
        | complete _ _ hl' hc hi =>
          rw [hps] at hl'
          cases hl'
          exact hcomp (hiff.mpr ⟨hc, hi⟩)
  · have hf : w.engine.takes wr = false := by simpa using ht
    refine Or.inr ⟨fun pid status h => ?_, ?_⟩
    · cases h with
      | failed ht' => exact ht ht'
      | complete ht' => exact ht ht'
    · unfold step
      dsimp only
      rw [Engine.dropped_spec env wr w.engine hf]
      exact ⟨rfl, rfl⟩

theorem step_callbacks (w : World) (a : Env × Op) :
    (∃ pid status, w.Announces a pid status ∧ Announced a.1.now pid status w (w.step a)) ∨
    ((∀ pid status, ¬w.Announces a pid status) ∧ w.Quiet (w.step a)) := by
  obtain ⟨env, op⟩ := a
  cases op with
  | submit pp body who => exact Or.inr ⟨fun _ _ => nofun, quiet_submit w env pp body who⟩
  | cancel id =>
    unfold step
    dsimp only
    unfold Engine.cancelPipeline
    have hmem := MemStore.updatePipelineStatus_isSome env.now id .cancelled w.engine.store
    cases hu : w.engine.store.updatePipelineStatus env.now id .cancelled with
    | none =>
      refine Or.inr ⟨fun pid status h => ?_, quiet_of_eq rfl rfl⟩
      cases h with
      | cancelled hs =>
        rw [hu] at hmem
        cases hmem.mpr hs
    | some store =>
      have hl := MemStore.updatePipelineStatus_lookup env.now id .cancelled w.engine.store
      rw [hu, Option.getD_some] at hl
      rw [hu] at hmem
      exact Or.inl ⟨id, .cancelled, .cancelled (hmem.mp rfl), ⟨_, rfl, rfl⟩, hl⟩
  | drain => exact Or.inr ⟨fun _ _ => nofun, quiet_drain w env⟩
  | publish ok => exact Or.inr ⟨fun _ _ => nofun, quiet_publish w env ok⟩
  | result wr =>
    exact (result_callbacks w env wr).imp_right fun ⟨hno, hcb, hrec⟩ => ⟨hno, quiet_of_eq hcb hrec⟩

/-! Registered pipelines have a record and stay registered. -/

def Stored (w : World) : Prop :=
  ∀ pid ∈ w.engine.sched.schedulers, pid ∈ w.engine.store.pipelines

variable {w : World} {a : Env × Op}

/-- Every step keeps the records there are. -/
theorem stored_mono {pid : UUID} (h : pid ∈ w.engine.store.pipelines) :
    pid ∈ (w.step a).engine.store.pipelines := by
  obtain ⟨rec, hrec⟩ := GoMap.lookup_of_mem h
  rcases step_callbacks w a with ⟨pid', st, -, han⟩ | ⟨-, hq⟩
  · rw [GoMap.mem_iff_lookup, han.records, hrec]
    split_ifs
    · exact ⟨_, rfl⟩
    · exact ⟨_, rfl⟩
  · exact GoMap.mem_of_lookup (hq.records pid rec hrec)

/-- A registered pipeline has a record after any step. -/
theorem stored_step (hw : w.Stored) : (w.step a).Stored := by
  intro pid hpid
  rcases step_lookup w a pid with
    ⟨_, hl, pp, body, who, p, hop, hreg, rfl, -⟩ | ⟨-, hl⟩ | ⟨ps, _, hl, -, -⟩
  · obtain ⟨env, op⟩ := a
    cases hop
    change p.id ∈ (w.engine.submitPipeline env pp body who).1.sched.schedulers at hpid
    change p.id ∈ (w.engine.submitPipeline env pp body who).1.store.pipelines
    rcases Engine.submit_cases env pp body who w.engine with heq | ⟨p', b, hp, -, hnew, heq⟩
    · rw [heq] at hpid
      exact absurd (hw _ hpid) hreg.fresh
    · obtain ⟨-, hst, -⟩ := Engine.register_spec env p' b who w.engine hnew
      rw [heq, hst]
      rw [hreg.submitted] at hp
      cases hp
      exact Or.inl rfl
  · rw [AList.lookup_eq_none] at hl
    exact absurd hpid hl
  · exact stored_mono (hw pid (GoMap.mem_of_lookup hl))

/-- A registered pipeline stays registered and makes one move. -/
theorem moves_of_lookup (hw : w.Stored) {pid : UUID} {ps : SinglePipelineScheduler}
    (hps : w.engine.sched.schedulers.lookup pid = some ps) :
    ∃ ps', (w.step a).engine.sched.schedulers.lookup pid = some ps' ∧ w.Moves pid ps a ps' := by
  rcases step_lookup w a pid with
    ⟨_, _, _, _, _, p, _, hreg, hpid, _⟩ | ⟨hn, -⟩ | ⟨ps₀, ps', hl, hl', hm⟩
  · exact absurd (hpid ▸ hw pid (GoMap.mem_of_lookup hps)) hreg.fresh
  · rw [hn] at hps
    cases hps
  · rw [hl] at hps
    cases hps
    exact ⟨ps', hl', hm⟩

end World
end Spade
