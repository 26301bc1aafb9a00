import Spade.Core.Contexts
import Spade.Core.Drain
import Spade.Lib.Runs
import Spade.Server.Engine

set_option autoImplicit false

/-!
# The engine at work

A world is the engine with the sweep under way and the history of what was handed
out, published and applied. Its steps are submissions, cancels, the `Drain` of a
sweep, one publish of it, and one result.
-/
namespace Spade
open UUIDPackage

structure World where
  engine : Engine := {}
  sweep : List BlockInvocation := []
  handedOut : List BlockInvocation := []
  published : List Job := []
  applied : List WorkerResult := []

inductive Op where
  | submit (p : Pipeline) (yamlBody submitter : String)
  | cancel (id : UUID)
  | drain
  | publish (ok : Bool)
  | result (wr : WorkerResult)

variable [UUIDPackage]

/-- The result is no duplicate and its pipeline is registered. -/
def Engine.takes (e : Engine) (wr : WorkerResult) : Bool :=
  !e.sched.isAlreadyProcessed wr.invocationID && (e.sched.schedulers.lookup wr.pipelineID).isSome

namespace World
variable [Encoding]

/-- A sweep publishes one invocation after the other and stops at a failure; the next
one starts only after it. -/
def step (w : World) (a : Env × Op) : World :=
  match a.2 with
  | .submit p yamlBody submitter =>
    { w with engine := (w.engine.submitPipeline a.1 p yamlBody submitter).1 }
  | .cancel id => { w with engine := (w.engine.cancelPipeline a.1 id).1 }
  | .drain =>
    match w.sweep with
    | [] => { w with
        engine := { w.engine with sched := w.engine.sched.drain.1 }
        sweep := w.engine.sched.drain.2
        handedOut := w.handedOut ++ w.engine.sched.drain.2 }
    | _ :: _ => w
  | .publish ok =>
    match w.sweep with
    | [] => w
    | inv :: rest =>
      match w.engine.dispatchOne a.1 ok inv with
      | (e, .skipped) => { w with engine := e, sweep := rest }
      | (e, .published job) =>
        { w with engine := e, sweep := rest, published := w.published ++ [job] }
      | (e, .failed) => { w with engine := e, sweep := [] }
  | .result wr => { w with
      engine := (w.engine.applyResult a.1 wr).1
      applied := if w.engine.takes wr then w.applied ++ [wr] else w.applied }

/-- The result is for a job that was published. -/
def Dispatched (w : World) (wr : WorkerResult) : Prop :=
  ∃ j ∈ w.published, j.assignment.invocationID = wr.invocationID ∧
    j.assignment.pipelineID = wr.pipelineID

instance (w : World) (wr : WorkerResult) : Decidable (w.Dispatched wr) :=
  inferInstanceAs (Decidable (∃ j ∈ w.published, _))

/-- Results only come for published jobs. -/
def Admits (w : World) (a : Env × Op) : Prop :=
  match a.2 with
  | .result wr => w.Dispatched wr
  | _ => True

instance (w : World) (a : Env × Op) : Decidable (w.Admits a) :=
  match a with
  | (_, .submit _ _ _) => isTrue trivial
  | (_, .cancel _) => isTrue trivial
  | (_, .drain) => isTrue trivial
  | (_, .publish _) => isTrue trivial
  | (_, .result wr) => inferInstanceAs (Decidable (w.Dispatched wr))

abbrev run (w : World) (ops : List (Env × Op)) : World := Runs.run step w ops

end World

/-! What the engine operations do to the registry. -/

namespace MemStore

omit [UUIDPackage] in
@[simp] theorem upsertInvocation_pipelines (rec : InvocationRecord) (m : MemStore) :
    (m.upsertInvocation rec).pipelines = m.pipelines := by
  unfold upsertInvocation
  split
  · rfl
  · split <;> rfl

omit [UUIDPackage] in
@[simp] theorem appendEvent_pipelines (now : Time) (evt : PipelineEvent) (m : MemStore) :
    (m.appendEvent now evt).pipelines = m.pipelines := rfl

omit [UUIDPackage] in
theorem foldl_upsert_pipelines {A : Type} (row : A → InvocationRecord) (l : List A) (m : MemStore) :
    (l.foldl (fun st a => st.upsertInvocation (row a)) m).pipelines = m.pipelines := by
  induction l generalizing m with
  | nil => rfl
  | cons a l ih => rw [List.foldl_cons, ih, upsertInvocation_pipelines]

omit [UUIDPackage] in
theorem updatePipelineStatus_lookup (now : Time) (id : UUID) (status : PipelineStatus)
    (m : MemStore) (k : UUID) :
    ((m.updatePipelineStatus now id status).getD m).pipelines.lookup k =
      if k = id then (m.pipelines.lookup k).map fun rec => { rec with
        status := status
        completedAt := if status.terminal then some now else rec.completedAt }
      else m.pipelines.lookup k := by
  unfold updatePipelineStatus
  cases hl : m.pipelines.lookup id with
  | none =>
    rw [Option.getD_none]
    by_cases hk : k = id
    · subst hk
      rw [if_pos rfl, hl, Option.map_none]
    · rw [if_neg hk]
  | some rec =>
    rw [Option.getD_some, GoMap.lookup_insert_if]
    by_cases hk : k = id
    · subst hk
      rw [if_pos rfl, if_pos rfl, hl, Option.map_some]
    · rw [if_neg hk, if_neg hk]

omit [UUIDPackage] in
theorem updatePipelineStatus_isSome (now : Time) (id : UUID) (status : PipelineStatus)
    (m : MemStore) : (m.updatePipelineStatus now id status).isSome = true ↔ id ∈ m.pipelines := by
  unfold updatePipelineStatus
  rw [← AList.lookup_isSome]
  cases m.pipelines.lookup id <;> rfl

omit [UUIDPackage] in
theorem mem_updatePipelineStatus (now : Time) (id : UUID) (status : PipelineStatus)
    (m : MemStore) (k : UUID) :
    k ∈ ((m.updatePipelineStatus now id status).getD m).pipelines ↔ k ∈ m.pipelines := by
  rw [GoMap.mem_iff_lookup, GoMap.mem_iff_lookup, updatePipelineStatus_lookup]
  by_cases hk : k = id <;> simp [hk]

end MemStore

namespace Engine

theorem persistResult_pipelines [Encoding] (env : Env) (wr : WorkerResult)
    (rows : List InvocationRecord) (store : MemStore) :
    (persistResult env wr rows store).pipelines = store.pipelines := by
  unfold persistResult
  rw [MemStore.appendEvent_pipelines, MemStore.foldl_upsert_pipelines (fun row => row),
    MemStore.upsertInvocation_pipelines]

/-- A submission either changes nothing or registers an accepted pipeline. -/
theorem submit_cases [Encoding] (env : Env) (pp : Pipeline) (yamlBody submitter : String)
    (e : Engine) : (e.submitPipeline env pp yamlBody submitter).1 = e ∨
      ∃ p body, submittedPipeline env pp = some p ∧
        validatePipeline env.order p env.manifests = [] ∧ p.id ∉ e.store.pipelines ∧
        e.submitPipeline env pp yamlBody submitter = registerPipeline env p body submitter e := by
  unfold submitPipeline
  cases hp : submittedPipeline env pp with
  | none => exact Or.inl rfl
  | some p =>
    by_cases hv : validatePipeline env.order p env.manifests = []
    · cases hb : (if yamlBody = "" then Encoding.yamlMarshal p else some yamlBody) with
      | none =>
        refine Or.inl ?_
        simp only [hv, ne_eq, not_true, if_false, hb]
      | some body =>
        by_cases hs : p.id ∈ e.store.pipelines
        · refine Or.inl ?_
          simp only [hv, ne_eq, not_true, if_false, hb, registerPipeline, MemStore.insertPipeline,
            hs, if_true]
        · refine Or.inr ⟨p, body, rfl, hv, hs, ?_⟩
          simp only [hv, ne_eq, not_true, if_false, hb]
    · refine Or.inl ?_
      simp only [ne_eq, hv, not_false_eq_true, if_true]

/-- The record of a new pipeline. -/
def submittedRecord (env : Env) (p : Pipeline) (body submitter : String) : PipelineRecord :=
  { id := p.id, name := p.name, version := p.version, description := p.description,
    yaml := body, status := .running, submittedAt := env.now, submitterUserID := submitter }

theorem register_records (env : Env) (p : Pipeline) (body submitter : String) (e : Engine)
    (h : p.id ∉ e.store.pipelines) :
    (registerPipeline env p body submitter e).1.store.pipelines =
      e.store.pipelines.insert p.id (submittedRecord env p body submitter) := by
  have hins : e.store.insertPipeline env.now (submittedRecord env p body submitter) =
      some { e.store with
        pipelines := e.store.pipelines.insert p.id (submittedRecord env p body submitter) } := by
    unfold MemStore.insertPipeline
    by_cases ht : env.now = 0 <;> simp [h, ht, submittedRecord]
  unfold submittedRecord at hins ⊢
  unfold registerPipeline
  dsimp only
  rw [hins]
  dsimp only
  rw [MemStore.foldl_upsert_pipelines, MemStore.appendEvent_pipelines]

theorem register_spec (env : Env) (p : Pipeline) (body submitter : String) (e : Engine)
    (h : p.id ∉ e.store.pipelines) :
    (∀ k, (registerPipeline env p body submitter e).1.sched.schedulers.lookup k =
      if k = p.id then some (registered p env.manifests) else e.sched.schedulers.lookup k) ∧
    (∀ k, k ∈ (registerPipeline env p body submitter e).1.store.pipelines ↔
      k = p.id ∨ k ∈ e.store.pipelines) ∧
    (registerPipeline env p body submitter e).1.callbacks = e.callbacks := by
  have hsched : ∀ k, ((e.sched.addPipeline p).setManifests p.id env.manifests).schedulers.lookup k =
      if k = p.id then some (registered p env.manifests) else e.sched.schedulers.lookup k := by
    intro k
    have hl : (e.sched.addPipeline p).schedulers.lookup p.id = some (newSchedulerForPipeline p) :=
      AList.lookup_insert _
    unfold MultiTenantScheduler.setManifests
    simp only [hl]
    rw [GoMap.lookup_insert_if]
    split_ifs with hk
    · rfl
    · unfold MultiTenantScheduler.addPipeline
      rw [GoMap.lookup_insert_if, if_neg hk]
  refine ⟨?_, fun k => ?_, ?_⟩
  · unfold registerPipeline MemStore.insertPipeline
    simp only [h, if_false]
    exact hsched
  · rw [register_records env p body submitter e h, AList.mem_insert]
  · unfold registerPipeline MemStore.insertPipeline
    simp only [h, if_false]

omit [UUIDPackage] in
theorem cancel_spec (env : Env) (id : UUID) (e : Engine) :
    (∀ k, (e.cancelPipeline env id).1.sched.schedulers.lookup k =
      if k = id then (e.sched.schedulers.lookup k).map SinglePipelineScheduler.cancelPipeline
      else e.sched.schedulers.lookup k) ∧
    ∀ k, k ∈ (e.cancelPipeline env id).1.store.pipelines ↔ k ∈ e.store.pipelines := by
  have hsched : ∀ k, ((e.sched.cancelPipeline id).getD e.sched).schedulers.lookup k =
      if k = id then (e.sched.schedulers.lookup k).map SinglePipelineScheduler.cancelPipeline
      else e.sched.schedulers.lookup k := by
    intro k
    cases hc : e.sched.cancelPipeline id with
    | some s' => exact MultiTenantScheduler.cancel_lookup hc k
    | none =>
      have hl : e.sched.schedulers.lookup id = none := by
        unfold MultiTenantScheduler.cancelPipeline at hc
        split at hc
        · assumption
        · cases hc
      rw [Option.getD_none]
      split_ifs with hk
      · subst hk
        rw [hl, Option.map_none]
      · rfl
  have hstore := MemStore.mem_updatePipelineStatus env.now id .cancelled e.store
  unfold Engine.cancelPipeline
  cases hu : e.store.updatePipelineStatus env.now id .cancelled with
  | none => exact ⟨hsched, fun _ => Iff.rfl⟩
  | some store =>
    refine ⟨hsched, fun k => ?_⟩
    rw [hu, Option.getD_some] at hstore
    exact hstore k

theorem dropped_spec [Encoding] (env : Env) (wr : WorkerResult) (e : Engine)
    (h : e.takes wr = false) : (e.applyResult env wr).1 = e := by
  unfold applyResult
  by_cases hp : e.sched.isAlreadyProcessed wr.invocationID = true
  · rw [if_pos hp]
  · have hn : e.sched.schedulers.lookup wr.pipelineID = none := by
      simpa [takes, hp] using h
    rw [if_neg hp]
    have hu : ∀ σ u, e.sched.update σ u (workerResultToInvocationResult wr) = none := by
      intro σ u
      unfold MultiTenantScheduler.update
      simp only [workerResultToInvocationResult, hn]
    rw [hu]

/-- The engine after a result that it takes. -/
theorem taken_spec [Encoding] (env : Env) (wr : WorkerResult) (e : Engine)
    (h : e.takes wr = true) :
    (∀ k, (e.applyResult env wr).1.sched.schedulers.lookup k =
      if k = wr.pipelineID then (e.sched.schedulers.lookup k).map fun ps =>
        ps.update env.order (workerResultToInvocationResult wr)
      else e.sched.schedulers.lookup k) ∧
    ∀ k, k ∈ (e.applyResult env wr).1.store.pipelines ↔ k ∈ e.store.pipelines := by
  obtain ⟨hp, hl⟩ : e.sched.isAlreadyProcessed wr.invocationID = false ∧
      (e.sched.schedulers.lookup wr.pipelineID).isSome = true := by simpa [takes] using h
  obtain ⟨ps, hps⟩ := Option.isSome_iff_exists.mp hl
  obtain ⟨sched, hs⟩ : ∃ sched, e.sched.update env.order (parseInvocationID wr.invocationID).1
      (workerResultToInvocationResult wr) = some sched := by
    unfold MultiTenantScheduler.update
    simp only [workerResultToInvocationResult, hps]
    exact ⟨_, rfl⟩
  have hsched := MultiTenantScheduler.update_lookup hs
  unfold applyResult
  rw [hp, hs]
  simp only [Bool.false_eq_true, if_false]
  split_ifs
  · refine ⟨hsched, fun k => ?_⟩
    simp only [finish, fireCallback, MemStore.appendEvent_pipelines]
    rw [MemStore.mem_updatePipelineStatus, persistResult_pipelines]
  · refine ⟨hsched, fun k => ?_⟩
    simp only [finish, fireCallback, MemStore.appendEvent_pipelines]
    rw [MemStore.mem_updatePipelineStatus, persistResult_pipelines]
  · exact ⟨hsched, fun k => by rw [persistResult_pipelines]⟩

omit [UUIDPackage] in
theorem requeue_lookup (inv : BlockInvocation) (s : MultiTenantScheduler) (k : UUID) :
    (requeue inv s).schedulers.lookup k =
      if k = inv.pipelineId then (s.schedulers.lookup k).map fun ps =>
        { ps with executableBlocks := inv :: ps.executableBlocks }
      else s.schedulers.lookup k := by
  unfold requeue
  cases hl : s.schedulers.lookup inv.pipelineId with
  | none =>
    split_ifs with hk
    · subst hk
      rw [hl, Option.map_none]
    · rfl
  | some ps =>
    rw [GoMap.lookup_insert_if]
    split_ifs with hk
    · subst hk
      rw [hl, Option.map_some]
    · rfl

end Engine
end Spade
