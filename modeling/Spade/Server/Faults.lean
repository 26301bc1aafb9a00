import Spade.Lib.Writes
import Spade.Server.Engine

set_option autoImplicit false

/-!
# The engine over a store whose operations fail

`fails n` tells whether the `n`-th store operation of a call fails. An operation that
fails changes nothing.
-/
namespace Spade
open UUIDPackage

inductive StoreWrite where
  | upsert (rec : InvocationRecord)
  | event (evt : PipelineEvent)
  | status (id : UUID) (status : PipelineStatus)

def MemStore.write (now : Time) (m : MemStore) : StoreWrite → MemStore
  | .upsert rec => m.upsertInvocation rec
  | .event evt => m.appendEvent now evt
  | .status id status => (m.updatePipelineStatus now id status).getD m

/-- The errors of a call: those that it has in any case, and those of the store. -/
inductive CallError where
  | engine (err : EngineError)
  | store
  deriving DecidableEq

variable [UUIDPackage]

namespace Engine

/-! Submission: every operation is checked. -/

/-- The writes of `SubmitPipeline` after the row of the pipeline. -/
def submitWrites (p : Pipeline) (body : String) : List StoreWrite :=
  .event { pipelineID := p.id, eventType := .submitted, payloadJSON := body } ::
    p.blocks.map fun pb => .upsert (submittedRow p.id pb)

def registerFaulty (env : Env) (fails : ℕ → Bool) (p : Pipeline) (yamlBody submitter : String)
    (e : Engine) : Engine × Option CallError :=
  let row : PipelineRecord :=
    { id := p.id, name := p.name, version := p.version, description := p.description,
      yaml := yamlBody, status := .running, submittedAt := env.now, submitterUserID := submitter }
  if fails 0 then (e, some .store)
  else
    match e.store.insertPipeline env.now row with
    | none => (e, some (.engine .alreadyExists))
    | some store =>
      match Writes.attempt (MemStore.write env.now) (fun n => fails (n + 1))
        (submitWrites p yamlBody) store with
      | (store, true) => ({ e with store := store }, some .store)
      | (store, false) => ({ e with
          store := store
          sched := (e.sched.addPipeline p).setManifests p.id env.manifests }, none)

variable [Encoding]

def submitFaulty (env : Env) (fails : ℕ → Bool) (pp : Pipeline) (yamlBody submitter : String)
    (e : Engine) : Engine × Option CallError :=
  match submittedPipeline env pp with
  | none => (e, some (.engine .newV7))
  | some p =>
    let errs := validatePipeline env.order p env.manifests
    if errs ≠ [] then (e, some (.engine (.validation errs)))
    else
      match if yamlBody = "" then Encoding.yamlMarshal p else some yamlBody with
      | none => (e, some (.engine .marshal))
      | some body => registerFaulty env fails p body submitter e

/-! Results: only the row of the result is checked. -/

/-- The status and the message of the end that a result brings. -/
def ending (wr : WorkerResult) (complete : Bool) : Option (PipelineStatus × EventType × String) :=
  if wr.status = .error then some (.failed, .pipelineFailed, wr.error)
  else if complete then some (.complete, .pipelineCompleted, "")
  else none

/-- The writes of `applyResult` after the row of the result. -/
def resultWrites (wr : WorkerResult) (pendingRows : List InvocationRecord) (complete : Bool) :
    List StoreWrite :=
  pendingRows.map .upsert ++
    .event { pipelineID := wr.pipelineID, invocationID := wr.invocationID,
             eventType := if wr.status = .error then .blockFailed else .blockCompleted } ::
    match ending wr complete with
    | none => []
    | some (status, eventType, _) =>
      [.status wr.pipelineID status, .event { pipelineID := wr.pipelineID, eventType := eventType }]

/-- The callback, without rows if they cannot be loaded. -/
def announce (loads : Bool) (pid : UUID) (status : PipelineStatus) (errMsg : String)
    (e : Engine) : Engine :=
  if loads then fireCallback pid status errMsg e
  else { e with callbacks := e.callbacks ++ [(pid, ⟨status, errMsg, []⟩)] }

def applyFaulty (env : Env) (fails : ℕ → Bool) (wr : WorkerResult) (e : Engine) :
    Engine × Option CallError :=
  if e.sched.isAlreadyProcessed wr.invocationID then (e, none)
  else
    match e.sched.update env.order (parseInvocationID wr.invocationID).1
        (workerResultToInvocationResult wr) with
    | none => (e, some (.engine .unknownPipeline))
    | some sched =>
      let pendingRows :=
        collectPendingRowsLocked env.order sched wr.pipelineID wr.status wr.expansion
      let complete := pipelineCompleteLocked sched wr.pipelineID
      let row := resultRow env wr (if fails 0 then {} else e.store)
      if fails 1 then ({ e with sched := sched }, some .store)
      else
        let writes := resultWrites wr pendingRows complete
        let e' : Engine := { e with
          sched := sched
          store := Writes.attemptEach (MemStore.write env.now) (fun n => fails (n + 2)) writes
            (e.store.upsertInvocation row) }
        match ending wr complete with
        | none => (e', none)
        | some (status, _, errMsg) =>
          (announce (!fails (writes.length + 2)) wr.pipelineID status errMsg e', none)

/-! Without failures both are as before. -/

omit [Encoding] in
theorem foldl_submitWrites (now : Time) (p : Pipeline) (body : String) (m : MemStore) :
    (submitWrites p body).foldl (MemStore.write now) m =
      p.blocks.foldl (fun st pb => st.upsertInvocation (submittedRow p.id pb))
        (m.appendEvent now { pipelineID := p.id, eventType := .submitted, payloadJSON := body }) := by
  unfold submitWrites
  rw [List.foldl_cons, List.foldl_map]
  rfl

omit [Encoding] in
theorem registerFaulty_healthy {fails : ℕ → Bool} (h : ∀ n, fails n = false) (env : Env)
    (p : Pipeline) (yamlBody submitter : String) (e : Engine) :
    registerFaulty env fails p yamlBody submitter e =
      ((registerPipeline env p yamlBody submitter e).1,
        (registerPipeline env p yamlBody submitter e).2.map .engine) := by
  unfold registerFaulty registerPipeline
  dsimp only
  rw [h 0, if_neg Bool.false_ne_true]
  cases MemStore.insertPipeline env.now _ e.store with
  | none => rfl
  | some store =>
    have hno : (Writes.attempt (MemStore.write env.now) (fun n => fails (n + 1))
        (submitWrites p yamlBody) store).2 = false := by
      rw [← Bool.not_eq_true, Writes.attempt_failed_iff]
      rintro ⟨n, -, hn⟩
      rw [h] at hn
      cases hn
    have hall := Writes.attempt_ok (MemStore.write env.now) hno
    rw [foldl_submitWrites] at hall
    dsimp only
    generalize Writes.attempt (MemStore.write env.now) (fun n => fails (n + 1))
      (submitWrites p yamlBody) store = r at hno hall
    obtain ⟨store', failed⟩ := r
    cases hno
    cases hall
    rfl

theorem submitFaulty_healthy {fails : ℕ → Bool} (h : ∀ n, fails n = false) (env : Env)
    (pp : Pipeline) (yamlBody submitter : String) (e : Engine) :
    submitFaulty env fails pp yamlBody submitter e =
      ((e.submitPipeline env pp yamlBody submitter).1,
        (e.submitPipeline env pp yamlBody submitter).2.map .engine) := by
  unfold submitFaulty submitPipeline
  cases submittedPipeline env pp with
  | none => rfl
  | some p =>
    dsimp only
    by_cases hv : validatePipeline env.order p env.manifests ≠ []
    · rw [if_pos hv, if_pos hv]
      rfl
    · rw [if_neg hv, if_neg hv]
      cases (if yamlBody = "" then Encoding.yamlMarshal p else some yamlBody) with
      | none => rfl
      | some body => exact registerFaulty_healthy h env p body submitter e

/-- The writes of a result, in one list. -/
theorem foldl_resultWrites (env : Env) (wr : WorkerResult) (rows : List InvocationRecord)
    (complete : Bool) (m : MemStore) :
    (resultWrites wr rows complete).foldl (MemStore.write env.now)
        (m.upsertInvocation (resultRow env wr m)) =
      match ending wr complete with
      | none => persistResult env wr rows m
      | some (status, eventType, _) =>
        (((persistResult env wr rows m).updatePipelineStatus env.now wr.pipelineID status).getD
          (persistResult env wr rows m)).appendEvent env.now
            { pipelineID := wr.pipelineID, eventType := eventType } := by
  unfold resultWrites
  rw [List.foldl_append, List.foldl_map, List.foldl_cons]
  cases ending wr complete with
  | none => rfl
  | some x => rfl

theorem applyFaulty_healthy {fails : ℕ → Bool} (h : ∀ n, fails n = false) (env : Env)
    (wr : WorkerResult) (e : Engine) :
    applyFaulty env fails wr e = ((e.applyResult env wr).1, (e.applyResult env wr).2.map .engine) := by
  unfold applyFaulty applyResult
  by_cases hp : e.sched.isAlreadyProcessed wr.invocationID = true
  · rw [if_pos hp, if_pos hp]
    rfl
  · rw [if_neg hp, if_neg hp]
    cases e.sched.update env.order (parseInvocationID wr.invocationID).1
        (workerResultToInvocationResult wr) with
    | none => rfl
    | some sched =>
      dsimp only
      rw [h 0, h 1, if_neg Bool.false_ne_true, if_neg Bool.false_ne_true,
        Writes.attemptEach_ok _ (fun n => h (n + 2)), foldl_resultWrites, h]
      unfold ending
      by_cases herr : wr.status = .error
      · simp only [if_pos herr]
        rfl
      · simp only [if_neg herr]
        cases hc : pipelineCompleteLocked sched wr.pipelineID <;> rfl

end Engine
end Spade
