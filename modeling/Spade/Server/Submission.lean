import Spade.Server.Faults
import Spade.Server.Rows
import Spade.Server.Samples

set_option autoImplicit false

/-!
# Submissions that fail halfway

The rows and the event of a submission are separate writes, and none is taken back
when a later one fails.
-/
namespace Spade
open UUIDPackage
variable [UUIDPackage] [Encoding]

namespace Engine

/-- Nothing of the pipeline has been added. -/
structure Untouched (id : UUID) (e e' : Engine) : Prop where
  pipelines : ∀ rec ∈ e'.store.pipelines.lookup id, rec ∈ e.store.pipelines.lookup id
  invocations : ∀ key, ∀ row ∈ e'.store.invocations.lookup key, row.pipelineID = id →
    row ∈ e.store.invocations.lookup key
  events : ∀ evt ∈ e'.store.events, evt.pipelineID = id → evt ∈ e.store.events
  sched : e'.sched = e.sched

/-- The pipeline as the caller has it after the call. -/
def pipelineAfter (env : Env) (pp : Pipeline) : Pipeline := (submittedPipeline env pp).getD pp

/-- A submission that fails leaves nothing, and another one finds what the first found. -/
def SubmitsWhole (env : Env) (fails : ℕ → Bool) (pp : Pipeline) (yamlBody submitter : String)
    (e : Engine) : Prop :=
  let r := submitFaulty env fails pp yamlBody submitter e
  let p := pipelineAfter env pp
  r.2 ≠ none → Untouched p.id e r.1 ∧
    ∀ env' fails', submitFaulty env' fails' p yamlBody submitter r.1 =
      submitFaulty env' fails' p yamlBody submitter e

/-- The submission is refused before it writes, its first write fails, or none does. -/
def FailsFirst (env : Env) (fails : ℕ → Bool) (pp : Pipeline) (yamlBody : String) (e : Engine) :
    Prop :=
  ∀ x ∈ e.registering env pp yamlBody,
    fails 0 = true ∨ ∀ n ≤ x.1.blocks.length, fails (n + 1) = false

omit [UUIDPackage] [Encoding] in
theorem Untouched.refl (id : UUID) (e : Engine) : Untouched id e e where
  pipelines := fun _ h => h
  invocations := fun _ _ h _ => h
  events := fun _ h _ => h
  sched := rfl

variable (env : Env) (fails : ℕ → Bool)

/-- The store after the first write. -/
def inserted (p : Pipeline) (body submitter : String) (e : Engine) : MemStore := { e.store with
  pipelines := e.store.pipelines.insert p.id (submittedRecord env p body submitter) }

omit [UUIDPackage] [Encoding] in
theorem insertPipeline_new (p : Pipeline) (body submitter : String) {e : Engine}
    (h : p.id ∉ e.store.pipelines) :
    e.store.insertPipeline env.now (submittedRecord env p body submitter) =
      some (inserted env p body submitter e) := by
  unfold MemStore.insertPipeline inserted
  by_cases ht : env.now = 0 <;> simp [h, ht, submittedRecord]

omit [Encoding] in
theorem registerFaulty_known {p : Pipeline} (body submitter : String) {e : Engine}
    (h : p.id ∈ e.store.pipelines) : registerFaulty env fails p body submitter e =
      (e, some (if fails 0 then .store else .engine .alreadyExists)) := by
  unfold registerFaulty MemStore.insertPipeline
  simp only [h, if_true]
  split_ifs <;> rfl

omit [Encoding] in
theorem registerFaulty_eq {p : Pipeline} (body submitter : String) {e : Engine}
    (h : p.id ∉ e.store.pipelines) (h0 : fails 0 = false) :
    registerFaulty env fails p body submitter e =
      match Writes.attempt (MemStore.write env.now) (fun n => fails (n + 1))
        (submitWrites p body) (inserted env p body submitter e) with
      | (store, true) => ({ e with store := store }, some .store)
      | (store, false) => ({ e with
          store := store
          sched := (e.sched.addPipeline p).setManifests p.id env.manifests }, none) := by
  have hins := insertPipeline_new env p body submitter h
  unfold submittedRecord at hins
  unfold registerFaulty
  dsimp only
  rw [h0, hins]
  rfl

omit [Encoding] in
theorem lookup_attempt (p : Pipeline) (body submitter : String) (e : Engine) :
    (Writes.attempt (MemStore.write env.now) fails (submitWrites p body)
      (inserted env p body submitter e)).1.pipelines.lookup p.id =
        some (submittedRecord env p body submitter) := by
  apply Writes.attempt_induct (MemStore.write env.now)
    (P := fun m => m.pipelines.lookup p.id = some (submittedRecord env p body submitter))
  · intro m a ha hm
    unfold submitWrites at ha
    rcases List.mem_cons.mp ha with rfl | ha
    · exact hm
    · obtain ⟨b, -, rfl⟩ := List.mem_map.mp ha
      change (m.upsertInvocation (submittedRow p.id b)).pipelines.lookup p.id = _
      rwa [MemStore.upsertInvocation_pipelines]
  · exact AList.lookup_insert _

omit [Encoding] in
/-- A first submission: the writes after the row of the pipeline decide. -/
theorem registerFaulty_new {p : Pipeline} (body submitter : String) {e : Engine}
    (h : p.id ∉ e.store.pipelines) (h0 : fails 0 = false) :
    ((registerFaulty env fails p body submitter e).2 ≠ none ↔
      ∃ n ≤ p.blocks.length, fails (n + 1) = true) ∧
    (registerFaulty env fails p body submitter e).1.store.pipelines.lookup p.id =
      some (submittedRecord env p body submitter) := by
  have hfailed := Writes.attempt_failed_iff (MemStore.write env.now) (fun n => fails (n + 1))
    (submitWrites p body) (inserted env p body submitter e)
  have hlength : (submitWrites p body).length = p.blocks.length + 1 := by
    unfold submitWrites
    rw [List.length_cons, List.length_map]
  have hrow := lookup_attempt env (fun n => fails (n + 1)) p body submitter e
  rw [hlength] at hfailed
  simp only [Nat.lt_succ_iff] at hfailed
  rw [registerFaulty_eq env fails body submitter h h0, ← hfailed]
  generalize Writes.attempt (MemStore.write env.now) (fun n => fails (n + 1))
    (submitWrites p body) (inserted env p body submitter e) = r at hrow
  obtain ⟨store, failed⟩ := r
  cases failed with
  | true => exact ⟨by simp, hrow⟩
  | false => exact ⟨by simp, hrow⟩

theorem submitFaulty_refused {pp : Pipeline} {yamlBody : String} (submitter : String) {e : Engine}
    (h : e.registering env pp yamlBody = none) :
    (submitFaulty env fails pp yamlBody submitter e).1 = e := by
  unfold registering at h
  unfold submitFaulty
  cases hp : submittedPipeline env pp with
  | none => rfl
  | some p =>
    rw [hp] at h
    dsimp only at h ⊢
    by_cases hv : validatePipeline env.order p env.manifests = []
    · rw [if_neg (not_not.mpr hv)]
      cases hb : (if yamlBody = "" then Encoding.yamlMarshal p else some yamlBody) with
      | none => rfl
      | some body =>
        rw [hb] at h
        dsimp only at h ⊢
        have hknown : p.id ∈ e.store.pipelines := by
          by_contra hn
          rw [if_pos ⟨hv, hn⟩] at h
          cases h
        rw [registerFaulty_known env fails body submitter hknown]
    · rw [if_pos hv]

theorem submitFaulty_registering {pp p : Pipeline} {yamlBody body : String} (submitter : String)
    {e : Engine} (h : e.registering env pp yamlBody = some (p, body)) :
    submitFaulty env fails pp yamlBody submitter e =
      registerFaulty env fails p body submitter e := by
  obtain ⟨hp, hb, hv, -⟩ := registering_spec h
  unfold submitFaulty
  rw [hp]
  dsimp only
  rw [if_neg (not_not.mpr hv), hb]

/-- What a submission leaves that fails after its first write: the pipeline is running in
the store, and cannot be submitted again. -/
theorem left_behind {pp p : Pipeline} {yamlBody body : String} (submitter : String) {e : Engine}
    (h : e.registering env pp yamlBody = some (p, body)) (h0 : fails 0 = false)
    (env' : Env) {fails' : ℕ → Bool} (h0' : fails' 0 = false) (body' : String) :
    let e' := (submitFaulty env fails pp yamlBody submitter e).1
    e'.store.pipelines.lookup p.id = some (submittedRecord env p body submitter) ∧
      registerFaulty env' fails' p body' submitter e' = (e', some (.engine .alreadyExists)) := by
  dsimp only
  rw [submitFaulty_registering env fails submitter h]
  have hrow := (registerFaulty_new env fails body submitter (registering_spec h).2.2.2 h0).2
  refine ⟨hrow, ?_⟩
  rw [registerFaulty_known env' fails' body' submitter (GoMap.mem_of_lookup hrow), h0',
    if_neg Bool.false_ne_true]

/-- A submission is all or nothing exactly if it does not fail after its first write. -/
theorem submits_whole (pp : Pipeline) (yamlBody submitter : String) (e : Engine) :
    SubmitsWhole env fails pp yamlBody submitter e ↔ FailsFirst env fails pp yamlBody e := by
  unfold SubmitsWhole FailsFirst
  dsimp only
  cases hx : e.registering env pp yamlBody with
  | none =>
    rw [submitFaulty_refused env fails submitter hx]
    constructor
    · intro _ x hx'
      cases hx'
    · exact fun _ _ => ⟨Untouched.refl _ e, fun _ _ => rfl⟩
  | some x =>
    obtain ⟨p, body⟩ := x
    obtain ⟨hp, -, -, hnew⟩ := registering_spec hx
    have hid : pipelineAfter env pp = p := by
      unfold pipelineAfter
      rw [hp, Option.getD_some]
    rw [hid, submitFaulty_registering env fails submitter hx]
    simp only [Option.mem_some_iff, forall_eq']
    cases h0 : fails 0 with
    | true =>
      have hsame : (registerFaulty env fails p body submitter e).1 = e := by
        unfold registerFaulty
        rw [h0, if_pos rfl]
      rw [hsame]
      exact ⟨fun _ => .inl rfl, fun _ _ => ⟨Untouched.refl _ e, fun _ _ => rfl⟩⟩
    | false =>
      obtain ⟨hfailed, hrow⟩ := registerFaulty_new env fails body submitter hnew h0
      rw [hfailed]
      constructor
      · intro h
        right
        intro n hn
        by_contra hf
        obtain ⟨hun, -⟩ := h ⟨n, hn, by simpa using hf⟩
        have hold := hun.pipelines _ hrow
        exact hnew (GoMap.mem_of_lookup hold)
      · rintro (h | h) ⟨n, hn, hf⟩
        · cases h
        · rw [h n hn] at hf
          cases hf

end Engine
end Spade

namespace Spade.Engine
open Samples Uuid

/-- The event of the submission cannot be stored. -/
theorem submits_whole_fails : ¬∀ (env : Env) (fails : ℕ → Bool) (pp : Pipeline)
    (yamlBody submitter : String) (e : Engine),
    SubmitsWhole env fails pp yamlBody submitter e := by
  intro h
  have hchain := h env (fun n => n = 1) chain (yamlText chain) "user" {}
  have hfail : (submitFaulty env (fun n => n = 1) chain (yamlText chain) "user" {}).2 =
      some .store := by decide
  have hleft : (submitFaulty env (fun n => n = 1) chain (yamlText chain) "user"
      {}).1.store.pipelines.lookup (pipelineAfter env chain).id ≠ none := by decide
  obtain ⟨rec, hrec⟩ := Option.ne_none_iff_exists'.mp hleft
  obtain ⟨hun, -⟩ := hchain (by rw [hfail]; simp)
  cases hun.pipelines rec hrec

end Spade.Engine
