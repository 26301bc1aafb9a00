import Spade.Server.Callbacks
import Spade.Server.Tracking

set_option autoImplicit false

/-!
# The invocation rows that a step writes

Every step changes the rows of the store by a list of upserts.
-/
namespace Spade
open UUIDPackage

namespace MemStore

/-- The row that an upsert leaves. -/
def upserted (existing : Option InvocationRecord) (rec : InvocationRecord) : InvocationRecord :=
  match existing with
  | none => rec
  | some e => if e.status = .complete ∨ e.status = .error then e else mergeInvocation e rec

theorem upsert_lookup (rec : InvocationRecord) (m : MemStore) (key : String) :
    (m.upsertInvocation rec).invocations.lookup key =
      if key = rec.id then some (upserted (m.invocations.lookup rec.id) rec)
      else m.invocations.lookup key := by
  unfold upsertInvocation
  cases hl : m.invocations.lookup rec.id with
  | none => exact GoMap.lookup_insert_if _ _ _ _
  | some e =>
    unfold upserted
    dsimp only
    split
    · by_cases hk : key = rec.id
      · subst hk
        rw [if_pos rfl, hl]
      · rw [if_neg hk]
    · exact GoMap.lookup_insert_if _ _ _ _

abbrev upsertAll (m : MemStore) (recs : List InvocationRecord) : MemStore :=
  recs.foldl (fun st row => st.upsertInvocation row) m

/-- An upsert looks at the rows only. -/
theorem upsert_congr {m m' : MemStore} (h : m.invocations = m'.invocations)
    (rec : InvocationRecord) :
    (m.upsertInvocation rec).invocations = (m'.upsertInvocation rec).invocations := by
  unfold upsertInvocation
  rw [h]
  split
  · rfl
  · split <;> simp [h]

theorem upsertAll_congr {m m' : MemStore} (h : m.invocations = m'.invocations)
    (recs : List InvocationRecord) :
    (m.upsertAll recs).invocations = (m'.upsertAll recs).invocations := by
  induction recs generalizing m m' with
  | nil => exact h
  | cons rec recs ih => exact ih (upsert_congr h rec)

/-- An invariant of the rows, given what is written. -/
theorem upsertAll_induct {P : MemStore → Prop} {recs : List InvocationRecord} {m : MemStore}
    (hm : P m) (step : ∀ m, P m → ∀ rec ∈ recs, P (m.upsertInvocation rec)) :
    P (m.upsertAll recs) := by
  induction recs generalizing m with
  | nil => exact hm
  | cons rec recs ih =>
    exact ih (step m hm rec (by simp)) fun m hm rec hrec => step m hm rec (by simp [hrec])

/-! The rows of one pipeline. -/

/-- Every row is kept under its own id. -/
def Keyed (m : MemStore) : Prop := ∀ key row, m.invocations.lookup key = some row → row.id = key

theorem mem_loadInvocations (m : MemStore) (pid : UUID) (row : InvocationRecord) :
    row ∈ m.loadInvocations pid ↔
      row.pipelineID = pid ∧ ∃ key, m.invocations.lookup key = some row := by
  unfold loadInvocations
  rw [List.mem_insertionSort, List.mem_filter, List.mem_map, decide_eq_true_eq, and_comm]
  simp only [Prod.exists, exists_eq_right, GoMap.mem_items]

theorem loadInvocations_sorted (m : MemStore) (pid : UUID) :
    (m.loadInvocations pid).Pairwise fun a b => a.id ≤ b.id := by
  have : Std.Total fun a b : InvocationRecord => a.id ≤ b.id := ⟨fun a b => String.le_total a.id b.id⟩
  have : IsTrans InvocationRecord fun a b => a.id ≤ b.id := ⟨fun _ _ _ => String.le_trans⟩
  exact List.pairwise_insertionSort _ _

theorem loadInvocations_nodup {m : MemStore} (h : m.Keyed) (pid : UUID) :
    ((m.loadInvocations pid).map InvocationRecord.id).Nodup := by
  have hp := (List.perm_insertionSort (fun a b : InvocationRecord => a.id ≤ b.id)
    ((m.invocations.items.map Prod.snd).filter fun rec => rec.pipelineID = pid)).map
    InvocationRecord.id
  refine hp.nodup_iff.mpr ?_
  have hids : (m.invocations.items.map Prod.snd).map InvocationRecord.id =
      m.invocations.items.map Prod.fst := by
    rw [List.map_map]
    apply List.map_congr_left
    rintro ⟨key, row⟩ he
    exact h key row ((GoMap.mem_items _ _ _).mp he)
  have hn : ((m.invocations.items.map Prod.snd).map InvocationRecord.id).Nodup := by
    rw [hids]
    exact GoMap.items_nodup _
  exact hn.sublist (List.filter_sublist.map InvocationRecord.id)

/-- The rows that are loaded depend on the rows of the pipeline only. -/
theorem loadInvocations_congr {m m' : MemStore} (h : m.Keyed) (h' : m'.Keyed) {pid : UUID}
    (hrows : ∀ key row, row.pipelineID = pid →
      (m.invocations.lookup key = some row ↔ m'.invocations.lookup key = some row)) :
    m.loadInvocations pid = m'.loadInvocations pid := by
  have hmem : ∀ row, row ∈ m.loadInvocations pid ↔ row ∈ m'.loadInvocations pid := by
    intro row
    rw [mem_loadInvocations, mem_loadInvocations]
    exact and_congr_right fun hpid => exists_congr fun key => hrows key row hpid
  have hn := loadInvocations_nodup h pid
  refine List.Perm.eq_of_pairwise ?_ (m.loadInvocations_sorted pid) (m'.loadInvocations_sorted pid)
    ((List.perm_ext_iff_of_nodup (List.Nodup.of_map _ hn)
      (List.Nodup.of_map _ (loadInvocations_nodup h' pid))).mpr hmem)
  intro a b ha hb hab hba
  exact List.inj_on_of_nodup_map hn ha ((hmem b).mpr hb) (String.le_antisymm hab hba)

theorem upserted_cases (existing : Option InvocationRecord) (rec : InvocationRecord) :
    existing = some (upserted existing rec) ∨ ((upserted existing rec).id = rec.id ∧
      (upserted existing rec).pipelineID = rec.pipelineID ∧
      (upserted existing rec).blockID = rec.blockID) := by
  unfold upserted
  split
  · exact Or.inr ⟨rfl, rfl, rfl⟩
  · split
    · exact Or.inl rfl
    · exact Or.inr ⟨rfl, rfl, rfl⟩

theorem updatePipelineStatus_invocations (now : Time) (id : UUID) (status : PipelineStatus)
    (m : MemStore) : ((m.updatePipelineStatus now id status).getD m).invocations = m.invocations := by
  unfold updatePipelineStatus
  split <;> rfl

end MemStore

variable [UUIDPackage] [Encoding]

namespace Engine

/-- The pipeline that a submission registers, with the body that it stores. -/
def registering (env : Env) (pp : Pipeline) (yamlBody : String) (e : Engine) :
    Option (Pipeline × String) :=
  match submittedPipeline env pp with
  | none => none
  | some p =>
    match if yamlBody = "" then Encoding.yamlMarshal p else some yamlBody with
    | none => none
    | some body =>
      if validatePipeline env.order p env.manifests = [] ∧ p.id ∉ e.store.pipelines
      then some (p, body) else none

theorem submit_eq (env : Env) (pp : Pipeline) (yamlBody submitter : String) (e : Engine) :
    (e.submitPipeline env pp yamlBody submitter).1 =
      match e.registering env pp yamlBody with
      | none => e
      | some (p, body) => (registerPipeline env p body submitter e).1 := by
  unfold submitPipeline registering
  cases hp : submittedPipeline env pp with
  | none => rfl
  | some p =>
    cases hb : (if yamlBody = "" then Encoding.yamlMarshal p else some yamlBody) with
    | none =>
      simp only [hb]
      split <;> rfl
    | some body =>
      simp only [hb]
      by_cases hv : validatePipeline env.order p env.manifests = []
      · by_cases hs : p.id ∈ e.store.pipelines
        · simp [hv, hs, registerPipeline, MemStore.insertPipeline]
        · simp [hv, hs]
      · simp [hv]

omit [UUIDPackage] in
theorem registering_spec {env : Env} {pp : Pipeline} {yamlBody : String} {e : Engine} {p : Pipeline}
    {body : String} (h : e.registering env pp yamlBody = some (p, body)) :
    submittedPipeline env pp = some p ∧
      (if yamlBody = "" then Encoding.yamlMarshal p else some yamlBody) = some body ∧
      validatePipeline env.order p env.manifests = [] ∧ p.id ∉ e.store.pipelines := by
  unfold registering at h
  cases hp : submittedPipeline env pp with
  | none => simp [hp] at h
  | some p' =>
    cases hb : (if yamlBody = "" then Encoding.yamlMarshal p' else some yamlBody) with
    | none => simp [hp, hb] at h
    | some body' =>
      simp only [hp, hb] at h
      split at h
      · rename_i hv
        cases h
        exact ⟨rfl, hb, hv⟩
      · cases h

omit [Encoding] in
theorem register_invocations (env : Env) (p : Pipeline) (body submitter : String) (e : Engine)
    (h : p.id ∉ e.store.pipelines) :
    (registerPipeline env p body submitter e).1.store.invocations =
      (e.store.upsertAll (p.blocks.map (submittedRow p.id))).invocations := by
  have hrows : ∀ m : MemStore, p.blocks.foldl (fun st pb => st.upsertInvocation (submittedRow p.id pb)) m =
      m.upsertAll (p.blocks.map (submittedRow p.id)) := fun m => by
    rw [MemStore.upsertAll, List.foldl_map]
  unfold registerPipeline MemStore.insertPipeline
  simp only [h, if_false, hrows]
  refine MemStore.upsertAll_congr ?_ _
  rfl

end Engine

namespace World

/-- The rows that a step upserts. -/
def writes (w : World) (a : Env × Op) : List InvocationRecord :=
  match a.2 with
  | .submit pp yamlBody _ =>
    match w.engine.registering a.1 pp yamlBody with
    | none => []
    | some (p, _) => p.blocks.map (Engine.submittedRow p.id)
  | .publish true =>
    match w.sweep with
    | [] => []
    | inv :: _ =>
      if inv.pipelineId ∈ w.engine.sched.schedulers then [Engine.dispatchedRow a.1 inv] else []
  | .result wr =>
    if w.engine.takes wr then
      Engine.resultRow a.1 wr w.engine.store ::
        match w.engine.sched.update a.1.order (parseInvocationID wr.invocationID).1
            (workerResultToInvocationResult wr) with
        | none => []
        | some sched =>
          collectPendingRowsLocked a.1.order sched wr.pipelineID wr.status wr.expansion
    else []
  | _ => []

theorem mem_writes_submit {w : World} {env : Env} {pp : Pipeline} {body who : String}
    {rec : InvocationRecord} (h : rec ∈ w.writes (env, .submit pp body who)) :
    ∃ p text, w.engine.registering env pp body = some (p, text) ∧
      ∃ b ∈ p.blocks, rec = Engine.submittedRow p.id b := by
  unfold writes at h
  dsimp only at h
  split at h
  · cases h
  · rename_i p text hx
    obtain ⟨b, hb, rfl⟩ := List.mem_map.mp h
    exact ⟨p, text, hx, b, hb, rfl⟩

theorem step_rows (w : World) (a : Env × Op) : (w.step a).engine.store.invocations =
    (w.engine.store.upsertAll (w.writes a)).invocations := by
  obtain ⟨env, op⟩ := a
  cases op with
  | submit pp body who =>
    change (w.engine.submitPipeline env pp body who).1.store.invocations = _
    rw [Engine.submit_eq, writes]
    dsimp only
    cases hr : w.engine.registering env pp body with
    | none => rfl
    | some pb =>
      obtain ⟨p, text⟩ := pb
      exact Engine.register_invocations env p text who w.engine (Engine.registering_spec hr).2.2.2
  | cancel id =>
    unfold step
    dsimp only
    unfold Engine.cancelPipeline
    have hi := MemStore.updatePipelineStatus_invocations env.now id .cancelled w.engine.store
    cases hu : w.engine.store.updatePipelineStatus env.now id .cancelled with
    | none => rfl
    | some store =>
      rw [hu] at hi
      exact hi
  | drain =>
    unfold step
    dsimp only
    split <;> rfl
  | publish ok =>
    unfold step writes
    dsimp only
    cases hs : w.sweep with
    | nil => cases ok <;> rfl
    | cons inv rest =>
      unfold Engine.dispatchOne
      cases hl : w.engine.sched.schedulers.lookup inv.pipelineId with
      | none =>
        have hno := AList.lookup_eq_none.mp hl
        cases ok <;> simp only [hl, hno, if_false] <;> rfl
      | some ps =>
        have hmem := GoMap.mem_of_lookup hl
        cases ok <;> simp only [hl, hmem, if_true, Bool.false_eq_true, if_false] <;> rfl
  | result wr =>
    by_cases ht : w.engine.takes wr = true
    · obtain ⟨ps, hps⟩ : ∃ ps, w.engine.sched.schedulers.lookup wr.pipelineID = some ps :=
        GoMap.lookup_of_mem (takes_registered ht)
      have hproc : w.engine.sched.isAlreadyProcessed wr.invocationID = false := by
        simp only [Engine.takes, Bool.and_eq_true, Bool.not_eq_true'] at ht
        exact ht.1
      unfold writes step
      dsimp only
      rw [if_pos ht]
      unfold Engine.applyResult
      rw [hproc]
      simp only [Bool.false_eq_true, if_false]
      cases hs : w.engine.sched.update env.order (parseInvocationID wr.invocationID).1
          (workerResultToInvocationResult wr) with
      | none =>
        unfold MultiTenantScheduler.update at hs
        simp only [workerResultToInvocationResult, hps] at hs
        cases hs
      | some sched =>
        have hfin : ∀ (pid : UUID) status eventType msg (e : Engine),
            (e.finish env pid status eventType msg).store.invocations = e.store.invocations :=
          fun pid status _ _ e => MemStore.updatePipelineStatus_invocations _ _ _ _
        dsimp only
        split_ifs
        · rw [hfin]
          rfl
        · rw [hfin]
          rfl
        · rfl
    · have hf : w.engine.takes wr = false := by simpa using ht
      unfold writes step
      dsimp only
      rw [Engine.dropped_spec env wr w.engine hf, if_neg ht]
      rfl

/-! Every row that is written belongs to a block of its pipeline. -/

/-- The row is of the registered pipeline that it names, under the text of one of its blocks. -/
def Owns (w : World) (rec : InvocationRecord) : Prop :=
  ∃ ps, w.engine.sched.schedulers.lookup rec.pipelineID = some ps ∧
    rec.blockID ∈ ps.pipeline.blockIDs ∧ (parseInvocationIDForScheduler rec.id).1 = rec.blockID

variable {w : World} {a : Env × Op}

omit [Encoding] in
/-- The invocations of a pipeline, queued or handed out. -/
theorem made_of_sound (hw : w.Sound) {pid : UUID} {ps : SinglePipelineScheduler}
    (hps : w.engine.sched.schedulers.lookup pid = some ps) {inv : BlockInvocation}
    (h : inv ∈ ps.executableBlocks ∨ (inv ∈ w.handedOut ∧ inv.pipelineId = pid) ∨
      ∃ k, ps.pendingBlocks.lookup k = some inv) :
    inv.pipelineId = pid ∧ inv.id ∈ ps.pipeline.blockIDs ∧
      (parseInvocationIDForScheduler inv.invocationID).1 = inv.id := by
  obtain ⟨manifests, t, ht⟩ := hw.tracks pid ps hps
  have hheld : t.Holds inv := by
    unfold Trace.Holds
    rw [ht.sched, ht.handed]
    exact h
  obtain ⟨⟨b, hb, heq⟩, hidx⟩ := ht.formed.made inv hheld
  refine ⟨?_, ?_, (parse_invocationID inv hidx).1⟩
  · rw [heq]
    exact ht.id
  · rw [heq]
    exact List.mem_map_of_mem hb

omit [Encoding] in
theorem owns_row (hw : w.Sound) {pid : UUID} {ps : SinglePipelineScheduler}
    (hps : w.engine.sched.schedulers.lookup pid = some ps) {inv : BlockInvocation}
    (h : inv ∈ ps.executableBlocks ∨ (inv ∈ w.handedOut ∧ inv.pipelineId = pid) ∨
      ∃ k, ps.pendingBlocks.lookup k = some inv) {rec : InvocationRecord}
    (hpid : rec.pipelineID = inv.pipelineId) (hblock : rec.blockID = inv.id)
    (hid : rec.id = inv.invocationID) : w.Owns rec := by
  obtain ⟨hpid', hmem, hparse⟩ := made_of_sound hw hps h
  refine ⟨ps, ?_, ?_, ?_⟩
  · rw [hpid, hpid', hps]
  · rw [hblock]
    exact hmem
  · rw [hid, hblock, hparse]

omit [Encoding] in
theorem mem_collectPending {σ : MapOrder} {sched : MultiTenantScheduler} {pid : UUID}
    {st : ExecutionStatus} {exp : Option ExpansionManifest} {rec : InvocationRecord}
    (h : rec ∈ collectPendingRowsLocked σ sched pid st exp) :
    st = .map ∧ ∃ ps inv status, sched.schedulers.lookup pid = some ps ∧
      rec = pendingRow status inv ∧
      (inv ∈ ps.executableBlocks ∨ ∃ k, ps.pendingBlocks.lookup k = some inv) := by
  unfold collectPendingRowsLocked at h
  split at h
  · cases h
  · rename_i hst
    rw [not_or, not_not] at hst
    refine ⟨hst.1, ?_⟩
    split at h
    · cases h
    · rename_i ps hps
      rcases List.mem_append.mp h with h | h
      · obtain ⟨inv, hinv, rfl⟩ := List.mem_map.mp h
        exact ⟨ps, inv, _, hps, rfl, Or.inl (List.mem_filter.mp hinv).1⟩
      · obtain ⟨inv, hinv, rfl⟩ := List.mem_map.mp h
        obtain ⟨⟨k, i⟩, hk, rfl⟩ := List.mem_map.mp (List.mem_filter.mp hinv).1
        exact ⟨ps, i, _, hps, rfl, Or.inr ⟨k, (σ.mem_range _ _ _).mp hk⟩⟩

theorem writes_owned (hw : w.Sound) (ha : w.Admits a) :
    ∀ rec ∈ w.writes a, (w.step a).Owns rec := by
  have hnext := sound_step w a hw ha
  obtain ⟨env, op⟩ := a
  intro rec hrec
  unfold writes at hrec
  cases op with
  | cancel => cases hrec
  | drain => cases hrec
  | submit pp body who =>
    obtain ⟨p, text, hr, b, hb, rfl⟩ := mem_writes_submit hrec
    obtain ⟨-, -, hval, hnew⟩ := Engine.registering_spec hr
    obtain ⟨g, hg, -⟩ := (accepted_of_validate hval).graph
    obtain ⟨hl, -⟩ := Engine.register_spec env p text who w.engine hnew
    refine ⟨registered p env.manifests, ?_, ?_, by simp [Engine.submittedRow, parse_plain]⟩
    · change (w.engine.submitPipeline env pp body who).1.sched.schedulers.lookup p.id = _
      rw [Engine.submit_eq, hr]
      exact (hl p.id).trans (if_pos rfl)
    · rw [(registered_queues _ hg).1]
      exact List.mem_map_of_mem hb
  | publish ok =>
    cases ok with
    | false => cases hrec
    | true =>
      dsimp only at hrec
      cases hs : w.sweep with
      | nil =>
        rw [hs] at hrec
        cases hrec
      | cons inv rest =>
        rw [hs] at hrec
        dsimp only at hrec
        split at hrec
        · rename_i hmem
          rw [List.mem_singleton.mp hrec]
          obtain ⟨ps, hps⟩ := GoMap.lookup_of_mem hmem
          have hkeep : (w.step (env, .publish true)).engine.sched = w.engine.sched := by
            simp only [step, hs, Engine.dispatchOne, hps, if_true]
          have hout : (w.step (env, .publish true)).handedOut = w.handedOut := by
            simp only [step, hs, Engine.dispatchOne, hps, if_true]
          refine owns_row hnext (hkeep ▸ hps) (Or.inr (Or.inl ⟨?_, rfl⟩)) rfl rfl rfl
          rw [hout]
          exact hw.sweep inv (by rw [hs]; simp)
        · cases hrec
  | result wr =>
    dsimp only at hrec
    split at hrec
    · rename_i ht
      obtain ⟨-, ps, sched, hps, hs, hl⟩ := update_of_takes ht env.order
      have hlook : (w.step (env, .result wr)).engine.sched.schedulers.lookup wr.pipelineID =
          some (ps.update env.order (workerResultToInvocationResult wr)) := by
        refine ((Engine.taken_spec env wr w.engine ht).1 _).trans ?_
        rw [if_pos rfl, hps, Option.map_some]
      rw [hs] at hrec
      rcases List.mem_cons.mp hrec with rfl | hrec
      · obtain ⟨manifests, t, htr⟩ := hw.tracks _ ps hps
        obtain ⟨inv, hinv, hinvid, hid, -, -⟩ := result_origin hw ha htr
        obtain ⟨b, hb, heq⟩ := (htr.formed.made inv (Or.inr (Or.inl hinv))).1
        refine ⟨_, hlook, ?_, rfl⟩
        rw [(SinglePipelineScheduler.update_static _ _ _).1.1]
        change (parseInvocationIDForScheduler wr.invocationID).1 ∈ _
        rw [hid, heq]
        exact List.mem_map_of_mem hb
      · obtain ⟨-, ps', inv, status, hps', rfl, hq⟩ := mem_collectPending hrec
        rw [hl] at hps'
        cases hps'
        exact owns_row hnext hlook (hq.imp_right Or.inr) rfl rfl rfl
    · cases hrec

end World
end Spade
