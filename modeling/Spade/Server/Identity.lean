import Spade.Core.Stamped
import Spade.Server.Callbacks
import Spade.Server.Recovery

set_option autoImplicit false

/-!
# The ids of recovered pipelines

`Recover` registers a pipeline under the id that its stored text carries, and takes the
id of the record only where the text has none.
-/
namespace Spade
open UUIDPackage

variable [UUIDPackage] [Encoding]

/-! The runs of the outbox. -/

structure QueuedRun where
  id : String
  yaml : String
  ownerID : String

inductive SubmitError where
  | parseYAML
  | parseRunID
  | submit (err : EngineError)
  deriving DecidableEq

namespace Engine

/-- The id of the run replaces the one of the text, and the text is stored as it is. -/
def buildSubmitFn (env : Env) (run : QueuedRun) (e : Engine) : Engine × Option SubmitError :=
  match Encoding.yamlUnmarshal run.yaml with
  | none => (e, some .parseYAML)
  | some p =>
    match parse run.id with
    | (_, false) => (e, some .parseRunID)
    | (runUUID, true) =>
      match e.submitPipeline env { p with id := runUUID } run.yaml run.ownerID with
      | (e', none) => (e', none)
      | (e', some .alreadyExists) => (e', none)
      | (e', some err) => (e', some (.submit err))

/-- What the closure does is one submission. -/
theorem buildSubmitFn_step {run : QueuedRun} {p : Pipeline} {id : UUID}
    (hp : Encoding.yamlUnmarshal run.yaml = some p) (hid : parse run.id = (id, true)) (env : Env)
    (w : World) : (buildSubmitFn env run w.engine).1 =
      (w.step (env, .submit { p with id := id } run.yaml run.ownerID)).engine := by
  unfold buildSubmitFn
  rw [hp, hid]
  dsimp only
  change _ = (w.engine.submitPipeline env { p with id := id } run.yaml run.ownerID).1
  split
  all_goals rename_i heq; rw [heq]

/-- A pipeline is registered under its id, hands out invocations that carry it, and has the
results applied that come for it. -/
def Serves (e : Engine) (pid : UUID) : Prop :=
  ∃ ps, e.sched.schedulers.lookup pid = some ps ∧
    (∀ inv ∈ ps.executableBlocks, inv.pipelineId = pid) ∧
    ∀ (env : Env) (wr : WorkerResult), wr.pipelineID = pid →
      e.sched.isAlreadyProcessed wr.invocationID = false →
      (e.applyResult env wr).2 = none ∧
        (e.applyResult env wr).1.sched.schedulers.lookup pid =
          some (ps.update env.order (workerResultToInvocationResult wr))

theorem applyResult_error {e : Engine} {wr : WorkerResult} (h : e.takes wr = true) (env : Env) :
    (e.applyResult env wr).2 = none := by
  obtain ⟨hp, hl⟩ : e.sched.isAlreadyProcessed wr.invocationID = false ∧
      (e.sched.schedulers.lookup wr.pipelineID).isSome = true := by simpa [takes] using h
  obtain ⟨ps, hps⟩ := Option.isSome_iff_exists.mp hl
  obtain ⟨sched, hs⟩ : ∃ sched, e.sched.update env.order (parseInvocationID wr.invocationID).1
      (workerResultToInvocationResult wr) = some sched := by
    unfold MultiTenantScheduler.update
    simp only [workerResultToInvocationResult, hps]
    exact ⟨_, rfl⟩
  unfold applyResult
  rw [hp, hs]
  simp only [Bool.false_eq_true, if_false]
  split_ifs <;> rfl

/-- The record's text has no id, or the record's own. -/
def OwnID (rec : PipelineRecord) : Prop :=
  ∃ body, Encoding.yamlUnmarshal rec.yaml = some body ∧ (body.id = UUID.nil ∨ body.id = rec.id)

/-- No other running record has a text with this record's id. -/
def Unclaimed (m : MemStore) (rec : PipelineRecord) : Prop :=
  ∀ pid rec' p, m.loadPipeline pid = some rec' → rec'.status = .running → rec'.id ≠ rec.id →
    Encoding.yamlUnmarshal rec'.yaml = some p → p.id ≠ rec.id

/-- Of the running records, in the order in which they are loaded, the last one whose text
has this record's id, or none where it is the record's own, reads as this record does. -/
def NamedLast (σ : MapOrder) (m : MemStore) (rec : PipelineRecord) : Prop :=
  ∃ body, Encoding.yamlUnmarshal rec.yaml = some body ∧
    ((m.loadActivePipelinesForRestart σ).filterMap fun ap =>
      (recoveredPipeline ap.1).filter fun p => p.id = rec.id).getLast? =
        some { body with id := rec.id }

/-- `Recover` registers the pipeline of a record under the record's id, and from then on it
is served under that id. -/
def KeepsIdentity (env : Env) (m : MemStore) (rec : PipelineRecord) : Prop :=
  ∃ body ps, Encoding.yamlUnmarshal rec.yaml = some body ∧
    (recover env { store := m }).sched.schedulers.lookup rec.id = some ps ∧
    ps.pipeline = { body with id := rec.id } ∧
    ∀ ops, Runs.Always World.step (fun w => w.engine.Serves rec.id)
      { engine := recover env { store := m } } ops

end Engine

namespace World
variable {w : World} {a : Env × Op} {pid : UUID}

/-- A registered pipeline whose scheduler holds its own invocations. -/
def Serving (pid : UUID) (w : World) : Prop :=
  pid ∈ w.engine.store.pipelines ∧ ∃ p ps, p.id = pid ∧
    w.engine.sched.schedulers.lookup pid = some ps ∧ ps.Stamped p fun inv => inv.pipelineId = p.id

theorem serving_step (h : w.Serving pid) : (w.step a).Serving pid := by
  obtain ⟨hstored, p, ps, hid, hps, hst⟩ := h
  refine ⟨stored_mono hstored, ?_⟩
  rcases step_lookup w a pid with
    ⟨_, -, _, _, _, p', -, hreg, hid', -⟩ | ⟨hl, -⟩ | ⟨ps₀, ps', hl, hl', hm⟩
  · exact absurd hstored (hid' ▸ hreg.fresh)
  · rw [hps] at hl
    cases hl
  · rw [hps] at hl
    cases hl
    refine ⟨p, ps', hid, hl', ?_⟩
    cases hm with
    | stay => exact hst
    | cancel =>
      refine hst.shrink rfl rfl ?_
      rintro inv (hi | ⟨k, hi⟩)
      · cases hi
      · cases hi
    | drain =>
      refine hst.shrink rfl rfl ?_
      rintro inv (hi | hi)
      · cases hi
      · exact hst.queued inv (.inr hi)
    | requeue hs hp =>
      refine hst.shrink rfl rfl ?_
      rintro inv (hi | hi)
      · rcases List.mem_cons.mp hi with rfl | hi
        · exact hp.trans hid.symm
        · exact hst.queued inv (.inl hi)
      · exact hst.queued inv (.inr hi)
    | result => exact hst.update (marks_pipelineId p) _ _

theorem serves_of_serving (h : w.Serving pid) : w.engine.Serves pid := by
  obtain ⟨-, p, ps, hid, hps, hst⟩ := h
  refine ⟨ps, hps, fun inv hi => (hst.queued inv (.inl hi)).trans hid, ?_⟩
  intro env wr hwr hnew
  have ht : w.engine.takes wr = true := by
    rw [Engine.takes, hnew, hwr, hps]
    rfl
  refine ⟨Engine.applyResult_error ht env, ?_⟩
  rw [(Engine.taken_spec env wr _ ht).1, if_pos hwr.symm, hps]
  rfl

theorem serving_run (h : w.Serving pid) (ops : List (Env × Op)) :
    Runs.Always step (fun w => w.engine.Serves pid) w ops := by
  refine (Runs.always_of_along step (P := Serving pid) (Q := fun _ _ => True)
    (fun _ _ hw _ => serving_step hw) h ?_).mono step fun _ hw => serves_of_serving hw
  exact Runs.along_of_prefixes step fun _ _ _ _ => trivial

end World

namespace Engine
variable {m : MemStore} {rec : PipelineRecord}

omit [Encoding] in
theorem recovered_stamped (env : Env) (p : Pipeline) (results : List BlockInvocationResult) :
    (recovered env p results).Stamped p fun inv => inv.pipelineId = p.id :=
  ((SinglePipelineScheduler.stamped_new (marks_pipelineId p)).foldl_replay (marks_pipelineId p)
    env.order results).identify (some env.manifests)

theorem recover_lookup (env : Env) (m : MemStore) (pid : UUID) :
    (recover env { store := m }).sched.schedulers.lookup pid =
      (((m.loadActivePipelinesForRestart env.order).filterMap (recoveredAs pid)).getLast?).map
        fun x => recovered env x.1 x.2 := by
  unfold recover
  dsimp only
  rw [foldl_recoverOne_lookup]
  cases ((m.loadActivePipelinesForRestart env.order).filterMap (recoveredAs pid)).getLast? <;> rfl

theorem keepsIdentity_iff (env : Env) (hrec : rec.id ∈ m.pipelines) :
    KeepsIdentity env m rec ↔ NamedLast env.order m rec := by
  have hnames : ((m.loadActivePipelinesForRestart env.order).filterMap fun ap =>
      (recoveredPipeline ap.1).filter fun p => p.id = rec.id) =
      ((m.loadActivePipelinesForRestart env.order).filterMap (recoveredAs rec.id)).map Prod.fst := by
    rw [List.map_filterMap]
    refine List.filterMap_congr fun ap _ => ?_
    rw [recoveredAs, Option.map_map]
    exact Option.map_id'.symm
  unfold NamedLast
  rw [hnames, List.getLast?_map]
  constructor
  · rintro ⟨body, ps, hbody, hps, hp, -⟩
    refine ⟨body, hbody, ?_⟩
    rw [recover_lookup] at hps
    obtain ⟨⟨p, results⟩, hx, rfl⟩ := Option.map_eq_some_iff.mp hps
    rw [hx, Option.map_some, ← hp, (recovered_stamped env p results).pipeline]
  · rintro ⟨body, hbody, hx⟩
    obtain ⟨⟨p, results⟩, hx, hp⟩ := Option.map_eq_some_iff.mp hx
    have hps := recover_lookup env m rec.id
    rw [hx, Option.map_some] at hps
    have hst := recovered_stamped env p results
    refine ⟨body, _, hbody, hps, hst.pipeline.trans hp, World.serving_run ⟨hrec, p, _, ?_, hps, hst⟩⟩
    rw [show p = _ from hp]

omit [UUIDPackage] in
theorem namedLast_iff (σ : MapOrder) (hfiled : World.Filed m) {pid : UUID}
    (hrec : m.loadPipeline pid = some rec) (hrun : rec.status = .running)
    (hun : Unclaimed m rec) : NamedLast σ m rec ↔ OwnID rec := by
  have hone : ((m.loadActivePipelinesForRestart σ).filterMap fun ap =>
      (recoveredPipeline ap.1).filter fun p => p.id = rec.id) =
      ((recoveredPipeline rec).filter fun p => p.id = rec.id).toList := by
    refine filterMap_keyed (a := (rec, m.loadInvocations rec.id)) (loadActive_ids σ hfiled)
      ((mem_loadActive σ).mpr ⟨⟨pid, hrec⟩, hrun, rfl⟩) fun ap hap hne => ?_
    obtain ⟨⟨pid', hrec'⟩, hrun', -⟩ := (mem_loadActive σ).mp hap
    unfold recoveredPipeline
    cases hp : Encoding.yamlUnmarshal ap.1.yaml with
    | none => rfl
    | some p =>
      have hother := hun pid' ap.1 p hrec' hrun' hne hp
      rw [Option.map_some, Option.filter_some, if_neg]
      by_cases hnil : p.id = UUID.nil
      · simpa [hnil] using hne
      · simpa [hnil] using hother
  unfold NamedLast OwnID
  rw [hone, recoveredPipeline]
  refine exists_congr fun body => and_congr_right fun hbody => ?_
  rw [hbody, Option.map_some, Option.filter_some]
  by_cases hnil : body.id = UUID.nil
  · simp [hnil]
  · by_cases hown : body.id = rec.id
    · simp [hnil, ← hown]
    · simp [hnil, hown]

end Engine

namespace World

/-- A step of the engine or a restart, with what is stored. -/
def live (w : World) (a : Env × Option Op) : World :=
  match a.2 with
  | some op => w.step (a.1, op)
  | none => { engine := Engine.recover a.1 { store := w.engine.store } }

theorem filed_live (ops : List (Env × Option Op)) :
    Runs.Always live (fun w => Filed w.engine.store) {} ops := by
  refine Runs.always_of_along live (Q := fun _ _ => True) ?_ ?_
    (Runs.along_of_prefixes live fun _ _ _ _ => trivial)
  · rintro w ⟨env, op⟩ hw -
    cases op with
    | some op => exact filed_step hw
    | none => exact hw
  · intro pid rec hrec
    cases hrec

/-- At any time, a running pipeline keeps its identity over a restart if and only if its
record is the last of the running ones to read as that pipeline. Where no other record
claims the id, that is if its text has no other. -/
theorem keeps_identity (ops : List (Env × Option Op)) : Runs.Always live (fun w =>
    ∀ (env : Env) pid rec, w.engine.store.loadPipeline pid = some rec → rec.status = .running →
      (Engine.KeepsIdentity env w.engine.store rec ↔
        Engine.NamedLast env.order w.engine.store rec) ∧
      (Engine.Unclaimed w.engine.store rec →
        (Engine.NamedLast env.order w.engine.store rec ↔ Engine.OwnID rec))) {} ops := by
  refine (filed_live ops).mono live fun w hw env pid rec hrec hrun => ⟨?_, fun hun => ?_⟩
  · refine Engine.keepsIdentity_iff env ?_
    rw [hw pid rec hrec]
    exact GoMap.mem_of_lookup hrec
  · exact Engine.namedLast_iff env.order hw hrec hrun hun

end World
end Spade

namespace Spade.World
open Samples Uuid

/-- The run is submitted under its own id, and recovered under that of its text. -/
theorem keeps_identity_fails :
    (Engine.buildSubmitFn env ⟨string (pipelineID 10), yamlText pair, "user"⟩ {}).2 = none ∧
      ¬Runs.Always live (fun w => ∀ env pid rec, w.engine.store.loadPipeline pid = some rec →
        rec.status = .running → Engine.KeepsIdentity env w.engine.store rec) {}
        [(env, some (.submit { pair with id := pipelineID 10 } (yamlText pair) "user"))] := by
  refine ⟨by decide +kernel, fun h => ?_⟩
  have hw := h.last
  generalize hrun : Runs.run live {}
    [(env, some (.submit { pair with id := pipelineID 10 } (yamlText pair) "user"))] = w at hw
  have hbad : ∃ r ∈ w.engine.store.pipelines.items, r.2.status = .running ∧
      r.2.id ∉ (Engine.recover env { store := w.engine.store }).sched.schedulers.keys := by
    rw [← hrun]
    decide +kernel
  obtain ⟨r, hr, hrunning, hbad⟩ := hbad
  obtain ⟨-, ps, -, hps, -⟩ := hw env r.1 r.2 ((GoMap.mem_items _ _ _).mp hr) hrunning
  exact hbad (AList.mem_keys.mp (GoMap.mem_of_lookup hps))

end Spade.World
