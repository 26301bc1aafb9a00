import Spade.Core.Acyclic
import Spade.Server.Crash

set_option autoImplicit false

/-!
# Pipelines that stay running

A running pipeline has a block without a complete row and no row that is an error, until
the result comes that ends it. The row of that result and the status of the pipeline are
two writes, and a crash between them leaves a pipeline that runs with nothing to run.
-/
namespace Spade
open UUIDPackage
variable [UUIDPackage] [Encoding]

namespace World

/-- Every other block of the pipeline has a complete row. -/
def OthersComplete (w : World) (ps : SinglePipelineScheduler) (wr : WorkerResult) : Prop :=
  ∀ b ∈ ps.pipeline.blocks, b.id = (workerResultToInvocationResult wr).id ∨
    w.engine.store.Finishes wr.pipelineID b.id .complete

/-- A pipeline with blocks is stored as a text that reads back, and the last block to
complete leaves nothing in the queues. -/
def RevivalGuard (w : World) (a : Env × Op) : Prop :=
  match a.2 with
  | .submit pp body _ => ∀ x ∈ w.engine.registering a.1 pp body, x.1.blocks ≠ [] ∧
      ∃ p, Encoding.yamlUnmarshal x.2 = some p ∧ p.blocks = x.1.blocks ∧
        (p.id = UUID.nil ∨ p.id = x.1.id)
  | .result wr => w.engine.takes wr = true → w.active wr.pipelineID = true →
      ∀ ps ∈ w.engine.sched.schedulers.lookup wr.pipelineID, wr.status = .complete →
        w.OthersComplete ps wr → ps.idle = true
  | _ => True

/-- The result after which the rows leave nothing to run. -/
def Ends (w : World) (ps : SinglePipelineScheduler) (wr : WorkerResult) : Prop :=
  wr.status = .error ∨ wr.status = .complete ∧ w.OthersComplete ps wr

/-- The crash does not fall between the row of an ending result and the status of the
pipeline, unless another invocation of it is with the workers. -/
def CrashGuard (w : World) (wr : WorkerResult) (k : ℕ) : Prop :=
  w.engine.takes wr = true → w.active wr.pipelineID = true →
    ∀ ps ∈ w.engine.sched.schedulers.lookup wr.pipelineID, w.Ends ps wr →
      k = 0 ∨ 3 ≤ k ∨ ∃ e ∈ w.engine.store.invocations.items, e.1 ≠ wr.invocationID ∧
        e.2.pipelineID = wr.pipelineID ∧ e.2.status = .dispatched

instance (w : World) (ps : SinglePipelineScheduler) (wr : WorkerResult) :
    Decidable (w.OthersComplete ps wr) :=
  inferInstanceAs (Decidable (∀ b ∈ ps.pipeline.blocks, _))

instance (w : World) (ps : SinglePipelineScheduler) (wr : WorkerResult) :
    Decidable (w.Ends ps wr) :=
  inferInstanceAs (Decidable (_ ∨ _))

/-- What holds of a running pipeline with its record and its scheduler. -/
structure Alive (w : World) (pid : UUID) (rec : PipelineRecord) (ps : SinglePipelineScheduler) :
    Prop where
  live : ps.cancelled = false
  ranked : ps.pipeline.Ranked
  body : ∃ p, Encoding.yamlUnmarshal rec.yaml = some p ∧ p.blocks = ps.pipeline.blocks ∧
    (p.id = UUID.nil ∨ p.id = pid)
  clean : ∀ k, ¬w.engine.store.Finishes pid k .error
  unfinished : ∃ b ∈ ps.pipeline.blocks, ¬w.engine.store.Finishes pid b.id .complete

structure Revivable (w : World) : Prop where
  sound : w.Sound
  owned : ∀ key row, w.engine.store.invocations.lookup key = some row → row.id = key ∧ w.Owns row
  records : ∀ pid rec, w.engine.store.pipelines.lookup pid = some rec → rec.id = pid
  alive : ∀ pid rec, w.engine.store.pipelines.lookup pid = some rec → rec.status = .running →
    ∃ ps, w.engine.sched.schedulers.lookup pid = some ps ∧ w.Alive pid rec ps

variable {w : World} {a : Env × Op} {pid k : UUID} {rec : PipelineRecord}
  {ps ps' : SinglePipelineScheduler}

/-! Rows with a result. -/

omit [UUIDPackage] [Encoding] in
theorem statusFromWorker_complete {s : ExecutionStatus} :
    statusFromWorker s = .complete ↔ s = .complete := by
  cases s <;> simp [statusFromWorker]

omit [UUIDPackage] [Encoding] in
theorem statusFromWorker_error {s : ExecutionStatus} :
    statusFromWorker s = .error ↔ s = .error := by
  cases s <;> simp [statusFromWorker]

omit [UUIDPackage] [Encoding] in
theorem finishes_upsertAll {m : MemStore} {status : InvocationStatus}
    (hst : status = .complete ∨ status = .error) {recs : List InvocationRecord}
    (h : (m.upsertAll recs).Finishes pid k status) : m.Finishes pid k status ∨
      ∃ rec ∈ recs, rec.pipelineID = pid ∧ rec.blockID = k ∧ rec.status = status := by
  have hall : m.upsertAll recs = (recs.map StoreWrite.upsert).foldl (MemStore.write 0) m := by
    rw [List.foldl_map]
    rfl
  rw [hall] at h
  rcases MemStore.finishes_foldl hst 0 _ h with h | ⟨rec, hrec, hfin⟩
  · exact .inl h
  · obtain ⟨rec', hrec', heq⟩ := List.mem_map.mp hrec
    cases heq
    exact .inr ⟨rec, hrec', hfin⟩

/-- A result that part of its writes have stored. -/
theorem finishes_crashed {env : Env} {wr : WorkerResult} {n : ℕ} {status : InvocationStatus}
    (hst : status = .complete ∨ status = .error)
    (h : (Engine.crashed env wr n w.engine).Finishes pid k status) :
    w.engine.store.Finishes pid k status ∨ w.engine.takes wr = true ∧ wr.pipelineID = pid ∧
      (workerResultToInvocationResult wr).id = k ∧ statusFromWorker wr.status = status := by
  rcases MemStore.finishes_foldl hst env.now _ h with h | ⟨rec, hrec, hpid, hk, hs⟩
  · exact .inl h
  · obtain ⟨ht, rfl | hready | hpending⟩ := Engine.mem_upsert_applied (List.mem_of_mem_take hrec)
    · exact .inr ⟨ht, hpid, hk, hs⟩
    · rw [hs] at hready
      rcases hst with hst | hst <;> rw [hst] at hready <;> cases hready
    · rw [hs] at hpending
      rcases hst with hst | hst <;> rw [hst] at hpending <;> cases hpending

/-- A step stores no result but the one that it applies. -/
theorem finishes_step {status : InvocationStatus} (hst : status = .complete ∨ status = .error)
    (h : (w.step a).engine.store.Finishes pid k status) :
    w.engine.store.Finishes pid k status ∨ ∃ env wr, a = (env, .result wr) ∧
      w.engine.takes wr = true ∧ wr.pipelineID = pid ∧
      (workerResultToInvocationResult wr).id = k ∧ statusFromWorker wr.status = status := by
  obtain ⟨env, op⟩ := a
  cases op with
  | result wr =>
    have hall : (w.step (env, .result wr)).engine.store =
        Engine.crashed env wr (Engine.appliedWrites env wr w.engine).length w.engine :=
      (Engine.crashed_all le_rfl).symm
    rw [hall] at h
    exact (finishes_crashed hst h).imp_right fun hres => ⟨env, wr, rfl, hres⟩
  | submit pp body who =>
    rw [MemStore.finishes_congr (step_rows w _)] at h
    rcases finishes_upsertAll hst h with h | ⟨rec, hrec, -, -, hs⟩
    · exact .inl h
    · obtain ⟨p, text, -, b, -, rfl⟩ := mem_writes_submit hrec
      have hpending : InvocationStatus.pending = status := hs
      rcases hst with hst | hst <;> rw [hst] at hpending <;> cases hpending
  | publish ok =>
    rw [MemStore.finishes_congr (step_rows w _)] at h
    rcases finishes_upsertAll hst h with h | ⟨rec, hrec, -, -, hs⟩
    · exact .inl h
    · have hdisp : rec.status = .dispatched := by
        cases ok with
        | false => cases hrec
        | true =>
          unfold writes at hrec
          dsimp only at hrec
          split at hrec
          · cases hrec
          · split_ifs at hrec
            · rw [List.mem_singleton] at hrec
              rw [hrec]
              rfl
            · cases hrec
      rw [hdisp] at hs
      rcases hst with hst | hst <;> rw [hst] at hs <;> cases hs
  | cancel id =>
    rw [MemStore.finishes_congr (step_rows w _)] at h
    exact .inl h
  | drain =>
    rw [MemStore.finishes_congr (step_rows w _)] at h
    exact .inl h

/-! The invariant. -/

omit [Encoding] in
/-- A pipeline that the step does not end is not halted. -/
theorem Moves.live (hm : w.Moves pid ps a ps') (hmem : pid ∈ w.engine.store.pipelines)
    (hnot : ∀ st, ¬w.Announces a pid st) (hlive : ps.cancelled = false) : ps'.cancelled = false := by
  cases hm with
  | stay => exact hlive
  | cancel => exact absurd (.cancelled hmem) (hnot .cancelled)
  | drain => exact hlive
  | requeue => exact hlive
  | @result env wr ht hp =>
    subst hp
    have herr : wr.status ≠ .error := fun herr => hnot .failed (.failed ht herr)
    have hstatus : (workerResultToInvocationResult wr).status ≠ .error := herr
    rw [(SinglePipelineScheduler.update_static _ _ _).2.1, hlive]
    simp [hstatus]

theorem alive_registered (hw : w.Revivable) (hg : w.RevivalGuard a) {pp p : Pipeline}
    {body who text : String} (hop : a.2 = .submit pp body who)
    (hx : w.engine.registering a.1 pp body = some (p, text)) :
    (w.step a).engine.sched.schedulers.lookup p.id = some (registered p a.1.manifests) ∧
      (w.step a).Alive p.id (Engine.submittedRecord a.1 p text who)
        (registered p a.1.manifests) := by
  obtain ⟨env, op⟩ := a
  cases hop
  obtain ⟨-, -, hval, hnew⟩ := Engine.registering_spec hx
  obtain ⟨g, hgraph, -⟩ := (accepted_of_validate hval).graph
  obtain ⟨hpipe, hcan, -⟩ := registered_queues env.manifests hgraph
  obtain ⟨hblocks, hread⟩ := hg (p, text) hx
  have hfresh : p.id ∉ w.engine.sched.schedulers := fun h => hnew (hw.sound.stored _ h)
  have hnone : ∀ k status, status = .complete ∨ status = .error →
      ¬(w.step (env, .submit pp body who)).engine.store.Finishes p.id k status := by
    intro k status hst h
    rcases finishes_step hst h with h | ⟨_, _, heq, -⟩
    · obtain ⟨key, row, hl, hpid, -⟩ := MemStore.finishes_iff.mp h
      obtain ⟨ps, hps, -⟩ := (hw.owned key row hl).2
      exact hfresh (hpid ▸ GoMap.mem_of_lookup hps)
    · cases heq
  refine ⟨?_, hcan, ?_, ?_, fun k => hnone k _ (.inr rfl), ?_⟩
  · change (w.engine.submitPipeline env pp body who).1.sched.schedulers.lookup p.id = _
    rw [Engine.submit_eq, hx]
    exact ((Engine.register_spec env p text who w.engine hnew).1 p.id).trans (if_pos rfl)
  · rw [hpipe]
    exact rank_of_validate hval
  · rw [hpipe]
    exact hread
  · rw [hpipe]
    obtain ⟨b, hb⟩ := List.exists_mem_of_ne_nil _ hblocks
    exact ⟨b, hb, hnone b.id _ (.inl rfl)⟩

/-- A Complete result leaves a block without a complete row, or it ends the pipeline. -/
theorem unfinished_complete {env : Env} {wr : WorkerResult} (hg : w.RevivalGuard (env, .result wr))
    (ht : w.engine.takes wr = true) (hact : w.active wr.pipelineID = true)
    (hps : w.engine.sched.schedulers.lookup wr.pipelineID = some ps) (hlive : ps.cancelled = false)
    (hc : wr.status = .complete) : w.Announces (env, .result wr) wr.pipelineID .complete ∨
      ∃ b ∈ ps.pipeline.blocks, b.id ≠ (workerResultToInvocationResult wr).id ∧
        ¬w.engine.store.Finishes wr.pipelineID b.id .complete := by
  by_cases hall : w.OthersComplete ps wr
  · left
    refine (announces_complete_iff ht (by simp [hc]) hps).mpr ⟨hlive, hg ht hact ps hps hc hall, ?_⟩
    simp [SinglePipelineScheduler.revives, workerResultToInvocationResult, hc]
  · right
    unfold OthersComplete at hall
    push Not at hall
    exact hall

theorem Alive.step (h : w.Alive pid rec ps) (hg : w.RevivalGuard a)
    (hps : w.engine.sched.schedulers.lookup pid = some ps)
    (hrec : w.engine.store.pipelines.lookup pid = some rec) (hrun : rec.status = .running)
    (hnot : ∀ st, ¬w.Announces a pid st) (hm : w.Moves pid ps a ps') :
    (w.step a).Alive pid rec ps' := by
  have hmem := GoMap.mem_of_lookup hrec
  have hact : w.active pid = true := active_iff.mpr ⟨rec, hrec, hrun⟩
  refine ⟨hm.live hmem hnot h.live, ?_, ?_, fun k hk => ?_, ?_⟩
  · rw [hm.pipeline]
    exact h.ranked
  · rw [hm.pipeline]
    exact h.body
  · rcases finishes_step (.inr rfl) hk with hk | ⟨env, wr, rfl, ht, rfl, -, hs⟩
    · exact h.clean k hk
    · exact hnot .failed (.failed ht (statusFromWorker_error.mp hs))
  · rw [hm.pipeline]
    obtain ⟨b, hb, hopen⟩ := h.unfinished
    by_cases hend : (w.step a).engine.store.Finishes pid b.id .complete
    · obtain ⟨env, wr, rfl, ht, rfl, hid, hs⟩ := (finishes_step (.inl rfl) hend).resolve_left hopen
      have hc := statusFromWorker_complete.mp hs
      rcases unfinished_complete hg ht hact hps h.live hc with hann | ⟨b', hb', hne, hopen'⟩
      · exact absurd hann (hnot .complete)
      · refine ⟨b', hb', fun hfin => ?_⟩
        obtain ⟨_, _, heq, -, -, hid', -⟩ := (finishes_step (.inl rfl) hfin).resolve_left hopen'
        cases heq
        exact hne hid'.symm
    · exact ⟨b, hb, hend⟩

theorem revivable_step (hw : w.Revivable) (ha : w.Admits a) (hg : w.RevivalGuard a) :
    (w.step a).Revivable := by
  refine ⟨sound_step w a hw.sound ha, owned_step hw.sound ha hw.owned, filed_step hw.records, ?_⟩
  intro pid rec hrec hrun
  rcases running_before hrec hrun with hnone | ⟨hold, hnot⟩
  · obtain ⟨pp, body, who, p, text, hop, hx, rfl, rfl⟩ := record_new hnone hrec
    exact ⟨_, alive_registered hw hg hop hx⟩
  · obtain ⟨ps, hps, h⟩ := hw.alive pid rec hold hrun
    obtain ⟨ps', hps', hm⟩ := moves_of_lookup (a := a) hw.sound.stored hps
    exact ⟨ps', hps', h.step hg hps hold hrun hnot hm⟩

theorem revivable_start : Revivable {} := by
  refine ⟨linked_empty, fun key row hl => ?_, fun pid rec hl => ?_, fun pid rec hl => ?_⟩
  · cases hl
  · cases hl
  · cases hl

end World
end Spade
