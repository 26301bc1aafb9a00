import Spade.Core.Formed
import Spade.Server.World

set_option autoImplicit false

/-!
# Every pipeline of a world follows a trace

Whatever the engine does to all pipelines, what happens to one of them is a
reachable trace of its scheduler.
-/
namespace Spade
open UUIDPackage
variable [UUIDPackage] [Encoding]

namespace World

/-- The history of pipeline `pid` in the world is the trace `t`. -/
structure Tracks (Q : Trace → BlockInvocation → BlockInvocationResult → Prop) (w : World)
    (pid : UUID) (ps : SinglePipelineScheduler) (manifests : Manifests) (t : Trace) : Prop where
  accepted : Accepted ps.pipeline manifests
  reach : Trace.Reachable ps.pipeline manifests Q t
  sched : t.sched = ps
  id : ps.pipeline.id = pid
  handed : ∀ inv, inv ∈ t.handedOut ↔ inv ∈ w.handedOut ∧ inv.pipelineId = pid
  reported : ∀ e ∈ t.reported, ∃ wr ∈ w.applied, wr.pipelineID = pid ∧
    wr.invocationID = e.1.invocationID ∧ e.2 = workerResultToInvocationResult wr
  applied : ∀ wr ∈ w.applied, wr.pipelineID = pid →
    ∃ e ∈ t.reported, e.1.invocationID = wr.invocationID ∧ e.2 = workerResultToInvocationResult wr

structure Linked (Q : Trace → BlockInvocation → BlockInvocationResult → Prop) (w : World) :
    Prop where
  tracks : ∀ pid ps, w.engine.sched.schedulers.lookup pid = some ps →
    ∃ manifests t, w.Tracks Q pid ps manifests t
  stored : ∀ pid ∈ w.engine.sched.schedulers, pid ∈ w.engine.store.pipelines
  handed : ∀ inv ∈ w.handedOut, inv.pipelineId ∈ w.engine.sched.schedulers
  applied : ∀ wr ∈ w.applied, wr.pipelineID ∈ w.engine.sched.schedulers
  sweep : ∀ inv ∈ w.sweep, inv ∈ w.handedOut
  published : ∀ j ∈ w.published, ∃ inv ∈ w.handedOut,
    j.assignment.invocationID = inv.invocationID ∧ j.assignment.pipelineID = inv.pipelineId

variable {Q : Trace → BlockInvocation → BlockInvocationResult → Prop} {w w' : World}

omit [Encoding] in
theorem Tracks.formed {pid : UUID} {ps : SinglePipelineScheduler} {manifests : Manifests} {t : Trace}
    (h : w.Tracks Q pid ps manifests t) : t.Formed ps.pipeline manifests :=
  Trace.formed_of_reachable h.accepted h.reach

omit [Encoding] in
/-- The scheduler moves on while nothing new is handed out or applied. -/
theorem Tracks.move {pid : UUID} {ps ps' : SinglePipelineScheduler} {manifests : Manifests}
    {t t' : Trace} (h : w.Tracks Q pid ps manifests t) (hp : ps'.pipeline = ps.pipeline)
    (hr : Trace.Reachable ps.pipeline manifests Q t') (hs : t'.sched = ps')
    (hh : t'.handedOut = t.handedOut) (hrep : t'.reported = t.reported)
    (hw : w'.handedOut = w.handedOut) (ha : w'.applied = w.applied) :
    w'.Tracks Q pid ps' manifests t' :=
  ⟨hp ▸ h.accepted, hp ▸ hr, hs, hp ▸ h.id, by rw [hh, hw]; exact h.handed,
    by rw [hrep, ha]; exact h.reported, by rw [hrep, ha]; exact h.applied⟩

omit [Encoding] in
theorem Tracks.stay {pid : UUID} {ps : SinglePipelineScheduler} {manifests : Manifests} {t : Trace}
    (h : w.Tracks Q pid ps manifests t) (hw : w'.handedOut = w.handedOut)
    (ha : w'.applied = w.applied) : w'.Tracks Q pid ps manifests t :=
  h.move rfl h.reach h.sched rfl rfl hw ha

omit [UUIDPackage] [Encoding] in
theorem mem_schedulers_of_lookup {m m' : GoMap UUID SinglePipelineScheduler} {a : UUID}
    {f : SinglePipelineScheduler → SinglePipelineScheduler}
    (h : ∀ k, m'.lookup k = if k = a then (m.lookup k).map f else m.lookup k) (k : UUID) :
    k ∈ m' ↔ k ∈ m := by
  rw [GoMap.mem_iff_lookup, GoMap.mem_iff_lookup, h]
  by_cases hk : k = a <;> simp [hk]

theorem linked_submit (hw : w.Linked Q) (env : Env) (p : Pipeline) (yamlBody submitter : String) :
    (w.step (env, .submit p yamlBody submitter)).Linked Q := by
  change Linked Q { w with engine := (w.engine.submitPipeline env p yamlBody submitter).1 }
  rcases Engine.submit_cases env p yamlBody submitter w.engine with
    heq | ⟨p', body, -, hval, hnew, heq⟩
  · rw [heq]
    exact hw
  · obtain ⟨hl, hst, -⟩ := Engine.register_spec env p' body submitter w.engine hnew
    rw [heq]
    have hmem : ∀ k, k ∈ (Engine.registerPipeline env p' body submitter w.engine).1.sched.schedulers ↔
        k = p'.id ∨ k ∈ w.engine.sched.schedulers := by
      intro k
      rw [GoMap.mem_iff_lookup, GoMap.mem_iff_lookup, hl]
      by_cases hk : k = p'.id <;> simp [hk]
    have hfresh : p'.id ∉ w.engine.sched.schedulers := fun h => hnew (hw.stored _ h)
    refine ⟨?_, ?_, fun inv h => (hmem _).mpr (Or.inr (hw.handed inv h)),
      fun wr h => (hmem _).mpr (Or.inr (hw.applied wr h)), hw.sweep, hw.published⟩
    · intro pid ps hps
      rw [hl] at hps
      split at hps
      · rename_i hpid
        have hacc := accepted_of_validate hval
        obtain ⟨g, hg, -⟩ := hacc.graph
        have hpipe : (registered p' env.manifests).pipeline = p' := (registered_queues _ hg).1
        cases hps
        refine ⟨env.manifests, Trace.start p' env.manifests, ?_⟩
        refine ⟨by rwa [hpipe], by rw [hpipe]; exact .start, rfl, by rw [hpipe, hpid], ?_,
          fun _ h => absurd h List.not_mem_nil, ?_⟩
        · intro inv
          refine ⟨fun h => absurd h List.not_mem_nil, fun ⟨h, hi⟩ => ?_⟩
          exact absurd (hpid ▸ hi ▸ hw.handed inv h) hfresh
        · intro wr h hi
          exact absurd (hpid ▸ hi ▸ hw.applied wr h) hfresh
      · obtain ⟨manifests, t, ht⟩ := hw.tracks pid ps hps
        exact ⟨manifests, t, ht.stay rfl rfl⟩
    · intro pid h
      rw [hst]
      exact ((hmem pid).mp h).imp_right (hw.stored pid)

theorem linked_cancel (hw : w.Linked Q) (env : Env) (id : UUID) :
    (w.step (env, .cancel id)).Linked Q := by
  change Linked Q { w with engine := (w.engine.cancelPipeline env id).1 }
  obtain ⟨hl, hst⟩ := Engine.cancel_spec env id w.engine
  have hmem := mem_schedulers_of_lookup hl
  refine ⟨?_, fun pid h => (hst pid).mpr (hw.stored pid ((hmem pid).mp h)),
    fun inv h => (hmem _).mpr (hw.handed inv h), fun wr h => (hmem _).mpr (hw.applied wr h),
    hw.sweep, hw.published⟩
  intro pid ps hps
  rw [hl] at hps
  split at hps
  · obtain ⟨ps₀, hps₀, rfl⟩ := Option.map_eq_some_iff.mp hps
    obtain ⟨manifests, t, ht⟩ := hw.tracks pid ps₀ hps₀
    refine ⟨manifests, t.cancel, ht.move rfl ht.reach.cancel ?_ rfl rfl rfl rfl⟩
    rw [Trace.cancel, ht.sched]
  · obtain ⟨manifests, t, ht⟩ := hw.tracks pid ps hps
    exact ⟨manifests, t, ht.stay rfl rfl⟩

theorem linked_drain (hw : w.Linked Q) (env : Env) : (w.step (env, .drain)).Linked Q := by
  unfold step
  dsimp only
  split
  · have hl := w.engine.sched.drain_lookup
    have hmem : ∀ k, k ∈ w.engine.sched.drain.1.schedulers ↔ k ∈ w.engine.sched.schedulers := by
      intro k
      rw [GoMap.mem_iff_lookup, GoMap.mem_iff_lookup, hl]
      simp
    have hown : ∀ pid ps, w.engine.sched.schedulers.lookup pid = some ps →
        ∀ inv ∈ ps.executableBlocks, inv.pipelineId = pid := by
      intro pid ps hps inv hi
      obtain ⟨manifests, t, ht⟩ := hw.tracks pid ps hps
      obtain ⟨⟨b, -, heq⟩, -⟩ := ht.formed.made inv (Or.inl (ht.sched ▸ hi))
      rw [heq]
      exact ht.id
    refine ⟨?_, fun pid h => hw.stored pid ((hmem pid).mp h), ?_,
      fun wr h => (hmem _).mpr (hw.applied wr h), fun inv h => List.mem_append_right _ h, ?_⟩
    · intro pid ps hps
      rw [hl] at hps
      obtain ⟨ps₀, hps₀, heq⟩ := Option.map_eq_some_iff.mp hps
      obtain ⟨manifests, t, ht⟩ := hw.tracks pid ps₀ hps₀
      split at heq
      · rename_i hin
        subst heq
        refine ⟨manifests, t.handOut, ht.accepted, ht.reach.handOut, ?_, ht.id, ?_, ht.reported,
          ht.applied⟩
        · rw [Trace.handOut, ht.sched, MultiTenantScheduler.emptied]
        · intro inv
          rw [Trace.handOut, List.mem_append, List.mem_append, ht.handed, ht.sched, or_and_right,
            MultiTenantScheduler.mem_drain]
          refine or_congr_right ⟨fun h => ⟨⟨pid, hin, ps₀, hps₀, h⟩, hown pid ps₀ hps₀ inv h⟩, ?_⟩
          rintro ⟨⟨pid', -, ps', hps', h⟩, hi⟩
          have hpid : pid' = pid := (hown pid' ps' hps' inv h).symm.trans hi
          subst hpid
          rw [hps₀] at hps'
          cases hps'
          exact h
      · rename_i hin
        subst heq
        refine ⟨manifests, t, ht.accepted, ht.reach, ht.sched, ht.id, ?_, ht.reported, ht.applied⟩
        intro inv
        rw [ht.handed, List.mem_append, or_and_right, MultiTenantScheduler.mem_drain]
        refine ⟨Or.inl, fun h => h.resolve_right ?_⟩
        rintro ⟨⟨pid', hin', ps', hps', h⟩, hi⟩
        exact hin ((hown pid' ps' hps' inv h).symm.trans hi ▸ hin')
    · intro inv h
      rw [hmem]
      rcases List.mem_append.mp h with h | h
      · exact hw.handed inv h
      · obtain ⟨pid, -, ps, hps, hi⟩ := (w.engine.sched.mem_drain inv).mp h
        rw [hown pid ps hps inv hi]
        exact GoMap.mem_of_lookup hps
    · intro j hj
      obtain ⟨inv, hi, h⟩ := hw.published j hj
      exact ⟨inv, List.mem_append_left _ hi, h⟩
  · exact hw

theorem linked_publish (hw : w.Linked Q) (env : Env) (ok : Bool) :
    (w.step (env, .publish ok)).Linked Q := by
  unfold step
  dsimp only
  split
  · exact hw
  · rename_i inv rest hsweep
    have hin : ∀ i ∈ rest, i ∈ w.handedOut := fun i hi => hw.sweep i (by rw [hsweep]; simp [hi])
    have hhead : inv ∈ w.handedOut := hw.sweep inv (by rw [hsweep]; simp)
    unfold Engine.dispatchOne
    cases hl : w.engine.sched.schedulers.lookup inv.pipelineId with
    | none => exact ⟨fun pid ps hps => by
        obtain ⟨manifests, t, ht⟩ := hw.tracks pid ps hps
        exact ⟨manifests, t, ht.stay rfl rfl⟩, hw.stored, hw.handed, hw.applied, hin, hw.published⟩
    | some ps =>
      cases ok with
      | true =>
        simp only [if_true]
        refine ⟨fun pid ps hps => ?_, ?_, hw.handed, hw.applied, hin, ?_⟩
        · obtain ⟨manifests, t, ht⟩ := hw.tracks pid ps hps
          exact ⟨manifests, t, ht.stay rfl rfl⟩
        · intro pid h
          rw [MemStore.appendEvent_pipelines, MemStore.upsertInvocation_pipelines]
          exact hw.stored pid h
        · intro j hj
          rcases List.mem_append.mp hj with hj | hj
          · exact hw.published j hj
          · obtain ⟨manifests, t, ht⟩ := hw.tracks _ ps hl
            rw [List.mem_singleton.mp hj]
            exact ⟨inv, hhead, rfl, ht.id⟩
      | false =>
        simp only [Bool.false_eq_true, if_false]
        have hq := Engine.requeue_lookup inv w.engine.sched
        have hmem := mem_schedulers_of_lookup hq
        refine ⟨?_, fun pid h => hw.stored pid ((hmem pid).mp h),
          fun i h => (hmem _).mpr (hw.handed i h), fun wr h => (hmem _).mpr (hw.applied wr h),
          fun _ h => absurd h List.not_mem_nil, hw.published⟩
        intro pid ps' hps'
        rw [hq] at hps'
        split at hps'
        · rename_i hpid
          obtain ⟨ps₀, hps₀, rfl⟩ := Option.map_eq_some_iff.mp hps'
          obtain ⟨manifests, t, ht⟩ := hw.tracks pid ps₀ hps₀
          refine ⟨manifests, t.requeue inv, ht.move rfl
            (ht.reach.requeue ((ht.handed inv).mpr ⟨hhead, hpid.symm⟩)) ?_ rfl rfl rfl rfl⟩
          rw [Trace.requeue, ht.sched]
        · obtain ⟨manifests, t, ht⟩ := hw.tracks pid ps' hps'
          exact ⟨manifests, t, ht.stay rfl rfl⟩

omit [Encoding] in
/-- The invocation that a result of a published job is for. -/
theorem result_origin (hw : w.Linked Q) {wr : WorkerResult} (hd : w.Dispatched wr)
    {ps : SinglePipelineScheduler} {manifests : Manifests} {t : Trace}
    (ht : w.Tracks Q wr.pipelineID ps manifests t) :
    ∃ inv ∈ t.handedOut, inv.invocationID = wr.invocationID ∧
      (parseInvocationIDForScheduler wr.invocationID).1 = inv.id ∧
      ((parseInvocationIDForScheduler wr.invocationID).2.1 = none ↔ inv.mapIndex = none) ∧
      (parseInvocationIDForScheduler wr.invocationID).2.2 = true := by
  obtain ⟨j, hj, hid, hpid⟩ := hd
  obtain ⟨inv, hinv, hji, hjp⟩ := hw.published j hj
  have hmem : inv ∈ t.handedOut := (ht.handed inv).mpr ⟨hinv, hjp.symm.trans hpid⟩
  have hidx := (ht.formed.made inv (Or.inr (Or.inl hmem))).2
  have hinvid : inv.invocationID = wr.invocationID := hji.symm.trans hid
  rw [← hinvid]
  exact ⟨inv, hmem, rfl, parse_invocationID inv hidx⟩

omit [Encoding] in
/-- A result of a block's own invocation is taken only while the block is not completed. -/
theorem taken_fresh {wr : WorkerResult} (h : w.engine.takes wr = true) {ps : SinglePipelineScheduler}
    {pid : UUID} (hps : w.engine.sched.schedulers.lookup pid = some ps) {inv : BlockInvocation}
    (hid : (parseInvocationIDForScheduler wr.invocationID).1 = inv.id)
    (hidx : (parseInvocationIDForScheduler wr.invocationID).2.1 = none ↔ inv.mapIndex = none)
    (hok : (parseInvocationIDForScheduler wr.invocationID).2.2 = true)
    (hn : inv.mapIndex = none) : inv.id ∉ ps.completedBlocks := by
  have hparse : parseInvocationIDForScheduler wr.invocationID = (inv.id, none, true) := by
    rw [← hid, ← hidx.mpr hn, ← hok]
  intro hc
  have hp := (MultiTenantScheduler.isAlreadyProcessed_iff hparse).mpr ⟨pid, ps, hps, hc⟩
  simp [Engine.takes, hp] at h

omit [Encoding] in
theorem takes_registered {wr : WorkerResult} (h : w.engine.takes wr = true) :
    wr.pipelineID ∈ w.engine.sched.schedulers := by
  unfold Engine.takes at h
  simp only [Bool.and_eq_true] at h
  exact AList.lookup_isSome.mp h.2

theorem applied_result (env : Env) {wr : WorkerResult} (h : w.engine.takes wr = true) :
    (w.step (env, .result wr)).applied = w.applied ++ [wr] := by
  unfold step
  dsimp only
  rw [if_pos h]

/-- A result that is taken is a report on the trace of its pipeline. -/
theorem Tracks.result (env : Env) {wr : WorkerResult} (ht : w.engine.takes wr = true)
    {ps : SinglePipelineScheduler} {manifests : Manifests} {t : Trace}
    (hps : w.engine.sched.schedulers.lookup wr.pipelineID = some ps)
    (htr : w.Tracks Q wr.pipelineID ps manifests t) {inv : BlockInvocation}
    (hinv : inv ∈ t.handedOut) (hinvid : inv.invocationID = wr.invocationID)
    (hid : (parseInvocationIDForScheduler wr.invocationID).1 = inv.id)
    (hidx : (parseInvocationIDForScheduler wr.invocationID).2.1 = none ↔ inv.mapIndex = none)
    (hok : (parseInvocationIDForScheduler wr.invocationID).2.2 = true)
    (hq : Q t inv (workerResultToInvocationResult wr)) :
    (w.step (env, .result wr)).Tracks Q wr.pipelineID
      (ps.update env.order (workerResultToInvocationResult wr)) manifests
      (t.report env.order inv (workerResultToInvocationResult wr)) := by
  have hpipe : (ps.update env.order (workerResultToInvocationResult wr)).pipeline = ps.pipeline :=
    (SinglePipelineScheduler.update_static _ _ _).1.1
  refine ⟨hpipe ▸ htr.accepted, ?_, ?_, hpipe ▸ htr.id, htr.handed, ?_, ?_⟩
  · rw [hpipe]
    refine htr.reach.report hinv hid ?_ hq
    rw [htr.sched]
    exact taken_fresh ht hps hid hidx hok
  · rw [Trace.report, htr.sched]
  · intro e he
    rw [applied_result env ht]
    rcases List.mem_append.mp he with he | he
    · obtain ⟨wr', hwr', h⟩ := htr.reported e he
      exact ⟨wr', List.mem_append_left _ hwr', h⟩
    · rw [List.mem_singleton.mp he]
      exact ⟨wr, by simp, rfl, hinvid.symm, rfl⟩
  · intro wr' hwr' hpid'
    rw [applied_result env ht] at hwr'
    rcases List.mem_append.mp hwr' with hwr' | hwr'
    · obtain ⟨e, he, h⟩ := htr.applied wr' hwr' hpid'
      exact ⟨e, List.mem_append_left _ he, h⟩
    · rw [List.mem_singleton.mp hwr']
      exact ⟨(inv, workerResultToInvocationResult wr), by simp [Trace.report], hinvid, rfl⟩

theorem linked_result (hw : w.Linked Q) (env : Env) (wr : WorkerResult) (hd : w.Dispatched wr)
    (hQ : ∀ ps manifests t inv, w.engine.sched.schedulers.lookup wr.pipelineID = some ps →
      w.Tracks Q wr.pipelineID ps manifests t → inv ∈ t.handedOut →
      inv.invocationID = wr.invocationID → Q t inv (workerResultToInvocationResult wr)) :
    (w.step (env, .result wr)).Linked Q := by
  by_cases ht : w.engine.takes wr = true
  · obtain ⟨hl, hst⟩ := Engine.taken_spec env wr w.engine ht
    have hmem := mem_schedulers_of_lookup hl
    refine ⟨?_, fun pid h => (hst pid).mpr (hw.stored pid ((hmem pid).mp h)),
      fun i h => (hmem _).mpr (hw.handed i h), ?_, hw.sweep, hw.published⟩
    · intro pid ps' hps'
      change (w.engine.applyResult env wr).1.sched.schedulers.lookup pid = some ps' at hps'
      rw [hl] at hps'
      split at hps'
      · rename_i hpid
        obtain ⟨ps, hps, rfl⟩ := Option.map_eq_some_iff.mp hps'
        subst hpid
        obtain ⟨manifests, t, htr⟩ := hw.tracks _ ps hps
        obtain ⟨inv, hinv, hinvid, hid, hidx, hok⟩ := result_origin hw hd htr
        exact ⟨manifests, _, htr.result env ht hps hinv hinvid hid hidx hok
          (hQ ps manifests t inv hps htr hinv hinvid)⟩
      · rename_i hpid
        obtain ⟨manifests, t, htr⟩ := hw.tracks pid ps' hps'
        refine ⟨manifests, t, htr.accepted, htr.reach, htr.sched, htr.id, htr.handed, ?_, ?_⟩
        · intro e he
          obtain ⟨wr', hwr', h⟩ := htr.reported e he
          rw [applied_result env ht]
          exact ⟨wr', List.mem_append_left _ hwr', h⟩
        · intro wr' hwr' hpid'
          rw [applied_result env ht] at hwr'
          rcases List.mem_append.mp hwr' with hwr' | hwr'
          · exact htr.applied wr' hwr' hpid'
          · rw [List.mem_singleton.mp hwr'] at hpid'
            exact absurd hpid'.symm hpid
    · intro wr' hwr'
      rw [applied_result env ht] at hwr'
      refine (hmem _).mpr ?_
      rcases List.mem_append.mp hwr' with hwr' | hwr'
      · exact hw.applied wr' hwr'
      · rw [List.mem_singleton.mp hwr']
        exact takes_registered ht
  · have hf : w.engine.takes wr = false := by simpa using ht
    unfold step
    dsimp only
    rw [if_neg ht, Engine.dropped_spec env wr w.engine hf]
    exact hw

omit [Encoding] in
theorem linked_empty : Linked Q ({} : World) := by
  have none : ∀ {A : Type} {P : A → Prop}, ∀ a ∈ ([] : List A), P a :=
    fun _ h => absurd h List.not_mem_nil
  refine ⟨fun pid ps h => ?_, fun pid h => ?_, none, none, none, none⟩
  · simp at h
  · exact absurd h (AList.notMem_empty pid)

/-- A guard on results that carries over to the trace of the pipeline. -/
def Guards (Q : Trace → BlockInvocation → BlockInvocationResult → Prop)
    (G : World → Env × Op → Prop) : Prop :=
  ∀ w a wr, G w a → a.2 = .result wr → ∀ ps manifests t inv,
    w.engine.sched.schedulers.lookup wr.pipelineID = some ps →
    w.Tracks Q wr.pipelineID ps manifests t → inv ∈ t.handedOut →
    inv.invocationID = wr.invocationID → Q t inv (workerResultToInvocationResult wr)

/-- One step of any kind. -/
theorem linked_step {G : World → Env × Op → Prop} (hG : Guards Q G) (hw : w.Linked Q)
    (a : Env × Op) (ha : w.Admits a) (hg : G w a) : (w.step a).Linked Q := by
  obtain ⟨env, op⟩ := a
  cases op with
  | submit p yamlBody submitter => exact linked_submit hw env p yamlBody submitter
  | cancel id => exact linked_cancel hw env id
  | drain => exact linked_drain hw env
  | publish ok => exact linked_publish hw env ok
  | result wr => exact linked_result hw env wr ha (hG w _ wr hg rfl)

/-- In a run every pipeline follows a reachable trace throughout. -/
theorem linked_run {G : World → Env × Op → Prop} (hG : Guards Q G) {ops : List (Env × Op)}
    (hrun : Runs.Along step (fun w a => w.Admits a ∧ G w a) {} ops) :
    (run {} ops).Linked Q :=
  Runs.invariant step (P := Linked Q) (fun _ a hw h => linked_step hG hw a h.1 h.2) linked_empty hrun

abbrev Sound (w : World) : Prop := w.Linked fun _ _ _ => True

theorem sound_step (w : World) (a : Env × Op) (hw : w.Sound) (ha : w.Admits a) :
    (w.step a).Sound :=
  linked_step (G := fun _ _ => True) (fun _ _ _ _ _ _ _ _ _ _ _ _ _ => trivial) hw a ha trivial

theorem sound_run {ops : List (Env × Op)} (hrun : Runs.Along step Admits {} ops) :
    (run {} ops).Sound :=
  Runs.invariant step (P := Sound) (fun w a => sound_step w a) linked_empty hrun

end World
end Spade
