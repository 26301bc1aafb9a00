import Spade.Runner.Job
import Spade.Server.Callbacks

set_option autoImplicit false

/-!
# Every job reads back on the worker

Whatever is submitted, cancelled, published and reported, the engine hands out invocations
of the blocks of registered pipelines only, so that the worker makes the same ones of their
jobs.
-/
namespace Spade.World
variable [UUIDPackage] [Encoding] {w : World} {a : Env × Op}

/-- A step hands out nothing, or what it drains. -/
theorem step_handed (w : World) (a : Env × Op) :
    ((w.step a).handedOut = w.handedOut ∧ ∀ inv ∈ (w.step a).sweep, inv ∈ w.sweep) ∨
      ((w.step a).handedOut = w.handedOut ++ w.engine.sched.drain.2 ∧
        (w.step a).sweep = w.engine.sched.drain.2) := by
  obtain ⟨env, op⟩ := a
  cases op with
  | submit p yamlBody submitter => exact .inl ⟨rfl, fun _ h => h⟩
  | cancel id => exact .inl ⟨rfl, fun _ h => h⟩
  | result wr => exact .inl ⟨rfl, fun _ h => h⟩
  | drain =>
    unfold step
    dsimp only
    split
    · exact .inr ⟨rfl, rfl⟩
    · exact .inl ⟨rfl, fun _ h => h⟩
  | publish ok =>
    unfold step
    dsimp only
    split
    · exact .inl ⟨rfl, fun _ h => h⟩
    · rename_i inv rest hsweep
      split
      · exact .inl ⟨rfl, fun i hi => hsweep ▸ List.mem_cons_of_mem inv hi⟩
      · exact .inl ⟨rfl, fun i hi => hsweep ▸ List.mem_cons_of_mem inv hi⟩
      · exact .inl ⟨rfl, fun i hi => absurd hi List.not_mem_nil⟩

/-- The schedulers hold, and have handed out, invocations of the blocks of their pipelines. -/
structure Handing (w : World) : Prop where
  stored : w.Stored
  own : ∀ pid ps, w.engine.sched.schedulers.lookup pid = some ps →
    ps.pipeline.id = pid ∧ ps.Stamped ps.pipeline (BlockInvocation.Made ps.pipeline)
  handed : ∀ inv ∈ w.handedOut, ∃ ps,
    w.engine.sched.schedulers.lookup inv.pipelineId = some ps ∧ inv.Made ps.pipeline
  sweep : ∀ inv ∈ w.sweep, inv ∈ w.handedOut

omit [Encoding] in
theorem Moves.stamped {pid : UUID} {ps ps' : SinglePipelineScheduler} (h : w.Moves pid ps a ps')
    (hw : w.Handing) (hps : w.engine.sched.schedulers.lookup pid = some ps)
    (hst : ps.Stamped ps.pipeline (BlockInvocation.Made ps.pipeline)) :
    ps'.Stamped ps.pipeline (BlockInvocation.Made ps.pipeline) := by
  cases h with
  | stay => exact hst
  | cancel =>
    refine hst.shrink rfl rfl ?_
    rintro inv (hi | ⟨k, hi⟩)
    · cases hi
    · cases hi
  | drain =>
    refine hst.shrink rfl rfl ?_
    rintro inv (hi | hi)
    · cases hi
    · exact hst.queued inv (.inr hi)
  | requeue hs hp =>
    refine hst.shrink rfl rfl ?_
    rintro inv (hi | hi)
    · rcases List.mem_cons.mp hi with rfl | hi
      · obtain ⟨ps₀, hps₀, hmade⟩ := hw.handed inv (hw.sweep inv (hs ▸ List.mem_cons_self))
        rw [hp, hps] at hps₀
        cases hps₀
        exact hmade
      · exact hst.queued inv (.inl hi)
    · exact hst.queued inv (.inr hi)
  | result => exact hst.update (marks_made ps.pipeline) _ _

theorem handing_step (hw : w.Handing) : (w.step a).Handing := by
  have hstays : ∀ inv : BlockInvocation, (∃ ps,
      w.engine.sched.schedulers.lookup inv.pipelineId = some ps ∧ inv.Made ps.pipeline) →
      ∃ ps, (w.step a).engine.sched.schedulers.lookup inv.pipelineId = some ps ∧
        inv.Made ps.pipeline := by
    rintro inv ⟨ps, hps, hmade⟩
    obtain ⟨ps', hps', hm⟩ := moves_of_lookup (a := a) hw.stored hps
    exact ⟨ps', hps', hm.pipeline ▸ hmade⟩
  have hdrained : ∀ inv ∈ w.engine.sched.drain.2, ∃ ps,
      w.engine.sched.schedulers.lookup inv.pipelineId = some ps ∧ inv.Made ps.pipeline := by
    intro inv hi
    obtain ⟨pid, -, ps, hps, hi⟩ := (w.engine.sched.mem_drain inv).mp hi
    obtain ⟨hid, hst⟩ := hw.own pid ps hps
    obtain ⟨⟨b, -, heq⟩, -⟩ := hst.queued inv (.inl hi)
    refine ⟨ps, ?_, hst.queued inv (.inl hi)⟩
    rw [heq]
    exact hid ▸ hps
  refine ⟨stored_step hw.stored, fun pid ps hps => ?_, fun inv hi => ?_, fun inv hi => ?_⟩
  · rcases step_lookup w a pid with
      ⟨ps', hps', _, _, _, p, -, -, hid, rfl⟩ | ⟨-, hn⟩ | ⟨ps₀, ps', hl, hl', hm⟩
    · rw [hps'] at hps
      cases hps
      have hst := (SinglePipelineScheduler.stamped_new (marks_made p)).identify (some a.1.manifests)
      change (registered p a.1.manifests).Stamped p _ at hst
      rw [hst.pipeline]
      exact ⟨hid, hst⟩
    · rw [hn] at hps
      cases hps
    · rw [hl'] at hps
      cases hps
      obtain ⟨hid, hst⟩ := hw.own pid ps₀ hl
      rw [hm.pipeline]
      exact ⟨hid, hm.stamped hw hl hst⟩
  · rcases step_handed w a with ⟨hh, -⟩ | ⟨hh, -⟩
    · exact hstays inv (hw.handed inv (hh ▸ hi))
    · rw [hh] at hi
      rcases List.mem_append.mp hi with hi | hi
      · exact hstays inv (hw.handed inv hi)
      · exact hstays inv (hdrained inv hi)
  · rcases step_handed w a with ⟨hh, hs⟩ | ⟨hh, hs⟩
    · exact hh ▸ hw.sweep inv (hs inv hi)
    · rw [hh]
      exact List.mem_append_right _ (hs ▸ hi)

theorem handing_run (ops : List (Env × Op)) : Runs.Always step Handing {} ops := by
  refine Runs.always_of_along step (Q := fun _ _ => True) (fun _ _ hw _ => handing_step hw) ?_
    (Runs.along_of_prefixes step fun _ _ _ _ => trivial)
  refine ⟨fun pid h => ?_, fun pid ps h => ?_, nofun, nofun⟩
  · cases h
  · cases h

/-- Publishing any invocation that was handed out sends a job that reads back, if the
manifests of the moment accept the pipeline and its blocks have names. -/
theorem jobs_read_back (ops : List (Env × Op)) : Runs.Always step (fun w =>
    ∀ inv ∈ w.handedOut, inv.IntIndex → ∃ ps,
      w.engine.sched.schedulers.lookup inv.pipelineId = some ps ∧
      ∀ env : Env, ∃ job, (w.engine.dispatchOne env true inv).2 = .published job ∧
        job.pipeline = ps.pipeline ∧
        ∀ σ, validatePipeline σ ps.pipeline env.manifests = [] →
          (∀ b ∈ ps.pipeline.blocks, b.name ≠ "") → job.ReadsBack env.manifests inv) {} ops := by
  refine (handing_run ops).mono step fun w hw inv hinv hint => ?_
  obtain ⟨ps, hps, hmade⟩ := hw.handed inv hinv
  refine ⟨ps, hps, fun env => ?_⟩
  unfold Engine.dispatchOne
  rw [hps]
  refine ⟨_, rfl, rfl, fun σ hval hnamed => ?_⟩
  exact readsBack (accepted_of_validate hval) hnamed hmade hint ""

end Spade.World
