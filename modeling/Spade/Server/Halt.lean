import Spade.Server.Callbacks
import Spade.Server.Samples
import Spade.Server.Tracking

set_option autoImplicit false

/-!
# What a halt keeps

An error and a cancel empty both queues and set a flag that no later operation looks
at. The queues stay empty exactly as long as none of the operations that write to them
comes.
-/
namespace Spade
open UUIDPackage
variable [UUIDPackage] [Encoding]

namespace World

def jobsOf (w : World) (pid : UUID) : List Job :=
  w.published.filter fun j => j.assignment.pipelineID = pid

/-- The step leaves nothing of a halted pipeline executable or pending, and publishes
none of its jobs. -/
def HaltKept (w : World) (a : Env × Op) : Prop :=
  ∀ pid ps, w.engine.sched.schedulers.lookup pid = some ps → ps.cancelled = true →
    ∃ ps', (w.step a).engine.sched.schedulers.lookup pid = some ps' ∧ ps'.idle = true ∧
      (w.step a).jobsOf pid = w.jobsOf pid

/-- The step is none that brings a halted pipeline back: a publish in a sweep that was
drained before, or a result that revives its queues. -/
def HaltSafe (w : World) (a : Env × Op) : Prop :=
  match a.2 with
  | .publish _ => ∀ inv ∈ w.sweep.head?,
      ∀ ps ∈ w.engine.sched.schedulers.lookup inv.pipelineId, ps.cancelled = false
  | .result wr => w.engine.takes wr = true →
      ∀ ps ∈ w.engine.sched.schedulers.lookup wr.pipelineID, ps.cancelled = true →
        ps.revives (workerResultToInvocationResult wr) = false
  | _ => True

instance (w : World) (a : Env × Op) : Decidable (w.HaltSafe a) :=
  match a with
  | (_, .submit _ _ _) => isTrue trivial
  | (_, .cancel _) => isTrue trivial
  | (_, .drain) => isTrue trivial
  | (_, .publish _) => inferInstanceAs (Decidable (∀ inv ∈ w.sweep.head?,
      ∀ ps ∈ w.engine.sched.schedulers.lookup inv.pipelineId, ps.cancelled = false))
  | (_, .result wr) => inferInstanceAs (Decidable (w.engine.takes wr = true →
      ∀ ps ∈ w.engine.sched.schedulers.lookup wr.pipelineID, ps.cancelled = true →
        ps.revives (workerResultToInvocationResult wr) = false))

/-- Halted pipelines have empty queues. -/
def HaltClean (w : World) : Prop :=
  ∀ pid ps, w.engine.sched.schedulers.lookup pid = some ps → ps.cancelled = true → ps.idle = true

variable {w : World} {a : Env × Op}

omit [Encoding] in
theorem update_idle {ps : SinglePipelineScheduler} (σ : MapOrder) {r : BlockInvocationResult}
    (hi : ps.idle = true) (hr : ps.revives r = false) : (ps.update σ r).idle = true := by
  by_cases herr : r.status = .error
  · rw [SinglePipelineScheduler.update_error σ ps herr]
    rfl
  · rw [SinglePipelineScheduler.idle_update σ ps herr, hi, hr]
    rfl

/-- An error that is taken and a cancel halt the pipeline. -/
theorem halted_after {pid : UUID} {ps : SinglePipelineScheduler}
    (hps : w.engine.sched.schedulers.lookup pid = some ps)
    (ha : a.2 = .cancel pid ∨ ∃ wr, a.2 = .result wr ∧ wr.pipelineID = pid ∧
      wr.status = .error ∧ w.engine.takes wr = true) :
    ∃ ps', (w.step a).engine.sched.schedulers.lookup pid = some ps' ∧ ps'.cancelled = true ∧
      ps'.idle = true := by
  obtain ⟨env, op⟩ := a
  rcases ha with ha | ⟨wr, ha, rfl, hs, ht⟩ <;> cases ha
  · obtain ⟨hl, -⟩ := Engine.cancel_spec env pid w.engine
    refine ⟨ps.cancelPipeline, ?_, rfl, rfl⟩
    change (w.engine.cancelPipeline env pid).1.sched.schedulers.lookup pid = _
    rw [hl, if_pos rfl, hps, Option.map_some]
  · obtain ⟨hl, -⟩ := Engine.taken_spec env wr w.engine ht
    refine ⟨ps.update env.order (workerResultToInvocationResult wr), ?_, ?_, ?_⟩
    · change (w.engine.applyResult env wr).1.sched.schedulers.lookup wr.pipelineID = _
      rw [hl, if_pos rfl, hps, Option.map_some]
    · rw [SinglePipelineScheduler.update_error env.order ps hs]
    · rw [SinglePipelineScheduler.update_error env.order ps hs]
      rfl

omit [Encoding] in
/-- Only an error or a cancel halts a pipeline, and either empties the queues. -/
theorem Moves.halts {pid : UUID} {ps ps' : SinglePipelineScheduler} (h : w.Moves pid ps a ps')
    (hc : ps.cancelled = false) (hc' : ps'.cancelled = true) : ps'.idle = true := by
  cases h with
  | stay => rw [hc] at hc'; cases hc'
  | cancel => rfl
  | drain => rw [MultiTenantScheduler.emptied, hc] at hc'; cases hc'
  | requeue => rw [hc] at hc'; cases hc'
  | @result env wr =>
    rw [(SinglePipelineScheduler.update_static _ _ _).2.1, hc, Bool.false_or,
      decide_eq_true_eq] at hc'
    rw [SinglePipelineScheduler.update_error env.order ps hc']
    rfl

theorem clean_step (hk : w.HaltKept a) :
    (w.step a).HaltClean := by
  intro pid ps' hps' hc'
  rcases step_lookup w a pid with
    ⟨ps₀, hl, _, _, _, p, _, hreg, _, rfl⟩ | ⟨-, hl⟩ | ⟨ps, ps₀, hl, hl', hm⟩
  · rw [hl] at hps'
    cases hps'
    obtain ⟨g, hg, -⟩ := (accepted_of_validate hreg.valid).graph
    rw [(registered_queues _ hg).2.1] at hc'
    cases hc'
  · rw [hl] at hps'
    cases hps'
  · rw [hl'] at hps'
    cases hps'
    by_cases hc : ps.cancelled = true
    · obtain ⟨ps₁, h₁, hidle, -⟩ := hk pid ps hl hc
      rw [hl'] at h₁
      cases h₁
      exact hidle
    · exact hm.halts (by simpa using hc) hc'

theorem jobsOf_eq {pid : UUID} (h : (w.step a).published = w.published) :
    (w.step a).jobsOf pid = w.jobsOf pid := by
  unfold jobsOf
  rw [h]

/-- In a state in which halted pipelines are clean, one step keeps them so exactly when it is
safe. -/
theorem haltKept_iff (hw : w.Sound) (hclean : w.HaltClean) : w.HaltKept a ↔ w.HaltSafe a := by
  obtain ⟨env, op⟩ := a
  have quiet : ∀ {op : Op}, (∀ ok, op ≠ .publish ok) → (∀ pid ps ps',
      w.engine.sched.schedulers.lookup pid = some ps → ps.cancelled = true → ps.idle = true →
      w.Moves pid ps (env, op) ps' → ps'.idle = true) →
      w.HaltKept (env, op) := by
    intro op hop hmoves pid ps hps hc
    obtain ⟨ps', hps', hm⟩ := moves_of_lookup hw.stored hps
    refine ⟨ps', hps', hmoves pid ps ps' hps hc (hclean pid ps hps hc) hm, jobsOf_eq ?_⟩
    rcases step_published w (env, op) with h | ⟨-, -, -, hpub, -⟩
    · exact h
    · exact absurd hpub (hop true)
  cases op with
  | submit =>
    refine iff_of_true (quiet (fun _ => nofun) ?_) trivial
    intro pid ps ps' _ _ hi hm
    cases hm
    exact hi
  | cancel id =>
    refine iff_of_true (quiet (fun _ => nofun) ?_) trivial
    intro pid ps ps' _ _ hi hm
    cases hm with
    | stay => exact hi
    | cancel => rfl
  | drain =>
    refine iff_of_true (quiet (fun _ => nofun) ?_) trivial
    intro pid ps ps' _ _ hi hm
    cases hm with
    | stay => exact hi
    | drain =>
      rw [SinglePipelineScheduler.idle_iff] at hi ⊢
      exact ⟨hi.1, rfl⟩
  | publish ok =>
    constructor
    · intro hk inv hinv ps hps
      obtain ⟨rest, hs⟩ : ∃ rest, w.sweep = inv :: rest := List.head?_eq_some_iff.mp hinv
      by_contra hc
      obtain ⟨ps', hps', hidle, hjobs⟩ := hk inv.pipelineId ps hps (by simpa using hc)
      cases ok with
      | true =>
        obtain ⟨manifests, t, ht⟩ := hw.tracks _ ps hps
        unfold jobsOf at hjobs
        rw [publish_published hs hps, List.filter_append] at hjobs
        have hlen := congrArg List.length hjobs
        simp [buildJobForInvocation, ht.id] at hlen
      | false =>
        rw [publish_failed hs hps] at hps'
        cases hps'
        rw [SinglePipelineScheduler.not_idle_of_executable (i := inv) (by simp)] at hidle
        cases hidle
    · intro hsafe pid ps hps hc
      have hhead : ∀ inv rest, w.sweep = inv :: rest → inv.pipelineId ≠ pid := by
        rintro inv rest hs rfl
        have hno := hsafe inv (by rw [hs]; rfl) ps hps
        rw [hc] at hno
        cases hno
      obtain ⟨ps', hps', hm⟩ := moves_of_lookup (a := (env, .publish ok)) hw.stored hps
      refine ⟨ps', hps', ?_, ?_⟩
      · cases hm with
        | stay => exact hclean pid ps hps hc
        | requeue hs hp => exact absurd hp (hhead _ _ hs)
      · rcases step_published w (env, .publish ok) with h | ⟨inv, rest, ps₀, -, hs, hl, hpub⟩
        · exact jobsOf_eq h
        · obtain ⟨manifests, t, ht⟩ := hw.tracks _ ps₀ hl
          unfold jobsOf
          rw [hpub, List.filter_append]
          simp [buildJobForInvocation, ht.id, hhead inv rest hs]
  | result wr =>
    constructor
    · intro hk ht ps hps hc
      obtain ⟨ps', hps', hidle, -⟩ := hk wr.pipelineID ps hps hc
      obtain ⟨hl, -⟩ := Engine.taken_spec env wr w.engine ht
      have hafter : ps' = ps.update env.order (workerResultToInvocationResult wr) := by
        change (w.engine.applyResult env wr).1.sched.schedulers.lookup wr.pipelineID = some ps' at hps'
        rw [hl, if_pos rfl, hps, Option.map_some] at hps'
        exact (Option.some.inj hps').symm
      by_cases herr : wr.status = .error
      · unfold SinglePipelineScheduler.revives workerResultToInvocationResult
        rw [herr]
      · rw [hafter, SinglePipelineScheduler.idle_update env.order ps herr, Bool.and_eq_true] at hidle
        simpa using hidle.2
    · intro hsafe
      refine quiet (fun _ => nofun) ?_
      intro pid ps ps' hps hc hi hm
      cases hm with
      | stay => exact hi
      | result ht hp =>
        subst hp
        exact update_idle env.order hi (hsafe ht ps hps hc)

/-- A halt lasts throughout a run exactly when every step of the run is safe for the
pipelines that are halted by then. -/
theorem halt_permanent_iff {ops : List (Env × Op)} (hrun : Runs.Along step Admits {} ops) :
    Runs.Along step HaltKept {} ops ↔ Runs.Along step HaltSafe {} ops := by
  refine Runs.along_iff_along step (I := Sound) (P := HaltClean) sound_step
    (fun _ _ _ _ _ hk => clean_step hk) (fun _ _ hw hc _ => haltKept_iff hw hc)
    linked_empty ?_ hrun
  intro pid ps hps
  simp at hps

end World
end Spade

namespace Spade.World
open Samples Uuid

theorem halt_permanent_chain :
    Runs.Along step HaltKept {} (chainRun ++ [cancel chain, drain]) ↔
      Runs.Along step HaltSafe {} (chainRun ++ [cancel chain, drain]) :=
  halt_permanent_iff (by decide)

/-- A sweep that was drained before the cancel publishes after it. -/
theorem halt_permanent_fails :
    Runs.Along step Admits {} ([submit chain, drain, cancel chain] ++ [publish]) ∧
      ¬Runs.Along step HaltKept {} ([submit chain, drain, cancel chain] ++ [publish]) := by
  refine ⟨by decide, fun h => ?_⟩
  obtain ⟨-, hk, -⟩ := (Runs.along_append step _ _ _ _).mp h
  generalize hrun : Runs.run step {} [submit chain, drain, cancel chain] = w at hk
  have hbad : ∃ e ∈ w.engine.sched.schedulers.items, e.2.cancelled = true ∧
      ((w.step publish).jobsOf e.1).length ≠ (w.jobsOf e.1).length := by
    rw [← hrun]
    decide
  obtain ⟨e, he, hc, hno⟩ := hbad
  obtain ⟨ps', -, -, hjobs⟩ := hk e.1 e.2 ((GoMap.mem_items _ _ _).mp he) hc
  exact hno (congrArg List.length hjobs)

end Spade.World
