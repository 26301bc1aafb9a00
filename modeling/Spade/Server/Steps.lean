import Spade.Core.Update
import Spade.Server.World

set_option autoImplicit false

/-! # What a step of the engine can do to one scheduler -/
namespace Spade
open UUIDPackage
variable [UUIDPackage] [Encoding]

namespace World

/-- The moves of one registered scheduler. -/
inductive Moves (w : World) (pid : UUID) (ps : SinglePipelineScheduler) :
    Env × Op → SinglePipelineScheduler → Prop where
  | stay {a : Env × Op} : Moves w pid ps a ps
  | cancel {env : Env} : Moves w pid ps (env, .cancel pid) ps.cancelPipeline
  | drain {env : Env} (hs : w.sweep = []) (hp : pid ∈ w.engine.sched.pipelineOrder) :
      Moves w pid ps (env, .drain) (MultiTenantScheduler.emptied ps)
  | requeue {env : Env} {inv : BlockInvocation} {rest : List BlockInvocation}
      (hs : w.sweep = inv :: rest) (hp : inv.pipelineId = pid) :
      Moves w pid ps (env, .publish false)
        { ps with executableBlocks := inv :: ps.executableBlocks }
  | result {env : Env} {wr : WorkerResult} (ht : w.engine.takes wr = true)
      (hp : wr.pipelineID = pid) : Moves w pid ps (env, .result wr)
        (ps.update env.order (workerResultToInvocationResult wr))

/-- A submission that goes through. -/
structure Registers (w : World) (env : Env) (pp p : Pipeline) : Prop where
  submitted : Engine.submittedPipeline env pp = some p
  valid : validatePipeline env.order p env.manifests = []
  fresh : p.id ∉ w.engine.store.pipelines

theorem step_lookup (w : World) (a : Env × Op) (pid : UUID) :
    (∃ ps', (w.step a).engine.sched.schedulers.lookup pid = some ps' ∧
      ∃ pp body who p, a.2 = .submit pp body who ∧ w.Registers a.1 pp p ∧ p.id = pid ∧
        ps' = registered p a.1.manifests) ∨
    (w.engine.sched.schedulers.lookup pid = none ∧
      (w.step a).engine.sched.schedulers.lookup pid = none) ∨
    ∃ ps ps', w.engine.sched.schedulers.lookup pid = some ps ∧
      (w.step a).engine.sched.schedulers.lookup pid = some ps' ∧ w.Moves pid ps a ps' := by
  have same : ∀ {m : GoMap UUID SinglePipelineScheduler},
      m.lookup pid = w.engine.sched.schedulers.lookup pid →
      (w.engine.sched.schedulers.lookup pid = none ∧ m.lookup pid = none) ∨
        ∃ ps ps', w.engine.sched.schedulers.lookup pid = some ps ∧ m.lookup pid = some ps' ∧
          w.Moves pid ps a ps' := by
    intro m hm
    cases hl : w.engine.sched.schedulers.lookup pid with
    | none => exact Or.inl ⟨rfl, hm.trans hl⟩
    | some ps => exact Or.inr ⟨ps, ps, rfl, hm.trans hl, .stay⟩
  have moved : ∀ {m : GoMap UUID SinglePipelineScheduler}
      {f : SinglePipelineScheduler → SinglePipelineScheduler},
      m.lookup pid = (w.engine.sched.schedulers.lookup pid).map f →
      (∀ ps, w.Moves pid ps a (f ps)) →
      (w.engine.sched.schedulers.lookup pid = none ∧ m.lookup pid = none) ∨
        ∃ ps ps', w.engine.sched.schedulers.lookup pid = some ps ∧ m.lookup pid = some ps' ∧
          w.Moves pid ps a ps' := by
    intro m f hm hf
    cases hl : w.engine.sched.schedulers.lookup pid with
    | none => exact Or.inl ⟨rfl, by rw [hm, hl, Option.map_none]⟩
    | some ps => exact Or.inr ⟨ps, f ps, rfl, by rw [hm, hl, Option.map_some], hf ps⟩
  obtain ⟨env, op⟩ := a
  cases op with
  | submit pp body who =>
    change _ ∨ _
    unfold step
    dsimp only
    rcases Engine.submit_cases env pp body who w.engine with heq | ⟨p, b, hp, hval, hnew, heq⟩
    · rw [heq]
      exact Or.inr (same rfl)
    · obtain ⟨hl, -⟩ := Engine.register_spec env p b who w.engine hnew
      rw [heq]
      by_cases hpid : pid = p.id
      · exact Or.inl ⟨_, by rw [hl, if_pos hpid], pp, body, who, p, rfl, ⟨hp, hval, hnew⟩,
          hpid.symm, rfl⟩
      · exact Or.inr (same (by rw [hl, if_neg hpid]))
  | cancel id =>
    refine Or.inr ?_
    obtain ⟨hl, -⟩ := Engine.cancel_spec env id w.engine
    by_cases hpid : pid = id
    · subst hpid
      exact moved (by rw [step, hl, if_pos rfl]) fun ps => .cancel
    · exact same (by rw [step, hl, if_neg hpid])
  | drain =>
    refine Or.inr ?_
    unfold step
    dsimp only
    split
    · rename_i hs
      by_cases hin : pid ∈ w.engine.sched.pipelineOrder
      · exact moved (by simp only [MultiTenantScheduler.drain_lookup, hin, if_true])
          fun ps => .drain hs hin
      · exact same (by simp only [MultiTenantScheduler.drain_lookup, hin, if_false, Option.map_id'])
    · exact same rfl
  | publish ok =>
    refine Or.inr ?_
    unfold step
    dsimp only
    split
    · exact same rfl
    · rename_i inv rest hs
      unfold Engine.dispatchOne
      cases hl : w.engine.sched.schedulers.lookup inv.pipelineId with
      | none => exact same rfl
      | some ps =>
        cases ok with
        | true => exact same rfl
        | false =>
          have hq := Engine.requeue_lookup inv w.engine.sched pid
          by_cases hpid : pid = inv.pipelineId
          · rw [if_pos hpid] at hq
            exact moved hq fun ps => .requeue hs hpid.symm
          · rw [if_neg hpid] at hq
            exact same hq
  | result wr =>
    refine Or.inr ?_
    unfold step
    dsimp only
    by_cases ht : w.engine.takes wr = true
    · obtain ⟨hl, -⟩ := Engine.taken_spec env wr w.engine ht
      by_cases hpid : pid = wr.pipelineID
      · exact moved (by rw [hl, if_pos hpid]) fun ps => .result ht hpid.symm
      · exact same (by rw [hl, if_neg hpid])
    · have hf : w.engine.takes wr = false := by simpa using ht
      exact same (by rw [Engine.dropped_spec env wr w.engine hf])

omit [Encoding] in
theorem Moves.pipeline {w : World} {pid : UUID} {ps ps' : SinglePipelineScheduler} {a : Env × Op}
    (h : w.Moves pid ps a ps') : ps'.pipeline = ps.pipeline := by
  cases h with
  | result => exact (SinglePipelineScheduler.update_static _ _ _).1.1
  | _ => rfl

/-- Jobs are published by successful publish steps only. -/
theorem step_published (w : World) (a : Env × Op) : (w.step a).published = w.published ∨
    ∃ inv rest ps, a.2 = .publish true ∧ w.sweep = inv :: rest ∧
      w.engine.sched.schedulers.lookup inv.pipelineId = some ps ∧
      (w.step a).published = w.published ++ [buildJobForInvocation inv ps.pipeline
        (dispatchManifests a.1.manifests ps.pipeline inv) ""] := by
  obtain ⟨env, op⟩ := a
  unfold step
  cases op with
  | submit => exact Or.inl rfl
  | cancel => exact Or.inl rfl
  | drain =>
    refine Or.inl ?_
    dsimp only
    split <;> rfl
  | publish ok =>
    dsimp only
    split
    · exact Or.inl rfl
    · rename_i inv rest hs
      unfold Engine.dispatchOne
      cases hl : w.engine.sched.schedulers.lookup inv.pipelineId with
      | none => exact Or.inl rfl
      | some ps =>
        cases ok with
        | true => exact Or.inr ⟨inv, rest, ps, rfl, hs, hl, rfl⟩
        | false => exact Or.inl rfl
  | result => exact Or.inl rfl

theorem publish_published {w : World} {env : Env} {inv : BlockInvocation}
    {rest : List BlockInvocation} {ps : SinglePipelineScheduler} (hs : w.sweep = inv :: rest)
    (hl : w.engine.sched.schedulers.lookup inv.pipelineId = some ps) :
    (w.step (env, .publish true)).published = w.published ++ [buildJobForInvocation inv ps.pipeline
      (dispatchManifests env.manifests ps.pipeline inv) ""] := by
  simp only [step, hs, Engine.dispatchOne, hl, if_true]

theorem publish_failed {w : World} {env : Env} {inv : BlockInvocation}
    {rest : List BlockInvocation} {ps : SinglePipelineScheduler} (hs : w.sweep = inv :: rest)
    (hl : w.engine.sched.schedulers.lookup inv.pipelineId = some ps) :
    (w.step (env, .publish false)).engine.sched.schedulers.lookup inv.pipelineId =
      some { ps with executableBlocks := inv :: ps.executableBlocks } := by
  have hq := Engine.requeue_lookup inv w.engine.sched inv.pipelineId
  rw [if_pos rfl, hl, Option.map_some] at hq
  simp only [step, hs, Engine.dispatchOne, hl, Bool.false_eq_true, if_false]
  exact hq

omit [UUIDPackage] [Encoding] in
theorem submitted_eq {env : Env} {pp p : Pipeline} (h : Engine.submittedPipeline env pp = some p) :
    p = { pp with id := p.id } := by
  unfold Engine.submittedPipeline at h
  split at h
  · obtain ⟨id, -, rfl⟩ := Option.map_eq_some_iff.mp h
    rfl
  · cases h
    rfl

/-- All submitted pipelines have a property. -/
def Submits (P : Pipeline → Prop) (ops : List (Env × Op)) : Prop :=
  ∀ a ∈ ops, ∀ pp body who, a.2 = .submit pp body who → P pp

/-- A property of submitted pipelines that does not depend on their id holds of the registered
ones. -/
theorem registered_run {P : Pipeline → Prop} (hid : ∀ p id, P p → P { p with id := id })
    {ops : List (Env × Op)} (hops : Submits P ops) {w : World}
    (hw : ∀ pid ps, w.engine.sched.schedulers.lookup pid = some ps → P ps.pipeline) :
    ∀ pid ps, (w.run ops).engine.sched.schedulers.lookup pid = some ps → P ps.pipeline := by
  induction ops generalizing w with
  | nil => exact hw
  | cons a ops ih =>
    refine ih (fun b hb => hops b (by simp [hb])) ?_
    intro pid ps hps
    rcases step_lookup w a pid with
      ⟨ps', hl, pp, body, who, p, hop, hreg, -, rfl⟩ | ⟨-, hl⟩ | ⟨ps₀, ps', hl₀, hl, hm⟩
    · rw [hl] at hps
      cases hps
      obtain ⟨g, hg, -⟩ := (accepted_of_validate hreg.valid).graph
      rw [(registered_queues _ hg).1, submitted_eq hreg.submitted]
      exact hid _ _ (hops a (by simp) pp body who hop)
    · rw [hl] at hps
      cases hps
    · rw [hl] at hps
      cases hps
      rw [hm.pipeline]
      exact hw pid ps₀ hl₀

end World
end Spade
