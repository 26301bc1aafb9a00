import Spade.Server.Samples
import Spade.Server.World

set_option autoImplicit false

/-!
# What a dispatch sweep loses

`Drain` empties the queues before the first publish, and the first failure ends the
sweep. Nothing is lost exactly when no publish fails before the last one.
-/
namespace Spade
open UUIDPackage
variable [UUIDPackage]

namespace Engine
open MultiTenantScheduler

omit [UUIDPackage] in
theorem requeue_queued {inv : BlockInvocation} {sched : MultiTenantScheduler}
    {ps : SinglePipelineScheduler} (hl : sched.schedulers.lookup inv.pipelineId = some ps) :
    (requeue inv sched).queued.Perm (inv :: sched.queued) := by
  unfold requeue queued
  rw [hl]
  dsimp only
  rw [queuedIn_insert, List.cons_append]
  exact (queuedIn_lookup hl).symm.cons inv

/-- What one dispatch does to the queues, by its outcome. -/
theorem dispatchOne_cases (env : Env) (ok : Bool) (inv : BlockInvocation) (e : Engine) :
    (inv.pipelineId ∉ e.sched.schedulers ∧ dispatchOne env ok inv e = (e, .skipped)) ∨
    (inv.pipelineId ∈ e.sched.schedulers ∧ ok = true ∧
      ∃ e' job, dispatchOne env ok inv e = (e', .published job) ∧ e'.sched = e.sched) ∨
    (inv.pipelineId ∈ e.sched.schedulers ∧ ok = false ∧
      dispatchOne env ok inv e = ({ e with sched := requeue inv e.sched }, .failed)) := by
  unfold dispatchOne
  cases hl : e.sched.schedulers.lookup inv.pipelineId with
  | none => exact Or.inl ⟨AList.lookup_eq_none.mp hl, rfl⟩
  | some ps =>
    have hmem := GoMap.mem_of_lookup hl
    cases ok with
    | true => exact Or.inr (Or.inl ⟨hmem, rfl, _, _, rfl, rfl⟩)
    | false => exact Or.inr (Or.inr ⟨hmem, rfl, rfl⟩)

/-- A sweep multiplies nothing. -/
theorem dispatchAll_length (env : Env) (outcome : ℕ → Bool) (invs : List BlockInvocation)
    (e : Engine) :
    (dispatchAll env outcome invs e).published.length +
        (dispatchAll env outcome invs e).engine.sched.queued.length ≤
      invs.length + e.sched.queued.length := by
  induction invs generalizing outcome e with
  | nil => exact le_refl _
  | cons inv rest ih =>
    unfold dispatchAll
    rcases dispatchOne_cases env (outcome 0) inv e with
      ⟨-, h⟩ | ⟨-, -, e', job, h, hs⟩ | ⟨hmem, -, h⟩
    · rw [h]
      have := ih outcome e
      simp only [List.length_cons]
      omega
    · rw [h]
      have := ih (fun n => outcome (n + 1)) e'
      rw [hs] at this
      simp only [List.length_cons]
      omega
    · obtain ⟨ps, hl⟩ := GoMap.lookup_of_mem hmem
      rw [h]
      have := (requeue_queued hl).length_eq
      simp only [List.length_cons, List.length_nil] at this ⊢
      omega

/-- The publishes of a list conserve it exactly when all pipelines are known and no publish
before the last one fails. -/
theorem dispatchAll_conserved (env : Env) (outcome : ℕ → Bool) (invs : List BlockInvocation)
    (e : Engine) :
    ((dispatchAll env outcome invs e).published.map Prod.fst ++
        (dispatchAll env outcome invs e).engine.sched.queued).Perm (invs ++ e.sched.queued) ↔
      (∀ inv ∈ invs, inv.pipelineId ∈ e.sched.schedulers) ∧
        ∀ k, k + 1 < invs.length → outcome k = true := by
  induction invs generalizing outcome e with
  | nil => simp [dispatchAll]
  | cons inv rest ih =>
    unfold dispatchAll
    rcases dispatchOne_cases env (outcome 0) inv e with
      ⟨hno, h⟩ | ⟨hmem, hok, e', job, h, hs⟩ | ⟨hmem, hok, h⟩
    · rw [h]
      refine iff_of_false (fun hp => ?_) fun hall => hno (hall.1 inv (by simp))
      have hlen := hp.length_eq
      have hle := dispatchAll_length env outcome rest e
      simp only [List.length_append, List.length_map, List.length_cons] at hlen
      omega
    · rw [h]
      have hih := ih (fun n => outcome (n + 1)) e'
      rw [hs] at hih
      simp only [List.map_cons, List.cons_append, List.perm_cons, hih, List.mem_cons, forall_eq_or_imp,
        hmem, true_and, List.length_cons]
      refine and_congr_right fun _ => ⟨fun hout k hk => ?_, fun hout k hk => hout (k + 1) (by omega)⟩
      cases k with
      | zero => exact hok
      | succ k => exact hout k (by omega)
    · obtain ⟨ps, hl⟩ := GoMap.lookup_of_mem hmem
      rw [h]
      have hp := requeue_queued hl
      constructor
      · intro hall
        have hlen := hall.length_eq
        have hone := hp.length_eq
        simp only [List.map_nil, List.nil_append, List.length_append, List.length_cons] at hlen hone
        have hrest : rest = [] := List.eq_nil_of_length_eq_zero (by omega)
        subst hrest
        refine ⟨fun i hi => ?_, fun k hk => ?_⟩
        · rw [List.mem_singleton.mp hi]
          exact hmem
        · simp at hk
      · rintro ⟨-, hout⟩
        have hrest : rest = [] := by
          by_contra hne
          have hpos := List.length_pos_iff.mpr hne
          rw [hout 0 (by simp only [List.length_cons]; omega)] at hok
          cases hok
        subst hrest
        exact hp

/-- What a sweep puts back goes to the queue of its own pipeline. -/
theorem dispatchAll_own (env : Env) (outcome : ℕ → Bool) (invs : List BlockInvocation) (e : Engine)
    {pid : UUID} {ps : SinglePipelineScheduler}
    (h : (dispatchAll env outcome invs e).engine.sched.schedulers.lookup pid = some ps) :
    ∃ ps₀, e.sched.schedulers.lookup pid = some ps₀ ∧ ∃ back,
      ps = { ps₀ with executableBlocks := back ++ ps₀.executableBlocks } ∧
      ∀ inv ∈ back, inv ∈ invs ∧ inv.pipelineId = pid := by
  induction invs generalizing outcome e with
  | nil => exact ⟨ps, h, [], rfl, nofun⟩
  | cons inv rest ih =>
    have tail : ∀ {e' : Engine} {out : ℕ → Bool}, e'.sched = e.sched →
        (dispatchAll env out rest e').engine.sched.schedulers.lookup pid = some ps →
        ∃ ps₀, e.sched.schedulers.lookup pid = some ps₀ ∧ ∃ back,
          ps = { ps₀ with executableBlocks := back ++ ps₀.executableBlocks } ∧
          ∀ i ∈ back, i ∈ inv :: rest ∧ i.pipelineId = pid := by
      intro e' out hs h
      obtain ⟨ps₀, hl, back, heq, hback⟩ := ih out e' h
      exact ⟨ps₀, hs ▸ hl, back, heq, fun i hi => ⟨by simp [(hback i hi).1], (hback i hi).2⟩⟩
    unfold dispatchAll at h
    rcases dispatchOne_cases env (outcome 0) inv e with
      ⟨-, hd⟩ | ⟨-, -, e', job, hd, hs⟩ | ⟨-, -, hd⟩
    · rw [hd] at h
      exact tail rfl h
    · rw [hd] at h
      exact tail hs h
    · rw [hd] at h
      dsimp only at h
      rw [requeue_lookup] at h
      split at h
      · rename_i hpid
        obtain ⟨ps₀, hl, rfl⟩ := Option.map_eq_some_iff.mp h
        refine ⟨ps₀, hl, [inv], rfl, fun i hi => ?_⟩
        rw [List.mem_singleton.mp hi]
        exact ⟨by simp, hpid.symm⟩
      · exact ⟨ps, h, [], rfl, nofun⟩

/-- Every invocation taken from a queue is published once or back once, in the queue of its
own pipeline, and nothing else is. -/
structure SweepExact (e : Engine) (sweep : Sweep) : Prop where
  conserved : (sweep.published.map Prod.fst ++ sweep.engine.sched.queued).Perm e.sched.queued
  own : ∀ pid ps, sweep.engine.sched.schedulers.lookup pid = some ps →
    ∃ ps₀, e.sched.drain.1.schedulers.lookup pid = some ps₀ ∧ ∃ back,
      ps.executableBlocks = back ++ ps₀.executableBlocks ∧
      ∀ inv ∈ back, inv ∈ e.sched.drain.2 ∧ inv.pipelineId = pid

/-- A sweep is exact exactly when the pipelines of all drained invocations are registered and
every publish but the last succeeds. -/
theorem dispatchSweep_exact_iff (env : Env) (outcome : ℕ → Bool) (e : Engine) :
    SweepExact e (dispatchSweep env outcome e) ↔
      (∀ inv ∈ e.sched.drain.2, inv.pipelineId ∈ e.sched.schedulers) ∧
        ∀ k, k + 1 < e.sched.drain.2.length → outcome k = true := by
  have hreg : ∀ pid, pid ∈ e.sched.drain.1.schedulers ↔ pid ∈ e.sched.schedulers := by
    intro pid
    rw [GoMap.mem_iff_lookup, GoMap.mem_iff_lookup, drain_lookup]
    simp
  have hcons := dispatchAll_conserved env outcome e.sched.drain.2 { e with sched := e.sched.drain.1 }
  simp only [hreg] at hcons
  rw [← hcons]
  constructor
  · exact fun h => h.conserved.trans (drain_queued e.sched).symm
  · intro h
    refine ⟨h.trans (drain_queued e.sched), fun pid ps hps => ?_⟩
    obtain ⟨ps₀, hl, back, rfl, hback⟩ := dispatchAll_own env outcome _ _ hps
    exact ⟨ps₀, hl, back, rfl, hback⟩

end Engine
end Spade

namespace Spade.Engine
open Samples Uuid

/-- The first of two publishes fails, and the second invocation is lost. -/
theorem dispatchSweep_loses :
    ¬SweepExact (World.run {} [submit pair]).engine
      (dispatchSweep env (fun _ => false) (World.run {} [submit pair]).engine) := by
  intro h
  have hlen := h.conserved.length_eq
  revert hlen
  decide

end Spade.Engine

namespace Spade
open UUIDPackage
variable [UUIDPackage]

namespace World
variable [Encoding]

theorem dispatchAll_run (env : Env) (outcome : ℕ → Bool) (w : World) :
    ∃ outs : List Bool, w.run (outs.map fun ok => (env, .publish ok)) = { w with
      engine := (Engine.dispatchAll env outcome w.sweep w.engine).engine
      sweep := []
      published := w.published ++
        (Engine.dispatchAll env outcome w.sweep w.engine).published.map Prod.snd } := by
  obtain ⟨e, invs, handed, pub, applied⟩ := w
  induction invs generalizing outcome e pub with
  | nil => exact ⟨[], by simp [Engine.dispatchAll]⟩
  | cons inv rest ih =>
    dsimp only at ih ⊢
    unfold Engine.dispatchAll
    rcases Engine.dispatchOne_cases env (outcome 0) inv e with
      ⟨-, h⟩ | ⟨-, -, e', job, h, -⟩ | ⟨-, -, h⟩
    · obtain ⟨outs, hrun⟩ := ih outcome e pub
      refine ⟨outcome 0 :: outs, ?_⟩
      rw [h, List.map_cons, run, Runs.run_cons]
      simp only [step, h]
      exact hrun
    · obtain ⟨outs, hrun⟩ := ih (fun n => outcome (n + 1)) e' (pub ++ [job])
      refine ⟨outcome 0 :: outs, ?_⟩
      rw [h, List.map_cons, run, Runs.run_cons]
      simp only [step, h]
      refine hrun.trans ?_
      simp only [List.map_cons, List.append_assoc, List.singleton_append]
    · refine ⟨[outcome 0], ?_⟩
      rw [h, List.map_cons, run, Runs.run_cons]
      simp only [step, h, List.map_nil, Runs.run_nil, List.append_nil]

/-- A sweep of the engine is a `Drain` step and publish steps of the world. -/
theorem dispatchSweep_run (env : Env) (outcome : ℕ → Bool) (w : World) (hs : w.sweep = []) :
    ∃ outs : List Bool, w.run ((env, .drain) :: outs.map fun ok => (env, .publish ok)) = { w with
      engine := (Engine.dispatchSweep env outcome w.engine).engine
      handedOut := w.handedOut ++ w.engine.sched.drain.2
      published := w.published ++
        (Engine.dispatchSweep env outcome w.engine).published.map Prod.snd } := by
  obtain ⟨outs, hrun⟩ := dispatchAll_run env outcome (w.step (env, .drain))
  have hstep : w.step (env, .drain) = { w with
      engine := { w.engine with sched := w.engine.sched.drain.1 }
      sweep := w.engine.sched.drain.2
      handedOut := w.handedOut ++ w.engine.sched.drain.2 } := by
    simp only [step, hs]
  refine ⟨outs, ?_⟩
  rw [run, Runs.run_cons]
  refine hrun.trans ?_
  rw [hstep, ← hs]
  rfl

end World
end Spade
