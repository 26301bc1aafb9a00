import Spade.Core.Completion
import Spade.Server.Barrier
import Spade.Server.Callbacks

set_option autoImplicit false

/-!
# When a pipeline is announced complete

The engine looks at the two queues and not at what is in flight. Nothing is in
flight then as long as the pipeline has one sink and its expansions have one item.
-/
namespace Spade
open UUIDPackage
variable [UUIDPackage] [Encoding]

namespace World

/-- The step announces the pipeline complete. -/
def Completes (w : World) (a : Env × Op) (pid : UUID) : Prop :=
  ∃ payload : CallbackPayload, payload.status = .complete ∧
    (w.step a).engine.callbacks = w.engine.callbacks ++ [(pid, payload)]

/-- A result that is no error was applied for the invocation. -/
def Succeeded (w : World) (pid : UUID) (invocationID : String) : Prop :=
  ∃ wr ∈ w.applied, wr.pipelineID = pid ∧ wr.status ≠ .error ∧ wr.invocationID = invocationID

instance (w : World) (pid : UUID) (invocationID : String) :
    Decidable (w.Succeeded pid invocationID) :=
  inferInstanceAs (Decidable (∃ wr ∈ w.applied, _))

/-- Every block, every mapped invocation and everything handed out has succeeded. -/
structure AllReported (w : World) (pid : UUID) (ps : SinglePipelineScheduler) : Prop where
  blocks : ∀ b ∈ ps.pipeline.blocks, ∃ wr ∈ w.applied, wr.pipelineID = pid ∧
    wr.status ≠ .error ∧ (workerResultToInvocationResult wr).id = b.id
  mapped : ∀ m ctx n, ps.mapContexts.lookup m = some ctx → w.Expanded pid m n →
    ∀ d ∈ ctx.mappedBlockIDs, ∀ i < n, w.Succeeded pid (string d ++ "." ++ itoa i)
  handedOut : ∀ inv ∈ w.handedOut, inv.pipelineId = pid → w.Succeeded pid inv.invocationID

def CompletionSound (w : World) (a : Env × Op) : Prop :=
  ∀ pid ps, w.Completes a pid → (w.step a).engine.sched.schedulers.lookup pid = some ps →
    (w.step a).AllReported pid ps

/-- No second result of an invocation meets empty queues. -/
def FreshWhenIdle (w : World) (a : Env × Op) : Prop :=
  match a.2 with
  | .result wr => ∀ ps ∈ w.engine.sched.schedulers.lookup wr.pipelineID, ps.idle = true →
      ∀ wr' ∈ w.applied, wr'.pipelineID = wr.pipelineID → wr'.invocationID ≠ wr.invocationID
  | _ => True

instance (w : World) (a : Env × Op) : Decidable (w.FreshWhenIdle a) :=
  match a with
  | (_, .submit _ _ _) => isTrue trivial
  | (_, .cancel _) => isTrue trivial
  | (_, .drain) => isTrue trivial
  | (_, .publish _) => isTrue trivial
  | (_, .result wr) => inferInstanceAs (Decidable
      (∀ ps ∈ w.engine.sched.schedulers.lookup wr.pipelineID, ps.idle = true →
        ∀ wr' ∈ w.applied, wr'.pipelineID = wr.pipelineID → wr'.invocationID ≠ wr.invocationID))

def CompletionGuard (w : World) (a : Env × Op) : Prop :=
  w.ResultGuard SinglePipelineScheduler.completionGuard a ∧ w.FreshWhenIdle a

instance (w : World) (a : Env × Op) : Decidable (w.CompletionGuard a) :=
  inferInstanceAs (Decidable (_ ∧ _))

omit [Encoding] in
theorem guards_completion : Guards Trace.Completing CompletionGuard := by
  rintro w ⟨env, op⟩ wr hg rfl ps manifests t inv hps ht hinv hid
  constructor
  · rw [ht.sched]
    exact hg.1 ps hps
  · intro hidle e he heq
    obtain ⟨wr', hwr', hpid, hinvid, -⟩ := ht.reported e he
    rw [ht.sched] at hidle
    exact hg.2 ps hps hidle wr' hwr' hpid (by rw [hinvid, heq, hid])

/-- Only a result announces completion, and it leaves the queues empty. -/
theorem completes_cases {w : World} {a : Env × Op} {pid : UUID} (h : w.Completes a pid) :
    w.Announces a pid .complete := by
  obtain ⟨payload, hst, hcb⟩ := h
  rcases step_callbacks w a with ⟨pid', status, hann, han⟩ | ⟨-, hq⟩
  · obtain ⟨payload', hst', hcb'⟩ := han.callbacks
    rw [hcb'] at hcb
    have heq := List.append_cancel_left hcb
    simp only [List.cons.injEq, Prod.mk.injEq, and_true] at heq
    rw [heq.1, ← hst', heq.2, hst] at hann
    exact hann
  · rw [hq.callbacks] at hcb
    simp at hcb

omit [Encoding] in
/-- A pipeline whose last result leaves the queues empty has everything reported. -/
theorem Tracks.allReported {w : World} {pid : UUID} {ps : SinglePipelineScheduler}
    {manifests : Manifests} {t : Trace} (htr : w.Tracks Trace.Completing pid ps manifests t)
    (hone : OneSink ps.pipeline) (hcan : ps.cancelled = false)
    (hblocks : ∀ id ∈ ps.pipeline.blockIDs, ∃ e ∈ t.reported, e.1.id = id)
    (hholds : ∀ i, t.Holds i → ∃ e ∈ t.reported, e.1 = i) : w.AllReported pid ps := by
  have hacc := htr.accepted
  have hI := Trace.invariant_of_reachable hacc hone.apart htr.reach
  have hclean := Trace.no_error_of_reachable htr.reach (by rw [htr.sched]; exact hcan)
  have origin : ∀ e ∈ t.reported, ∃ wr ∈ w.applied, wr.pipelineID = pid ∧ wr.status ≠ .error ∧
      wr.invocationID = e.1.invocationID ∧ (workerResultToInvocationResult wr).id = e.1.id := by
    intro e hem
    obtain ⟨wr, hwr, hpid, hinv, heq⟩ := htr.reported e hem
    have hne := hclean e hem
    rw [heq] at hne
    exact ⟨wr, hwr, hpid, hne, hinv, by rw [← heq, (hI.causal.reported e hem).2]⟩
  refine ⟨?_, ?_, ?_⟩
  · intro b hb
    obtain ⟨e, hem, hek⟩ := hblocks b.id (List.mem_map_of_mem hb)
    obtain ⟨wr, hwr, hpid, hne, -, hid⟩ := origin e hem
    exact ⟨wr, hwr, hpid, hne, hid.trans hek⟩
  · intro m ctx n hctx hexp d hd i hi
    rw [← htr.sched] at hctx
    obtain ⟨hk, hmapped, -⟩ := hI.causal.contexts m ctx hctx
    have hdown := (hmapped d).mp hd
    have hfan := htr.fannedOut hk hexp fun e he => (hI.causal.reported e he).2
    have hbound := Trace.single_bound hacc htr.reach
    obtain ⟨e, hem, hek⟩ := hblocks d hdown.mem_blockIDs
    have hheld : t.Holds e.1 := Or.inr (Or.inl (hI.causal.reported e hem).1)
    have hidx : e.1.mapIndex = some (i : Int) := by
      rcases hI.indexing.indexed e.1 hheld with hn | ⟨m', n', j, hj, hlt, hf, hd'⟩
      · exact absurd hn (hI.indexing.spread m n e.1 hfan (hek ▸ hdown) hheld)
      · have h₁ := hbound m' n' hf ⟨_, hd'⟩
        have h₂ := hbound m n hfan ⟨_, hdown⟩
        have hij : j = i := by omega
        rw [hj, hij]
    obtain ⟨wr, hwr, hpid, hne, hinv, -⟩ := origin e hem
    refine ⟨wr, hwr, hpid, hne, ?_⟩
    rw [hinv, BlockInvocation.invocationID, hidx, hek]
  · intro i hi hpid
    obtain ⟨e, hem, rfl⟩ := hholds i (Or.inr (Or.inl ((htr.handed i).mpr ⟨hi, hpid⟩)))
    obtain ⟨wr, hwr, hpid', hne, hinv, -⟩ := origin e hem
    exact ⟨wr, hwr, hpid', hne, hinv⟩

theorem complete_sound {w : World} (hw : w.Linked Trace.Completing)
    (hone : ∀ pid ps, w.engine.sched.schedulers.lookup pid = some ps → OneSink ps.pipeline)
    {a : Env × Op} (hadm : w.Admits a) (hg : w.CompletionGuard a) : w.CompletionSound a := by
  intro pid ps' hc hps'
  have hann := completes_cases hc
  generalize hst : PipelineStatus.complete = status at hann
  cases hann with
  | cancelled => cases hst
  | failed => cases hst
  | @complete env wr ps ht hs hl hcan hi =>
    obtain ⟨manifests, t, htr⟩ := hw.tracks _ ps hl
    obtain ⟨inv, hinv, hinvid, hid, hidx, hok⟩ := result_origin hw hadm htr
    have hq := guards_completion w _ wr hg rfl ps manifests t inv hl htr hinv hinvid
    have hfresh : inv.mapIndex = none → inv.id ∉ t.sched.completedBlocks := by
      rw [htr.sched]
      exact taken_fresh ht hl hid hidx hok
    obtain ⟨hlook, -⟩ := Engine.taken_spec env wr w.engine ht
    have hafter : ps' = ps.update env.order (workerResultToInvocationResult wr) := by
      change (w.engine.applyResult env wr).1.sched.schedulers.lookup wr.pipelineID = some ps' at hps'
      rw [hlook, if_pos rfl, hl, Option.map_some] at hps'
      exact (Option.some.inj hps').symm
    subst hafter
    have htr' := htr.result env ht hl hinv hinvid hid hidx hok hq
    have hpipe : (ps.update env.order (workerResultToInvocationResult wr)).pipeline = ps.pipeline :=
      (SinglePipelineScheduler.update_static _ _ _).1.1
    obtain ⟨hblocks, hholds⟩ := Trace.all_reported htr.accepted (hone _ ps hl) htr.reach hinv hid
      hfresh hq (σ := env.order)
      (by rw [htr'.sched]; exact hi)
      (by rw [htr'.sched]; exact hcan)
    exact htr'.allReported (by rw [hpipe]; exact hone _ ps hl) hcan (by rw [hpipe]; exact hblocks)
      hholds

/-- In a run of pipelines with one sink, with one item per expansion, no `Reduce` result
too early and no second result on empty queues, completion is announced in time. -/
theorem completion_sound {ops : List (Env × Op)} (hone : Submits OneSink ops)
    (hrun : Runs.Along step (fun w a => w.Admits a ∧ w.CompletionGuard a) {} ops) :
    Runs.Along step CompletionSound {} ops := by
  refine Runs.along_of_prefixes step ?_
  rintro l₁ a l₂ rfl
  obtain ⟨hbefore, ⟨hadm, hg⟩, -⟩ := (Runs.along_append step _ _ _ _).mp hrun
  refine complete_sound (linked_run guards_completion hbefore) ?_ hadm hg
  refine registered_run (P := OneSink) (fun p id h => ⟨h.apart, h.distinct, h.sink⟩)
    (fun a ha => hone a (List.mem_append_left _ ha)) ?_
  intro pid ps hps
  simp at hps

end World
end Spade

namespace Spade.World
open Samples Uuid

theorem oneSink_chain : OneSink chain := by
  have hkeys : ∀ a ∈ chain.blocks, ∀ b ∈ chain.blocks,
      newSHA1 a.id (itoa 0) = newSHA1 b.id (itoa 0) → a.id = b.id := by decide +kernel
  refine ⟨keysApart (by decide), fun a ha b hb h => ?_, by decide⟩
  obtain ⟨x, hx, rfl⟩ := List.mem_map.mp ha
  obtain ⟨y, hy, rfl⟩ := List.mem_map.mp hb
  exact hkeys x hx y hy h

theorem completion_sound_chain : Runs.Along step CompletionSound {} chainRun := by
  refine completion_sound (submits_iff.mpr ?_) (by decide)
  have h : submitted chainRun = [chain] := rfl
  rw [h]
  intro p hp
  rw [List.mem_singleton.mp hp]
  exact oneSink_chain

/-- One of two sources is complete while the other one is with a worker. -/
theorem completion_sound_fails :
    Runs.Along step Admits {} ([submit pair, drain, publish, publish] ++ [complete pair 1]) ∧
      ¬Runs.Along step CompletionSound {}
        ([submit pair, drain, publish, publish] ++ [complete pair 1]) := by
  refine ⟨by decide, fun h => ?_⟩
  obtain ⟨-, hs, -⟩ := (Runs.along_append step _ _ _ _).mp h
  generalize hrun : Runs.run step {} [submit pair, drain, publish, publish] = w at hs
  have hbad : ∃ c ∈ (w.step (complete pair 1)).engine.callbacks, c.2.status = .complete ∧
      (w.step (complete pair 1)).engine.callbacks = w.engine.callbacks ++ [c] ∧
      ∃ e ∈ (w.step (complete pair 1)).engine.sched.schedulers.items, e.1 = c.1 ∧
        ∃ inv ∈ (w.step (complete pair 1)).handedOut, inv.pipelineId = c.1 ∧
          ¬(w.step (complete pair 1)).Succeeded c.1 inv.invocationID := by
    rw [← hrun]
    decide
  obtain ⟨c, -, hst, hcb, e, he, hpid, inv, hinv, hinvp, hno⟩ := hbad
  have hall := hs c.1 e.2 ⟨c.2, hst, hcb⟩ (hpid ▸ (GoMap.mem_items _ _ _).mp he)
  exact hno (hall.handedOut inv hinv hinvp)

end Spade.World
