import Spade.Server.Samples
import Spade.Server.Views

set_option autoImplicit false

/-!
# Isolation of pipelines

A step of another pipeline goes the same way with and without `q`, and a step of `q`
changes nothing of the others.
-/
namespace Spade
open UUIDPackage
variable [UUIDPackage] [Encoding]

namespace World
variable {q : UUID} {w v : World} {a : Env × Op}

/-! The steps of the other pipelines. -/

theorem move_submit (h : Hides q w v) {env : Env} {pp : Pipeline} {body who : String}
    (ht : touches q w (env, .submit pp body who) = false) :
    HidesState q (w.step (env, .submit pp body who)) (v.step (env, .submit pp body who)) := by
  have hne : ∀ p, Engine.submittedPipeline env pp = some p → p.id ≠ q := fun p hp hq => by
    simp [touches, hp, hq] at ht
  have hreg := registering_hides h body hne
  unfold step
  dsimp only
  rw [Engine.submit_eq, Engine.submit_eq, hreg]
  cases hx : w.engine.registering env pp body with
  | none => exact h.toHidesState
  | some x =>
    obtain ⟨p, text⟩ := x
    obtain ⟨hp, -, -, hw⟩ := Engine.registering_spec hx
    obtain ⟨-, -, -, hv⟩ := Engine.registering_spec (hreg.trans hx)
    have hpq := hne p hp
    refine ⟨?_, ?_, h.sweep, ?_, h.published⟩
    · exact h.scheds.both (f := fun _ => some (registered p env.manifests)) hpq
        (Engine.register_spec env p text who w.engine hw).1
        (Engine.register_spec env p text who v.engine hv).1
    · dsimp only
      rw [Engine.register_order _ _ _ _ _ hw, Engine.register_order _ _ _ _ _ hv, h.order,
        List.filter_append, List.filter_cons_of_pos (by simpa using hpq), List.filter_nil]
    · dsimp only
      rw [Engine.register_records _ _ _ _ _ hw, Engine.register_records _ _ _ _ _ hv]
      exact h.records.both (f := fun _ => some (Engine.submittedRecord env p text who)) hpq
        (fun k => GoMap.lookup_insert_if _ _ _ _) fun k => GoMap.lookup_insert_if _ _ _ _

theorem move_cancel (h : Hides q w v) {env : Env} {id : UUID}
    (ht : touches q w (env, .cancel id) = false) :
    HidesState q (w.step (env, .cancel id)) (v.step (env, .cancel id)) := by
  have hne : id ≠ q := by simpa [touches] using ht
  refine ⟨?_, ?_, h.sweep, ?_, h.published⟩
  · exact h.scheds.both (f := Option.map SinglePipelineScheduler.cancelPipeline) hne
      (Engine.cancel_spec env id w.engine).1 (Engine.cancel_spec env id v.engine).1
  · unfold step
    dsimp only
    rw [Engine.cancel_order, Engine.cancel_order, h.order, List.erase_filter]
    simp only [h.scheds.mem hne]
    split_ifs <;> rfl
  · unfold step
    dsimp only
    rw [Engine.cancel_records, Engine.cancel_records]
    exact h.records.both hne (MemStore.updatePipelineStatus_lookup env.now id .cancelled w.engine.store)
      (MemStore.updatePipelineStatus_lookup env.now id .cancelled v.engine.store)

theorem move_drain (hw : w.Sound) (h : Hides q w v) {env : Env}
    (ht : touches q w (env, .drain) = false) :
    HidesState q (w.step (env, .drain)) (v.step (env, .drain)) := by
  have hs : w.sweep = [] := by simpa [touches] using ht
  have hs' : v.sweep = [] := by rw [h.sweep, hs, List.filter_nil]
  have hout : v.engine.sched.drain.2 =
      w.engine.sched.drain.2.filter fun inv => inv.pipelineId ≠ q := by
    unfold MultiTenantScheduler.drain
    dsimp only
    rw [h.order]
    exact MultiTenantScheduler.foldl_drainOne_hides
      (fun k ps hps inv hinv => (made_of_sound hw hps (Or.inl hinv)).1) h.scheds rfl
  unfold step
  dsimp only
  rw [hs, hs']
  refine ⟨fun k => ?_, ?_, hout, h.records, h.published⟩
  · dsimp only
    rw [MultiTenantScheduler.drain_lookup, MultiTenantScheduler.drain_lookup, h.scheds, h.order]
    by_cases hk : k = q
    · rw [if_pos hk, if_pos hk, Option.map_none]
    · simp [hk]
  · exact h.order

theorem move_publish (hw : w.Sound) (h : Hides q w v) {env : Env} {ok : Bool}
    (ht : touches q w (env, .publish ok) = false) :
    HidesState q (w.step (env, .publish ok)) (v.step (env, .publish ok)) := by
  cases hs : w.sweep with
  | nil =>
    have hs' : v.sweep = [] := by rw [h.sweep, hs, List.filter_nil]
    unfold step
    dsimp only
    rw [hs, hs']
    exact h.toHidesState
  | cons inv rest =>
    have hne : inv.pipelineId ≠ q := by simpa [touches, hs] using ht
    have hs' : v.sweep = inv :: rest.filter fun inv => inv.pipelineId ≠ q := by
      rw [h.sweep, hs, List.filter_cons_of_pos (by simpa using hne)]
    have hl := h.scheds.lookup hne
    unfold step
    dsimp only
    rw [hs, hs']
    dsimp only
    unfold Engine.dispatchOne
    rw [hl]
    cases hps : w.engine.sched.schedulers.lookup inv.pipelineId with
    | none => exact ⟨h.scheds, h.order, rfl, h.records, h.published⟩
    | some ps =>
      cases ok with
      | true =>
        have hpid : ps.pipeline.id = inv.pipelineId := by
          obtain ⟨manifests, t, htr⟩ := hw.tracks _ ps hps
          exact htr.id
        refine ⟨h.scheds, h.order, rfl, ?_, ?_⟩
        · simpa using h.records
        · simp only [if_true]
          rw [List.filter_append, h.published, List.filter_cons_of_pos, List.filter_nil]
          simpa [buildJobForInvocation, hpid] using hne
      | false =>
        refine ⟨?_, ?_, rfl, h.records, h.published⟩
        · exact h.scheds.both (f := Option.map fun ps =>
            { ps with executableBlocks := inv :: ps.executableBlocks }) hne
            (Engine.requeue_lookup inv w.engine.sched) (Engine.requeue_lookup inv v.engine.sched)
        · dsimp only
          simp only [Bool.false_eq_true, if_false, Engine.requeue_order, h.order]

theorem move_result (h : Hides q w v) {env : Env} {wr : WorkerResult}
    (hg : w.IsolationGuard q (env, .result wr)) (ht : touches q w (env, .result wr) = false) :
    HidesState q (w.step (env, .result wr)) (v.step (env, .result wr)) := by
  have hne : wr.pipelineID ≠ q := by simpa [touches] using ht
  have htk := takes_hides h hne hg
  refine ⟨?_, ?_, h.sweep, ?_, h.published⟩
  · unfold step
    dsimp only
    cases hw : w.engine.takes wr with
    | false =>
      rw [Engine.dropped_spec env wr _ hw, Engine.dropped_spec env wr _ (htk.trans hw)]
      exact h.scheds
    | true =>
      exact h.scheds.both hne (Engine.taken_spec env wr _ hw).1
        (Engine.taken_spec env wr _ (htk.trans hw)).1
  · unfold step
    dsimp only
    rw [Engine.result_order, Engine.result_order, h.order]
  · rcases result_callbacks w env wr with ⟨pid, st, han, hw⟩ | ⟨hno, -, hw⟩
    · rcases result_callbacks v env wr with ⟨pid', st', han', hv⟩ | ⟨hno', -⟩
      · obtain ⟨rfl, rfl⟩ := announces_unique ((announces_hides h hne htk).mp han') han
        refine h.records.both ?_ hw.records hv.records
        cases han <;> exact hne
      · exact absurd ((announces_hides h hne htk).mpr han) (hno' pid st)
    · rcases result_callbacks v env wr with ⟨pid', st', han', -⟩ | ⟨-, -, hv⟩
      · exact absurd ((announces_hides h hne htk).mp han') (hno pid' st')
      · rw [hw, hv]
        exact h.records

/-! The steps of `q`. -/

theorem stutter_submit (h : Hides q w v) {env : Env} {pp : Pipeline} {body who : String}
    (ht : touches q w (env, .submit pp body who) = true) :
    HidesState q (w.step (env, .submit pp body who)) v := by
  unfold step
  dsimp only
  rw [Engine.submit_eq]
  cases hx : w.engine.registering env pp body with
  | none => exact h.toHidesState
  | some x =>
    obtain ⟨p, text⟩ := x
    obtain ⟨hp, -, -, hw⟩ := Engine.registering_spec hx
    obtain rfl : p.id = q := by simpa [touches, hp] using ht
    refine ⟨?_, ?_, h.sweep, ?_, h.published⟩
    · exact h.scheds.left (f := fun _ => some (registered p env.manifests))
        (Engine.register_spec env p text who w.engine hw).1
    · dsimp only
      rw [Engine.register_order _ _ _ _ _ hw, List.filter_append,
        List.filter_cons_of_neg (by simp), List.filter_nil, List.append_nil, h.order]
    · dsimp only
      rw [Engine.register_records _ _ _ _ _ hw]
      exact h.records.left (f := fun _ => some (Engine.submittedRecord env p text who))
        fun k => GoMap.lookup_insert_if _ _ _ _

theorem stutter_cancel (h : Hides q w v) {env : Env} {id : UUID}
    (ht : touches q w (env, .cancel id) = true) :
    HidesState q (w.step (env, .cancel id)) v := by
  obtain rfl : id = q := by simpa [touches] using ht
  refine ⟨?_, ?_, h.sweep, ?_, h.published⟩
  · exact h.scheds.left (f := Option.map SinglePipelineScheduler.cancelPipeline)
      (Engine.cancel_spec env id w.engine).1
  · unfold step
    dsimp only
    rw [Engine.cancel_order, h.order]
    split_ifs
    · rw [← List.erase_filter, List.erase_of_not_mem (by simp)]
    · rfl
  · unfold step
    dsimp only
    rw [Engine.cancel_records]
    exact h.records.left (MemStore.updatePipelineStatus_lookup env.now id .cancelled w.engine.store)

theorem stutter_drain (h : Hides q w v) {env : Env} (ht : touches q w (env, .drain) = true) :
    HidesState q (w.step (env, .drain)) v := by
  unfold step
  dsimp only
  cases hs : w.sweep with
  | nil => simp [touches, hs] at ht
  | cons inv rest => exact h.toHidesState

theorem stutter_publish (hw : w.Sound) (h : Hides q w v) {env : Env} {ok : Bool}
    (hg : w.IsolationGuard q (env, .publish ok)) (ht : touches q w (env, .publish ok) = true) :
    HidesState q (w.step (env, .publish ok)) v := by
  cases hs : w.sweep with
  | nil => simp [touches, hs] at ht
  | cons inv rest =>
    obtain rfl : inv.pipelineId = q := by simpa [touches, hs] using ht
    have hs' : v.sweep = rest.filter fun i => i.pipelineId ≠ inv.pipelineId := by
      rw [h.sweep, hs, List.filter_cons_of_neg (by simp)]
    unfold step
    dsimp only
    rw [hs]
    dsimp only
    unfold Engine.dispatchOne
    cases hps : w.engine.sched.schedulers.lookup inv.pipelineId with
    | none => exact ⟨h.scheds, h.order, hs', h.records, h.published⟩
    | some ps =>
      cases ok with
      | true =>
        have hpid : ps.pipeline.id = inv.pipelineId := by
          obtain ⟨manifests, t, htr⟩ := hw.tracks _ ps hps
          exact htr.id
        refine ⟨h.scheds, h.order, hs', ?_, ?_⟩
        · simpa using h.records
        · simp only [if_true]
          rw [List.filter_append, List.filter_cons_of_neg, List.filter_nil, List.append_nil,
            h.published]
          simp [buildJobForInvocation, hpid]
      | false =>
        have hall := (hg.resolve_left (by simp)) inv (by simp [hs]) rfl
        refine ⟨?_, ?_, ?_, h.records, h.published⟩
        · exact h.scheds.left (Engine.requeue_lookup inv w.engine.sched)
        · simp only [Bool.false_eq_true, if_false, Engine.requeue_order, h.order]
        · refine hs'.trans ?_
          exact List.filter_eq_nil_iff.mpr fun i hi => by simp [hall i (by simp [hs, hi])]

theorem stutter_result (h : Hides q w v) {env : Env} {wr : WorkerResult}
    (ht : touches q w (env, .result wr) = true) :
    HidesState q (w.step (env, .result wr)) v := by
  obtain rfl : wr.pipelineID = q := by simpa [touches] using ht
  refine ⟨?_, ?_, h.sweep, ?_, h.published⟩
  · unfold step
    dsimp only
    cases hw : w.engine.takes wr with
    | false =>
      rw [Engine.dropped_spec env wr _ hw]
      exact h.scheds
    | true => exact h.scheds.left (Engine.taken_spec env wr _ hw).1
  · unfold step
    dsimp only
    rw [Engine.result_order, h.order]
  · rcases result_callbacks w env wr with ⟨pid, st, han, hw⟩ | ⟨-, -, hw⟩
    · refine h.records.left (f := Option.map (stamped env.now st)) ?_
      cases han <;> exact hw.records
    · rw [hw]
      exact h.records

/-- A step of another pipeline is the same step without `q`. -/
theorem move_simulates (hw : w.Tidy q) (h : Hides q w v) (ha : w.Admits a)
    (hg : w.IsolationGuard q a) (ht : touches q w a = false) :
    v.Admits a ∧ Hides q (w.step a) (v.step a) := by
  have hrows := rows_move hw ha hg h.rows ht (writes_hides hw h ha hg ht)
  obtain ⟨env, op⟩ := a
  cases op with
  | submit => exact ⟨trivial, move_submit h ht, hrows⟩
  | cancel => exact ⟨trivial, move_cancel h ht, hrows⟩
  | drain => exact ⟨trivial, move_drain hw.sound h ht, hrows⟩
  | publish => exact ⟨trivial, move_publish hw.sound h ht, hrows⟩
  | result wr =>
    refine ⟨?_, move_result h hg ht, hrows⟩
    obtain ⟨j, hj, hinv, hpid⟩ := ha
    refine ⟨j, ?_, hinv, hpid⟩
    rw [h.published]
    exact List.mem_filter.mpr ⟨hj, by simpa [hpid, touches] using ht⟩

/-- A step of `q` is none without it. -/
theorem stutter_simulates (hw : w.Tidy q) (h : Hides q w v) (ha : w.Admits a)
    (hg : w.IsolationGuard q a) (ht : touches q w a = true) : Hides q (w.step a) v := by
  have hrows := rows_stutter hw ha hg h.rows ht
  obtain ⟨env, op⟩ := a
  cases op with
  | submit => exact ⟨stutter_submit h ht, hrows⟩
  | cancel => exact ⟨stutter_cancel h ht, hrows⟩
  | drain => exact ⟨stutter_drain h ht, hrows⟩
  | publish => exact ⟨stutter_publish hw.sound h hg ht, hrows⟩
  | result => exact ⟨stutter_result h ht, hrows⟩

omit [Encoding] in
theorem tidy_start : World.Tidy q {} := by
  refine ⟨linked_empty, fun key row hl => ?_, fun pid ps ps' hne hps => ?_⟩
  · cases hl
  · cases hps

omit [UUIDPackage] [Encoding] in
theorem hides_start : Hides q {} {} := by
  refine ⟨⟨fun k => ?_, rfl, rfl, fun k => ?_, rfl⟩, fun key => rfl⟩
  · exact (ite_self _).symm
  · exact (ite_self _).symm

/-- The run with `q` next to the run without it. -/
theorem run_simulates {ops : List (Env × Op)}
    (hrun : Runs.Along step (fun w a => w.Admits a ∧ w.IsolationGuard q a) {} ops) :
    Runs.Along step Admits {} (without q ops) ∧
      (run {} ops).Tidy q ∧ Hides q (run {} ops) (run {} (without q ops)) := by
  refine Runs.erase_simulates step (R := fun w v => w.Tidy q ∧ Hides q w v) ?_ ?_
    ⟨tidy_start, hides_start⟩ hrun
  · rintro w v a ⟨hw, h⟩ ⟨ha, hg⟩ ht
    exact ⟨tidy_step hw ha hg, stutter_simulates hw h ha hg ht⟩
  · rintro w v a ⟨hw, h⟩ ⟨ha, hg⟩ ht
    obtain ⟨hv, hnext⟩ := move_simulates hw h ha hg ht
    exact ⟨hv, tidy_step hw ha hg, hnext⟩

omit [Encoding] in
theorem loadInvocations_hides (hw : w.Tidy q) (h : Hides q w v) {pid : UUID} (hne : pid ≠ q) :
    v.engine.store.loadInvocations pid = w.engine.store.loadInvocations pid := by
  have hkeyed : w.engine.store.Keyed := fun key row hl => (hw.owned key row hl).1
  have hrow : ∀ key row, v.engine.store.invocations.lookup key = some row ↔
      w.engine.store.invocations.lookup key = some row ∧ row.pipelineID ≠ q := by
    intro key row
    rw [h.rows, Option.filter_eq_some_iff, decide_eq_true_eq]
  refine MemStore.loadInvocations_congr (fun key row hl => ?_) hkeyed fun key row hpid => ?_
  · exact hkeyed key row ((hrow key row).mp hl).1
  · rw [hrow, hpid, and_iff_left hne]

/-- The pipelines other than `q` are what they are without `q`. -/
def Isolated (q : UUID) (ops : List (Env × Op)) : Prop :=
  ∀ pid, pid ≠ q →
    (run {} (without q ops)).engine.sched.schedulers.lookup pid =
      (run {} ops).engine.sched.schedulers.lookup pid ∧
    (run {} (without q ops)).engine.store.loadInvocations pid =
      (run {} ops).engine.store.loadInvocations pid ∧
    (run {} (without q ops)).engine.store.loadPipeline pid =
      (run {} ops).engine.store.loadPipeline pid

/-- What the pipelines other than `q` see of a run is what they see without `q`. -/
theorem isolation {ops : List (Env × Op)}
    (hrun : Runs.Along step (fun w a => w.Admits a ∧ w.IsolationGuard q a) {} ops) :
    Runs.Along step Admits {} (without q ops) ∧ Isolated q ops := by
  obtain ⟨hv, hw, h⟩ := run_simulates hrun
  exact ⟨hv, fun pid hne => ⟨h.scheds.lookup hne, loadInvocations_hides hw h hne,
    h.records.lookup hne⟩⟩

end World
end Spade

namespace Spade.World
open Samples Uuid

/-- Two chains in turn. -/
def turns : List (Env × Op) :=
  [submit chain, submit apart, drain, publish, publish, complete chain 1, complete apart 6]

theorem isolation_turns : Runs.Along step Admits {} (without apart.id turns) ∧
    Isolated apart.id turns :=
  isolation (by decide)

/-- The second submission of the same blocks takes over the rows of the first one. -/
theorem isolation_fails :
    Runs.Along step Admits {} [submit chain, drain, publish, submit twin] ∧
      ¬Isolated twin.id [submit chain, drain, publish, submit twin] := by
  refine ⟨by decide, fun h => ?_⟩
  obtain ⟨-, hrows, -⟩ := h chain.id (by decide)
  revert hrows
  decide

end Spade.World
