import Spade.Server.Rows

set_option autoImplicit false

/-! # The records of the pipelines over time -/
namespace Spade
open UUIDPackage
variable [UUIDPackage] [Encoding]

namespace World
variable {w : World} {a : Env × Op} {pid : UUID} {rec : PipelineRecord}

/-- New records are those of submissions. -/
theorem record_new (hnone : w.engine.store.pipelines.lookup pid = none)
    (hrec : (w.step a).engine.store.pipelines.lookup pid = some rec) :
    ∃ pp body who p text, a.2 = .submit pp body who ∧
      w.engine.registering a.1 pp body = some (p, text) ∧ p.id = pid ∧
      rec = Engine.submittedRecord a.1 p text who := by
  have hold : pid ∉ w.engine.store.pipelines := AList.lookup_eq_none.mp hnone
  have hmem := GoMap.mem_of_lookup hrec
  obtain ⟨env, op⟩ := a
  cases op with
  | submit pp body who =>
    change (w.engine.submitPipeline env pp body who).1.store.pipelines.lookup pid = some rec at hrec
    rw [Engine.submit_eq] at hrec
    cases hx : w.engine.registering env pp body with
    | none =>
      rw [hx] at hrec
      exact absurd (GoMap.mem_of_lookup hrec) hold
    | some x =>
      obtain ⟨p, text⟩ := x
      rw [hx] at hrec
      dsimp only at hrec
      rw [Engine.register_records _ _ _ _ _ (Engine.registering_spec hx).2.2.2,
        GoMap.lookup_insert_if] at hrec
      split at hrec
      · rename_i hpid
        cases hrec
        exact ⟨pp, body, who, p, text, rfl, hx, hpid.symm, rfl⟩
      · exact absurd (GoMap.mem_of_lookup hrec) hold
  | cancel id => exact absurd (((Engine.cancel_spec env id w.engine).2 pid).mp hmem) hold
  | drain =>
    refine absurd ?_ hold
    unfold step at hmem
    dsimp only at hmem
    split at hmem <;> exact hmem
  | publish ok =>
    refine absurd ?_ hold
    cases hs : w.sweep with
    | nil => simpa only [step, hs] using hmem
    | cons inv rest =>
      cases hl : w.engine.sched.schedulers.lookup inv.pipelineId with
      | none => simpa only [step, hs, Engine.dispatchOne, hl] using hmem
      | some ps => cases ok <;> simpa [step, hs, Engine.dispatchOne, hl] using hmem
  | result wr =>
    cases ht : w.engine.takes wr with
    | true => exact absurd (((Engine.taken_spec env wr _ ht).2 pid).mp hmem) hold
    | false =>
      unfold step at hmem
      dsimp only at hmem
      rw [Engine.dropped_spec env wr _ ht] at hmem
      exact absurd hmem hold

/-- Every record is filed under its own id. -/
def Filed (m : MemStore) : Prop := ∀ pid rec, m.pipelines.lookup pid = some rec → rec.id = pid

theorem filed_step (hw : Filed w.engine.store) : Filed (w.step a).engine.store := by
  intro pid rec hrec
  cases hold : w.engine.store.pipelines.lookup pid with
  | none =>
    obtain ⟨_, _, _, p, _, _, _, rfl, rfl⟩ := record_new hold hrec
    rfl
  | some rec₀ =>
    have hid := hw pid rec₀ hold
    rcases step_callbacks w a with ⟨pid', st, -, han⟩ | ⟨-, hq⟩
    · rw [han.records, hold] at hrec
      split at hrec <;> cases hrec <;> exact hid
    · rw [hq.records pid rec₀ hold] at hrec
      cases hrec
      exact hid

theorem filed_run (ops : List (Env × Op)) :
    Runs.Always step (fun w => Filed w.engine.store) {} ops := by
  refine Runs.always_of_along step (Q := fun _ _ => True) (fun _ _ hw _ => filed_step hw) ?_
    (Runs.along_of_prefixes step fun _ _ _ _ => trivial)
  intro pid rec hrec
  cases hrec

/-- A record that is running after a step is new, or it was running and the step announces
no end of it. -/
theorem running_before (hrec : (w.step a).engine.store.pipelines.lookup pid = some rec)
    (hrun : rec.status = .running) : w.engine.store.pipelines.lookup pid = none ∨
      w.engine.store.pipelines.lookup pid = some rec ∧ ∀ st, ¬w.Announces a pid st := by
  cases hold : w.engine.store.pipelines.lookup pid with
  | none => exact .inl rfl
  | some rec₀ =>
    right
    rcases step_callbacks w a with ⟨pid', st, hann, han⟩ | ⟨hno, hq⟩
    · rw [han.records, hold] at hrec
      split at hrec
      · cases hrec
        have hterm := hann.terminal
        change st = .running at hrun
        rw [hrun] at hterm
        cases hterm
      · rename_i hpid
        cases hrec
        exact ⟨rfl, fun st' h => hpid (announces_unique h hann).1⟩
    · rw [hq.records pid rec₀ hold] at hrec
      cases hrec
      exact ⟨rfl, hno pid⟩

end World
end Spade
