import Spade.Server.Callbacks
import Spade.Server.Samples

set_option autoImplicit false

/-!
# When a terminal status is final

The three writers of a status ask neither the record nor one another. A terminal
record keeps its status exactly as long as none of them announces its pipeline again.
-/
namespace Spade
open UUIDPackage
variable [UUIDPackage] [Encoding]

namespace World

/-- The stored status of the pipeline is complete, failed or cancelled. -/
def terminal (w : World) (pid : UUID) : Bool :=
  match w.engine.store.pipelines.lookup pid with
  | none => false
  | some rec => rec.status.terminal

/-- The calls of the callback for one pipeline. -/
def callbacksOf (w : World) (pid : UUID) : List (UUID × CallbackPayload) :=
  w.engine.callbacks.filter fun c => c.1 = pid

/-- The step leaves the status and the time of every terminal record. -/
def TerminalKept (w : World) (a : Env × Op) : Prop :=
  ∀ pid rec, w.engine.store.pipelines.lookup pid = some rec → rec.status.terminal = true →
    ∃ rec', (w.step a).engine.store.pipelines.lookup pid = some rec' ∧
      rec'.status = rec.status ∧ rec'.completedAt = rec.completedAt

def CalledOnce (w : World) : Prop := ∀ pid, (w.callbacksOf pid).length ≤ 1

/-- The step is none that announces a terminal pipeline again: a cancel, a taken error, or
another taken result that meets empty queues, leaves them empty, and finds no halt. -/
def TerminalSafe (w : World) (a : Env × Op) : Prop :=
  match a.2 with
  | .cancel id => w.terminal id = false
  | .result wr => w.terminal wr.pipelineID = true → w.engine.takes wr = true →
      wr.status ≠ .error ∧ ∀ ps ∈ w.engine.sched.schedulers.lookup wr.pipelineID,
        ps.cancelled = true ∨ ps.idle = false ∨
          ps.revives (workerResultToInvocationResult wr) = true
  | _ => True

instance (w : World) (a : Env × Op) : Decidable (w.TerminalSafe a) :=
  match a with
  | (_, .submit _ _ _) => isTrue trivial
  | (_, .cancel id) => inferInstanceAs (Decidable (w.terminal id = false))
  | (_, .drain) => isTrue trivial
  | (_, .publish _) => isTrue trivial
  | (_, .result wr) => inferInstanceAs (Decidable
      (w.terminal wr.pipelineID = true → w.engine.takes wr = true →
        wr.status ≠ .error ∧ ∀ ps ∈ w.engine.sched.schedulers.lookup wr.pipelineID,
          ps.cancelled = true ∨ ps.idle = false ∨
            ps.revives (workerResultToInvocationResult wr) = true))

/-- Registered pipelines have a record, and the callback has been called exactly for the
terminal ones. -/
structure Recorded (w : World) : Prop where
  stored : w.Stored
  called : ∀ pid, w.callbacksOf pid ≠ [] ↔ w.terminal pid = true

variable {w : World} {a : Env × Op}

omit [UUIDPackage] [Encoding] in
theorem terminal_of_lookup {pid : UUID} {rec : PipelineRecord}
    (h : w.engine.store.pipelines.lookup pid = some rec) :
    w.terminal pid = rec.status.terminal := by
  rw [terminal, h]

omit [UUIDPackage] [Encoding] in
theorem terminal_of_not_mem {pid : UUID} (h : pid ∉ w.engine.store.pipelines) :
    w.terminal pid = false := by
  rw [terminal, AList.lookup_eq_none.mpr h]

omit [Encoding] in
theorem Announces.stored {pid : UUID} {st : PipelineStatus} (hw : w.Recorded)
    (h : w.Announces a pid st) : pid ∈ w.engine.store.pipelines := by
  cases h with
  | cancelled hs => exact hs
  | failed ht =>
    refine hw.stored _ ?_
    simp only [Engine.takes, Bool.and_eq_true] at ht
    exact AList.lookup_isSome.mp ht.2
  | complete _ _ hl => exact hw.stored _ (GoMap.mem_of_lookup hl)

omit [Encoding] in
/-- The safe steps are those that announce no terminal pipeline. -/
theorem terminalSafe_iff :
    w.TerminalSafe a ↔ ∀ pid st, w.Announces a pid st → w.terminal pid = false := by
  obtain ⟨env, op⟩ := a
  constructor
  · intro hsafe pid st h
    cases h with
    | cancelled => exact hsafe
    | @failed env wr ht hs =>
      by_contra hterm
      exact (hsafe (by simpa using hterm) ht).1 hs
    | @complete env wr ps ht hs hl hc hi =>
      obtain ⟨hc', hi', hr⟩ := (announces_complete_iff ht hs hl).mp (.complete ht hs hl hc hi)
      by_contra hterm
      have hno := (hsafe (by simpa using hterm) ht).2 ps hl
      simp [hc', hi', hr] at hno
  · intro h
    cases op with
    | submit => trivial
    | drain => trivial
    | publish => trivial
    | cancel id =>
      by_cases hs : id ∈ w.engine.store.pipelines
      · exact h id _ (.cancelled hs)
      · exact terminal_of_not_mem hs
    | result wr =>
      intro hterm ht
      have hno : ∀ st, ¬w.Announces (env, .result wr) wr.pipelineID st := by
        intro st hann
        rw [h _ _ hann] at hterm
        cases hterm
      have hs : wr.status ≠ .error := fun hs => hno _ (.failed ht hs)
      refine ⟨hs, fun ps hl => ?_⟩
      by_contra hcon
      simp only [not_or, Bool.not_eq_true, Bool.not_eq_false] at hcon
      exact hno _ ((announces_complete_iff ht hs hl).mpr hcon)

omit [UUIDPackage] [Encoding] in
theorem Announced.callbacksOf {now : Time} {pid : UUID} {st : PipelineStatus} {w' : World}
    (h : Announced now pid st w w') (k : UUID) :
    (w'.callbacksOf k).length = (w.callbacksOf k).length + if k = pid then 1 else 0 := by
  obtain ⟨payload, -, hcb⟩ := h.callbacks
  unfold World.callbacksOf
  rw [hcb, List.filter_append, List.length_append]
  by_cases hk : k = pid
  · simp [hk]
  · have hne : ¬pid = k := fun h => hk h.symm
    simp [hk, hne]

omit [UUIDPackage] [Encoding] in
theorem Announced.terminal {now : Time} {pid : UUID} {st : PipelineStatus} {w' : World}
    (h : Announced now pid st w w') (hst : st.terminal = true)
    (hs : pid ∈ w.engine.store.pipelines) (k : UUID) :
    w'.terminal k = if k = pid then true else w.terminal k := by
  unfold World.terminal
  rw [h.records]
  by_cases hk : k = pid
  · subst hk
    obtain ⟨rec, hrec⟩ := GoMap.lookup_of_mem hs
    rw [if_pos rfl, if_pos rfl, hrec]
    exact hst
  · rw [if_neg hk, if_neg hk]

omit [UUIDPackage] [Encoding] in
theorem Quiet.terminal {w' : World} (hq : w.Quiet w') (pid : UUID) :
    w'.terminal pid = w.terminal pid := by
  cases hl : w.engine.store.pipelines.lookup pid with
  | some rec => rw [terminal_of_lookup hl, terminal_of_lookup (hq.records pid rec hl)]
  | none =>
    unfold World.terminal
    rw [hl]
    cases hl' : w'.engine.store.pipelines.lookup pid with
    | none => rfl
    | some rec => simp [hq.fresh pid hl rec hl', PipelineStatus.terminal]

omit [UUIDPackage] [Encoding] in
theorem Quiet.callbacksOf {w' : World} (hq : w.Quiet w') (pid : UUID) :
    w'.callbacksOf pid = w.callbacksOf pid := by
  unfold World.callbacksOf
  rw [hq.callbacks]

theorem recorded_step (hw : w.Recorded) : (w.step a).Recorded := by
  refine ⟨stored_step hw.stored, fun pid => ?_⟩
  rcases step_callbacks w a with ⟨pid', st, hann, han⟩ | ⟨-, hq⟩
  · rw [han.terminal hann.terminal (hann.stored hw), ← List.length_pos_iff, han.callbacksOf]
    by_cases hk : pid = pid'
    · simp [hk]
    · simpa [hk, List.length_pos_iff] using hw.called pid
  · rw [hq.terminal, hq.callbacksOf]
    exact hw.called pid

/-- While every pipeline has been announced once at most, a step keeps the terminal records
and the count exactly when it is safe. -/
theorem terminal_step_iff (hw : w.Recorded) (honce : w.CalledOnce) :
    w.TerminalKept a ∧ (w.step a).CalledOnce ↔ w.TerminalSafe a := by
  rw [terminalSafe_iff]
  constructor
  · rintro ⟨-, h⟩ pid st hann
    rcases step_callbacks w a with ⟨pid', st', hann', han⟩ | ⟨hno, -⟩
    · obtain ⟨rfl, rfl⟩ := announces_unique hann hann'
      have hlen := h pid
      rw [han.callbacksOf, if_pos rfl] at hlen
      by_contra hterm
      have hne := (hw.called pid).mpr (by simpa using hterm)
      have hpos := List.length_pos_iff.mpr hne
      omega
    · exact absurd hann (hno pid st)
  · intro hsafe
    rcases step_callbacks w a with ⟨pid, st, hann, han⟩ | ⟨-, hq⟩
    · have hterm := hsafe pid st hann
      constructor
      · intro k rec hl hrec
        have hk : k ≠ pid := by
          rintro rfl
          rw [terminal_of_lookup hl, hrec] at hterm
          cases hterm
        exact ⟨rec, by rw [han.records, if_neg hk, hl], rfl, rfl⟩
      · intro k
        rw [han.callbacksOf]
        by_cases hk : k = pid
        · subst hk
          have hnil : w.callbacksOf k = [] := by
            by_contra hne
            rw [(hw.called k).mp hne] at hterm
            cases hterm
          simp [hnil]
        · simpa [hk] using honce k
    · refine ⟨fun k rec hl _ => ⟨rec, hq.records k rec hl, rfl, rfl⟩, fun k => ?_⟩
      rw [hq.callbacksOf]
      exact honce k

omit [UUIDPackage] [Encoding] in
theorem recorded_empty : Recorded {} := by
  refine ⟨fun pid h => absurd h (AList.notMem_empty pid), fun pid => ?_⟩
  simp [callbacksOf, terminal]

/-- In a run the terminal records are final and every callback is called once at most
exactly when every step of the run is safe. -/
theorem terminal_final_iff (ops : List (Env × Op)) :
    Runs.Along step TerminalKept {} ops ∧ Runs.Always step CalledOnce {} ops ↔
      Runs.Along step TerminalSafe {} ops := by
  have honce : CalledOnce {} := fun _ => Nat.zero_le 1
  rw [← Runs.along_and_always step TerminalKept CalledOnce honce]
  refine Runs.along_iff_along step (I := Recorded) (P := CalledOnce) (R := fun _ _ => True)
    (fun _ _ hw _ => recorded_step hw) (fun _ _ _ _ _ h => h.2)
    (fun _ _ hw hc _ => terminal_step_iff hw hc) recorded_empty honce ?_
  exact Runs.along_of_prefixes step fun _ _ _ _ => trivial

end World
end Spade

namespace Spade.World
open Samples Uuid

/-- A cancel after the end overwrites the record and calls back a second time. -/
theorem terminal_final_fails :
    ¬(Runs.Along step TerminalKept {} (chainRun ++ [cancel chain]) ∧
      Runs.Always step CalledOnce {} (chainRun ++ [cancel chain])) := by
  rintro ⟨-, h⟩
  have hcalls := Runs.Always.last step h chain.id
  revert hcalls
  decide

end Spade.World
