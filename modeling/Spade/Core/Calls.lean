import Spade.Core.Drain
import Spade.Core.Trace
import Spade.Lib.Runs

set_option autoImplicit false

/-!
# A scheduler under `Next`, `Drain` and results

Results come for invocations that were handed out, which they name by their position.
-/
namespace Spade
open UUIDPackage SinglePipelineScheduler

inductive Call where
  | next
  | drain
  | report (σ : MapOrder) (n : ℕ) (result : BlockInvocationResult)

def Call.status? : Call → Option ExecutionStatus
  | .report _ _ result => some result.status
  | _ => none

namespace Trace

/-- `Next` hands out its invocation when one is ready. -/
def next (t : Trace) : Trace := { t with
  sched := t.sched.next.1
  handedOut := t.handedOut ++ if t.sched.isReady then [t.sched.next.2.1] else [] }

/-- `Next` takes at most one invocation from the front of the queue. -/
theorem next_taken (t : Trace) : ∃ out rest, t.sched.executableBlocks = out ++ rest ∧
    t.next = t.taken out rest := by
  unfold Trace.next SinglePipelineScheduler.next isReady taken
  cases he : t.sched.executableBlocks with
  | nil => exact ⟨[], [], rfl, by simp [← he]⟩
  | cons inv rest => exact ⟨[inv], rest, rfl, by simp⟩

section
variable [UUIDPackage]

def call (t : Trace) : Call → Trace
  | .next => t.next
  | .drain => t.handOut
  | .report σ n result =>
    match t.handedOut[n]? with
    | none => t
    | some inv => t.report σ inv result

/-- The result is the first one of an invocation that was handed out. -/
def Firsts (t : Trace) : Call → Prop
  | .report _ n result =>
    match t.handedOut[n]? with
    | none => False
    | some inv => result.id = inv.id ∧ ∀ e ∈ t.reported, e.1.invocationID ≠ inv.invocationID
  | _ => True

instance (t : Trace) (c : Call) : Decidable (t.Firsts c) :=
  match c with
  | .next => isTrue trivial
  | .drain => isTrue trivial
  | .report _ n result =>
    match h : t.handedOut[n]? with
    | none => isFalse (by simp [Firsts, h])
    | some inv => decidable_of_iff
        (result.id = inv.id ∧ ∀ e ∈ t.reported, e.1.invocationID ≠ inv.invocationID)
        (by simp [Firsts, h])

theorem Firsts.report {t : Trace} {σ : MapOrder} {n : ℕ} {result : BlockInvocationResult}
    (h : t.Firsts (.report σ n result)) : ∃ inv ∈ t.handedOut,
      (∀ e ∈ t.reported, e.1.invocationID ≠ inv.invocationID) ∧ result.id = inv.id ∧
      t.call (.report σ n result) = t.report σ inv result := by
  cases hn : t.handedOut[n]? with
  | none => simp [Firsts, hn] at h
  | some inv =>
    simp only [Firsts, hn] at h
    exact ⟨inv, List.mem_of_getElem? hn, h.2, h.1, by simp only [call, hn]⟩

theorem call_report_handedOut (t : Trace) (σ : MapOrder) (n : ℕ) (result : BlockInvocationResult) :
    (t.call (.report σ n result)).handedOut = t.handedOut := by
  unfold call
  dsimp only
  split <;> rfl

end

/-- `Drain` on a registry is `handOut` on every scheduler in its order. -/
theorem drain_handOut {ms : MultiTenantScheduler} {pid : UUID} {t : Trace}
    (hl : ms.schedulers.lookup pid = some t.sched) (ho : pid ∈ ms.pipelineOrder) :
    ms.drain.1.schedulers.lookup pid = some t.handOut.sched ∧
      ∀ inv ∈ t.sched.executableBlocks, inv ∈ ms.drain.2 := by
  constructor
  · rw [MultiTenantScheduler.drain_lookup, hl, Option.map_some, if_pos ho]
    rfl
  · exact fun inv hi => (MultiTenantScheduler.mem_drain ms inv).mpr ⟨pid, ho, t.sched, hl, hi⟩

end Trace
end Spade
