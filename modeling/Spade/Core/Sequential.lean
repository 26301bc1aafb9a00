import Spade.Core.Calls

set_option autoImplicit false

/-!
# The execution loop of `cli/cmd/run.go`

`Next` and `Update` alternate. What a block returns, from the cache or from its run, is
given for each turn.
-/
namespace Spade
open UUIDPackage SinglePipelineScheduler

/-- How the loop is left: by the line `Pipeline complete` or by an error. -/
inductive Exit where
  | complete | failed
  deriving DecidableEq

/-- `result` is `none` when `Execute` returns an error. -/
structure Turn where
  order : MapOrder
  result : Option BlockInvocationResult

namespace Trace

/-- `Next` says that all is done, or has no block to run. -/
def ends (t : Trace) : Bool := t.sched.next.2.2 || t.sched.next.2.1.blockId = ""

/-- A block that is not done stands at the front of the queue. -/
theorem front_of_ends {t : Trace} (h : t.ends = false) :
    ∃ inv rest, t.sched.executableBlocks = inv :: rest ∧ t.sched.next.2.1 = inv ∧
      t.next = t.taken [inv] rest := by
  unfold ends SinglePipelineScheduler.next at h
  unfold Trace.next SinglePipelineScheduler.next isReady taken
  cases he : t.sched.executableBlocks with
  | nil => simp [he, BlockInvocation.zero] at h
  | cons inv rest => exact ⟨inv, rest, rfl, rfl, by simp⟩

section
variable [UUIDPackage]

/-- Without an exit the turns have run out. -/
def runPipeline : List Turn → Trace → Option Exit × Trace
  | [], t => if t.ends then (some .complete, t.next) else (none, t)
  | turn :: turns, t =>
    if t.ends then (some .complete, t.next)
    else
      match turn.result with
      | none => (some .failed, t.next)
      | some result =>
        let t' := t.next.report turn.order t.sched.next.2.1 result
        if result.status = .error then (some .failed, t') else runPipeline turns t'

/-- The calls that the loop makes. -/
def loopCalls : List Turn → Trace → List Call
  | [], t => if t.ends then [.next] else []
  | turn :: turns, t =>
    if t.ends then [.next]
    else
      match turn.result with
      | none => [.next]
      | some result =>
        .next :: .report turn.order t.handedOut.length result ::
          if result.status = .error then []
          else loopCalls turns (t.next.report turn.order t.sched.next.2.1 result)

/-- The result of a turn is reported for the invocation that was taken in it. -/
theorem call_turn {t : Trace} (h : t.ends = false) (σ : MapOrder) (result : BlockInvocationResult) :
    t.next.call (.report σ t.handedOut.length result) =
      t.next.report σ t.sched.next.2.1 result := by
  obtain ⟨inv, rest, -, hnext, htaken⟩ := front_of_ends h
  have hat : (t.taken [inv] rest).handedOut[t.handedOut.length]? = some inv := by simp [taken]
  rw [htaken, hnext, call]
  simp only [hat]

theorem runPipeline_calls (turns : List Turn) (t : Trace) :
    (runPipeline turns t).2 = Runs.run call t (loopCalls turns t) := by
  induction turns generalizing t with
  | nil =>
    unfold runPipeline loopCalls
    split <;> rfl
  | cons turn turns ih =>
    unfold runPipeline loopCalls
    by_cases he : t.ends = true
    · rw [if_pos he, if_pos he]
      rfl
    · rw [if_neg he, if_neg he]
      cases turn.result with
      | none => rfl
      | some result =>
        have hcall := call_turn (Bool.not_eq_true _ ▸ he) turn.order result
        dsimp only
        rw [Runs.run_cons, Runs.run_cons, show t.call .next = t.next from rfl, hcall]
        split
        · rfl
        · exact ih _

/-- More turns continue a loop that has run out of them. -/
theorem loopCalls_append (turns turns' : List Turn) (t : Trace)
    (h : (runPipeline turns t).1 = none) : loopCalls (turns ++ turns') t =
      loopCalls turns t ++ loopCalls turns' (runPipeline turns t).2 := by
  induction turns generalizing t with
  | nil =>
    unfold runPipeline at h ⊢
    by_cases he : t.ends = true
    · rw [if_pos he] at h
      cases h
    · rw [if_neg he, show loopCalls [] t = [] from if_neg he]
      rfl
  | cons turn turns ih =>
    unfold runPipeline at h ⊢
    rw [List.cons_append, loopCalls, loopCalls]
    by_cases he : t.ends = true
    · rw [if_pos he] at h
      cases h
    · rw [if_neg he] at h ⊢
      rw [if_neg he, if_neg he]
      cases hr : turn.result with
      | none =>
        rw [hr] at h
        cases h
      | some result =>
        rw [hr] at h
        dsimp only at h ⊢
        by_cases herr : result.status = .error
        · rw [if_pos herr] at h
          cases h
        · rw [if_neg herr] at h
          rw [if_neg herr, if_neg herr, if_neg herr, ih _ h]
          rfl

theorem loopCalls_cons (turn : Turn) (turns : List Turn) (t : Trace) :
    ∃ calls, loopCalls (turn :: turns) t = .next :: calls := by
  unfold loopCalls
  split_ifs
  · exact ⟨[], rfl⟩
  · cases turn.result with
    | none => exact ⟨[], rfl⟩
    | some result => exact ⟨_, rfl⟩

end
end Trace
end Spade
