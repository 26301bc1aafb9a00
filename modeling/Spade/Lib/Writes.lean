import Mathlib.Data.List.Basic

set_option autoImplicit false

/-!
# Sequences of writes that fail or break off

`attempt` stops at the first write that fails, `attemptEach` goes on with the next,
and `brokenOff` is what a crash leaves.
-/
namespace Spade.Writes
variable {S W : Type*} (write : S → W → S)

/-- `fails n` tells whether the `n`-th write from here fails; the flag, whether one has. -/
def attempt : (ℕ → Bool) → List W → S → S × Bool
  | _, [], s => (s, false)
  | fails, a :: l, s =>
    if fails 0 then (s, true) else attempt (fun n => fails (n + 1)) l (write s a)

def attemptEach : (ℕ → Bool) → List W → S → S
  | _, [], s => s
  | fails, a :: l, s =>
    attemptEach (fun n => fails (n + 1)) l (if fails 0 then s else write s a)

def brokenOff (k : ℕ) (l : List W) (s : S) : S := (l.take k).foldl write s

theorem attempt_failed_iff (fails : ℕ → Bool) (l : List W) (s : S) :
    (attempt write fails l s).2 = true ↔ ∃ n < l.length, fails n = true := by
  induction l generalizing fails s with
  | nil => simp [attempt]
  | cons a l ih =>
    unfold attempt
    by_cases h : fails 0 = true
    · rw [if_pos h]
      exact ⟨fun _ => ⟨0, by simp, h⟩, fun _ => rfl⟩
    · rw [if_neg h, ih]
      constructor
      · rintro ⟨n, hn, hf⟩
        exact ⟨n + 1, by simpa using hn, hf⟩
      · rintro ⟨n, hn, hf⟩
        cases n with
        | zero => exact absurd hf h
        | succ n => exact ⟨n, by simpa using hn, hf⟩

theorem attempt_ok {fails : ℕ → Bool} {l : List W} {s : S}
    (h : (attempt write fails l s).2 = false) : (attempt write fails l s).1 = l.foldl write s := by
  induction l generalizing fails s with
  | nil => rfl
  | cons a l ih =>
    unfold attempt at h ⊢
    by_cases hf : fails 0 = true
    · rw [if_pos hf] at h
      cases h
    · rw [if_neg hf] at h ⊢
      exact ih h

/-- What every write keeps is kept wherever the sequence stops. -/
theorem attempt_induct {P : S → Prop} {l : List W} (keep : ∀ s, ∀ a ∈ l, P s → P (write s a))
    (fails : ℕ → Bool) {s : S} (hs : P s) : P (attempt write fails l s).1 := by
  induction l generalizing fails s with
  | nil => exact hs
  | cons a l ih =>
    unfold attempt
    by_cases h : fails 0 = true
    · rwa [if_pos h]
    · rw [if_neg h]
      exact ih (fun s b hb => keep s b (List.mem_cons_of_mem a hb)) _
        (keep s a List.mem_cons_self hs)

theorem attemptEach_ok {fails : ℕ → Bool} {l : List W} {s : S} (h : ∀ n, fails n = false) :
    attemptEach write fails l s = l.foldl write s := by
  induction l generalizing fails s with
  | nil => rfl
  | cons a l ih =>
    unfold attemptEach
    rw [h 0, if_neg Bool.false_ne_true]
    exact ih fun n => h (n + 1)

theorem brokenOff_all {k : ℕ} {l : List W} {s : S} (h : l.length ≤ k) :
    brokenOff write k l s = l.foldl write s := by
  unfold brokenOff
  rw [List.take_of_length_le h]

end Spade.Writes
