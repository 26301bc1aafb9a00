import Mathlib.Data.List.Lex
import Mathlib.Order.Monotone.Defs
import Mathlib.Tactic.Ring

set_option autoImplicit false

/-!
# Numerals of one length

Numerals with as many digits are compared digit by digit like the numbers they stand for.
-/
namespace Numerals

variable {α : Type*} {d : α → ℕ} {b : ℕ}

/-- The number that the digits stand for, the highest first. -/
def value (d : α → ℕ) (b : ℕ) (l : List α) : ℕ := l.foldl (fun n a => n * b + d a) 0

theorem foldl_digits (l : List α) (m : ℕ) :
    l.foldl (fun n a => n * b + d a) m = m * b ^ l.length + value d b l := by
  induction l generalizing m with
  | nil => simp [value]
  | cons a l ih =>
    rw [value, List.foldl_cons, List.foldl_cons, ih, ih (0 * b + d a), List.length_cons, pow_succ]
    ring

theorem value_cons (a : α) (l : List α) : value d b (a :: l) = d a * b ^ l.length + value d b l := by
  rw [value, List.foldl_cons, foldl_digits, Nat.zero_mul, Nat.zero_add]

theorem value_append (l l' : List α) :
    value d b (l ++ l') = value d b l * b ^ l'.length + value d b l' := by
  rw [value, List.foldl_append, foldl_digits]
  rfl

theorem value_lt {l : List α} (h : ∀ a ∈ l, d a < b) : value d b l < b ^ l.length := by
  induction l with
  | nil => simp [value]
  | cons a l ih =>
    have hl := ih fun x hx => h x (List.mem_cons_of_mem a hx)
    rw [value_cons, List.length_cons, pow_succ]
    calc d a * b ^ l.length + value d b l
        < d a * b ^ l.length + b ^ l.length := by omega
      _ = (d a + 1) * b ^ l.length := by ring
      _ ≤ b * b ^ l.length := Nat.mul_le_mul_right _ (h a List.mem_cons_self)
      _ = b ^ l.length * b := Nat.mul_comm _ _

theorem value_replicate {a : α} (h : d a = 0) (n : ℕ) : value d b (List.replicate n a) = 0 := by
  induction n with
  | zero => rfl
  | succ n ih => rw [List.replicate_succ, value_cons, h, ih, Nat.zero_mul]

/-- The smaller number is the earlier text, whatever follows. -/
theorem append_lt_append [LinearOrder α] {s : Set α} (hmono : StrictMonoOn d s)
    (hb : ∀ a ∈ s, d a < b) {l l' t t' : List α} (hl : ∀ a ∈ l, a ∈ s) (hl' : ∀ a ∈ l', a ∈ s)
    (hlen : l.length = l'.length) (h : value d b l < value d b l') : l ++ t < l' ++ t' := by
  induction l generalizing l' with
  | nil =>
    obtain rfl := List.length_eq_zero_iff.mp hlen.symm
    exact absurd h (Nat.lt_irrefl _)
  | cons a l ih =>
    obtain ⟨a', l', rfl⟩ := List.exists_cons_of_length_eq_add_one hlen.symm
    have ha := hl a List.mem_cons_self
    have ha' := hl' a' List.mem_cons_self
    have htail : l.length = l'.length := Nat.succ.inj hlen
    rw [value_cons, value_cons, htail] at h
    rw [List.cons_append, List.cons_append, List.cons_lt_cons_iff]
    obtain hlt | heq | hgt := lt_trichotomy a a'
    · exact .inl hlt
    · rw [heq] at h
      exact .inr ⟨heq, ih (fun x hx => hl x (List.mem_cons_of_mem a hx))
        (fun x hx => hl' x (List.mem_cons_of_mem a' hx)) htail (Nat.lt_of_add_lt_add_left h)⟩
    · have hle : value d b l' < b ^ l'.length :=
        value_lt fun x hx => hb x (hl' x (List.mem_cons_of_mem a' hx))
      have hd : d a' + 1 ≤ d a := hmono ha' ha hgt
      have hstep : (d a' + 1) * b ^ l'.length ≤ d a * b ^ l'.length :=
        Nat.mul_le_mul_right _ hd
      rw [Nat.add_mul, Nat.one_mul] at hstep
      omega

end Numerals
