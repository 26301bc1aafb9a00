import Spade.Lib.Strides

set_option autoImplicit false

/-!
# Ranges of whole numbers

The values over which `base.map_range` fans out, where start, end and step are whole numbers
(`blocks/base/src/map_range.rs`).
-/
namespace Spade.MapRange
open Strides

def maxItems : ℕ := 1000000

def minI64 : ℤ := -2 ^ 63

def maxI64 : ℤ := 2 ^ 63 - 1

/-- The cast of a double saturates. -/
def asI64 (x : ℤ) : ℤ := max minI64 (min x maxI64)

def FitsI64 (x : ℤ) : Prop := minI64 ≤ x ∧ x ≤ maxI64

instance (x : ℤ) : Decidable (FitsI64 x) := inferInstanceAs (Decidable (_ ∧ _))

inductive BaseError where
  | badExpression (reason : String)
  deriving DecidableEq

/-- The values, an error, or an addition that overflows. -/
inductive Outcome where
  | ok (out : List ℤ)
  | err (e : BaseError)
  | overflow
  deriving DecidableEq

def tooMany : BaseError := .badExpression s!"range would emit more than {maxItems} items"

/-- The loops of both directions, with room for so many values. -/
def emit (s e : ℤ) : ℕ → ℤ → List ℤ → Outcome
  | 0, v, out => if Before s e v then .err tooMany else .ok out
  | room + 1, v, out =>
    if Before s e v then
      if FitsI64 (v + s) then emit s e room (v + s) (out ++ [v]) else .overflow
    else .ok out

/-- What the checks say of the three numbers. -/
def check (start stop step : ℤ) : Option BaseError :=
  if step = 0 then some (.badExpression "step must be non-zero")
  else if start = stop then some (.badExpression "start must not equal end")
  else if (stop - start).sign ≠ step.sign then
    some (.badExpression "step sign must match direction from start to end")
  else none

def generateValues (start stop step : ℤ) : Outcome :=
  match check start stop step with
  | some e => .err e
  | none => emit (asI64 step) (asI64 stop) maxItems (asI64 start) []

/-- The values before the end are put out if there are not too many of them. -/
def Exact (start stop step : ℤ) : Prop :=
  generateValues start stop step =
    if count step stop start ≤ maxItems then .ok (values step stop start) else .err tooMany

/-- There are too many values, also with the numbers that the casts give. -/
def ManyBothWays (start stop step : ℤ) : Prop :=
  maxItems < count step stop start ∧ maxItems < count (asI64 step) (asI64 stop) (asI64 start)

/-- There are not too many values, and they and the sum after the last are 64-bit numbers. The
step is one too if it is used, and the cast of the end cuts none of them off. -/
def FewWithinI64 (start stop step : ℤ) : Prop :=
  count step stop start ≤ maxItems ∧
  count (asI64 step) (asI64 stop) (asI64 start) = count step stop start ∧
  FitsI64 start ∧ (FitsI64 step ∨ count step stop start = 1) ∧
  FitsI64 (start + count step stop start * asI64 step)

/-! The loop. -/

theorem fits_asI64 (x : ℤ) : FitsI64 (asI64 x) := by
  unfold FitsI64 asI64 minI64 maxI64
  omega

theorem asI64_eq {x : ℤ} : asI64 x = x ↔ FitsI64 x := by
  unfold FitsI64 asI64 minI64 maxI64
  omega

theorem asI64_ne_zero {x : ℤ} (h : x ≠ 0) : asI64 x ≠ 0 := by
  unfold asI64 minI64 maxI64
  omega

/-- A number that is still before the end lies between two 64-bit numbers. -/
theorem fits_of_before {s e v : ℤ} (hs : s ≠ 0) (hv : FitsI64 v) (he : FitsI64 e)
    (h : Before s e (v + s)) : FitsI64 (v + s) := by
  have hone : Before s e (v + (1 : ℕ) * s) := by rwa [Nat.cast_one, one_mul]
  have hbetween := hone.between hs
  rw [Nat.cast_one, one_mul] at hbetween
  unfold FitsI64 at *
  omega

/-- The loop stops at the room that there is, and else with the sum after the last value. -/
theorem emit_eq {s e : ℤ} (hs : s ≠ 0) (he : FitsI64 e) (room : ℕ) {v : ℤ} (out : List ℤ)
    (hv : FitsI64 v) : emit s e room v out =
      if room < count s e v then .err tooMany
      else if FitsI64 (v + count s e v * s) then .ok (out ++ values s e v)
      else .overflow := by
  induction room generalizing v out with
  | zero =>
    unfold emit
    by_cases h : Before s e v
    · rw [if_pos h, if_pos (Nat.pos_of_ne_zero fun hzero => (count_eq_zero hs).mp hzero h)]
    · rw [if_neg h, (count_eq_zero hs).mpr h, if_neg (lt_irrefl 0), values_nil hs h,
        List.append_nil, Nat.cast_zero, zero_mul, add_zero, if_pos hv]
  | succ room ih =>
    unfold emit
    by_cases h : Before s e v
    · have hlast : v + ((count s e (v + s) + 1 : ℕ) : ℤ) * s =
          v + s + count s e (v + s) * s := by push_cast; ring
      rw [if_pos h, count_succ hs h, values_cons hs h, hlast]
      simp only [Nat.add_lt_add_iff_right]
      by_cases hfits : FitsI64 (v + s)
      · rw [if_pos hfits, ih _ hfits, List.append_assoc]
        rfl
      · have hend : ¬Before s e (v + s) := fun hb => hfits (fits_of_before hs hv he hb)
        rw [if_neg hfits, (count_eq_zero hs).mpr hend, if_neg (Nat.not_lt_zero room),
          Nat.cast_zero, zero_mul, add_zero, if_neg hfits]
    · rw [if_neg h, (count_eq_zero hs).mpr h, if_neg (Nat.not_lt_zero _), values_nil hs h,
        List.append_nil, Nat.cast_zero, zero_mul, add_zero, if_pos hv]

/-! The values that are put out. -/

variable {start stop step : ℤ}

theorem step_ne_zero (h : check start stop step = none) : step ≠ 0 := by
  unfold check at h
  split_ifs at h with hzero
  exact hzero

/-- The start is before the end. -/
theorem before_of_check (h : check start stop step = none) : Before step stop start := by
  unfold check at h
  split_ifs at h with hzero heq hsign
  unfold Before
  split_ifs with hpos
  · have hdir := (not_not.mp hsign).trans (Int.sign_eq_one_of_pos hpos)
    have hlt := Int.pos_of_sign_eq_one hdir
    omega
  · have hdir := (not_not.mp hsign).trans (Int.sign_eq_neg_one_of_neg (by omega))
    have hlt := Int.neg_of_sign_eq_neg_one hdir
    omega

theorem generateValues_eq (h : check start stop step = none) :
    generateValues start stop step =
      if maxItems < count (asI64 step) (asI64 stop) (asI64 start) then .err tooMany
      else if FitsI64 (asI64 start +
          count (asI64 step) (asI64 stop) (asI64 start) * asI64 step) then
        .ok (values (asI64 step) (asI64 stop) (asI64 start))
      else .overflow := by
  unfold generateValues
  rw [h]
  exact emit_eq (asI64_ne_zero (step_ne_zero h)) (fits_asI64 stop) maxItems [] (fits_asI64 start)

theorem exact_iff (h : check start stop step = none) :
    Exact start stop step ↔ ManyBothWays start stop step ∨ FewWithinI64 start stop step := by
  have hne : count step stop start ≠ 0 :=
    fun hzero => (count_eq_zero (step_ne_zero h)).mp hzero (before_of_check h)
  have hvalues := values_eq_values (t := asI64 step) (f := asI64 stop) (w := asI64 start) hne
  unfold Exact ManyBothWays FewWithinI64
  rw [generateValues_eq h]
  by_cases hmany : maxItems < count step stop start
  · rw [if_neg hmany.not_ge]
    split_ifs with hcast hfits
    · exact iff_of_true rfl (.inl ⟨hmany, hcast⟩)
    · exact iff_of_false nofun fun hor => hor.elim (fun hb => hcast hb.2) fun hf =>
        hmany.not_ge hf.1
    · exact iff_of_false nofun fun hor => hor.elim (fun hb => hcast hb.2) fun hf =>
        hmany.not_ge hf.1
  · have hfew := not_lt.mp hmany
    rw [if_pos hfew]
    split_ifs with hcast hfits
    · refine iff_of_false nofun fun hor => hor.elim (fun hb => hmany hb.1) fun hf => ?_
      rw [hf.2.1] at hcast
      exact hmany hcast
    · rw [Outcome.ok.injEq, hvalues, asI64_eq, asI64_eq]
      constructor
      · rintro ⟨hcount, hstart, hstep⟩
        rw [hcount, asI64_eq.mpr hstart] at hfits
        exact .inr ⟨hfew, hcount, hstart, hstep, hfits⟩
      · rintro (hb | ⟨-, hcount, hstart, hstep, -⟩)
        · exact absurd hb.1 hmany
        · exact ⟨hcount, hstart, hstep⟩
    · refine iff_of_false nofun fun hor => hor.elim (fun hb => hmany hb.1) fun hf => ?_
      rw [hf.2.1, asI64_eq.mpr hf.2.2.1] at hfits
      exact hfits hf.2.2.2.2

theorem exact_hundred : Exact 0 100 7 ↔ ManyBothWays 0 100 7 ∨ FewWithinI64 0 100 7 :=
  exact_iff (by decide)

/-- The sum after the second value is beyond the type. -/
theorem exact_fails : check 0 (2 ^ 63 - 1024) (3 * 2 ^ 61) = none ∧
    values (3 * 2 ^ 61) (2 ^ 63 - 1024) 0 = [0, 3 * 2 ^ 61] ∧
    generateValues 0 (2 ^ 63 - 1024) (3 * 2 ^ 61) = .overflow ∧
    ¬Exact 0 (2 ^ 63 - 1024) (3 * 2 ^ 61) := by
  have hvalues : generateValues 0 (2 ^ 63 - 1024) (3 * 2 ^ 61) = .overflow := by decide
  refine ⟨by decide, by decide, hvalues, fun h => ?_⟩
  unfold Exact at h
  rw [hvalues] at h
  split_ifs at h

end Spade.MapRange
