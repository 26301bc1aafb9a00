import Mathlib.Algebra.Order.Group.Int
import Mathlib.Data.List.Range
import Mathlib.Tactic.Ring

set_option autoImplicit false

/-!
# Strides

The whole numbers that are reached from one by equal strides, up or down, before another.
-/
namespace Strides

/-- A number is before the end, in the direction of the stride. -/
def Before (s e v : ℤ) : Prop := if 0 < s then v < e else e < v

instance (s e v : ℤ) : Decidable (Before s e v) := inferInstanceAs (Decidable (ite _ _ _))

/-- The number of strides that start before the end. -/
def count (s e v : ℤ) : ℕ :=
  ((if 0 < s then e - v else v - e).toNat + s.natAbs - 1) / s.natAbs

/-- The numbers that are reached before the end, in their order. -/
def values (s e v : ℤ) : List ℤ := (List.range (count s e v)).map fun k : ℕ => v + k * s

variable {s e v : ℤ}

theorem lt_count (hs : s ≠ 0) (k : ℕ) : k < count s e v ↔ Before s e (v + k * s) := by
  have habs : 0 < s.natAbs := Int.natAbs_pos.mpr hs
  unfold count Before
  rw [← Nat.succ_le_iff, Nat.le_div_iff_mul_le habs, Nat.succ_mul]
  obtain hpos | hneg := hs.lt_or_gt.symm
  · have hmul : ((k * s.natAbs : ℕ) : ℤ) = k * s := by
      rw [Nat.cast_mul, Int.natAbs_of_nonneg hpos.le]
    rw [if_pos hpos, if_pos hpos]
    omega
  · have hmul : ((k * s.natAbs : ℕ) : ℤ) = -(k * s) := by
      rw [Nat.cast_mul, Int.ofNat_natAbs_of_nonpos hneg.le, mul_neg]
    rw [if_neg hneg.not_gt, if_neg hneg.not_gt]
    omega

theorem count_eq_zero (hs : s ≠ 0) : count s e v = 0 ↔ ¬Before s e v := by
  have hzero := lt_count (e := e) (v := v) hs 0
  rw [Nat.cast_zero, zero_mul, add_zero] at hzero
  rw [← hzero, Nat.pos_iff_ne_zero, not_not]

theorem count_succ (hs : s ≠ 0) (h : Before s e v) : count s e v = count s e (v + s) + 1 := by
  have hpos : count s e v ≠ 0 := fun hzero => (count_eq_zero hs).mp hzero h
  obtain ⟨n, hn⟩ := Nat.exists_eq_succ_of_ne_zero hpos
  rw [hn, Nat.succ_eq_add_one, Nat.add_right_cancel_iff]
  refine Nat.le_antisymm ?_ ?_ <;> refine le_of_forall_lt fun k hk => ?_
  · have hk' := (lt_count (e := e) (v := v) hs (k + 1)).mp (by omega)
    refine (lt_count hs k).mpr ?_
    convert hk' using 1
    push_cast
    ring
  · have hk' := (lt_count hs k).mp hk
    have hsucc : k + 1 < count s e v := by
      refine (lt_count hs (k + 1)).mpr ?_
      convert hk' using 1
      push_cast
      ring
    omega

theorem values_nil (hs : s ≠ 0) (h : ¬Before s e v) : values s e v = [] := by
  unfold values
  rw [(count_eq_zero hs).mpr h]
  rfl

theorem values_cons (hs : s ≠ 0) (h : Before s e v) :
    values s e v = v :: values s e (v + s) := by
  unfold values
  rw [count_succ hs h, List.range_succ_eq_map, List.map_cons, List.map_map]
  refine congrArg₂ List.cons (by simp) (List.map_congr_left fun k _ => ?_)
  simp only [Function.comp_apply, Nat.succ_eq_add_one]
  push_cast
  ring

/-- Two runs of strides reach the same numbers if they are as long, start at the same number and
make the same strides, unless there is but one number. -/
theorem values_eq_values {t f w : ℤ} (hcount : count s e v ≠ 0) :
    values t f w = values s e v ↔
      count t f w = count s e v ∧ w = v ∧ (t = s ∨ count s e v = 1) := by
  unfold values
  constructor
  · intro h
    have hlen : count t f w = count s e v := by simpa using congrArg List.length h
    rw [hlen, List.map_inj_left] at h
    have hfirst := h 0 (List.mem_range.mpr (Nat.pos_of_ne_zero hcount))
    rw [Nat.cast_zero, zero_mul, zero_mul, add_zero, add_zero] at hfirst
    refine ⟨hlen, hfirst, or_iff_not_imp_right.mpr fun hone => ?_⟩
    have hsecond := h 1 (List.mem_range.mpr (by omega))
    rw [hfirst, Nat.cast_one, one_mul, one_mul] at hsecond
    exact Int.add_left_cancel hsecond
  · rintro ⟨hlen, rfl, rfl | hone⟩
    · rw [hlen]
    · rw [hlen, hone]
      simp

/-- What is reached before the end lies between the first number and the end. -/
theorem Before.between (hs : s ≠ 0) {k : ℕ} (h : Before s e (v + k * s)) :
    min v e ≤ v + k * s ∧ v + k * s ≤ max v e := by
  unfold Before at h
  obtain hpos | hneg := hs.lt_or_gt.symm
  · have hk : 0 ≤ k * s := Int.mul_nonneg (Int.natCast_nonneg k) hpos.le
    rw [if_pos hpos] at h
    omega
  · have hk : k * s ≤ 0 := Int.mul_nonpos_of_nonneg_of_nonpos (Int.natCast_nonneg k) hneg.le
    rw [if_neg hneg.not_gt] at h
    omega

end Strides
