import Mathlib.Data.List.Nodup
import Mathlib.Data.List.Count
import Mathlib.Logic.Function.Basic

set_option autoImplicit false

/-!
# Numbered occurrences

Each element of a list with the number of times that it was there before, and when names made of
both are distinct.
-/
namespace Occurrences

variable {α : Type*} [DecidableEq α]

/-- The elements with their numbers, which go on from what was counted before. -/
def numberFrom (c : α → ℕ) : List α → List (α × ℕ)
  | [] => []
  | a :: l => (a, c a) :: numberFrom (Function.update c a (c a + 1)) l

theorem mem_numberFrom {c : α → ℕ} {l : List α} {x : α} {n : ℕ} :
    (x, n) ∈ numberFrom c l ↔ c x ≤ n ∧ n < c x + l.count x := by
  induction l generalizing c with
  | nil =>
    rw [numberFrom, List.count_nil]
    exact ⟨nofun, fun h => by omega⟩
  | cons a l ih =>
    rw [numberFrom, List.mem_cons, ih, Prod.mk.injEq, List.count_cons]
    by_cases hx : x = a
    · subst hx
      rw [Function.update_self, beq_self_eq_true, if_pos rfl, eq_self, true_and]
      omega
    · rw [Function.update_of_ne hx, if_neg (by simpa using Ne.symm hx)]
      simp only [hx, false_and, false_or, Nat.add_zero]

theorem length_numberFrom (c : α → ℕ) (l : List α) : (numberFrom c l).length = l.length := by
  induction l generalizing c with
  | nil => rfl
  | cons a l ih => rw [numberFrom, List.length_cons, ih, List.length_cons]

theorem nodup_numberFrom (c : α → ℕ) (l : List α) : (numberFrom c l).Nodup := by
  induction l generalizing c with
  | nil => exact List.nodup_nil
  | cons a l ih =>
    refine List.nodup_cons.mpr ⟨fun h => ?_, ih _⟩
    have hle := (mem_numberFrom.mp h).1
    rw [Function.update_self] at hle
    omega

/-- Names are distinct if no numbered name is that of another element, where the first occurrence
keeps its name and the others have a name that shows the element and the number. -/
theorem nodup_names_iff {f : α → ℕ → α} (hfirst : ∀ x, f x 0 = x)
    (hshow : ∀ {x y m n}, f x (m + 1) = f y (n + 1) → x = y ∧ m = n) (l : List α) :
    ((numberFrom (fun _ => 0) l).map fun p => f p.1 p.2).Nodup ↔
      ∀ x n, n + 1 < l.count x → f x (n + 1) ∉ l := by
  have hmem : ∀ x n, (x, n) ∈ numberFrom (fun _ => 0) l ↔ n < l.count x := by
    intro x n
    rw [mem_numberFrom, Nat.zero_add]
    exact and_iff_right (Nat.zero_le n)
  rw [List.nodup_map_iff_inj_on (nodup_numberFrom _ l)]
  constructor
  · intro hinj x n hn hx
    have heq := hinj (x, n + 1) ((hmem x (n + 1)).mpr hn) (f x (n + 1), 0)
      ((hmem _ 0).mpr (List.count_pos_iff.mpr hx)) (hfirst _).symm
    exact absurd (congrArg Prod.snd heq) (Nat.succ_ne_zero n)
  · rintro hno ⟨x, m⟩ hx ⟨y, n⟩ hy heq
    have hm := (hmem x m).mp hx
    have hn := (hmem y n).mp hy
    cases m with
    | zero =>
      cases n with
      | zero => rw [← hfirst x, ← hfirst y]; exact Prod.ext_iff.mpr ⟨heq, rfl⟩
      | succ n =>
        have hname : f y (n + 1) = x := heq.symm.trans (hfirst x)
        exact absurd (hname ▸ List.count_pos_iff.mp hm) (hno y n hn)
    | succ m =>
      cases n with
      | zero =>
        have hname : f x (m + 1) = y := heq.trans (hfirst y)
        exact absurd (hname ▸ List.count_pos_iff.mp hn) (hno x m hm)
      | succ n =>
        obtain ⟨rfl, rfl⟩ := hshow heq
        rfl

end Occurrences
