import Mathlib.Data.Finset.Card
import Mathlib.Logic.Relation
import Mathlib.Order.Monotone.Basic

set_option autoImplicit false

/-!
# Paths of bounded length

`Steps R n x y`: there is a path from `x` to `y` of at least one and at most `n`
steps. Over a finite set of targets its size is length enough.
-/
namespace Spade.BoundedPaths
variable {α : Type} (R : α → α → Prop)

def Steps : ℕ → α → α → Prop
  | 0, _, _ => False
  | n + 1, x, y => ∃ z, R x z ∧ (z = y ∨ Steps n z y)

variable {R}

theorem Steps.mono {n : ℕ} {x y : α} (h : Steps R n x y) : Steps R (n + 1) x y := by
  induction n generalizing x with
  | zero => exact h.elim
  | succ n ih =>
    obtain ⟨z, hz, hy⟩ := h
    exact ⟨z, hz, hy.imp_right ih⟩

/-- A path seen from its last step. -/
theorem steps_succ {n : ℕ} {x y : α} :
    Steps R (n + 1) x y ↔ R x y ∨ ∃ z, Steps R n x z ∧ R z y := by
  induction n generalizing x with
  | zero => simp [Steps]
  | succ n ih =>
    constructor
    · rintro ⟨z, hz, rfl | hy⟩
      · exact Or.inl hz
      · rcases ih.mp hy with hzy | ⟨w, hw, hwy⟩
        · exact Or.inr ⟨z, ⟨z, hz, Or.inl rfl⟩, hzy⟩
        · exact Or.inr ⟨w, ⟨z, hz, Or.inr hw⟩, hwy⟩
    · rintro (h | ⟨w, ⟨z, hz, rfl | hw⟩, hwy⟩)
      · exact ⟨y, h, Or.inl rfl⟩
      · exact ⟨z, hz, Or.inr (ih.mpr (Or.inl hwy))⟩
      · exact ⟨z, hz, Or.inr (ih.mpr (Or.inr ⟨w, hw, hwy⟩))⟩

theorem Steps.transGen {n : ℕ} {x y : α} (h : Steps R n x y) : Relation.TransGen R x y := by
  induction n generalizing x with
  | zero => exact h.elim
  | succ n ih =>
    obtain ⟨z, hz, rfl | hy⟩ := h
    · exact .single hz
    · exact .head hz (ih hy)

theorem steps_of_transGen {x y : α} (h : Relation.TransGen R x y) : ∃ n, Steps R n x y := by
  induction h with
  | single h => exact ⟨1, _, h, Or.inl rfl⟩
  | tail _ h ih =>
    obtain ⟨n, hn⟩ := ih
    exact ⟨n + 1, steps_succ.mpr (Or.inr ⟨_, hn, h⟩)⟩

open Classical in
/-- The targets within `n` steps no longer grow once `n` has reached their number. -/
theorem steps_card {U : Finset α} (hU : ∀ x y, R x y → y ∈ U) {n : ℕ} {x y : α}
    (h : Steps R n x y) : Steps R U.card x y := by
  let reach : ℕ → Finset α := fun n => U.filter fun z => Steps R n x z
  have hmem : ∀ n z, z ∈ reach n ↔ Steps R n x z := by
    intro n z
    simp only [reach, Finset.mem_filter, and_iff_right_iff_imp]
    intro hz
    obtain ⟨w, -, hw⟩ := Relation.TransGen.tail'_iff.mp hz.transGen
    exact hU w z hw
  have hmono : ∀ n, reach n ⊆ reach (n + 1) := fun n z hz =>
    (hmem _ _).mpr ((hmem _ _).mp hz).mono
  have hstab : ∀ n, (reach n).card = (reach (n + 1)).card →
      (reach (n + 1)).card = (reach (n + 2)).card := by
    intro n hn
    have heq : reach n = reach (n + 1) := Finset.eq_of_subset_of_card_le (hmono n) hn.ge
    congr 1
    ext z
    rw [hmem, hmem, steps_succ, steps_succ (n := n + 1)]
    simp only [← hmem, heq]
  have hcard := Nat.stabilises_of_monotone (f := fun n => (reach n).card) (b := U.card)
    (n := max n U.card) (monotone_nat_of_le_succ fun n => Finset.card_le_card (hmono n))
    (fun _ => Finset.card_filter_le _ _) hstab (le_max_right _ _)
  have hsub : ∀ a b, a ≤ b → reach a ⊆ reach b := fun a b hab =>
    monotone_nat_of_le_succ (f := reach) hmono hab
  have heq : reach U.card = reach (max n U.card) :=
    Finset.eq_of_subset_of_card_le (hsub _ _ (le_max_right _ _)) hcard.le
  rw [← hmem, heq]
  exact hsub _ _ (le_max_left _ _) ((hmem n y).mpr h)

section
variable {U : Finset α}

open Classical in
/-- What is reached from `x`. -/
noncomputable def below (R : α → α → Prop) (U : Finset α) (x : α) : Finset α :=
  U.filter fun y => Relation.TransGen R x y

open Classical in
theorem mem_below {x y : α} : y ∈ below R U x ↔ y ∈ U ∧ Relation.TransGen R x y := Finset.mem_filter

/-- Without cycles there is less below a target than below where it is reached from. -/
theorem card_below_lt (hU : ∀ x y, R x y → y ∈ U) (hacyclic : ∀ x, ¬Relation.TransGen R x x)
    {x y : α} (h : R x y) : (below R U y).card < (below R U x).card := by
  have hsub : below R U y ⊆ below R U x := by
    intro z hz
    obtain ⟨hzU, hyz⟩ := mem_below.mp hz
    exact mem_below.mpr ⟨hzU, .head h hyz⟩
  refine Finset.card_lt_card ((Finset.ssubset_iff_of_subset hsub).mpr ⟨y, ?_, fun hy => ?_⟩)
  · exact mem_below.mpr ⟨hU x y h, .single h⟩
  · exact hacyclic y (mem_below.mp hy).2

open Classical in
theorem card_below_le (x : α) : (below R U x).card ≤ U.card := Finset.card_filter_le U _

end

end Spade.BoundedPaths
