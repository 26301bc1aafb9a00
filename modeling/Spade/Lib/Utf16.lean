import Mathlib.Data.String.Basic
import Mathlib.Tactic.Linarith

set_option autoImplicit false

/-!
# Texts by code points and by UTF-16 units

The order of texts by their UTF-16 code units, and where it is not the order by characters.
-/
namespace Spade

/-- The code units of a character: itself, or a pair of surrogates. -/
def codeUnits (c : Char) : List ℕ :=
  if c.toNat < 0x10000 then [c.toNat]
  else [0xD800 + (c.toNat - 0x10000) / 0x400, 0xDC00 + (c.toNat - 0x10000) % 0x400]

def unitsOf (l : List Char) : List ℕ := l.flatMap codeUnits

def utf16 (s : String) : List ℕ := unitsOf s.toList

/-- A character of one unit, above the surrogates, and one of two units. -/
def Char.Above (c d : Char) : Prop := 0xE000 ≤ c.toNat ∧ c.toNat < 0x10000 ∧ 0x10000 ≤ d.toNat

instance (c d : Char) : Decidable (Char.Above c d) := inferInstanceAs (Decidable (_ ∧ _))

/-- Where the texts differ first, one has a character above one of the other. -/
def AboveList : List Char → List Char → Prop
  | c :: s, d :: t => Char.Above c d ∨ c = d ∧ AboveList s t
  | _, _ => False

def Above (a b : String) : Prop := AboveList a.toList b.toList

theorem toNat_lt {c d : Char} : c < d ↔ c.toNat < d.toNat := Iff.rfl

theorem toNat_range (c : Char) : c.toNat < 0xD800 ∨ 0xDFFF < c.toNat ∧ c.toNat < 0x110000 := c.valid

theorem Char.Above.lt {c d : Char} (h : Char.Above c d) : c < d :=
  toNat_lt.mpr (h.2.1.trans_le h.2.2)

/-- How two texts compare whose first characters differ. -/
theorem units_lt {c d : Char} (hne : c ≠ d) (s t : List ℕ) : codeUnits c ++ s < codeUnits d ++ t ↔
    c < d ∧ ¬Char.Above c d ∨ Char.Above d c := by
  have hnat : c.toNat ≠ d.toNat := fun h => hne (Char.toNat_inj.mp h)
  have hc := toNat_range c
  have hd := toNat_range d
  unfold codeUnits
  rw [toNat_lt]
  unfold Char.Above
  split_ifs with h₁ h₂ h₂
  · simp only [List.cons_append, List.nil_append, List.cons_lt_cons_iff]
    omega
  · simp only [List.cons_append, List.nil_append, List.cons_lt_cons_iff]
    omega
  · simp only [List.cons_append, List.nil_append, List.cons_lt_cons_iff]
    omega
  · simp only [List.cons_append, List.nil_append, List.cons_lt_cons_iff]
    omega

theorem append_lt {A : Type} [LinearOrder A] {s t : List A} (l : List A) : l ++ s < l ++ t ↔ s < t := by
  induction l with
  | nil => rfl
  | cons x l ih => simp [ih]

theorem unitsOf_lt {a b : List Char} :
    unitsOf a < unitsOf b ↔ a < b ∧ ¬AboveList a b ∨ AboveList b a := by
  induction a generalizing b with
  | nil =>
    cases b with
    | nil => simp [unitsOf, AboveList]
    | cons d t =>
      have hpos : unitsOf [] < unitsOf (d :: t) := by
        unfold unitsOf codeUnits
        rw [List.flatMap_cons]
        split_ifs <;> simp
      simp [hpos, AboveList]
  | cons c s ih =>
    cases b with
    | nil =>
      have hle : ¬unitsOf (c :: s) < unitsOf [] := by simp [unitsOf]
      simp [hle, AboveList]
    | cons d t =>
      have hcons : ∀ x l, unitsOf (x :: l) = codeUnits x ++ unitsOf l := fun _ _ => rfl
      rw [hcons, hcons]
      by_cases hcd : c = d
      · subst hcd
        have hself : ¬Char.Above c c := fun h => (lt_irrefl c h.lt)
        rw [append_lt, ih]
        simp [AboveList, hself]
      · rw [units_lt hcd]
        have hdc : ¬d = c := fun h => hcd h.symm
        simp [AboveList, hcd, hdc, List.cons_lt_cons_iff]

theorem utf16_lt {a b : String} : utf16 a < utf16 b ↔ a < b ∧ ¬Above a b ∨ Above b a := by
  rw [String.lt_iff_toList_lt]
  exact unitsOf_lt

theorem AboveList.lt {a b : List Char} (h : AboveList a b) : a < b := by
  induction a generalizing b with
  | nil => exact h.elim
  | cons c s ih =>
    cases b with
    | nil => exact h.elim
    | cons d t =>
      rw [List.cons_lt_cons_iff]
      exact h.imp Char.Above.lt fun h => ⟨h.1, ih h.2⟩

theorem Above.lt {a b : String} (h : Above a b) : a < b :=
  String.lt_iff_toList_lt.mpr (AboveList.lt h)

/-- Texts in order are in the order of their units, but for one above the other. -/
theorem utf16_le {a b : String} (h : a ≤ b) : utf16 a ≤ utf16 b ↔ ¬Above a b := by
  rw [← not_lt, utf16_lt, not_iff_not]
  constructor
  · rintro (⟨hlt, -⟩ | habove)
    · exact absurd hlt h.not_gt
    · exact habove
  · exact .inr

theorem utf16_injective {a b : String} (h : utf16 a = utf16 b) : a = b := by
  by_contra hne
  rcases lt_or_gt_of_ne hne with hlt | hlt
  · by_cases habove : Above a b
    · exact absurd (utf16_lt.mpr (.inr habove)) (h ▸ lt_irrefl _)
    · exact absurd (utf16_lt.mpr (.inl ⟨hlt, habove⟩)) (h ▸ lt_irrefl _)
  · by_cases habove : Above b a
    · exact absurd (utf16_lt.mpr (.inr habove)) (h ▸ lt_irrefl _)
    · exact absurd (utf16_lt.mpr (.inl ⟨hlt, habove⟩)) (h ▸ lt_irrefl _)

end Spade
