import Mathlib.Data.List.Nodup
import Mathlib.Data.List.Sort
import Mathlib.Order.Defs.LinearOrder

set_option autoImplicit false

/-!
# First fit

Requests are served one after the other, each with the least slot that fits it and that no
earlier one has taken.
-/
namespace Spade.FirstFit
variable {R S : Type*} [LinearOrder S] (fits : R → S → Prop)

/-- The least slot that fits and is not taken. -/
def First (taken : List S) (r : R) (n : S) : Prop :=
  fits r n ∧ n ∉ taken ∧ ∀ n', fits r n' → n' < n → n' ∈ taken

/-- Every request with its slot. -/
def Serves : List S → List (R × S) → Prop
  | _, [] => True
  | taken, e :: l => First fits taken e.1 e.2 ∧ Serves (e.2 :: taken) l

variable {fits} {taken taken' : List S} {l l' : List (R × S)}

theorem First.unique {r : R} {n n' : S} (h : First fits taken r n) (h' : First fits taken r n') :
    n = n' := by
  rcases lt_trichotomy n n' with hlt | rfl | hlt
  · exact absurd (h'.2.2 n h.1 hlt) h.2.1
  · rfl
  · exact absurd (h.2.2 n' h'.1 hlt) h'.2.1

theorem First.congr {r : R} {n : S} (h : First fits taken r n)
    (ht : ∀ x, x ∈ taken ↔ x ∈ taken') : First fits taken' r n :=
  ⟨h.1, fun hn => h.2.1 ((ht n).mpr hn), fun n' hf hlt => (ht n').mp (h.2.2 n' hf hlt)⟩

/-- The slots are determined by the requests. -/
theorem Serves.unique (h : Serves fits taken l) (h' : Serves fits taken l')
    (hr : l.map Prod.fst = l'.map Prod.fst) : l = l' := by
  induction l generalizing taken l' with
  | nil => exact (List.map_eq_nil_iff.mp hr.symm).symm
  | cons e l ih =>
    obtain ⟨r, n⟩ := e
    cases l' with
    | nil => cases hr
    | cons e' l' =>
      obtain ⟨r', n'⟩ := e'
      obtain ⟨rfl, htail⟩ := List.cons.inj hr
      obtain rfl : n = n' := h.1.unique h'.1
      rw [ih h.2 h'.2 htail]

theorem Serves.each (h : Serves fits taken l) : ∀ e ∈ l, fits e.1 e.2 := by
  induction l generalizing taken with
  | nil => exact nofun
  | cons e l ih =>
    intro e' he
    rcases List.mem_cons.mp he with rfl | he
    · exact h.1.1
    · exact ih h.2 e' he

/-- No slot is used twice, or was taken before. -/
theorem Serves.nodup (h : Serves fits taken l) :
    (l.map Prod.snd).Nodup ∧ ∀ e ∈ l, e.2 ∉ taken := by
  induction l generalizing taken with
  | nil => exact ⟨List.nodup_nil, nofun⟩
  | cons e l ih =>
    obtain ⟨hn, hfree⟩ := ih h.2
    rw [List.map_cons, List.nodup_cons, List.forall_mem_cons]
    refine ⟨⟨fun hm => ?_, hn⟩, h.1.2.1, fun e' he hm => hfree e' he (List.mem_cons_of_mem _ hm)⟩
    obtain ⟨e', he', heq⟩ := List.mem_map.mp hm
    exact hfree e' he' (heq ▸ List.mem_cons_self)

/-- The first entry of a list in order that passes a test is the least that does. -/
theorem find_sorted {V : Type*} {m : List (S × V)} (hsort : m.Pairwise fun a b => a.1 ≤ b.1)
    (hn : (m.map Prod.fst).Nodup) {test : S × V → Bool} {e : S × V} :
    m.find? test = some e ↔ e ∈ m ∧ test e = true ∧ ∀ e' ∈ m, test e' = true → ¬e'.1 < e.1 := by
  induction m with
  | nil => simp
  | cons x m ih =>
    obtain ⟨hx, hsort⟩ := List.pairwise_cons.mp hsort
    obtain ⟨hxn, hn⟩ := List.nodup_cons.mp hn
    by_cases ht : test x = true
    · rw [List.find?_cons_of_pos ht, Option.some.injEq]
      constructor
      · rintro rfl
        refine ⟨List.mem_cons_self, ht, fun e' he' _ hlt => ?_⟩
        rcases List.mem_cons.mp he' with rfl | he'
        · exact lt_irrefl _ hlt
        · exact absurd (hx e' he') (not_le.mpr hlt)
      · rintro ⟨he, -, hleast⟩
        rcases List.mem_cons.mp he with rfl | he
        · rfl
        · refine (hleast x List.mem_cons_self ht (lt_of_le_of_ne (hx e he) ?_)).elim
          exact fun heq => hxn (heq ▸ List.mem_map_of_mem he)
    · rw [List.find?_cons_of_neg ht, ih hsort hn]
      constructor
      · rintro ⟨he, hte, hleast⟩
        refine ⟨List.mem_cons_of_mem _ he, hte, fun e' he' ht' => ?_⟩
        rcases List.mem_cons.mp he' with rfl | he'
        · exact absurd ht' ht
        · exact hleast e' he' ht'
      · rintro ⟨he, hte, hleast⟩
        rcases List.mem_cons.mp he with rfl | he
        · exact absurd hte ht
        · exact ⟨he, hte, fun e' he' => hleast e' (List.mem_cons_of_mem _ he')⟩

end Spade.FirstFit
