import Spade.Lib.Words

set_option autoImplicit false

/-!
# Wildcards

A pattern in which each star stands for any text, as pieces that stand in a text one after the
other, and the search that takes the leftmost place for each piece.
-/
namespace Wildcard
open Words

variable {α : Type*}

/-- The pieces stand in the text in this order, and it ends with `t` after them. -/
def Spread : List (List α) → List α → List α → Prop
  | [], s, t => t <:+ s
  | w :: ws, s, t => ∃ x r, s = x ++ (w ++ r) ∧ Spread ws r t

/-- The pieces, with some text between each two of them. -/
def Joined : List (List α) → List α → Prop
  | [], s => s = []
  | [w], s => s = w
  | w :: v :: ws, s => ∃ x r, s = w ++ (x ++ r) ∧ Joined (v :: ws) r

theorem joined_spread (w last : List α) (ws : List (List α)) (s : List α) :
    Joined (w :: (ws ++ [last])) s ↔ ∃ r, s = w ++ r ∧ Spread ws r last := by
  induction ws generalizing w s with
  | nil =>
    constructor
    · rintro ⟨x, r, rfl, rfl⟩
      exact ⟨x ++ r, rfl, List.suffix_append x r⟩
    · rintro ⟨r, rfl, x, rfl⟩
      exact ⟨x, last, rfl, rfl⟩
  | cons v ws ih =>
    constructor
    · rintro ⟨x, r, rfl, hr⟩
      obtain ⟨q, rfl, hq⟩ := (ih v r).mp hr
      exact ⟨x ++ (v ++ q), rfl, x, q, rfl, hq⟩
    · rintro ⟨r, rfl, x, q, rfl, hq⟩
      exact ⟨x, v ++ q, rfl, (ih v (v ++ q)).mpr ⟨q, rfl, hq⟩⟩

theorem Spread.mono {ws : List (List α)} {r q t : List α} (h : Spread ws r t) (hq : r <:+ q) :
    Spread ws q t := by
  cases ws with
  | nil => exact List.IsSuffix.trans h hq
  | cons w ws =>
    obtain ⟨x, p, rfl, hp⟩ := h
    obtain ⟨y, rfl⟩ := hq
    exact ⟨y ++ x, p, (List.append_assoc y x _).symm, hp⟩

/-- The text that is left can be taken off the end. -/
theorem spread_append {ws : List (List α)} {s t : List α} :
    Spread ws s t ↔ ∃ b, s = b ++ t ∧ Spread ws b [] := by
  induction ws generalizing s with
  | nil =>
    exact ⟨fun ⟨b, hb⟩ => ⟨b, hb.symm, List.nil_suffix⟩, fun ⟨b, hb, _⟩ => ⟨b, hb.symm⟩⟩
  | cons w ws ih =>
    constructor
    · rintro ⟨x, r, rfl, hr⟩
      obtain ⟨b, rfl, hb⟩ := ih.mp hr
      exact ⟨x ++ (w ++ b), by simp only [List.append_assoc], x, b, rfl, hb⟩
    · rintro ⟨c, rfl, x, b, rfl, hb⟩
      exact ⟨x, b ++ t, by simp only [List.append_assoc], ih.mpr ⟨b, rfl, hb⟩⟩

variable [DecidableEq α]

/-- The texts that come from a pattern when each star is replaced by some text. -/
def Expands (star : α) : List α → List α → Prop
  | [], s => s = []
  | c :: p, s =>
    if c = star then ∃ x r, s = x ++ r ∧ Expands star p r else ∃ r, s = c :: r ∧ Expands star p r

theorem expands_iff (star : α) (p s : List α) :
    Expands star p s ↔ Joined (p.splitOn star) s := by
  induction p generalizing s with
  | nil => rw [List.splitOn_nil]; exact Iff.rfl
  | cons c p ih =>
    obtain ⟨w, ws, hw⟩ := exists_splitOn star p
    unfold Expands
    simp only [ih]
    by_cases hc : c = star
    · rw [if_pos hc, hc, splitOn_sep, hw]
      exact Iff.rfl
    · rw [if_neg hc, splitOn_letter hc, hw]
      cases ws with
      | nil => exact ⟨fun ⟨r, hs, hr⟩ => hs.trans (congrArg (c :: ·) hr), fun h => ⟨w, h, rfl⟩⟩
      | cons v ws =>
        constructor
        · rintro ⟨q, rfl, x, r, rfl, hr⟩
          exact ⟨x, r, rfl, hr⟩
        · rintro ⟨x, r, rfl, hr⟩
          exact ⟨w ++ (x ++ r), rfl, x, r, rfl, hr⟩

/-! The leftmost places. -/

/-- What follows the leftmost place of a piece. -/
def after (w : List α) : List α → Option (List α)
  | [] => if w = [] then some [] else none
  | c :: s => if w <+: c :: s then some ((c :: s).drop w.length) else after w s

def afterAll (ws : List (List α)) (s : List α) : Option (List α) :=
  ws.foldlM (fun s w => after w s) s

theorem eq_of_after {w r : List α} {s : List α} (h : after w s = some r) :
    ∃ x, s = x ++ (w ++ r) := by
  induction s with
  | nil =>
    rw [after, Option.ite_none_right_eq_some] at h
    obtain ⟨rfl, hr⟩ := h
    exact ⟨[], Option.some.inj hr⟩
  | cons c s ih =>
    rw [after] at h
    split_ifs at h with hw
    · obtain ⟨q, hq⟩ := hw
      rw [← hq, List.drop_left] at h
      exact ⟨[], by rw [← hq, Option.some.inj h, List.nil_append]⟩
    · obtain ⟨x, rfl⟩ := ih h
      exact ⟨c :: x, rfl⟩

/-- No other place leaves more of the text. -/
theorem exists_after (x w r : List α) :
    ∃ q, after w (x ++ (w ++ r)) = some q ∧ r <:+ q := by
  induction x with
  | nil =>
    rw [List.nil_append]
    cases hs : w ++ r with
    | nil =>
      obtain ⟨rfl, rfl⟩ := List.append_eq_nil_iff.mp hs
      exact ⟨[], rfl, List.suffix_refl []⟩
    | cons c s =>
      refine ⟨r, ?_, List.suffix_refl r⟩
      rw [after, ← hs, if_pos (List.prefix_append w r), List.drop_left]
  | cons c x ih =>
    rw [List.cons_append, after]
    split_ifs with hw
    · refine ⟨_, rfl, ?_⟩
      have hsuf : r <:+ (c :: (x ++ (w ++ r))) := ⟨c :: (x ++ w), by simp⟩
      refine List.suffix_of_suffix_length_le hsuf (List.drop_suffix _ _) ?_
      simp only [List.length_drop, List.length_cons, List.length_append]
      omega
    · exact ih

/-- The leftmost places serve if any places do. -/
theorem spread_iff (ws : List (List α)) (s t : List α) :
    Spread ws s t ↔ ∃ r, afterAll ws s = some r ∧ t <:+ r := by
  induction ws generalizing s with
  | nil => exact ⟨fun h => ⟨s, rfl, h⟩, fun ⟨r, hr, h⟩ => Option.some.inj hr ▸ h⟩
  | cons w ws ih =>
    have hcons : afterAll (w :: ws) s = (after w s).bind (afterAll ws) := List.foldlM_cons
    rw [hcons]
    constructor
    · rintro ⟨x, r, rfl, hr⟩
      obtain ⟨q, hq, hsuf⟩ := exists_after x w r
      rw [hq]
      exact (ih q).mp (hr.mono hsuf)
    · rintro ⟨r, hr, ht⟩
      obtain ⟨q, hq, hall⟩ := Option.bind_eq_some_iff.mp hr
      obtain ⟨x, hx⟩ := eq_of_after hq
      exact ⟨x, q, hx, (ih q).mpr ⟨r, hall, ht⟩⟩

end Wildcard
