import Mathlib.Data.List.Lex
import Mathlib.Order.Lattice

set_option autoImplicit false

/-!
# The words of a list

A list is cut into words at each separator. With a separator below all other letters, lists are
in the order of their words.
-/
namespace Words

variable {α : Type*}

section Cut
variable [DecidableEq α] {sep : α}

theorem splitOn_sep (s : List α) : (sep :: s).splitOn sep = [] :: s.splitOn sep := by
  unfold List.splitOn
  rw [List.splitOnP_cons_eq_if_modifyHead, if_pos (beq_self_eq_true sep)]

theorem splitOn_letter {c : α} (h : c ≠ sep) (s : List α) :
    (c :: s).splitOn sep = (s.splitOn sep).modifyHead (c :: ·) := by
  unfold List.splitOn
  rw [List.splitOnP_cons_eq_if_modifyHead, if_neg (mt beq_iff_eq.mp h)]

/-- There is a first word. -/
theorem exists_splitOn (sep : α) (s : List α) : ∃ w ws, s.splitOn sep = w :: ws :=
  List.exists_cons_of_ne_nil (List.splitOnP_ne_nil _ s)

/-- With a separator there is a last word beside the first. -/
theorem exists_splitOn_of_mem {s : List α} (h : sep ∈ s) :
    ∃ w v ws, s.splitOn sep = w :: v :: ws := by
  induction s with
  | nil => exact absurd h List.not_mem_nil
  | cons c s ih =>
    by_cases hc : c = sep
    · obtain ⟨v, ws, hs⟩ := exists_splitOn sep s
      exact ⟨[], v, ws, by rw [hc, splitOn_sep, hs]⟩
    · obtain ⟨w, v, ws, hs⟩ := ih ((List.mem_cons.mp h).resolve_left (Ne.symm hc))
      exact ⟨c :: w, v, ws, by rw [splitOn_letter hc, hs]; rfl⟩

theorem not_mem_of_mem_splitOn {s w : List α} (h : w ∈ s.splitOn sep) : sep ∉ w := by
  induction s generalizing w with
  | nil =>
    obtain rfl := List.mem_singleton.mp h
    exact List.not_mem_nil
  | cons c s ih =>
    by_cases hc : c = sep
    · rw [hc, splitOn_sep] at h
      obtain rfl | hmem := List.mem_cons.mp h
      · exact List.not_mem_nil
      · exact ih hmem
    · obtain ⟨v, vs, hs⟩ := exists_splitOn sep s
      rw [splitOn_letter hc, hs] at h
      obtain rfl | hmem := List.mem_cons.mp h
      · have hv : sep ∉ v := ih (by rw [hs]; exact List.mem_cons_self)
        exact fun hsep => (List.mem_cons.mp hsep).elim (fun heq => hc heq.symm) hv
      · exact ih (by rw [hs]; exact List.mem_cons_of_mem v hmem)

theorem mem_of_mem_splitOn {c : α} {s w : List α} (h : w ∈ s.splitOn sep) (hc : c ∈ w) : c ∈ s := by
  induction s generalizing w with
  | nil =>
    obtain rfl := List.mem_singleton.mp h
    exact absurd hc List.not_mem_nil
  | cons d s ih =>
    by_cases hd : d = sep
    · rw [hd, splitOn_sep] at h
      obtain rfl | hmem := List.mem_cons.mp h
      · exact absurd hc List.not_mem_nil
      · exact List.mem_cons_of_mem d (ih hmem hc)
    · obtain ⟨v, vs, hs⟩ := exists_splitOn sep s
      rw [splitOn_letter hd, hs] at h
      obtain rfl | hmem := List.mem_cons.mp h
      · obtain rfl | hv := List.mem_cons.mp hc
        · exact List.mem_cons_self
        · exact List.mem_cons_of_mem d (ih (by rw [hs]; exact List.mem_cons_self) hv)
      · exact List.mem_cons_of_mem d (ih (by rw [hs]; exact List.mem_cons_of_mem v hmem) hc)

/-- Separators at the start only make empty words. -/
theorem mem_splitOn_dropWhile {s w : List α} (hw : w ≠ []) :
    w ∈ (s.dropWhile (· = sep)).splitOn sep ↔ w ∈ s.splitOn sep := by
  induction s with
  | nil => exact Iff.rfl
  | cons d s ih =>
    by_cases hd : d = sep
    · rw [List.dropWhile_cons_of_pos (by simpa using hd), ih, hd, splitOn_sep, List.mem_cons]
      exact (or_iff_right hw).symm
    · rw [List.dropWhile_cons_of_neg (by simpa using hd)]

/-- A letter is a separator or is one of a word. -/
theorem mem_splitOn {c : α} {s : List α} (h : c ∈ s) : c = sep ∨ ∃ w ∈ s.splitOn sep, c ∈ w := by
  induction s with
  | nil => exact absurd h List.not_mem_nil
  | cons d s ih =>
    obtain ⟨w, ws, hw⟩ := exists_splitOn sep s
    by_cases hd : d = sep
    · rw [hd, splitOn_sep]
      obtain rfl | hs := List.mem_cons.mp h
      · exact .inl hd
      · exact (ih hs).imp_right fun ⟨v, hv, hc⟩ => ⟨v, List.mem_cons_of_mem _ hv, hc⟩
    · rw [splitOn_letter hd, hw]
      obtain rfl | hs := List.mem_cons.mp h
      · exact .inr ⟨c :: w, List.mem_cons_self, List.mem_cons_self⟩
      · refine (ih hs).imp_right fun ⟨v, hv, hc⟩ => ?_
        rw [hw] at hv
        obtain rfl | hv := List.mem_cons.mp hv
        · exact ⟨d :: v, List.mem_cons_self, List.mem_cons_of_mem d hc⟩
        · exact ⟨v, List.mem_cons_of_mem _ hv, hc⟩

end Cut

variable [LinearOrder α] {sep : α}

private theorem cons_head_lt {c : α} {w v : List α} {ws vs : List (List α)} :
    (c :: w) :: ws < (c :: v) :: vs ↔ w :: ws < v :: vs := by
  simp only [List.cons_lt_cons_iff, List.cons.injEq, lt_irrefl, true_and, false_or]

private theorem cons_word_lt {c d : α} {w v : List α} {ws vs : List (List α)} (h : c < d) :
    (c :: w) :: ws < (d :: v) :: vs :=
  List.cons_lt_cons_iff.mpr (.inl (List.cons_lt_cons_iff.mpr (.inl h)))

/-- A list that starts with a lower letter has its words before those of the other. -/
private theorem splitOn_lt_of_lt {c d : α} {s t : List α} (hc : sep ≤ c) (h : c < d) :
    (c :: s).splitOn sep < (d :: t).splitOn sep := by
  obtain ⟨v, vs, hv⟩ := exists_splitOn sep t
  rw [splitOn_letter (hc.trans_lt h).ne', hv]
  obtain rfl | hne := eq_or_ne c sep
  · rw [splitOn_sep]
    exact List.cons_lt_cons_iff.mpr (.inl (List.nil_lt_cons _ _))
  · obtain ⟨w, ws, hw⟩ := exists_splitOn sep s
    rw [splitOn_letter hne, hw]
    exact cons_word_lt h

private theorem splitOn_nil_lt (c : α) (t : List α) :
    ([] : List α).splitOn sep < (c :: t).splitOn sep := by
  obtain ⟨v, vs, hv⟩ := exists_splitOn sep t
  rw [List.splitOn_nil]
  obtain rfl | hne := eq_or_ne c sep
  · rw [splitOn_sep, hv]
    exact List.cons_lt_cons_iff.mpr (.inr ⟨rfl, (List.nil_lt_cons _ _)⟩)
  · rw [splitOn_letter hne, hv]
    exact List.cons_lt_cons_iff.mpr (.inl (List.nil_lt_cons _ _))

/-- The order of lists is that of their words. -/
theorem splitOn_lt_splitOn : ∀ {s t : List α}, (∀ c ∈ s, sep ≤ c) → (∀ c ∈ t, sep ≤ c) →
    (s.splitOn sep < t.splitOn sep ↔ s < t)
  | [], [], _, _ => by simp
  | [], c :: t, _, _ => ⟨fun _ => (List.nil_lt_cons _ _), fun _ => splitOn_nil_lt c t⟩
  | c :: s, [], _, _ =>
    ⟨fun h => absurd h (splitOn_nil_lt c s).asymm, fun h => absurd h (List.not_lt_nil _)⟩
  | c :: s, d :: t, hs, ht => by
    have hc := hs c List.mem_cons_self
    have hd := ht d List.mem_cons_self
    obtain h | rfl | h := lt_trichotomy c d
    · exact ⟨fun _ => List.cons_lt_cons_iff.mpr (.inl h), fun _ => splitOn_lt_of_lt hc h⟩
    · have ih := splitOn_lt_splitOn (fun x hx => hs x (List.mem_cons_of_mem c hx))
        (fun x hx => ht x (List.mem_cons_of_mem c hx))
      rw [List.cons_lt_cons_iff, ← ih]
      simp only [lt_irrefl, false_or, true_and]
      obtain ⟨w, ws, hw⟩ := exists_splitOn sep s
      obtain ⟨v, vs, hv⟩ := exists_splitOn sep t
      obtain rfl | hne := eq_or_ne c sep
      · rw [splitOn_sep, splitOn_sep]
        simp only [List.cons_lt_cons_iff, lt_irrefl, false_or, true_and]
      · rw [splitOn_letter hne, splitOn_letter hne, hw, hv]
        exact cons_head_lt
    · exact ⟨fun hlt => absurd hlt (splitOn_lt_of_lt hd h).asymm,
        fun hlt => absurd hlt (List.cons_lt_cons_iff.mpr (.inl h)).asymm⟩

theorem splitOn_le_splitOn {s t : List α} (hs : ∀ c ∈ s, sep ≤ c) (ht : ∀ c ∈ t, sep ≤ c) :
    s.splitOn sep ≤ t.splitOn sep ↔ s ≤ t := by
  rw [← not_lt, ← not_lt, splitOn_lt_splitOn ht hs]

end Words
