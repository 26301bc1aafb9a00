import Mathlib.Data.List.Basic

set_option autoImplicit false

/-!
# Records without separators

A text of keys of any length, each followed by a tail of one width. Two such texts are read in
the same way exactly when their keys have the same lengths.
-/
namespace Spade.Records
variable {C : Type*}

def text (rows : List (List C × List C)) : List C := rows.flatMap fun r => r.1 ++ r.2

theorem text_cons (r : List C × List C) (rows : List (List C × List C)) :
    text (r :: rows) = r.1 ++ (r.2 ++ text rows) := by
  rw [text, List.flatMap_cons, List.append_assoc]
  rfl

/-- The rows and what follows them are read back. -/
theorem text_append_inj {width : ℕ} {rows rows' : List (List C × List C)} {rest rest' : List C}
    (hw : ∀ r ∈ rows, r.2.length = width) (hw' : ∀ r ∈ rows', r.2.length = width)
    (hl : rows.map (fun r => r.1.length) = rows'.map fun r => r.1.length)
    (h : text rows ++ rest = text rows' ++ rest') : rows = rows' ∧ rest = rest' := by
  induction rows generalizing rows' with
  | nil =>
    obtain rfl : rows' = [] := List.map_eq_nil_iff.mp hl.symm
    exact ⟨rfl, h⟩
  | cons r rows ih =>
    cases rows' with
    | nil => cases hl
    | cons r' rows' =>
      obtain ⟨hkey, hl⟩ := List.cons.inj hl
      obtain ⟨hr, hw⟩ := List.forall_mem_cons.mp hw
      obtain ⟨hr', hw'⟩ := List.forall_mem_cons.mp hw'
      simp only [text_cons, List.append_assoc] at h
      obtain ⟨hfst, h⟩ := List.append_inj h hkey
      obtain ⟨hsnd, h⟩ := List.append_inj h (hr.trans hr'.symm)
      obtain ⟨rfl, rfl⟩ := ih hw hw' hl h
      exact ⟨by rw [Prod.ext hfst hsnd], rfl⟩

/-- Where the texts agree, the rows do exactly when the lengths of their keys do. -/
theorem rows_eq_iff {width : ℕ} {rows rows' : List (List C × List C)}
    (hw : ∀ r ∈ rows, r.2.length = width) (hw' : ∀ r ∈ rows', r.2.length = width)
    (h : text rows = text rows') :
    rows = rows' ↔ (rows.map fun r => r.1.length) = rows'.map fun r => r.1.length := by
  constructor
  · rintro rfl
    rfl
  · exact fun hl => (text_append_inj hw hw' hl (congrArg (· ++ []) h)).1

end Spade.Records
