import Mathlib.Data.List.Induction
import Mathlib.Data.List.Nodup

set_option autoImplicit false

/-!
# Lists of rows with keys

A value is merged into the first row with its key, or becomes the last row.
-/
namespace Spade.KeyedRows
variable {K V : Type} [DecidableEq K] (key : V → K) (merge : V → V → V)

def upsert (v : V) : List V → List V
  | [] => [v]
  | row :: rows => if key row = key v then merge v row :: rows else row :: upsert v rows

def find (k : K) (rows : List V) : Option V := rows.find? fun row => key row = k

def upsertAll (vs rows : List V) : List V := vs.foldl (fun rows v => upsert key merge v rows) rows

/-- What is stored for a value, by what is there. -/
def merged (old : Option V) (v : V) : V := old.elim v (merge v)

/-- Merging keeps the key, and what is merged later wins. -/
structure Merging : Prop where
  key_merge : ∀ v row, key row = key v → key (merge v row) = key v
  assoc : ∀ w v row, merge w (merge v row) = merge (merge w v) row

variable {key merge} {rows vs : List V} {v row : V} {k : K}

theorem find_some (h : find key k rows = some row) : row ∈ rows ∧ key row = k :=
  ⟨List.mem_of_find?_eq_some h, by simpa using List.find?_some h⟩

theorem find_eq_none : find key k rows = none ↔ ∀ row ∈ rows, key row ≠ k := by
  simp [find, List.find?_eq_none]

theorem find_of_mem (hn : (rows.map key).Nodup) (h : row ∈ rows) :
    find key (key row) rows = some row := by
  cases hf : find key (key row) rows with
  | none => exact absurd rfl (find_eq_none.mp hf row h)
  | some row' =>
    obtain ⟨hin, hkey⟩ := find_some hf
    rw [List.inj_on_of_nodup_map hn hin h hkey]

theorem mem_iff_find (hn : (rows.map key).Nodup) :
    row ∈ rows ↔ find key (key row) rows = some row :=
  ⟨find_of_mem hn, fun h => (find_some h).1⟩

section
variable (hm : Merging key merge)
include hm

theorem find_upsert : find key k (upsert key merge v rows) =
    if k = key v then some (merged merge (find key (key v) rows) v) else find key k rows := by
  induction rows with
  | nil =>
    by_cases hk : k = key v
    · simp [upsert, find, merged, hk]
    · simp [upsert, find, hk, Ne.symm hk]
  | cons row rows ih =>
    unfold upsert
    by_cases hrow : key row = key v
    · have hmerge := hm.key_merge v row hrow
      rw [if_pos hrow]
      by_cases hk : k = key v
      · simp [find, merged, hk, hrow, hmerge]
      · have hne : key v ≠ k := Ne.symm hk
        simp [find, hk, hrow, hmerge, hne]
    · rw [if_neg hrow]
      by_cases hkr : key row = k
      · have hne : k ≠ key v := by rwa [← hkr]
        simp [find, hkr, hne]
      · have hrest : find key k (row :: upsert key merge v rows) =
            find key k (upsert key merge v rows) := by simp [find, hkr]
        have hrest' : find key k (row :: rows) = find key k rows := by simp [find, hkr]
        have hv : find key (key v) (row :: rows) = find key (key v) rows := by simp [find, hrow]
        rw [hrest, ih, hrest', hv]

theorem mem_keys_upsert (h : row ∈ upsert key merge v rows) :
    key row = key v ∨ key row ∈ rows.map key := by
  induction rows with
  | nil => exact .inl (congrArg key (List.mem_singleton.mp h))
  | cons first rows ih =>
    unfold upsert at h
    by_cases hfirst : key first = key v
    · rw [if_pos hfirst] at h
      rcases List.mem_cons.mp h with rfl | h
      · exact .inl (hm.key_merge v first hfirst)
      · exact .inr (List.mem_cons_of_mem _ (List.mem_map_of_mem h))
    · rw [if_neg hfirst] at h
      rcases List.mem_cons.mp h with rfl | h
      · exact .inr List.mem_cons_self
      · exact (ih h).imp_right (List.mem_cons_of_mem _)

theorem nodup_upsert (hn : (rows.map key).Nodup) :
    ((upsert key merge v rows).map key).Nodup := by
  induction rows with
  | nil => exact List.nodup_singleton _
  | cons row rows ih =>
    obtain ⟨hrow, hrest⟩ := List.nodup_cons.mp hn
    unfold upsert
    by_cases hk : key row = key v
    · rw [if_pos hk, List.map_cons, hm.key_merge v row hk, ← hk]
      exact hn
    · rw [if_neg hk, List.map_cons]
      refine List.nodup_cons.mpr ⟨fun hin => ?_, ih hrest⟩
      obtain ⟨row', hin, hsame⟩ := List.mem_map.mp hin
      rcases mem_keys_upsert hm hin with h | h
      · exact hk (hsame.symm.trans h)
      · exact hrow (hsame ▸ h)

theorem nodup_upsertAll (hn : (rows.map key).Nodup) :
    ((upsertAll key merge vs rows).map key).Nodup := by
  unfold upsertAll
  induction vs generalizing rows with
  | nil => exact hn
  | cons v vs ih => exact ih (nodup_upsert hm hn)

/-- The values of one key are merged with each other, then with the row that is there. -/
theorem find_upsertAll : find key k (upsertAll key merge vs rows) =
    (find key k (upsertAll key merge vs [])).elim (find key k rows) fun v =>
      some (merged merge (find key k rows) v) := by
  induction vs using List.reverseRecOn with
  | nil => rfl
  | append_singleton vs v ih =>
    unfold upsertAll at ih ⊢
    rw [List.foldl_append, List.foldl_cons, List.foldl_nil, List.foldl_append, List.foldl_cons,
      List.foldl_nil, find_upsert hm, find_upsert hm]
    by_cases hk : k = key v
    · subst hk
      rw [if_pos rfl, if_pos rfl, ih]
      cases hf : find key (key v) (vs.foldl (fun rows v => upsert key merge v rows) []) with
      | none => rfl
      | some w =>
        cases hr : find key (key v) rows with
        | none => rfl
        | some row => exact congrArg some (hm.assoc v w row)
    · rw [if_neg hk, if_neg hk, ih]

/-- Values that are equal where their keys are become rows as they are. -/
theorem find_consistent (hself : ∀ v ∈ vs, merge v v = v)
    (heq : ∀ v ∈ vs, ∀ w ∈ vs, key v = key w → v = w) :
    find key k (upsertAll key merge vs []) = find key k vs := by
  induction vs using List.reverseRecOn with
  | nil => rfl
  | append_singleton vs w ih =>
    have hall : ∀ x ∈ vs, x ∈ vs ++ [w] := fun x hx => List.mem_append_left _ hx
    have hw : w ∈ vs ++ [w] := List.mem_append_right _ List.mem_cons_self
    have hrest := ih (fun x hx => hself x (hall x hx)) fun x hx y hy => heq x (hall x hx) y (hall y hy)
    have hlast : find key k (vs ++ [w]) = (find key k vs).or (find key k [w]) := List.find?_append
    unfold upsertAll at hrest ⊢
    rw [List.foldl_append, List.foldl_cons, List.foldl_nil, find_upsert hm, hlast]
    by_cases hk : k = key w
    · subst hk
      rw [if_pos rfl, hrest]
      cases hf : find key (key w) vs with
      | none => simp [merged, find]
      | some v =>
        obtain ⟨hin, hkey⟩ := find_some hf
        obtain rfl := heq v (hall v hin) w hw hkey
        exact congrArg some (hself v hw)
    · have hnone : find key k [w] = none := find_eq_none.mpr fun x hx => by
        rw [List.mem_singleton.mp hx]
        exact Ne.symm hk
      rw [if_neg hk, hrest, hnone, Option.or_none]

/-- Values that leave nothing of the rows that they are merged into. -/
theorem mem_upsertAll (hn : (rows.map key).Nodup) (hself : ∀ v ∈ vs, merge v v = v)
    (heq : ∀ v ∈ vs, ∀ w ∈ vs, key v = key w → v = w)
    (hover : ∀ v ∈ vs, ∀ row ∈ rows, key row = key v → merge v row = v) :
    row ∈ upsertAll key merge vs rows ↔
      row ∈ vs ∨ row ∈ rows ∧ ∀ v ∈ vs, key row ≠ key v := by
  rw [mem_iff_find (nodup_upsertAll hm hn), find_upsertAll hm, find_consistent hm hself heq]
  cases hf : find key (key row) vs with
  | none =>
    have hnone := find_eq_none.mp hf
    rw [Option.elim_none, ← mem_iff_find hn]
    constructor
    · exact fun h => .inr ⟨h, fun v hv => Ne.symm (hnone v hv)⟩
    · rintro (hin | ⟨hin, -⟩)
      · exact absurd rfl (hnone row hin)
      · exact hin
  | some v =>
    obtain ⟨hin, hkey⟩ := find_some hf
    have hstored : merged merge (find key (key row) rows) v = v := by
      cases hr : find key (key row) rows with
      | none => rfl
      | some old =>
        obtain ⟨hold, hsame⟩ := find_some hr
        exact hover v hin old hold (hsame.trans hkey.symm)
    rw [Option.elim_some, hstored, Option.some.injEq]
    constructor
    · rintro rfl
      exact .inl hin
    · rintro (hrow | ⟨-, hno⟩)
      · exact heq v hin row hrow hkey
      · exact absurd hkey.symm (hno v hin)

end

end Spade.KeyedRows
