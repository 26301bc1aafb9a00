import Spade.Lib.GoMap

set_option autoImplicit false

/-!
# Tables with upserts

A new row is inserted as it is. A row that is there is replaced by what `put` makes of
it and the new one, unless it is frozen.
-/
namespace Spade.Table
variable {K V : Type} [DecidableEq K] (frozen : V → Bool) (put : V → V → V)

/-- The row that is stored in place of `old`, or as a new one. -/
def written (old : Option V) (v : V) : V :=
  match old with
  | none => v
  | some old => if frozen old then old else put old v

theorem written_frozen {old : V} (h : frozen old = true) (v : V) :
    written frozen put (some old) v = old := if_pos h

theorem written_put {old : V} (h : frozen old = false) (v : V) :
    written frozen put (some old) v = put old v :=
  if_neg (Bool.eq_false_iff.mp h)

def upsert (k : K) (v : V) (m : GoMap K V) : GoMap K V :=
  match m.lookup k with
  | none => m.insert k v
  | some old => if frozen old then m else m.insert k (put old v)

theorem lookup_upsert (k k' : K) (v : V) (m : GoMap K V) :
    (upsert frozen put k v m).lookup k' =
      if k' = k then some (written frozen put (m.lookup k) v) else m.lookup k' := by
  unfold upsert
  cases hl : m.lookup k with
  | none => exact GoMap.lookup_insert_if _ _ _ _
  | some old =>
    dsimp only
    cases hf : frozen old with
    | true =>
      rw [if_pos rfl, written_frozen frozen put hf]
      split_ifs with hk
      · rw [hk, hl]
      · rfl
    | false => rw [if_neg Bool.false_ne_true, written_put frozen put hf, GoMap.lookup_insert_if]

/-- Two ways of writing agree where they make the same of the row that is there. -/
theorem upsert_congr {put' : V → V → V} {k : K} {v : V} {m : GoMap K V}
    (h : ∀ old, m.lookup k = some old → frozen old = false → put old v = put' old v) :
    upsert frozen put k v m = upsert frozen put' k v m := by
  unfold upsert
  cases hl : m.lookup k with
  | none => rfl
  | some old =>
    dsimp only
    by_cases hf : frozen old = true
    · rw [if_pos hf, if_pos hf]
    · rw [if_neg hf, if_neg hf, h old hl (Bool.eq_false_iff.mpr hf)]

/-- Every row stands under its own key. -/
def Keyed (key : V → K) (m : GoMap K V) : Prop := ∀ k v, m.lookup k = some v → key v = k

theorem keyed_empty (key : V → K) : Keyed key (∅ : GoMap K V) := by
  intro k v h
  rw [AList.lookup_empty] at h
  cases h

theorem Keyed.insert {key : V → K} {m : GoMap K V} (h : Keyed key m) (v : V) :
    Keyed key (m.insert (key v) v) := by
  intro k w hw
  rw [GoMap.lookup_insert_if] at hw
  split_ifs at hw with hk
  · cases hw
    exact hk.symm
  · exact h k w hw

theorem Keyed.upsert {key : V → K} {m : GoMap K V} (h : Keyed key m) {v : V}
    (hput : ∀ old, key old = key v → key (put old v) = key v) :
    Keyed key (upsert frozen put (key v) v m) := by
  intro k w hw
  rw [lookup_upsert] at hw
  split_ifs at hw with hk
  · cases hw
    rw [hk]
    cases hl : m.lookup (key v) with
    | none => rfl
    | some old =>
      have hold := h _ _ hl
      cases hf : frozen old with
      | true => rw [written_frozen frozen put hf, hold]
      | false => rw [written_put frozen put hf, hput old hold]
  · exact h k w hw

theorem Keyed.values_nodup {key : V → K} {m : GoMap K V} (h : Keyed key m) :
    (m.items.map Prod.snd).Nodup := by
  refine List.Nodup.of_map key ?_
  have hkeys : (m.items.map Prod.snd).map key = m.items.map Prod.fst := by
    rw [List.map_map]
    apply List.map_congr_left
    rintro ⟨k, v⟩ hm
    exact h k v ((GoMap.mem_items m k v).mp hm)
  rw [hkeys]
  exact m.items_nodup

end Spade.Table
