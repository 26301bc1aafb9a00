import Mathlib.Data.List.AList

set_option autoImplicit false

/-!
# Finite maps that are ranged over in an unspecified order

A map is an association list with distinct keys. The order of its entries is
never observable: a loop over a map asks a `MapOrder` for the enumeration, and
every statement is quantified over that order.
-/
namespace Spade

abbrev GoMap (K V : Type) := AList fun _ : K => V

/-- The enumeration order that the environment picks for the maps of one call. -/
structure MapOrder where
  perm : {α : Type} → List α → List α
  perm_spec : ∀ {α : Type} (l : List α), (perm l).Perm l

def MapOrder.stored : MapOrder := ⟨fun l => l, fun l => List.Perm.refl l⟩

namespace GoMap
variable {K V : Type}

def items (m : GoMap K V) : List (K × V) := m.entries.map fun e => (e.1, e.2)

theorem items_keys (m : GoMap K V) : m.items.map Prod.fst = m.keys := by
  simp [items, AList.keys, List.keys, List.map_map, Function.comp_def]

theorem items_nodup (m : GoMap K V) : (m.items.map Prod.fst).Nodup := by
  rw [items_keys]
  exact m.keys_nodup

@[simp] theorem items_empty : (∅ : GoMap K V).items = [] := rfl

theorem items_eq_nil (m : GoMap K V) : m.items = [] ↔ m = ∅ := by
  constructor
  · intro h
    apply AList.ext
    simpa [items] using h
  · rintro rfl
    rfl

/-- The map with these entries, in this order. -/
def ofItems (l : List (K × V)) (h : (l.map Prod.fst).Nodup) : GoMap K V where
  entries := l.map fun e => ⟨e.1, e.2⟩
  nodupKeys := by
    rw [List.NodupKeys, List.keys, List.map_map]
    exact h

theorem items_ofItems (l : List (K × V)) (h : (l.map Prod.fst).Nodup) : (ofItems l h).items = l := by
  rw [items, ofItems, List.map_map]
  exact List.map_id l

variable [DecidableEq K]

theorem mem_items (m : GoMap K V) (k : K) (v : V) : (k, v) ∈ m.items ↔ m.lookup k = some v := by
  have h : m.lookup k = some v ↔ (⟨k, v⟩ : Sigma fun _ : K => V) ∈ m.entries := AList.mem_lookup_iff
  rw [h, items, List.mem_map]
  constructor
  · rintro ⟨⟨a, b⟩, he, heq⟩
    cases heq
    exact he
  · exact fun he => ⟨_, he, rfl⟩

theorem mem_of_lookup {m : GoMap K V} {k : K} {v : V} (h : m.lookup k = some v) : k ∈ m :=
  AList.lookup_isSome.mp (by rw [h]; rfl)

theorem lookup_of_mem {m : GoMap K V} {k : K} (h : k ∈ m) : ∃ v, m.lookup k = some v :=
  Option.isSome_iff_exists.mp (AList.lookup_isSome.mpr h)

theorem mem_iff_lookup {m : GoMap K V} {k : K} : k ∈ m ↔ ∃ v, m.lookup k = some v :=
  ⟨lookup_of_mem, fun ⟨_, h⟩ => mem_of_lookup h⟩

theorem lookup_insert_if (m : GoMap K V) (k k' : K) (v : V) :
    (m.insert k v).lookup k' = if k' = k then some v else m.lookup k' := by
  split_ifs with h
  · subst h
    exact AList.lookup_insert m
  · exact AList.lookup_insert_ne h

theorem lookup_erase_if (m : GoMap K V) (k k' : K) :
    (m.erase k).lookup k' = if k' = k then none else m.lookup k' := by
  split_ifs with h
  · subst h
    exact AList.lookup_erase k' m
  · exact AList.lookup_erase_ne h

theorem items_insert (m : GoMap K V) (k : K) (v : V) :
    items (m.insert k v) = (k, v) :: items (m.erase k) := by
  rw [items, AList.entries_insert, List.map_cons]
  rfl

/-- The entries of a map with one of them set apart. -/
theorem items_perm {m : GoMap K V} {k : K} {v : V} (h : m.lookup k = some v) :
    m.items.Perm ((k, v) :: items (m.erase k)) := by
  have hn : ((k, v) :: items (m.erase k)).Nodup := by
    rw [← items_insert]
    exact List.Nodup.of_map _ (items_nodup _)
  rw [List.perm_ext_iff_of_nodup (List.Nodup.of_map _ (items_nodup m)) hn]
  rintro ⟨a, b⟩
  rw [mem_items, List.mem_cons, mem_items, lookup_erase_if, Prod.mk.injEq]
  by_cases ha : a = k
  · subst ha
    simp [h, eq_comm]
  · simp [ha]

theorem eq_empty_of_lookup {m : GoMap K V} (h : ∀ k, m.lookup k = none) : m = ∅ := by
  rw [← items_eq_nil, List.eq_nil_iff_forall_not_mem]
  rintro ⟨k, v⟩ hm
  rw [mem_items, h k] at hm
  cases hm

theorem lookup_eq_of_perm {m m' : GoMap K V} (h : m.items.Perm m'.items) (k : K) :
    m.lookup k = m'.lookup k :=
  Option.ext fun v => by
    rw [← mem_items, ← mem_items, h.mem_iff]

theorem items_erase (m : GoMap K V) (k : K) :
    items (m.erase k) = m.items.filter fun e => e.1 ≠ k := by
  have hkeys : ∀ l : List (Sigma fun _ : K => V), l.NodupKeys →
      (l.kerase k).map (fun e => (e.1, e.2)) =
        (l.map fun e => (e.1, e.2)).filter fun e => e.1 ≠ k := by
    intro l
    induction l with
    | nil => exact fun _ => rfl
    | cons e l ih =>
      intro hl
      obtain ⟨hnot, hl⟩ := List.nodupKeys_cons.mp hl
      rw [List.map_cons]
      by_cases h : e.1 = k
      · subst h
        have hall : ∀ e' ∈ l.map fun e => (e.1, e.2), e'.1 ≠ e.1 := by
          intro e' he' heq
          obtain ⟨d, hd, rfl⟩ := List.mem_map.mp he'
          exact hnot (heq ▸ List.mem_keys_of_mem hd)
        rw [List.kerase_cons_eq rfl, List.filter_cons_of_neg (by simp),
          List.filter_eq_self.mpr fun e' he' => decide_eq_true (hall e' he')]
      · rw [List.kerase_cons_ne (Ne.symm h), List.filter_cons_of_pos (by simpa using h),
          List.map_cons, ih hl]
  exact hkeys m.entries m.nodupKeys

/-- Erasing a list of keys one after the other. -/
theorem lookup_foldl_erase (ks : List K) (m : GoMap K V) (k : K) :
    (ks.foldl (fun m k => m.erase k) m).lookup k = if k ∈ ks then none else m.lookup k := by
  induction ks generalizing m with
  | nil => simp
  | cons a ks ih =>
    rw [List.foldl_cons, ih, lookup_erase_if]
    by_cases h : k ∈ ks
    · simp [h]
    · by_cases ha : k = a <;> simp [h, ha]

end GoMap

namespace MapOrder
variable {K V : Type}

/-- The entries of a map in the order in which a loop meets them. -/
def range (σ : MapOrder) (m : GoMap K V) : List (K × V) := σ.perm m.items

def keys (σ : MapOrder) (m : GoMap K V) : List K := (σ.range m).map Prod.fst

theorem range_nodup (σ : MapOrder) (m : GoMap K V) : (σ.keys m).Nodup :=
  (((σ.perm_spec m.items).map Prod.fst).nodup_iff).mpr m.items_nodup

theorem range_perm (σ : MapOrder) (m : GoMap K V) : (σ.range m).Perm m.items := σ.perm_spec _

variable [DecidableEq K]

theorem mem_range (σ : MapOrder) (m : GoMap K V) (k : K) (v : V) :
    (k, v) ∈ σ.range m ↔ m.lookup k = some v := by
  rw [range, (σ.perm_spec m.items).mem_iff, GoMap.mem_items]

theorem mem_keys (σ : MapOrder) (m : GoMap K V) (k : K) : k ∈ σ.keys m ↔ k ∈ m := by
  rw [GoMap.mem_iff_lookup, keys, List.mem_map]
  constructor
  · rintro ⟨⟨a, v⟩, h, rfl⟩
    exact ⟨v, (σ.mem_range m a v).mp h⟩
  · rintro ⟨v, h⟩
    exact ⟨(k, v), (σ.mem_range m k v).mpr h, rfl⟩

end MapOrder
end Spade
