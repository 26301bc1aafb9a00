import Mathlib.Data.Rat.Defs
import Mathlib.Algebra.Order.Ring.Unbundled.Rat
import Spade.Lib.Boxes

set_option autoImplicit false

/-!
# The box of an area of interest

How `data.usgs_3dep` reads a bounding box from a JSON value
(`blocks/data/src/catalog/usgs_3dep.rs`).
-/
namespace Spade.GeoJson
open Boxes

inductive Value where
  | null
  | bool (b : Bool)
  | number (x : ℚ)
  | string (s : String)
  | array (l : List Value)
  | object (m : List (String × Value))

namespace Value

def get (k : String) : Value → Option Value
  | .object m => m.lookup k
  | _ => none

def asArray : Value → Option (List Value)
  | .array l => some l
  | _ => none

def asF64 : Value → Option ℚ
  | .number x => some x
  | _ => none

end Value

/-- The pair or triple that an array is: it starts with two numbers. -/
def coordinatePair : List Value → Option (ℚ × ℚ)
  | .number x :: .number y :: _ => some (x, y)
  | _ => none

mutual

/-- The pairs that are handed to the callback, in turn. -/
def walkCoords : Value → List (ℚ × ℚ)
  | .array l =>
    match coordinatePair l with
    | some p => [p]
    | none => walkArray l
  | .object m => walkObject m
  | .null => []
  | .bool _ => []
  | .number _ => []
  | .string _ => []

def walkArray : List Value → List (ℚ × ℚ)
  | [] => []
  | v :: l => walkCoords v ++ walkArray l

def walkObject : List (String × Value) → List (ℚ × ℚ)
  | [] => []
  | (_, v) :: m => walkCoords v ++ walkObject m

end

def firstFour (l : List Value) : Option (Box ℚ) := do
  let minX ← l[0]?.bind Value.asF64
  let minY ← l[1]?.bind Value.asF64
  let maxX ← l[2]?.bind Value.asF64
  let maxY ← l[3]?.bind Value.asF64
  return ⟨minX, minY, maxX, maxY⟩

def bboxFromGeojson (v : Value) : Option (Box ℚ) :=
  match (v.get "bbox").bind Value.asArray with
  | some l => if 4 ≤ l.length then firstFour l else boxOf (walkCoords v)
  | none => boxOf (walkCoords v)

/-- A pair of numbers that starts an array inside a value, where no array around it starts so. -/
inductive Pair : Value → ℚ × ℚ → Prop
  | here {l : List Value} {p : ℚ × ℚ} (h : coordinatePair l = some p) : Pair (.array l) p
  | item {l : List Value} {v : Value} {p : ℚ × ℚ} (h : coordinatePair l = none) (hv : v ∈ l)
      (hp : Pair v p) : Pair (.array l) p
  | member {m : List (String × Value)} {k : String} {v : Value} {p : ℚ × ℚ} (hv : (k, v) ∈ m)
      (hp : Pair v p) : Pair (.object m) p

theorem pair_array {l : List Value} {p : ℚ × ℚ} (h : coordinatePair l = none) :
    Pair (.array l) p ↔ ∃ v ∈ l, Pair v p := by
  constructor
  · intro hp
    cases hp with
    | here h' => rw [h] at h'; cases h'
    | item _ hv hp => exact ⟨_, hv, hp⟩
  · rintro ⟨v, hv, hp⟩
    exact .item h hv hp

theorem pair_object {m : List (String × Value)} {p : ℚ × ℚ} :
    Pair (.object m) p ↔ ∃ f ∈ m, Pair f.2 p := by
  constructor
  · rintro (_ | _ | ⟨hv, hp⟩)
    exact ⟨_, hv, hp⟩
  · rintro ⟨⟨k, v⟩, hv, hp⟩
    exact .member hv hp

theorem pair_coordinates {l : List Value} {p q : ℚ × ℚ} (h : coordinatePair l = some p) :
    Pair (.array l) q ↔ q = p := by
  constructor
  · intro hq
    cases hq with
    | here h' => exact (Option.some.inj (h.symm.trans h')).symm
    | item h' _ _ => rw [h] at h'; cases h'
  · rintro rfl
    exact .here h

mutual

theorem mem_walkCoords (v : Value) (p : ℚ × ℚ) : p ∈ walkCoords v ↔ Pair v p := by
  cases v with
  | array l =>
    rw [walkCoords]
    cases h : coordinatePair l with
    | some q => rw [pair_coordinates h, List.mem_singleton]
    | none => rw [pair_array h, mem_walkArray l p]
  | object m => rw [walkCoords, pair_object, mem_walkObject m p]
  | null => exact ⟨nofun, nofun⟩
  | bool b => exact ⟨nofun, nofun⟩
  | number x => exact ⟨nofun, nofun⟩
  | string s => exact ⟨nofun, nofun⟩

theorem mem_walkArray (l : List Value) (p : ℚ × ℚ) :
    p ∈ walkArray l ↔ ∃ v ∈ l, Pair v p := by
  cases l with
  | nil => exact ⟨nofun, nofun⟩
  | cons v l =>
    rw [walkArray, List.mem_append, mem_walkCoords v p, mem_walkArray l p]
    simp only [List.mem_cons, exists_eq_or_imp]

theorem mem_walkObject (m : List (String × Value)) (p : ℚ × ℚ) :
    p ∈ walkObject m ↔ ∃ f ∈ m, Pair f.2 p := by
  cases m with
  | nil => exact ⟨nofun, nofun⟩
  | cons f m =>
    obtain ⟨k, v⟩ := f
    rw [walkObject, List.mem_append, mem_walkCoords v p, mem_walkObject m p]
    simp only [List.mem_cons, exists_eq_or_imp]

end

/-- Without a `bbox` the box is that of all pairs. -/
theorem bboxFromGeojson_walk {v : Value} (h : v.get "bbox" = none) (b : Box ℚ) :
    bboxFromGeojson v = some b ↔ IsBox {p | Pair v p} b := by
  have hset : {p | Pair v p} = {p | p ∈ walkCoords v} := by
    ext p
    exact (mem_walkCoords v p).symm
  rw [hset, bboxFromGeojson, h]
  exact boxOf_eq_some (walkCoords v)

theorem bboxFromGeojson_none {v : Value} (h : v.get "bbox" = none) :
    bboxFromGeojson v = none ↔ ∀ p, ¬Pair v p := by
  rw [bboxFromGeojson, h]
  refine boxOf_eq_none.trans ?_
  simp only [List.eq_nil_iff_forall_not_mem, mem_walkCoords]

end Spade.GeoJson
