import Mathlib.Data.List.Sort
import Spade.Data.Walk

set_option autoImplicit false

/-!
# GeoJSON documents

The geometries, features and collections of features that an area of interest is given as, and
when the box that is read from one is its box (`blocks/data/src/catalog/usgs_3dep.rs`).
-/
namespace Spade.GeoJson
open Boxes

structure Position where
  x : ℚ
  y : ℚ
  more : List ℚ := []

def Position.xy (p : Position) : ℚ × ℚ := (p.x, p.y)

def Position.toValue (p : Position) : Value :=
  .array (.number p.x :: .number p.y :: p.more.map .number)

def arrayOf {α : Type} (f : α → Value) (l : List α) : Value := .array (l.map f)

inductive Shape where
  | point (p : Option Position)
  | multiPoint (l : List Position)
  | lineString (l : List Position)
  | multiLineString (l : List (List Position))
  | polygon (l : List (List Position))
  | multiPolygon (l : List (List (List Position)))

namespace Shape

def type : Shape → String
  | point _ => "Point"
  | multiPoint _ => "MultiPoint"
  | lineString _ => "LineString"
  | multiLineString _ => "MultiLineString"
  | polygon _ => "Polygon"
  | multiPolygon _ => "MultiPolygon"

/-- A point without a position has no coordinates. -/
def coordinates : Shape → Value
  | point p => p.elim (.array []) Position.toValue
  | multiPoint l => arrayOf Position.toValue l
  | lineString l => arrayOf Position.toValue l
  | multiLineString l => arrayOf (arrayOf Position.toValue) l
  | polygon l => arrayOf (arrayOf Position.toValue) l
  | multiPolygon l => arrayOf (arrayOf (arrayOf Position.toValue)) l

def positions : Shape → List (ℚ × ℚ)
  | point p => p.toList.map Position.xy
  | multiPoint l => l.map Position.xy
  | lineString l => l.map Position.xy
  | multiLineString l => l.flatten.map Position.xy
  | polygon l => l.flatten.map Position.xy
  | multiPolygon l => l.flatten.flatten.map Position.xy

end Shape

/-- The `bbox` member: west, south, east and north, in three dimensions with the lowest and the
highest altitude after south and north. -/
inductive Extent where
  | flat (w s e n : ℚ)
  | solid (w s lo e n hi : ℚ)

namespace Extent

def toValue : Extent → Value
  | flat w s e n => .array [.number w, .number s, .number e, .number n]
  | solid w s lo e n hi =>
    .array [.number w, .number s, .number lo, .number e, .number n, .number hi]

def box : Extent → Box ℚ
  | flat w s e n => ⟨w, s, e, n⟩
  | solid w s _ e n _ => ⟨w, s, e, n⟩

def corner (b : Extent) : ℚ × ℚ := (b.box.minX, b.box.minY)

end Extent

/-- The members that an object may have next to its own. -/
structure Members (own : List String) where
  bbox : Option Extent := none
  foreign : List (String × Value) := []
  distinct : (foreign.map Prod.fst).Nodup := by simp
  other : ∀ f ∈ foreign, f.1 ∉ "type" :: "bbox" :: own := by simp

/-- The object with these members. A map holds them in the order of their keys. -/
def objectOf (l : List (String × Value)) : Value := .object (l.insertionSort (·.1 ≤ ·.1))

section

variable {own : List String}

def Members.entries (m : Members own) (type : String) (values : List Value) :
    List (String × Value) :=
  ("type", .string type) :: own.zip values ++
    (m.bbox.map fun b => ("bbox", b.toValue)).toList ++ m.foreign

def Members.object (m : Members own) (type : String) (values : List Value) : Value :=
  objectOf (m.entries type values)

end

inductive Geometry where
  | shape (s : Shape) (m : Members ["coordinates"])
  | collection (l : List Geometry) (m : Members ["geometries"])

namespace Geometry

mutual

def toValue : Geometry → Value
  | shape s m => m.object s.type [s.coordinates]
  | collection l m => m.object "GeometryCollection" [.array (toValues l)]

def toValues : List Geometry → List Value
  | [] => []
  | g :: l => toValue g :: toValues l

end

mutual

def positions : Geometry → List (ℚ × ℚ)
  | shape s _ => s.positions
  | collection l _ => positionsOf l

def positionsOf : List Geometry → List (ℚ × ℚ)
  | [] => []
  | g :: l => positions g ++ positionsOf l

end

def bbox : Geometry → Option Extent
  | shape _ m => m.bbox
  | collection _ m => m.bbox

end Geometry

structure Feature where
  geometry : Option Geometry
  properties : Value
  members : Members ["geometry", "properties"] := {}

namespace Feature

def toValue (f : Feature) : Value :=
  f.members.object "Feature" [f.geometry.elim .null Geometry.toValue, f.properties]

def positions (f : Feature) : List (ℚ × ℚ) := f.geometry.elim [] Geometry.positions

end Feature

inductive Document where
  | geometry (g : Geometry)
  | feature (f : Feature)
  | featureCollection (l : List Feature) (m : Members ["features"])

namespace Document

def toValue : Document → Value
  | geometry g => g.toValue
  | feature f => f.toValue
  | featureCollection l m => m.object "FeatureCollection" [arrayOf Feature.toValue l]

def positions : Document → List (ℚ × ℚ)
  | geometry g => g.positions
  | feature f => f.positions
  | featureCollection l _ => l.flatMap Feature.positions

def bbox : Document → Option Extent
  | geometry g => g.bbox
  | feature f => f.members.bbox
  | featureCollection _ m => m.bbox

/-- The box that is read is the one stated, else the one around the positions, if there are any. -/
def Exact (d : Document) : Prop :=
  match d.bbox with
  | some b => bboxFromGeojson d.toValue = some b.box
  | none =>
    (∀ b, bboxFromGeojson d.toValue = some b ↔ IsBox {p | p ∈ d.positions} b) ∧
      (bboxFromGeojson d.toValue = none ↔ d.positions = [])

end Document

/-! The pairs that are no positions. -/

/-- A pair from a `bbox` or a foreign member. -/
def Members.Stray {own : List String} (m : Members own) (q : ℚ × ℚ) : Prop :=
  (∃ b ∈ m.bbox, q = b.corner) ∨ ∃ f ∈ m.foreign, Pair f.2 q

namespace Geometry

mutual

def Stray : Geometry → ℚ × ℚ → Prop
  | shape _ m, q => m.Stray q
  | collection l m, q => StrayIn l q ∨ m.Stray q

def StrayIn : List Geometry → ℚ × ℚ → Prop
  | [], _ => False
  | g :: l, q => Stray g q ∨ StrayIn l q

end

end Geometry

def Feature.Stray (f : Feature) (q : ℚ × ℚ) : Prop :=
  (∃ g ∈ f.geometry, g.Stray q) ∨ Pair f.properties q ∨ f.members.Stray q

def Document.Stray : Document → ℚ × ℚ → Prop
  | .geometry g, q => g.Stray q
  | .feature f, q => f.Stray q
  | .featureCollection l m, q => (∃ f ∈ l, f.Stray q) ∨ m.Stray q

/-- A stated box has no altitudes, or ones that take the place of the right numbers. Without one
all other pairs lie between positions. -/
def Document.Clear (d : Document) : Prop :=
  match d.bbox with
  | some (.flat _ _ _ _) => True
  | some (.solid _ _ lo e n _) => lo = e ∧ e = n
  | none => ∀ q, d.Stray q → Covered {p | p ∈ d.positions} q

end Spade.GeoJson
