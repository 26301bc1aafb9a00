import Spade.Data.GeoJson

set_option autoImplicit false

/-!
# The box of a document

Which pairs of numbers are found in a GeoJSON document besides its positions, and when the box
that is read is right (`blocks/data/src/catalog/usgs_3dep.rs`).
-/
namespace Spade.GeoJson
open Boxes

/-! Coordinates. -/

theorem pair_position (p : Position) (q : ℚ × ℚ) : Pair p.toValue q ↔ q = p.xy :=
  pair_coordinates rfl

theorem pair_arrayOf {α : Type} {f : α → Value} (hf : ∀ a, (f a).asF64 = none) (l : List α)
    (q : ℚ × ℚ) : Pair (arrayOf f l) q ↔ ∃ a ∈ l, Pair (f a) q := by
  have hno : coordinatePair (l.map f) = none := by
    cases l with
    | nil => rfl
    | cons a l =>
      have ha := hf a
      rw [List.map_cons]
      cases h : f a with
      | number x => rw [h] at ha; cases ha
      | _ => rfl
  rw [arrayOf, pair_array hno]
  simp only [List.mem_map, exists_exists_and_eq_and]

theorem pair_line (l : List Position) (q : ℚ × ℚ) :
    Pair (arrayOf Position.toValue l) q ↔ ∃ p ∈ l, q = p.xy := by
  simp only [pair_arrayOf (f := Position.toValue) fun _ => rfl, pair_position]

theorem pair_rings (l : List (List Position)) (q : ℚ × ℚ) :
    Pair (arrayOf (arrayOf Position.toValue) l) q ↔ ∃ r ∈ l, ∃ p ∈ r, q = p.xy := by
  simp only [pair_arrayOf (f := arrayOf Position.toValue) fun _ => rfl, pair_line]

theorem mem_map_xy (l : List Position) (q : ℚ × ℚ) :
    q ∈ l.map Position.xy ↔ ∃ p ∈ l, q = p.xy := by
  simp only [List.mem_map, eq_comm]

theorem pair_shape (s : Shape) (q : ℚ × ℚ) : Pair s.coordinates q ↔ q ∈ s.positions := by
  cases s with
  | point p =>
    cases p with
    | none => exact ⟨by rintro (_ | ⟨_, hv, _⟩) <;> contradiction, nofun⟩
    | some p => exact (pair_position p q).trans (List.mem_singleton).symm
  | multiPoint l => exact (pair_line l q).trans (mem_map_xy l q).symm
  | lineString l => exact (pair_line l q).trans (mem_map_xy l q).symm
  | multiLineString l =>
    refine (pair_rings l q).trans (Iff.trans ?_ (mem_map_xy _ q).symm)
    simp only [List.mem_flatten]
    grind
  | polygon l =>
    refine (pair_rings l q).trans (Iff.trans ?_ (mem_map_xy _ q).symm)
    simp only [List.mem_flatten]
    grind
  | multiPolygon l =>
    refine (pair_arrayOf (fun _ => rfl) l q).trans (Iff.trans ?_ (mem_map_xy _ q).symm)
    simp only [pair_rings, List.mem_flatten]
    grind

/-! Members. -/

theorem pair_extent (b : Extent) (q : ℚ × ℚ) : Pair b.toValue q ↔ q = b.corner := by
  cases b with
  | flat w s e n => exact pair_coordinates rfl
  | solid w s lo e n hi => exact pair_coordinates rfl

theorem pair_objectOf (l : List (String × Value)) (q : ℚ × ℚ) :
    Pair (objectOf l) q ↔ ∃ f ∈ l, Pair f.2 q := by
  rw [objectOf, pair_object]
  simp only [List.mem_insertionSort]

section

variable {own : List String} (m : Members own)

theorem Members.pair_object {type : String} {values : List Value}
    (hlen : values.length ≤ own.length) (q : ℚ × ℚ) :
    Pair (m.object type values) q ↔ (∃ v ∈ values, Pair v q) ∨ m.Stray q := by
  have hown : (∃ f ∈ own.zip values, Pair f.2 q) ↔ ∃ v ∈ values, Pair v q := by
    conv_rhs => rw [← List.map_snd_zip hlen]
    simp only [List.mem_map, exists_exists_and_eq_and]
  have hbox : (∃ f ∈ (m.bbox.map fun b => ("bbox", b.toValue)).toList, Pair f.2 q) ↔
      ∃ b ∈ m.bbox, q = b.corner := by
    cases m.bbox with
    | none => simp
    | some b => simp [pair_extent]
  have htype : ¬Pair (.string type) q := nofun
  rw [Members.object, pair_objectOf]
  simp only [Members.entries, Members.Stray, List.mem_append, List.mem_cons, or_and_right,
    exists_or, exists_eq_left, hown, hbox, htype, false_or, or_assoc]

theorem lookup_eq_some_of {l : List (String × Value)} {k : String} {v : Value} (hv : (k, v) ∈ l)
    (hone : ∀ w, (k, w) ∈ l → w = v) : l.lookup k = some v := by
  cases h : l.lookup k with
  | none =>
    have hne := List.lookup_eq_none_iff.mp h _ hv
    simp at hne
  | some w =>
    obtain ⟨l₁, l₂, rfl, -⟩ := List.lookup_eq_some_iff.mp h
    rw [hone w (by simp)]

theorem Members.mem_entries_bbox (hown : "bbox" ∉ own) (type : String) (values : List Value)
    (v : Value) : ("bbox", v) ∈ m.entries type values ↔ ∃ b ∈ m.bbox, v = b.toValue := by
  have hzip : ("bbox", v) ∉ own.zip values := fun h => hown (List.of_mem_zip h).1
  have hforeign : ("bbox", v) ∉ m.foreign := fun h => m.other _ h (by simp)
  have hbox : ("bbox", v) ∈ (m.bbox.map fun b => ("bbox", b.toValue)).toList ↔
      ∃ b ∈ m.bbox, v = b.toValue := by
    cases m.bbox with
    | none => simp
    | some b => simp
  simp only [Members.entries, List.mem_append, List.mem_cons, Prod.mk.injEq, hzip, hforeign, hbox,
    String.reduceEq, false_and, false_or, or_false]

theorem Members.get_bbox (hown : "bbox" ∉ own) (type : String) (values : List Value) :
    (m.object type values).get "bbox" = m.bbox.map Extent.toValue := by
  have hmem : ∀ v, ("bbox", v) ∈ (m.entries type values).insertionSort (·.1 ≤ ·.1) ↔
      ∃ b ∈ m.bbox, v = b.toValue := fun v =>
    (List.mem_insertionSort _).trans (m.mem_entries_bbox hown type values v)
  change ((m.entries type values).insertionSort (·.1 ≤ ·.1)).lookup "bbox" = _
  cases hb : m.bbox with
  | none =>
    rw [Option.map_none, List.lookup_eq_none_iff]
    rintro ⟨k, v⟩ hv
    have hk : k ≠ "bbox" := by
      rintro rfl
      obtain ⟨b, hm, -⟩ := (hmem v).mp hv
      rw [hb] at hm
      cases hm
    simpa using hk.symm
  | some b =>
    refine lookup_eq_some_of ((hmem _).mpr ⟨b, hb, rfl⟩) fun w hw => ?_
    obtain ⟨c, hc, rfl⟩ := (hmem w).mp hw
    rw [Option.mem_def, hb] at hc
    cases hc
    rfl

end

/-! Documents. -/

namespace Geometry

theorem asF64_toValue (g : Geometry) : g.toValue.asF64 = none := by
  cases g <;> rfl

theorem toValues_eq (l : List Geometry) : toValues l = l.map toValue := by
  induction l with
  | nil => rfl
  | cons g l ih => rw [toValues, ih, List.map_cons]

mutual

theorem pair_toValue (g : Geometry) (q : ℚ × ℚ) :
    Pair g.toValue q ↔ q ∈ g.positions ∨ g.Stray q := by
  cases g with
  | shape s m =>
    rw [toValue, m.pair_object (by simp), positions, Stray, ← pair_shape]
    simp only [List.mem_singleton, exists_eq_left]
  | collection l m =>
    rw [toValue, m.pair_object (by simp), positions, Stray, ← or_assoc, ← pair_toValues l q,
      toValues_eq]
    simp only [List.mem_singleton, exists_eq_left]
    rw [← pair_arrayOf asF64_toValue]
    rfl

theorem pair_toValues (l : List Geometry) (q : ℚ × ℚ) :
    (∃ g ∈ l, Pair g.toValue q) ↔ q ∈ positionsOf l ∨ StrayIn l q := by
  cases l with
  | nil => simp [positionsOf, StrayIn]
  | cons g l =>
    simp only [positionsOf, StrayIn, List.mem_cons, exists_eq_or_imp, List.mem_append,
      pair_toValue g q, pair_toValues l q]
    tauto

end

end Geometry

theorem Feature.pair_toValue (f : Feature) (q : ℚ × ℚ) :
    Pair f.toValue q ↔ q ∈ f.positions ∨ f.Stray q := by
  have hgeometry : Pair (f.geometry.elim .null Geometry.toValue) q ↔
      q ∈ f.positions ∨ ∃ g ∈ f.geometry, g.Stray q := by
    rw [Feature.positions]
    cases f.geometry with
    | none => exact ⟨nofun, by simp⟩
    | some g => simpa using g.pair_toValue q
  rw [Feature.toValue, f.members.pair_object (by simp), Feature.Stray]
  simp only [List.mem_cons, List.not_mem_nil, or_false, exists_eq_or_imp, exists_eq_left, hgeometry,
    or_assoc]

/-- The pairs in a document are its positions and the others. -/
theorem Document.pair_toValue (d : Document) (q : ℚ × ℚ) :
    Pair d.toValue q ↔ q ∈ d.positions ∨ d.Stray q := by
  cases d with
  | geometry g => exact g.pair_toValue q
  | feature f => exact f.pair_toValue q
  | featureCollection l m =>
    have hl : Pair (arrayOf Feature.toValue l) q ↔
        q ∈ l.flatMap Feature.positions ∨ ∃ f ∈ l, f.Stray q := by
      rw [pair_arrayOf fun _ => rfl, List.mem_flatMap]
      simp only [Feature.pair_toValue, and_or_left, exists_or]
    rw [Document.toValue, m.pair_object (by simp), Document.positions, Document.Stray, ← or_assoc,
      ← hl]
    simp only [List.mem_singleton, exists_eq_left]

theorem Document.get_bbox (d : Document) :
    d.toValue.get "bbox" = d.bbox.map Extent.toValue := by
  cases d with
  | geometry g =>
    cases g with
    | shape s m => exact m.get_bbox (by decide) _ _
    | collection l m => exact m.get_bbox (by decide) _ _
  | feature f => exact f.members.get_bbox (by decide) _ _
  | featureCollection l m => exact m.get_bbox (by decide) _ _

theorem bboxFromGeojson_flat {v : Value} {w s e n : ℚ}
    (h : v.get "bbox" = some (Extent.flat w s e n).toValue) :
    bboxFromGeojson v = some ⟨w, s, e, n⟩ := by
  rw [bboxFromGeojson, h]
  rfl

/-- Of a box in three dimensions the lowest altitude and the east are taken for the east and the
north. -/
theorem bboxFromGeojson_solid {v : Value} {w s lo e n hi : ℚ}
    (h : v.get "bbox" = some (Extent.solid w s lo e n hi).toValue) :
    bboxFromGeojson v = some ⟨w, s, lo, e⟩ := by
  rw [bboxFromGeojson, h]
  rfl

/-- The box around all pairs is the one around the positions if the others are covered. -/
theorem exact_walk (d : Document) (h : d.bbox = none) :
    d.Exact ↔ ∀ q, d.Stray q → Covered {p | p ∈ d.positions} q := by
  have hget : d.toValue.get "bbox" = none := by rw [d.get_bbox, h]; rfl
  have hset : {p | Pair d.toValue p} = {p | p ∈ d.positions} ∪ {p | d.Stray p} := by
    ext p
    exact d.pair_toValue p
  have hwalk := bboxFromGeojson_walk hget
  rw [hset] at hwalk
  rw [Document.Exact, h]
  change (∀ b, _ ↔ _) ∧ _ ↔ _
  rw [bboxFromGeojson_none hget]
  cases hp : d.positions with
  | nil =>
    have hno : ∀ q, ¬Covered {p | p ∈ ([] : List (ℚ × ℚ))} q := by
      rintro q ⟨⟨p, hp, -⟩, -⟩
      cases hp
    have hpair : (∀ p, ¬Pair d.toValue p) ↔ ∀ q, ¬d.Stray q := by
      simp only [d.pair_toValue, hp, List.not_mem_nil, false_or]
    refine ⟨fun h q hq => absurd hq (hpair.mp (h.2.mpr rfl) q), fun h => ?_⟩
    have hnone : ∀ p, ¬Pair d.toValue p := hpair.mpr fun q hq => hno q (h q hq)
    refine ⟨fun b => ?_, fun _ => rfl, fun _ => hnone⟩
    rw [(bboxFromGeojson_none hget).mpr hnone, ← boxOf_eq_some]
    exact ⟨nofun, nofun⟩
  | cons p l =>
    obtain ⟨c, -, hc⟩ := boxOf_cons p l
    rw [hp] at hwalk
    constructor
    · rintro ⟨hbox, -⟩
      exact hc.union_iff.mp ((hwalk c).mp ((hbox c).mpr hc))
    · intro hcovered
      have hunion := hc.union_iff.mpr hcovered
      refine ⟨fun b => (hwalk b).trans ⟨fun hb => ?_, fun hb => ?_⟩, fun hnone => ?_, nofun⟩
      · rwa [hb.unique hunion]
      · rwa [hb.unique hc]
      · refine absurd ((d.pair_toValue p).mpr (.inl ?_)) (hnone p)
        rw [hp]
        exact List.mem_cons_self

/-- The box is right if a box stated in three dimensions happens to have the right numbers in its
first four places, or if all pairs that are no positions lie between positions. -/
theorem bbox_exact_iff (d : Document) : d.Exact ↔ d.Clear := by
  rw [Document.Clear]
  cases h : d.bbox with
  | none => exact exact_walk d h
  | some b =>
    have hget : d.toValue.get "bbox" = some b.toValue := by rw [d.get_bbox, h]; rfl
    rw [Document.Exact, h]
    cases b with
    | flat w s e n =>
      change bboxFromGeojson d.toValue = _ ↔ True
      rw [iff_true, bboxFromGeojson_flat hget]
      rfl
    | solid w s lo e n hi =>
      change bboxFromGeojson d.toValue = some ⟨w, s, e, n⟩ ↔ lo = e ∧ e = n
      rw [bboxFromGeojson_solid hget, Option.some.injEq, Box.mk.injEq]
      simp only [true_and]

/-- The box from (0, 0) to (2, 1) at altitudes from 5 to 9. -/
theorem bbox_exact_fails :
    ¬(Document.geometry (.shape (.multiPoint [⟨0, 0, [5]⟩, ⟨2, 1, [9]⟩])
      { bbox := some (.solid 0 0 5 2 1 9) })).Exact := by
  intro h
  have hread := bboxFromGeojson_solid (Document.get_bbox (.geometry
    (.shape (.multiPoint [⟨0, 0, [5]⟩, ⟨2, 1, [9]⟩]) { bbox := some (.solid 0 0 5 2 1 9) })))
  have hbox := Option.some.inj (hread.symm.trans h)
  simp [Extent.box] at hbox

end Spade.GeoJson
