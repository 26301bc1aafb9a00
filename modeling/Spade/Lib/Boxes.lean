import Mathlib.Data.Set.Image
import Mathlib.Order.Bounds.Basic

set_option autoImplicit false

/-!
# Boxes around points

The least box around some points of the plane, and the bounds that are kept while the points are
gone through.
-/
namespace Boxes

variable {α : Type*}

structure Box (α : Type*) where
  minX : α
  minY : α
  maxX : α
  maxY : α
  deriving DecidableEq

/-- A bound that is missing is infinite. -/
structure Bounds (α : Type*) where
  minX : Option α := none
  minY : Option α := none
  maxX : Option α := none
  maxY : Option α := none

variable [LinearOrder α]

def lower (x : α) : Option α → α
  | none => x
  | some m => if x < m then x else m

def upper (x : α) : Option α → α
  | none => x
  | some m => if m < x then x else m

def Bounds.add (b : Bounds α) (p : α × α) : Bounds α :=
  ⟨some (lower p.1 b.minX), some (lower p.2 b.minY), some (upper p.1 b.maxX),
    some (upper p.2 b.maxY)⟩

def Bounds.box (b : Bounds α) : Option (Box α) :=
  match b.minX, b.minY, b.maxX, b.maxY with
  | some minX, some minY, some maxX, some maxY => some ⟨minX, minY, maxX, maxY⟩
  | _, _, _, _ => none

/-- The box around the points of a list. -/
def boxOf (l : List (α × α)) : Option (Box α) := (l.foldl Bounds.add {}).box

/-- The least box in which all points lie. -/
structure IsBox (s : Set (α × α)) (b : Box α) : Prop where
  minX : IsLeast (Set.image Prod.fst s) b.minX
  minY : IsLeast (Set.image Prod.snd s) b.minY
  maxX : IsGreatest (Set.image Prod.fst s) b.maxX
  maxY : IsGreatest (Set.image Prod.snd s) b.maxY

/-- A point lies between other points, in both directions. -/
def Covered (s : Set (α × α)) (q : α × α) : Prop :=
  (∃ p ∈ s, p.1 ≤ q.1) ∧ (∃ p ∈ s, q.1 ≤ p.1) ∧ (∃ p ∈ s, p.2 ≤ q.2) ∧ ∃ p ∈ s, q.2 ≤ p.2

variable {s t : Set (α × α)} {b c : Box α}

theorem IsBox.unique (h : IsBox s b) (h' : IsBox s c) : b = c := by
  cases b
  cases c
  simp only [Box.mk.injEq]
  exact ⟨h.minX.unique h'.minX, h.minY.unique h'.minY, h.maxX.unique h'.maxX,
    h.maxY.unique h'.maxY⟩

/-- Points that are covered do not change the box. -/
theorem IsBox.union_iff (h : IsBox s b) : IsBox (s ∪ t) b ↔ ∀ q ∈ t, Covered s q := by
  constructor
  · intro hunion q hq
    have hmem : q ∈ s ∪ t := .inr hq
    obtain ⟨⟨p₁, hp₁, heq₁⟩, -⟩ := h.minX
    obtain ⟨⟨p₂, hp₂, heq₂⟩, -⟩ := h.maxX
    obtain ⟨⟨p₃, hp₃, heq₃⟩, -⟩ := h.minY
    obtain ⟨⟨p₄, hp₄, heq₄⟩, -⟩ := h.maxY
    exact ⟨⟨p₁, hp₁, heq₁ ▸ hunion.minX.2 (Set.mem_image_of_mem _ hmem)⟩,
      ⟨p₂, hp₂, heq₂ ▸ hunion.maxX.2 (Set.mem_image_of_mem _ hmem)⟩,
      ⟨p₃, hp₃, heq₃ ▸ hunion.minY.2 (Set.mem_image_of_mem _ hmem)⟩,
      ⟨p₄, hp₄, heq₄ ▸ hunion.maxY.2 (Set.mem_image_of_mem _ hmem)⟩⟩
  · intro hcovered
    have hsub : ∀ f : α × α → α, Set.image f s ⊆ Set.image f (s ∪ t) :=
      fun f => Set.image_mono Set.subset_union_left
    refine ⟨⟨hsub _ h.minX.1, ?_⟩, ⟨hsub _ h.minY.1, ?_⟩, ⟨hsub _ h.maxX.1, ?_⟩,
      ⟨hsub _ h.maxY.1, ?_⟩⟩ <;> rintro _ ⟨q, hq | hq, rfl⟩
    · exact h.minX.2 (Set.mem_image_of_mem _ hq)
    · obtain ⟨p, hp, hle⟩ := (hcovered q hq).1
      exact (h.minX.2 (Set.mem_image_of_mem _ hp)).trans hle
    · exact h.minY.2 (Set.mem_image_of_mem _ hq)
    · obtain ⟨p, hp, hle⟩ := (hcovered q hq).2.2.1
      exact (h.minY.2 (Set.mem_image_of_mem _ hp)).trans hle
    · exact h.maxX.2 (Set.mem_image_of_mem _ hq)
    · obtain ⟨p, hp, hle⟩ := (hcovered q hq).2.1
      exact hle.trans (h.maxX.2 (Set.mem_image_of_mem _ hp))
    · exact h.maxY.2 (Set.mem_image_of_mem _ hq)
    · obtain ⟨p, hp, hle⟩ := (hcovered q hq).2.2.2
      exact hle.trans (h.maxY.2 (Set.mem_image_of_mem _ hp))

/-! The bounds that are kept. -/

theorem isLeast_lower {u : Set α} {m : α} (h : IsLeast u m) (x : α) :
    IsLeast (insert x u) (lower x (some m)) := by
  rw [lower]
  split_ifs with hlt
  · refine ⟨Set.mem_insert x u, ?_⟩
    rintro y (rfl | hy)
    · exact le_refl _
    · exact hlt.le.trans (h.2 hy)
  · refine ⟨Set.mem_insert_of_mem x h.1, ?_⟩
    rintro y (rfl | hy)
    · exact not_lt.mp hlt
    · exact h.2 hy

theorem isGreatest_upper {u : Set α} {m : α} (h : IsGreatest u m) (x : α) :
    IsGreatest (insert x u) (upper x (some m)) := by
  rw [upper]
  split_ifs with hlt
  · refine ⟨Set.mem_insert x u, ?_⟩
    rintro y (rfl | hy)
    · exact le_refl _
    · exact (h.2 hy).trans hlt.le
  · refine ⟨Set.mem_insert_of_mem x h.1, ?_⟩
    rintro y (rfl | hy)
    · exact not_lt.mp hlt
    · exact h.2 hy

/-- The bounds are those of a box. -/
def Box.bounds (b : Box α) : Bounds α := ⟨some b.minX, some b.minY, some b.maxX, some b.maxY⟩

theorem IsBox.add (h : IsBox s b) (p : α × α) :
    ∃ c, b.bounds.add p = c.bounds ∧ IsBox (insert p s) c := by
  refine ⟨⟨lower p.1 (some b.minX), lower p.2 (some b.minY), upper p.1 (some b.maxX),
    upper p.2 (some b.maxY)⟩, rfl, ?_⟩
  constructor <;> rw [Set.image_insert_eq]
  · exact isLeast_lower h.minX p.1
  · exact isLeast_lower h.minY p.2
  · exact isGreatest_upper h.maxX p.1
  · exact isGreatest_upper h.maxY p.2

theorem IsBox.foldl (h : IsBox s b) (l : List (α × α)) :
    ∃ c, l.foldl Bounds.add b.bounds = c.bounds ∧ IsBox (s ∪ {p | p ∈ l}) c := by
  induction l generalizing s b with
  | nil => exact ⟨b, rfl, by simpa using h⟩
  | cons p l ih =>
    obtain ⟨c, hc, hbox⟩ := h.add p
    obtain ⟨d, hd, hall⟩ := ih hbox
    refine ⟨d, by rw [List.foldl_cons, hc, hd], ?_⟩
    have hset : insert p s ∪ {q | q ∈ l} = s ∪ {q | q ∈ p :: l} := by
      ext q
      simp only [Set.mem_union, Set.mem_insert_iff, Set.mem_ofPred_eq, List.mem_cons]
      tauto
    rwa [hset] at hall

theorem boxOf_cons (p : α × α) (l : List (α × α)) :
    ∃ c, boxOf (p :: l) = some c ∧ IsBox {q | q ∈ p :: l} c := by
  have hone : IsBox {p} (⟨p.1, p.2, p.1, p.2⟩ : Box α) := by
    constructor <;> rw [Set.image_singleton]
    · exact isLeast_singleton
    · exact isLeast_singleton
    · exact isGreatest_singleton
    · exact isGreatest_singleton
  obtain ⟨c, hc, hbox⟩ := hone.foldl l
  have hset : ({p} : Set (α × α)) ∪ {q | q ∈ l} = {q | q ∈ p :: l} := by
    ext q
    simp only [Set.mem_union, Set.mem_singleton_iff, Set.mem_ofPred_eq, List.mem_cons]
  rw [hset] at hbox
  refine ⟨c, ?_, hbox⟩
  unfold boxOf
  rw [List.foldl_cons]
  exact congrArg Bounds.box hc

/-- The box that comes out is the one around the points. -/
theorem boxOf_eq_some (l : List (α × α)) : boxOf l = some b ↔ IsBox {p | p ∈ l} b := by
  cases l with
  | nil =>
    refine ⟨nofun, fun h => ?_⟩
    obtain ⟨⟨p, hp, -⟩, -⟩ := h.minX
    exact absurd hp List.not_mem_nil
  | cons p l =>
    obtain ⟨c, hsome, hbox⟩ := boxOf_cons p l
    rw [hsome, Option.some.injEq]
    exact ⟨fun heq => heq ▸ hbox, fun h => hbox.unique h⟩

theorem boxOf_eq_none {l : List (α × α)} : boxOf l = none ↔ l = [] := by
  cases l with
  | nil => exact ⟨fun _ => rfl, fun _ => rfl⟩
  | cons p l =>
    obtain ⟨c, hsome, -⟩ := boxOf_cons p l
    rw [hsome]
    exact ⟨nofun, nofun⟩

end Boxes
