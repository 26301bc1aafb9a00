import Spade.Lib.GrayPath
import Spade.Lib.KeyedRows
import Spade.Web.Validate

set_option autoImplicit false

/-!
# The cycle finder of the editor

With distinct ids the map that is searched holds every block under its id.
-/
namespace Spade.Web
open Relation

theorem mapSet_new {V : Type} {key : String} {l : List (String × V)} (h : key ∉ l.map Prod.fst)
    (v : V) : mapSet key v l = l ++ [(key, v)] := by
  induction l with
  | nil => rfl
  | cons e l ih =>
    rw [List.map_cons, List.mem_cons, not_or] at h
    rw [mapSet, if_neg (Ne.symm h.1), ih h.2, List.cons_append]

theorem adjacency_eq {blocks : List Block} (hn : (blocks.map Block.id).Nodup) :
    adjacency blocks = blocks.map fun b => (b.id, b.refs.map refToId) := by
  have hfold : ∀ (bs : List Block) (adj : List (String × List String)),
      (adj.map Prod.fst ++ bs.map Block.id).Nodup →
      bs.foldl (fun adj b => mapSet b.id (b.refs.map refToId) adj) adj =
        adj ++ bs.map fun b => (b.id, b.refs.map refToId) := by
    intro bs
    induction bs with
    | nil => exact fun adj _ => (List.append_nil adj).symm
    | cons b bs ih =>
      intro adj hn
      have hnew : b.id ∉ adj.map Prod.fst := by
        intro hin
        exact (List.nodup_append.mp hn).2.2 b.id hin b.id List.mem_cons_self rfl
      rw [List.foldl_cons, mapSet_new hnew, ih _ (by simpa using hn), List.append_assoc]
      rfl
  exact hfold blocks [] hn

/-- What a block is stored with, if it is there. -/
theorem mapGet_adjacency {blocks : List Block} (hn : (blocks.map Block.id).Nodup) {id : String}
    {deps : List String} :
    mapGet (adjacency blocks) id = some deps ↔
      ∃ b ∈ blocks, b.id = id ∧ b.refs.map refToId = deps := by
  rw [adjacency_eq hn]
  change (KeyedRows.find Prod.fst id _).map Prod.snd = some deps ↔ _
  constructor
  · intro h
    obtain ⟨e, he, rfl⟩ := Option.map_eq_some_iff.mp h
    obtain ⟨hin, rfl⟩ := KeyedRows.find_some he
    obtain ⟨b, hb, rfl⟩ := List.mem_map.mp hin
    exact ⟨b, hb, rfl, rfl⟩
  · rintro ⟨b, hb, rfl, rfl⟩
    have hkeys : ((blocks.map fun b => (b.id, b.refs.map refToId)).map Prod.fst).Nodup := by
      rw [List.map_map]
      exact hn
    rw [KeyedRows.find_of_mem hkeys (List.mem_map_of_mem (f := fun b => (b.id, b.refs.map refToId)) hb)]
    rfl

/-- A reference of a listed block to a listed block. -/
def References (blocks : List Block) (v w : String) : Prop :=
  ∃ b ∈ blocks, b.id = v ∧ w ∈ b.refs.map refToId ∧ w ∈ blocks.map Block.id

section
variable {blocks : List Block} (hn : (blocks.map Block.id).Nodup)
include hn

theorem isSome_adjacency (id : String) :
    (mapGet (adjacency blocks) id).isSome = true ↔ id ∈ blocks.map Block.id := by
  rw [Option.isSome_iff_exists, List.mem_map]
  constructor
  · rintro ⟨deps, hdeps⟩
    obtain ⟨b, hb, hid, -⟩ := (mapGet_adjacency hn).mp hdeps
    exact ⟨b, hb, hid⟩
  · rintro ⟨b, hb, hid⟩
    exact ⟨_, (mapGet_adjacency hn).mpr ⟨b, hb, hid, rfl⟩⟩

theorem edge_adjacency : Colouring.Edge (fun id => (mapGet (adjacency blocks) id).isSome)
    (fun id => (mapGet (adjacency blocks) id).getD []) = References blocks := by
  funext v w
  refine propext ⟨?_, ?_⟩
  · rintro ⟨hv, hw, hknown⟩
    obtain ⟨deps, hdeps⟩ := Option.isSome_iff_exists.mp hv
    obtain ⟨b, hb, hid, rfl⟩ := (mapGet_adjacency hn).mp hdeps
    change w ∈ (mapGet (adjacency blocks) v).getD [] at hw
    rw [hdeps] at hw
    exact ⟨b, hb, hid, hw, (isSome_adjacency hn w).mp hknown⟩
  · rintro ⟨b, hb, rfl, hw, hin⟩
    have hget := (mapGet_adjacency hn).mpr ⟨b, hb, rfl, rfl⟩
    refine ⟨Option.isSome_iff_exists.mpr ⟨_, hget⟩, ?_, (isSome_adjacency hn w).mpr hin⟩
    change w ∈ (mapGet (adjacency blocks) b.id).getD []
    rw [hget]
    exact hw

/-- The search ends, and finds a path exactly if there is a cycle. -/
theorem findCycle_ends :
    ∃ r, findCycle blocks = some r ∧ (r ≠ none ↔ ∃ v, TransGen (References blocks) v v) ∧
      ∀ path, r = some path → ∃ v l, path = v :: l ∧ l.getLast? = some v ∧
        path.IsChain (References blocks) := by
  have hids : (adjacency blocks).map Prod.fst = blocks.map Block.id := by
    rw [adjacency_eq hn, List.map_map]
    rfl
  have hhas : ∀ id, (mapGet (adjacency blocks) id).isSome = true ↔
      id ∈ (adjacency blocks).map Prod.fst := hids ▸ isSome_adjacency hn
  obtain ⟨r, hsearch, hiff, hclosed⟩ :=
    @Colouring.searchAll_exact _ _ _ (fun id => (mapGet (adjacency blocks) id).getD []) _ hhas
  refine ⟨r, hsearch, edge_adjacency hn ▸ hiff, fun path hpath => ?_⟩
  obtain ⟨v, l, rfl, hlast, hchain⟩ := hclosed path hpath
  exact ⟨v, l, rfl, hlast, edge_adjacency hn ▸ hchain⟩

/-- The search ends; it finds a cycle exactly if there is one, and what it gives back is one. -/
theorem findCycle_exact :
    ∃ r, findCycle blocks = some r ∧ (r ≠ none ↔ ∃ v, TransGen (References blocks) v v) ∧
      ∀ path, r = some path → 2 ≤ path.length ∧ path.head? = path.getLast? ∧
        path.IsChain (References blocks) := by
  obtain ⟨r, hr, hiff, hclosed⟩ := findCycle_ends hn
  refine ⟨r, hr, hiff, fun path hpath => ?_⟩
  obtain ⟨v, l, rfl, hlast, hchain⟩ := hclosed path hpath
  cases l with
  | nil => cases hlast
  | cons w l =>
    refine ⟨Nat.le_add_left 2 _, ?_, hchain⟩
    rw [List.head?_cons, List.getLast?_cons_cons, hlast]

end

theorem findCycle_exact_two :
    ∃ r, findCycle [⟨"a", "data.a", some [.bare "b"], none⟩, ⟨"b", "data.b", some [.bare "a"], none⟩] =
        some r ∧
      (r ≠ none ↔ ∃ v, TransGen (References [⟨"a", "data.a", some [.bare "b"], none⟩,
        ⟨"b", "data.b", some [.bare "a"], none⟩]) v v) ∧
      ∀ path, r = some path → 2 ≤ path.length ∧ path.head? = path.getLast? ∧
        path.IsChain (References [⟨"a", "data.a", some [.bare "b"], none⟩,
          ⟨"b", "data.b", some [.bare "a"], none⟩]) :=
  findCycle_exact (by decide)

end Spade.Web
