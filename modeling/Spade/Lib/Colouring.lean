import Mathlib.Data.List.Basic
import Mathlib.Logic.Function.Basic

set_option autoImplicit false

/-!
# Depth-first search with three colours

A node is gray while the search is below it, and black once it is done. The search gives
back the path of gray nodes that an edge closes, if it meets one. The fuel bounds its depth;
it is none when it runs out.
-/
namespace Spade.Colouring

inductive Colour where
  | white | gray | black
  deriving DecidableEq

variable {N : Type} [DecidableEq N]

structure Search (N : Type) where
  color : N → Colour := fun _ => .white
  stack : List N := []

namespace Search

def enter (node : N) (s : Search N) : Search N :=
  ⟨Function.update s.color node .gray, s.stack ++ [node]⟩

def leave (node : N) (s : Search N) : Search N :=
  ⟨Function.update s.color node .black, s.stack.dropLast⟩

end Search

/-- The successors of a node in turn, where `has` tells which of them are nodes. -/
def visitAll (has : N → Bool) (dfs : N → Search N → Option (Search N × Option (List N))) :
    List N → Search N → Option (Search N × Option (List N))
  | [], s => some (s, none)
  | dep :: deps, s =>
    if has dep then
      match s.color dep with
      | .gray => some (s, some (s.stack.drop (s.stack.idxOf dep) ++ [dep]))
      | .white =>
        match dfs dep s with
        | none => none
        | some (s', some cycle) => some (s', some cycle)
        | some (s', none) => visitAll has dfs deps s'
      | .black => visitAll has dfs deps s
    else visitAll has dfs deps s

def dfs (has : N → Bool) (adj : N → List N) : ℕ → N → Search N → Option (Search N × Option (List N))
  | 0, _, _ => none
  | n + 1, node, s =>
    match visitAll has (dfs has adj n) (adj node) (s.enter node) with
    | none => none
    | some (s', some cycle) => some (s', some cycle)
    | some (s', none) => some (s'.leave node, none)

/-- The search from every node that is still white. -/
def searchAll (has : N → Bool) (adj : N → List N) (fuel : ℕ) :
    List N → Search N → Option (Option (List N))
  | [], _ => some none
  | id :: ids, s =>
    if s.color id = .white then
      match dfs has adj fuel id s with
      | none => none
      | some (_, some cycle) => some (some cycle)
      | some (s', none) => searchAll has adj fuel ids s'
    else searchAll has adj fuel ids s

/-! What is left to visit. -/

def whites (ids : List N) (s : Search N) : ℕ := ids.countP fun v => s.color v = .white

omit [DecidableEq N] in
theorem whites_mono {ids : List N} {s s' : Search N}
    (h : ∀ v, s'.color v = .white → s.color v = .white) : whites ids s' ≤ whites ids s := by
  refine List.countP_mono_left fun v _ hv => ?_
  rw [decide_eq_true_eq] at hv ⊢
  exact h v hv

theorem whites_enter {ids : List N} {s : Search N} {node : N} (hnode : node ∈ ids)
    (hwhite : s.color node = .white) : whites ids (s.enter node) < whites ids s := by
  have hle : ∀ v, (s.enter node).color v = .white → s.color v = .white := by
    intro v hv
    change Function.update s.color node .gray v = .white at hv
    rw [Function.update_apply] at hv
    split_ifs at hv
    exact hv
  obtain ⟨l₁, l₂, rfl⟩ := List.append_of_mem hnode
  unfold whites
  rw [List.countP_append, List.countP_append, List.countP_cons_of_neg (by simp [Search.enter]),
    List.countP_cons_of_pos (by simpa using hwhite)]
  have h₁ : whites l₁ (s.enter node) ≤ whites l₁ s := whites_mono hle
  have h₂ : whites l₂ (s.enter node) ≤ whites l₂ s := whites_mono hle
  unfold whites at h₁ h₂
  omega

end Spade.Colouring
