import Mathlib.Data.List.Chain
import Mathlib.Logic.Relation
import Spade.Lib.Colouring

set_option autoImplicit false

/-!
# The gray nodes form a path

The stack of the search is always the path of gray nodes, and no cycle goes through a black
one. So a path that is given back is closed, and a search that gives none back has left no
cycle out.
-/
namespace Spade.Colouring
open Relation

variable {N : Type} [DecidableEq N]

/-- An edge between two nodes. -/
def Edge (has : N → Bool) (adj : N → List N) (v w : N) : Prop :=
  has v = true ∧ w ∈ adj v ∧ has w = true

/-- A path along edges that ends where it begins. -/
def ClosedPath (has : N → Bool) (adj : N → List N) (path : List N) : Prop :=
  ∃ v l, path = v :: l ∧ l.getLast? = some v ∧ path.IsChain (Edge has adj)

/-- A search under way. -/
structure Underway (has : N → Bool) (adj : N → List N) (s : Search N) : Prop where
  gray : ∀ v, s.color v = .gray ↔ v ∈ s.stack
  nodup : s.stack.Nodup
  chain : s.stack.IsChain (Edge has adj)
  closed : ∀ v, s.color v = .black → ∀ w, Edge has adj v w → s.color w = .black
  acyclic : ∀ v, s.color v = .black → ¬TransGen (Edge has adj) v v

/-- A search that has found a closed path, or has come back to where it was with some more nodes
black. -/
inductive Outcome (has : N → Bool) (adj : N → List N) (s : Search N) (done : N → Prop) :
    Option (Search N × Option (List N)) → Prop
  | found {s' : Search N} {path : List N} (h : ClosedPath has adj path) :
      Outcome has adj s done (some (s', some path))
  | explored {s' : Search N} (underway : Underway has adj s') (stack : s'.stack = s.stack)
      (white : ∀ v, s'.color v = .white → s.color v = .white)
      (black : ∀ v, s.color v = .black → s'.color v = .black)
      (all : ∀ v, done v → s'.color v = .black) :
      Outcome has adj s done (some (s', none))

variable {has : N → Bool} {adj : N → List N} {s : Search N} {v w : N}

omit [DecidableEq N] in
theorem ClosedPath.cycle {path : List N} (h : ClosedPath has adj path) :
    ∃ v, TransGen (Edge has adj) v v := by
  obtain ⟨v, l, rfl, hlast, hchain⟩ := h
  have hreach : ∀ (l : List N) (v w : N), (v :: l).IsChain (Edge has adj) → l.getLast? = some w →
      TransGen (Edge has adj) v w := by
    intro l
    induction l with
    | nil => exact fun _ _ _ hw => by cases hw
    | cons u l ih =>
      intro v w hc hw
      obtain ⟨hvu, hc⟩ := List.isChain_cons_cons.mp hc
      cases l with
      | nil =>
        cases hw
        exact .single hvu
      | cons x l => exact .head hvu (ih u w hc (by rwa [List.getLast?_cons_cons] at hw))
  exact ⟨v, hreach l v v hchain hlast⟩

namespace Underway

omit [DecidableEq N] in
theorem reached (h : Underway has adj s) (hv : s.color v = .black)
    (hvw : ReflTransGen (Edge has adj) v w) : s.color w = .black := by
  induction hvw with
  | refl => exact hv
  | tail _ hedge ih => exact h.closed _ ih _ hedge

/-- An edge from the last gray node back to a gray node closes a path. -/
theorem closes (h : Underway has adj s) {top dep : N} (htop : s.stack.getLast? = some top)
    (hedge : Edge has adj top dep) (hgray : s.color dep = .gray) :
    ClosedPath has adj (s.stack.drop (s.stack.idxOf dep) ++ [dep]) := by
  have hlt : s.stack.idxOf dep < s.stack.length := List.idxOf_lt_length_of_mem ((h.gray dep).mp hgray)
  have hdrop : s.stack.drop (s.stack.idxOf dep) =
      dep :: s.stack.drop (s.stack.idxOf dep + 1) := by
    rw [List.drop_eq_getElem_cons hlt, List.getElem_idxOf hlt]
  have hlast : (s.stack.drop (s.stack.idxOf dep)).getLast? = some top := by
    rw [List.getLast?_drop, if_neg (Nat.not_le.mpr hlt), htop]
  refine ⟨dep, s.stack.drop (s.stack.idxOf dep + 1) ++ [dep], ?_, List.getLast?_concat, ?_⟩
  · rw [hdrop, List.cons_append]
  · refine (h.chain.drop _).append (List.isChain_singleton dep) fun x hx y hy => ?_
    rw [hlast] at hx
    cases hx
    cases hy
    exact hedge

theorem enter (h : Underway has adj s) (hwhite : s.color v = .white)
    (hedge : ∀ top, s.stack.getLast? = some top → Edge has adj top v) :
    Underway has adj (s.enter v) := by
  have hcolor : ∀ w, (s.enter v).color w = if w = v then .gray else s.color w :=
    fun w => Function.update_apply ..
  have hout : v ∉ s.stack := by
    rw [← h.gray, hwhite]
    nofun
  have hblack : ∀ w, (s.enter v).color w = .black ↔ s.color w = .black := by
    intro w
    rw [hcolor]
    split_ifs with hw
    · rw [hw, hwhite]
      exact ⟨nofun, nofun⟩
    · exact Iff.rfl
  refine ⟨fun w => ?_, ?_, ?_, fun w hw u hedge => ?_, fun w hw => ?_⟩
  · change _ ↔ w ∈ s.stack ++ [v]
    rw [hcolor, List.mem_append, List.mem_singleton, ← h.gray]
    split_ifs with hw
    · exact ⟨fun _ => .inr hw, fun _ => rfl⟩
    · exact ⟨.inl, fun h => h.resolve_right hw⟩
  · exact List.nodup_append.mpr ⟨h.nodup, by simp, fun x hx y hy hxy =>
      hout (List.mem_singleton.mp hy ▸ hxy ▸ hx)⟩
  · refine h.chain.append (List.isChain_singleton v) fun x hx y hy => ?_
    cases hy
    exact hedge x hx
  · exact (hblack u).mpr (h.closed w ((hblack w).mp hw) u hedge)
  · exact h.acyclic w ((hblack w).mp hw)

/-- A node is done when all that it leads to is black. -/
theorem leave {s' : Search N} (h : Underway has adj s') {stack : List N}
    (hstack : s'.stack = stack ++ [v])
    (hdone : ∀ w, Edge has adj v w → s'.color w = .black) : Underway has adj (s'.leave v) := by
  have hcolor : ∀ w, (s'.leave v).color w = if w = v then .black else s'.color w :=
    fun w => Function.update_apply ..
  have hkeep : (s'.leave v).stack = stack := by
    change s'.stack.dropLast = stack
    rw [hstack, List.dropLast_concat]
  have hnodup := h.nodup
  rw [hstack, List.nodup_append] at hnodup
  have hblack : ∀ w, (s'.leave v).color w = .black ↔ w = v ∨ s'.color w = .black := by
    intro w
    rw [hcolor]
    split_ifs with hw
    · exact ⟨fun _ => .inl hw, fun _ => rfl⟩
    · exact ⟨.inr, fun h => h.resolve_left hw⟩
  have hgray : s'.color v = .gray := by
    rw [h.gray, hstack]
    exact List.mem_append_right _ (List.mem_singleton_self v)
  refine ⟨fun w => ?_, hkeep ▸ hnodup.1, ?_, fun w hw u hedge => ?_, fun w hw hcycle => ?_⟩
  · rw [hcolor, hkeep]
    split_ifs with hw
    · subst hw
      exact ⟨nofun, fun hin => absurd rfl (hnodup.2.2 w hin w (List.mem_singleton_self w))⟩
    · rw [h.gray, hstack, List.mem_append, List.mem_singleton, or_iff_left hw]
  · rw [hkeep]
    have hchain := h.chain
    rw [hstack] at hchain
    exact hchain.left_of_append
  · rw [hblack]
    rcases (hblack w).mp hw with rfl | hw
    · exact .inr (hdone u hedge)
    · exact .inr (h.closed w hw u hedge)
  · rcases (hblack w).mp hw with rfl | hw
    · obtain ⟨u, hedge, hback⟩ := TransGen.head'_iff.mp hcycle
      have hback := h.reached (hdone u hedge) hback
      rw [hgray] at hback
      cases hback
    · exact h.acyclic w hw hcycle

end Underway

omit [DecidableEq N] in
/-- A search that goes on from a later state. -/
theorem Outcome.after {s' : Search N} {done done' : N → Prop}
    {r : Option (Search N × Option (List N))} (h : Outcome has adj s' done r)
    (hstack : s'.stack = s.stack) (hwhite : ∀ v, s'.color v = .white → s.color v = .white)
    (hblack : ∀ v, s.color v = .black → s'.color v = .black)
    (hdone : ∀ v, done' v → done v ∨ s'.color v = .black) : Outcome has adj s done' r := by
  cases h with
  | found hpath => exact .found hpath
  | explored h hstack' hwhite' hblack' hall =>
    exact .explored h (hstack'.trans hstack) (fun v hv => hwhite v (hwhite' v hv))
      (fun v hv => hblack' v (hblack v hv)) fun v hv => (hdone v hv).elim (hall v) (hblack' v)

theorem visitAll_outcome {visit : N → Search N → Option (Search N × Option (List N))}
    {ids : List N} {n : ℕ} {top : N}
    (hvisit : ∀ v s, has v = true → Underway has adj s → s.color v = .white →
      (∀ top, s.stack.getLast? = some top → Edge has adj top v) → whites ids s ≤ n →
      Outcome has adj s (· = v) (visit v s))
    (deps : List N) (hdeps : ∀ dep ∈ deps, has dep = true → Edge has adj top dep) (s : Search N)
    (h : Underway has adj s) (htop : s.stack.getLast? = some top) (hwhites : whites ids s ≤ n) :
    Outcome has adj s (fun v => v ∈ deps ∧ has v = true) (visitAll has visit deps s) := by
  induction deps generalizing s with
  | nil =>
    exact .explored h rfl (fun _ hv => hv) (fun _ hv => hv)
      fun v hv => absurd hv.1 List.not_mem_nil
  | cons dep deps ih =>
    have hrest := ih fun v hv => hdeps v (List.mem_cons_of_mem dep hv)
    unfold visitAll
    by_cases hknown : has dep = true
    · have hedge := hdeps dep List.mem_cons_self hknown
      -- Once `dep` is black, the rest of the successors are visited from there.
      have hnext : ∀ s' : Search N, Underway has adj s' → s'.stack = s.stack →
          (∀ v, s'.color v = .white → s.color v = .white) →
          (∀ v, s.color v = .black → s'.color v = .black) → s'.color dep = .black →
          Outcome has adj s (fun v => v ∈ dep :: deps ∧ has v = true)
            (visitAll has visit deps s') := by
        intro s' h' hstack hwhite hblack hdep
        refine (hrest s' h' (hstack ▸ htop) (Nat.le_trans (whites_mono hwhite) hwhites)).after hstack
          hwhite hblack fun v hv => ?_
        rcases List.mem_cons.mp hv.1 with rfl | hin
        · exact .inr hdep
        · exact .inl ⟨hin, hv.2⟩
      rw [if_pos hknown]
      cases hcolor : s.color dep with
      | gray => exact .found (h.closes htop hedge hcolor)
      | black => exact hnext s h rfl (fun _ hv => hv) (fun _ hv => hv) hcolor
      | white =>
        have hdep := hvisit dep s hknown h hcolor (fun t ht => by
          rw [htop] at ht
          cases ht
          exact hedge) hwhites
        dsimp only
        cases hr : visit dep s with
        | none =>
          rw [hr] at hdep
          cases hdep
        | some r =>
          rw [hr] at hdep
          cases hdep with
          | found hpath => exact .found hpath
          | explored h' hstack hwhite hblack hdone => exact hnext _ h' hstack hwhite hblack (hdone dep rfl)
    · rw [if_neg hknown]
      refine (hrest s h htop hwhites).after rfl (fun _ hv => hv) (fun _ hv => hv) fun v hv => ?_
      rcases List.mem_cons.mp hv.1 with rfl | hin
      · exact absurd hv.2 hknown
      · exact .inl ⟨hin, hv.2⟩

theorem dfs_outcome {ids : List N} (hhas : ∀ v, has v = true → v ∈ ids) (n : ℕ) (node : N)
    (s : Search N) (hnode : has node = true) (h : Underway has adj s)
    (hwhite : s.color node = .white)
    (hedge : ∀ top, s.stack.getLast? = some top → Edge has adj top node)
    (hwhites : whites ids s ≤ n) : Outcome has adj s (· = node) (dfs has adj n node s) := by
  induction n generalizing node s with
  | zero =>
    have hlt := whites_enter (hhas node hnode) hwhite
    omega
  | succ n ih =>
    have hlt := whites_enter (hhas node hnode) hwhite
    have hdeps : ∀ dep ∈ adj node, has dep = true → Edge has adj node dep :=
      fun dep hdep hknown => ⟨hnode, hdep, hknown⟩
    have hall := visitAll_outcome (fun v s hv h hw he hn => ih v s hv h hw he hn)
      (adj node) hdeps (s.enter node)
      (h.enter hwhite hedge) List.getLast?_concat (by omega)
    unfold dfs
    cases hr : visitAll has (dfs has adj n) (adj node) (s.enter node) with
    | none =>
      rw [hr] at hall
      cases hall
    | some r =>
      rw [hr] at hall
      cases hall with
      | found hpath => exact .found hpath
      | @explored s' h' hstack hw hb hdone =>
        have hcolor : ∀ w, (s.enter node).color w = if w = node then .gray else s.color w :=
          fun w => Function.update_apply ..
        have hleave : ∀ w, (s'.leave node).color w = if w = node then .black else s'.color w :=
          fun w => Function.update_apply ..
        refine .explored (h'.leave hstack fun w he => hdone w he.2) ?_ (fun w hcw => ?_)
          (fun w hcw => ?_) fun w hcw => ?_
        · change s'.stack.dropLast = s.stack
          rw [hstack]
          exact List.dropLast_concat
        · rw [hleave] at hcw
          split_ifs at hcw with hwn
          have hold := hw w hcw
          rwa [hcolor, if_neg hwn] at hold
        · rw [hleave]
          split_ifs with hwn
          · rfl
          · exact hb w (by rwa [hcolor, if_neg hwn])
        · rw [hleave, if_pos hcw]

theorem searchAll_outcome {ids : List N} (hhas : ∀ v, has v = true → v ∈ ids) (l : List N)
    (hl : ∀ v ∈ l, has v = true) (s : Search N) (h : Underway has adj s) (hstack : s.stack = []) :
    ∃ r, searchAll has adj ids.length l s = some r ∧
      (∀ path, r = some path → ClosedPath has adj path) ∧
      (r = none → ∀ v ∈ l, ¬TransGen (Edge has adj) v v) := by
  induction l generalizing s with
  | nil => exact ⟨none, rfl, nofun, fun _ v hv => absurd hv List.not_mem_nil⟩
  | cons id l ih =>
    have hrest := ih fun v hv => hl v (List.mem_cons_of_mem id hv)
    unfold searchAll
    split_ifs with hwhite
    · have hid := dfs_outcome hhas ids.length id s (hl id List.mem_cons_self) h hwhite
        (fun top htop => by rw [hstack] at htop; cases htop) List.countP_le_length
      cases hr : dfs has adj ids.length id s with
      | none =>
        rw [hr] at hid
        cases hid
      | some r =>
        rw [hr] at hid
        cases hid with
        | found hpath => exact ⟨_, rfl, fun _ hp => by cases hp; exact hpath, nofun⟩
        | explored h' hstack' _ _ hdone =>
          obtain ⟨r, hsearch, hclosed, hnone⟩ := hrest _ h' (hstack'.trans hstack)
          refine ⟨r, hsearch, hclosed, fun hr v hv => ?_⟩
          rcases List.mem_cons.mp hv with rfl | hv
          · exact h'.acyclic v (hdone v rfl)
          · exact hnone hr v hv
    · obtain ⟨r, hsearch, hclosed, hnone⟩ := hrest s h hstack
      refine ⟨r, hsearch, hclosed, fun hr v hv => ?_⟩
      rcases List.mem_cons.mp hv with rfl | hv
      · refine h.acyclic v ?_
        cases hcolor : s.color v with
        | white => exact absurd hcolor hwhite
        | black => rfl
        | gray =>
          have hin := (h.gray v).mp hcolor
          rw [hstack] at hin
          exact absurd hin List.not_mem_nil
      · exact hnone hr v hv

/-- The search ends, and finds a closed path exactly if there is a cycle. -/
theorem searchAll_exact {ids : List N} (hhas : ∀ v, has v = true ↔ v ∈ ids) :
    ∃ r, searchAll has adj ids.length ids {} = some r ∧
      (r ≠ none ↔ ∃ v, TransGen (Edge has adj) v v) ∧
      ∀ path, r = some path → ClosedPath has adj path := by
  have hstart : Underway has adj {} :=
    ⟨fun _ => ⟨nofun, nofun⟩, List.nodup_nil, List.isChain_nil, nofun, nofun⟩
  obtain ⟨r, hsearch, hclosed, hnone⟩ := searchAll_outcome (fun v => (hhas v).mp) ids
    (fun v => (hhas v).mpr) {} hstart rfl
  refine ⟨r, hsearch, ⟨fun hr => ?_, ?_⟩, hclosed⟩
  · obtain ⟨path, hpath⟩ := Option.ne_none_iff_exists'.mp hr
    exact (hclosed path hpath).cycle
  · rintro ⟨v, hcycle⟩ hr
    obtain ⟨w, hedge, -⟩ := TransGen.head'_iff.mp hcycle
    exact hnone hr v ((hhas v).mp hedge.1) hcycle

end Spade.Colouring
