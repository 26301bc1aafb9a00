import Mathlib.Data.Finset.Card
import Mathlib.Logic.Relation

set_option autoImplicit false

/-!
# Depth-first search with a visited set

`visit` looks for a node that the verdict calls `found`, going through the nodes
it calls `descend`. The visited set is shared by all branches, as when it is
passed by reference, and `fuel` bounds the depth of the recursion.
-/
namespace Spade.DepthFirst

inductive Verdict where
  | skip | found | descend
  deriving DecidableEq

section
variable {α : Type} [DecidableEq α] (next : α → List α) (verdict : α → Verdict)

/-- One successor: stop once found, else pass over it, stop, or go deeper. -/
def branch (deeper : α → List α → Bool × List α) (acc : Bool × List α) (y : α) : Bool × List α :=
  if acc.1 then acc else
    match verdict y with
    | .skip => acc
    | .found => (true, acc.2)
    | .descend => deeper y acc.2

def visit : ℕ → α → List α → Bool × List α
  | 0, _, seen => (false, seen)
  | n + 1, x, seen =>
    if x ∈ seen then (false, seen)
    else (next x).foldl (branch verdict (visit n)) (false, x :: seen)

/-- One step of the search: to a successor that is neither passed over nor the goal. -/
def Descends (x y : α) : Prop := y ∈ next x ∧ verdict y = .descend

/-- Some goal is a successor of a node the search can descend to. -/
def Reaches (x : α) : Prop :=
  ∃ y, Relation.ReflTransGen (Descends next verdict) x y ∧ ∃ z ∈ next y, verdict z = .found

variable {next verdict}

theorem fold_reaches {n : ℕ} {x : α}
    (ih : ∀ y seen, (visit next verdict n y seen).1 = true → Reaches next verdict y)
    (ys : List α) (hys : ∀ y ∈ ys, y ∈ next x) (acc : Bool × List α)
    (hacc : acc.1 = true → Reaches next verdict x)
    (h : (ys.foldl (branch verdict (visit next verdict n)) acc).1 = true) :
    Reaches next verdict x := by
  induction ys generalizing acc with
  | nil => exact hacc h
  | cons y ys ihys =>
    rw [List.foldl_cons] at h
    refine ihys (fun z hz => hys z (by simp [hz])) _ ?_ h
    intro hb
    have hy : y ∈ next x := hys y (by simp)
    unfold branch at hb
    split at hb
    · exact hacc hb
    · split at hb
      · exact hacc hb
      · exact ⟨x, .refl, y, hy, by assumption⟩
      · obtain ⟨z, hz, hfound⟩ := ih y _ hb
        exact ⟨z, .head ⟨hy, by assumption⟩ hz, hfound⟩

theorem visit_sound {n : ℕ} {x : α} {seen : List α}
    (h : (visit next verdict n x seen).1 = true) : Reaches next verdict x := by
  induction n generalizing x seen with
  | zero => simp [visit] at h
  | succ n ih =>
    rw [visit] at h
    split at h
    · simp at h
    · exact fold_reaches (fun y s hy => ih hy) (next x) (fun _ hy => hy) _ (by simp) h

/-- What a search that found nothing leaves: everything seen before is still
seen, and the successors of the newly seen nodes are no goals and are seen
themselves if the search descends to them. -/
def Explored (next : α → List α) (verdict : α → Verdict) (seen after : List α) : Prop :=
  (∀ y ∈ seen, y ∈ after) ∧
  ∀ y ∈ after, y ∉ seen → ∀ z ∈ next y, verdict z ≠ .found ∧ (verdict z = .descend → z ∈ after)

/-- The same while `x` is under way and only `done` of its successors are dealt with. -/
def ExploredBut (next : α → List α) (verdict : α → Verdict) (seen : List α) (x : α)
    (done : List α) (after : List α) : Prop :=
  x ∈ after ∧ (∀ y ∈ seen, y ∈ after) ∧
  (∀ z ∈ done, verdict z ≠ .found ∧ (verdict z = .descend → z ∈ after)) ∧
  ∀ y ∈ after, y ∉ seen → y ≠ x →
    ∀ z ∈ next y, verdict z ≠ .found ∧ (verdict z = .descend → z ∈ after)

def unseen (U : Finset α) (seen : List α) : ℕ := (U \ seen.toFinset).card

theorem unseen_mono {U : Finset α} {seen after : List α} (h : ∀ y ∈ seen, y ∈ after) :
    unseen U after ≤ unseen U seen := by
  apply Finset.card_le_card
  intro y hy
  simp only [Finset.mem_sdiff, List.mem_toFinset] at hy ⊢
  exact ⟨hy.1, fun hs => hy.2 (h y hs)⟩

theorem unseen_cons {U : Finset α} {seen : List α} {x : α} (hx : x ∈ U) (hs : x ∉ seen) :
    unseen U (x :: seen) < unseen U seen := by
  apply Finset.card_lt_card
  refine ⟨?_, ?_⟩
  · intro y hy
    simp only [Finset.mem_sdiff, List.mem_toFinset, List.mem_cons, not_or] at hy ⊢
    exact ⟨hy.1, hy.2.2⟩
  · intro hle
    have hm : x ∈ U \ (x :: seen).toFinset := hle (by simp [hx, hs])
    simp at hm

omit [DecidableEq α] in
theorem fold_stays (deeper : α → List α → Bool × List α) (ys : List α) (acc : Bool × List α)
    (h : acc.1 = true) : ys.foldl (branch verdict deeper) acc = acc := by
  induction ys with
  | nil => rfl
  | cons y ys ih =>
    have hb : branch verdict deeper acc y = acc := by simp [branch, h]
    rw [List.foldl_cons, hb, ih]

theorem fold_explored {U : Finset α} (closed : ∀ x ∈ U, ∀ y ∈ next x, verdict y = .descend → y ∈ U)
    {n : ℕ} {x : α} {seen : List α} (hx : x ∈ U)
    (ih : ∀ y s, y ∈ U → unseen U s < n → (visit next verdict n y s).1 = false →
      y ∈ (visit next verdict n y s).2 ∧ Explored next verdict s (visit next verdict n y s).2)
    (ys done : List α) (hys : ∀ y ∈ ys, y ∈ next x) (acc : List α) (hn : unseen U acc < n)
    (hacc : ExploredBut next verdict seen x done acc)
    (h : (ys.foldl (branch verdict (visit next verdict n)) (false, acc)).1 = false) :
    ExploredBut next verdict seen x (done ++ ys)
      (ys.foldl (branch verdict (visit next verdict n)) (false, acc)).2 := by
  induction ys generalizing acc done with
  | nil => simpa using hacc
  | cons y ys ihys =>
    have hy : y ∈ next x := hys y (by simp)
    have hrest : ∀ z ∈ ys, z ∈ next x := fun z hz => hys z (by simp [hz])
    obtain ⟨hxa, hseen, hdone, hopen⟩ := hacc
    rw [List.foldl_cons] at h ⊢
    rw [show done ++ y :: ys = (done ++ [y]) ++ ys by simp]
    cases hv : verdict y with
    | skip =>
      have hb : branch verdict (visit next verdict n) (false, acc) y = (false, acc) := by
        simp [branch, hv]
      rw [hb] at h ⊢
      refine ihys (done ++ [y]) hrest acc hn ⟨hxa, hseen, ?_, hopen⟩ h
      intro z hz
      rcases List.mem_append.mp hz with hz | hz
      · exact hdone z hz
      · rw [List.mem_singleton.mp hz, hv]
        exact ⟨by simp, by simp⟩
    | found =>
      have hb : branch verdict (visit next verdict n) (false, acc) y = (true, acc) := by
        simp [branch, hv]
      rw [hb, fold_stays _ _ _ rfl] at h
      simp at h
    | descend =>
      have hb : branch verdict (visit next verdict n) (false, acc) y = visit next verdict n y acc := by
        simp [branch, hv]
      rw [hb] at h ⊢
      have hyU : y ∈ U := closed x hx y hy hv
      cases hr : visit next verdict n y acc with
      | mk found after =>
        rw [hr] at h
        cases found with
        | true =>
          rw [fold_stays _ _ _ rfl] at h
          simp at h
        | false =>
          have hih := ih y acc hyU hn (by rw [hr])
          rw [hr] at hih
          obtain ⟨hya, hsub, hexp⟩ := hih
          refine ihys (done ++ [y]) hrest after (lt_of_le_of_lt (unseen_mono hsub) hn)
            ⟨hsub x hxa, fun z hz => hsub z (hseen z hz), ?_, ?_⟩ h
          · intro z hz
            rcases List.mem_append.mp hz with hz | hz
            · exact ⟨(hdone z hz).1, fun hd => hsub z ((hdone z hz).2 hd)⟩
            · rw [List.mem_singleton.mp hz]
              exact ⟨by simp [hv], fun _ => hya⟩
          · intro u hu hus hux z hz
            by_cases hua : u ∈ acc
            · have hold := hopen u hua hus hux z hz
              exact ⟨hold.1, fun hd => hsub z (hold.2 hd)⟩
            · exact hexp u hu hua z hz

theorem visit_explored {U : Finset α}
    (closed : ∀ x ∈ U, ∀ y ∈ next x, verdict y = .descend → y ∈ U) {n : ℕ} {x : α}
    {seen : List α} (hx : x ∈ U) (hn : unseen U seen < n)
    (h : (visit next verdict n x seen).1 = false) :
    x ∈ (visit next verdict n x seen).2 ∧
      Explored next verdict seen (visit next verdict n x seen).2 := by
  induction n generalizing x seen with
  | zero => omega
  | succ n ih =>
    rw [visit] at h ⊢
    split at h
    · rename_i hs
      rw [if_pos hs]
      exact ⟨hs, fun y hy => hy, fun y hy hn => absurd hy hn⟩
    · rename_i hs
      rw [if_neg hs]
      have hlt := unseen_cons hx hs
      have hstart : ExploredBut next verdict seen x [] (x :: seen) := by
        refine ⟨by simp, fun y hy => by simp [hy], by simp, ?_⟩
        intro y hy hys hyx
        rcases List.mem_cons.mp hy with hy | hy
        · exact absurd hy hyx
        · exact absurd hy hys
      obtain ⟨hxa, hsub, hdone, hopen⟩ := fold_explored closed hx
        (fun y s hy hns hf => ih hy hns hf) (next x) [] (fun _ hy => hy) (x :: seen)
        (by omega) hstart h
      refine ⟨hxa, hsub, ?_⟩
      intro y hy hys z hz
      by_cases hyx : y = x
      · subst hyx
        exact hdone z (by simpa using hz)
      · exact hopen y hy hys hyx z hz

/-- With fuel beyond the number of nodes the search finds a goal exactly when one
is reachable. -/
theorem visit_iff {U : Finset α}
    (closed : ∀ x ∈ U, ∀ y ∈ next x, verdict y = .descend → y ∈ U) {n : ℕ} {x : α}
    (hx : x ∈ U) (hn : U.card < n) :
    (visit next verdict n x []).1 = true ↔ Reaches next verdict x := by
  constructor
  · exact visit_sound
  · rintro ⟨y, hxy, z, hz, hfound⟩
    cases hr : (visit next verdict n x []).1 with
    | true => rfl
    | false =>
      have hseen : unseen U [] < n := by simpa [unseen] using hn
      obtain ⟨hxa, -, hexp⟩ := visit_explored closed hx hseen hr
      have hy : y ∈ (visit next verdict n x []).2 := by
        clear hz hfound
        induction hxy with
        | refl => exact hxa
        | tail _ hstep ih => exact (hexp _ ih (by simp) _ hstep.1).2 hstep.2
      exact absurd hfound (hexp y hy (by simp) z hz).1

omit [DecidableEq α] in
/-- The order of the successors and how often they occur do not matter. -/
theorem Reaches.congr {next' : α → List α} (h : ∀ x y, y ∈ next x ↔ y ∈ next' x) {x : α} :
    Reaches next verdict x ↔ Reaches next' verdict x := by
  have hsteps : Descends next verdict = Descends next' verdict := by
    funext x y
    exact propext (and_congr_left fun _ => h x y)
  unfold Reaches
  rw [hsteps]
  simp only [h]

end
end Spade.DepthFirst
