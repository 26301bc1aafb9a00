import Mathlib.Algebra.Order.Group.Int
import Mathlib.Data.Finset.Card
import Mathlib.Data.List.Nodup
import Mathlib.Data.List.Perm.Subperm
import Mathlib.Data.List.TakeDrop
import Mathlib.Logic.Relation
import Mathlib.Order.WellFounded

set_option autoImplicit false

/-!
# Kahn's algorithm

The loop takes a node from the queue when all edges into it come from nodes that it
has taken before. What it has taken is ordered by the edges, so a run that takes every
node gives each of them a rank.
-/
namespace Spade.Kahn
variable {α : Type} [DecidableEq α] (edges : List (α × α))

def succs (u : α) : List α := (edges.filter fun e => e.1 = u).map Prod.snd

def decrement (acc : (α → ℤ) × List α) (v : α) : (α → ℤ) × List α :=
  (Function.update acc.1 v (acc.1 v - 1), if acc.1 v - 1 = 0 then acc.2 ++ [v] else acc.2)

def loop : ℕ → List α → (α → ℤ) → List α → List α
  | 0, _, _, sorted => sorted
  | _ + 1, [], _, sorted => sorted
  | n + 1, node :: queue, degree, sorted =>
    let acc := (succs edges node).foldl decrement (degree, queue)
    loop n acc.2 acc.1 (sorted ++ [node])

/-- The number of edges into `v` that do not come from the list. -/
def waiting (sorted : List α) (v : α) : ℕ :=
  edges.countP fun e => decide (e.2 = v) && decide (e.1 ∉ sorted)

/-- Every node of the list comes after the sources of its edges. -/
def Ordered (l : List α) : Prop :=
  ∀ l₁ v l₂, l = l₁ ++ v :: l₂ → ∀ u, (u, v) ∈ edges → u ∈ l₁

structure State (queue : List α) (degree : α → ℤ) (sorted : List α) : Prop where
  once : (sorted ++ queue).Nodup
  counts : ∀ v, degree v = waiting edges sorted v
  free : ∀ v ∈ sorted ++ queue, degree v = 0
  ordered : Ordered edges sorted

variable {edges}

/-- What the decrements of a list of nodes do. -/
theorem foldl_decrement (vs : List α) (degree : α → ℤ) (queue : List α) :
    ∃ new, (vs.foldl decrement (degree, queue)).2 = queue ++ new ∧ new.Nodup ∧
      (∀ v ∈ new, v ∈ vs ∧ 0 < degree v ∧ degree v ≤ vs.count v) ∧
      ∀ v, (vs.foldl decrement (degree, queue)).1 v = degree v - vs.count v := by
  induction vs generalizing degree queue with
  | nil => exact ⟨[], by simp⟩
  | cons x vs ih =>
    obtain ⟨new, hq, hn, hnew, hd⟩ := ih (decrement (degree, queue) x).1 (decrement (degree, queue) x).2
    have hx : ∀ v, (decrement (degree, queue) x).1 v = if v = x then degree x - 1 else degree v := by
      intro v
      simp [decrement, Function.update_apply]
    have hmem : ∀ v ∈ new, v ∈ x :: vs ∧ 0 < degree v ∧ degree v ≤ (x :: vs).count v := by
      intro v hv
      obtain ⟨h₁, h₂, h₃⟩ := hnew v hv
      rw [hx] at h₂ h₃
      refine ⟨List.mem_cons_of_mem _ h₁, ?_⟩
      by_cases hvx : v = x
      · subst hvx
        rw [if_pos rfl] at h₂ h₃
        rw [List.count_cons_self]
        push_cast
        omega
      · rw [if_neg hvx] at h₂ h₃
        rw [List.count_cons_of_ne (Ne.symm hvx)]
        exact ⟨h₂, h₃⟩
    have hcount : ∀ v, ((x :: vs).foldl decrement (degree, queue)).1 v =
        degree v - (x :: vs).count v := by
      intro v
      rw [List.foldl_cons]
      refine (hd v).trans ?_
      rw [hx]
      by_cases hvx : v = x
      · subst hvx
        rw [if_pos rfl, List.count_cons_self]
        push_cast
        omega
      · rw [if_neg hvx, List.count_cons_of_ne (Ne.symm hvx)]
    by_cases h0 : degree x - 1 = 0
    · refine ⟨x :: new, ?_, ?_, ?_, hcount⟩
      · rw [List.foldl_cons]
        refine hq.trans ?_
        simp [decrement, h0]
      · refine List.nodup_cons.mpr ⟨fun hmx => ?_, hn⟩
        have hpos := (hnew x hmx).2.1
        rw [hx, if_pos rfl, h0] at hpos
        exact lt_irrefl 0 hpos
      · intro v hv
        rcases List.mem_cons.mp hv with rfl | hv
        · refine ⟨by simp, by omega, ?_⟩
          rw [List.count_cons_self]
          push_cast
          omega
        · exact hmem v hv
    · refine ⟨new, ?_, hn, hmem, hcount⟩
      rw [List.foldl_cons]
      refine hq.trans ?_
      simp [decrement, h0]

/-- Taking a node settles the edges out of it. -/
theorem waiting_append {sorted : List α} {node : α} (h : node ∉ sorted) (v : α) :
    waiting edges (sorted ++ [node]) v + (succs edges node).count v = waiting edges sorted v := by
  unfold waiting succs
  simp only [List.mem_append, List.mem_singleton]
  induction edges with
  | nil => rfl
  | cons e edges ih =>
    obtain ⟨a, b⟩ := e
    by_cases ha : a = node
    · subst ha
      by_cases hb : b = v
      · subst hb
        simp only [List.countP_cons, List.filter_cons, List.map_cons, decide_true, if_true,
          List.count_cons_self, or_true, not_true, decide_false, Bool.and_false, Bool.false_eq_true,
          if_false, Bool.and_true, h, not_false_eq_true]
        omega
      · simp only [List.countP_cons, List.filter_cons, List.map_cons, decide_true, if_true,
          List.count_cons_of_ne hb, hb, decide_false, Bool.false_and, Bool.false_eq_true, if_false]
        omega
    · simp only [List.countP_cons, List.filter_cons, ha, decide_false, Bool.false_eq_true, if_false,
        or_false]
      omega

theorem waiting_zero {sorted : List α} {v : α} (h : waiting edges sorted v = 0) {u : α}
    (he : (u, v) ∈ edges) : u ∈ sorted := by
  have hno := List.countP_eq_zero.mp h _ he
  simpa using hno

omit [DecidableEq α] in
theorem Ordered.append {sorted : List α} {node : α} (h : Ordered edges sorted)
    (hnode : ∀ u, (u, node) ∈ edges → u ∈ sorted) : Ordered edges (sorted ++ [node]) := by
  intro l₁ v l₂ heq u he
  rcases List.eq_nil_or_concat l₂ with rfl | ⟨l, x, rfl⟩
  · obtain ⟨rfl, hv⟩ := List.append_inj' heq rfl
    cases hv
    exact hnode u he
  · rw [List.concat_eq_append, ← List.cons_append, ← List.append_assoc] at heq
    exact h l₁ v l (List.append_inj' heq rfl).1 u he

/-- One turn of the loop. -/
theorem State.step {node : α} {queue sorted : List α} {degree : α → ℤ}
    (h : State edges (node :: queue) degree sorted) :
    State edges ((succs edges node).foldl decrement (degree, queue)).2
      ((succs edges node).foldl decrement (degree, queue)).1 (sorted ++ [node]) := by
  obtain ⟨new, hq, hn, hnew, hd⟩ := foldl_decrement (succs edges node) degree queue
  have hnode : node ∉ sorted := by
    intro hm
    exact (List.nodup_append.mp h.once).2.2 node hm node (by simp) rfl
  have hwait : ∀ v, ((succs edges node).foldl decrement (degree, queue)).1 v =
      waiting edges (sorted ++ [node]) v := by
    intro v
    have hw : waiting edges (sorted ++ [node]) v + (succs edges node).count v =
        waiting edges sorted v := waiting_append hnode v
    rw [hd, h.counts]
    omega
  rw [hq]
  refine ⟨?_, hwait, ?_, ?_⟩
  · rw [List.append_assoc, List.singleton_append, ← List.cons_append, ← List.append_assoc]
    refine List.nodup_append.mpr ⟨h.once, hn, ?_⟩
    rintro v hv _ hv' rfl
    have hpos := (hnew v hv').2.1
    rw [h.free v hv] at hpos
    exact lt_irrefl 0 hpos
  · intro v hv
    have hnonneg := hwait v
    have hle : degree v ≤ (succs edges node).count v := by
      rw [List.append_assoc, List.singleton_append, ← List.cons_append, ← List.append_assoc] at hv
      rcases List.mem_append.mp hv with hv | hv
      · rw [h.free v hv]
        exact Int.natCast_nonneg _
      · exact (hnew v hv).2.2
    rw [hd] at hnonneg ⊢
    omega
  · refine h.ordered.append fun u he => waiting_zero ?_ he
    have hfree := h.free node (by simp)
    rw [h.counts] at hfree
    exact_mod_cast hfree

/-- What the loop takes is taken once, in the order of the edges. -/
theorem loop_ordered {ids : List α} (hids : ∀ e ∈ edges, e.2 ∈ ids) (n : ℕ) {queue sorted : List α}
    {degree : α → ℤ} (h : State edges queue degree sorted) (hknown : ∀ v ∈ sorted ++ queue, v ∈ ids) :
    (loop edges n queue degree sorted).Nodup ∧ Ordered edges (loop edges n queue degree sorted) ∧
      ∀ v ∈ loop edges n queue degree sorted, v ∈ ids := by
  induction n generalizing queue degree sorted with
  | zero =>
    exact ⟨(List.nodup_append.mp h.once).1, h.ordered, fun v hv => hknown v (by simp [loop] at hv; simp [hv])⟩
  | succ n ih =>
    cases queue with
    | nil =>
      exact ⟨(List.nodup_append.mp h.once).1, h.ordered,
        fun v hv => hknown v (by simp [loop] at hv; simp [hv])⟩
    | cons node queue =>
      refine ih h.step fun v hv => ?_
      obtain ⟨new, hq, -, hnew, -⟩ := foldl_decrement (succs edges node) degree queue
      rw [hq, List.append_assoc, List.singleton_append, ← List.cons_append, ← List.append_assoc] at hv
      rcases List.mem_append.mp hv with hv | hv
      · exact hknown v hv
      · obtain ⟨e, he, rfl⟩ := List.mem_map.mp (hnew v hv).1
        exact hids e (List.mem_filter.mp he).1

/-- A source stands before the targets of its edges. -/
theorem Ordered.idxOf_lt {l : List α} (h : Ordered edges l) {u v : α} (he : (u, v) ∈ edges)
    (hv : v ∈ l) : l.idxOf u < l.idxOf v := by
  have hlt := List.idxOf_lt_length_iff.mpr hv
  have hsplit : l = l.take (l.idxOf v) ++ v :: l.drop (l.idxOf v + 1) := by
    conv_lhs => rw [← List.take_append_drop (l.idxOf v) l]
    rw [List.drop_eq_getElem_cons hlt, List.getElem_idxOf hlt]
  have hmem := h _ _ _ hsplit u he
  exact (List.mem_take_iff_idxOf_lt (List.mem_of_mem_take hmem)).mp hmem

/-- The place in an ordered list of all targets is a rank. -/
theorem exists_rank {l : List α} (h : Ordered edges l) (hall : ∀ e ∈ edges, e.2 ∈ l) :
    ∃ rank : α → ℕ, ∀ e ∈ edges, rank e.1 < rank e.2 :=
  ⟨fun v => l.idxOf v, fun e he => h.idxOf_lt he (hall e he)⟩

omit [DecidableEq α] in
theorem rank_lt {rank : α → ℕ} (hrank : ∀ e ∈ edges, rank e.1 < rank e.2) {u v : α}
    (h : Relation.TransGen (fun u v => (u, v) ∈ edges) u v) : rank u < rank v := by
  induction h with
  | single h => exact hrank _ h
  | tail _ h ih => exact ih.trans (hrank _ h)

omit [DecidableEq α] in
open Classical in
/-- Without a cycle the number of sources from which a node is reached is a rank. -/
theorem exists_rank_of_acyclic
    (h : ∀ v, ¬Relation.TransGen (fun u v => (u, v) ∈ edges) v v) :
    ∃ rank : α → ℕ, ∀ e ∈ edges, rank e.1 < rank e.2 := by
  let before : α → Finset α := fun v =>
    (edges.map Prod.fst).toFinset.filter fun u => Relation.TransGen (fun u v => (u, v) ∈ edges) u v
  refine ⟨fun v => (before v).card, fun e he => Finset.card_lt_card ⟨fun w hw => ?_, fun hle => ?_⟩⟩
  · obtain ⟨hw, hpath⟩ := Finset.mem_filter.mp hw
    exact Finset.mem_filter.mpr ⟨hw, hpath.tail he⟩
  · have hmem : e.1 ∈ before e.2 := Finset.mem_filter.mpr
      ⟨List.mem_toFinset.mpr (List.mem_map_of_mem he), .single he⟩
    exact h e.1 (Finset.mem_filter.mp (hle hmem)).2

/-! Completeness. -/

/-- What the decrements settle is queued. -/
theorem mem_decrement {vs : List α} {degree : α → ℤ} {queue : List α} {v : α} (hv : v ∈ vs)
    (h : degree v = vs.count v) : v ∈ (vs.foldl decrement (degree, queue)).2 := by
  induction vs generalizing degree queue with
  | nil => cases hv
  | cons x vs ih =>
    rw [List.foldl_cons]
    by_cases hmem : v ∈ vs
    · refine ih hmem ?_
      change Function.update degree x (degree x - 1) v = _
      rw [Function.update_apply]
      by_cases hvx : v = x
      · subst hvx
        rw [List.count_cons_self] at h
        rw [if_pos rfl, h]
        push_cast
        omega
      · rw [if_neg hvx, h, List.count_cons_of_ne (Ne.symm hvx)]
    · obtain rfl := (List.mem_cons.mp hv).resolve_right hmem
      rw [List.count_cons_self, List.count_eq_zero.mpr hmem] at h
      obtain ⟨new, hq, -⟩ := foldl_decrement vs (decrement (degree, queue) v).1
        (decrement (degree, queue) v).2
      rw [show (vs.foldl decrement (decrement (degree, queue) v)).2 = _ from hq]
      refine List.mem_append_left _ ?_
      change v ∈ if degree v - 1 = 0 then queue ++ [v] else queue
      rw [if_pos (by push_cast at h; omega)]
      exact List.mem_append_right _ (List.mem_singleton_self v)

/-- A loop with enough fuel takes every node if the edges go up in some rank. -/
theorem loop_complete {ids : List α} {rank : α → ℕ} (hrank : ∀ e ∈ edges, rank e.1 < rank e.2)
    (hids : ∀ e ∈ edges, e.1 ∈ ids ∧ e.2 ∈ ids) (n : ℕ) {queue sorted : List α} {degree : α → ℤ}
    (h : State edges queue degree sorted) (hknown : ∀ v ∈ sorted ++ queue, v ∈ ids)
    (hready : ∀ v ∈ ids, degree v = 0 → v ∈ sorted ++ queue)
    (hn : ids.length ≤ n + sorted.length) : ∀ v ∈ ids, v ∈ loop edges n queue degree sorted := by
  induction n generalizing queue degree sorted with
  | zero =>
    have hsub : sorted ⊆ ids := fun v hv => hknown v (List.mem_append_left _ hv)
    have hperm := (List.subperm_of_subset (List.nodup_append.mp h.once).1 hsub).perm_of_length_le
      (by omega)
    exact fun v hv => hperm.mem_iff.mpr hv
  | succ n ih =>
    cases queue with
    | nil =>
      have hall : ∀ k v, rank v = k → v ∈ ids → v ∈ sorted := by
        intro k
        induction k using Nat.strong_induction_on with
        | _ k ihk =>
          intro v hk hv
          have hzero : waiting edges sorted v = 0 := by
            refine List.countP_eq_zero.mpr fun e he => ?_
            rw [Bool.and_eq_true, decide_eq_true_eq, decide_eq_true_eq]
            rintro ⟨rfl, hnot⟩
            exact hnot (ihk _ (hk ▸ hrank e he) e.1 rfl (hids e he).1)
          have hmem := hready v hv (by rw [h.counts, hzero]; rfl)
          rwa [List.append_nil] at hmem
      exact fun v hv => hall _ v rfl hv
    | cons node queue =>
      obtain ⟨new, hq, -, hnew, hd⟩ := foldl_decrement (succs edges node) degree queue
      refine ih h.step (fun v hv => ?_) (fun v hv hzero => ?_) ?_
      · rw [hq, List.append_assoc, List.singleton_append, ← List.cons_append,
          ← List.append_assoc] at hv
        rcases List.mem_append.mp hv with hv | hv
        · exact hknown v hv
        · obtain ⟨e, he, rfl⟩ := List.mem_map.mp (hnew v hv).1
          exact (hids e (List.mem_filter.mp he).1).2
      · rw [hd] at hzero
        by_cases hmem : v ∈ succs edges node
        · exact List.mem_append_right _ (mem_decrement hmem (by omega))
        · rw [List.count_eq_zero.mpr hmem] at hzero
          have hold := hready v hv (by simpa using hzero)
          rw [hq, List.append_assoc, List.singleton_append, ← List.cons_append, ← List.append_assoc]
          exact List.mem_append_left _ hold
      · rw [List.length_append, List.length_singleton]
        omega

end Spade.Kahn
