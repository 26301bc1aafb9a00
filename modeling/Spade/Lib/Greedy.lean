import Mathlib.Data.List.Nodup
import Mathlib.Data.List.Sort

set_option autoImplicit false

/-!
# Taking by turns

Items come one after the other, and each takes the only free place that accepts it; where
several do, nothing is taken at all.
-/
namespace Spade.Greedy
variable {I O : Type} [DecidableEq I] (accepts : O → I → Bool)

def run : List I → List O → Option (List (I × O))
  | _, [] => some []
  | free, o :: os =>
    match free.filter (accepts o) with
    | [] => run free os
    | [i] => (run (free.filter (· ≠ i)) os).map ((i, o) :: ·)
    | _ => none

/-- The places that nothing has taken. -/
def left (free : List I) (ps : List (I × O)) : List I := free.filter (· ∉ ps.map Prod.fst)

variable {accepts} {free : List I} {o : O} {os os' : List O} {ps qs : List (I × O)}

theorem run_cons : run accepts free (o :: os) = some ps ↔
    free.filter (accepts o) = [] ∧ run accepts free os = some ps ∨
    ∃ i qs, free.filter (accepts o) = [i] ∧ run accepts (free.filter (· ≠ i)) os = some qs ∧
      ps = (i, o) :: qs := by
  change (match free.filter (accepts o) with
    | [] => run accepts free os
    | [i] => (run accepts (free.filter (· ≠ i)) os).map ((i, o) :: ·)
    | _ => none) = some ps ↔ _
  rcases free.filter (accepts o) with _ | ⟨i, _ | ⟨i', l⟩⟩
  · constructor
    · exact fun h => .inl ⟨rfl, h⟩
    · rintro (⟨-, h⟩ | ⟨i, qs, h, -⟩)
      · exact h
      · cases h
  · constructor
    · intro h
      obtain ⟨qs, hq, rfl⟩ := Option.map_eq_some_iff.mp h
      exact .inr ⟨i, qs, rfl, hq, rfl⟩
    · rintro (⟨h, -⟩ | ⟨j, qs, h, hq, rfl⟩)
      · cases h
      · cases h
        exact Option.map_eq_some_iff.mpr ⟨qs, hq, rfl⟩
  · constructor
    · rintro ⟨⟩
    · rintro (⟨h, -⟩ | ⟨j, qs, h, -⟩)
      · cases h
      · cases h

theorem left_cons (free : List I) (i : I) (o : O) (qs : List (I × O)) :
    left free ((i, o) :: qs) = left (free.filter (· ≠ i)) qs := by
  unfold left
  rw [List.filter_filter]
  refine List.filter_congr fun j _ => ?_
  simp only [List.map_cons, List.mem_cons, not_or, Bool.decide_and, ne_eq, decide_not]
  exact Bool.and_comm _ _

theorem run_append : run accepts free (os ++ os') = some ps ↔ ∃ qs qs',
    run accepts free os = some qs ∧ run accepts (left free qs) os' = some qs' ∧ ps = qs ++ qs' := by
  induction os generalizing free ps with
  | nil =>
    have hleft : left free ([] : List (I × O)) = free := by simp [left]
    have hnil : run accepts free [] = some [] := rfl
    simp [hnil, hleft]
  | cons o os ih =>
    rw [List.cons_append, run_cons]
    simp only [ih, @run_cons _ _ _ accepts free o os]
    constructor
    · rintro (⟨hnone, qs, qs', hq, hq', rfl⟩ | ⟨i, _, hone, ⟨qs, qs', hq, hq', rfl⟩, rfl⟩)
      · exact ⟨qs, qs', .inl ⟨hnone, hq⟩, hq', rfl⟩
      · exact ⟨(i, o) :: qs, qs', .inr ⟨i, qs, hone, hq, rfl⟩, by rwa [left_cons], rfl⟩
    · rintro ⟨qs, qs', ⟨hnone, hq⟩ | ⟨i, qs, hone, hq, rfl⟩, hq', rfl⟩
      · exact .inl ⟨hnone, qs, qs', hq, hq', rfl⟩
      · exact .inr ⟨i, qs ++ qs', hone, ⟨qs, qs', hq, by rwa [left_cons] at hq', rfl⟩, rfl⟩

/-- What is taken was free and accepts what takes it, and is taken once. -/
theorem run_spec (h : run accepts free os = some ps) :
    (∀ p ∈ ps, p.1 ∈ free ∧ p.2 ∈ os ∧ accepts p.2 p.1 = true) ∧ (ps.map Prod.fst).Nodup := by
  induction os generalizing free ps with
  | nil =>
    cases h
    exact ⟨fun _ h => (List.not_mem_nil h).elim, List.nodup_nil⟩
  | cons o os ih =>
    rcases run_cons.mp h with ⟨-, hrun⟩ | ⟨i, qs, hone, hrun, rfl⟩
    · obtain ⟨hall, hn⟩ := ih hrun
      exact ⟨fun p hp => ⟨(hall p hp).1, List.mem_cons_of_mem _ (hall p hp).2.1, (hall p hp).2.2⟩, hn⟩
    · obtain ⟨hall, hn⟩ := ih hrun
      have hi : i ∈ free ∧ accepts o i = true := by
        rw [← List.mem_filter, hone]
        exact List.mem_singleton_self i
      refine ⟨List.forall_mem_cons.mpr ⟨⟨hi.1, List.mem_cons_self, hi.2⟩, fun p hp => ?_⟩, ?_⟩
      · obtain ⟨hfree, hos, hacc⟩ := hall p hp
        exact ⟨(List.mem_filter.mp hfree).1, List.mem_cons_of_mem _ hos, hacc⟩
      · refine List.nodup_cons.mpr ⟨fun hmem => ?_, hn⟩
        obtain ⟨p, hp, rfl⟩ := List.mem_map.mp hmem
        simpa using (List.mem_filter.mp (hall p hp).1).2

theorem unique_of_run (h : run accepts free os = some ps) {i : I} {o o' : O} (ho : (i, o) ∈ ps)
    (ho' : (i, o') ∈ ps) : o = o' :=
  congrArg Prod.snd (List.inj_on_of_nodup_map (run_spec h).2 ho ho' rfl)

/-! Narrow items first. -/

/-- Every place that accepts the one accepts the other, or none does. -/
def Narrow (accepts : O → I → Bool) (a b : O) : Prop :=
  (∀ i, accepts a i = true → accepts b i = true) ∨ ∀ i, accepts a i = true → accepts b i = false

/-- The same places are taken. -/
def SameTaken (ps qs : List (I × O)) : Prop := ∀ i, i ∈ ps.map Prod.fst ↔ i ∈ qs.map Prod.fst

omit [DecidableEq I] in
theorem SameTaken.cons (h : SameTaken ps qs) (i : I) (a b : O) :
    SameTaken ((i, a) :: ps) ((i, b) :: qs) := by
  intro j
  rw [List.map_cons, List.map_cons, List.mem_cons, List.mem_cons, h j]

/-- An item can go before one that is no narrower. -/
theorem run_swap {a b : O} (hab : Narrow accepts a b)
    (h : run accepts free (b :: a :: os) = some ps) :
    ∃ qs, run accepts free (a :: b :: os) = some qs ∧ SameTaken ps qs := by
  have hfilter : ∀ i, (free.filter (· ≠ i)).filter (accepts a) =
      (free.filter (accepts a)).filter (· ≠ i) := fun i => List.filter_comm _ _ _
  have hfilter' : ∀ i, (free.filter (· ≠ i)).filter (accepts b) =
      (free.filter (accepts b)).filter (· ≠ i) := fun i => List.filter_comm _ _ _
  rcases run_cons.mp h with ⟨hb, h₁⟩ | ⟨i, qs, hb, h₁, rfl⟩
  · rcases run_cons.mp h₁ with ⟨ha, h₂⟩ | ⟨j, rs, ha, h₂, rfl⟩
    · exact ⟨ps, run_cons.mpr (.inl ⟨ha, run_cons.mpr (.inl ⟨hb, h₂⟩)⟩), fun _ => Iff.rfl⟩
    · refine ⟨_, run_cons.mpr (.inr ⟨j, rs, ha, run_cons.mpr (.inl ⟨?_, h₂⟩), rfl⟩), fun _ => Iff.rfl⟩
      rw [hfilter', hb, List.filter_nil]
  · have hi : ∀ k, k ∈ free ∧ accepts b k = true ↔ k = i := fun k => by
      rw [← List.mem_filter, hb, List.mem_singleton]
    by_cases hai : accepts a i = true
    · -- What accepts `a` accepts `b`, so `a` finds the place of `b` and no other.
      have hsub : ∀ k, accepts a k = true → accepts b k = true := by
        refine hab.resolve_right fun hdis => ?_
        have hbi := ((hi i).mpr rfl).2
        rw [hdis i hai] at hbi
        cases hbi
      have ha : free.filter (accepts a) = [i] := by
        have hboth : (free.filter (accepts b)).filter (accepts a) = free.filter (accepts a) := by
          rw [List.filter_filter]
          refine List.filter_congr fun k _ => ?_
          by_cases hk : accepts a k = true
          · rw [hk, hsub k hk]
            rfl
          · rw [Bool.not_eq_true] at hk
            rw [hk, Bool.false_and]
        rw [← hboth, hb, List.filter_cons_of_pos hai, List.filter_nil]
      have hnone : (free.filter (· ≠ i)).filter (accepts a) = [] := by
        rw [hfilter, ha]
        simp
      rcases run_cons.mp h₁ with ⟨-, h₂⟩ | ⟨j, rs, hone, -⟩
      · refine ⟨_, run_cons.mpr (.inr ⟨i, qs, ha, run_cons.mpr (.inl ⟨?_, h₂⟩), rfl⟩), ?_⟩
        · rw [hfilter', hb]
          simp
        · exact SameTaken.cons (fun _ => Iff.rfl) i b a
      · rw [hnone] at hone
        cases hone
    · have hskip : (free.filter (· ≠ i)).filter (accepts a) = free.filter (accepts a) := by
        rw [hfilter]
        refine List.filter_eq_self.mpr fun k hk => ?_
        rw [decide_eq_true_eq]
        rintro rfl
        exact hai (List.mem_filter.mp hk).2
      rcases run_cons.mp h₁ with ⟨ha, h₂⟩ | ⟨j, rs, ha, h₂, rfl⟩
      · rw [hskip] at ha
        exact ⟨_, run_cons.mpr (.inl ⟨ha, run_cons.mpr (.inr ⟨i, qs, hb, h₂, rfl⟩)⟩), fun _ => Iff.rfl⟩
      · have hji : j ≠ i := by
          have hmem := List.mem_filter.mp (ha ▸ List.mem_singleton_self j)
          simpa using (List.mem_filter.mp hmem.1).2
        rw [hskip] at ha
        have hb' : (free.filter (· ≠ j)).filter (accepts b) = [i] := by
          rw [hfilter', hb]
          simp [hji.symm]
        refine ⟨_, run_cons.mpr (.inr ⟨j, _, ha, run_cons.mpr (.inr ⟨i, rs, hb', ?_, rfl⟩), rfl⟩), ?_⟩
        · rwa [List.filter_comm]
        · intro k
          simp only [List.map_cons, List.mem_cons]
          exact or_left_comm

theorem run_first {a : O} {pre : List O} (hpre : ∀ b ∈ pre, Narrow accepts a b)
    (h : run accepts free (pre ++ a :: os) = some ps) :
    ∃ qs, run accepts free (a :: (pre ++ os)) = some qs ∧ SameTaken ps qs := by
  induction pre generalizing free ps with
  | nil => exact ⟨ps, h, fun _ => Iff.rfl⟩
  | cons b pre ih =>
    obtain ⟨hb, hpre⟩ := List.forall_mem_cons.mp hpre
    have hnext : ∃ qs, run accepts free (b :: a :: (pre ++ os)) = some qs ∧ SameTaken ps qs := by
      rcases run_cons.mp h with ⟨hnone, hrun⟩ | ⟨i, qs, hone, hrun, rfl⟩
      · obtain ⟨rs, hrs, hsame⟩ := ih hpre hrun
        exact ⟨rs, run_cons.mpr (.inl ⟨hnone, hrs⟩), hsame⟩
      · obtain ⟨rs, hrs, hsame⟩ := ih hpre hrun
        exact ⟨_, run_cons.mpr (.inr ⟨i, rs, hone, hrs, rfl⟩), hsame.cons i b b⟩
    obtain ⟨qs, hqs, hsame⟩ := hnext
    obtain ⟨rs, hrs, hsame'⟩ := run_swap hb hqs
    exact ⟨rs, hrs, fun i => (hsame i).trans (hsame' i)⟩

/-- Narrow items first is as good as any order. -/
theorem run_sorted {rest : List O} (hsorted : os'.Pairwise (Narrow accepts)) (hperm : os.Perm os')
    (h : run accepts free (os ++ rest) = some ps) :
    ∃ qs, run accepts free (os' ++ rest) = some qs ∧ SameTaken ps qs := by
  induction os' generalizing os free ps with
  | nil =>
    obtain rfl := hperm.eq_nil
    exact ⟨ps, h, fun _ => Iff.rfl⟩
  | cons a os' ih =>
    obtain ⟨ha, hsorted⟩ := List.pairwise_cons.mp hsorted
    obtain ⟨pre, post, rfl⟩ := List.append_of_mem (hperm.mem_iff.mpr List.mem_cons_self)
    have htail : (pre ++ post).Perm os' := (List.perm_middle.symm.trans hperm).cons_inv
    rw [List.append_assoc, List.cons_append] at h
    obtain ⟨qs, hqs, hsame⟩ := run_first
      (fun b hb => ha b (htail.mem_iff.mp (List.mem_append_left _ hb))) h
    rw [← List.append_assoc] at hqs
    rcases run_cons.mp hqs with ⟨hnone, hrun⟩ | ⟨i, ts, hone, hrun, rfl⟩
    · obtain ⟨rs, hrs, hsame'⟩ := ih hsorted htail hrun
      exact ⟨rs, run_cons.mpr (.inl ⟨hnone, hrs⟩), fun i => (hsame i).trans (hsame' i)⟩
    · obtain ⟨rs, hrs, hsame'⟩ := ih hsorted htail hrun
      exact ⟨_, run_cons.mpr (.inr ⟨i, rs, hone, hrs, rfl⟩),
        fun j => (hsame j).trans (hsame'.cons i a a j)⟩

/-- The items of each group, narrow ones first. -/
abbrev NarrowFirst (accepts : O → I → Bool) (gs sorted : List (List O)) : Prop :=
  List.Forall₂ (fun g g' => g.Perm g' ∧ g'.Pairwise (Narrow accepts)) gs sorted

theorem run_groups {gs gs' : List (List O)}
    (h : NarrowFirst accepts gs gs') (hrun : run accepts free gs.flatten = some ps) :
    ∃ qs, run accepts free gs'.flatten = some qs ∧ SameTaken ps qs := by
  induction h generalizing free ps with
  | nil => exact ⟨ps, hrun, fun _ => Iff.rfl⟩
  | @cons os os' gs gs' hos _ ih =>
    rw [List.flatten_cons] at hrun
    obtain ⟨qs, hqs, hsame⟩ := run_sorted hos.2 hos.1 hrun
    obtain ⟨rs, rs', hrs, hrs', rfl⟩ := run_append.mp hqs
    obtain ⟨ts, hts, hsame'⟩ := ih hrs'
    refine ⟨rs ++ ts, run_append.mpr ⟨rs, ts, hrs, hts, rfl⟩, fun i => (hsame i).trans ?_⟩
    rw [List.map_append, List.map_append, List.mem_append, List.mem_append, hsame' i]

/-! When the order in each group does not matter. -/

/-- Group after group, each item finds at most one free place, and no two find the same. -/
def Clear (accepts : O → I → Bool) : List I → List (List O) → Prop
  | _, [] => True
  | free, g :: gs => (∀ o ∈ g, (free.filter (accepts o)).length ≤ 1) ∧
    (∀ o ∈ g, ∀ o' ∈ g, ∀ i ∈ free, accepts o i = true → accepts o' i = true → o = o') ∧
    Clear accepts (free.filter fun i => !g.any fun o => accepts o i) gs

theorem run_clear (hone : ∀ o ∈ os, (free.filter (accepts o)).length ≤ 1)
    (hown : ∀ o ∈ os, ∀ o' ∈ os, ∀ i ∈ free, accepts o i = true → accepts o' i = true → o = o') :
    ∃ ps, run accepts free os = some ps ∧
      ∀ i o, (i, o) ∈ ps ↔ o ∈ os ∧ i ∈ free ∧ accepts o i = true := by
  induction os generalizing free with
  | nil => exact ⟨[], rfl, fun i o => by simp⟩
  | cons o os ih =>
    obtain ⟨ho, hrest⟩ := List.forall_mem_cons.mp hone
    rcases hpick : free.filter (accepts o) with _ | ⟨i, _ | ⟨i', l⟩⟩
    · obtain ⟨ps, hps, hmem⟩ := ih hrest fun a ha b hb => hown a (List.mem_cons_of_mem _ ha) b
        (List.mem_cons_of_mem _ hb)
      refine ⟨ps, run_cons.mpr (.inl ⟨hpick, hps⟩), fun j a => ?_⟩
      rw [hmem, List.mem_cons]
      refine and_congr_left fun hj => (or_iff_right ?_).symm
      rintro rfl
      have hin := List.mem_filter.mpr hj
      rw [hpick] at hin
      exact List.not_mem_nil hin
    · have hi : ∀ k, k ∈ free ∧ accepts o k = true ↔ k = i := fun k => by
        rw [← List.mem_filter, hpick, List.mem_singleton]
      have hsub : ∀ k ∈ free.filter (· ≠ i), k ∈ free := fun k hk => (List.mem_filter.mp hk).1
      obtain ⟨ps, hps, hmem⟩ := @ih (free.filter (· ≠ i))
        (fun a ha => (List.filter_sublist.filter (accepts a)).length_le.trans (hrest a ha))
        fun a ha b hb k hk =>
          hown a (List.mem_cons_of_mem _ ha) b (List.mem_cons_of_mem _ hb) k (hsub k hk)
      refine ⟨_, run_cons.mpr (.inr ⟨i, ps, hpick, hps, rfl⟩), fun j a => ?_⟩
      rw [List.mem_cons, hmem, List.mem_cons, List.mem_filter, decide_eq_true_eq, Prod.mk.injEq]
      constructor
      · rintro (⟨rfl, rfl⟩ | ⟨ha, ⟨hj, -⟩, hacc⟩)
        · exact ⟨.inl rfl, (hi j).mpr rfl⟩
        · exact ⟨.inr ha, hj, hacc⟩
      · rintro ⟨ha, hj, hacc⟩
        by_cases hji : j = i
        · subst hji
          have hoj := ((hi j).mpr rfl).2
          refine .inl ⟨rfl, ?_⟩
          rcases ha with rfl | ha
          · rfl
          · exact hown a (List.mem_cons_of_mem _ ha) o List.mem_cons_self j hj hacc hoj
        · rcases ha with rfl | ha
          · exact absurd ((hi j).mp ⟨hj, hacc⟩) hji
          · exact .inr ⟨ha, ⟨hj, hji⟩, hacc⟩
    · rw [hpick] at ho
      simp at ho

theorem left_clear {g : List O}
    (hmem : ∀ i o, (i, o) ∈ ps ↔ o ∈ g ∧ i ∈ free ∧ accepts o i = true) :
    left free ps = free.filter fun i => !g.any fun o => accepts o i := by
  refine List.filter_congr fun i hi => ?_
  rw [Bool.eq_iff_iff, decide_eq_true_eq, Bool.not_eq_true', ← Bool.not_eq_true, not_iff_not,
    List.any_eq_true, List.mem_map]
  constructor
  · rintro ⟨p, hp, rfl⟩
    obtain ⟨ho, -, hacc⟩ := (hmem p.1 p.2).mp hp
    exact ⟨p.2, ho, hacc⟩
  · rintro ⟨o, ho, hacc⟩
    exact ⟨(i, o), (hmem i o).mpr ⟨ho, hi, hacc⟩, rfl⟩

/-- An order of the items of each group. -/
abbrev OrderOf (os gs : List (List O)) : Prop := List.Forall₂ List.Perm os gs

theorem same_of_clear {gs os os' : List (List O)} (h : Clear accepts free gs) (ho : OrderOf os gs)
    (ho' : OrderOf os' gs) : ∃ ps ps', run accepts free os.flatten = some ps ∧
      run accepts free os'.flatten = some ps' ∧ ∀ x, x ∈ ps ↔ x ∈ ps' := by
  induction gs generalizing free os os' with
  | nil =>
    obtain rfl := List.forall₂_nil_right_iff.mp ho
    obtain rfl := List.forall₂_nil_right_iff.mp ho'
    exact ⟨[], [], rfl, rfl, fun _ => Iff.rfl⟩
  | cons g gs ih =>
    obtain ⟨hone, hown, hrest⟩ := h
    have hgroup : ∀ l : List O, l.Perm g → ∃ ps, run accepts free l = some ps ∧
        ∀ i o, (i, o) ∈ ps ↔ o ∈ g ∧ i ∈ free ∧ accepts o i = true := by
      intro l hl
      obtain ⟨ps, hps, hmem⟩ := run_clear (fun o ho => hone o (hl.mem_iff.mp ho))
        fun o ho o' ho' => hown o (hl.mem_iff.mp ho) o' (hl.mem_iff.mp ho')
      exact ⟨ps, hps, fun i o => by rw [hmem, hl.mem_iff]⟩
    cases ho with
    | cons hl ho =>
      cases ho' with
      | cons hl' ho' =>
        obtain ⟨ps, hps, hmem⟩ := hgroup _ hl
        obtain ⟨ps', hps', hmem'⟩ := hgroup _ hl'
        obtain ⟨qs, qs', hqs, hqs', hsame⟩ := ih hrest ho ho'
        refine ⟨ps ++ qs, ps' ++ qs', ?_, ?_, fun x => ?_⟩
        · exact run_append.mpr ⟨ps, qs, hps, by rwa [left_clear hmem], rfl⟩
        · exact run_append.mpr ⟨ps', qs', hps', by rwa [left_clear hmem'], rfl⟩
        · rw [List.mem_append, List.mem_append, hsame x, hmem x.1 x.2, hmem' x.1 x.2]

theorem orderOf_refl (gs : List (List O)) : OrderOf gs gs :=
  List.forall₂_same.mpr fun g _ => List.Perm.refl g

omit [DecidableEq I] in
theorem narrowFirst_of_order {gs sorted os : List (List O)} (h : NarrowFirst accepts gs sorted)
    (ho : OrderOf os gs) : NarrowFirst accepts os sorted := by
  induction h generalizing os with
  | nil =>
    cases ho
    exact .nil
  | cons hg _ ih =>
    cases ho with
    | cons hl ho => exact .cons ⟨hl.trans hg.1, hg.2⟩ (ih ho)

theorem clear_of_same {gs : List (List O)}
    (hrun : ∀ os, OrderOf os gs → ∃ ps, run accepts free os.flatten = some ps)
    (hsame : ∀ os os' ps ps', OrderOf os gs → OrderOf os' gs →
      run accepts free os.flatten = some ps → run accepts free os'.flatten = some ps' →
      ∀ x, x ∈ ps ↔ x ∈ ps') : Clear accepts free gs := by
  induction gs generalizing free with
  | nil => trivial
  | cons g gs ih =>
    have hfirst : ∀ o ∈ g, ∃ t ps, OrderOf ((o :: t) :: gs) (g :: gs) ∧
        run accepts free ((o :: t) :: gs).flatten = some ps ∧
        (free.filter (accepts o) = [] ∨ ∃ i, free.filter (accepts o) = [i] ∧ (i, o) ∈ ps) := by
      intro o ho
      obtain ⟨pre, post, rfl⟩ := List.append_of_mem ho
      have horder : OrderOf ((o :: (pre ++ post)) :: gs) ((pre ++ o :: post) :: gs) :=
        .cons List.perm_middle.symm (orderOf_refl gs)
      obtain ⟨ps, hps⟩ := hrun _ horder
      refine ⟨_, ps, horder, hps, ?_⟩
      rw [List.flatten_cons, List.cons_append] at hps
      rcases run_cons.mp hps with ⟨hnone, -⟩ | ⟨i, qs, hone, -, rfl⟩
      · exact .inl hnone
      · exact .inr ⟨i, hone, List.mem_cons_self⟩
    have hone : ∀ o ∈ g, (free.filter (accepts o)).length ≤ 1 := by
      intro o ho
      obtain ⟨t, ps, -, -, hnone | ⟨i, hpick, -⟩⟩ := hfirst o ho
      · rw [hnone]
        exact Nat.zero_le _
      · rw [hpick]
        rfl
    have hpicked : ∀ o ∈ g, ∀ i ∈ free, accepts o i = true → ∃ t ps,
        OrderOf ((o :: t) :: gs) (g :: gs) ∧ run accepts free ((o :: t) :: gs).flatten = some ps ∧
          (i, o) ∈ ps := by
      intro o ho i hi hacc
      have hin := List.mem_filter.mpr ⟨hi, hacc⟩
      obtain ⟨t, ps, horder, hps, hnone | ⟨j, hpick, hmem⟩⟩ := hfirst o ho
      · rw [hnone] at hin
        exact (List.not_mem_nil hin).elim
      · rw [hpick, List.mem_singleton] at hin
        exact ⟨t, ps, horder, hps, hin ▸ hmem⟩
    have hown : ∀ o ∈ g, ∀ o' ∈ g, ∀ i ∈ free, accepts o i = true → accepts o' i = true → o = o' := by
      intro o ho o' ho' i hi hacc hacc'
      obtain ⟨t, ps, horder, hps, hmem⟩ := hpicked o ho i hi hacc
      obtain ⟨t', ps', horder', hps', hmem'⟩ := hpicked o' ho' i hi hacc'
      exact unique_of_run hps hmem ((hsame _ _ _ _ horder horder' hps hps' _).mpr hmem')
    obtain ⟨qs, hqs, hmem⟩ := run_clear hone hown
    have hrest : ∀ os rs, OrderOf os gs → (run accepts (left free qs) os.flatten = some rs ↔
        run accepts free (g :: os).flatten = some (qs ++ rs)) := by
      intro os rs _
      rw [List.flatten_cons, run_append]
      constructor
      · exact fun h => ⟨qs, rs, hqs, h, rfl⟩
      · rintro ⟨qs₁, rs₁, hq, hr, heq⟩
        rw [hqs] at hq
        obtain rfl := Option.some.inj hq
        rwa [List.append_cancel_left heq]
    refine ⟨hone, hown, ?_⟩
    rw [← left_clear hmem]
    refine ih (fun os hos => ?_) fun os os' ps ps' hos hos' hps hps' x => ?_
    · obtain ⟨ps, hps⟩ := hrun (g :: os) (.cons (.refl g) hos)
      rw [List.flatten_cons] at hps
      obtain ⟨qs₁, rs, hq, hr, -⟩ := run_append.mp hps
      rw [hqs] at hq
      obtain rfl := Option.some.inj hq
      exact ⟨rs, hr⟩
    · have hboth := hsame (g :: os) (g :: os') _ _ (.cons (.refl g) hos) (.cons (.refl g) hos')
        ((hrest os ps hos).mp hps) ((hrest os' ps' hos').mp hps') x
      have hnew : ∀ rs os, run accepts (left free qs) os = some rs → x ∈ rs → x ∉ qs := by
        intro rs os hrs hx hxq
        have hleft := (List.mem_filter.mp ((run_spec hrs).1 x hx).1).2
        rw [decide_eq_true_eq] at hleft
        exact hleft (List.mem_map_of_mem hxq)
      rw [List.mem_append, List.mem_append] at hboth
      constructor
      · exact fun hx => (hboth.mp (.inr hx)).resolve_left (hnew _ _ hps hx)
      · exact fun hx => (hboth.mpr (.inr hx)).resolve_left (hnew _ _ hps' hx)

/-- The run takes every place that is needed. -/
def Succeeds (accepts : O → I → Bool) (need : I → Prop) (free : List I) (os : List O)
    (ps : List (I × O)) : Prop :=
  run accepts free os = some ps ∧ ∀ i ∈ free, need i → i ∈ ps.map Prod.fst

/-- The order in each group does not matter exactly if it is clear what each item takes, or
if no order succeeds, for which one with narrow items first speaks. -/
theorem same_iff {need : I → Prop} {gs sorted : List (List O)}
    (hsorted : NarrowFirst accepts gs sorted) : (∀ os os', OrderOf os gs → OrderOf os' gs →
      ∀ ps, Succeeds accepts need free os.flatten ps →
        ∃ ps', Succeeds accepts need free os'.flatten ps' ∧ ∀ x, x ∈ ps ↔ x ∈ ps') ↔
    Clear accepts free gs ∨ ¬∃ ps, Succeeds accepts need free sorted.flatten ps := by
  constructor
  · intro hsame
    by_cases hs : ∃ ps, Succeeds accepts need free sorted.flatten ps
    · obtain ⟨ps, hps⟩ := hs
      have horder : OrderOf sorted gs := (hsorted.imp fun _ _ h => h.1.symm).flip
      refine .inl (clear_of_same (fun os hos => ?_) fun os os' qs qs' hos hos' hqs hqs' x => ?_)
      · obtain ⟨qs, hqs, -⟩ := hsame sorted os horder hos ps hps
        exact ⟨qs, hqs.1⟩
      · obtain ⟨rs, hrs, hmem⟩ := hsame sorted os horder hos ps hps
        obtain ⟨rs', hrs', hmem'⟩ := hsame sorted os' horder hos' ps hps
        obtain rfl := Option.some.inj (hqs.symm.trans hrs.1)
        obtain rfl := Option.some.inj (hqs'.symm.trans hrs'.1)
        exact (hmem x).symm.trans (hmem' x)
    · exact .inr hs
  · rintro (hclear | hnone) os os' hos hos' ps ⟨hrun, hneed⟩
    · obtain ⟨qs, qs', hqs, hqs', hmem⟩ := same_of_clear hclear hos hos'
      obtain rfl := Option.some.inj (hqs.symm.trans hrun)
      refine ⟨qs', ⟨hqs', fun i hi hn => ?_⟩, hmem⟩
      obtain ⟨p, hp, rfl⟩ := List.mem_map.mp (hneed i hi hn)
      exact List.mem_map_of_mem ((hmem p).mp hp)
    · obtain ⟨qs, hqs, hsame⟩ := run_groups (narrowFirst_of_order hsorted hos) hrun
      exact absurd ⟨qs, hqs, fun i hi hn => (hsame i).mp (hneed i hi hn)⟩ hnone

end Spade.Greedy
