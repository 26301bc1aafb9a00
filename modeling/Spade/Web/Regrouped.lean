import Spade.Core.Sparing
import Spade.Web.Reopen

set_option autoImplicit false

/-!
# The inputs of a block that was opened and saved

The explicit references stand upstream by upstream and without `as`, and bare references
next to explicit ones are gone.
-/
namespace Spade
open FirstFit IdleSteps

section
variable {A X : Type} [DecidableEq A]

theorem regroup_perm {key : X → A} {us : List A} (hn : us.Nodup) {l : List X}
    (h : ∀ x ∈ l, key x ∈ us) : l.Perm (us.flatMap fun u => l.filter fun x => key x = u) := by
  induction us generalizing l with
  | nil =>
    rw [List.eq_nil_iff_forall_not_mem.mpr fun x hx => List.not_mem_nil (h x hx)]
    exact List.Perm.refl _
  | cons u us ih =>
    obtain ⟨hu, hn⟩ := List.nodup_cons.mp hn
    have hrest : ∀ x ∈ l.filter (fun x => !decide (key x = u)), key x ∈ us := by
      intro x hx
      obtain ⟨hmem, hne⟩ := List.mem_filter.mp hx
      exact (List.mem_cons.mp (h x hmem)).resolve_left (by simpa using hne)
    have hsame : us.flatMap (fun v => (l.filter fun x => !decide (key x = u)).filter
        fun x => key x = v) = us.flatMap fun v => l.filter fun x => key x = v := by
      refine List.flatMap_congr fun v hv => ?_
      rw [List.filter_filter]
      refine List.filter_congr fun x _ => ?_
      by_cases hx : key x = v
      · have hne : key x ≠ u := fun heq => hu (heq ▸ hx ▸ hv)
        simp [hx, hx ▸ hne]
      · simp [hx]
    rw [List.flatMap_cons, ← hsame]
    exact (List.filter_append_perm _ l).symm.trans ((ih hn hrest).append_left _)

theorem addNews_filter (p : A → Bool) (l us : List A) :
    (l.filter p).foldl addNew (us.filter p) = (l.foldl addNew us).filter p := by
  induction l generalizing us with
  | nil => rfl
  | cons a l ih =>
    rw [List.foldl_cons, ← ih]
    by_cases ha : p a = true
    · have hadd : (addNew us a).filter p = addNew (us.filter p) a := by
        unfold addNew
        by_cases hmem : a ∈ us
        · rw [if_pos hmem, if_pos (List.mem_filter.mpr ⟨hmem, ha⟩)]
        · rw [if_neg hmem, if_neg fun h => hmem (List.mem_of_mem_filter h), List.filter_append,
            List.filter_cons_of_pos ha, List.filter_nil]
      rw [List.filter_cons_of_pos ha, List.foldl_cons, hadd]
    · have hadd : (addNew us a).filter p = us.filter p := by
        unfold addNew
        split_ifs
        · rfl
        · rw [List.filter_append, List.filter_cons_of_neg ha, List.filter_nil, List.append_nil]
      rw [List.filter_cons_of_neg ha, hadd]

/-- What comes again changes nothing. -/
theorem run_addNews {S E : Type} {next : S → X → Except E S} (h : Settling next) (f : A → List X)
    (l : List A) (s : S) :
    (l.flatMap f).foldlM next s = ((l.foldl addNew []).flatMap f).foldlM next s := by
  induction l using List.reverseRecOn with
  | nil => rfl
  | append_singleton l a ih =>
    rw [List.foldl_concat, List.flatMap_append, List.flatMap_singleton]
    by_cases ha : a ∈ l.foldl addNew []
    · rw [addNew, if_pos ha, ← ih]
      refine h.again fun x hx => List.mem_flatMap.mpr ⟨a, ?_, hx⟩
      exact (mem_addNews.mp ha).resolve_left List.not_mem_nil
    · rw [addNew, if_neg ha, List.flatMap_append, List.flatMap_singleton, List.foldlM_append,
        List.foldlM_append, ih]

end

/-! The references. -/

section
variable (refs : List InputRef)

theorem explicit_reopenedRefs (u : UUID) :
    explicitOutputs (reopenedRefs refs u) = outputsOf refs u := by
  unfold reopenedRefs
  split_ifs with hu
  · unfold explicitOutputs
    rw [List.filterMap_map]
    refine (List.filterMap_congr fun x hx => ?_).trans (List.filterMap_some)
    have hx' := (List.mem_filter.mp hx).2
    rw [decide_eq_true_eq] at hx'
    rw [← hx']
    rfl
  · symm
    refine List.filter_eq_nil_iff.mpr fun x hx => ?_
    rw [decide_eq_true_eq]
    rintro rfl
    exact hu (List.mem_map_of_mem hx)

theorem upstreams_nodup : (upstreams refs).Nodup :=
  addNews_nodup _ (addNews_nodup _ List.nodup_nil)

theorem mem_upstreams {u : UUID} :
    u ∈ upstreams refs ↔ u ∈ bareIds refs ∨ u ∈ (explicitOutputs refs).map Prod.fst := by
  unfold upstreams
  simp only [mem_addNews, List.not_mem_nil, false_or]

theorem explicit_reopened :
    explicitOutputs (reopened refs) = (upstreams refs).flatMap (outputsOf refs) := by
  rw [reopened, explicitOutputs, List.filterMap_flatMap]
  exact List.flatMap_congr fun u _ => explicit_reopenedRefs refs u

theorem explicit_perm : (explicitOutputs refs).Perm (explicitOutputs (reopened refs)) := by
  rw [explicit_reopened]
  exact regroup_perm (upstreams_nodup refs) fun x hx =>
    (mem_upstreams refs).mpr (.inr (List.mem_map_of_mem hx))

theorem bare_reopened : bareIds (reopened refs) =
    ((bareIds refs).foldl addNew []).filter
      fun u => !decide (u ∈ (explicitOutputs refs).map Prod.fst) := by
  have hbare : bareIds (reopened refs) = (upstreams refs).filter
      fun u => !decide (u ∈ (explicitOutputs refs).map Prod.fst) := by
    unfold reopened
    induction upstreams refs with
    | nil => rfl
    | cons u us ih =>
      rw [List.flatMap_cons, bareIds, List.filterMap_append]
      refine (congrArg _ ih).trans ?_
      unfold reopenedRefs
      by_cases hu : u ∈ (explicitOutputs refs).map Prod.fst
      · rw [if_pos hu, List.filterMap_map, List.filter_cons_of_neg (by simpa using hu)]
        exact (congrArg (· ++ _) (List.filterMap_eq_nil_iff.mpr fun _ _ => rfl)).trans
          (List.nil_append _)
      · rw [if_neg hu, List.filter_cons_of_pos (by simpa using hu)]
        rfl
  rw [hbare, upstreams, filter_addNews]
  intro u hu
  have hmem := (mem_addNews.mp hu).resolve_left List.not_mem_nil
  rw [decide_eq_true hmem]
  rfl

theorem reopened_plain : ∀ r ∈ reopened refs, r.as = "" := by
  intro r hr
  obtain ⟨u, -, hr⟩ := List.mem_flatMap.mp hr
  unfold reopenedRefs at hr
  split_ifs at hr
  · obtain ⟨x, -, rfl⟩ := List.mem_map.mp hr
    rfl
  · rw [List.mem_singleton.mp hr]

theorem mem_depIDs {u : UUID} : u ∈ refs.map InputRef.depID ↔
    u ∈ bareIds refs ∨ u ∈ (explicitOutputs refs).map Prod.fst := by
  induction refs with
  | nil => simp [bareIds, explicitOutputs]
  | cons r refs ih =>
    rw [List.map_cons, List.mem_cons, ih]
    cases hb : r.block with
    | none =>
      simp only [bareIds, explicitOutputs, List.filterMap_cons, hb, Option.map_none,
        InputRef.depID, List.mem_cons, or_assoc]
    | some b =>
      simp only [bareIds, explicitOutputs, List.filterMap_cons, hb, Option.map_some,
        InputRef.depID, List.map_cons, List.mem_cons, or_left_comm]

/-- The editor keeps what a block depends on. -/
theorem depIDs_reopened {u : UUID} :
    u ∈ (reopened refs).map InputRef.depID ↔ u ∈ refs.map InputRef.depID := by
  rw [mem_depIDs, mem_depIDs, bare_reopened, ((explicit_perm refs).map Prod.fst).mem_iff.symm,
    List.mem_filter, mem_addNews]
  simp only [List.not_mem_nil, false_or, Bool.not_eq_true', decide_eq_false_iff_not]
  tauto

end

end Spade
