import Spade.Core.Resolution
import Spade.Lib.IdleSteps

set_option autoImplicit false

/-!
# What step 2 does without some blocks

An output that no open input takes, or that has an input already, can be left out.
-/
namespace Spade
open IdleSteps

section
variable {σ : MapOrder} {current : BlockManifest} {m m' : Matching}
  {x y : UUID × String × OutputDeclaration}

theorem idle_iff : Idle (resolveNext σ current) m x ↔
    m.used (x.1, x.2.1) = true ∨ candidates current m x.2.2.type = [] := by
  unfold Idle
  rw [resolveNext_ok_iff]
  constructor
  · rintro (⟨h, -⟩ | ⟨hu, e, -, heq⟩)
    · exact h
    · rw [heq, Matching.record_used, decide_eq_true rfl, Bool.true_or] at hu
      cases hu
  · exact fun h => .inl ⟨h, rfl⟩

theorem idle_record (h : Idle (resolveNext σ current) m x) (i : String) (s : UUID) (o : String)
    (decl : OutputDeclaration) : Idle (resolveNext σ current) (m.record i s o decl) x := by
  rw [idle_iff] at h ⊢
  rcases h with hu | hnone
  · rw [Matching.record_used, hu, Bool.or_true]
    exact .inl rfl
  · refine .inr (List.eq_nil_iff_forall_not_mem.mpr fun e he => ?_)
    obtain ⟨hi, hopen, hc⟩ := mem_candidates.mp he
    rw [Matching.record_open, Bool.and_eq_true] at hopen
    exact List.eq_nil_iff_forall_not_mem.mp hnone e (mem_candidates.mpr ⟨hi, hopen.2, hc⟩)

theorem settling_next : Settling (resolveNext σ current) := by
  refine ⟨fun m x m' h => ?_, fun m x y m' hx h => ?_⟩
  · rcases resolveNext_ok_iff.mp h with ⟨-, rfl⟩ | ⟨-, e, -, rfl⟩
    · exact h
    · rw [idle_iff, Matching.record_used, decide_eq_true rfl, Bool.true_or]
      exact .inl rfl
  · rcases resolveNext_ok_iff.mp h with ⟨-, rfl⟩ | ⟨-, e, -, rfl⟩
    · exact hx
    · exact idle_record hx _ _ _ _

/-- The outputs of a block, in the order of the map. -/
def outputsIn (dependencies : GoMap UUID BlockManifest) (σ : MapOrder) (id : UUID) :
    List (UUID × String × OutputDeclaration) :=
  ((dependencies.lookup id).map fun dep => (σ.range dep.outputs).map fun o => (id, o)).getD []

theorem outputsIn_source {dependencies : GoMap UUID BlockManifest} {id : UUID}
    (h : x ∈ outputsIn dependencies σ id) : x.1 = id := by
  unfold outputsIn at h
  cases hd : dependencies.lookup id with
  | none => simp [hd] at h
  | some dep =>
    rw [hd, Option.map_some, Option.getD_some] at h
    obtain ⟨o, -, rfl⟩ := List.mem_map.mp h
    rfl

/-! Matchings that say the same. -/

structure Matching.Alike (m m' : Matching) : Prop where
  opens : ∀ n, m.open n = m'.open n
  uses : ∀ x, m.used x = m'.used x
  resolves : ∀ n, m.resolved.lookup n = m'.resolved.lookup n

namespace Matching.Alike
variable {m₁ m₁' : Matching}

theorem record (h : m.Alike m₁) (i : String) (s : UUID) (o : String) (decl : OutputDeclaration) :
    (m.record i s o decl).Alike (m₁.record i s o decl) := by
  refine ⟨fun n => ?_, fun x => ?_, fun n => ?_⟩
  · rw [record_open, record_open, h.opens]
  · rw [record_used, record_used, h.uses]
  · rw [record_lookup, record_lookup, h.resolves]

theorem candidates_eq (h : m.Alike m₁) (type : String) :
    candidates current m type = candidates current m₁ type :=
  List.filter_congr fun e _ => by rw [h.opens]

theorem next (h : m.Alike m₁) (hx : resolveNext σ current m x = .ok m') :
    ∃ m₁', resolveNext σ current m₁ x = .ok m₁' ∧ m'.Alike m₁' := by
  rcases resolveNext_ok_iff.mp hx with ⟨hidle, rfl⟩ | ⟨hu, e, he, rfl⟩
  · refine ⟨m₁, resolveNext_ok_iff.mpr (.inl ⟨?_, rfl⟩), h⟩
    rwa [← h.uses, ← h.candidates_eq]
  · refine ⟨_, resolveNext_ok_iff.mpr (.inr ⟨?_, e, ?_, rfl⟩), h.record _ _ _ _⟩
    · rwa [← h.uses]
    · rwa [← h.candidates_eq]

theorem nexts (h : m.Alike m₁) {l : List (UUID × String × OutputDeclaration)}
    (hl : l.foldlM (resolveNext σ current) m = .ok m') :
    ∃ m₁', l.foldlM (resolveNext σ current) m₁ = .ok m₁' ∧ m'.Alike m₁' := by
  induction l generalizing m m₁ with
  | nil =>
    cases hl
    exact ⟨m₁, rfl, h⟩
  | cons x l ih =>
    obtain ⟨m₂, hx, hl⟩ := foldlM_cons_ok.mp hl
    obtain ⟨m₂', hx', h'⟩ := h.next hx
    obtain ⟨m₁', hl', hlike⟩ := ih h' hl
    exact ⟨m₁', foldlM_cons_ok.mpr ⟨m₂', hx', hl'⟩, hlike⟩

end Matching.Alike

/-- The order in which inputs are chosen for does not matter when none is chosen for twice. -/
theorem alike_perm {dependencies : GoMap UUID BlockManifest}
    {l l' : List ((UUID × String) × String)} (hperm : l.Perm l')
    (hsuits : ∀ e ∈ l, Suits dependencies current e.1 e.2) (hn : (l.map Prod.snd).Nodup) :
    (l.foldl (Matching.choose dependencies) {}).Alike
      (l'.foldl (Matching.choose dependencies) {}) := by
  have hsuits' : ∀ e ∈ l', Suits dependencies current e.1 e.2 :=
    fun e he => hsuits e (hperm.mem_iff.mpr he)
  have hn' := (hperm.map Prod.snd).nodup_iff.mp hn
  have hl := foldl_choose hsuits Matching.sound_empty
  have hl' := foldl_choose hsuits' Matching.sound_empty
  refine ⟨fun n => ?_, fun x => ?_, fun n => ?_⟩
  · rw [Bool.eq_iff_iff, open_foldl hsuits, open_foldl hsuits', (hperm.map Prod.snd).mem_iff]
  · rw [Bool.eq_iff_iff, hl.2.2.2, hl'.2.2.2, (hperm.map Prod.fst).mem_iff]
  · by_cases hmem : n ∈ l.map Prod.snd
    · obtain ⟨e, he, rfl⟩ := List.mem_map.mp hmem
      obtain ⟨decl, hd, hlook⟩ := chosen_foldl hsuits hn Matching.sound_empty e he
      obtain ⟨decl', hd', hlook'⟩ := chosen_foldl hsuits' hn' Matching.sound_empty e
        (hperm.mem_iff.mp he)
      rw [hd] at hd'
      cases hd'
      rw [hlook, hlook']
    · rw [hl.2.2.1 n hmem, hl'.2.2.1 n fun h => hmem ((hperm.map Prod.snd).mem_iff.mpr h)]

/-! Leaving out the outputs of some blocks. -/

/-- None of the blocks has an output that gets an input, when the outputs that are not matched
yet go, one after the other, to an input that takes them. -/
def spares (mixed : UUID → Bool) : List (UUID × String) → List (String × InputDeclaration) →
    List (UUID × String × OutputDeclaration) → Bool
  | _, _, [] => true
  | used, free, x :: l =>
    if (x.1, x.2.1) ∈ used then spares mixed used free l
    else match free.filter fun e => typesCompatible e.2.type x.2.2.type with
      | [] => spares mixed used free l
      | e :: _ => !mixed x.1 &&
          spares mixed ((x.1, x.2.1) :: used) (free.filter fun e' => e'.1 ≠ e.1) l

theorem spares_iff (mixed : UUID → Bool) {l : List (UUID × String × OutputDeclaration)}
    (hm : m.Sound) (hl : l.foldlM (resolveNext σ current) m = .ok m') {used : List (UUID × String)}
    (hu : ∀ x, m.used x = true ↔ x ∈ used) :
    spares mixed used (current.inputs.items.filter fun e => m.open e.1) l = true ↔
      ∀ n ri, m.open n = true → m'.resolved.lookup n = some ri →
        mixed ri.sourceBlockID = false := by
  induction l generalizing m used with
  | nil =>
    cases hl
    refine iff_of_true rfl fun n ri hn hri => ?_
    exact absurd (GoMap.mem_of_lookup hri) ((hm.inputs n).mp hn)
  | cons x l ih =>
    obtain ⟨m₁, hx, hrun⟩ := foldlM_cons_ok.mp hl
    have hcand : (current.inputs.items.filter fun e => m.open e.1).filter
        (fun e => typesCompatible e.2.type x.2.2.type) = candidates current m x.2.2.type := by
      rw [List.filter_filter]
      exact List.filter_congr fun e _ => Bool.and_comm _ _
    rw [spares, hcand]
    by_cases hused : (x.1, x.2.1) ∈ used
    · obtain rfl : m₁ = m := by
        have hidle : Idle (resolveNext σ current) m x := idle_iff.mpr (.inl ((hu _).mpr hused))
        exact Except.ok.inj (hx.symm.trans hidle)
      rw [if_pos hused]
      exact ih hm hrun hu
    · rw [if_neg hused]
      rcases resolveNext_ok_iff.mp hx with ⟨hidle, rfl⟩ | ⟨-, e, he, rfl⟩
      · rw [hidle.resolve_left fun h => hused ((hu _).mp h)]
        exact ih hm hrun hu
      · have hopen : m.open e.1 = true :=
          (mem_candidates.mp (he ▸ List.mem_singleton_self e)).2.1
        have hfree : (current.inputs.items.filter fun e' => m.open e'.1).filter
            (fun e' => e'.1 ≠ e.1) =
            current.inputs.items.filter fun e' => (m.record e.1 x.1 x.2.1 x.2.2).open e'.1 := by
          rw [List.filter_filter]
          exact List.filter_congr fun e' _ => (Matching.record_open _ _ _ _ _).symm
        have hused' : ∀ z, (m.record e.1 x.1 x.2.1 x.2.2).used z = true ↔
            z ∈ (x.1, x.2.1) :: used := by
          intro z
          rw [Matching.record_used, Bool.or_eq_true, decide_eq_true_eq, List.mem_cons, hu]
        have hm₁ := hm.record e.1 x.1 x.2.1 x.2.2
        have hgot : m'.resolved.lookup e.1 = some ⟨e.1, x.1, x.2.1, x.2.2⟩ := by
          refine (hm₁.nexts hrun).2 _ _ ?_
          rw [Matching.record_lookup, if_pos rfl]
        rw [he]
        dsimp only
        rw [hfree, Bool.and_eq_true, Bool.not_eq_true', ih hm₁ hrun hused']
        constructor
        · rintro ⟨hmixed, hrest⟩ n ri hn hri
          by_cases hne : n = e.1
          · subst hne
            rw [hgot] at hri
            cases hri
            exact hmixed
          · refine hrest n ri ?_ hri
            rw [Matching.record_open, hn, decide_eq_true hne, Bool.true_and]
        · intro hall
          refine ⟨hall _ _ hopen hgot, fun n ri hn hri => hall n ri ?_ hri⟩
          rw [Matching.record_open, Bool.and_eq_true] at hn
          exact hn.2

/-- What is not given to an input by anything else is left out. -/
theorem run_spared (mixed : UUID → Bool) {l : List (UUID × String × OutputDeclaration)}
    (hm : m.Sound) (hl : l.foldlM (resolveNext σ current) m = .ok m')
    (hspared : ∀ n ri, m.open n = true → m'.resolved.lookup n = some ri →
      mixed ri.sourceBlockID = false) :
    (l.filter fun x => !mixed x.1).foldlM (resolveNext σ current) m = .ok m' := by
  induction l generalizing m with
  | nil => exact hl
  | cons x l ih =>
    obtain ⟨m₁, hx, hl⟩ := foldlM_cons_ok.mp hl
    obtain ⟨hm₁, hext⟩ := hm.next hx
    have hrest := ih hm₁ hl fun n ri hn hri => hspared n ri (by
      rcases resolveNext_ok_iff.mp hx with ⟨-, rfl⟩ | ⟨-, e, -, rfl⟩
      · exact hn
      · rw [Matching.record_open, Bool.and_eq_true] at hn
        exact hn.2) hri
    by_cases hmixed : mixed x.1 = true
    · rw [List.filter_cons_of_neg (by simp [hmixed])]
      rcases resolveNext_ok_iff.mp hx with ⟨-, rfl⟩ | ⟨-, e, he, rfl⟩
      · exact hrest
      · have hgot : m'.resolved.lookup e.1 = some ⟨e.1, x.1, x.2.1, x.2.2⟩ := by
          refine (hm₁.nexts hl).2 _ _ ?_
          rw [Matching.record_lookup, if_pos rfl]
        have hopen := (mem_candidates.mp (he ▸ List.mem_singleton_self e)).2.1
        have hno := hspared _ _ hopen hgot
        rw [hmixed] at hno
        cases hno
    · rw [List.filter_cons_of_pos (by simp [hmixed])]
      exact foldlM_cons_ok.mpr ⟨m₁, hx, hrest⟩

end

/-- The manifests of the dependencies matter by their ids only. -/
theorem resolveInputs_congr {σ : MapOrder} {dependencies dependencies' : GoMap UUID BlockManifest}
    (h : ∀ id, dependencies.lookup id = dependencies'.lookup id) (block : PipelineBlock)
    (current : BlockManifest) :
    resolveInputs σ block dependencies current = resolveInputs σ block dependencies' current := by
  have hexplicit : resolveExplicit dependencies current = resolveExplicit dependencies' current := by
    funext m r
    unfold resolveExplicit
    simp only [h]
  have hbare : resolveBare σ dependencies current = resolveBare σ dependencies' current := by
    funext m r
    unfold resolveBare
    simp only [h]
  unfold resolveInputs
  rw [hexplicit, hbare]

end Spade
