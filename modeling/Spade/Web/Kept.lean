import Spade.Core.Grounded
import Spade.Web.Regrouped

set_option autoImplicit false

/-!
# When a block keeps its wiring

What the worker makes of the inputs of a block before and after the editor.
-/
namespace Spade
open FirstFit IdleSteps

/-- First fit serves the explicit references, upstream by upstream, as they were served in their
own order and by `as`, and no output of a block that they name goes to an input by itself. -/
def Keeps (σ : MapOrder) (dependencies : GoMap UUID BlockManifest) (current : BlockManifest)
    (refs : List InputRef) : Prop :=
  ∃ l₀ l, Assigns dependencies current [] refs l₀ ∧
    l.map Prod.fst = (upstreams refs).flatMap (outputsOf refs) ∧
    Serves (Suits dependencies current) [] l ∧ (∀ e ∈ l, e.2 ≠ "") ∧ l.Perm l₀ ∧
    spares (fun u => u ∈ (explicitOutputs refs).map Prod.fst) (explicitOutputs refs)
      (current.inputs.items.filter fun e => e.1 ∉ l₀.map Prod.snd)
      (bareOutputs dependencies σ refs) = true

variable {σ : MapOrder} {dependencies : GoMap UUID BlockManifest} {current : BlockManifest}

/-! Step 2. -/

theorem bareOutputs_eq (refs : List InputRef) :
    bareOutputs dependencies σ refs = (bareIds refs).flatMap (outputsIn dependencies σ) := by
  induction refs with
  | nil => rfl
  | cons r refs ih =>
    rw [bareOutputs, List.flatMap_cons]
    refine (congrArg _ ih).trans ?_
    cases hb : r.block with
    | none =>
      simp only [bareIds, List.filterMap_cons, hb, List.flatMap_cons]
      rfl
    | some b =>
      simp only [bareIds, List.filterMap_cons, hb]
      rfl

theorem outputs_filter (p : UUID → Bool) (ids : List UUID) :
    ((ids.flatMap (outputsIn dependencies σ)).filter fun x => p x.1) =
      (ids.filter p).flatMap (outputsIn dependencies σ) := by
  induction ids with
  | nil => rfl
  | cons id ids ih =>
    rw [List.flatMap_cons, List.filter_append, ih]
    by_cases hp : p id = true
    · rw [List.filter_cons_of_pos hp, List.flatMap_cons, List.filter_eq_self.mpr]
      intro x hx
      rw [outputsIn_source hx]
      exact hp
    · rw [List.filter_cons_of_neg hp, List.filter_eq_nil_iff.mpr, List.nil_append]
      intro x hx
      rw [outputsIn_source hx]
      exact hp

/-- The bare references of the saved block lead to the outputs of the blocks that only bare
references name. -/
theorem bares_reopened (refs : List InputRef) (m : Matching) :
    (bareOutputs dependencies σ (reopened refs)).foldlM (resolveNext σ current) m =
      ((bareOutputs dependencies σ refs).filter fun x =>
        !decide (x.1 ∈ (explicitOutputs refs).map Prod.fst)).foldlM (resolveNext σ current) m := by
  rw [bareOutputs_eq, bareOutputs_eq, bare_reopened,
    outputs_filter fun u => !decide (u ∈ (explicitOutputs refs).map Prod.fst),
    run_addNews settling_next _ ((bareIds refs).filter _), ← addNews_filter, List.filter_nil]

/-- What step 2 gives to an input of the saved block comes from a block that no explicit
reference names. -/
theorem bare_source {refs : List InputRef} {x : UUID × String × OutputDeclaration}
    (hx : x ∈ bareOutputs dependencies σ (reopened refs)) :
    x.1 ∉ (explicitOutputs refs).map Prod.fst := by
  rw [bareOutputs_eq, bare_reopened] at hx
  obtain ⟨u, hu, hx⟩ := List.mem_flatMap.mp hx
  rw [outputsIn_source hx]
  simpa using (List.mem_filter.mp hu).2

/-! Both steps. -/

/-- The sources of all inputs of a block stay if and only if the block keeps its wiring. -/
theorem rewired_iff {b : PipelineBlock} {out : GoMap String ResolvedInput}
    (hout : resolveInputs σ b dependencies current = .ok out) :
    (∃ out', resolveInputs σ (Flow.reopenBlock b) dependencies current = .ok out' ∧
      ∀ n, wireOf out' n = wireOf out n) ↔ Keeps σ dependencies current b.inputs := by
  have hknown := resolveInputs_known hout
  have hknown' : ∀ r ∈ (Flow.reopenBlock b).inputs, r.depID ∈ dependencies := by
    intro r hr
    obtain ⟨r', hr', heq⟩ := List.mem_map.mp
      ((depIDs_reopened b.inputs).mp (List.mem_map_of_mem hr))
    exact heq ▸ hknown r' hr'
  obtain ⟨l₀, m₂, hl₀, h₂, hopen, rfl⟩ := (resolves_iff hknown).mp hout
  obtain ⟨hfst₀, hsuits₀⟩ := hl₀.spec
  obtain ⟨hsound, -, hother, hused⟩ := foldl_choose hsuits₀ Matching.sound_empty
  have hplain : ∀ l, Assigns dependencies current [] (Flow.reopenBlock b).inputs l ↔
      l.map Prod.fst = (upstreams b.inputs).flatMap (outputsOf b.inputs) ∧
        Serves (Suits dependencies current) [] l ∧ ∀ e ∈ l, e.2 ≠ "" := by
    intro l
    rw [← explicit_reopened]
    exact assigns_plain fun r hr _ => reopened_plain b.inputs r hr
  have hstarted : ∀ x, (l₀.foldl (Matching.choose dependencies) {}).used x = true ↔
      x ∈ explicitOutputs b.inputs := by
    intro x
    rw [hused, hfst₀]
    simp [Matching.used]
  have hopened : ∀ l₁ : List ((UUID × String) × String),
      (∀ e ∈ l₁, Suits dependencies current e.1 e.2) →
      (current.inputs.items.filter fun e => (l₁.foldl (Matching.choose dependencies) {}).open e.1) =
        current.inputs.items.filter fun e => e.1 ∉ l₁.map Prod.snd := by
    intro l₁ hsuits
    refine List.filter_congr fun e _ => ?_
    rw [Bool.eq_iff_iff, open_foldl hsuits, decide_eq_true_eq]
    simp [Matching.open]
  have hspares := spares_iff (fun u => decide (u ∈ (explicitOutputs b.inputs).map Prod.fst))
    hsound h₂ hstarted
  rw [hopened l₀ hsuits₀] at hspares
  constructor
  · rintro ⟨out', hout', hsame⟩
    obtain ⟨l, m₂', hl, h₂', -, rfl⟩ := (resolves_iff hknown').mp hout'
    obtain ⟨hfst, hserves, hne⟩ := (hplain l).mp hl
    have hperm' : (l.map Prod.fst).Perm (l₀.map Prod.fst) := by
      rw [hfst, hfst₀, ← explicit_reopened]
      exact (explicit_perm b.inputs).symm
    have hsub : l ⊆ l₀ := by
      intro e he
      have hw := wire_of_chosen hserves.each hserves.nodup.1 h₂' he
      rw [hsame] at hw
      exact chosen_of_wire hsuits₀ h₂ (hperm'.mem_iff.mp (List.mem_map_of_mem he)) hw
    have hperm : l.Perm l₀ := by
      have hlen : l₀.length ≤ l.length := by
        rw [← List.length_map Prod.fst, ← hperm'.length_eq, List.length_map]
      exact (List.subperm_of_subset hserves.nodup.1.of_map hsub).perm_of_length_le hlen
    refine ⟨l₀, l, hl₀, hfst, hserves, hne, hperm, hspares.mpr fun n ri hn hri => ?_⟩
    have hfree : n ∉ l.map Prod.snd := by
      rw [(hperm.map Prod.snd).mem_iff]
      exact ((open_foldl hsuits₀ _ n).mp hn).1
    obtain ⟨ri', hri', heq⟩ := Option.map_eq_some_iff.mp
      ((hsame n).trans (congrArg (Option.map _) hri))
    rcases nexts_origin h₂' hri' with hri' | ⟨hmem, -⟩
    · rcases (foldl_choose hserves.each Matching.sound_empty).2.1 n ri' hri' with hmem | hnone
      · exact absurd (List.mem_map_of_mem hmem) hfree
      · simp at hnone
    · rw [decide_eq_false_iff_not, ← (Prod.mk.inj heq).1]
      exact bare_source hmem
  · rintro ⟨l₀', l, hl₀', hfst, hserves, hne, hperm, hspared⟩
    obtain rfl := hl₀'.unique hl₀
    have hrun := run_spared (fun u => decide (u ∈ (explicitOutputs b.inputs).map Prod.fst)) hsound
      h₂ (hspares.mp hspared)
    rw [← bares_reopened] at hrun
    obtain ⟨m₂', h₂', halike⟩ :=
      (alike_perm hperm.symm hsuits₀ ((hperm.map Prod.snd).nodup_iff.mp hserves.nodup.1)).nexts hrun
    refine ⟨m₂'.resolved, (resolves_iff hknown').mpr
      ⟨l, m₂', (hplain l).mpr ⟨hfst, hserves, hne⟩, h₂', fun n input hi hn => ?_, rfl⟩, fun n => ?_⟩
    · rw [← halike.opens] at hn
      exact hopen n input hi hn
    · unfold wireOf
      rw [halike.resolves]

end Spade
