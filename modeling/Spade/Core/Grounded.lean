import Spade.Core.Resolution
import Spade.Core.Samples

set_option autoImplicit false

/-!
# What resolved inputs are worth

Every entry names a declared output that the input takes, every input that needs a source has
one, and an explicit reference is lost only to one whose `as` names an input already taken.
-/
namespace Spade
open FirstFit

/-- The source of an input. -/
def wireOf (out : GoMap String ResolvedInput) (n : String) : Option (UUID × String) :=
  (out.lookup n).map fun ri => (ri.sourceBlockID, ri.sourceOutputName)

variable {σ : MapOrder} {dependencies : GoMap UUID BlockManifest} {current : BlockManifest}

theorem resolves_iff {b : PipelineBlock} (hknown : ∀ r ∈ b.inputs, r.depID ∈ dependencies)
    {out : GoMap String ResolvedInput} :
    resolveInputs σ b dependencies current = .ok out ↔ ∃ l m,
      Assigns dependencies current [] b.inputs l ∧
      (bareOutputs dependencies σ b.inputs).foldlM (resolveNext σ current)
        (l.foldl (Matching.choose dependencies) {}) = .ok m ∧
      (∀ n input, current.inputs.lookup n = some input → m.open n = true →
        isScalar input.type = true) ∧ out = m.resolved := by
  have hbares : ∀ m, b.inputs.foldlM (resolveBare σ dependencies current) m =
      (bareOutputs dependencies σ b.inputs).foldlM (resolveNext σ current) m := by
    refine fun m => bares_eq fun r hr hrb => ?_
    have hdep := hknown r hr
    rwa [InputRef.depID, hrb] at hdep
  have hstart : ∀ n, ({} : Matching).open n = true ↔ n ∉ ([] : List String) := by
    simp [Matching.open]
  rw [resolveInputs_iff]
  constructor
  · rintro ⟨m₁, m, h₁, h₂, hopen, rfl⟩
    obtain ⟨l, hl, rfl⟩ := (assigns_iff hstart).mp h₁
    rw [hbares] at h₂
    exact ⟨l, m, hl, h₂, hopen, rfl⟩
  · rintro ⟨l, m, hl, h₂, hopen, rfl⟩
    refine ⟨_, m, (assigns_iff hstart).mpr ⟨l, hl, rfl⟩, ?_, hopen, rfl⟩
    rw [hbares]
    exact h₂

/-- What an explicit reference has in the end was chosen for it. -/
theorem chosen_of_wire {l : List ((UUID × String) × String)} {m : Matching}
    {outs : List (UUID × String × OutputDeclaration)}
    (hsuits : ∀ e ∈ l, Suits dependencies current e.1 e.2)
    (h : outs.foldlM (resolveNext σ current) (l.foldl (Matching.choose dependencies) {}) = .ok m)
    {x : UUID × String} {n : String} (hx : x ∈ l.map Prod.fst)
    (hw : wireOf m.resolved n = some x) : (x, n) ∈ l := by
  obtain ⟨-, horigin, -, hused⟩ := foldl_choose hsuits Matching.sound_empty
  obtain ⟨ri, hri, rfl⟩ := Option.map_eq_some_iff.mp hw
  rcases nexts_origin h hri with hri | ⟨-, hfree⟩
  · rcases horigin n ri hri with hmem | hnone
    · exact hmem
    · simp at hnone
  · rw [(hused _).mpr (.inl hx)] at hfree
    cases hfree

theorem wire_of_chosen {l : List ((UUID × String) × String)} {m : Matching}
    {outs : List (UUID × String × OutputDeclaration)}
    (hsuits : ∀ e ∈ l, Suits dependencies current e.1 e.2) (hn : (l.map Prod.snd).Nodup)
    (h : outs.foldlM (resolveNext σ current) (l.foldl (Matching.choose dependencies) {}) = .ok m)
    {e : (UUID × String) × String} (he : e ∈ l) : wireOf m.resolved e.2 = some e.1 := by
  have hsound := (foldl_choose hsuits Matching.sound_empty).1
  obtain ⟨decl, -, hlook⟩ := chosen_foldl hsuits hn Matching.sound_empty e he
  unfold wireOf
  rw [(hsound.nexts h).2 _ _ hlook]
  rfl

/-! Every entry on its own. -/

/-- The input is declared, and so is the output, with a type that the input takes. -/
def Sourced (dependencies : GoMap UUID BlockManifest) (current : BlockManifest) (n : String)
    (ri : ResolvedInput) : Prop :=
  ri.inputName = n ∧
  outputDecl dependencies (ri.sourceBlockID, ri.sourceOutputName) = some ri.sourceOutputDecl ∧
  ∃ input, current.inputs.lookup n = some input ∧
    typesCompatible input.type ri.sourceOutputDecl.type = true

/-- Step 1 leaves the input to the bare references. -/
def LeftOpen (dependencies : GoMap UUID BlockManifest) (current : BlockManifest)
    (refs : List InputRef) (n : String) : Prop :=
  ∃ m, refs.foldlM (resolveExplicit dependencies current) {} = .ok m ∧ m.open n = true

structure Grounded (block : PipelineBlock) (dependencies : GoMap UUID BlockManifest)
    (current : BlockManifest) (out : GoMap String ResolvedInput) : Prop where
  sourced : ∀ n ri, out.lookup n = some ri → Sourced dependencies current n ri
  referenced : ∀ n ri, out.lookup n = some ri → ∃ r ∈ block.inputs, r.depID = ri.sourceBlockID
  explicit : ∀ n ri, out.lookup n = some ri → ¬LeftOpen dependencies current block.inputs n →
    (ri.sourceBlockID, ri.sourceOutputName) ∈ explicitOutputs block.inputs
  bare : ∀ n ri, out.lookup n = some ri → LeftOpen dependencies current block.inputs n →
    ∃ r ∈ block.inputs, r.block = none ∧ r.id = ri.sourceBlockID
  complete : ∀ n input, current.inputs.lookup n = some input → isScalar input.type = false → n ∈ out
  bareOnce : ∀ n n' x, LeftOpen dependencies current block.inputs n →
    LeftOpen dependencies current block.inputs n' → wireOf out n = some x →
    wireOf out n' = some x → n = n'

namespace Matching
variable {m m' : Matching}

theorem sourced_record (h : ∀ n ri, m.resolved.lookup n = some ri → Sourced dependencies current n ri)
    {i : String} {x : UUID × String} {decl : OutputDeclaration}
    (hdecl : outputDecl dependencies x = some decl) {input : InputDeclaration}
    (hi : current.inputs.lookup i = some input) (hc : typesCompatible input.type decl.type = true) :
    ∀ n ri, (m.record i x.1 x.2 decl).resolved.lookup n = some ri →
      Sourced dependencies current n ri := by
  intro n ri hri
  rw [record_lookup] at hri
  split_ifs at hri with hn
  · cases hri
    exact ⟨hn.symm, hdecl, input, hn ▸ hi, hc⟩
  · exact h n ri hri

theorem sourced_choices {l : List ((UUID × String) × String)}
    (hl : ∀ e ∈ l, Suits dependencies current e.1 e.2)
    (h : ∀ n ri, m.resolved.lookup n = some ri → Sourced dependencies current n ri) :
    ∀ n ri, (l.foldl (choose dependencies) m).resolved.lookup n = some ri →
      Sourced dependencies current n ri := by
  induction l generalizing m with
  | nil => exact h
  | cons e l ih =>
    obtain ⟨he, hl⟩ := List.forall_mem_cons.mp hl
    obtain ⟨decl, input, hdecl, hi, hc⟩ := id he
    obtain ⟨decl', hdecl', heq⟩ := choose_spec he m
    rw [hdecl] at hdecl'
    cases hdecl'
    rw [List.foldl_cons, heq]
    exact ih hl (sourced_record h hdecl hi hc)

/-- Inputs that were open at the start have sources of their own. -/
def Apart (start m : Matching) : Prop :=
  ∀ n n' x, start.open n = true → start.open n' = true → wireOf m.resolved n = some x →
    wireOf m.resolved n' = some x → n = n'

theorem wireOf_record (m : Matching) (i : String) (s : UUID) (o : String)
    (decl : OutputDeclaration) (n : String) : wireOf (m.record i s o decl).resolved n =
      if n = i then some (s, o) else wireOf m.resolved n := by
  unfold wireOf
  rw [record_lookup]
  split_ifs <;> rfl

theorem Sound.used_of_wire (h : m.Sound) {n : String} {x : UUID × String}
    (hx : wireOf m.resolved n = some x) : m.used x = true := by
  obtain ⟨ri, hri, rfl⟩ := Option.map_eq_some_iff.mp hx
  exact (h.outputs n ri hri).2

theorem Apart.record {start : Matching} (h : start.Apart m) (hm : m.Sound) {i : String} {s : UUID}
    {o : String} (hu : m.used (s, o) = false) (decl : OutputDeclaration) :
    start.Apart (m.record i s o decl) := by
  have hnew : ∀ n, wireOf m.resolved n ≠ some (s, o) := by
    intro n hn
    rw [hm.used_of_wire hn] at hu
    cases hu
  intro n n' x hn hn' hx hx'
  rw [wireOf_record] at hx hx'
  split_ifs at hx hx' with hi hi' hi'
  · exact hi.trans hi'.symm
  · cases hx
    exact absurd hx' (hnew n')
  · cases hx'
    exact absurd hx (hnew n)
  · exact h n n' x hn hn' hx hx'

/-- What step 2 keeps. -/
theorem nexts_grounded {start : Matching} {l : List (UUID × String × OutputDeclaration)}
    (hl : ∀ x ∈ l, outputDecl dependencies (x.1, x.2.1) = some x.2.2)
    (h : l.foldlM (resolveNext σ current) m = .ok m') (hm : m.Sound)
    (hw : ∀ n ri, m.resolved.lookup n = some ri → Sourced dependencies current n ri)
    (ha : start.Apart m) :
    (∀ n ri, m'.resolved.lookup n = some ri → Sourced dependencies current n ri) ∧
      start.Apart m' := by
  induction l generalizing m with
  | nil =>
    cases h
    exact ⟨hw, ha⟩
  | cons x l ih =>
    obtain ⟨hx, hl⟩ := List.forall_mem_cons.mp hl
    rw [List.foldlM_cons] at h
    cases hstep : resolveNext σ current m x with
    | error e =>
      rw [hstep] at h
      cases h
    | ok m₁ =>
      rw [hstep] at h
      have hm₁ := (hm.next hstep).1
      rcases resolveNext_ok_iff.mp hstep with ⟨-, rfl⟩ | ⟨hu, e, he, rfl⟩
      · exact ih hl h hm hw ha
      · have hmem : e ∈ candidates current m x.2.2.type := by
          rw [he]
          exact List.mem_singleton_self e
        obtain ⟨hi, -, hc⟩ := mem_candidates.mp hmem
        exact ih hl h hm₁ (sourced_record hw (x := (x.1, x.2.1)) hx hi hc) (ha.record hm hu _)

end Matching

theorem mem_explicitOutputs {refs : List InputRef} {x : UUID × String} :
    x ∈ explicitOutputs refs ↔ ∃ r ∈ refs, r.block = some x.1 ∧ r.output = x.2 := by
  unfold explicitOutputs
  rw [List.mem_filterMap]
  refine exists_congr fun r => and_congr_right fun _ => ?_
  rw [Option.map_eq_some_iff]
  constructor
  · rintro ⟨b, hb, rfl⟩
    exact ⟨hb, rfl⟩
  · rintro ⟨hb, ho⟩
    exact ⟨x.1, hb, by rw [ho]⟩

theorem resolveInputs_grounded {block : PipelineBlock} {out : GoMap String ResolvedInput}
    (h : resolveInputs σ block dependencies current = .ok out) :
    Grounded block dependencies current out := by
  obtain ⟨l, m, hl, h₂, hopen, rfl⟩ := (resolves_iff (resolveInputs_known h)).mp h
  obtain ⟨hfst, hsuits⟩ := hl.spec
  have hstart : ∀ n, ({} : Matching).open n = true ↔ n ∉ ([] : List String) := by
    simp [Matching.open]
  have hleft : ∀ n, LeftOpen dependencies current block.inputs n ↔
      (l.foldl (Matching.choose dependencies) {}).open n = true := by
    intro n
    constructor
    · rintro ⟨m₁, hm₁, hn⟩
      obtain ⟨l', hl', rfl⟩ := (assigns_iff hstart).mp hm₁
      rwa [hl.unique hl']
    · exact fun hn => ⟨_, (assigns_iff hstart).mpr ⟨l, hl, rfl⟩, hn⟩
  obtain ⟨hsound, horigin, -, -⟩ := foldl_choose hsuits Matching.sound_empty
  have hsound₂ := hsound.nexts h₂
  have hdecls : ∀ x ∈ bareOutputs dependencies σ block.inputs,
      outputDecl dependencies (x.1, x.2.1) = some x.2.2 := by
    intro x hx
    obtain ⟨r, -, -, -, hd⟩ := mem_bareOutputs.mp hx
    exact hd
  have hnone : ∀ n, ¬n ∈ (l.foldl (Matching.choose dependencies) {}).resolved →
      wireOf (l.foldl (Matching.choose dependencies) {}).resolved n = none := by
    intro n hn
    unfold wireOf
    rw [AList.lookup_eq_none.mpr hn]
    rfl
  have hstart₂ : (l.foldl (Matching.choose dependencies) {}).Apart
      (l.foldl (Matching.choose dependencies) {}) := by
    intro n _ x hn _ hx _
    rw [hnone n ((hsound.inputs n).mp hn)] at hx
    cases hx
  obtain ⟨hsourced, hapart⟩ := Matching.nexts_grounded hdecls h₂ hsound
    (Matching.sourced_choices hsuits (by simp)) hstart₂
  have hexplicit : ∀ n ri, m.resolved.lookup n = some ri →
      ¬LeftOpen dependencies current block.inputs n →
      (ri.sourceBlockID, ri.sourceOutputName) ∈ explicitOutputs block.inputs := by
    intro n ri hri hn
    rw [hleft, hsound.inputs, not_not] at hn
    obtain ⟨ri', hri'⟩ := GoMap.lookup_of_mem hn
    have hsame := hsound₂.2 n ri' hri'
    rw [hri] at hsame
    cases hsame
    rcases horigin n ri hri' with hmem | hmem
    · exact hfst ▸ List.mem_map_of_mem hmem
    · simp at hmem
  have hbare : ∀ n ri, m.resolved.lookup n = some ri →
      LeftOpen dependencies current block.inputs n →
      ∃ r ∈ block.inputs, r.block = none ∧ r.id = ri.sourceBlockID := by
    intro n ri hri hn
    rw [hleft, hsound.inputs] at hn
    rcases nexts_origin h₂ hri with hold | ⟨hmem, -⟩
    · exact absurd (GoMap.mem_of_lookup hold) hn
    · obtain ⟨r, hr, hb, hid, -⟩ := mem_bareOutputs.mp hmem
      exact ⟨r, hr, hb, hid.symm⟩
  refine ⟨hsourced, fun n ri hri => ?_, hexplicit, hbare, fun n input hi hs => ?_, ?_⟩
  · by_cases hn : LeftOpen dependencies current block.inputs n
    · obtain ⟨r, hr, hb, hid⟩ := hbare n ri hri hn
      exact ⟨r, hr, by rw [InputRef.depID, hb, hid]⟩
    · obtain ⟨r, hr, hb, -⟩ := mem_explicitOutputs.mp (hexplicit n ri hri hn)
      exact ⟨r, hr, by rw [InputRef.depID, hb]⟩
  · by_contra hn
    rw [hopen n input hi ((hsound₂.1.inputs n).mpr hn)] at hs
    cases hs
  · intro n n' x hn hn' hx hx'
    exact hapart n n' x ((hleft n).mp hn) ((hleft n').mp hn') hx hx'

namespace Samples

def fileSource : BlockManifest where
  id := "source"
  outputs := (∅ : GoMap String OutputDeclaration).insert "out" { type := "file" }

/-- Two sources. -/
def sources : GoMap UUID BlockManifest :=
  ((∅ : GoMap UUID BlockManifest).insert (blockID 1) fileSource).insert (blockID 2) fileSource

/-- A block with two inputs and a parameter. -/
def join : BlockManifest where
  id := "join"
  inputs := (((∅ : GoMap String InputDeclaration).insert "left" { type := "file" }).insert
    "right" { type := "file" }).insert "size" { type := "number" }

/-- The first source is bound to an input, the second one is not. -/
def joined : PipelineBlock where
  id := blockID 3
  name := "join"
  inputs := [{ id := blockID 2 }, ⟨some (blockID 1), "out", "right", UUID.nil⟩]

end Samples

theorem exists_of_isOk {ε α : Type} {r : Except ε α} (h : r.isOk = true) : ∃ a, r = .ok a := by
  cases r with
  | error e => cases h
  | ok a => exact ⟨a, rfl⟩

theorem resolveInputs_grounded_joined : ∃ out,
    resolveInputs .stored Samples.joined Samples.sources Samples.join = .ok out ∧
      Grounded Samples.joined Samples.sources Samples.join out := by
  obtain ⟨out, h⟩ : ∃ out,
      resolveInputs .stored Samples.joined Samples.sources Samples.join = .ok out :=
    exists_of_isOk (by decide)
  exact ⟨out, h, resolveInputs_grounded h⟩

/-! The explicit references. -/

/-- The reference is the source of the input, which is the one that `as` names. -/
def Fills (out : GoMap String ResolvedInput) (r : InputRef) (n : String) : Prop :=
  (r.as ≠ "" → n = r.as) ∧ ∃ block, r.block = some block ∧ wireOf out n = some (block, r.output)

/-- Every explicit reference, in the order of the list, has an input of its own. -/
def FillsAll (out : GoMap String ResolvedInput) (refs : List InputRef) : Prop :=
  ∃ names : List String, names.Nodup ∧
    List.Forall₂ (Fills out) (refs.filter fun r => r.block.isSome) names

/-- No `as` names an input that an earlier explicit reference takes. -/
def Untaken (dependencies : GoMap UUID BlockManifest) (current : BlockManifest) :
    List String → List InputRef → Prop
  | _, [] => True
  | taken, r :: refs =>
    match r.block with
    | none => Untaken dependencies current taken refs
    | some block => (r.as ≠ "" → r.as ∉ taken) ∧
        ∀ n, Takes dependencies current taken r (block, r.output) n →
          Untaken dependencies current (n :: taken) refs

theorem Takes.named {taken : List String} {r : InputRef} {x : UUID × String} {n : String}
    (h : Takes dependencies current taken r x n) (has : r.as ≠ "") : n = r.as := by
  unfold Takes at h
  rw [if_neg has] at h
  exact h.1

theorem Takes.free_iff {taken : List String} {r : InputRef} {x : UUID × String} {n : String}
    (h : Takes dependencies current taken r x n) : (r.as ≠ "" → r.as ∉ taken) ↔ n ∉ taken := by
  by_cases has : r.as = ""
  · unfold Takes at h
    rw [if_pos has] at h
    exact iff_of_true (fun hne => absurd has hne) h.2.2.1
  · rw [h.named has]
    exact ⟨fun hfree => hfree has, fun hfree _ => hfree⟩

theorem Assigns.untaken_iff {taken : List String} {refs : List InputRef}
    {l : List ((UUID × String) × String)} (h : Assigns dependencies current taken refs l) :
    Untaken dependencies current taken refs ↔
      (l.map Prod.snd).Nodup ∧ ∀ e ∈ l, e.2 ∉ taken := by
  induction refs generalizing taken l with
  | nil =>
    obtain rfl : l = [] := h
    exact iff_of_true trivial ⟨List.nodup_nil, nofun⟩
  | cons r refs ih =>
    unfold Assigns at h
    unfold Untaken
    cases hb : r.block with
    | none =>
      rw [hb] at h
      exact ih h
    | some block =>
      rw [hb] at h
      obtain ⟨n, l, hn, hl, rfl⟩ := h
      have hrest : (∀ n', Takes dependencies current taken r (block, r.output) n' →
          Untaken dependencies current (n' :: taken) refs) ↔
          Untaken dependencies current (n :: taken) refs :=
        ⟨fun hall => hall n hn, fun hu n' hn' => hn.unique hn' ▸ hu⟩
      dsimp only
      rw [hrest, hn.free_iff, ih hl, List.map_cons, List.nodup_cons, List.forall_mem_cons,
        List.mem_map]
      simp only [List.mem_cons, not_or]
      constructor
      · rintro ⟨hfree, hnodup, hall⟩
        refine ⟨⟨?_, hnodup⟩, hfree, fun e he => (hall e he).2⟩
        rintro ⟨e, he, heq⟩
        exact (hall e he).1 heq
      · rintro ⟨⟨hnew, hnodup⟩, hfree, hall⟩
        exact ⟨hfree, hnodup, fun e he => ⟨fun heq => hnew ⟨e, he, heq⟩, hall e he⟩⟩

/-- The references and what they take, one by one. -/
theorem Assigns.each {taken : List String} {refs : List InputRef}
    {l : List ((UUID × String) × String)} (h : Assigns dependencies current taken refs l) :
    List.Forall₂ (fun r e => r.block = some e.1.1 ∧ r.output = e.1.2 ∧ (r.as ≠ "" → e.2 = r.as))
      (refs.filter fun r => r.block.isSome) l := by
  induction refs generalizing taken l with
  | nil =>
    obtain rfl : l = [] := h
    exact .nil
  | cons r refs ih =>
    unfold Assigns at h
    cases hb : r.block with
    | none =>
      rw [hb] at h
      rw [List.filter_cons_of_neg (by simp [hb])]
      exact ih h
    | some block =>
      rw [hb] at h
      obtain ⟨n, l, hn, hl, rfl⟩ := h
      rw [List.filter_cons_of_pos (by simp [hb])]
      exact .cons ⟨hb, rfl, hn.named⟩ (ih hl)

theorem fillsAll_iff {block : PipelineBlock} {out : GoMap String ResolvedInput}
    (h : resolveInputs σ block dependencies current = .ok out) :
    FillsAll out block.inputs ↔ Untaken dependencies current [] block.inputs := by
  obtain ⟨l, m, hl, h₂, -, rfl⟩ := (resolves_iff (resolveInputs_known h)).mp h
  obtain ⟨hfst, hsuits⟩ := hl.spec
  rw [hl.untaken_iff]
  constructor
  · rintro ⟨names, hnodup, hfills⟩
    have hsub : names ⊆ l.map Prod.snd := by
      intro n hn
      obtain ⟨i, rfl⟩ := List.mem_iff_get.mp hn
      have hi : i.1 < (block.inputs.filter fun r => r.block.isSome).length := by
        rw [hfills.length_eq]
        exact i.2
      obtain ⟨-, b, hb, hw⟩ := hfills.get hi i.2
      have hr := List.mem_of_mem_filter (List.get_mem _ ⟨i.1, hi⟩)
      have hx : (b, _) ∈ l.map Prod.fst := hfst ▸ mem_explicitOutputs.mpr ⟨_, hr, hb, rfl⟩
      exact List.mem_map_of_mem (f := Prod.snd) (chosen_of_wire hsuits h₂ hx hw)
    have hlen : l.length ≤ names.length := by
      rw [← hfills.length_eq, hl.each.length_eq]
    have hperm := (List.subperm_of_subset hnodup hsub).perm_of_length_le (by simpa using hlen)
    exact ⟨hperm.nodup_iff.mp hnodup, fun e _ => List.not_mem_nil⟩
  · rintro ⟨hnodup, -⟩
    refine ⟨l.map Prod.snd, hnodup, ?_⟩
    rw [List.forall₂_map_right_iff, List.forall₂_iff_zip]
    refine ⟨hl.each.length_eq, fun {r e} hre => ?_⟩
    obtain ⟨hb, ho, has⟩ := List.forall₂_zip hl.each hre
    refine ⟨has, e.1.1, hb, ?_⟩
    rw [ho]
    exact wire_of_chosen hsuits hnodup h₂ (List.of_mem_zip hre).2

theorem fillsAll_joined : ∃ out,
    resolveInputs .stored Samples.joined Samples.sources Samples.join = .ok out ∧
      FillsAll out Samples.joined.inputs := by
  obtain ⟨out, h⟩ : ∃ out,
      resolveInputs .stored Samples.joined Samples.sources Samples.join = .ok out :=
    exists_of_isOk (by decide)
  refine ⟨out, h, (fillsAll_iff h).mpr ⟨fun _ => List.not_mem_nil, fun n _ => trivial⟩⟩

/-- The second reference takes the input of the first one. -/
def Samples.retaken : PipelineBlock where
  id := blockID 3
  name := "step"
  inputs := [{ block := some (blockID 1), output := "out" },
    ⟨some (blockID 2), "out", "data", UUID.nil⟩]

theorem fillsAll_fails : ∃ current out, Samples.manifests.lookup "step" = some current ∧
    resolveInputs .stored Samples.retaken Samples.sources current = .ok out ∧
      ¬FillsAll out Samples.retaken.inputs := by
  obtain ⟨current, hcurrent⟩ : ∃ current, Samples.manifests.lookup "step" = some current := ⟨_, rfl⟩
  have hread : ((Samples.manifests.lookup "step").bind fun current =>
      (resolveInputs .stored Samples.retaken Samples.sources current).toOption.map fun out =>
        out.items.map fun e => (e.1, e.2.sourceBlockID)) = some [("data", Samples.blockID 2)] := by
    decide
  rw [hcurrent, Option.bind_some] at hread
  cases h : resolveInputs .stored Samples.retaken Samples.sources current with
  | error e =>
    rw [h] at hread
    cases hread
  | ok out =>
    rw [h] at hread
    have hitems : (out.items.map fun e => (e.1, e.2.sourceBlockID)) = [("data", Samples.blockID 2)] :=
      Option.some.inj hread
    refine ⟨current, out, hcurrent, h, ?_⟩
    rintro ⟨names, -, hfills⟩
    obtain ⟨n, _, ⟨-, b, hb, hw⟩, -, rfl⟩ := List.forall₂_cons_left_iff.mp hfills
    cases hb
    obtain ⟨ri, hri, hsource⟩ := Option.map_eq_some_iff.mp hw
    have hmem := List.mem_map_of_mem (f := fun e => (e.1, e.2.sourceBlockID))
      ((GoMap.mem_items _ _ _).mpr hri)
    rw [hitems, List.mem_singleton, Prod.mk.injEq] at hmem
    rw [hmem.2, Prod.mk.injEq] at hsource
    exact absurd hsource.1 (by decide)

end Spade
