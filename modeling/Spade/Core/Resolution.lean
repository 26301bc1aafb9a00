import Spade.Core.Resolve
import Spade.Lib.FirstFit
import Spade.Lib.GoMap
import Spade.Lib.IdleSteps

set_option autoImplicit false

/-!
# What `ResolveInputs` does

References without `as` are served by first fit in step 1. Step 2 takes the outputs of the
bare references one after the other, and no step takes an input away from what has it.
-/
namespace Spade
open FirstFit

section
variable (dependencies : GoMap UUID BlockManifest) (current : BlockManifest)

def outputDecl (x : UUID × String) : Option OutputDeclaration :=
  (dependencies.lookup x.1).bind fun dep => dep.outputs.lookup x.2

/-- The output is declared, and the input too and with a type that takes it. -/
def Suits (x : UUID × String) (n : String) : Prop :=
  ∃ decl input, outputDecl dependencies x = some decl ∧ current.inputs.lookup n = some input ∧
    typesCompatible input.type decl.type = true

/-- The input that an explicit reference takes: the one that `as` names, taken or not, or the
first that is free. -/
def Takes (taken : List String) (r : InputRef) (x : UUID × String) (n : String) : Prop :=
  if r.as = "" then n ≠ "" ∧ First (Suits dependencies current) taken x n
  else n = r.as ∧ Suits dependencies current x n

/-- The outputs of the explicit references with the inputs that they take, in turn. -/
def Assigns : List String → List InputRef → List ((UUID × String) × String) → Prop
  | _, [], l => l = []
  | taken, r :: refs, l =>
    match r.block with
    | none => Assigns taken refs l
    | some block => ∃ n l', Takes dependencies current taken r (block, r.output) n ∧
        Assigns (n :: taken) refs l' ∧ l = ((block, r.output), n) :: l'

/-- The outputs that the explicit references name. -/
def explicitOutputs (refs : List InputRef) : List (UUID × String) :=
  refs.filterMap fun r => r.block.map fun b => (b, r.output)

/-- The outputs of the blocks that the bare references name, in the order of step 2. -/
def bareOutputs (σ : MapOrder) (refs : List InputRef) : List (UUID × String × OutputDeclaration) :=
  refs.flatMap fun r =>
    match r.block with
    | some _ => []
    | none => ((dependencies.lookup r.id).map fun dep =>
        (σ.range dep.outputs).map fun o => (r.id, o)).getD []

end

namespace Matching
variable {m : Matching} {n : String} {x : UUID × String}

def used (m : Matching) (x : UUID × String) : Bool := (m.matchedOutputs.lookup x).getD false

/-- Record an output for an input. -/
def choose (dependencies : GoMap UUID BlockManifest) (m : Matching)
    (e : (UUID × String) × String) : Matching :=
  match outputDecl dependencies e.1 with
  | none => m
  | some decl => m.record e.2 e.1.1 e.1.2 decl

theorem record_open (m : Matching) (i : String) (s : UUID) (o : String) (decl : OutputDeclaration) :
    (m.record i s o decl).open n = (decide (n ≠ i) && m.open n) := by
  unfold Matching.open record
  rw [GoMap.lookup_insert_if]
  by_cases hn : n = i <;> simp [hn]

theorem record_used (m : Matching) (i : String) (s : UUID) (o : String) (decl : OutputDeclaration) :
    (m.record i s o decl).used x = (decide (x = (s, o)) || m.used x) := by
  unfold used record
  rw [GoMap.lookup_insert_if]
  by_cases hx : x = (s, o) <;> simp [hx]

theorem record_lookup (m : Matching) (i : String) (s : UUID) (o : String)
    (decl : OutputDeclaration) : (m.record i s o decl).resolved.lookup n =
      if n = i then some ⟨i, s, o, decl⟩ else m.resolved.lookup n :=
  GoMap.lookup_insert_if _ _ _ _

/-- What is matched is resolved, and the other way round. -/
structure Sound (m : Matching) : Prop where
  inputs : ∀ n, m.open n = true ↔ n ∉ m.resolved
  outputs : ∀ n ri, m.resolved.lookup n = some ri →
    ri.inputName = n ∧ m.used (ri.sourceBlockID, ri.sourceOutputName) = true

theorem sound_empty : Sound {} := by
  refine ⟨fun n => ?_, fun n ri h => ?_⟩
  · simp [Matching.open]
  · simp at h

theorem Sound.record (h : m.Sound) (i : String) (s : UUID) (o : String)
    (decl : OutputDeclaration) : (m.record i s o decl).Sound := by
  refine ⟨fun n => ?_, fun n ri hri => ?_⟩
  · rw [record_open, Bool.and_eq_true, decide_eq_true_eq, h.inputs]
    simp [Matching.record]
  · rw [record_lookup] at hri
    rw [record_used, Bool.or_eq_true, decide_eq_true_eq]
    split_ifs at hri with hn
    · cases hri
      exact ⟨hn.symm, .inl rfl⟩
    · exact ⟨(h.outputs n ri hri).1, .inr (h.outputs n ri hri).2⟩

/-- Every input that was resolved stays so. -/
def Extends (m m' : Matching) : Prop :=
  ∀ n ri, m.resolved.lookup n = some ri → m'.resolved.lookup n = some ri

theorem Extends.refl (m : Matching) : m.Extends m := fun _ _ h => h

theorem Extends.trans {m' m'' : Matching} (h : m.Extends m') (h' : m'.Extends m'') :
    m.Extends m'' := fun n ri hri => h' n ri (h n ri hri)

theorem Sound.extends_record (h : m.Sound) {i : String} (hi : m.open i = true) (s : UUID)
    (o : String) (decl : OutputDeclaration) : m.Extends (m.record i s o decl) := by
  intro n ri hri
  rw [record_lookup, if_neg, hri]
  rintro rfl
  exact (h.inputs n).mp hi (GoMap.mem_of_lookup hri)

end Matching

/-! Step 1. -/

section
variable {dependencies : GoMap UUID BlockManifest} {current : BlockManifest} {m m' : Matching}
  {taken : List String}

theorem explicitTarget_iff {ref : InputRef} (has : ref.as = "")
    (ht : ∀ n, m.open n = true ↔ n ∉ taken) {block : UUID} {decl : OutputDeclaration}
    (hdecl : outputDecl dependencies (block, ref.output) = some decl) (n : String) :
    explicitTarget current m ref block decl = .ok n ↔
      n ≠ "" ∧ First (Suits dependencies current) taken (block, ref.output) n := by
  have hsuits : ∀ n', Suits dependencies current (block, ref.output) n' ↔
      ∃ input, (n', input) ∈ current.inputs.items ∧
        typesCompatible input.type decl.type = true := by
    intro n'
    constructor
    · rintro ⟨decl', input, hd, hi, hc⟩
      rw [hdecl] at hd
      cases hd
      exact ⟨input, (GoMap.mem_items _ _ _).mpr hi, hc⟩
    · rintro ⟨input, hi, hc⟩
      exact ⟨decl, input, hdecl, (GoMap.mem_items _ _ _).mp hi, hc⟩
  have hperm := List.perm_insertionSort (fun a b : String × InputDeclaration => a.1 ≤ b.1)
    current.inputs.items
  have hsort := List.pairwise_insertionSort (fun a b : String × InputDeclaration => a.1 ≤ b.1)
    current.inputs.items
  have hnodup := (hperm.map Prod.fst).nodup_iff.mpr current.inputs.items_nodup
  unfold explicitTarget
  rw [if_neg (not_not.mpr has)]
  dsimp only
  generalize current.inputs.items.insertionSort (fun a b => a.1 ≤ b.1) = names at *
  have hfound : ∀ e, (names.find? fun e => m.open e.1 && typesCompatible e.2.type decl.type) =
      some e ↔ e ∈ names ∧ (m.open e.1 && typesCompatible e.2.type decl.type) = true ∧
        ∀ e' ∈ names, (m.open e'.1 && typesCompatible e'.2.type decl.type) = true →
          ¬e'.1 < e.1 := fun e => find_sorted hsort hnodup
  have htest : ∀ e : String × InputDeclaration,
      (m.open e.1 && typesCompatible e.2.type decl.type) = true ↔
        e.1 ∉ taken ∧ typesCompatible e.2.type decl.type = true := by
    intro e
    rw [Bool.and_eq_true, ht]
  have hfirst : First (Suits dependencies current) taken (block, ref.output) n ↔ ∃ e,
      (names.find? fun e => m.open e.1 && typesCompatible e.2.type decl.type) = some e ∧
        e.1 = n := by
    constructor
    · rintro ⟨hs, hfree, hleast⟩
      obtain ⟨input, hi, hc⟩ := (hsuits n).mp hs
      refine ⟨(n, input), (hfound _).mpr ⟨hperm.mem_iff.mpr hi, (htest _).mpr ⟨hfree, hc⟩, ?_⟩, rfl⟩
      intro e' he' ht' hlt
      obtain ⟨hfree', hc'⟩ := (htest e').mp ht'
      exact hfree' (hleast e'.1 ((hsuits _).mpr ⟨e'.2, hperm.mem_iff.mp he', hc'⟩) hlt)
    · rintro ⟨e, he, rfl⟩
      obtain ⟨hmem, hte, hleast⟩ := (hfound e).mp he
      obtain ⟨hfree, hc⟩ := (htest e).mp hte
      refine ⟨(hsuits _).mpr ⟨e.2, hperm.mem_iff.mp hmem, hc⟩, hfree, fun n' hs' hlt => ?_⟩
      by_contra hn'
      obtain ⟨input, hi, hc'⟩ := (hsuits n').mp hs'
      exact hleast (n', input) (hperm.mem_iff.mpr hi) ((htest _).mpr ⟨hn', hc'⟩) hlt
  rw [hfirst]
  cases names.find? fun e => m.open e.1 && typesCompatible e.2.type decl.type with
  | none => simp
  | some e =>
    simp only [Option.map_some, Option.getD_some, Option.some.injEq, exists_eq_left']
    split_ifs with he
    · simp only [false_iff, not_and]
      rintro hn rfl
      exact hn he
    · simp only [Except.ok.injEq]
      constructor
      · rintro rfl
        exact ⟨he, rfl⟩
      · exact fun h => h.2

theorem target_iff {ref : InputRef} (ht : ∀ n, m.open n = true ↔ n ∉ taken) {block : UUID}
    {decl : OutputDeclaration} (hdecl : outputDecl dependencies (block, ref.output) = some decl)
    (n : String) : explicitTarget current m ref block decl = .ok n ↔
      Takes dependencies current taken ref (block, ref.output) n := by
  unfold Takes
  by_cases has : ref.as = ""
  · rw [if_pos has]
    exact explicitTarget_iff has ht hdecl n
  · rw [if_neg has]
    unfold explicitTarget
    rw [if_pos has]
    cases hi : current.inputs.lookup ref.as with
    | none =>
      refine iff_of_false nofun ?_
      rintro ⟨rfl, _, input, -, hn, -⟩
      rw [hi] at hn
      cases hn
    | some input =>
      dsimp only
      split_ifs with hc
      · simp only [Except.ok.injEq]
        constructor
        · rintro rfl
          exact ⟨rfl, decl, input, hdecl, hi, hc⟩
        · exact fun h => h.1.symm
      · refine iff_of_false nofun ?_
        rintro ⟨rfl, decl', input', hd, hn, hc'⟩
        rw [hdecl] at hd
        rw [hi] at hn
        cases hd
        cases hn
        exact hc hc'

theorem Takes.suits {ref : InputRef} {x : UUID × String} {n : String}
    (h : Takes dependencies current taken ref x n) : Suits dependencies current x n := by
  unfold Takes at h
  split_ifs at h
  · exact h.2.1
  · exact h.2

theorem Takes.unique {ref : InputRef} {x : UUID × String} {n n' : String}
    (h : Takes dependencies current taken ref x n) (h' : Takes dependencies current taken ref x n') :
    n = n' := by
  unfold Takes at h h'
  split_ifs at h h'
  · exact h.2.unique h'.2
  · rw [h.1, h'.1]

theorem explicit_iff {ref : InputRef} {block : UUID} (hb : ref.block = some block)
    (ht : ∀ n, m.open n = true ↔ n ∉ taken) :
    resolveExplicit dependencies current m ref = .ok m' ↔
      ∃ n, Takes dependencies current taken ref (block, ref.output) n ∧
        m' = m.choose dependencies ((block, ref.output), n) := by
  unfold resolveExplicit
  rw [hb]
  dsimp only
  cases hdep : dependencies.lookup block with
  | none =>
    refine iff_of_false nofun ?_
    rintro ⟨n, hn, -⟩
    obtain ⟨decl, _, hd, -⟩ := hn.suits
    simp [outputDecl, hdep] at hd
  | some dep =>
    cases hdecl : dep.outputs.lookup ref.output with
    | none =>
      refine iff_of_false (by simp [hdecl]) ?_
      rintro ⟨n, hn, -⟩
      obtain ⟨decl, _, hd, -⟩ := hn.suits
      simp [outputDecl, hdep, hdecl] at hd
    | some decl =>
      have hout : outputDecl dependencies (block, ref.output) = some decl := by
        rw [outputDecl, hdep, Option.bind_some, hdecl]
      have htarget : ∀ n, explicitTarget current m ref block decl = .ok n ↔
          Takes dependencies current taken ref (block, ref.output) n := target_iff ht hout
      have hchoose : ∀ n, m.choose dependencies ((block, ref.output), n) =
          m.record n block ref.output decl := by
        intro n
        unfold Matching.choose
        rw [hout]
      simp only [hdecl]
      cases he : explicitTarget current m ref block decl with
      | error e =>
        refine iff_of_false nofun ?_
        rintro ⟨n, hn, -⟩
        have hok := (htarget n).mpr hn
        rw [he] at hok
        cases hok
      | ok n =>
        have hn := (htarget n).mp he
        constructor
        · intro h
          cases h
          exact ⟨n, hn, (hchoose n).symm⟩
        · rintro ⟨n', hn', rfl⟩
          rw [hchoose, hn.unique hn']

theorem choose_spec {e : (UUID × String) × String} (he : Suits dependencies current e.1 e.2)
    (m : Matching) : ∃ decl, outputDecl dependencies e.1 = some decl ∧
      m.choose dependencies e = m.record e.2 e.1.1 e.1.2 decl := by
  obtain ⟨decl, _, hd, -⟩ := he
  refine ⟨decl, hd, ?_⟩
  unfold Matching.choose
  rw [hd]

theorem open_choose {e : (UUID × String) × String} (he : Suits dependencies current e.1 e.2)
    (ht : ∀ n, m.open n = true ↔ n ∉ taken) (n : String) :
    (m.choose dependencies e).open n = true ↔ n ∉ e.2 :: taken := by
  obtain ⟨decl, -, heq⟩ := choose_spec he m
  rw [heq, Matching.record_open, Bool.and_eq_true, decide_eq_true_eq, ht, List.mem_cons, not_or]

/-- Step 1. -/
theorem assigns_iff {refs : List InputRef} (ht : ∀ n, m.open n = true ↔ n ∉ taken) :
    refs.foldlM (resolveExplicit dependencies current) m = .ok m' ↔
      ∃ l, Assigns dependencies current taken refs l ∧
        m' = l.foldl (Matching.choose dependencies) m := by
  induction refs generalizing m taken with
  | nil =>
    constructor
    · intro h
      cases h
      exact ⟨[], rfl, rfl⟩
    · rintro ⟨l, rfl, rfl⟩
      rfl
  | cons r refs ih =>
    rw [List.foldlM_cons]
    cases hb : r.block with
    | none =>
      have hstep : resolveExplicit dependencies current m r = .ok m := by
        unfold resolveExplicit
        rw [hb]
      simp only [Assigns, hb]
      rw [hstep]
      exact ih ht
    | some block =>
      simp only [Assigns, hb]
      constructor
      · intro h
        cases hr : resolveExplicit dependencies current m r with
        | error e =>
          rw [hr] at h
          cases h
        | ok m₁ =>
          rw [hr] at h
          obtain ⟨n, hn, rfl⟩ := (explicit_iff hb ht).mp hr
          obtain ⟨l, hl, rfl⟩ := (ih (open_choose hn.suits ht)).mp h
          exact ⟨_, ⟨n, l, hn, hl, rfl⟩, rfl⟩
      · rintro ⟨_, ⟨n, l, hn, hl, rfl⟩, rfl⟩
        rw [(explicit_iff hb ht).mpr ⟨n, hn, rfl⟩]
        exact (ih (open_choose hn.suits ht)).mpr ⟨l, hl, rfl⟩

theorem Assigns.spec {refs : List InputRef} {l : List ((UUID × String) × String)}
    (h : Assigns dependencies current taken refs l) :
    l.map Prod.fst = explicitOutputs refs ∧ ∀ e ∈ l, Suits dependencies current e.1 e.2 := by
  induction refs generalizing taken l with
  | nil =>
    obtain rfl : l = [] := h
    exact ⟨rfl, nofun⟩
  | cons r refs ih =>
    unfold Assigns at h
    cases hb : r.block with
    | none =>
      rw [hb] at h
      obtain ⟨hl, hsuits⟩ := ih h
      exact ⟨by simpa [explicitOutputs, hb] using hl, hsuits⟩
    | some block =>
      rw [hb] at h
      obtain ⟨n, l', hn, hrest, rfl⟩ := h
      obtain ⟨hl, hsuits⟩ := ih hrest
      exact ⟨by simpa [explicitOutputs, hb] using hl, List.forall_mem_cons.mpr ⟨hn.suits, hsuits⟩⟩

theorem Assigns.unique {refs : List InputRef} {l l' : List ((UUID × String) × String)}
    (h : Assigns dependencies current taken refs l)
    (h' : Assigns dependencies current taken refs l') : l = l' := by
  induction refs generalizing taken l l' with
  | nil => exact h.trans h'.symm
  | cons r refs ih =>
    unfold Assigns at h h'
    cases hb : r.block with
    | none =>
      rw [hb] at h h'
      exact ih h h'
    | some block =>
      rw [hb] at h h'
      obtain ⟨n, l, hn, hl, rfl⟩ := h
      obtain ⟨n', l', hn', hl', rfl⟩ := h'
      obtain rfl := hn.unique hn'
      rw [ih hl hl']

/-- Without `as` step 1 is first fit. -/
theorem assigns_plain {refs : List InputRef} (has : ∀ r ∈ refs, r.block ≠ none → r.as = "")
    {l : List ((UUID × String) × String)} : Assigns dependencies current taken refs l ↔
      l.map Prod.fst = explicitOutputs refs ∧ Serves (Suits dependencies current) taken l ∧
        ∀ e ∈ l, e.2 ≠ "" := by
  induction refs generalizing taken l with
  | nil =>
    constructor
    · rintro rfl
      exact ⟨rfl, trivial, nofun⟩
    · rintro ⟨hl, -, -⟩
      exact List.map_eq_nil_iff.mp hl
  | cons r refs ih =>
    have hrest := fun r' hr' => has r' (List.mem_cons_of_mem r hr')
    cases hb : r.block with
    | none =>
      have hlist : explicitOutputs (r :: refs) = explicitOutputs refs := by
        simp [explicitOutputs, hb]
      simp only [Assigns, hb]
      rw [hlist]
      exact ih hrest
    | some block =>
      have hlist : explicitOutputs (r :: refs) = (block, r.output) :: explicitOutputs refs := by
        simp [explicitOutputs, hb]
      have hplain : r.as = "" := has r List.mem_cons_self (by rw [hb]; exact Option.some_ne_none _)
      simp only [Assigns, hb, Takes, if_pos hplain]
      rw [hlist]
      constructor
      · rintro ⟨n, l', ⟨hne, hfirst⟩, hl', rfl⟩
        obtain ⟨hl, hserves, hall⟩ := (ih hrest).mp hl'
        exact ⟨by rw [List.map_cons, hl], ⟨hfirst, hserves⟩, List.forall_mem_cons.mpr ⟨hne, hall⟩⟩
      · rintro ⟨hl, hserves, hall⟩
        cases l with
        | nil => cases hl
        | cons e l =>
          obtain ⟨x, n⟩ := e
          obtain ⟨rfl, htail⟩ := List.cons.inj hl
          obtain ⟨hne, hall⟩ := List.forall_mem_cons.mp hall
          exact ⟨n, l, ⟨hne, hserves.1⟩, (ih hrest).mpr ⟨htail, hserves.2, hall⟩, rfl⟩

theorem explicits_iff {refs : List InputRef} (has : ∀ r ∈ refs, r.block ≠ none → r.as = "")
    (ht : ∀ n, m.open n = true ↔ n ∉ taken) :
    refs.foldlM (resolveExplicit dependencies current) m = .ok m' ↔
      ∃ l, l.map Prod.fst = explicitOutputs refs ∧ Serves (Suits dependencies current) taken l ∧
        (∀ e ∈ l, e.2 ≠ "") ∧ m' = l.foldl (Matching.choose dependencies) m := by
  rw [assigns_iff ht]
  exact exists_congr fun l => by rw [assigns_plain has, and_assoc, and_assoc]

/-- What is matched once the inputs are chosen; the last choice for an input counts. -/
theorem foldl_choose {l : List ((UUID × String) × String)}
    (h : ∀ e ∈ l, Suits dependencies current e.1 e.2) (hm : m.Sound) :
    (l.foldl (Matching.choose dependencies) m).Sound ∧
    (∀ n ri, (l.foldl (Matching.choose dependencies) m).resolved.lookup n = some ri →
      ((ri.sourceBlockID, ri.sourceOutputName), n) ∈ l ∨ m.resolved.lookup n = some ri) ∧
    (∀ n ∉ l.map Prod.snd,
      (l.foldl (Matching.choose dependencies) m).resolved.lookup n = m.resolved.lookup n) ∧
    ∀ x, (l.foldl (Matching.choose dependencies) m).used x = true ↔
      x ∈ l.map Prod.fst ∨ m.used x = true := by
  induction l generalizing m with
  | nil => exact ⟨hm, fun _ _ => .inr, fun _ _ => rfl, fun x => by simp⟩
  | cons e l ih =>
    obtain ⟨he, hl⟩ := List.forall_mem_cons.mp h
    obtain ⟨decl, -, heq⟩ := choose_spec he m
    rw [List.foldl_cons, heq]
    obtain ⟨hsound, hin, hout, hused⟩ := ih hl (hm.record e.2 e.1.1 e.1.2 decl)
    refine ⟨hsound, fun n ri hri => ?_, fun n hn => ?_, fun x => ?_⟩
    · rcases hin n ri hri with hmem | hri
      · exact .inl (List.mem_cons_of_mem e hmem)
      · rw [Matching.record_lookup] at hri
        split_ifs at hri with hn
        · cases hri
          subst hn
          exact .inl List.mem_cons_self
        · exact .inr hri
    · rw [List.map_cons, List.mem_cons, not_or] at hn
      rw [hout n hn.2, Matching.record_lookup, if_neg hn.1]
    · rw [hused, Matching.record_used, Bool.or_eq_true, decide_eq_true_eq, List.map_cons,
        List.mem_cons, or_left_comm, or_assoc]

/-- Inputs that are chosen once have what was chosen for them. -/
theorem chosen_foldl {l : List ((UUID × String) × String)}
    (h : ∀ e ∈ l, Suits dependencies current e.1 e.2) (hn : (l.map Prod.snd).Nodup) (hm : m.Sound) :
    ∀ e ∈ l, ∃ decl, outputDecl dependencies e.1 = some decl ∧
      (l.foldl (Matching.choose dependencies) m).resolved.lookup e.2 =
        some ⟨e.2, e.1.1, e.1.2, decl⟩ := by
  induction l generalizing m with
  | nil => exact nofun
  | cons e l ih =>
    obtain ⟨he, hl⟩ := List.forall_mem_cons.mp h
    obtain ⟨hfree, hn⟩ := List.nodup_cons.mp hn
    obtain ⟨decl, hdecl, heq⟩ := choose_spec he m
    rw [List.foldl_cons, heq, List.forall_mem_cons]
    have hrest := hm.record e.2 e.1.1 e.1.2 decl
    refine ⟨⟨decl, hdecl, ?_⟩, ih hl hn hrest⟩
    rw [(foldl_choose hl hrest).2.2.1 e.2 hfree, Matching.record_lookup, if_pos rfl]

theorem open_foldl {l : List ((UUID × String) × String)}
    (h : ∀ e ∈ l, Suits dependencies current e.1 e.2) (m : Matching) (n : String) :
    (l.foldl (Matching.choose dependencies) m).open n = true ↔
      n ∉ l.map Prod.snd ∧ m.open n = true := by
  induction l generalizing m with
  | nil => simp
  | cons e l ih =>
    obtain ⟨he, hl⟩ := List.forall_mem_cons.mp h
    obtain ⟨decl, -, heq⟩ := choose_spec he m
    rw [List.foldl_cons, ih hl, heq, Matching.record_open, Bool.and_eq_true, decide_eq_true_eq,
      List.map_cons, List.mem_cons, not_or]
    tauto

/-! Step 2. -/

/-- Step 2 for one output. -/
def resolveNext (σ : MapOrder) (current : BlockManifest) (m : Matching)
    (x : UUID × String × OutputDeclaration) : Except ResolveError Matching :=
  resolveOutput σ current x.1 m x.2

/-- The inputs that are open and take the type. -/
def candidates (current : BlockManifest) (m : Matching) (type : String) :
    List (String × InputDeclaration) :=
  current.inputs.items.filter fun e => m.open e.1 && typesCompatible e.2.type type

theorem mem_candidates {e : String × InputDeclaration} {type : String} :
    e ∈ candidates current m type ↔ current.inputs.lookup e.1 = some e.2 ∧ m.open e.1 = true ∧
      typesCompatible e.2.type type = true := by
  rw [candidates, List.mem_filter, Bool.and_eq_true, ← GoMap.mem_items]

/-- An output that is matched already or that no open input takes is passed over; a single
input gets it. -/
theorem resolveNext_ok_iff {σ : MapOrder} {x : UUID × String × OutputDeclaration} :
    resolveNext σ current m x = .ok m' ↔
      (m.used (x.1, x.2.1) = true ∨ candidates current m x.2.2.type = []) ∧ m' = m ∨
      m.used (x.1, x.2.1) = false ∧ ∃ e, candidates current m x.2.2.type = [e] ∧
        m' = m.record e.1 x.1 x.2.1 x.2.2 := by
  have hperm : ((σ.range current.inputs).filter fun e =>
      m.open e.1 && typesCompatible e.2.type x.2.2.type).Perm (candidates current m x.2.2.type) :=
    (σ.range_perm current.inputs).filter _
  unfold resolveNext resolveOutput
  change (if m.used (x.1, x.2.1) = true then Except.ok m else _) = _ ↔ _
  dsimp only
  by_cases hu : m.used (x.1, x.2.1) = true
  · rw [if_pos hu]
    constructor
    · intro h
      cases h
      exact .inl ⟨.inl hu, rfl⟩
    · rintro (⟨-, rfl⟩ | ⟨hf, -⟩)
      · rfl
      · rw [hu] at hf
        cases hf
  · rw [if_neg hu]
    rw [Bool.not_eq_true] at hu
    simp only [hu, Bool.false_eq_true, false_or, true_and]
    generalize (σ.range current.inputs).filter (fun e =>
      m.open e.1 && typesCompatible e.2.type x.2.2.type) = l at hperm ⊢
    generalize candidates current m x.2.2.type = c at hperm ⊢
    rcases l with _ | ⟨e, _ | ⟨e', l⟩⟩
    · obtain rfl := List.nil_perm.mp hperm
      constructor
      · intro h
        cases h
        exact .inl ⟨rfl, rfl⟩
      · rintro (⟨-, rfl⟩ | ⟨e, he, -⟩)
        · rfl
        · cases he
    · obtain rfl := List.singleton_perm.mp hperm
      constructor
      · intro h
        cases h
        exact .inr ⟨e, rfl, rfl⟩
      · rintro (⟨he, -⟩ | ⟨e', he, rfl⟩)
        · cases he
        · cases he
          rfl
    · have hlen := hperm.length_eq
      refine iff_of_false nofun ?_
      rintro (⟨h, -⟩ | ⟨e'', h, -⟩) <;> simp [h] at hlen

theorem bares_eq {σ : MapOrder} {refs : List InputRef}
    (h : ∀ r ∈ refs, r.block = none → r.id ∈ dependencies) :
    refs.foldlM (resolveBare σ dependencies current) m =
      (bareOutputs dependencies σ refs).foldlM (resolveNext σ current) m := by
  induction refs generalizing m with
  | nil => rfl
  | cons r refs ih =>
    have hrest := fun r' hr' => h r' (List.mem_cons_of_mem r hr')
    rw [List.foldlM_cons, bareOutputs, List.flatMap_cons, List.foldlM_append]
    unfold resolveBare
    cases hb : r.block with
    | some b => exact ih hrest
    | none =>
      obtain ⟨dep, hdep⟩ := GoMap.lookup_of_mem (h r List.mem_cons_self hb)
      simp only [hdep, Option.map_some, Option.getD_some, List.foldlM_map]
      exact bind_congr fun m₁ => ih hrest

theorem Matching.Sound.next (h : m.Sound) {σ : MapOrder} {x : UUID × String × OutputDeclaration}
    (hx : resolveNext σ current m x = .ok m') : m'.Sound ∧ m.Extends m' := by
  rcases resolveNext_ok_iff.mp hx with ⟨-, rfl⟩ | ⟨-, e, he, rfl⟩
  · exact ⟨h, .refl _⟩
  · have hmem : e ∈ candidates current m x.2.2.type := by
      rw [he]
      exact List.mem_singleton_self e
    exact ⟨h.record _ _ _ _, h.extends_record (mem_candidates.mp hmem).2.1 _ _ _⟩

theorem Matching.Sound.nexts (h : m.Sound) {σ : MapOrder}
    {l : List (UUID × String × OutputDeclaration)}
    (hl : l.foldlM (resolveNext σ current) m = .ok m') : m'.Sound ∧ m.Extends m' := by
  induction l generalizing m with
  | nil =>
    cases hl
    exact ⟨h, .refl _⟩
  | cons x l ih =>
    rw [List.foldlM_cons] at hl
    cases hx : resolveNext σ current m x with
    | error e =>
      rw [hx] at hl
      cases hl
    | ok m₁ =>
      rw [hx] at hl
      obtain ⟨hs, he⟩ := h.next hx
      obtain ⟨hs', he'⟩ := ih hs hl
      exact ⟨hs', he.trans he'⟩

/-- What step 2 adds comes from the outputs that it goes through, and was not matched before. -/
theorem nexts_origin {σ : MapOrder} {l : List (UUID × String × OutputDeclaration)}
    (hl : l.foldlM (resolveNext σ current) m = .ok m') {n : String} {ri : ResolvedInput}
    (hri : m'.resolved.lookup n = some ri) : m.resolved.lookup n = some ri ∨
      ((ri.sourceBlockID, ri.sourceOutputName, ri.sourceOutputDecl) ∈ l ∧
        m.used (ri.sourceBlockID, ri.sourceOutputName) = false) := by
  induction l generalizing m with
  | nil =>
    cases hl
    exact .inl hri
  | cons x l ih =>
    rw [List.foldlM_cons] at hl
    cases hx : resolveNext σ current m x with
    | error e =>
      rw [hx] at hl
      cases hl
    | ok m₁ =>
      rw [hx] at hl
      rcases resolveNext_ok_iff.mp hx with ⟨-, rfl⟩ | ⟨hu, e, -, rfl⟩
      · exact (ih hl).imp_right fun h => ⟨List.mem_cons_of_mem x h.1, h.2⟩
      · rcases ih hl with h | ⟨hmem, hfree⟩
        · rw [Matching.record_lookup] at h
          split_ifs at h with hn
          · cases h
            exact .inr ⟨List.mem_cons_self, hu⟩
          · exact .inl h
        · rw [Matching.record_used, Bool.or_eq_false_iff] at hfree
          exact .inr ⟨List.mem_cons_of_mem x hmem, hfree.2⟩

end

theorem mem_bareOutputs {dependencies : GoMap UUID BlockManifest} {σ : MapOrder}
    {refs : List InputRef} {x : UUID × String × OutputDeclaration} :
    x ∈ bareOutputs dependencies σ refs ↔ ∃ r ∈ refs, r.block = none ∧ x.1 = r.id ∧
      outputDecl dependencies (x.1, x.2.1) = some x.2.2 := by
  unfold bareOutputs outputDecl
  rw [List.mem_flatMap]
  refine exists_congr fun r => and_congr_right fun _ => ?_
  cases r.block with
  | some b => simp
  | none =>
    cases hdep : dependencies.lookup r.id with
    | none =>
      simp only [Option.map_none, Option.getD_none, List.not_mem_nil, true_and, false_iff, not_and]
      rintro hx
      rw [hx, hdep]
      exact nofun
    | some dep =>
      simp only [Option.map_some, Option.getD_some, List.mem_map, true_and]
      constructor
      · rintro ⟨o, ho, rfl⟩
        refine ⟨rfl, ?_⟩
        rw [hdep]
        exact (σ.mem_range _ _ _).mp ho
      · rintro ⟨hx, hd⟩
        rw [hx, hdep] at hd
        exact ⟨x.2, (σ.mem_range _ _ _).mpr hd, by rw [← hx]⟩

/-! The steps together. -/

theorem noSource_iff {σ : MapOrder} {current : BlockManifest} {m : Matching} :
    ((σ.range current.inputs).find? fun e => m.open e.1 && !isScalar e.2.type) = none ↔
      ∀ n input, current.inputs.lookup n = some input → m.open n = true →
        isScalar input.type = true := by
  rw [List.find?_eq_none]
  constructor
  · intro hall n input hi ho
    simpa [ho] using hall (n, input) ((σ.mem_range _ _ _).mpr hi)
  · intro hall e he
    have hi := (σ.mem_range current.inputs e.1 e.2).mp he
    rw [Bool.and_eq_true, Bool.not_eq_true']
    rintro ⟨ho, hn⟩
    rw [hall e.1 e.2 hi ho] at hn
    cases hn

theorem resolveInputs_iff {σ : MapOrder} {block : PipelineBlock}
    {dependencies : GoMap UUID BlockManifest} {current : BlockManifest}
    {out : GoMap String ResolvedInput} :
    resolveInputs σ block dependencies current = .ok out ↔ ∃ m₁ m₂,
      block.inputs.foldlM (resolveExplicit dependencies current) {} = .ok m₁ ∧
      block.inputs.foldlM (resolveBare σ dependencies current) m₁ = .ok m₂ ∧
      (∀ n input, current.inputs.lookup n = some input → m₂.open n = true →
        isScalar input.type = true) ∧ out = m₂.resolved := by
  unfold resolveInputs
  rw [IdleSteps.bind_ok]
  refine exists_congr fun m₁ => ?_
  rw [IdleSteps.bind_ok, ← exists_and_left]
  refine exists_congr fun m₂ => and_congr_right fun _ => and_congr_right fun _ => ?_
  rw [← noSource_iff (σ := σ)]
  split
  · rename_i hf
    exact iff_of_false nofun (by rw [hf]; nofun)
  · rename_i hf
    rw [hf]
    exact ⟨fun h => ⟨rfl, (Except.ok.inj h).symm⟩, fun h => congrArg _ h.2.symm⟩

end Spade
