import Spade.Core.Grounded
import Spade.Core.Sparing
import Spade.Lib.Greedy

set_option autoImplicit false

/-!
# Resolution and the order of maps

When `ResolveInputs` comes out the same in whatever order its loops meet the entries of the maps.
-/
namespace Spade
open Greedy

section
variable (dependencies : GoMap UUID BlockManifest) (current : BlockManifest)

/-- Step 2, where each reference meets the maps in an order of its own. -/
def resolveBares : (ℕ → MapOrder) → List InputRef → Matching → Except ResolveError Matching
  | _, [], m => .ok m
  | ρ, r :: refs, m =>
    resolveBare (ρ 0) dependencies current m r >>= resolveBares (fun k => ρ (k + 1)) refs

/-- Step 4. -/
def checkSources (σ : MapOrder) (m : Matching) : Except ResolveError (GoMap String ResolvedInput) :=
  match (σ.range current.inputs).find? fun e => m.open e.1 && !isScalar e.2.type with
  | some e => .error (.noSource e.1 e.2.type)
  | none => .ok m.resolved

/-- `ResolveInputs`, where not all loops meet the maps in one order. -/
def resolveInputsIn (ρ : ℕ → MapOrder) (σ : MapOrder) (block : PipelineBlock) :
    Except ResolveError (GoMap String ResolvedInput) := do
  let m₁ ← block.inputs.foldlM (resolveExplicit dependencies current) {}
  let m₂ ← resolveBares dependencies current ρ block.inputs m₁
  checkSources current σ m₂

/-- Failure, or the sources of the inputs. -/
def outcome (ρ : ℕ → MapOrder) (σ : MapOrder) (block : PipelineBlock) :
    Option (String → Option (UUID × String)) :=
  (resolveInputsIn dependencies current ρ σ block).toOption.map wireOf

def SameOutcome (block : PipelineBlock) : Prop :=
  ∀ ρ σ ρ' σ', outcome dependencies current ρ σ block = outcome dependencies current ρ' σ' block

/-- The outputs of the blocks that the bare references name, reference by reference. -/
def bareLists : (ℕ → MapOrder) → List InputRef → List (List (UUID × String × OutputDeclaration))
  | _, [] => []
  | ρ, r :: refs =>
    if r.block = none then
      outputsIn dependencies (ρ 0) r.id :: bareLists (fun k => ρ (k + 1)) refs
    else bareLists (fun k => ρ (k + 1)) refs

/-- Those that no explicit reference uses. -/
def unmatched (m : Matching) (l : List (UUID × String × OutputDeclaration)) :
    List (UUID × String × OutputDeclaration) :=
  l.filter fun x => !m.used (x.1, x.2.1)

/-- The outputs of the bare references, as step 2 meets them. -/
def met (ρ : ℕ → MapOrder) (refs : List InputRef) (m : Matching) :
    List (List (UUID × String × OutputDeclaration)) :=
  (bareLists dependencies ρ refs).map (unmatched m)

def accepts (x : UUID × String × OutputDeclaration) (n : String) : Bool :=
  (current.inputs.lookup n).any fun input => typesCompatible input.type x.2.2.type

def openInputs (m : Matching) : List String := current.inputs.keys.filter fun n => m.open n

/-- The input cannot come from the arguments. -/
def NeedsSource (n : String) : Prop :=
  ∃ input, current.inputs.lookup n = some input ∧ isScalar input.type = false

end

/-- An expansion suits most inputs, then a file, then the other types their own. -/
def breadth (x : UUID × String × OutputDeclaration) : ℕ :=
  if x.2.2.type = "expansion" then 2 else if x.2.2.type = "file" then 1 else 0

def narrowFirst (l : List (UUID × String × OutputDeclaration)) :
    List (UUID × String × OutputDeclaration) :=
  l.insertionSort fun x y => breadth x ≤ breadth y

variable {dependencies : GoMap UUID BlockManifest} {current : BlockManifest}
  {ρ : ℕ → MapOrder} {σ : MapOrder} {block : PipelineBlock} {m m' m₁ : Matching}

/-- One order for all loops is one case of this. -/
theorem resolveInputs_eq (σ : MapOrder) (block : PipelineBlock) :
    resolveInputs σ block dependencies current =
      resolveInputsIn dependencies current (fun _ => σ) σ block := by
  have hbares : ∀ (refs : List InputRef) m, refs.foldlM (resolveBare σ dependencies current) m =
      resolveBares dependencies current (fun _ => σ) refs m := by
    intro refs
    induction refs with
    | nil => exact fun m => rfl
    | cons r refs ih =>
      intro m
      rw [List.foldlM_cons, resolveBares]
      exact bind_congr ih
  unfold resolveInputs resolveInputsIn
  simp only [hbares]
  rfl

theorem checkSources_iff {out : GoMap String ResolvedInput} :
    checkSources current σ m = .ok out ↔
      (∀ n input, current.inputs.lookup n = some input → m.open n = true →
        isScalar input.type = true) ∧ out = m.resolved := by
  unfold checkSources
  rw [← noSource_iff (σ := σ)]
  split
  · rename_i hf
    exact iff_of_false nofun (by rw [hf]; nofun)
  · rename_i hf
    rw [hf]
    exact ⟨fun h => ⟨rfl, (Except.ok.inj h).symm⟩, fun h => congrArg _ h.2.symm⟩

theorem resolveInputsIn_iff {out : GoMap String ResolvedInput} :
    resolveInputsIn dependencies current ρ σ block = .ok out ↔ ∃ m₁ m₂,
      block.inputs.foldlM (resolveExplicit dependencies current) {} = .ok m₁ ∧
      resolveBares dependencies current ρ block.inputs m₁ = .ok m₂ ∧
      (∀ n input, current.inputs.lookup n = some input → m₂.open n = true →
        isScalar input.type = true) ∧ out = m₂.resolved := by
  unfold resolveInputsIn
  simp only [IdleSteps.bind_ok, checkSources_iff, exists_and_left]

/-! Step 2 as taking by turns. -/

theorem nexts_order (σ τ : MapOrder) {l : List (UUID × String × OutputDeclaration)} :
    l.foldlM (resolveNext σ current) m = .ok m' ↔ l.foldlM (resolveNext τ current) m = .ok m' := by
  induction l generalizing m with
  | nil => rfl
  | cons x l ih =>
    rw [IdleSteps.foldlM_cons_ok, IdleSteps.foldlM_cons_ok]
    exact exists_congr fun m₁ => and_congr
      (resolveNext_ok_iff.trans resolveNext_ok_iff.symm) ih

theorem resolveBare_iff {r : InputRef} (hb : r.block = none) (hknown : r.id ∈ dependencies) :
    resolveBare σ dependencies current m r =
      (outputsIn dependencies σ r.id).foldlM (resolveNext σ current) m := by
  obtain ⟨dep, hdep⟩ := GoMap.lookup_of_mem hknown
  unfold resolveBare outputsIn
  simp only [hb, hdep, Option.map_some, Option.getD_some, List.foldlM_map]
  rfl

theorem resolveBares_iff {refs : List InputRef}
    (hknown : ∀ r ∈ refs, r.block = none → r.id ∈ dependencies) :
    resolveBares dependencies current ρ refs m = .ok m' ↔
      (bareLists dependencies ρ refs).flatten.foldlM (resolveNext .stored current) m = .ok m' := by
  induction refs generalizing ρ m with
  | nil => rfl
  | cons r refs ih =>
    obtain ⟨hr, hrest⟩ := List.forall_mem_cons.mp hknown
    rw [resolveBares, bareLists]
    by_cases hb : r.block = none
    · rw [if_pos hb, List.flatten_cons, List.foldlM_append, resolveBare_iff hb (hr hb)]
      have hfirst : ∀ m₁, (outputsIn dependencies (ρ 0) r.id).foldlM (resolveNext (ρ 0) current) m =
          .ok m₁ ↔ (outputsIn dependencies (ρ 0) r.id).foldlM (resolveNext .stored current) m =
            .ok m₁ := fun m₁ => nexts_order _ _
      cases hl : (outputsIn dependencies (ρ 0) r.id).foldlM (resolveNext (ρ 0) current) m with
      | ok m₁ =>
        rw [(hfirst m₁).mp hl]
        exact ih hrest
      | error e =>
        cases hl' : (outputsIn dependencies (ρ 0) r.id).foldlM (resolveNext .stored current) m with
        | ok m₁ =>
          rw [(hfirst m₁).mpr hl'] at hl
          cases hl
        | error e' => exact iff_of_false nofun nofun
    · obtain ⟨b, hsome⟩ := Option.ne_none_iff_exists'.mp hb
      rw [if_neg hb]
      unfold resolveBare
      rw [hsome]
      exact ih hrest

/-- Outputs that are matched from the start on are passed over. -/
theorem nexts_unmatched {l : List (UUID × String × OutputDeclaration)} :
    l.foldlM (resolveNext σ current) m = (unmatched m l).foldlM (resolveNext σ current) m := by
  have key : ∀ (l : List (UUID × String × OutputDeclaration)) m₁,
      (∀ x, m.used x = true → m₁.used x = true) → l.foldlM (resolveNext σ current) m₁ =
        (unmatched m l).foldlM (resolveNext σ current) m₁ := by
    intro l
    induction l with
    | nil => exact fun m₁ _ => rfl
    | cons x l ih =>
      intro m₁ hm₁
      rw [List.foldlM_cons, unmatched, List.filter_cons]
      by_cases hu : m.used (x.1, x.2.1) = true
      · have hidle : resolveNext σ current m₁ x = .ok m₁ :=
          resolveNext_ok_iff.mpr (.inl ⟨.inl (hm₁ _ hu), rfl⟩)
        rw [hidle, if_neg (by simp [hu])]
        exact ih m₁ hm₁
      · rw [if_pos (by simp [hu]), List.foldlM_cons]
        cases hx : resolveNext σ current m₁ x with
        | error e => rfl
        | ok m₂ =>
          refine ih m₂ fun y hy => ?_
          rcases resolveNext_ok_iff.mp hx with ⟨-, rfl⟩ | ⟨-, e, -, rfl⟩
          · exact hm₁ y hy
          · rw [Matching.record_used, hm₁ y hy, Bool.or_true]
  exact key l m fun _ h => h

def Matching.recordPair (m : Matching) (p : String × UUID × String × OutputDeclaration) : Matching :=
  m.record p.1 p.2.1 p.2.2.1 p.2.2.2

theorem candidates_names (x : UUID × String × OutputDeclaration) :
    (candidates current m x.2.2.type).map Prod.fst =
      (openInputs current m).filter (accepts current x) := by
  unfold openInputs candidates
  rw [List.filter_filter, ← GoMap.items_keys, List.filter_map]
  refine congrArg _ (List.filter_congr fun e he => ?_)
  have hl := (GoMap.mem_items _ _ _).mp he
  rw [Function.comp_apply, accepts, hl, Option.any_some, Bool.and_comm]

theorem openInputs_record (x : UUID × String × OutputDeclaration) (n : String) :
    openInputs current (m.recordPair (n, x)) = (openInputs current m).filter (· ≠ n) := by
  unfold openInputs
  rw [List.filter_filter]
  exact List.filter_congr fun k _ => Matching.record_open _ _ _ _ _

/-- Outputs of one name are one. -/
def Keyed (l : List (UUID × String × OutputDeclaration)) : Prop :=
  ∀ x ∈ l, ∀ y ∈ l, (x.1, x.2.1) = (y.1, y.2.1) → x = y

theorem candidates_record (n : String) (x : UUID × String × OutputDeclaration) (type : String) :
    candidates current (m.recordPair (n, x)) type =
      (candidates current m type).filter fun e => e.1 ≠ n := by
  unfold candidates
  rw [List.filter_filter]
  refine List.filter_congr fun e _ => ?_
  rw [Matching.recordPair, Matching.record_open, Bool.and_assoc]

theorem nexts_run {l : List (UUID × String × OutputDeclaration)} (hkey : Keyed l)
    (hidle : ∀ x ∈ l, m.used (x.1, x.2.1) = true → candidates current m x.2.2.type = []) :
    l.foldlM (resolveNext σ current) m = .ok m' ↔
      ∃ ps, run (accepts current) (openInputs current m) l = some ps ∧
        m' = ps.foldl Matching.recordPair m := by
  induction l generalizing m with
  | nil =>
    constructor
    · intro h
      cases h
      exact ⟨[], rfl, rfl⟩
    · rintro ⟨ps, hps, rfl⟩
      cases hps
      rfl
  | cons x l ih =>
    have hkey' : Keyed l := fun y hy z hz =>
      hkey y (List.mem_cons_of_mem _ hy) z (List.mem_cons_of_mem _ hz)
    have hnames : (candidates current m x.2.2.type).map Prod.fst =
        (openInputs current m).filter (accepts current x) := candidates_names x
    have hafter : ∀ e, candidates current m x.2.2.type = [e] → ∀ y ∈ l,
        (m.recordPair (e.1, x)).used (y.1, y.2.1) = true →
          candidates current (m.recordPair (e.1, x)) y.2.2.type = [] := by
      intro e he y hy hu
      rw [candidates_record]
      rw [Matching.recordPair, Matching.record_used, Bool.or_eq_true, decide_eq_true_eq] at hu
      rcases hu with hxy | hu
      · rw [hkey y (List.mem_cons_of_mem _ hy) x List.mem_cons_self hxy, he]
        simp
      · rw [hidle y (List.mem_cons_of_mem _ hy) hu, List.filter_nil]
    rw [IdleSteps.foldlM_cons_ok]
    simp only [resolveNext_ok_iff, run_cons]
    constructor
    · rintro ⟨m₂, ⟨hx, rfl⟩ | ⟨-, e, he, rfl⟩, hrest⟩
      · have hnone : candidates current m₂ x.2.2.type = [] :=
          hx.elim (hidle x List.mem_cons_self) id
        obtain ⟨ps, hps, rfl⟩ := (ih hkey' fun y hy => hidle y (List.mem_cons_of_mem _ hy)).mp hrest
        exact ⟨ps, .inl ⟨by rw [← hnames, hnone, List.map_nil], hps⟩, rfl⟩
      · obtain ⟨ps, hps, rfl⟩ := (ih hkey' (hafter e he)).mp hrest
        rw [openInputs_record] at hps
        exact ⟨_, .inr ⟨e.1, ps, by rw [← hnames, he]; rfl, hps, rfl⟩, rfl⟩
    · rintro ⟨_, ⟨hnone, hps⟩ | ⟨n, ps, hone, hps, rfl⟩, rfl⟩
      · rw [← hnames, List.map_eq_nil_iff] at hnone
        exact ⟨m, .inl ⟨.inr hnone, rfl⟩,
          (ih hkey' fun y hy => hidle y (List.mem_cons_of_mem _ hy)).mpr ⟨_, hps, rfl⟩⟩
      · rw [← hnames] at hone
        obtain ⟨e, he, rfl⟩ := List.map_eq_singleton_iff.mp hone
        have hfree : m.used (x.1, x.2.1) = false := by
          by_contra hu
          rw [Bool.not_eq_false] at hu
          rw [hidle x List.mem_cons_self hu] at he
          cases he
        rw [← openInputs_record (x := x)] at hps
        exact ⟨_, .inr ⟨hfree, e, he, rfl⟩, (ih hkey' (hafter e he)).mpr ⟨ps, hps, rfl⟩⟩

/-! What is resolved in the end. -/

theorem open_pairs (ps : List (String × UUID × String × OutputDeclaration)) (n : String) :
    (ps.foldl Matching.recordPair m).open n = true ↔ n ∉ ps.map Prod.fst ∧ m.open n = true := by
  induction ps generalizing m with
  | nil => simp
  | cons p ps ih =>
    rw [List.foldl_cons, ih, Matching.recordPair, Matching.record_open, Bool.and_eq_true,
      decide_eq_true_eq, List.map_cons, List.mem_cons, not_or]
    tauto

theorem wire_pairs {ps : List (String × UUID × String × OutputDeclaration)}
    (hn : (ps.map Prod.fst).Nodup) {n : String} {y : UUID × String} :
    wireOf (ps.foldl Matching.recordPair m).resolved n = some y ↔
      (∃ x, (n, x) ∈ ps ∧ (x.1, x.2.1) = y) ∨
        n ∉ ps.map Prod.fst ∧ wireOf m.resolved n = some y := by
  induction ps generalizing m with
  | nil => simp
  | cons p ps ih =>
    obtain ⟨k, x⟩ := p
    rw [List.map_cons, List.nodup_cons] at hn
    rw [List.foldl_cons, ih hn.2, Matching.recordPair, Matching.wireOf_record, List.map_cons,
      List.mem_cons, not_or]
    by_cases hk : n = k
    · subst hk
      rw [if_pos rfl]
      constructor
      · rintro (⟨y', hy', rfl⟩ | ⟨-, hy⟩)
        · exact .inl ⟨y', List.mem_cons_of_mem _ hy', rfl⟩
        · exact .inl ⟨x, List.mem_cons_self, Option.some.inj hy⟩
      · rintro (⟨y', hy', rfl⟩ | ⟨⟨hne, -⟩, -⟩)
        · rcases List.mem_cons.mp hy' with heq | hy'
          · cases heq
            exact .inr ⟨hn.1, rfl⟩
          · exact .inl ⟨y', hy', rfl⟩
        · exact absurd rfl hne
    · rw [if_neg hk]
      have hmem : ∀ y', (n, y') ∈ (k, x) :: ps ↔ (n, y') ∈ ps := by
        intro y'
        rw [List.mem_cons, or_iff_right]
        exact fun heq => hk (congrArg Prod.fst heq)
      simp only [hmem, hk, not_false_iff, true_and]

theorem outputsIn_decl {x : UUID × String × OutputDeclaration} {id : UUID}
    (h : x ∈ outputsIn dependencies σ id) : outputDecl dependencies (x.1, x.2.1) = some x.2.2 := by
  unfold outputsIn at h
  cases hd : dependencies.lookup id with
  | none => simp [hd] at h
  | some dep =>
    rw [hd, Option.map_some, Option.getD_some] at h
    obtain ⟨o, ho, rfl⟩ := List.mem_map.mp h
    unfold outputDecl
    rw [hd]
    exact (σ.mem_range _ _ _).mp ho

/-- The outputs that are declared are one by name. -/
def Declared (dependencies : GoMap UUID BlockManifest)
    (l : List (UUID × String × OutputDeclaration)) : Prop :=
  ∀ x ∈ l, outputDecl dependencies (x.1, x.2.1) = some x.2.2

theorem Declared.keyed {l : List (UUID × String × OutputDeclaration)}
    (h : Declared dependencies l) : Keyed l := by
  intro x hx y hy hxy
  have hboth := h x hx
  rw [hxy, h y hy, Option.some_inj] at hboth
  rw [Prod.mk.injEq] at hxy
  exact Prod.ext hxy.1 (Prod.ext hxy.2 hboth.symm)

theorem declared_met {refs : List InputRef} :
    Declared dependencies (met dependencies ρ refs m).flatten := by
  have hlists : ∀ (refs : List InputRef) ρ, ∀ l ∈ bareLists dependencies ρ refs,
      Declared dependencies l := by
    intro refs
    induction refs with
    | nil => exact fun ρ l hl => (List.not_mem_nil hl).elim
    | cons r refs ih =>
      intro ρ l hl
      rw [bareLists] at hl
      split_ifs at hl
      · rcases List.mem_cons.mp hl with rfl | hl
        · exact fun x hx => outputsIn_decl hx
        · exact ih _ l hl
      · exact ih _ l hl
  intro x hx
  obtain ⟨l, hl, hxl⟩ := List.mem_flatten.mp hx
  obtain ⟨l', hl', rfl⟩ := List.mem_map.mp hl
  exact hlists refs ρ l' hl' x (List.mem_filter.mp hxl).1

theorem unused_met {refs : List InputRef} {x : UUID × String × OutputDeclaration}
    (hx : x ∈ (met dependencies ρ refs m).flatten) : m.used (x.1, x.2.1) = false := by
  obtain ⟨l, hl, hxl⟩ := List.mem_flatten.mp hx
  obtain ⟨l', -, rfl⟩ := List.mem_map.mp hl
  simpa using (List.mem_filter.mp hxl).2

theorem unmatched_flatten (ls : List (List (UUID × String × OutputDeclaration))) :
    unmatched m ls.flatten = (ls.map (unmatched m)).flatten := by
  unfold unmatched
  rw [List.filter_flatten]

theorem outcome_iff (hknown : ∀ r ∈ block.inputs, r.block = none → r.id ∈ dependencies)
    (hstep : block.inputs.foldlM (resolveExplicit dependencies current) {} = .ok m₁)
    {w : String → Option (UUID × String)} :
    outcome dependencies current ρ σ block = some w ↔
      ∃ ps, Succeeds (accepts current) (NeedsSource current) (openInputs current m₁)
        (met dependencies ρ block.inputs m₁).flatten ps ∧
          w = wireOf (ps.foldl Matching.recordPair m₁).resolved := by
  have hrun : ∀ m₂, resolveBares dependencies current ρ block.inputs m₁ = .ok m₂ ↔
      ∃ ps, run (accepts current) (openInputs current m₁)
        (met dependencies ρ block.inputs m₁).flatten = some ps ∧
          m₂ = ps.foldl Matching.recordPair m₁ := by
    intro m₂
    rw [resolveBares_iff hknown, nexts_unmatched, unmatched_flatten]
    have hdecl : Declared dependencies (met dependencies ρ block.inputs m₁).flatten := declared_met
    refine nexts_run hdecl.keyed fun x hx hu => ?_
    rw [unused_met hx] at hu
    cases hu
  have hneeds : ∀ ps : List (String × UUID × String × OutputDeclaration),
      (∀ n input, current.inputs.lookup n = some input →
        (ps.foldl Matching.recordPair m₁).open n = true → isScalar input.type = true) ↔
      ∀ n ∈ openInputs current m₁, NeedsSource current n → n ∈ ps.map Prod.fst := by
    intro ps
    simp only [open_pairs]
    constructor
    · rintro hall n hn ⟨input, hi, hs⟩
      by_contra hno
      rw [hall n input hi ⟨hno, (List.mem_filter.mp hn).2⟩] at hs
      cases hs
    · rintro hall n input hi ⟨hno, hopen⟩
      by_contra hs
      rw [Bool.not_eq_true] at hs
      exact hno (hall n (List.mem_filter.mpr ⟨GoMap.mem_of_lookup hi, hopen⟩) ⟨input, hi, hs⟩)
  have hsome : outcome dependencies current ρ σ block = some w ↔ ∃ out,
      resolveInputsIn dependencies current ρ σ block = .ok out ∧ w = wireOf out := by
    unfold outcome
    cases resolveInputsIn dependencies current ρ σ block <;> simp [Except.toOption, eq_comm]
  rw [hsome]
  simp only [resolveInputsIn_iff, hstep]
  constructor
  · rintro ⟨out, ⟨_, m₂, h, hb, hall, rfl⟩, rfl⟩
    cases h
    obtain ⟨ps, hps, rfl⟩ := (hrun m₂).mp hb
    exact ⟨ps, ⟨hps, (hneeds ps).mp hall⟩, rfl⟩
  · rintro ⟨ps, ⟨hps, hall⟩, rfl⟩
    exact ⟨_, ⟨m₁, _, rfl, (hrun _).mpr ⟨ps, hps, rfl⟩, (hneeds ps).mpr hall, rfl⟩, rfl⟩

/-! Every order of the outputs of each reference is met. -/

section
open Classical in
/-- The order that a function of lists gives. -/
noncomputable def MapOrder.of {B : Type} (f : List B → List B) (hf : ∀ l, (f l).Perm l) :
    MapOrder where
  perm {A} l := if h : A = B then cast (by rw [h]) (f (cast (by rw [h]) l)) else l
  perm_spec {A} l := by
    by_cases h : A = B
    · subst h
      rw [dif_pos rfl]
      exact hf l
    · rw [dif_neg h]

theorem MapOrder.of_perm {B : Type} {f : List B → List B} (hf : ∀ l, (f l).Perm l) (l : List B) :
    (MapOrder.of f hf).perm l = f l := by
  unfold MapOrder.of
  dsimp only
  rw [dif_pos rfl]
  rfl

open Classical in
theorem exists_order {B : Type} {l l' : List B} (h : l'.Perm l) : ∃ σ : MapOrder, σ.perm l = l' := by
  refine ⟨.of (fun k => if k = l then l' else k) fun k => ?_, ?_⟩
  · split_ifs with hk
    · rw [hk]
      exact h
    · exact .refl k
  · rw [MapOrder.of_perm, if_pos rfl]

end

theorem met_order (ρ : ℕ → MapOrder) (refs : List InputRef) :
    OrderOf (met dependencies ρ refs m) (met dependencies (fun _ => .stored) refs m) := by
  induction refs generalizing ρ with
  | nil => exact .nil
  | cons r refs ih =>
    unfold met
    rw [bareLists, bareLists]
    split_ifs
    · refine .cons (List.Perm.filter _ ?_) (ih _)
      unfold outputsIn
      cases dependencies.lookup r.id with
      | none => exact .refl _
      | some dep => exact ((ρ 0).range_perm dep.outputs).map _
    · exact ih _

theorem outputs_order {u : UUID} {l : List (UUID × String × OutputDeclaration)}
    (hl : l.Perm (unmatched m (outputsIn dependencies .stored u))) :
    ∃ σ : MapOrder, unmatched m (outputsIn dependencies σ u) = l := by
  unfold outputsIn at hl ⊢
  cases hdep : dependencies.lookup u with
  | none =>
    rw [hdep] at hl
    exact ⟨.stored, (List.perm_nil.mp hl).symm⟩
  | some dep =>
    rw [hdep] at hl
    simp only [Option.map_some, Option.getD_some] at hl ⊢
    have hl' : l.Perm ((dep.outputs.items.filter fun o => !m.used (u, o.1)).map
        fun o => (u, o)) := by
      rw [unmatched, List.filter_map] at hl
      exact hl
    have hback : (l.map Prod.snd).map (fun o => (u, o)) = l := by
      rw [List.map_map]
      refine (List.map_congr_left fun x hx => ?_).trans (List.map_id l)
      obtain ⟨o, -, rfl⟩ := List.mem_map.mp (hl'.mem_iff.mp hx)
      rfl
    have hsnd := hl'.map Prod.snd
    rw [List.map_map, show Prod.snd ∘ (fun o : String × OutputDeclaration => (u, o)) = id
      from rfl, List.map_id] at hsnd
    -- The outputs that are used already come last.
    obtain ⟨σ, hσ⟩ := exists_order (l := dep.outputs.items)
      ((hsnd.append_right _).trans (List.filter_append_perm _ _))
    refine ⟨σ, ?_⟩
    rw [MapOrder.range, hσ, List.map_append, hback, unmatched, List.filter_append,
      List.filter_eq_self.mpr, List.filter_eq_nil_iff.mpr, List.append_nil]
    · intro x hx
      obtain ⟨o, ho, rfl⟩ := List.mem_map.mp hx
      simpa using (List.mem_filter.mp ho).2
    · intro x hx
      obtain ⟨o, ho, rfl⟩ := List.mem_map.mp (hl'.mem_iff.mp hx)
      exact (List.mem_filter.mp ho).2

theorem order_met {refs : List InputRef} {os : List (List (UUID × String × OutputDeclaration))}
    (h : OrderOf os (met dependencies (fun _ => .stored) refs m)) :
    ∃ ρ, met dependencies ρ refs m = os := by
  induction refs generalizing os with
  | nil =>
    cases h
    exact ⟨fun _ => .stored, rfl⟩
  | cons r refs ih =>
    unfold met at h ⊢
    simp only [bareLists] at h ⊢
    by_cases hb : r.block = none
    · simp only [if_pos hb, List.map_cons] at h ⊢
      cases h with
      | @cons l _ os _ hl hos =>
        obtain ⟨ρ, rfl⟩ := ih hos
        obtain ⟨σ, hσ⟩ := outputs_order hl
        refine ⟨fun k => if k = 0 then σ else ρ (k - 1), ?_⟩
        rw [← hσ]
        rfl
    · simp only [if_neg hb] at h ⊢
      obtain ⟨ρ, hρ⟩ := ih h
      exact ⟨fun k => ρ (k - 1), hρ⟩

/-! The order does not matter. -/

theorem mem_of_wires {ps ps' : List (String × UUID × String × OutputDeclaration)}
    {l l' : List (UUID × String × OutputDeclaration)} (hsound : m.Sound)
    (hps : run (accepts current) (openInputs current m) l = some ps) (hl : Declared dependencies l)
    (hps' : run (accepts current) (openInputs current m) l' = some ps')
    (hl' : Declared dependencies l')
    (hw : wireOf (ps.foldl Matching.recordPair m).resolved =
      wireOf (ps'.foldl Matching.recordPair m).resolved) : ∀ x ∈ ps, x ∈ ps' := by
  rintro ⟨n, x⟩ hx
  obtain ⟨hall, hn⟩ := run_spec hps
  obtain ⟨hall', hn'⟩ := run_spec hps'
  obtain ⟨hopen, hin, -⟩ := hall _ hx
  have hwire := (wire_pairs (m := m) hn).mpr (.inl ⟨x, hx, rfl⟩)
  rw [hw, wire_pairs hn'] at hwire
  rcases hwire with ⟨y, hy, hyx⟩ | ⟨-, hold⟩
  · have hkeyed : outputDecl dependencies (y.1, y.2.1) = some y.2.2 := hl' y (hall' _ hy).2.1
    rw [hyx, hl x hin, Option.some_inj] at hkeyed
    rw [Prod.mk.injEq] at hyx
    obtain rfl : y = x := Prod.ext hyx.1 (Prod.ext hyx.2 hkeyed.symm)
    exact hy
  · have hnone : n ∉ m.resolved := (hsound.inputs n).mp (List.mem_filter.mp hopen).2
    unfold wireOf at hold
    rw [AList.lookup_eq_none.mpr hnone] at hold
    cases hold

theorem wires_of_mem {ps ps' : List (String × UUID × String × OutputDeclaration)}
    (hn : (ps.map Prod.fst).Nodup) (hn' : (ps'.map Prod.fst).Nodup) (h : ∀ x, x ∈ ps ↔ x ∈ ps') :
    wireOf (ps.foldl Matching.recordPair m).resolved =
      wireOf (ps'.foldl Matching.recordPair m).resolved := by
  funext n
  refine Option.ext fun y => ?_
  have hfst : n ∈ ps.map Prod.fst ↔ n ∈ ps'.map Prod.fst := by
    simp only [List.mem_map, h]
  rw [wire_pairs hn, wire_pairs hn', hfst]
  simp only [h]

theorem sound_explicit
    (hstep : block.inputs.foldlM (resolveExplicit dependencies current) {} = .ok m₁) : m₁.Sound := by
  have hstart : ∀ n, ({} : Matching).open n = true ↔ n ∉ ([] : List String) := by
    simp [Matching.open]
  obtain ⟨l, hl, rfl⟩ := (assigns_iff hstart).mp hstep
  exact (foldl_choose hl.spec.2 Matching.sound_empty).1

theorem sameOutcome_iff_runs (hknown : ∀ r ∈ block.inputs, r.block = none → r.id ∈ dependencies)
    (hstep : block.inputs.foldlM (resolveExplicit dependencies current) {} = .ok m₁) :
    SameOutcome dependencies current block ↔
      ∀ os os', OrderOf os (met dependencies (fun _ => .stored) block.inputs m₁) →
        OrderOf os' (met dependencies (fun _ => .stored) block.inputs m₁) → ∀ ps,
        Succeeds (accepts current) (NeedsSource current) (openInputs current m₁) os.flatten ps →
          ∃ ps', Succeeds (accepts current) (NeedsSource current) (openInputs current m₁)
            os'.flatten ps' ∧ ∀ x, x ∈ ps ↔ x ∈ ps' := by
  have hsound := sound_explicit hstep
  constructor
  · intro hsame os os' hos hos' ps hps
    obtain ⟨ρ, rfl⟩ := order_met hos
    obtain ⟨ρ', rfl⟩ := order_met hos'
    have hout := (outcome_iff (σ := .stored) hknown hstep).mpr ⟨ps, hps, rfl⟩
    rw [hsame ρ .stored ρ' .stored] at hout
    obtain ⟨ps', hps', hw⟩ := (outcome_iff hknown hstep).mp hout
    refine ⟨ps', hps', fun x => ⟨mem_of_wires hsound hps.1 declared_met hps'.1 declared_met hw x,
      mem_of_wires hsound hps'.1 declared_met hps.1 declared_met hw.symm x⟩⟩
  · intro hall
    have hhalf : ∀ ρ σ ρ' σ' w, outcome dependencies current ρ σ block = some w →
        outcome dependencies current ρ' σ' block = some w := by
      intro ρ σ ρ' σ' w hw
      obtain ⟨ps, hps, rfl⟩ := (outcome_iff hknown hstep).mp hw
      obtain ⟨ps', hps', hmem⟩ := hall _ _ (met_order ρ _) (met_order ρ' _) ps hps
      exact (outcome_iff hknown hstep).mpr
        ⟨ps', hps', wires_of_mem (run_spec hps.1).2 (run_spec hps'.1).2 hmem⟩
    exact fun ρ σ ρ' σ' => Option.ext fun w => ⟨hhalf ρ σ ρ' σ' w, hhalf ρ' σ' ρ σ w⟩

/-! What suits a type. -/

theorem typesCompatible_iff {i o : String} : typesCompatible i o = true ↔ i = o ∨
    o = "expansion" ∧ (i = "file" ∨ i = "directory" ∨ i = "collection") ∨
      o = "file" ∧ i = "collection" := by
  unfold typesCompatible
  split_ifs with h₁ h₂ h₃
  · exact iff_of_true rfl (.inl h₁)
  · exact iff_of_true rfl (.inr (.inl h₂))
  · exact iff_of_true rfl (.inr (.inr h₃))
  · exact iff_of_false id (not_or.mpr ⟨h₁, not_or.mpr ⟨h₂, h₃⟩⟩)

theorem narrow_of_breadth {x y : UUID × String × OutputDeclaration} (h : breadth x ≤ breadth y) :
    Narrow (accepts current) x y := by
  have hlift : (∀ i, typesCompatible i x.2.2.type = true → typesCompatible i y.2.2.type = true) ∨
      (∀ i, typesCompatible i x.2.2.type = true → typesCompatible i y.2.2.type = false) := by
    unfold breadth at h
    by_cases hexp : x.2.2.type = "expansion"
    · rw [if_pos hexp] at h
      split_ifs at h with hy
      · exact .inl fun i hi => by rwa [hy, ← hexp]
      · omega
      · omega
    rw [if_neg hexp] at h
    by_cases hfile : x.2.2.type = "file"
    · rw [if_pos hfile] at h
      refine .inl fun i hi => typesCompatible_iff.mpr ?_
      rw [typesCompatible_iff, hfile] at hi
      have hi' : i = "file" ∨ i = "collection" := by simpa using hi
      split_ifs at h with hy hy'
      · exact .inr (.inl ⟨hy, hi'.imp_right .inr⟩)
      · exact hi'.imp (fun hi => hi.trans hy'.symm) fun hi => .inr ⟨hy', hi⟩
      · omega
    · have hown : ∀ i, typesCompatible i x.2.2.type = true → i = x.2.2.type := by
        intro i hi
        simpa [hexp, hfile] using typesCompatible_iff.mp hi
      by_cases hboth : typesCompatible x.2.2.type y.2.2.type = true
      · exact .inl fun i hi => by rwa [hown i hi]
      · exact .inr fun i hi => by rwa [hown i hi, ← Bool.not_eq_true]
  rcases hlift with hsub | hdis
  · refine .inl fun n hn => ?_
    unfold accepts at hn ⊢
    cases hl : current.inputs.lookup n with
    | none =>
      rw [hl] at hn
      cases hn
    | some input =>
      rw [hl] at hn
      exact hsub _ hn
  · refine .inr fun n hn => ?_
    unfold accepts at hn ⊢
    cases hl : current.inputs.lookup n with
    | none => rfl
    | some input =>
      rw [hl] at hn
      exact hdis _ hn

theorem narrowFirst_spec (gs : List (List (UUID × String × OutputDeclaration))) :
    NarrowFirst (accepts current) gs (gs.map narrowFirst) := by
  have : Std.Total fun x y : UUID × String × OutputDeclaration => breadth x ≤ breadth y :=
    ⟨fun x y => le_total _ _⟩
  have : IsTrans (UUID × String × OutputDeclaration) fun x y => breadth x ≤ breadth y :=
    ⟨fun _ _ _ => le_trans⟩
  unfold NarrowFirst
  rw [List.forall₂_map_right_iff]
  refine List.forall₂_same.mpr fun g _ => ⟨(g.perm_insertionSort _).symm, ?_⟩
  exact (List.pairwise_insertionSort _ g).imp narrow_of_breadth

/-- A reference is unknown or step 1 fails; or it is clear, reference by reference, which input
each output takes; or not even with narrow types first do all inputs get a source. -/
def Orderly (dependencies : GoMap UUID BlockManifest) (current : BlockManifest)
    (block : PipelineBlock) : Prop :=
  (∃ r ∈ block.inputs, r.block = none ∧ r.id ∉ dependencies) ∨
  (∀ m, block.inputs.foldlM (resolveExplicit dependencies current) {} ≠ .ok m) ∨
  ∃ m, block.inputs.foldlM (resolveExplicit dependencies current) {} = .ok m ∧
    (Greedy.Clear (accepts current) (openInputs current m)
      (met dependencies (fun _ => .stored) block.inputs m) ∨
    ¬∃ ps, Succeeds (accepts current) (NeedsSource current) (openInputs current m)
      ((met dependencies (fun _ => .stored) block.inputs m).map narrowFirst).flatten ps)

theorem resolveBares_known {refs : List InputRef}
    (h : resolveBares dependencies current ρ refs m = .ok m') :
    ∀ r ∈ refs, r.block = none → r.id ∈ dependencies := by
  induction refs generalizing ρ m with
  | nil => exact fun r hr => (List.not_mem_nil hr).elim
  | cons r refs ih =>
    rw [resolveBares] at h
    cases hr : resolveBare (ρ 0) dependencies current m r with
    | error e =>
      rw [hr] at h
      cases h
    | ok m₁ =>
      rw [hr] at h
      refine List.forall_mem_cons.mpr ⟨fun hb => ?_, ih h⟩
      unfold resolveBare at hr
      rw [hb] at hr
      cases hd : dependencies.lookup r.id with
      | none =>
        rw [hd] at hr
        cases hr
      | some dep => exact GoMap.mem_of_lookup hd

theorem outcome_none (h : ∀ out, resolveInputsIn dependencies current ρ σ block ≠ .ok out) :
    outcome dependencies current ρ σ block = none := by
  unfold outcome
  cases hr : resolveInputsIn dependencies current ρ σ block with
  | error e => rfl
  | ok out => exact absurd hr (h out)

theorem sameOutcome_iff : SameOutcome dependencies current block ↔
    Orderly dependencies current block := by
  by_cases hknown : ∀ r ∈ block.inputs, r.block = none → r.id ∈ dependencies
  · have hno : ¬∃ r ∈ block.inputs, r.block = none ∧ r.id ∉ dependencies := by
      rintro ⟨r, hr, hb, hid⟩
      exact hid (hknown r hr hb)
    cases hstep : block.inputs.foldlM (resolveExplicit dependencies current) {} with
    | error e =>
      refine iff_of_true (fun ρ σ ρ' σ' => ?_) (.inr (.inl fun m hm => ?_))
      · have hnone : ∀ ρ σ out, resolveInputsIn dependencies current ρ σ block ≠ .ok out := by
          intro ρ σ out hout
          obtain ⟨m₁, -, h, -⟩ := resolveInputsIn_iff.mp hout
          rw [hstep] at h
          cases h
        rw [outcome_none (hnone ρ σ), outcome_none (hnone ρ' σ')]
      · rw [hstep] at hm
        cases hm
    | ok m₁ =>
      rw [sameOutcome_iff_runs hknown hstep, same_iff (narrowFirst_spec _)]
      constructor
      · exact fun h => .inr (.inr ⟨m₁, hstep, h⟩)
      · rintro (h | h | ⟨m, hm, h⟩)
        · exact absurd h hno
        · exact absurd hstep (h m₁)
        · rw [hstep] at hm
          cases hm
          exact h
  · push Not at hknown
    refine iff_of_true (fun ρ σ ρ' σ' => ?_) (.inl hknown)
    obtain ⟨r, hr, hb, hid⟩ := hknown
    have hnone : ∀ ρ σ out, resolveInputsIn dependencies current ρ σ block ≠ .ok out := by
      intro ρ σ out hout
      obtain ⟨m₁, m₂, -, hbares, -⟩ := resolveInputsIn_iff.mp hout
      exact hid (resolveBares_known hbares r hr hb)
    rw [outcome_none (hnone ρ σ), outcome_none (hnone ρ' σ')]

namespace Samples

def twinSource : BlockManifest where
  id := "twins"
  outputs := ((∅ : GoMap String OutputDeclaration).insert "a" { type := "file" }).insert
    "b" { type := "file" }

def oneInput : BlockManifest where
  id := "step"
  inputs := (∅ : GoMap String InputDeclaration).insert "data" { type := "file" }

def onTwins : PipelineBlock where
  id := blockID 2
  name := "step"
  inputs := [{ id := blockID 1 }]

def reversed : MapOrder := ⟨List.reverse, List.reverse_perm⟩

end Samples

open Samples in
/-- Of two outputs for one input, the one that is met first has it. -/
theorem sameOutcome_fails :
    ¬SameOutcome ((∅ : GoMap UUID BlockManifest).insert (blockID 1) twinSource) oneInput onTwins := by
  intro h
  have hboth := congrArg (Option.map fun w => w "data")
    (h (fun _ => .stored) .stored (fun _ => reversed) .stored)
  revert hboth
  decide

end Spade
