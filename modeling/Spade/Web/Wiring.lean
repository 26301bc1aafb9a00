import Spade.Core.Resolve
import Spade.Lib.GoMap
import Spade.Web.Flow

set_option autoImplicit false

/-!
# The bindings of an edge

`resolveConnection` pairs the outputs of one block with the inputs of another, and the
resolver dialogue asks for the rest.
-/
namespace Spade

/-- Scalars, files, directories and documents go by type, collections by item type too where
both sides have one. -/
def portsCompatible (out : OutputDeclaration) (inp : InputDeclaration) : Bool :=
  if out.type ≠ inp.type then false
  else if out.type = "collection" ∧ out.itemType ≠ "" ∧ inp.itemType ≠ "" then
    out.itemType = inp.itemType
  else true

inductive ResolveOutcome where
  | ok (bindings : List ResolvedBinding)
  | ambiguous (candidates : List (String × List String))
      (inputDescriptions outputDescriptions : List (String × String))
      (locked : List ResolvedBinding)
  | invalid (reason : String)
  deriving DecidableEq

/-- `bindings`, `remainingOutputs` and `remainingInputs` on the way through the steps. -/
structure Pairing where
  bindings : List ResolvedBinding
  outputs : GoMap String OutputDeclaration
  inputs : GoMap String InputDeclaration

namespace Pairing

def bind (b : ResolvedBinding) (s : Pairing) : Pairing where
  bindings := s.bindings ++ [b]
  outputs := s.outputs.erase b.output
  inputs := s.inputs.erase b.input

/-- The outputs that are left for an input. -/
def outputsFor (inp : InputDeclaration) (s : Pairing) : List String :=
  (s.outputs.items.filter fun e => portsCompatible e.2 inp).map Prod.fst

end Pairing

def portLabel (type format : String) : String := if format ≠ "" then type ++ ":" ++ format else type

/-- Step 1 for one binding. -/
def lockBinding (upstream downstream : BlockManifest) (s : Pairing) (b : ResolvedBinding) :
    Except String Pairing :=
  match s.outputs.lookup b.output with
  | none => .error ("Output \"" ++ b.output ++ "\" does not exist on " ++ upstream.id ++ ".")
  | some out =>
    match s.inputs.lookup b.input with
    | none => .error ("Input \"" ++ b.input ++ "\" does not exist on " ++ downstream.id ++ ".")
    | some inp =>
      if portsCompatible out inp then .ok (s.bind b)
      else .error ("Output \"" ++ b.output ++ "\" (" ++ portLabel out.type out.format ++
        ") is not compatible with input \"" ++ b.input ++ "\" (" ++
        portLabel inp.type inp.format ++ ").")

/-- Step 2 for one input. -/
def pairInput (s : Pairing) (inp : String × InputDeclaration) : Pairing :=
  match s.outputsFor inp.2 with
  | [output] => s.bind ⟨output, inp.1⟩
  | _ => s

/-- The candidates that step 3 collects, up to the first ambiguous input, and whether there
is one. -/
def collectCandidates (s : Pairing) :
    List (String × InputDeclaration) → List (String × List String) × Bool
  | [] => ([], false)
  | inp :: l =>
    let options := s.outputsFor inp.2
    if options.length > 1 then ([(inp.1, options)], true)
    else
      let rest := collectCandidates s l
      ((inp.1, options) :: rest.1, rest.2)

def resolveConnection (upstream downstream : BlockManifest)
    (preExistingExplicit : List ResolvedBinding) : ResolveOutcome :=
  match preExistingExplicit.foldlM (lockBinding upstream downstream)
      ⟨[], upstream.outputs, downstream.inputs⟩ with
  | .error reason => .invalid reason
  | .ok s =>
    let s := s.inputs.items.foldl pairInput s
    if s.inputs.items = [] then .ok s.bindings
    else
      match collectCandidates s s.inputs.items with
      | (_, false) => .ok s.bindings
      | (candidates, true) => .ambiguous candidates
        (downstream.inputs.items.map fun e => (e.1, e.2.description))
        (upstream.outputs.items.map fun e => (e.1, e.2.description)) s.bindings

/-! The dialogue. -/

/-- The first option of every input that has one. -/
def initialSelections (candidates : List (String × List String)) : List (String × String) :=
  candidates.filterMap fun c => c.2.head?.map fun option => (c.1, option)

/-- A click on an option of an input. -/
def select (selections : List (String × String)) (input option : String) :
    List (String × String) :=
  if input ∈ selections.map Prod.fst then
    selections.map fun e => if e.1 = input then (input, option) else e
  else selections ++ [(input, option)]

/-- The bindings of a confirmed dialogue; every candidate must have a selection. -/
def handleConfirm (candidates : List (String × List String)) (selections : List (String × String)) :
    Option (List ResolvedBinding) :=
  if candidates.all fun c => selections.any fun e => e.1 = c.1 ∧ e.2 ≠ "" then
    some (selections.map fun e => ⟨e.2, e.1⟩)
  else none

/-- The click is on one of the options shown. -/
def Shown (candidates : List (String × List String)) (click : String × String) : Prop :=
  ∃ c ∈ candidates, c.1 = click.1 ∧ click.2 ∈ c.2

/-- The bindings that an edge between two blocks can get: those of an unambiguous resolution,
or those that the user confirms after any clicks. -/
inductive Offered (upstream downstream : BlockManifest) : List ResolvedBinding → Prop where
  | ok {pre bindings : List ResolvedBinding}
      (h : resolveConnection upstream downstream pre = .ok bindings) : Offered upstream downstream bindings
  | confirmed {candidates : List (String × List String)} {ins outs : List (String × String)}
      {locked bindings : List ResolvedBinding} {clicks : List (String × String)}
      (h : resolveConnection upstream downstream [] = .ambiguous candidates ins outs locked)
      (hclicks : ∀ c ∈ clicks, Shown candidates c)
      (hconfirm : handleConfirm candidates (clicks.foldl (fun s c => select s c.1 c.2)
        (initialSelections candidates)) = some bindings) : Offered upstream downstream bindings

/-! What the steps do to the ports that are left. -/

namespace Pairing
variable {s s' : Pairing} {upstream downstream : BlockManifest} {e : String × InputDeclaration}
  {o : String}

theorem mem_outputsFor {inp : InputDeclaration} : o ∈ s.outputsFor inp ↔
    ∃ out, s.outputs.lookup o = some out ∧ portsCompatible out inp = true := by
  unfold outputsFor
  rw [List.mem_map]
  constructor
  · rintro ⟨⟨o', out⟩, hmem, rfl⟩
    obtain ⟨hin, hfits⟩ := List.mem_filter.mp hmem
    exact ⟨out, (GoMap.mem_items ..).mp hin, hfits⟩
  · rintro ⟨out, hl, hfits⟩
    exact ⟨(o, out), List.mem_filter.mpr ⟨(GoMap.mem_items ..).mpr hl, hfits⟩, rfl⟩

theorem nodup_outputsFor (s : Pairing) (inp : InputDeclaration) : (s.outputsFor inp).Nodup :=
  (List.filter_sublist.map Prod.fst).nodup s.outputs.items_nodup

/-- Both ports of the binding are left, and fit. -/
def Lockable (s : Pairing) (b : ResolvedBinding) : Prop :=
  ∃ out inp, s.outputs.lookup b.output = some out ∧ s.inputs.lookup b.input = some inp ∧
    portsCompatible out inp = true

theorem lockBinding_cases (upstream downstream : BlockManifest) (s : Pairing)
    (b : ResolvedBinding) :
    (s.Lockable b ∧ lockBinding upstream downstream s b = .ok (s.bind b)) ∨
      (¬s.Lockable b ∧ ∃ reason, lockBinding upstream downstream s b = .error reason) := by
  unfold lockBinding
  cases hout : s.outputs.lookup b.output with
  | none =>
    refine .inr ⟨?_, _, rfl⟩
    rintro ⟨out, inp, hout', -⟩
    exact nomatch hout.symm.trans hout'
  | some out =>
    cases hinp : s.inputs.lookup b.input with
    | none =>
      refine .inr ⟨?_, _, rfl⟩
      rintro ⟨out', inp, -, hinp', -⟩
      exact nomatch hinp.symm.trans hinp'
    | some inp =>
      dsimp only
      split_ifs with hfits
      · exact .inl ⟨⟨out, inp, hout, hinp, hfits⟩, rfl⟩
      · refine .inr ⟨?_, _, rfl⟩
        rintro ⟨out', inp', hout', hinp', hfits'⟩
        cases hout.symm.trans hout'
        cases hinp.symm.trans hinp'
        exact hfits hfits'

theorem pairInput_bind (h : s.outputsFor e.2 = [o]) : pairInput s e = s.bind ⟨o, e.1⟩ := by
  unfold pairInput
  rw [h]

theorem pairInput_skip (h : ∀ o, s.outputsFor e.2 ≠ [o]) : pairInput s e = s := by
  unfold pairInput
  split
  · rename_i o ho
    exact absurd ho (h o)
  · rfl

/-- What each binding of two ports that are left keeps, step 1 keeps. -/
theorem locks_keep {P : Pairing → Prop}
    (keep : ∀ s b, P s → b.output ∈ s.outputs → b.input ∈ s.inputs → P (s.bind b))
    {l : List ResolvedBinding} (hs : P s)
    (hl : l.foldlM (lockBinding upstream downstream) s = .ok s') : P s' := by
  induction l generalizing s with
  | nil =>
    cases hl
    exact hs
  | cons b l ih =>
    rw [List.foldlM_cons] at hl
    rcases lockBinding_cases upstream downstream s b with
      ⟨⟨out, inp, hout, hinp, -⟩, heq⟩ | ⟨-, reason, heq⟩
    · rw [heq] at hl
      exact ih (keep s b hs (GoMap.mem_of_lookup hout) (GoMap.mem_of_lookup hinp)) hl
    · rw [heq] at hl
      cases hl

/-- And so does step 2. -/
theorem pairs_keep {P : Pairing → Prop}
    (keep : ∀ s b, P s → b.output ∈ s.outputs → b.input ∈ s.inputs → P (s.bind b))
    {l : List (String × InputDeclaration)} (hs : P s) (hn : (l.map Prod.fst).Nodup)
    (hl : ∀ e ∈ l, e.1 ∈ s.inputs) : P (l.foldl pairInput s) := by
  induction l generalizing s with
  | nil => exact hs
  | cons e l ih =>
    rw [List.map_cons, List.nodup_cons] at hn
    rw [List.foldl_cons]
    by_cases hone : ∃ o, s.outputsFor e.2 = [o]
    · obtain ⟨o, ho⟩ := hone
      obtain ⟨out, hout, -⟩ := mem_outputsFor.mp (ho ▸ List.mem_singleton_self o)
      rw [pairInput_bind ho]
      refine ih (keep s ⟨o, e.1⟩ hs (GoMap.mem_of_lookup hout) (hl e List.mem_cons_self)) hn.2
        fun e' he' => AList.mem_erase.mpr ⟨fun heq => ?_, hl e' (List.mem_cons_of_mem e he')⟩
      exact hn.1 (List.mem_map.mpr ⟨e', he', heq⟩)
    · rw [pairInput_skip (not_exists.mp hone)]
      exact ih hs hn.2 fun e' he' => hl e' (List.mem_cons_of_mem e he')

end Pairing

/-! No input is bound twice on one edge. -/

namespace Pairing

/-- The bound inputs are distinct, and none of them is left over. -/
structure Sound (s : Pairing) : Prop where
  nodup : (s.bindings.map ResolvedBinding.input).Nodup
  free : ∀ n ∈ s.inputs, n ∉ s.bindings.map ResolvedBinding.input

variable {s s' : Pairing} {upstream downstream : BlockManifest}

theorem Sound.bind (h : s.Sound) {b : ResolvedBinding} (hb : b.input ∈ s.inputs) :
    (s.bind b).Sound := by
  refine ⟨?_, fun n hn => ?_⟩
  · rw [Pairing.bind, List.map_append, List.nodup_append]
    refine ⟨h.nodup, by simp, fun x hx y hy => ?_⟩
    rw [List.map_singleton, List.mem_singleton] at hy
    rintro rfl
    exact h.free _ (hy ▸ hb) hx
  · obtain ⟨hne, hn⟩ := AList.mem_erase.mp hn
    rw [Pairing.bind, List.map_append, List.mem_append, List.map_singleton, List.mem_singleton]
    exact not_or.mpr ⟨h.free n hn, hne⟩

theorem Sound.locks (h : s.Sound) {l : List ResolvedBinding}
    (hl : l.foldlM (lockBinding upstream downstream) s = .ok s') : s'.Sound :=
  locks_keep (fun _ _ h _ hinput => h.bind hinput) h hl

theorem Sound.pairs (h : s.Sound) {l : List (String × InputDeclaration)}
    (hn : (l.map Prod.fst).Nodup) (hl : ∀ e ∈ l, e.1 ∈ s.inputs) :
    (l.foldl pairInput s).Sound :=
  pairs_keep (fun _ _ h _ hinput => h.bind hinput) h hn hl

theorem collect_inputs (s : Pairing) (l : List (String × InputDeclaration)) :
    ((collectCandidates s l).1.map Prod.fst).Sublist (l.map Prod.fst) := by
  induction l with
  | nil => exact List.Sublist.slnil
  | cons e l ih =>
    unfold collectCandidates
    dsimp only
    split
    · exact List.Sublist.cons_cons _ (List.nil_sublist _)
    · exact List.Sublist.cons_cons _ ih

end Pairing

theorem initial_inputs (candidates : List (String × List String)) :
    ((initialSelections candidates).map Prod.fst).Sublist (candidates.map Prod.fst) := by
  induction candidates with
  | nil => exact List.Sublist.slnil
  | cons c l ih =>
    unfold initialSelections at ih ⊢
    rw [List.filterMap_cons]
    cases c.2.head? with
    | none => exact List.Sublist.cons _ ih
    | some option => exact List.Sublist.cons_cons _ ih

theorem select_nodup {selections : List (String × String)} (h : (selections.map Prod.fst).Nodup)
    (input option : String) : ((select selections input option).map Prod.fst).Nodup := by
  unfold select
  split
  · rw [List.map_map]
    have hsame : (Prod.fst ∘ fun e : String × String => if e.1 = input then (input, option) else e) =
        Prod.fst := by
      funext e
      rw [Function.comp_apply]
      split_ifs with he
      · exact he.symm
      · rfl
    rw [hsame]
    exact h
  · rename_i hnot
    rw [List.map_append, List.nodup_append]
    refine ⟨h, by simp, fun x hx y hy => ?_⟩
    rw [List.map_singleton, List.mem_singleton] at hy
    rintro rfl
    subst hy
    exact hnot hx

theorem selections_nodup (clicks : List (String × String)) {selections : List (String × String)}
    (h : (selections.map Prod.fst).Nodup) :
    ((clicks.foldl (fun s c => select s c.1 c.2) selections).map Prod.fst).Nodup := by
  induction clicks generalizing selections with
  | nil => exact h
  | cons c clicks ih => exact ih (select_nodup h c.1 c.2)

/-- What a resolution that is not invalid returns. -/
theorem resolve_cases (upstream downstream : BlockManifest) (pre : List ResolvedBinding) :
    (∃ reason, resolveConnection upstream downstream pre = .invalid reason) ∨ ∃ s : Pairing, s.Sound ∧
      (resolveConnection upstream downstream pre = .ok s.bindings ∨ ∃ ins outs,
        resolveConnection upstream downstream pre =
          .ambiguous (collectCandidates s s.inputs.items).1 ins outs s.bindings) := by
  unfold resolveConnection
  split
  · exact .inl ⟨_, rfl⟩
  · rename_i s hs
    have hstart : Pairing.Sound ⟨[], upstream.outputs, downstream.inputs⟩ :=
      ⟨List.nodup_nil, fun _ _ => List.not_mem_nil⟩
    refine .inr ⟨_, (hstart.locks hs).pairs s.inputs.items_nodup fun e he =>
      GoMap.mem_of_lookup ((GoMap.mem_items _ e.1 e.2).mp he), ?_⟩
    dsimp only
    split
    · exact .inl rfl
    · split
      · exact .inl rfl
      · rename_i heq
        rw [heq]
        exact .inr ⟨_, _, rfl⟩

theorem Offered.nodup {upstream downstream : BlockManifest} {bindings : List ResolvedBinding}
    (h : Offered upstream downstream bindings) :
    (bindings.map ResolvedBinding.input).Nodup := by
  cases h with
  | @ok pre _ h =>
    rcases resolve_cases upstream downstream pre with
      ⟨reason, hr⟩ | ⟨s, hs, hr | ⟨ins, outs, hr⟩⟩
    · rw [hr] at h
      cases h
    · rw [hr] at h
      cases h
      exact hs.nodup
    · rw [hr] at h
      cases h
  | @confirmed candidates _ _ _ _ clicks h hclicks hconfirm =>
    have hcandidates : (candidates.map Prod.fst).Nodup := by
      rcases resolve_cases upstream downstream [] with
        ⟨reason, hr⟩ | ⟨s, -, hr | ⟨ins, outs, hr⟩⟩
      · rw [hr] at h
        cases h
      · rw [hr] at h
        cases h
      · rw [hr] at h
        cases h
        exact (Pairing.collect_inputs s s.inputs.items).nodup s.inputs.items_nodup
    unfold handleConfirm at hconfirm
    split at hconfirm
    · cases hconfirm
      rw [List.map_map]
      exact selections_nodup clicks ((initial_inputs candidates).nodup hcandidates)
    · cases hconfirm

end Spade
