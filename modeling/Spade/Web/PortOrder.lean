import Mathlib.Data.List.Sort
import Spade.Core.InvocationText
import Spade.Web.Pairs

set_option autoImplicit false

/-!
# The order in which ports are declared

A manifest is read as an object, whose properties are enumerated in the order in which they are
declared, except that array indices come first, in ascending order. Here it is settled when the
outcome of `resolveConnection` does not depend on the declared order.
-/
namespace Spade
open ForcedPairs

/-- The number that a property name stands for if it is an array index. -/
def arrayIndex (name : String) : Option ℕ :=
  let n := name.toList.foldl (fun n c => n * 10 + digit c) 0
  if name = itoa n ∧ n < 2 ^ 32 - 1 then some n else none

section
variable {V : Type}

/-- The name is no array index. -/
def named (e : String × V) : Bool := (arrayIndex e.1).isNone

def precedes (a b : String × V) : Prop := (arrayIndex a.1).getD 0 ≤ (arrayIndex b.1).getD 0

instance : DecidableRel (precedes (V := V)) := fun _ _ => inferInstanceAs (Decidable (_ ≤ _))

instance : Std.Total (precedes (V := V)) := ⟨fun _ _ => Nat.le_total _ _⟩

instance : IsTrans (String × V) precedes := ⟨fun _ _ _ => Nat.le_trans⟩

/-- `Object.entries` of an object whose properties were made in this order. -/
def entriesOf (l : List (String × V)) : List (String × V) :=
  (l.filter fun e => !named e).insertionSort precedes ++ l.filter named

theorem entriesOf_perm (l : List (String × V)) : (entriesOf l).Perm l := by
  have hsplit : (l.filter named ++ l.filter fun e => !named e).Perm l :=
    List.filter_append_perm named l
  exact ((List.perm_insertionSort _ _).append_right _).trans (List.perm_append_comm.trans hsplit)

def enumerated (m : GoMap String V) : GoMap String V :=
  GoMap.ofItems (entriesOf m.items)
    (((entriesOf_perm m.items).map Prod.fst).nodup_iff.mpr m.items_nodup)

theorem items_enumerated (m : GoMap String V) : (enumerated m).items = entriesOf m.items :=
  GoMap.items_ofItems ..

end

def asObject (m : BlockManifest) : BlockManifest :=
  { m with inputs := enumerated m.inputs, outputs := enumerated m.outputs }

/-- The outcomes are of one kind and have the same set of bindings. -/
def SameChoice : ResolveOutcome → ResolveOutcome → Prop
  | .ok bindings, .ok bindings' => ∀ b, b ∈ bindings ↔ b ∈ bindings'
  | .ambiguous _ _ _ locked, .ambiguous _ _ _ locked' => ∀ b, b ∈ locked ↔ b ∈ locked'
  | .invalid _, .invalid _ => True
  | _, _ => False

/-- Whatever the order in which the ports are declared, the outcome is the same. -/
def NoOrderChoice (upstream downstream : BlockManifest) (pre : List ResolvedBinding) : Prop :=
  ∀ outputs inputs, outputs.items.Perm upstream.outputs.items →
    inputs.items.Perm downstream.inputs.items →
    SameChoice
      (resolveConnection (asObject { upstream with outputs }) (asObject { downstream with inputs })
        pre)
      (resolveConnection (asObject upstream) (asObject downstream) pre)

/-- No output is the only one left for two inputs, and an input with several outputs has two that
are the only ones of no other input. -/
structure Pairing.Settled (s : Pairing) (l : List (String × InputDeclaration)) : Prop where
  alone : ∀ x ∈ l, ∀ y ∈ l, ∀ o, s.outputsFor x.2 = [o] → s.outputsFor y.2 = [o] → x = y
  plenty : ∀ x ∈ l, 1 < (s.outputsFor x.2).length →
    ∃ o ∈ s.outputsFor x.2, ∃ o' ∈ s.outputsFor x.2, o ≠ o' ∧
      ∀ y ∈ l, s.outputsFor y.2 ≠ [o] ∧ s.outputsFor y.2 ≠ [o']

/-- The ports that step 1 leaves, after the inputs that are named by array indices are paired,
settle the rest of step 2. -/
def SettledPorts (upstream downstream : BlockManifest) (pre : List ResolvedBinding) : Prop :=
  ∀ s, pre.foldlM (lockBinding (asObject upstream) (asObject downstream))
      ⟨[], (asObject upstream).outputs, (asObject downstream).inputs⟩ = .ok s →
    ((s.inputs.items.filter fun e => !named e).foldl pairInput s).Settled
      (s.inputs.items.filter named)

/-! The enumeration of an object. -/

section
variable {V : Type} {l l' : List (String × V)}

theorem eq_of_arrayIndex {name : String} {n : ℕ} (h : arrayIndex name = some n) :
    name = itoa n := by
  simp only [arrayIndex] at h
  split_ifs at h with hname
  cases h
  exact hname.1

theorem indexed_of_mem {e : String × V}
    (h : e ∈ (l.filter fun e => !named e).insertionSort precedes) : (!named e) = true :=
  (List.mem_filter.mp ((List.mem_insertionSort _).mp h)).2

theorem filter_named (l : List (String × V)) : (entriesOf l).filter named = l.filter named := by
  have hnone : ∀ e ∈ (l.filter fun e => !named e).insertionSort precedes, ¬named e = true := by
    intro e he hnamed
    have hindexed := indexed_of_mem he
    rw [hnamed] at hindexed
    cases hindexed
  rw [entriesOf, List.filter_append, List.filter_eq_nil_iff.mpr hnone, List.nil_append,
    List.filter_filter]
  simp only [Bool.and_self]

theorem filter_indexed (l : List (String × V)) : (entriesOf l).filter (fun e => !named e) =
    (l.filter fun e => !named e).insertionSort precedes := by
  have hnone : ∀ e ∈ l.filter named, ¬(!named e) = true := by
    intro e he hindexed
    rw [(List.mem_filter.mp he).2] at hindexed
    cases hindexed
  rw [entriesOf, List.filter_append, List.filter_eq_nil_iff.mpr hnone, List.append_nil,
    List.filter_eq_self.mpr fun e he => indexed_of_mem he]

/-- What is left of an enumeration: the array indices, and then the others. -/
theorem entriesOf_split (l : List (String × V)) (p : String × V → Bool) :
    (entriesOf l).filter p = ((entriesOf l).filter p).filter (fun e => !named e) ++
      ((entriesOf l).filter p).filter named := by
  have hsplit : entriesOf l =
      (entriesOf l).filter (fun e => !named e) ++ (entriesOf l).filter named := by
    rw [filter_indexed, filter_named]
    rfl
  rw [List.filter_comm _ p, List.filter_comm _ p, ← List.filter_append, ← hsplit]

/-- The array indices are enumerated in one order, however they are declared. -/
theorem indexed_eq (hn : (l.map Prod.fst).Nodup) (hp : l.Perm l') :
    (entriesOf l).filter (fun e => !named e) = (entriesOf l').filter (fun e => !named e) := by
  have hperm := hp.filter fun e => !named e
  rw [filter_indexed, filter_indexed]
  refine List.Perm.eq_of_pairwise (fun e e' he he' hle hge => ?_) (List.pairwise_insertionSort _ _)
    (List.pairwise_insertionSort _ _) ((List.perm_insertionSort _ _).trans
      (hperm.trans (List.perm_insertionSort _ _).symm))
  obtain ⟨hin, hindexed⟩ := List.mem_filter.mp ((List.mem_insertionSort _).mp he)
  obtain ⟨hin', hindexed'⟩ := List.mem_filter.mp ((List.mem_insertionSort _).mp he')
  obtain ⟨n, hi⟩ : ∃ n, arrayIndex e.1 = some n :=
    Option.isSome_iff_exists.mp (by simpa [named] using hindexed)
  obtain ⟨n', hi'⟩ : ∃ n, arrayIndex e'.1 = some n :=
    Option.isSome_iff_exists.mp (by simpa [named] using hindexed')
  have hnn : n = n' := by
    unfold precedes at hle hge
    rw [hi, hi'] at hle hge
    exact Nat.le_antisymm hle hge
  have hname : e.1 = e'.1 := by rw [eq_of_arrayIndex hi, eq_of_arrayIndex hi', hnn]
  exact List.inj_on_of_nodup_map hn hin (hp.mem_iff.mpr hin') hname

end

theorem Pairing.settled_iff {s : Pairing} {outs : GoMap String OutputDeclaration}
    (h : s.Within outs) (l : List (String × InputDeclaration)) :
    s.Settled l ↔ ForcedPairs.Settled (FitsPort outs) s.left l := by
  have hforced := fun e o => @Pairing.forced_iff s e o outs h
  have hclaimed : ∀ o, o ∈ claimed (FitsPort outs) s.left l ↔
      ∃ y ∈ l, s.outputsFor y.2 = [o] := fun o =>
    exists_congr fun y => and_congr_right fun _ => hforced y o
  constructor
  · rintro ⟨halone, hplenty⟩
    refine ⟨fun x hx y hy o hxo hyo => halone x hx y hy o ((hforced x o).mp hxo)
      ((hforced y o).mp hyo), fun x hx hmany => ?_⟩
    obtain ⟨o, ho, o', ho', hne, hfree⟩ := hplenty x hx ((Pairing.nontrivial_iff h).mp hmany)
    rw [Pairing.choices_eq h]
    refine ⟨o, ⟨ho, fun hc => ?_⟩, o', ⟨ho', fun hc => ?_⟩, hne⟩
    · obtain ⟨y, hy, hyo⟩ := (hclaimed o).mp hc
      exact (hfree y hy).1 hyo
    · obtain ⟨y, hy, hyo⟩ := (hclaimed o').mp hc
      exact (hfree y hy).2 hyo
  · rintro ⟨halone, hplenty⟩
    refine ⟨fun x hx y hy o hxo hyo => halone x hx y hy o ((hforced x o).mpr hxo)
      ((hforced y o).mpr hyo), fun x hx hmany => ?_⟩
    have hrest := hplenty x hx ((Pairing.nontrivial_iff h).mpr hmany)
    rw [Pairing.choices_eq h] at hrest
    obtain ⟨o, ⟨ho, hco⟩, o', ⟨ho', hco'⟩, hne⟩ := hrest
    exact ⟨o, ho, o', ho', hne, fun y hy => ⟨fun hyo => hco ((hclaimed o).mpr ⟨y, hy, hyo⟩),
      fun hyo => hco' ((hclaimed o').mpr ⟨y, hy, hyo⟩)⟩⟩

/-! Step 1 takes inputs out, and leaves the others in their order. -/

theorem locks_inputs {u d : BlockManifest} {pre : List ResolvedBinding} {s t : Pairing}
    (h : pre.foldlM (lockBinding u d) s = .ok t) :
    t.inputs.items = s.inputs.items.filter fun e => e.1 ∉ pre.map ResolvedBinding.input := by
  induction pre generalizing s with
  | nil =>
    cases h
    exact (List.filter_eq_self.mpr fun e _ => decide_eq_true List.not_mem_nil).symm
  | cons b pre ih =>
    rw [List.foldlM_cons] at h
    rcases Pairing.lockBinding_cases u d s b with ⟨-, heq⟩ | ⟨-, reason, heq⟩
    · rw [heq] at h
      rw [ih h, Pairing.bind, GoMap.items_erase, List.filter_filter]
      refine List.filter_congr fun e _ => ?_
      rw [List.map_cons, ← Bool.decide_and, decide_eq_decide, List.mem_cons, not_or]
      exact and_comm
    · rw [heq] at h
      cases h

theorem locks_within {u d : BlockManifest} {pre : List ResolvedBinding} {s t : Pairing}
    {outs : GoMap String OutputDeclaration} (hs : s.Within outs)
    (h : pre.foldlM (lockBinding u d) s = .ok t) : t.Within outs :=
  Pairing.locks_keep (P := (·.Within outs)) (fun _ b hs _ _ => hs.bind b) hs h

/-! Step 2 over the inputs that are named, in two orders. -/

section
variable {s s' : Pairing} {outs : GoMap String OutputDeclaration}
  {l l' : List (String × InputDeclaration)}
  {b b' : Set ((String × InputDeclaration) × String)} {rest rest' : Set String}

theorem Same.left_eq (h : Same s s') : s.left = s'.left := by
  ext o
  exact GoMap.mem_iff_lookup.trans ((exists_congr fun out => by rw [h.outputs o]).trans
    GoMap.mem_iff_lookup.symm)

theorem Same.within (h : Same s s') (hw : s.Within outs) : s'.Within outs := fun o out hl =>
  hw o out ((h.outputs o).trans hl)

theorem Same.ambiguous_iff (h : Same s s') : s.Ambiguous ↔ s'.Ambiguous := by
  refine exists_congr fun n => exists_congr fun inp => ?_
  rw [h.inputs n, (h.outputsFor_perm inp).length_eq]

theorem Pairing.Within.lookup_eq {t t' : Pairing} (h : t.Within outs) (h' : t'.Within outs)
    (hleft : t.left = t'.left) (n : String) : t.outputs.lookup n = t'.outputs.lookup n := by
  have hsome : ∀ {t t' : Pairing}, t.Within outs → t'.Within outs → t.left = t'.left →
      ∀ out, t.outputs.lookup n = some out → t'.outputs.lookup n = some out := by
    intro t t' h h' hleft out hl
    have hin : n ∈ t'.left := hleft ▸ (GoMap.mem_of_lookup hl : n ∈ t.left)
    obtain ⟨out', hl'⟩ := GoMap.lookup_of_mem hin
    rw [hl', ← h n out hl, h' n out' hl']
  exact Option.ext fun out => ⟨hsome h h' hleft out, hsome h' h hleft.symm out⟩

/-- The same pairs leave the same ports. -/
theorem Same.of_pairs (h : Same s s') (hw : s.Within outs)
    (hb : Pairs (FitsPort outs) s.left l b rest) (hb' : Pairs (FitsPort outs) s.left l' b rest') :
    Same (l.foldl pairInput s) (l'.foldl pairInput s') := by
  obtain ⟨b₁, hpairs, hwithin, hpaired⟩ := Pairing.pairs_foldl l hw
  obtain ⟨rfl, rfl⟩ := hb.unique hpairs
  obtain ⟨b₂, hpairs', hwithin', hpaired'⟩ := Pairing.pairs_foldl l' (h.within hw)
  rw [← h.left_eq] at hpairs'
  obtain ⟨rfl, rfl⟩ := hb'.unique hpairs'
  refine ⟨fun r => ?_, hwithin.lookup_eq hwithin' (hb.rest_eq.trans hb'.rest_eq.symm), fun n => ?_⟩
  · rw [hpaired.bindings, hpaired'.bindings, h.bindings]
  · refine Option.ext fun inp => ?_
    rw [hpaired.inputs, hpaired'.inputs, h.inputs]

/-- A pair makes a binding, which no other pair makes. -/
theorem Same.pairs_subset (h : Same s s') (hw : s.Within outs)
    (hfree : ∀ n ∈ s.inputs, n ∉ s.bindings.map ResolvedBinding.input)
    (hl : ∀ e ∈ l, e.1 ∈ s.inputs) (hn : (l.map Prod.fst).Nodup) (hp : l.Perm l')
    (hb : Pairs (FitsPort outs) s.left l b rest) (hb' : Pairs (FitsPort outs) s.left l' b' rest')
    (hsub : ∀ r ∈ (l.foldl pairInput s).bindings, r ∈ (l'.foldl pairInput s').bindings) :
    b ⊆ b' := by
  obtain ⟨b₁, hpairs, -, hpaired⟩ := Pairing.pairs_foldl l hw
  obtain ⟨rfl, -⟩ := hb.unique hpairs
  obtain ⟨b₂, hpairs', -, hpaired'⟩ := Pairing.pairs_foldl l' (h.within hw)
  rw [← h.left_eq] at hpairs'
  obtain ⟨rfl, -⟩ := hb'.unique hpairs'
  intro x hx
  obtain ⟨hxl, -⟩ := hb.mem x hx
  have hmade := hsub _ ((hpaired.bindings ⟨x.2, x.1.1⟩).mpr (.inr ⟨x, hx, rfl⟩))
  rcases (hpaired'.bindings _).mp hmade with hold | ⟨y, hy, heq⟩
  · have hbound : x.1.1 ∈ s.bindings.map ResolvedBinding.input :=
      List.mem_map.mpr ⟨_, (h.bindings _).mpr hold, rfl⟩
    exact absurd hbound (hfree _ (hl x.1 hxl))
  · obtain ⟨houtput, hinput⟩ := ResolvedBinding.mk.inj heq
    have hyl : y.1 ∈ l := hp.mem_iff.mpr (hb'.mem y hy).1
    have hxy : x = y := Prod.ext (List.inj_on_of_nodup_map hn hxl hyl hinput) houtput
    exact hxy ▸ hy

theorem Same.symm (h : Same s s') : Same s' s :=
  ⟨fun r => (h.bindings r).symm, fun n => (h.outputs n).symm, fun n => (h.inputs n).symm⟩

theorem Same.pairs_eq (h : Same s s') (hw : s.Within outs)
    (hfree : ∀ n ∈ s.inputs, n ∉ s.bindings.map ResolvedBinding.input)
    (hl : ∀ e ∈ l, e.1 ∈ s.inputs) (hn : (l.map Prod.fst).Nodup) (hp : l.Perm l')
    (hb : Pairs (FitsPort outs) s.left l b rest) (hb' : Pairs (FitsPort outs) s.left l' b' rest')
    (hsame : ∀ r, r ∈ (l.foldl pairInput s).bindings ↔ r ∈ (l'.foldl pairInput s').bindings) :
    b = b' := by
  have hinputs : ∀ n, n ∈ s'.inputs ↔ n ∈ s.inputs := fun n => by
    rw [GoMap.mem_iff_lookup, GoMap.mem_iff_lookup, h.inputs]
  have hfree' : ∀ n ∈ s'.inputs, n ∉ s'.bindings.map ResolvedBinding.input := by
    intro n hin hbound
    obtain ⟨r, hr, rfl⟩ := List.mem_map.mp hbound
    exact hfree _ ((hinputs _).mp hin) (List.mem_map.mpr ⟨r, (h.bindings r).mpr hr, rfl⟩)
  have hl' : ∀ e ∈ l', e.1 ∈ s'.inputs := fun e he =>
    (hinputs _).mpr (hl e (hp.mem_iff.mpr he))
  refine Set.Subset.antisymm (h.pairs_subset hw hfree hl hn hp hb hb' fun r => (hsame r).mp) ?_
  rw [h.left_eq] at hb hb'
  exact h.symm.pairs_subset (h.within hw) hfree' hl' ((hp.map Prod.fst).nodup_iff.mp hn) hp.symm hb'
    hb fun r => (hsame r).mpr

end

section
variable {u u' d d' : BlockManifest} {pre : List ResolvedBinding} {s s' t t' : Pairing}

/-- Two outcomes are the same choice if both are ambiguous or none, with the same bindings. -/
theorem sameChoice_iff (hs : pre.foldlM (lockBinding u d) ⟨[], u.outputs, d.inputs⟩ = .ok s)
    (hs' : pre.foldlM (lockBinding u' d') ⟨[], u'.outputs, d'.inputs⟩ = .ok s')
    (ht : s.inputs.items.foldl pairInput s = t) (ht' : s'.inputs.items.foldl pairInput s' = t') :
    SameChoice (resolveConnection u d pre) (resolveConnection u' d' pre) ↔
      (t.Ambiguous ↔ t'.Ambiguous) ∧ ∀ r, r ∈ t.bindings ↔ r ∈ t'.bindings := by
  rcases resolve_ok hs ht with ⟨ha, heq⟩ | ⟨ha, ins, outs, heq⟩
  · rcases resolve_ok hs' ht' with ⟨ha', heq'⟩ | ⟨ha', ins', outs', heq'⟩
    · rw [heq, heq']
      exact (and_iff_right (iff_of_false ha ha')).symm
    · rw [heq, heq']
      exact iff_of_false not_false fun h => ha (h.1.mpr ha')
  · rcases resolve_ok hs' ht' with ⟨ha', heq'⟩ | ⟨ha', ins', outs', heq'⟩
    · rw [heq, heq']
      exact iff_of_false not_false fun h => ha' (h.1.mp ha)
    · rw [heq, heq']
      exact (and_iff_right (iff_of_true ha ha')).symm

end

section
variable {u d : BlockManifest} {pre : List ResolvedBinding} {t : Pairing}
  (ht : pre.foldlM (lockBinding (asObject u) (asObject d))
    ⟨[], (asObject u).outputs, (asObject d).inputs⟩ = .ok t)
include ht

/-- The inputs that step 1 leaves. -/
theorem locked_items : t.inputs.items =
    (entriesOf d.inputs.items).filter fun e => e.1 ∉ pre.map ResolvedBinding.input := by
  rw [locks_inputs ht]
  exact congrArg (List.filter _) (items_enumerated d.inputs)

theorem locked_split : t.inputs.items = t.inputs.items.filter (fun e => !named e) ++
    t.inputs.items.filter named := by
  rw [locked_items ht]
  exact entriesOf_split ..

theorem locked_within : t.Within (enumerated u.outputs) :=
  locks_within (fun _ _ h => h) ht

theorem locked_sound : t.Sound :=
  have hstart : Pairing.Sound ⟨[], (asObject u).outputs, (asObject d).inputs⟩ :=
    ⟨List.nodup_nil, fun _ _ => List.not_mem_nil⟩
  hstart.locks ht

theorem locked_named : t.inputs.items.filter named =
    (d.inputs.items.filter named).filter fun e => e.1 ∉ pre.map ResolvedBinding.input := by
  rw [locked_items ht, List.filter_comm named, filter_named]

theorem locked_indexed : t.inputs.items.filter (fun e => !named e) =
    ((entriesOf d.inputs.items).filter fun e => !named e).filter
      fun e => e.1 ∉ pre.map ResolvedBinding.input := by
  rw [locked_items ht, List.filter_comm fun e => !named e]

end

/-- The objects of two manifests that declare the same ports. -/
theorem same_start {u d : BlockManifest} {outputs : GoMap String OutputDeclaration}
    {inputs : GoMap String InputDeclaration} (houtputs : outputs.items.Perm u.outputs.items)
    (hinputs : inputs.items.Perm d.inputs.items) :
    Same ⟨[], enumerated outputs, enumerated inputs⟩
      ⟨[], (asObject u).outputs, (asObject d).inputs⟩ := by
  refine ⟨fun _ => Iff.rfl, GoMap.lookup_eq_of_perm ?_, GoMap.lookup_eq_of_perm ?_⟩
  · change (enumerated outputs).items.Perm (enumerated u.outputs).items
    rw [items_enumerated, items_enumerated]
    exact (entriesOf_perm _).trans (houtputs.trans (entriesOf_perm _).symm)
  · change (enumerated inputs).items.Perm (enumerated d.inputs).items
    rw [items_enumerated, items_enumerated]
    exact (entriesOf_perm _).trans (hinputs.trans (entriesOf_perm _).symm)

/-- The inputs left when the ports are declared in another order. -/
theorem locked_perm {u u' d d' : BlockManifest} {pre : List ResolvedBinding} {t t' : Pairing}
    (ht : pre.foldlM (lockBinding (asObject u) (asObject d))
      ⟨[], (asObject u).outputs, (asObject d).inputs⟩ = .ok t)
    (ht' : pre.foldlM (lockBinding (asObject u') (asObject d'))
      ⟨[], (asObject u').outputs, (asObject d').inputs⟩ = .ok t')
    (hp : d'.inputs.items.Perm d.inputs.items) :
    t'.inputs.items.filter (fun e => !named e) = t.inputs.items.filter (fun e => !named e) ∧
      (t'.inputs.items.filter named).Perm (t.inputs.items.filter named) := by
  rw [locked_indexed ht, locked_indexed ht', locked_named ht, locked_named ht',
    indexed_eq d'.inputs.items_nodup hp]
  exact ⟨rfl, (hp.filter _).filter _⟩

section
variable {u u' d d' : BlockManifest} {pre : List ResolvedBinding} {t t' : Pairing}
  {b b' : Set ((String × InputDeclaration) × String)} {rest rest' : Set String}
  (ht : pre.foldlM (lockBinding (asObject u) (asObject d))
    ⟨[], (asObject u).outputs, (asObject d).inputs⟩ = .ok t)
  (ht' : pre.foldlM (lockBinding (asObject u') (asObject d'))
    ⟨[], (asObject u').outputs, (asObject d').inputs⟩ = .ok t')
  (hsame : Same t' t) (hp : d'.inputs.items.Perm d.inputs.items)
include ht ht' hsame hp

/-- After the inputs that come first in either order, the choice is the same exactly if the same
pairs are made of the others. -/
theorem sameChoice_iff_pairs
    (hb : Pairs (FitsPort (enumerated u.outputs))
      ((t.inputs.items.filter fun e => !named e).foldl pairInput t).left
      (t.inputs.items.filter named) b rest)
    (hb' : Pairs (FitsPort (enumerated u.outputs))
      ((t.inputs.items.filter fun e => !named e).foldl pairInput t).left
      (t'.inputs.items.filter named) b' rest') :
    SameChoice (resolveConnection (asObject u') (asObject d') pre)
      (resolveConnection (asObject u) (asObject d) pre) ↔ b = b' := by
  obtain ⟨hindexed, hnamed⟩ := locked_perm ht ht' hp
  have hkeys := t.inputs.items_nodup
  have hfirst : ∀ e ∈ t.inputs.items.filter (fun e => !named e), e ∈ t.inputs.items := fun e he =>
    (List.mem_filter.mp he).1
  obtain ⟨b₀, hb₀, hwithin, hpaired⟩ :=
    Pairing.pairs_foldl (t.inputs.items.filter fun e => !named e) (locked_within ht)
  have hsound := (locked_sound ht).pairs ((List.filter_sublist.map Prod.fst).nodup hkeys)
    fun e he => GoMap.mem_of_lookup ((GoMap.mem_items _ e.1 e.2).mp (hfirst e he))
  have hleft : ∀ e ∈ t.inputs.items.filter named,
      e.1 ∈ ((t.inputs.items.filter fun e => !named e).foldl pairInput t).inputs := by
    intro e he
    obtain ⟨hin, hname⟩ := List.mem_filter.mp he
    refine GoMap.mem_of_lookup ((hpaired.inputs e.1 e.2).mpr
      ⟨(GoMap.mem_items ..).mp hin, fun x hx heq => ?_⟩)
    obtain ⟨hxin, hindex⟩ := List.mem_filter.mp (hb₀.mem x hx).1
    rw [List.inj_on_of_nodup_map hkeys hxin hin heq, hname] at hindex
    cases hindex
  have hstart : Same ((t.inputs.items.filter fun e => !named e).foldl pairInput t)
      ((t.inputs.items.filter fun e => !named e).foldl pairInput t') := hsame.symm.pairs _
  have hf : t.inputs.items.foldl pairInput t = (t.inputs.items.filter named).foldl pairInput
      ((t.inputs.items.filter fun e => !named e).foldl pairInput t) := by
    conv_lhs => rw [locked_split ht, List.foldl_append]
  have hf' : t'.inputs.items.foldl pairInput t' = (t'.inputs.items.filter named).foldl pairInput
      ((t.inputs.items.filter fun e => !named e).foldl pairInput t') := by
    conv_lhs => rw [locked_split ht', List.foldl_append, hindexed]
  rw [sameChoice_iff ht' ht hf' hf]
  constructor
  · rintro ⟨-, hbindings⟩
    exact hstart.pairs_eq hwithin hsound.free hleft
      ((List.filter_sublist.map Prod.fst).nodup hkeys) hnamed.symm hb hb'
      fun r => (hbindings r).symm
  · rintro rfl
    have hfinal := hstart.of_pairs hwithin hb hb'
    exact ⟨hfinal.ambiguous_iff.symm, fun r => (hfinal.bindings r).symm⟩

end

/-- Any order of some entries is that of an order of all. -/
theorem exists_inputs_order {V : Type} (m : GoMap String V) (q : String × V → Bool)
    {l : List (String × V)} (hp : (m.items.filter q).Perm l) :
    ∃ m' : GoMap String V, m'.items.Perm m.items ∧ m'.items.filter q = l := by
  have hperm : (m.items.filter (fun e => !q e) ++ l).Perm m.items :=
    (List.perm_append_comm.trans (hp.symm.append_right _)).trans (List.filter_append_perm q m.items)
  refine ⟨GoMap.ofItems _ ((hperm.map Prod.fst).nodup_iff.mpr m.items_nodup), ?_, ?_⟩
  · rw [GoMap.items_ofItems]
    exact hperm
  · have hnone : ∀ e ∈ m.items.filter fun e => !q e, ¬q e = true := by
      intro e he hq
      have hnot := (List.mem_filter.mp he).2
      rw [hq] at hnot
      cases hnot
    rw [GoMap.items_ofItems, List.filter_append, List.filter_eq_nil_iff.mpr hnone, List.nil_append,
      List.filter_eq_self.mpr fun e he => (List.mem_filter.mp (hp.mem_iff.mpr he)).2]

/-- The outcome does not depend on the order exactly if the ports left are settled. -/
theorem noOrderChoice_iff (u d : BlockManifest) (pre : List ResolvedBinding) :
    NoOrderChoice u d pre ↔ SettledPorts u d pre := by
  have hlocks := fun {outputs inputs} houtputs hinputs =>
    @Same.locks _ _ (asObject { u with outputs }) (asObject u) (asObject { d with inputs })
      (asObject d) (@same_start u d outputs inputs houtputs hinputs) pre
  constructor
  · intro h t ht
    obtain ⟨b₀, -, hwithin, -⟩ :=
      Pairing.pairs_foldl (t.inputs.items.filter fun e => !named e) (locked_within ht)
    rw [Pairing.settled_iff hwithin, ← independent_iff (List.Nodup.of_map Prod.fst
      ((List.filter_sublist.map Prod.fst).nodup t.inputs.items_nodup))]
    intro l b b' rest rest' hp hb hb'
    rw [locked_named ht, List.filter_filter] at hp
    obtain ⟨inputs, hinputs, hl⟩ := exists_inputs_order d.inputs _ hp
    have houtputs := List.Perm.refl u.outputs.items
    rcases hlocks houtputs hinputs with ⟨t', t₁, ht', ht₁, hsame⟩ | ⟨-, e', -, he'⟩
    · obtain rfl := Except.ok.inj (ht.symm.trans ht₁)
      have hl' : t'.inputs.items.filter named = l := by
        rw [locked_named ht', List.filter_filter]
        exact hl
      exact (sameChoice_iff_pairs ht ht' hsame hinputs hb (hl' ▸ hb')).mp
        (h u.outputs inputs houtputs hinputs)
    · cases ht.symm.trans he'
  · intro h outputs inputs houtputs hinputs
    rcases hlocks houtputs hinputs with ⟨t', t, ht', ht, hsame⟩ | ⟨e, e', he, he'⟩
    · obtain ⟨b₀, -, hwithin, -⟩ :=
        Pairing.pairs_foldl (t.inputs.items.filter fun e => !named e) (locked_within ht)
      have hn : (t.inputs.items.filter named).Nodup := List.Nodup.of_map Prod.fst
        ((List.filter_sublist.map Prod.fst).nodup t.inputs.items_nodup)
      have hind := ((Pairing.settled_iff hwithin _).mp (h t ht)).independent hn
      obtain ⟨b, rest, hb⟩ := Pairs.total (t.inputs.items.filter named) _
      obtain ⟨b', rest', hb'⟩ := Pairs.total (t'.inputs.items.filter named) _
      have hp := (locked_perm ht ht' hinputs).2
      exact (sameChoice_iff_pairs ht ht' hsame hinputs hb hb').mpr
        (hind _ _ _ _ _ hp.symm hb hb')
    · rw [resolve_invalid he, resolve_invalid he']
      exact trivial

def oneOutput : BlockManifest where
  id := "source"
  outputs := AList.singleton "out" { type := "file" }

def twoInputs : BlockManifest where
  id := "target"
  inputs := (AList.singleton "x" { type := "file" }).insert "y" { type := "file" }

/-- The input that is declared first gets the output. -/
theorem noOrderChoice_fails : ¬NoOrderChoice oneOutput twoInputs [] := by
  intro h
  have hperm : (GoMap.items ((AList.singleton "y" { type := "file" }).insert "x"
      { type := "file" })).Perm twoInputs.inputs.items := by decide
  have hswap := h oneOutput.outputs _ (List.Perm.refl _) hperm
  have hfirst : resolveConnection (asObject oneOutput) (asObject twoInputs) [] =
      .ok [⟨"out", "y"⟩] := by decide
  have hsecond : resolveConnection (asObject { oneOutput with outputs := oneOutput.outputs })
      (asObject { twoInputs with
        inputs := (AList.singleton "y" { type := "file" }).insert "x" { type := "file" } }) [] =
      .ok [⟨"out", "x"⟩] := by decide
  rw [hfirst, hsecond] at hswap
  exact absurd ((hswap ⟨"out", "x"⟩).mp List.mem_cons_self) (by decide)

end Spade
