import Spade.Lib.ForcedPairs
import Spade.Web.Wiring

set_option autoImplicit false

/-!
# The pairing of ports

What step 2 of `resolveConnection` pairs off, in terms of the outputs that are left for an input
and have the right type.
-/
namespace Spade
open ForcedPairs

/-- The output is one of these, and its type is that of the input. -/
def FitsPort (outs : GoMap String OutputDeclaration) (e : String × InputDeclaration)
    (o : String) : Prop := ∃ out, outs.lookup o = some out ∧ portsCompatible out e.2 = true

namespace Pairing

def left (s : Pairing) : Set String := {o | o ∈ s.outputs}

variable {s : Pairing} {e : String × InputDeclaration} {o : String}

/-- The outputs left are some of those declared. -/
def Within (s : Pairing) (outs : GoMap String OutputDeclaration) : Prop :=
  ∀ o out, s.outputs.lookup o = some out → outs.lookup o = some out

theorem Within.bind {outs : GoMap String OutputDeclaration} (h : s.Within outs)
    (b : ResolvedBinding) : (s.bind b).Within outs := by
  intro o out hl
  rw [Pairing.bind, GoMap.lookup_erase_if] at hl
  split_ifs at hl
  exact h o out hl

section
variable {outs : GoMap String OutputDeclaration} (h : s.Within outs)
include h

theorem choices_eq (e : String × InputDeclaration) :
    choices (FitsPort outs) s.left e = {o | o ∈ s.outputsFor e.2} := by
  ext o
  constructor
  · rintro ⟨hin, out, hl, hfits⟩
    obtain ⟨out', hl'⟩ := GoMap.lookup_of_mem hin
    obtain rfl := Option.some.inj ((h o out' hl').symm.trans hl)
    exact mem_outputsFor.mpr ⟨out', hl', hfits⟩
  · intro ho
    obtain ⟨out, hl, hfits⟩ := mem_outputsFor.mp ho
    exact ⟨GoMap.mem_of_lookup hl, out, h o out hl, hfits⟩

theorem forced_iff : Forced (FitsPort outs) s.left e o ↔ s.outputsFor e.2 = [o] := by
  unfold Forced
  rw [choices_eq h]
  constructor
  · intro heq
    have hmem : ∀ o', o' ∈ s.outputsFor e.2 ↔ o' = o := fun o' => Set.ext_iff.mp heq o'
    have hperm : (s.outputsFor e.2).Perm [o] :=
      (List.perm_ext_iff_of_nodup (s.nodup_outputsFor e.2) (List.nodup_singleton o)).mpr
        fun o' => (hmem o').trans List.mem_singleton.symm
    exact List.perm_singleton.mp hperm
  · intro heq
    ext o'
    rw [Set.mem_ofPred_eq, heq, List.mem_singleton, Set.mem_singleton_iff]

theorem nontrivial_iff :
    (choices (FitsPort outs) s.left e).Nontrivial ↔ 1 < (s.outputsFor e.2).length := by
  rw [choices_eq h]
  have hn := s.nodup_outputsFor e.2
  revert hn
  cases s.outputsFor e.2 with
  | nil => exact fun _ => iff_of_false (fun ⟨o, ho, _⟩ => List.not_mem_nil ho) (Nat.not_lt_zero 1)
  | cons a l =>
    cases l with
    | nil =>
      refine fun _ => iff_of_false ?_ (Nat.lt_irrefl 1)
      rintro ⟨o, ho, o', ho', hne⟩
      exact hne ((List.mem_singleton.mp ho).trans (List.mem_singleton.mp ho').symm)
    | cons b l =>
      refine fun hn => iff_of_true ⟨a, List.mem_cons_self, b,
        List.mem_cons_of_mem a List.mem_cons_self, ?_⟩ (Nat.succ_lt_succ (Nat.succ_pos _))
      rintro rfl
      exact (List.nodup_cons.mp hn).1 List.mem_cons_self

end

/-! Step 2 pairs off what is forced. -/

theorem left_bind (b : ResolvedBinding) : (s.bind b).left = s.left \ {b.output} := by
  ext o
  exact AList.mem_erase.trans and_comm

/-- What step 2 makes of a pairing, given the pairs. -/
structure Paired (s t : Pairing) (b : Set ((String × InputDeclaration) × String)) : Prop where
  bindings : ∀ r, r ∈ t.bindings ↔ r ∈ s.bindings ∨ ∃ x ∈ b, r = ⟨x.2, x.1.1⟩
  inputs : ∀ n inp, t.inputs.lookup n = some inp ↔
    s.inputs.lookup n = some inp ∧ ∀ x ∈ b, x.1.1 ≠ n

/-- Step 2, input by input, is the pairing of `ForcedPairs`. -/
theorem pairs_foldl {outs : GoMap String OutputDeclaration} (l : List (String × InputDeclaration))
    {s : Pairing} (h : s.Within outs) :
    ∃ b, Pairs (FitsPort outs) s.left l b (l.foldl pairInput s).left ∧
      (l.foldl pairInput s).Within outs ∧ Paired s (l.foldl pairInput s) b := by
  induction l generalizing s with
  | nil =>
    refine ⟨∅, .nil _, h, fun r => (or_iff_left ?_).symm,
      fun n inp => (and_iff_left fun _ hx => hx.elim).symm⟩
    rintro ⟨_, hx, -⟩
    exact hx
  | cons e l ih =>
    rw [List.foldl_cons]
    by_cases hone : ∃ o, s.outputsFor e.2 = [o]
    · obtain ⟨o, ho⟩ := hone
      rw [pairInput_bind ho]
      obtain ⟨b, hpairs, hwithin, hbindings, hinputs⟩ := ih (h.bind ⟨o, e.1⟩)
      rw [left_bind] at hpairs
      refine ⟨insert (e, o) b, .bind ((forced_iff h).mpr ho) hpairs, hwithin,
        fun r => ?_, fun n inp => ?_⟩
      · rw [hbindings, Set.exists_mem_insert, ← or_assoc]
        exact or_congr_left (List.mem_append.trans (or_congr_right List.mem_singleton))
      · rw [hinputs, Pairing.bind, GoMap.lookup_erase_if, Set.forall_mem_insert, ← and_assoc]
        refine and_congr_left fun _ => ?_
        by_cases hn : n = e.1
        · rw [if_pos hn]
          exact ⟨fun h => absurd h.symm (Option.some_ne_none _), fun hne => absurd hn.symm hne.2⟩
        · rw [if_neg hn]
          exact (and_iff_left (Ne.symm hn)).symm
    · rw [pairInput_skip (not_exists.mp hone)]
      obtain ⟨b, hpairs, hrest⟩ := ih h
      exact ⟨b, .skip (fun o ho => hone ⟨o, (forced_iff h).mp ho⟩) hpairs, hrest⟩

end Pairing

/-! Two pairings with the same ports left. -/

/-- The same ports are left and the same bindings made, in whatever order. -/
structure Same (s s' : Pairing) : Prop where
  bindings : ∀ r, r ∈ s.bindings ↔ r ∈ s'.bindings
  outputs : ∀ n, s.outputs.lookup n = s'.outputs.lookup n
  inputs : ∀ n, s.inputs.lookup n = s'.inputs.lookup n

namespace Same
variable {s s' : Pairing}

theorem bind (h : Same s s') (b : ResolvedBinding) : Same (s.bind b) (s'.bind b) := by
  refine ⟨fun r => ?_, fun n => ?_, fun n => ?_⟩
  · exact List.mem_append.trans ((or_congr_left (h.bindings r)).trans List.mem_append.symm)
  · rw [Pairing.bind, Pairing.bind, GoMap.lookup_erase_if, GoMap.lookup_erase_if, h.outputs]
  · rw [Pairing.bind, Pairing.bind, GoMap.lookup_erase_if, GoMap.lookup_erase_if, h.inputs]

theorem outputsFor_perm (h : Same s s') (inp : InputDeclaration) :
    (s.outputsFor inp).Perm (s'.outputsFor inp) := by
  rw [List.perm_ext_iff_of_nodup (s.nodup_outputsFor inp) (s'.nodup_outputsFor inp)]
  intro o
  rw [Pairing.mem_outputsFor, Pairing.mem_outputsFor, h.outputs]

theorem pairOne (h : Same s s') (e : String × InputDeclaration) :
    Same (pairInput s e) (pairInput s' e) := by
  have hperm := h.outputsFor_perm e.2
  by_cases hone : ∃ o, s.outputsFor e.2 = [o]
  · obtain ⟨o, ho⟩ := hone
    rw [ho] at hperm
    rw [Pairing.pairInput_bind ho, Pairing.pairInput_bind (List.perm_singleton.mp hperm.symm)]
    exact h.bind _
  · have hone' : ∀ o, s'.outputsFor e.2 ≠ [o] := fun o ho =>
      hone ⟨o, List.perm_singleton.mp (ho ▸ hperm)⟩
    rw [Pairing.pairInput_skip (not_exists.mp hone), Pairing.pairInput_skip hone']
    exact h

theorem pairs (h : Same s s') (l : List (String × InputDeclaration)) :
    Same (l.foldl pairInput s) (l.foldl pairInput s') := by
  induction l generalizing s s' with
  | nil => exact h
  | cons e l ih => exact ih (h.pairOne e)

/-- Step 1 looks at nothing but the ports that are left. -/
theorem locks {u u' d d' : BlockManifest} (h : Same s s') (pre : List ResolvedBinding) :
    (∃ t t', pre.foldlM (lockBinding u d) s = .ok t ∧ pre.foldlM (lockBinding u' d') s' = .ok t' ∧
      Same t t') ∨
    ∃ e e', pre.foldlM (lockBinding u d) s = .error e ∧
      pre.foldlM (lockBinding u' d') s' = .error e' := by
  induction pre generalizing s s' with
  | nil => exact .inl ⟨s, s', rfl, rfl, h⟩
  | cons b pre ih =>
    rw [List.foldlM_cons, List.foldlM_cons]
    have hsame : s.Lockable b ↔ s'.Lockable b := by
      unfold Pairing.Lockable
      rw [h.outputs, h.inputs]
    rcases Pairing.lockBinding_cases u d s b with ⟨hok, heq⟩ | ⟨hno, reason, heq⟩
    · rcases Pairing.lockBinding_cases u' d' s' b with ⟨-, heq'⟩ | ⟨hno', -⟩
      · rw [heq, heq']
        exact ih (h.bind b)
      · exact absurd (hsame.mp hok) hno'
    · rcases Pairing.lockBinding_cases u' d' s' b with ⟨hok', -⟩ | ⟨-, reason', heq'⟩
      · exact absurd (hsame.mpr hok') hno
      · rw [heq, heq']
        exact .inr ⟨reason, reason', rfl, rfl⟩

end Same

/-! What comes of the ports that step 2 leaves. -/

namespace Pairing

/-- Some input that is left has several outputs. -/
def Ambiguous (s : Pairing) : Prop :=
  ∃ n inp, s.inputs.lookup n = some inp ∧ 1 < (s.outputsFor inp).length

theorem collect_snd (s : Pairing) (l : List (String × InputDeclaration)) :
    (collectCandidates s l).2 = true ↔ ∃ e ∈ l, 1 < (s.outputsFor e.2).length := by
  induction l with
  | nil => exact ⟨nofun, fun ⟨_, he, _⟩ => nomatch he⟩
  | cons e l ih =>
    unfold collectCandidates
    dsimp only
    rw [List.exists_mem_cons_iff]
    split_ifs with hmany
    · exact iff_of_true rfl (.inl hmany)
    · rw [ih]
      exact (or_iff_right hmany).symm

theorem ambiguous_iff (s : Pairing) :
    s.Ambiguous ↔ (collectCandidates s s.inputs.items).2 = true := by
  rw [collect_snd]
  constructor
  · rintro ⟨n, inp, hl, hmany⟩
    exact ⟨(n, inp), (GoMap.mem_items ..).mpr hl, hmany⟩
  · rintro ⟨⟨n, inp⟩, he, hmany⟩
    exact ⟨n, inp, (GoMap.mem_items ..).mp he, hmany⟩

end Pairing

theorem resolve_invalid {u d : BlockManifest} {pre : List ResolvedBinding} {reason : String}
    (h : pre.foldlM (lockBinding u d) ⟨[], u.outputs, d.inputs⟩ = .error reason) :
    resolveConnection u d pre = .invalid reason := by
  unfold resolveConnection
  rw [h]

/-- The outcome of a resolution whose explicit bindings are valid. -/
theorem resolve_ok {u d : BlockManifest} {pre : List ResolvedBinding} {s t : Pairing}
    (hs : pre.foldlM (lockBinding u d) ⟨[], u.outputs, d.inputs⟩ = .ok s)
    (ht : s.inputs.items.foldl pairInput s = t) :
    (¬t.Ambiguous ∧ resolveConnection u d pre = .ok t.bindings) ∨
      (t.Ambiguous ∧ ∃ ins outs, resolveConnection u d pre =
        .ambiguous (collectCandidates t t.inputs.items).1 ins outs t.bindings) := by
  unfold resolveConnection
  rw [hs]
  dsimp only
  rw [ht, Pairing.ambiguous_iff]
  split_ifs with hnil
  · rw [hnil]
    exact .inl ⟨Bool.false_ne_true, rfl⟩
  · cases hc : collectCandidates t t.inputs.items with
    | mk candidates found =>
      cases found with
      | false => exact .inl ⟨Bool.false_ne_true, rfl⟩
      | true => exact .inr ⟨rfl, _, _, rfl⟩

end Spade
