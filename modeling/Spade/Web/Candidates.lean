import Spade.Web.Pairs

set_option autoImplicit false

/-!
# What a resolution leaves open

The inputs that `resolveConnection` does not bind, and the outputs that could still go to them.
-/
namespace Spade

/-- The input is declared and not bound. -/
def OpenInput (downstream : BlockManifest) (bindings : List ResolvedBinding) (n : String)
    (inp : InputDeclaration) : Prop :=
  downstream.inputs.lookup n = some inp ∧ n ∉ bindings.map ResolvedBinding.input

/-- The output is declared and not bound, and its type is that of the input. -/
def Candidate (upstream : BlockManifest) (bindings : List ResolvedBinding)
    (inp : InputDeclaration) (o : String) : Prop :=
  ∃ out, (upstream.outputs.lookup o = some out ∧ o ∉ bindings.map ResolvedBinding.output) ∧
    portsCompatible out inp = true

namespace Pairing

/-- The ports left are those declared and not bound, and none is bound twice. -/
structure Accounts (upstream downstream : BlockManifest) (s : Pairing) : Prop where
  inputs : ∀ n inp, s.inputs.lookup n = some inp ↔ OpenInput downstream s.bindings n inp
  outputs : ∀ o out, s.outputs.lookup o = some out ↔
    upstream.outputs.lookup o = some out ∧ o ∉ s.bindings.map ResolvedBinding.output
  inputs_nodup : (s.bindings.map ResolvedBinding.input).Nodup
  outputs_nodup : (s.bindings.map ResolvedBinding.output).Nodup

section
variable {upstream downstream : BlockManifest} {s t : Pairing}

theorem Accounts.start : Accounts upstream downstream
    ⟨[], upstream.outputs, downstream.inputs⟩ :=
  ⟨fun _ _ => (and_iff_left List.not_mem_nil).symm, fun _ _ => (and_iff_left List.not_mem_nil).symm,
    List.nodup_nil, List.nodup_nil⟩

theorem nodup_concat {A : Type} {l : List A} {a : A} (hn : l.Nodup) (ha : a ∉ l) :
    (l ++ [a]).Nodup :=
  List.nodup_append.mpr ⟨hn, List.nodup_singleton a, fun _ hx _ hy heq =>
    ha (List.mem_singleton.mp hy ▸ heq ▸ hx)⟩

theorem Accounts.bind (h : Accounts upstream downstream s) {b : ResolvedBinding}
    (houtput : b.output ∈ s.outputs) (hinput : b.input ∈ s.inputs) :
    Accounts upstream downstream (s.bind b) := by
  obtain ⟨out, hout⟩ := GoMap.lookup_of_mem houtput
  obtain ⟨inp, hinp⟩ := GoMap.lookup_of_mem hinput
  refine ⟨fun n inp => ?_, fun o out => ?_, ?_, ?_⟩
  · unfold OpenInput
    rw [Pairing.bind, GoMap.lookup_erase_if, List.map_append, List.mem_append, not_or,
      ← and_assoc, List.map_singleton, List.mem_singleton]
    split_ifs with hn
    · exact ⟨False.elim, fun hne => absurd hn hne.2⟩
    · exact (h.inputs n inp).trans (and_iff_left hn).symm
  · rw [Pairing.bind, GoMap.lookup_erase_if, List.map_append, List.mem_append, not_or,
      ← and_assoc, List.map_singleton, List.mem_singleton]
    split_ifs with hn
    · exact ⟨False.elim, fun hne => absurd hn hne.2⟩
    · exact (h.outputs o out).trans (and_iff_left hn).symm
  · rw [Pairing.bind, List.map_append]
    exact nodup_concat h.inputs_nodup ((h.inputs b.input inp).mp hinp).2
  · rw [Pairing.bind, List.map_append]
    exact nodup_concat h.outputs_nodup ((h.outputs b.output out).mp hout).2

/-- What the first two steps leave. -/
theorem accounts_resolved {pre : List ResolvedBinding}
    (hs : pre.foldlM (lockBinding upstream downstream)
      ⟨[], upstream.outputs, downstream.inputs⟩ = .ok s) :
    Accounts upstream downstream (s.inputs.items.foldl pairInput s) := by
  have keep : ∀ s b, Accounts upstream downstream s → b.output ∈ s.outputs →
      b.input ∈ s.inputs → Accounts upstream downstream (s.bind b) := fun _ _ h => h.bind
  exact pairs_keep keep (locks_keep keep Accounts.start hs) s.inputs.items_nodup
    fun e he => GoMap.mem_of_lookup ((GoMap.mem_items _ e.1 e.2).mp he)

theorem Accounts.mem_outputsFor (h : Accounts upstream downstream s) {inp : InputDeclaration}
    {o : String} : o ∈ s.outputsFor inp ↔ Candidate upstream s.bindings inp o := by
  rw [Pairing.mem_outputsFor]
  exact exists_congr fun out => and_congr_left fun _ => h.outputs o out

end

/-! The entries that step 3 makes. -/

end Pairing

theorem Pairing.mem_collect {s : Pairing} {l : List (String × InputDeclaration)}
    {c : String × List String} (h : c ∈ (collectCandidates s l).1) :
    ∃ e ∈ l, c = (e.1, s.outputsFor e.2) := by
  induction l with
  | nil => cases h
  | cons e l ih =>
    rw [collectCandidates] at h
    split_ifs at h
    · exact ⟨e, List.mem_cons_self, List.mem_singleton.mp h⟩
    · rcases List.mem_cons.mp h with rfl | h
      · exact ⟨e, List.mem_cons_self, rfl⟩
      · obtain ⟨e', he', heq⟩ := ih h
        exact ⟨e', List.mem_cons_of_mem e he', heq⟩

/-- What an ambiguous outcome lists is open, and can be bound. -/
theorem ambiguous_lists {upstream downstream : BlockManifest} {pre : List ResolvedBinding}
    {candidates : List (String × List String)} {ins outs : List (String × String)}
    {locked : List ResolvedBinding}
    (h : resolveConnection upstream downstream pre = .ambiguous candidates ins outs locked) :
    (candidates.map Prod.fst).Nodup ∧ ∀ c ∈ candidates, ∃ inp, OpenInput downstream locked c.1 inp ∧
      ∀ o ∈ c.2, Candidate upstream locked inp o := by
  cases hs : pre.foldlM (lockBinding upstream downstream)
      ⟨[], upstream.outputs, downstream.inputs⟩ with
  | error reason => exact nomatch (resolve_invalid hs).symm.trans h
  | ok s =>
    have ha := Pairing.accounts_resolved hs
    generalize ht : s.inputs.items.foldl pairInput s = t at ha
    rcases resolve_ok hs ht with ⟨-, heq⟩ | ⟨-, ins', outs', heq⟩
    · exact nomatch heq.symm.trans h
    · obtain ⟨rfl, rfl, rfl, rfl⟩ := ResolveOutcome.ambiguous.inj (heq.symm.trans h)
      refine ⟨(t.collect_inputs t.inputs.items).nodup t.inputs.items_nodup, fun c hc => ?_⟩
      obtain ⟨e, he, rfl⟩ := Pairing.mem_collect hc
      exact ⟨e.2, (ha.inputs e.1 e.2).mp ((GoMap.mem_items ..).mp he),
        fun o => ha.mem_outputsFor.mp⟩

def twoFiles : BlockManifest where
  id := "source"
  outputs := (AList.singleton "b" { type := "file" }).insert "a" { type := "file" }

end Spade
