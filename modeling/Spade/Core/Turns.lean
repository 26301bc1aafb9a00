import Spade.Core.Sequential
import Spade.Core.Stranded

set_option autoImplicit false

/-!
# The execution loop on an accepted pipeline

Whenever the loop calls `Next` all that was handed out has been reported, and no block
without index that stands in the queue is completed.
-/
namespace Spade
open UUIDPackage

namespace SinglePipelineScheduler
variable [UUIDPackage]

/-- Nothing without index is new in the queues. -/
structure Appends (s s' : SinglePipelineScheduler) : Prop where
  executable : ∃ new, s'.executableBlocks = s.executableBlocks ++ new ∧
    ∀ inv ∈ new, inv.mapIndex ≠ none
  pending : ∀ k inv, s'.pendingBlocks.lookup k = some inv →
    s.pendingBlocks.lookup k = some inv ∨ inv.mapIndex ≠ none

omit [UUIDPackage] in
theorem Appends.trans {s s' s'' : SinglePipelineScheduler} (h : s.Appends s') (h' : s'.Appends s'') :
    s.Appends s'' := by
  obtain ⟨new, hnew, hm⟩ := h.executable
  obtain ⟨new', hnew', hm'⟩ := h'.executable
  refine ⟨⟨new ++ new', by rw [hnew', hnew, List.append_assoc], ?_⟩, fun k inv hk => ?_⟩
  · intro inv hi
    exact (List.mem_append.mp hi).elim (hm inv) (hm' inv)
  · exact (h'.pending k inv hk).elim (h.pending k inv) Or.inr

theorem fanOutOne_appends (o : BlockInvocation) (s : SinglePipelineScheduler) (i : ℕ) :
    s.Appends (fanOutOne o s i) := by
  unfold fanOutOne
  dsimp only
  split
  · exact ⟨⟨_, rfl, fun inv hi => by simp [List.mem_singleton.mp hi]⟩, fun _ _ hk => Or.inl hk⟩
  · refine ⟨⟨[], (List.append_nil _).symm, fun _ hi => absurd hi List.not_mem_nil⟩, ?_⟩
    intro k inv hk
    rw [GoMap.lookup_insert_if] at hk
    split at hk
    · cases hk
      exact Or.inr (by simp)
    · exact Or.inl hk

omit [UUIDPackage] in
theorem appends_foldl {A : Type} (step : SinglePipelineScheduler → A → SinglePipelineScheduler)
    (hstep : ∀ (s : SinglePipelineScheduler) (a : A), s.Appends (step s a)) (l : List A)
    (s : SinglePipelineScheduler) : s.Appends (l.foldl step s) := by
  induction l generalizing s with
  | nil =>
    exact ⟨⟨[], (List.append_nil _).symm, fun _ hi => absurd hi List.not_mem_nil⟩,
      fun _ _ hk => Or.inl hk⟩
  | cons a l ih => exact (hstep s a).trans (ih _)

theorem fanOut_appends (n : ℕ) (s : SinglePipelineScheduler) (id : UUID) :
    s.Appends (s.fanOut n id) := by
  have herase : s.Appends { s with pendingBlocks := s.pendingBlocks.erase id } := by
    refine ⟨⟨[], (List.append_nil _).symm, fun _ hi => absurd hi List.not_mem_nil⟩, ?_⟩
    intro k inv hk
    rw [GoMap.lookup_erase_if] at hk
    split at hk
    · cases hk
    · exact Or.inl hk
  exact herase.trans (appends_foldl _ (fanOutOne_appends _) _ _)

theorem handleMap_appends (σ : MapOrder) (s : SinglePipelineScheduler) (r : BlockInvocationResult) :
    s.Appends (s.handleMap σ r) := by
  have hrefl : s.Appends s := ⟨⟨[], (List.append_nil _).symm,
    fun _ hi => absurd hi List.not_mem_nil⟩, fun _ _ hk => Or.inl hk⟩
  unfold handleMap
  split_ifs
  · exact hrefl
  · cases s.mapContexts.lookup r.id with
    | none => exact hrefl
    | some ctx =>
      have hrecord : s.Appends { s with
          mapContexts := s.mapContexts.insert r.id { ctx with expansionItems := r.items }
          completedBlocks := s.completedBlocks.insert r.id r } :=
        ⟨hrefl.executable, hrefl.pending⟩
      exact hrecord.trans (appends_foldl _ (fanOut_appends _) _ _)

end SinglePipelineScheduler

namespace Trace
open SinglePipelineScheduler
variable [UUIDPackage]

/-- What `Execute` and the cache return. -/
def Executes (N : ℕ) (t : Trace) : Call → Prop
  | .report _ n result =>
    (∀ inv ∈ t.handedOut[n]?, result.id = inv.id) ∧
      result.status ∈ [ExecutionStatus.complete, .map, .error] ∧ result.items.length ≤ N
  | _ => True

instance (N : ℕ) (t : Trace) (c : Call) : Decidable (t.Executes N c) :=
  match c with
  | .next => isTrue trivial
  | .drain => isTrue trivial
  | .report _ _ _ => inferInstanceAs (Decidable (_ ∧ _ ∧ _))

/-- The state in which the loop calls `Next`. -/
structure AtHead (p : Pipeline) (manifests : Manifests) (N : ℕ) (t : Trace) : Prop where
  stocked : Stocked p manifests N t
  ready : ∀ inv, t.Released inv → t.sched.ready inv = true
  base : (t.sched.executableBlocks.filter fun i => i.mapIndex.isNone).Nodup
  fresh : ∀ inv ∈ t.sched.executableBlocks, inv.mapIndex = none → inv.id ∉ t.sched.completedBlocks
  done : ∀ inv ∈ t.handedOut, ∃ e ∈ t.reported, e.1 = inv

section
variable {p : Pipeline} {manifests : Manifests} {t : Trace} {N : ℕ}

/-- Two invocations of one block are ready at the same time. -/
theorem Invariant.ready_congr (hacc : Accepted p manifests) (h : Invariant p manifests t)
    {a b : BlockInvocation} (ha : t.Holds a) (hb : t.Holds b) (hid : a.id = b.id)
    (s : SinglePipelineScheduler) : s.ready a = s.ready b := by
  obtain ⟨c, hc, hca⟩ := h.causal.made a ha
  obtain ⟨d, hd, hdb⟩ := h.causal.made b hb
  have hcd : c = d := unique_of_nodup hacc.nodup hc hd (by
    rw [hca, hdb] at hid
    exact hid)
  rw [hca, hdb, hcd]
  rfl

/-- What is pending has no invocation of the same block released. -/
theorem AtHead.apart (hacc : Accepted p manifests) (h : AtHead p manifests N t) {k : UUID}
    {a b : BlockInvocation} (ha : t.sched.pendingBlocks.lookup k = some a) (hb : t.Released b) :
    a.id ≠ b.id := by
  intro hid
  have hr := h.ready b hb
  rw [← h.stocked.invariant.ready_congr hacc (Or.inr (Or.inr ⟨k, ha⟩)) hb.holds hid,
    h.stocked.waits k a ha] at hr
  cases hr

/-- The state after a turn. -/
theorem AtHead.queues (hacc : Accepted p manifests) (hkeys : KeysApart p)
    (h : AtHead p manifests N t) (σ : MapOrder) {inv : BlockInvocation}
    {rest : List BlockInvocation} (he : t.sched.executableBlocks = inv :: rest)
    {result : BlockInvocationResult} (hid : result.id = inv.id)
    (hst : result.status = .complete ∨ result.status = .map) :
    ∃ s, (t.taken [inv] rest).sched.Appends s ∧
      (t.taken [inv] rest).sched.update σ result = s.promoteReady σ ∧
      ∀ k k' i, s.pendingBlocks.lookup k = some i → s.pendingBlocks.lookup k' = some i → k = k' := by
  have hfront : t.sched.executableBlocks = [inv] ++ rest := he
  have htaken := h.stocked.invariant.taken hfront
  have hinv : inv ∈ (t.taken [inv] rest).handedOut := by simp [Trace.taken]
  rcases hst with hcomp | hmap
  · refine ⟨{ (t.taken [inv] rest).sched with
      completedBlocks := (t.taken [inv] rest).sched.completedBlocks.insert result.id result },
      ⟨⟨[], (List.append_nil _).symm, fun _ hi => absurd hi List.not_mem_nil⟩,
        fun _ _ hk => Or.inl hk⟩, update_complete σ _ hcomp, htaken.key⟩
  · refine ⟨_, handleMap_appends σ _ result, update_map σ _ hmap, ?_⟩
    have hfresh := h.fresh inv (by rw [he]; exact List.mem_cons_self)
    exact (htaken.record_map hacc hkeys σ hinv hid hfresh hmap).key

/-- An invocation without index that is in the queue after a turn was in a queue before. -/
theorem AtHead.turn_base (hacc : Accepted p manifests) (hkeys : KeysApart p)
    (h : AtHead p manifests N t) (σ : MapOrder) {inv : BlockInvocation}
    {rest : List BlockInvocation} (he : t.sched.executableBlocks = inv :: rest)
    {result : BlockInvocationResult} (hid : result.id = inv.id)
    (hst : result.status = .complete ∨ result.status = .map) :
    (((t.taken [inv] rest).sched.update σ result).executableBlocks.filter
      fun i => i.mapIndex.isNone).Nodup ∧
    ∀ i ∈ ((t.taken [inv] rest).sched.update σ result).executableBlocks, i.mapIndex = none →
      i ∈ rest ∨ ∃ k, t.sched.pendingBlocks.lookup k = some i := by
  obtain ⟨s, happ, heq, hkey⟩ := h.queues hacc hkeys σ he hid hst
  obtain ⟨new, hnew, hmapped⟩ := happ.executable
  obtain ⟨_, hprom, -⟩ := promoteReady_eq σ s
  let promoted := ((σ.range s.pendingBlocks).filter fun e => s.ready e.2).map Prod.snd
  have hexec : ((t.taken [inv] rest).sched.update σ result).executableBlocks =
      rest ++ new ++ promoted := by
    rw [heq, hprom]
    dsimp only
    rw [hnew]
    rfl
  have hpos : ∀ e ∈ (σ.range s.pendingBlocks).filter (fun e => s.ready e.2),
      s.pendingBlocks.lookup e.1 = some e.2 := fun e hm =>
    (σ.mem_range _ _ _).mp (List.mem_filter.mp hm).1
  have hold : ∀ i ∈ promoted, i.mapIndex = none → ∃ k, t.sched.pendingBlocks.lookup k = some i := by
    intro i hi hn
    obtain ⟨e, hm, rfl⟩ := List.mem_map.mp hi
    exact ⟨e.1, (happ.pending e.1 e.2 (hpos e hm)).resolve_right (not_not.mpr hn)⟩
  rw [hexec]
  constructor
  · have hfilter : new.filter (fun i => i.mapIndex.isNone) = [] := by
      rw [List.filter_eq_nil_iff]
      intro i hi
      simpa using hmapped i hi
    rw [List.filter_append, List.filter_append, hfilter, List.append_nil]
    have hbase := h.base
    rw [he] at hbase
    refine List.nodup_append.mpr ⟨?_, ?_, ?_⟩
    · exact hbase.sublist ((List.sublist_cons_self inv rest).filter _)
    · refine List.Nodup.filter _ (List.Nodup.map_on ?_
        ((List.Nodup.of_map _ (σ.range_nodup s.pendingBlocks)).filter _))
      intro a ha b hb hab
      exact Prod.ext (hkey a.1 b.1 a.2 (hpos a ha) (hab ▸ hpos b hb)) hab
    · rintro a ha b hb rfl
      obtain ⟨ha, -⟩ := List.mem_filter.mp ha
      obtain ⟨hb, hn⟩ := List.mem_filter.mp hb
      obtain ⟨k, hk⟩ := hold a hb (Option.isNone_iff_eq_none.mp hn)
      exact h.apart hacc hk (Or.inl (by rw [he]; exact List.mem_cons_of_mem _ ha)) rfl
  · intro i hi hn
    rcases List.mem_append.mp hi with hi | hi
    · rcases List.mem_append.mp hi with hi | hi
      · exact Or.inl hi
      · exact absurd hn (hmapped i hi)
    · exact Or.inr (hold i hi hn)

theorem AtHead.turn (hacc : Accepted p manifests) (hkeys : KeysApart p) (hdist : DistinctKeys p N)
    (h : AtHead p manifests N t) (σ : MapOrder) {inv : BlockInvocation}
    {rest : List BlockInvocation} (he : t.sched.executableBlocks = inv :: rest)
    {result : BlockInvocationResult} (hid : result.id = inv.id)
    (hst : result.status = .complete ∨ result.status = .map) (hlen : result.items.length ≤ N) :
    AtHead p manifests N ((t.taken [inv] rest).report σ inv result) := by
  have hmem : inv ∈ t.sched.executableBlocks := by
    rw [he]
    exact List.mem_cons_self
  have hinv : inv ∈ (t.taken [inv] rest).handedOut := by simp [Trace.taken]
  have hfront : t.sched.executableBlocks = [inv] ++ rest := he
  have hrel := released_taken hfront
  have herr : result.status ≠ .error := by
    rcases hst with h | h <;> rw [h] <;> decide
  have hred : result.status ≠ .reduce := by
    rcases hst with h | h <;> rw [h] <;> decide
  have htaken := h.stocked.taken hfront
  obtain ⟨hbase, horigin⟩ := h.turn_base hacc hkeys σ he hid hst
  refine ⟨htaken.report hacc hkeys hdist σ hinv hid (h.fresh inv hmem) herr hlen, ?_, hbase, ?_, ?_⟩
  · have hmono : ∀ i, t.sched.ready i = true →
        ((t.taken [inv] rest).sched.update σ result).ready i = true := fun i =>
      depsCompleted_mono fun k hk => (completed_update σ _ result k).mpr (Or.inl hk)
    rintro i (hi | hi)
    · rcases update_executable hacc hkeys htaken.invariant σ result i hi with hi | hi | ⟨hr, -⟩
      · exact hmono i (h.ready i ((hrel i).mp (Or.inl hi)))
      · exact hi
      · exact absurd hr hred
    · exact hmono i (h.ready i ((hrel i).mp (Or.inr hi)))
  · intro i hi hn hc
    have hother : ∀ b, t.Released b → b.id = i.id → b.mapIndex = none ∧
        i ∈ t.sched.executableBlocks := by
      intro b hb hbi
      rcases horigin i hi hn with hm | ⟨k, hk⟩
      · have hie : i ∈ t.sched.executableBlocks := by
          rw [he]
          exact List.mem_cons_of_mem _ hm
        refine ⟨?_, hie⟩
        rcases h.stocked.invariant.indexing.indexed b hb.holds with hnb | ⟨m, n, _, -, -, hf, hd⟩
        · exact hnb
        · exact absurd hn (h.stocked.invariant.indexing.spread m n i hf (hbi ▸ hd) (Or.inl hie))
      · exact absurd hbi.symm (h.apart hacc hk hb)
    rcases (completed_update σ _ result _).mp hc with hc | ⟨hir, -⟩
    · obtain ⟨b, hb, hbi⟩ := h.stocked.invariant.causal.completed_released hc
      exact h.fresh i (hother b hb hbi).2 hn hc
    · have hii : inv.id = i.id := by rw [← hid, hir]
      obtain ⟨hnone, -⟩ := hother inv (Or.inl hmem) hii
      have hm : i ∈ rest := by
        rcases horigin i hi hn with hm | ⟨k, hk⟩
        · exact hm
        · exact absurd hii.symm (h.apart hacc hk (Or.inl hmem))
      have hsame : i = inv := by
        obtain ⟨c, hcm, hci⟩ := h.stocked.invariant.causal.made i
          (Or.inl (by rw [he]; exact List.mem_cons_of_mem _ hm))
        obtain ⟨d, hdm, hdi⟩ := h.stocked.invariant.causal.made inv (Or.inl hmem)
        have hcd : c = d := unique_of_nodup hacc.nodup hcm hdm (by
          rw [hci, hdi] at hii
          exact hii.symm)
        rw [hci, hdi, hn, hnone, hcd]
      have hdup := h.base
      rw [he, List.filter_cons_of_pos (by rw [hnone]; rfl)] at hdup
      refine (List.nodup_cons.mp hdup).1 (List.mem_filter.mpr ⟨hsame ▸ hm, ?_⟩)
      rw [hnone]
      rfl
  · intro i hi
    rcases List.mem_append.mp hi with hi | hi
    · obtain ⟨e, hm, hei⟩ := h.done i hi
      exact ⟨e, List.mem_append_left _ hm, hei⟩
    · exact ⟨(inv, result), List.mem_append_right _ List.mem_cons_self, (List.mem_singleton.mp hi).symm⟩

theorem atHead_start (hacc : Accepted p manifests) : AtHead p manifests N (start p manifests) := by
  obtain ⟨g, hg, -⟩ := hacc.graph
  obtain ⟨-, -, hc, -, -, he, -⟩ := registered_queues manifests hg
  refine ⟨stocked_start hacc, ?_, ?_, ?_, fun _ hi => absurd hi List.not_mem_nil⟩
  · rintro inv (hi | hi)
    · obtain ⟨b, -, hin, rfl⟩ := released_start hacc (.inl hi)
      unfold ready
      rw [show (b.invocation p.id none).inputs = [] from hin]
      rfl
    · cases hi
  · change ((registered p manifests).executableBlocks.filter _).Nodup
    rw [he]
    refine List.Nodup.filter _ (List.Nodup.of_map BlockInvocation.id ?_)
    rw [List.map_map]
    exact hacc.nodup.sublist (List.filter_sublist.map PipelineBlock.id)
  · intro inv _ _ hk
    change inv.id ∈ (registered p manifests).completedBlocks at hk
    rw [hc] at hk
    exact AList.notMem_empty _ hk

end
end Trace
end Spade
