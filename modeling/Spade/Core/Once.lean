import Spade.Core.Calls
import Spade.Core.Reachable
import Spade.Core.Samples

set_option autoImplicit false

/-!
# No invocation is handed out twice

What stands in front of the executable blocks is what has been handed out. Together
they have no duplicates, and nothing of them is pending.
-/
namespace Spade
open UUIDPackage

namespace SinglePipelineScheduler

structure Single (front : List BlockInvocation) (s : SinglePipelineScheduler) : Prop where
  once : (front ++ s.executableBlocks).Nodup
  apart : ∀ k inv, s.pendingBlocks.lookup k = some inv → inv ∉ front ++ s.executableBlocks

section
variable {front : List BlockInvocation} {s : SinglePipelineScheduler}

/-- More executable blocks, each of them new and none of them pending any longer. -/
theorem Single.add (h : Single front s) {s' : SinglePipelineScheduler} {new : List BlockInvocation}
    (hexec : s'.executableBlocks = s.executableBlocks ++ new) (hn : new.Nodup)
    (hnew : ∀ inv ∈ new, inv ∉ front ++ s.executableBlocks)
    (hpend : ∀ k inv, s'.pendingBlocks.lookup k = some inv →
      inv ∉ front ++ s.executableBlocks ∧ inv ∉ new) : Single front s' := by
  refine ⟨?_, fun k inv hk => ?_⟩
  · rw [hexec, ← List.append_assoc]
    exact List.nodup_append.mpr ⟨h.once, hn, fun a ha b hb he => hnew b hb (he ▸ ha)⟩
  · obtain ⟨hold, hno⟩ := hpend k inv hk
    rw [hexec, ← List.append_assoc, List.mem_append]
    exact not_or.mpr ⟨hold, hno⟩

theorem Single.promote (h : Single front s) (σ : MapOrder)
    (hkey : ∀ k k' inv, s.pendingBlocks.lookup k = some inv →
      s.pendingBlocks.lookup k' = some inv → k = k') : Single front (s.promoteReady σ) := by
  obtain ⟨pending, heq, hl⟩ := promoteReady_eq σ s
  have hsub : ∀ k inv, pending.lookup k = some inv →
      s.pendingBlocks.lookup k = some inv ∧ s.ready inv = false := by
    intro k inv hk
    have hspec := ((promoteReady_spec σ s).2.2.2.2.2 k inv).mp
    rw [heq] at hspec
    exact hspec hk
  have hpos : ∀ e ∈ (σ.range s.pendingBlocks).filter (fun e => s.ready e.2),
      s.pendingBlocks.lookup e.1 = some e.2 ∧ s.ready e.2 = true := fun e he =>
    ⟨(σ.mem_range _ _ _).mp (List.mem_filter.mp he).1, (List.mem_filter.mp he).2⟩
  rw [heq]
  refine h.add rfl ?_ ?_ ?_
  · refine List.Nodup.map_on ?_ ((List.Nodup.of_map _ (σ.range_nodup s.pendingBlocks)).filter _)
    intro e he e' he' hinv
    have hk := hkey e.1 e'.1 e.2 (hpos e he).1 (hinv ▸ (hpos e' he').1)
    exact Prod.ext hk hinv
  · intro inv hi
    obtain ⟨e, he, rfl⟩ := List.mem_map.mp hi
    exact h.apart e.1 e.2 (hpos e he).1
  · intro k inv hk
    obtain ⟨hold, hr⟩ := hsub k inv hk
    refine ⟨h.apart k inv hold, fun hi => ?_⟩
    obtain ⟨e, he, rfl⟩ := List.mem_map.mp hi
    rw [(hpos e he).2] at hr
    cases hr

variable [UUIDPackage]

theorem foldl_fanOutOne_ready {o : BlockInvocation} (l : List ℕ) (s : SinglePipelineScheduler)
    (hr : s.ready o = true) : l.foldl (fanOutOne o) s = { s with
      executableBlocks := s.executableBlocks ++
        l.map (fun i : ℕ => { o with mapIndex := some (i : Int) }) } := by
  induction l generalizing s with
  | nil => simp
  | cons i l ih =>
    have hone : fanOutOne o s i = { s with
        executableBlocks := s.executableBlocks ++ [{ o with mapIndex := some (i : Int) }] } :=
      if_pos hr
    rw [List.foldl_cons, ih _ (by rw [hone]; exact hr), hone]
    simp

theorem foldl_fanOutOne_waiting {o : BlockInvocation} (l : List ℕ) (s : SinglePipelineScheduler)
    (hr : s.ready o = false) :
    (l.foldl (fanOutOne o) s).executableBlocks = s.executableBlocks := by
  induction l generalizing s with
  | nil => rfl
  | cons i l ih =>
    let inv : BlockInvocation := { o with mapIndex := some (i : Int) }
    have hone : fanOutOne o s i = { s with
        pendingBlocks := s.pendingBlocks.insert (newSHA1 o.id (itoa i)) inv } :=
      if_neg (by rw [show depsCompleted s.completedBlocks inv.inputs = s.ready o from rfl, hr]; simp)
    rw [List.foldl_cons, ih _ (by rw [hone]; exact hr), hone]

/-- Neither of the `n` invocations is released, nor pending where it becomes executable. -/
structure Unmade (p : Pipeline) (front : List BlockInvocation) (n : ℕ)
    (s : SinglePipelineScheduler) (b : PipelineBlock) : Prop where
  released : ∀ i < n, b.invocation p.id (some (i : Int)) ∉ front ++ s.executableBlocks
  pending : s.ready (b.invocation p.id none) = true → ∀ i < n, ∀ k,
    s.pendingBlocks.lookup k ≠ some (b.invocation p.id (some (i : Int)))

variable {p : Pipeline}

theorem Single.fanOut (hu : p.blockIDs.Nodup) {n : ℕ} (h : Single front s)
    (hp : s.pipeline = p) (hs : s.Based p) {b : PipelineBlock} (hb : b ∈ p.blocks)
    (hnew : s.Unmade p front n b) : Single front (s.fanOut n b.id) := by
  let o := b.invocation p.id none
  have hspread := fanOut_spread hu n hp hs hb
  have ho : s.fanOutOriginal b.id = o := by
    unfold fanOutOriginal
    cases hl : s.pendingBlocks.lookup b.id with
    | some inv => exact hs b hb inv hl
    | none => simp only [hp, find_block hu hb, o]
  have hout : s.fanOut n b.id = (List.range n).foldl (fanOutOne o)
      { s with pendingBlocks := s.pendingBlocks.erase b.id } := by
    rw [SinglePipelineScheduler.fanOut, ho]
  let erased : SinglePipelineScheduler := { s with pendingBlocks := s.pendingBlocks.erase b.id }
  by_cases hr : s.ready o = true
  · rw [foldl_fanOutOne_ready _ erased hr] at hout
    rw [hout]
    refine h.add rfl ?_ ?_ ?_
    · refine List.nodup_range.map fun i j hij => ?_
      simpa using congrArg BlockInvocation.mapIndex hij
    · intro inv hi
      obtain ⟨i, hlt, rfl⟩ := List.mem_map.mp hi
      exact hnew.released i (List.mem_range.mp hlt)
    · intro k inv hk
      have hold : s.pendingBlocks.lookup k = some inv := by
        rw [GoMap.lookup_erase_if] at hk
        split at hk
        · cases hk
        · exact hk
      refine ⟨h.apart k inv hold, fun hi => ?_⟩
      obtain ⟨i, hlt, rfl⟩ := List.mem_map.mp hi
      exact hnew.pending hr i (List.mem_range.mp hlt) k hold
  · have hexec : (s.fanOut n b.id).executableBlocks = s.executableBlocks ++ [] := by
      rw [hout, foldl_fanOutOne_waiting _ erased (Bool.eq_false_iff.mpr hr), List.append_nil]
    refine h.add hexec List.nodup_nil (fun _ hi => absurd hi List.not_mem_nil) ?_
    intro k inv hk
    refine ⟨?_, List.not_mem_nil⟩
    rcases hspread.pending k inv hk with ⟨hold, -⟩ | ⟨c, hc, hid, i, hi, -, rfl⟩
    · exact h.apart k inv hold
    · rw [unique_of_nodup hu hc hb (List.mem_singleton.mp hid)]
      exact hnew.released i hi

/-- The fan-out of one block leaves the invocations of the others unmade. -/
theorem Unmade.fanOut (hu : p.blockIDs.Nodup) {n : ℕ} (hp : s.pipeline = p) (hs : s.Based p)
    {b c : PipelineBlock} (hb : b ∈ p.blocks) (hne : c.id ≠ b.id) (h : s.Unmade p front n c) :
    (s.fanOut n b.id).Unmade p front n c := by
  have hspread := fanOut_spread hu n hp hs hb
  have hother : ∀ {d : PipelineBlock} {i j : ℕ}, d.id ∈ [b.id] →
      c.invocation p.id (some (i : Int)) ≠ d.invocation p.id (some (j : Int)) := by
    intro d i j hd he
    exact hne ((congrArg BlockInvocation.id he).trans (List.mem_singleton.mp hd))
  refine ⟨fun i hi hm => ?_, fun hr i hi k hk => ?_⟩
  · rcases List.mem_append.mp hm with hm | hm
    · exact h.released i hi (List.mem_append_left _ hm)
    · rcases hspread.executable _ hm with hm | ⟨-, d, -, hd, j, -, heq⟩
      · exact h.released i hi (List.mem_append_right _ hm)
      · exact hother hd heq
  · rcases hspread.pending k _ hk with ⟨hk, -⟩ | ⟨d, -, hd, j, -, -, heq⟩
    · rw [hspread.same] at hr
      exact h.pending hr i hi k hk
    · exact hother hd heq

theorem Single.foldl_fanOut (hu : p.blockIDs.Nodup) (hk : KeysApart p) {n : ℕ} {ids : List UUID}
    (hn : ids.Nodup) (hids : ∀ id ∈ ids, id ∈ p.blockIDs) (h : Single front s)
    (hp : s.pipeline = p) (hs : s.Based p)
    (hnew : ∀ b ∈ p.blocks, b.id ∈ ids → s.Unmade p front n b) :
    Single front (ids.foldl (SinglePipelineScheduler.fanOut n) s) := by
  induction ids generalizing s with
  | nil => exact h
  | cons id ids ih =>
    obtain ⟨hid, hnodup⟩ := List.nodup_cons.mp hn
    obtain ⟨b, hb, rfl⟩ := List.mem_map.mp (hids id (by simp))
    obtain ⟨hp', hs'⟩ := Based.fanOut hu hk n hp hs hb
    refine ih hnodup (fun id hm => hids id (by simp [hm]))
      (h.fanOut hu hp hs hb (hnew b hb (by simp))) hp' hs' fun c hc hm => ?_
    have hne : c.id ≠ b.id := fun he => hid (he ▸ hm)
    exact (hnew c hc (by simp [hm])).fanOut hu hp hs hb hne

omit [UUIDPackage] in
theorem Single.clear (h : Single front s) (c : Bool) : Single front
    { s with pendingBlocks := ∅, executableBlocks := [], cancelled := c } := by
  refine ⟨?_, fun k inv hk => by simp at hk⟩
  rw [List.append_nil]
  exact (List.nodup_append.mp h.once).1

/-- Each reduce block that `HandleReduce` queues is queued once and was not before. -/
def GathersOnce (front : List BlockInvocation) (s : SinglePipelineScheduler) : Prop :=
  let gathering := (s.mapContexts.items.filter fun e => gathers s.completedBlocks e.2).map
    fun e => e.2.reduceBlockID
  gathering.Nodup ∧ ∀ inv ∈ front ++ s.executableBlocks, inv.id ∉ gathering

/-- The expansion makes no block ready of which copies from another expansion are pending. -/
def SpreadsOnce (s : SinglePipelineScheduler) (r : BlockInvocationResult) : Prop :=
  ∀ ctx ∈ s.mapContexts.lookup r.id, ∀ b ∈ s.pipeline.blocks, b.id ∈ ctx.mappedBlockIDs →
    depsCompleted (s.completedBlocks.insert r.id r) b.inputs = true →
      ∀ i < r.items.length, newSHA1 b.id (itoa i) ∉ s.pendingBlocks

instance (front : List BlockInvocation) (s : SinglePipelineScheduler) :
    Decidable (s.GathersOnce front) :=
  inferInstanceAs (Decidable (_ ∧ _))

instance (s : SinglePipelineScheduler) (r : BlockInvocationResult) : Decidable (s.SpreadsOnce r) :=
  inferInstanceAs (Decidable (∀ ctx ∈ s.mapContexts.lookup r.id, _))

theorem Single.gather (h : Single front s)
    (hkey : ∀ k inv, s.pendingBlocks.lookup k = some inv → inv.mapIndex = none → k = inv.id)
    (hg : s.GathersOnce front) (σ : MapOrder) : Single front (s.handleReduce σ) := by
  let ids := fun l : List (UUID × MapContext) =>
    (l.filter fun e => gathers s.completedBlocks e.2).map fun e => e.2.reduceBlockID
  have loop : ∀ (l : List (UUID × MapContext)) (t : SinglePipelineScheduler),
      t.completedBlocks = s.completedBlocks →
      (∀ k inv, t.pendingBlocks.lookup k = some inv → inv.mapIndex = none → k = inv.id) →
      Single front t → (ids l).Nodup → (∀ inv ∈ front ++ t.executableBlocks, inv.id ∉ ids l) →
      Single front (l.foldl (fun s e => s.gatherOne e.2) t) := by
    intro l
    induction l with
    | nil => exact fun _ _ _ ht _ _ => ht
    | cons e l ih =>
      intro t hc htk ht hn hnew
      rw [List.foldl_cons]
      rcases gatherOne_cases t e.2 with hsame | ⟨hgath, pb, -, hid, heq⟩
      · rw [hsame]
        have hsub : (ids l).Sublist (ids (e :: l)) :=
          ((List.sublist_cons_self e l).filter _).map _
        exact ih t hc htk ht (hn.sublist hsub) fun inv hi hm => hnew inv hi (hsub.mem hm)
      · have hids : ids (e :: l) = pb.id :: ids l := by
          rw [hc] at hgath
          simp [ids, hgath, hid]
        rw [hids] at hn hnew
        obtain ⟨hpb, hn⟩ := List.nodup_cons.mp hn
        have hsub : ∀ k inv, (t.gatherOne e.2).pendingBlocks.lookup k = some inv →
            t.pendingBlocks.lookup k = some inv ∧ k ≠ pb.id := by
          intro k inv hk
          rw [heq, GoMap.lookup_erase_if] at hk
          split at hk
          · cases hk
          · exact ⟨hk, by assumption⟩
        refine ih _ (by rw [heq]; exact hc) (fun k inv hk => htk k inv (hsub k inv hk).1) ?_ hn ?_
        · refine ht.add (by rw [heq]) (List.nodup_singleton _) ?_ ?_
          · intro inv hi hm
            refine hnew inv hm ?_
            rw [List.mem_singleton.mp hi]
            exact List.mem_cons_self
          · intro k inv hk
            obtain ⟨hk, hne⟩ := hsub k inv hk
            refine ⟨ht.apart k inv hk, fun hi => hne ?_⟩
            rw [List.mem_singleton] at hi
            rw [htk k inv hk (by rw [hi]; rfl), hi]
            rfl
        · intro inv hi hm
          rw [heq, ← List.append_assoc] at hi
          rcases List.mem_append.mp hi with hi | hi
          · exact hnew inv hi (List.mem_cons_of_mem _ hm)
          · rw [List.mem_singleton.mp hi] at hm
            exact hpb hm
  have hperm : (ids (σ.range s.mapContexts)).Perm (ids s.mapContexts.items) :=
    ((σ.range_perm s.mapContexts).filter _).map _
  rw [handleReduce_eq]
  exact loop _ s rfl hkey h (hperm.nodup_iff.mpr hg.1) fun inv hi hm =>
    hg.2 inv hi (hperm.mem_iff.mp hm)

end
end SinglePipelineScheduler

namespace Trace
open SinglePipelineScheduler

section
variable [UUIDPackage] {p : Pipeline} {manifests : Manifests} {t : Trace}

/-- No result of the call releases an invocation that is released or pending besides. -/
def ReleasesOnce (t : Trace) : Call → Prop
  | .report _ _ result =>
    (result.status = .map → t.sched.SpreadsOnce result) ∧
      (result.status = .reduce → t.sched.GathersOnce t.handedOut)
  | _ => True

instance (t : Trace) (c : Call) : Decidable (t.ReleasesOnce c) :=
  match c with
  | .next => isTrue trivial
  | .drain => isTrue trivial
  | .report _ _ _ => inferInstanceAs (Decidable (_ ∧ _))

/-- First results, under which nothing is released twice. -/
def FirstsOnce (t : Trace) (c : Call) : Prop := t.Firsts c ∧ t.ReleasesOnce c

instance (t : Trace) (c : Call) : Decidable (t.FirstsOnce c) :=
  inferInstanceAs (Decidable (_ ∧ _))

/-- A first result of a block without index finds the block not completed. -/
theorem Invariant.fresh (h : Invariant p manifests t) {inv : BlockInvocation}
    (hinv : inv ∈ t.handedOut) (hfirst : ∀ e ∈ t.reported, e.1.invocationID ≠ inv.invocationID)
    (hn : inv.mapIndex = none) : inv.id ∉ t.sched.completedBlocks := by
  intro hk
  obtain ⟨e, he, hid, -⟩ := h.causal.recorded inv.id hk
  have hout := (h.causal.reported e he).1
  rcases h.indexing.indexed e.1 (Or.inr (Or.inl hout)) with hm | ⟨m, n, i, -, -, hf, hd⟩
  · apply hfirst e he
    unfold BlockInvocation.invocationID
    rw [hm, hn, hid]
  · exact h.indexing.spread m n inv hf (hid ▸ hd) (Or.inr (Or.inl hinv)) hn

theorem Invariant.call (hacc : Accepted p manifests) (hkeys : KeysApart p)
    (h : Invariant p manifests t) {c : Call} (hc : t.Firsts c) :
    Invariant p manifests (t.call c) := by
  cases c with
  | next =>
    obtain ⟨out, rest, he, heq⟩ := t.next_taken
    rw [Trace.call, heq]
    exact h.taken he
  | drain => exact h.taken (List.append_nil _).symm
  | report σ n result =>
    obtain ⟨inv, hinv, hfirst, hid, heq⟩ := hc.report
    rw [heq]
    exact h.report hacc hkeys σ hinv hid (h.fresh hinv hfirst)

/-- An invocation stands under one key. -/
theorem Invariant.key (h : Invariant p manifests t) (k k' : UUID) (inv : BlockInvocation)
    (hk : t.sched.pendingBlocks.lookup k = some inv)
    (hk' : t.sched.pendingBlocks.lookup k' = some inv) : k = k' := by
  rcases h.indexing.keyed k inv hk with ⟨hn, rfl⟩ | ⟨i, hi, rfl⟩ <;>
  rcases h.indexing.keyed k' inv hk' with ⟨hn', rfl⟩ | ⟨j, hj, rfl⟩
  · rfl
  · rw [hn] at hj
    cases hj
  · rw [hn'] at hi
    cases hi
  · rw [hi, Option.some.injEq, Nat.cast_inj] at hj
    rw [hj]

theorem Invariant.single_map (hacc : Accepted p manifests) (hkeys : KeysApart p)
    (h : Invariant p manifests t) (hs : Single t.handedOut t.sched) (σ : MapOrder)
    {inv : BlockInvocation} {result : BlockInvocationResult} (hinv : inv ∈ t.handedOut)
    (hid : result.id = inv.id) (hfresh : inv.mapIndex = none → inv.id ∉ t.sched.completedBlocks)
    (honce : t.sched.SpreadsOnce result) :
    Single t.handedOut (t.sched.handleMap σ result) := by
  by_cases hskip : result.items = [] ∨ t.sched.mapContexts.lookup result.id = none
  · rwa [handleMap_skip σ hskip]
  obtain ⟨hne, hctx⟩ := not_or.mp hskip
  obtain ⟨ctx, hctx⟩ := Option.ne_none_iff_exists'.mp hctx
  obtain ⟨hk, hmapped, -⟩ := h.causal.contexts _ _ hctx
  rw [hid] at hk hmapped
  have hnew : inv.id ∉ t.sched.completedBlocks :=
    hfresh (unindexed hacc h.causal h.indexing (Or.inr hinv) hk)
  let recorded : SinglePipelineScheduler := { t.sched with
    mapContexts := t.sched.mapContexts.insert result.id { ctx with expansionItems := result.items }
    completedBlocks := t.sched.completedBlocks.insert result.id result }
  have hrec : Single t.handedOut recorded := ⟨hs.once, hs.apart⟩
  have hout : t.sched.handleMap σ result =
      (σ.keys ctx.mappedBlockIDs).foldl (fanOut result.items.length) recorded := by
    unfold handleMap
    simp only [hne, if_false, hctx, recorded]
  rw [hout]
  refine hrec.foldl_fanOut hacc.nodup hkeys (σ.range_nodup _) ?_ h.causal.pipeline
    (h.indexing.based hacc hkeys h.causal) fun b hb hm => ⟨fun i _ hrel => ?_, fun hr i hi k hl => ?_⟩
  · exact fun id hm => ((hmapped id).mp ((σ.mem_keys _ _).mp hm)).mem_blockIDs
  · exact hnew (h.causal.upstream hacc ((hmapped _).mp ((σ.mem_keys _ _).mp hm)) _
      ((List.mem_append.mp hrel).symm) rfl)
  · have hkey : k = newSHA1 b.id (itoa i) := by
      rcases h.indexing.keyed k _ hl with ⟨hn, -⟩ | ⟨j, hj, hk⟩
      · cases hn
      · rw [hk]
        have hij : i = j := by simpa [PipelineBlock.invocation] using hj
        rw [hij]
        rfl
    rw [hkey] at hl
    exact honce ctx hctx b (by rw [h.causal.pipeline]; exact hb) ((σ.mem_keys _ _).mp hm) hr i hi
      (GoMap.mem_of_lookup hl)

theorem Invariant.single_report (hacc : Accepted p manifests) (hkeys : KeysApart p)
    (h : Invariant p manifests t) (hs : Single t.handedOut t.sched) (σ : MapOrder)
    {inv : BlockInvocation} {result : BlockInvocationResult} (hinv : inv ∈ t.handedOut)
    (hid : result.id = inv.id) (hfresh : inv.mapIndex = none → inv.id ∉ t.sched.completedBlocks)
    (hmaps : result.status = .map → t.sched.SpreadsOnce result)
    (hreds : result.status = .reduce → t.sched.GathersOnce t.handedOut) :
    Single t.handedOut (t.sched.update σ result) := by
  by_cases herr : result.status = .error
  · rw [update_error σ _ herr]
    exact hs.clear true
  by_cases hcomp : result.status = .complete
  · rw [update_complete σ _ hcomp]
    have hrec : Single t.handedOut { t.sched with
        completedBlocks := t.sched.completedBlocks.insert result.id result } := ⟨hs.once, hs.apart⟩
    exact hrec.promote σ h.key
  by_cases hmap : result.status = .map
  · rw [update_map σ _ hmap]
    exact (h.single_map hacc hkeys hs σ hinv hid hfresh (hmaps hmap)).promote σ
      (h.record_map hacc hkeys σ hinv hid hfresh hmap).key
  by_cases hred : result.status = .reduce
  · rw [update_reduce σ _ hred]
    refine hs.gather (fun k i hk hn => ?_) (hreds hred) σ
    rcases h.indexing.keyed k i hk with ⟨-, hki⟩ | ⟨j, hj, -⟩
    · exact hki
    · rw [hn] at hj
      cases hj
  · rwa [update_other σ _ herr hcomp hmap hred]

/-- What the invariant says about the ids under which invocations are known. -/
theorem Invariant.ids_nodup (hacc : Accepted p manifests) (h : Invariant p manifests t)
    (hs : Single t.handedOut t.sched) :
    (t.handedOut.map BlockInvocation.invocationID).Nodup := by
  refine List.Nodup.map_on ?_ (List.nodup_append.mp hs.once).1
  intro a ha b hb heq
  have hmade := fun i hi => h.causal.made i (Or.inr (Or.inl hi))
  have hidx : ∀ i ∈ t.handedOut, i.mapIndex = none ∨ ∃ n : ℕ, i.mapIndex = some (n : Int) := by
    intro i hi
    rcases h.indexing.indexed i (Or.inr (Or.inl hi)) with hn | ⟨_, _, n, hn, -⟩
    · exact Or.inl hn
    · exact Or.inr ⟨n, hn⟩
  have hindexed : ∀ i ∈ t.handedOut, i.Indexed := by
    intro i hi j hj
    rcases hidx i hi with hn | ⟨n, hn⟩
    · rw [hn] at hj
      cases hj
    · rw [hn] at hj
      cases hj
      exact Int.natCast_nonneg n
  obtain ⟨hida, hnonea, -⟩ := parse_invocationID a (hindexed a ha)
  obtain ⟨hidb, hnoneb, -⟩ := parse_invocationID b (hindexed b hb)
  have hid : a.id = b.id := by rw [← hida, heq, hidb]
  have hmi : a.mapIndex = b.mapIndex := by
    rcases hidx a ha with hn | ⟨i, hi⟩
    · rw [hn, eq_comm, ← hnoneb, ← heq, hnonea, hn]
    · rcases hidx b hb with hn | ⟨j, hj⟩
      · have hna : a.mapIndex = none := by rw [← hnonea, heq, hnoneb, hn]
        rw [hna, hn]
      · rw [hi, hj]
        unfold BlockInvocation.invocationID at heq
        rw [hi, hj, hid] at heq
        have htext := congrArg String.toList heq
        simp only [String.toList_append, List.append_assoc, List.append_cancel_left_eq] at htext
        rw [itoa_injective (String.toList_injective htext)]
  obtain ⟨c, hc, hca⟩ := hmade a ha
  obtain ⟨d, hd, hdb⟩ := hmade b hb
  have hcd : c = d := unique_of_nodup hacc.nodup hc hd (by
    rw [hca, hdb] at hid
    exact hid)
  rw [hca, hdb, hcd, hmi]

omit [UUIDPackage] in
theorem single_start (hacc : Accepted p manifests) :
    Single (start p manifests).handedOut (start p manifests).sched := by
  obtain ⟨g, hg, -⟩ := hacc.graph
  obtain ⟨-, -, -, -, -, he, hl, -⟩ := registered_queues manifests hg
  refine ⟨?_, fun k inv hk hm => ?_⟩
  · change ([] ++ (registered p manifests).executableBlocks).Nodup
    rw [he, List.nil_append]
    exact List.Nodup.of_map BlockInvocation.id (by
      rw [List.map_map]
      exact hacc.nodup.sublist (List.filter_sublist.map PipelineBlock.id))
  · obtain ⟨b, hb, hin, -, rfl⟩ := hl k inv hk
    obtain ⟨c, hc, hcin, heq⟩ := released_start hacc (.inl hm)
    rw [unique_of_nodup hacc.nodup hc hb (congrArg BlockInvocation.id heq).symm] at hcin
    exact hin hcin

/-- No invocation is handed out twice as long as none is released twice. -/
theorem handed_out_once {τ : MapOrder} (hval : validatePipeline τ p manifests = [])
    (hkeys : KeysApart p) {calls : List Call}
    (hrun : Runs.Along call FirstsOnce (start p manifests) calls) :
    Runs.Always call (fun t => (t.handedOut.map BlockInvocation.invocationID).Nodup)
      (start p manifests) calls := by
  have hacc := accepted_of_validate hval
  have hkeep : ∀ t c, Invariant p manifests t ∧ Single t.handedOut t.sched → t.FirstsOnce c →
      Invariant p manifests (t.call c) ∧ Single (t.call c).handedOut (t.call c).sched := by
    rintro t c ⟨h, hs⟩ ⟨hfirst, honce⟩
    refine ⟨h.call hacc hkeys hfirst, ?_⟩
    have htaken : ∀ out rest, t.sched.executableBlocks = out ++ rest →
        Single (t.taken out rest).handedOut (t.taken out rest).sched := by
      intro out rest he
      obtain ⟨hnodup, hapart⟩ := hs
      rw [he, ← List.append_assoc] at hnodup
      refine ⟨hnodup, fun k inv hk => ?_⟩
      have hout := hapart k inv hk
      rwa [he, ← List.append_assoc] at hout
    cases c with
    | next =>
      obtain ⟨out, rest, he, heq⟩ := t.next_taken
      rw [Trace.call, heq]
      exact htaken out rest he
    | drain => exact htaken _ _ (List.append_nil _).symm
    | report σ n result =>
      obtain ⟨inv, hinv, hfresh, hid, heq⟩ := hfirst.report
      rw [heq]
      exact h.single_report hacc hkeys hs σ hinv hid (h.fresh hinv hfresh) honce.1 honce.2
  exact (Runs.always_of_along call hkeep ⟨⟨causal_start hacc, indexing_start hacc⟩,
    single_start hacc⟩ hrun).mono call fun _ h => h.1.ids_nodup hacc h.2

end
end Trace
end Spade

namespace Spade.Trace
open Samples Uuid

/-- The source of `mapped`, its map block, and one of the two invocations of its step. -/
def spreadCalls : List Call := [.next, .report .stored 0 (completed 1), .next,
  .report .stored 1 (expanded 2 2), .drain, .report .stored 2 (completed 3), .drain]

theorem handed_out_once_mapped :
    Runs.Always call (fun t => (t.handedOut.map BlockInvocation.invocationID).Nodup)
      (start mapped manifests) spreadCalls := by
  have hval : validatePipeline .stored mapped manifests = [] := by decide
  exact handed_out_once hval (keysApart (by decide)) (by decide +kernel)

/-- Two map blocks side by side expand the block that reads both. -/
def forkCalls : List Call := [.next, .report .stored 0 (completed 1), .drain,
  .report .stored 1 (expanded 3 1), .report .stored 2 (expanded 2 1), .drain]

theorem handed_out_once_fails : validatePipeline .stored fork manifests = [] ∧
    Runs.Along call Firsts (start fork manifests) forkCalls ∧
    ¬((Runs.run call (start fork manifests) forkCalls).handedOut.map
      BlockInvocation.invocationID).Nodup := by
  refine ⟨?_, ?_, ?_⟩ <;> decide +kernel

end Spade.Trace
