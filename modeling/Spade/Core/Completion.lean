import Spade.Core.Barrier
import Spade.Core.Idle

set_option autoImplicit false

/-!
# What is reported when both queues run empty

Every block stands in a queue or has been handed out as long as the pipeline is not
cancelled. With one sink and one item per expansion, the result that finds both
queues empty and leaves them so is the last one.
-/
namespace Spade
open UUIDPackage
variable [UUIDPackage]

/-- Blocks that no block takes an input from. -/
def Pipeline.sinks (p : Pipeline) : List UUID :=
  (p.blocks.filter fun b => p.blocks.all fun c => c.inputs.all fun r => r.depID ≠ b.id).map
    PipelineBlock.id

/-- The pipelines whose completion cannot go wrong: one sink, and keys of first invocations
that differ from each other and from the block ids. -/
structure OneSink (p : Pipeline) : Prop where
  apart : KeysApart p
  distinct : ∀ a ∈ p.blockIDs, ∀ b ∈ p.blockIDs, newSHA1 a (itoa 0) = newSHA1 b (itoa 0) → a = b
  sink : p.sinks.length ≤ 1

namespace SinglePipelineScheduler

/-- The expansion has one item at most, or nothing depends on the map block but reduce blocks. -/
def single (s : SinglePipelineScheduler) (r : BlockInvocationResult) : Bool :=
  r.status ≠ .map || r.items.length ≤ 1 || s.mapContexts.items.all fun e =>
    e.1 ≠ r.id || e.2.mappedBlockIDs.items.isEmpty

omit [UUIDPackage] in
theorem single_iff {s : SinglePipelineScheduler} {r : BlockInvocationResult} :
    s.single r = true ↔ (r.status = .map → ∀ ctx, s.mapContexts.lookup r.id = some ctx →
      (∃ d, d ∈ ctx.mappedBlockIDs) → r.items.length ≤ 1) := by
  simp only [single, Bool.or_eq_true, decide_eq_true_eq, List.all_eq_true, Prod.forall,
    GoMap.mem_items, List.isEmpty_iff, GoMap.items_eq_nil]
  constructor
  · rintro ((h | h) | h) hs ctx hctx ⟨d, hd⟩
    · exact absurd hs h
    · exact h
    · rcases h r.id ctx hctx with h | h
      · exact absurd rfl h
      · rw [h] at hd
        exact absurd hd (AList.notMem_empty d)
  · intro h
    by_cases hs : r.status = .map
    · by_cases hl : r.items.length ≤ 1
      · exact Or.inl (Or.inr hl)
      · refine Or.inr fun m ctx hm => or_iff_not_imp_left.mpr fun hid => ?_
        have hid' : m = r.id := not_not.mp hid
        subst hid'
        refine GoMap.eq_empty_of_lookup fun k => AList.lookup_eq_none.mpr fun hk => ?_
        exact hl (h hs ctx hm ⟨k, hk⟩)
    · exact Or.inl (Or.inl hs)

/-- No result before which completion can come too early. -/
def completionGuard (s : SinglePipelineScheduler) (r : BlockInvocationResult) : Bool :=
  s.single r && s.reduceSafe r

end SinglePipelineScheduler

namespace Trace
open SinglePipelineScheduler

/-- The guard on results; a repeated one must not meet empty queues. -/
def Completing (t : Trace) (inv : BlockInvocation) (r : BlockInvocationResult) : Prop :=
  t.sched.completionGuard r = true ∧
    (t.sched.idle = true → ∀ e ∈ t.reported, e.1.invocationID ≠ inv.invocationID)

/-- Block `id` stands in a queue or has been handed out. -/
def Present (t : Trace) (id : UUID) : Prop :=
  (∃ inv, t.Released inv ∧ inv.id = id) ∨ id ∈ t.sched.pendingBlocks ∨
    newSHA1 id (itoa 0) ∈ t.sched.pendingBlocks

variable {p : Pipeline} {manifests : Manifests} {t : Trace}

theorem single_bound (hacc : Accepted p manifests) (h : Reachable p manifests Completing t) :
    ∀ m n, FannedOut p manifests t m n → (∃ d, Downstream p manifests m d) → n ≤ 1 := by
  refine fannedOut_le hacc ?_ h
  rintro t inv r hf hq hs hk ⟨d, hd⟩
  obtain ⟨ctx, hctx⟩ := GoMap.lookup_of_mem (hf.has r.id hk)
  have hq' := hq.1
  simp only [completionGuard, Bool.and_eq_true] at hq'
  exact single_iff.mp hq'.1 hs ctx hctx ⟨d, ((hf.contexts _ _ hctx).2.1 d).mpr hd⟩

/-- Under the key of a block or of its first invocation stands an invocation of the block. -/
theorem pending_owner (hone : OneSink p) (h : Invariant p manifests t)
    (hb : ∀ m n, FannedOut p manifests t m n → (∃ d, Downstream p manifests m d) → n ≤ 1)
    {id : UUID} (hid : id ∈ p.blockIDs) {k : UUID} (hk : k = id ∨ k = newSHA1 id (itoa 0))
    {inv : BlockInvocation} (hl : t.sched.pendingBlocks.lookup k = some inv) : inv.id = id := by
  have hholds : t.Holds inv := Or.inr (Or.inr ⟨k, hl⟩)
  have hmem := (made_inputs h.causal hholds).1
  rcases h.indexing.keyed k inv hl with ⟨-, hkey⟩ | ⟨i, hidx, hkey⟩
  · rcases hk with rfl | rfl
    · exact hkey.symm
    · exact absurd (hkey ▸ hmem) (hone.apart id hid 0)
  · rcases hk with rfl | rfl
    · exact absurd (hkey ▸ hid) (hone.apart inv.id hmem i)
    · have hi : i = 0 := by
        rcases h.indexing.indexed inv hholds with hn | ⟨m, n, j, hj, hlt, hf, hd⟩
        · rw [hidx] at hn
          cases hn
        · have hle := hb m n hf ⟨_, hd⟩
          rw [hidx] at hj
          have hij : (i : Int) = j := Option.some.inj hj
          omega
      subst hi
      exact (hone.distinct id hid inv.id hmem hkey).symm

theorem Present.promote (hone : OneSink p)
    (h : Invariant p manifests t)
    (hb : ∀ m n, FannedOut p manifests t m n → (∃ d, Downstream p manifests m d) → n ≤ 1)
    {id : UUID} (hid : id ∈ p.blockIDs) (hp : t.Present id) (σ : MapOrder) :
    Present { t with sched := t.sched.promoteReady σ } id := by
  obtain ⟨-, -, -, -, hexec, hpend⟩ := promoteReady_spec σ t.sched
  have pending : ∀ k, (k = id ∨ k = newSHA1 id (itoa 0)) → k ∈ t.sched.pendingBlocks →
      (∃ inv, Released { t with sched := t.sched.promoteReady σ } inv ∧ inv.id = id) ∨
        k ∈ (t.sched.promoteReady σ).pendingBlocks := by
    intro k hk hmem
    obtain ⟨inv, hl⟩ := GoMap.lookup_of_mem hmem
    by_cases hr : t.sched.ready inv = true
    · exact Or.inl ⟨inv, Or.inl ((hexec inv).mpr (Or.inr ⟨k, hl, hr⟩)),
        pending_owner hone h hb hid hk hl⟩
    · exact Or.inr (GoMap.mem_of_lookup ((hpend k inv).mpr ⟨hl, by simpa using hr⟩))
  rcases hp with ⟨inv, hrel, hi⟩ | hmem | hmem
  · exact Or.inl ⟨inv, hrel.imp_left fun h => (hexec inv).mpr (Or.inl h), hi⟩
  · exact (pending id (Or.inl rfl) hmem).imp_right Or.inl
  · exact (pending _ (Or.inr rfl) hmem).imp_right Or.inr

/-- As long as the pipeline is not cancelled no block gets lost. -/
theorem present_of_reachable (hacc : Accepted p manifests) (hone : OneSink p)
    (h : Reachable p manifests Completing t) :
    t.sched.cancelled = false → ∀ id ∈ p.blockIDs, t.Present id := by
  induction h with
  | start =>
    intro _ id hid
    obtain ⟨g, hg, -⟩ := hacc.graph
    obtain ⟨-, -, -, -, -, he, -, hpend⟩ := registered_queues manifests hg
    obtain ⟨b, hb, rfl⟩ := List.mem_map.mp hid
    by_cases hin : b.inputs = []
    · refine Or.inl ⟨b.invocation p.id none, Or.inl ?_, rfl⟩
      change _ ∈ (registered p manifests).executableBlocks
      rw [he]
      exact List.mem_map_of_mem (List.mem_filter.mpr ⟨hb, by simp [hin]⟩)
    · exact Or.inr (Or.inl (hpend b hb hin))
  | @handOut t _ ih =>
    intro hc id hid
    rcases ih hc id hid with ⟨inv, hrel, hi⟩ | hp
    · refine Or.inl ⟨inv, Or.inr (List.mem_append.mpr ?_), hi⟩
      exact hrel.symm
    · exact Or.inr hp
  | @requeue t inv _ _ ih =>
    intro hc id hid
    rcases ih hc id hid with ⟨i, hrel, hi⟩ | hp
    · exact Or.inl ⟨i, hrel.imp_left fun h => List.mem_cons_of_mem _ h, hi⟩
    · exact Or.inr hp
  | cancel => exact fun hc => by cases hc
  | @report t σ inv r hreach hinv hid hfresh hq ih =>
    intro hc id hidm
    have hI := invariant_of_reachable hacc hone.apart hreach
    have hbound := single_bound hacc (hreach.report (σ := σ) hinv hid hfresh hq)
    have hstatic := (update_static σ t.sched r).2.1
    have hold : t.sched.cancelled = false ∧ r.status ≠ .error := by
      have hc' : (t.sched.update σ r).cancelled = false := hc
      rw [hstatic] at hc'
      simpa using hc'
    have hp := ih hold.1 id hidm
    change Present { t with sched := t.sched.update σ r, reported := t.reported ++ [(inv, r)] } id
    by_cases hcomp : r.status = .complete
    · rw [update_complete σ _ hcomp]
      exact Present.promote hone (hI.record_complete hinv hid hcomp) hbound hidm hp σ
    by_cases hmap : r.status = .map
    · rw [update_map σ _ hmap]
      refine Present.promote hone (hI.record_map hacc hone.apart σ hinv hid hfresh hmap) hbound hidm
        ?_ σ
      by_cases hne : r.items = []
      · rw [handleMap_skip σ (Or.inl hne)]
        exact hp
      · cases hctx : t.sched.mapContexts.lookup r.id with
        | none =>
          rw [handleMap_skip σ (Or.inr hctx)]
          exact hp
        | some ctx =>
          obtain ⟨-, hmapped, -⟩ := hI.causal.contexts _ _ hctx
          obtain ⟨ids, hids, hspread⟩ := handleMap_spread hacc.nodup hone.apart σ hI.causal.pipeline
            (hI.indexing.based hacc hone.apart hI.causal) hne hctx
            fun id hm => ((hmapped id).mp hm).mem_blockIDs
          have hin : ∀ d ∈ ids, d ∈ p.blockIDs := fun d hd =>
            ((hmapped d).mp ((hids d).mp hd)).mem_blockIDs
          obtain ⟨b, hb, rfl⟩ := List.mem_map.mp hidm
          by_cases hb' : b.id ∈ ids
          · rcases hspread.made b hb hb' 0 (List.length_pos_iff.mpr hne) with hm | hm
            · exact Or.inl ⟨_, Or.inl hm, rfl⟩
            · exact Or.inr (Or.inr hm)
          · rcases hp with ⟨i, hrel, hi⟩ | hm | hm
            · exact Or.inl ⟨i, hrel.imp_left (hspread.stays i), hi⟩
            · exact Or.inr (Or.inl (hspread.kept _ hm hb'))
            · exact Or.inr (Or.inr (hspread.kept _ hm fun h => hone.apart _ hidm 0 (hin _ h)))
    by_cases hred : r.status = .reduce
    · rw [update_reduce σ _ hred]
      have hg := handleReduce_gathered σ t.sched
      rcases hp with ⟨i, hrel, hi⟩ | hm | hm
      · exact Or.inl ⟨i, hrel.imp_left (hg.stays i), hi⟩
      · rcases hg.kept _ hm with hm | ⟨b, hb, hbk, hm⟩
        · exact Or.inr (Or.inl hm)
        · exact Or.inl ⟨_, Or.inl hm, hbk⟩
      · rcases hg.kept _ hm with hm | ⟨b, hb, hbk, -⟩
        · exact Or.inr (Or.inr hm)
        · rw [hI.causal.pipeline] at hb
          exact absurd (hbk ▸ List.mem_map_of_mem hb) (hone.apart id hidm 0)
    · rw [update_other σ _ hold.2 hcomp hmap hred]
      exact hp

/-- A pipeline that is not cancelled has had no error result. -/
theorem no_error_of_reachable {Q : Trace → BlockInvocation → BlockInvocationResult → Prop}
    (h : Reachable p manifests Q t) :
    t.sched.cancelled = false → ∀ e ∈ t.reported, e.2.status ≠ .error := by
  induction h with
  | start => exact fun _ _ h => absurd h List.not_mem_nil
  | handOut _ ih => exact ih
  | requeue _ _ ih => exact ih
  | cancel => exact fun hc => by cases hc
  | @report t σ inv r _ _ _ _ _ ih =>
    intro hc e he
    have hc' : (t.sched.update σ r).cancelled = false := hc
    rw [(update_static σ t.sched r).2.1] at hc'
    obtain ⟨hold, hne⟩ : t.sched.cancelled = false ∧ r.status ≠ .error := by simpa using hc'
    rcases List.mem_append.mp he with he | he
    · exact ih hold e he
    · rw [List.mem_singleton.mp he]
      exact hne

omit [UUIDPackage] in
/-- Every block that is read by some block has been completed once all are handed out. -/
theorem sink_of_open (hacc : Accepted p manifests)
    (hready : ∀ inv, t.Released inv → t.sched.ready inv = true)
    (hmade : ∀ inv, t.Holds inv → ∃ b ∈ p.blocks, inv = b.invocation p.id inv.mapIndex)
    (hall : ∀ id ∈ p.blockIDs, ∃ inv, t.Released inv ∧ inv.id = id) {id : UUID}
    (hid : id ∈ p.blockIDs) (hopen : id ∉ t.sched.completedBlocks) : id ∈ p.sinks := by
  obtain ⟨b, hb, rfl⟩ := List.mem_map.mp hid
  refine List.mem_map_of_mem (List.mem_filter.mpr ⟨hb, ?_⟩)
  simp only [List.all_eq_true, decide_eq_true_eq]
  intro c hc r hr hdep
  obtain ⟨inv, hrel, hic⟩ := hall c.id (List.mem_map_of_mem hc)
  obtain ⟨c', hc', heq⟩ := hmade inv hrel.holds
  have hcc : c' = c := unique_of_nodup hacc.nodup hc' hc (by rw [← hic, heq]; rfl)
  have hin : inv.inputs = c.inputs := by rw [heq, hcc]; rfl
  have hr' : r ∈ inv.inputs := by rwa [hin]
  exact hopen (hdep ▸ depsCompleted_iff.mp (hready inv hrel) r hr' (hacc.known c hc r hr).1)

/-- With single items an invocation is determined by its block once that has been handed out. -/
theorem same_invocation (hacc : Accepted p manifests) (h : Invariant p manifests t)
    (hb : ∀ m n, FannedOut p manifests t m n → (∃ d, Downstream p manifests m d) → n ≤ 1)
    {i j : BlockInvocation} (hi : t.Holds i) (hj : t.Holds j) (hid : i.id = j.id) : i = j := by
  obtain ⟨b, hbm, hbe⟩ := h.causal.made i hi
  obtain ⟨c, hcm, hce⟩ := h.causal.made j hj
  have hbc : b = c := by
    refine unique_of_nodup hacc.nodup hbm hcm ?_
    have h₁ : i.id = b.id := by rw [hbe]; rfl
    have h₂ : j.id = c.id := by rw [hce]; rfl
    rw [← h₁, ← h₂, hid]
  have hidx : i.mapIndex = j.mapIndex := by
    rcases h.indexing.indexed i hi with hn | ⟨m, n, k, hk, hlt, hf, hd⟩
    · rcases h.indexing.indexed j hj with hn' | ⟨m, n, k, hk, hlt, hf, hd⟩
      · rw [hn, hn']
      · exact absurd hn (h.indexing.spread m n i hf (hid ▸ hd) hi)
    · rcases h.indexing.indexed j hj with hn' | ⟨m', n', k', hk', hlt', hf', hd'⟩
      · exact absurd hn' (h.indexing.spread m n j hf (hid ▸ hd) hj)
      · have h₁ := hb m n hf ⟨_, hd⟩
        have h₂ := hb m' n' hf' ⟨_, hd'⟩
        have hkk : k = k' := by omega
        rw [hk, hk', hkk]
  rw [hbe, hce, hbc, hidx]

/-- The result after which both queues are empty is the last one. -/
theorem all_reported (hacc : Accepted p manifests) (hone : OneSink p) {σ : MapOrder}
    (h : Reachable p manifests Completing t) {inv : BlockInvocation} {r : BlockInvocationResult}
    (hinv : inv ∈ t.handedOut) (hid : r.id = inv.id)
    (hfresh : inv.mapIndex = none → inv.id ∉ t.sched.completedBlocks) (hq : Completing t inv r)
    (hidle : (t.report σ inv r).sched.idle = true)
    (hcan : (t.report σ inv r).sched.cancelled = false) :
    (∀ id ∈ p.blockIDs, ∃ e ∈ (t.report σ inv r).reported, e.1.id = id) ∧
    ∀ i, (t.report σ inv r).Holds i → ∃ e ∈ (t.report σ inv r).reported, e.1 = i := by
  have hI := invariant_of_reachable hacc hone.apart h
  have hI' := hI.report hacc hone.apart σ hinv hid hfresh
  have hbound := single_bound hacc h
  have hbound' := single_bound hacc (h.report (σ := σ) hinv hid hfresh hq)
  have hready := released_ready hacc hone.apart (fun t inv r hq => by
    have hg := hq.1
    simp only [completionGuard, Bool.and_eq_true] at hg
    exact hg.2) h
  have hstatic := (update_static σ t.sched r).2.1
  obtain ⟨hold, hne⟩ : t.sched.cancelled = false ∧ r.status ≠ .error := by
    have hc' : (t.sched.update σ r).cancelled = false := hcan
    rw [hstatic] at hc'
    simpa using hc'
  have hbefore : t.sched.idle = true := by
    have hafter : (t.sched.update σ r).idle = true := hidle
    rw [idle_update σ _ hne, Bool.and_eq_true] at hafter
    exact hafter.1
  obtain ⟨hp, he⟩ := idle_iff.mp hbefore
  have hall : ∀ id ∈ p.blockIDs, ∃ i, t.Released i ∧ i.id = id := by
    intro id hm
    rcases present_of_reachable hacc hone h hold id hm with hr | hr | hr
    · exact hr
    · exact absurd hr (hp _)
    · exact absurd hr (hp _)
  have hlast : inv.id ∉ t.sched.completedBlocks := by
    intro hc
    obtain ⟨e, hem, hek, -⟩ := hI.causal.recorded _ hc
    have heq := same_invocation hacc hI hbound (Or.inr (Or.inl (hI.causal.reported e hem).1))
      (Or.inr (Or.inl hinv)) hek
    exact hq.2 hbefore e hem (by rw [heq])
  have hmem : inv.id ∈ p.blockIDs := (made_inputs hI.causal (Or.inr (Or.inl hinv))).1
  have hblocks : ∀ id ∈ p.blockIDs, ∃ e ∈ (t.report σ inv r).reported, e.1.id = id := by
    intro id hm
    by_cases hc : id ∈ t.sched.completedBlocks
    · obtain ⟨e, hem, hek, -⟩ := hI.causal.recorded _ hc
      exact ⟨e, List.mem_append_left _ hem, hek⟩
    · have h₁ := sink_of_open hacc hready hI.causal.made hall hm hc
      have h₂ := sink_of_open hacc hready hI.causal.made hall hmem hlast
      have hsame : inv.id = id := by
        match hs : p.sinks, hone.sink, h₁, h₂ with
        | [x], _, h₁, h₂ => rw [List.mem_singleton.mp h₁, List.mem_singleton.mp h₂]
      exact ⟨(inv, r), by simp [Trace.report], hsame⟩
  refine ⟨hblocks, fun i hi => ?_⟩
  obtain ⟨e, hem, hek⟩ := hblocks i.id (made_inputs hI'.causal hi).1
  exact ⟨e, hem, same_invocation hacc hI' hbound'
    (Or.inr (Or.inl (hI'.causal.reported e hem).1)) hi hek⟩

end Trace
end Spade
