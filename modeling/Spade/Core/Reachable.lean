import Spade.Core.Indexing

set_option autoImplicit false

/-! # The invariant of reachable traces, and readiness of what is released -/
namespace Spade
open UUIDPackage SinglePipelineScheduler

namespace Trace
variable [UUIDPackage] {p : Pipeline} {manifests : Manifests} {t : Trace}

structure Invariant (p : Pipeline) (manifests : Manifests) (t : Trace) : Prop where
  causal : Causal p manifests t
  indexing : Indexing p manifests t

section
omit [UUIDPackage]
variable {inv : BlockInvocation}

theorem released_start (hacc : Accepted p manifests) (h : (start p manifests).Released inv) :
    ∃ b ∈ p.blocks, b.inputs = [] ∧ inv = b.invocation p.id none := by
  obtain ⟨g, hg, -⟩ := hacc.graph
  obtain ⟨-, -, -, -, -, he, -⟩ := registered_queues manifests hg
  rcases h with hi | hi
  · change inv ∈ (registered p manifests).executableBlocks at hi
    rw [he] at hi
    obtain ⟨b, hb, rfl⟩ := List.mem_map.mp hi
    obtain ⟨hb, hin⟩ := List.mem_filter.mp hb
    exact ⟨b, hb, by simpa using hin, rfl⟩
  · cases hi

theorem holds_start (hacc : Accepted p manifests) (h : (start p manifests).Holds inv) :
    ∃ b ∈ p.blocks, inv = b.invocation p.id none := by
  obtain ⟨g, hg, -⟩ := hacc.graph
  obtain ⟨-, -, -, -, -, -, hl, -⟩ := registered_queues manifests hg
  rcases h with hi | hi | ⟨k, hi⟩
  · obtain ⟨b, hb, -, rfl⟩ := released_start hacc (.inl hi)
    exact ⟨b, hb, rfl⟩
  · cases hi
  · obtain ⟨b, hb, -, -, rfl⟩ := hl k inv hi
    exact ⟨b, hb, rfl⟩

end

omit [UUIDPackage] in
theorem causal_start (hacc : Accepted p manifests) : Causal p manifests (start p manifests) := by
  obtain ⟨g, hg, -⟩ := hacc.graph
  obtain ⟨hp, -, hc, -⟩ := registered_queues manifests hg
  refine ⟨hp, ?_, ?_, ?_, ?_, ?_, fun _ h => absurd h List.not_mem_nil, ?_⟩
  · intro m ctx hm
    obtain ⟨hk, hd, hr, -⟩ := context_spec hacc hm
    exact ⟨hk, hd, hr⟩
  · exact fun m hm => GoMap.mem_iff_lookup.mpr (context_of_map hacc hm)
  · intro inv hi
    obtain ⟨b, hb, rfl⟩ := holds_start hacc hi
    exact ⟨b, hb, rfl⟩
  · intro inv hi _
    obtain ⟨b, -, hin, rfl⟩ := released_start hacc hi
    unfold ready
    rw [show (b.invocation p.id none).inputs = [] from hin]
    rfl
  · intro k hk
    change k ∈ (registered p manifests).completedBlocks at hk
    rw [hc] at hk
    simp at hk
  · intro inv hi
    obtain ⟨b, hb, hin, rfl⟩ := released_start hacc hi
    change ¬ Downstream p manifests b.id b.id
    generalize hd : b.id = d
    rintro (⟨hcm, hr, -⟩ | ⟨hcm, hr, -⟩) <;>
    · rw [unique_of_nodup hacc.nodup hcm hb hd.symm, hin] at hr
      cases hr

theorem indexing_start (hacc : Accepted p manifests) : Indexing p manifests (start p manifests) := by
  obtain ⟨g, hg, -⟩ := hacc.graph
  obtain ⟨-, -, -, -, -, he, hl, -⟩ := registered_queues manifests hg
  refine ⟨?_, ?_, ?_⟩
  · intro k inv hi
    obtain ⟨b, -, -, rfl, rfl⟩ := hl k inv hi
    exact Or.inl ⟨rfl, rfl⟩
  · rintro inv (hi | hi | ⟨k, hi⟩)
    · change inv ∈ (registered p manifests).executableBlocks at hi
      rw [he] at hi
      obtain ⟨b, -, rfl⟩ := List.mem_map.mp hi
      exact Or.inl rfl
    · cases hi
    · obtain ⟨b, -, -, -, rfl⟩ := hl k inv hi
      exact Or.inl rfl
  · rintro m n inv ⟨-, -, e, he, -⟩
    cases he

theorem Invariant.promote (hacc : Accepted p manifests) (h : Invariant p manifests t)
    (σ : MapOrder) : Invariant p manifests { t with sched := t.sched.promoteReady σ } := by
  obtain ⟨-, -, -, -, hexec, hpend⟩ := promoteReady_spec σ t.sched
  refine ⟨h.causal.promote hacc σ, h.indexing.keep (fun _ _ => Iff.rfl) ?_
    fun k inv hi => ((hpend k inv).mp hi).1⟩
  rintro inv (hi | hi | ⟨k, hi⟩)
  · rcases (hexec inv).mp hi with hi | ⟨k, hk, -⟩
    · exact Or.inl (Or.inl hi)
    · exact Or.inl (Or.inr (Or.inr ⟨k, hk⟩))
  · exact Or.inl (Or.inr (Or.inl hi))
  · exact Or.inl (Or.inr (Or.inr ⟨k, ((hpend k inv).mp hi).1⟩))

omit [UUIDPackage] in
theorem holds_taken {out rest : List BlockInvocation}
    (he : t.sched.executableBlocks = out ++ rest) (inv : BlockInvocation) :
    (t.taken out rest).Holds inv ↔ t.Holds inv := by
  simp only [Holds, taken, he, List.mem_append]
  tauto

theorem Invariant.taken (h : Invariant p manifests t) {out rest : List BlockInvocation}
    (he : t.sched.executableBlocks = out ++ rest) : Invariant p manifests (t.taken out rest) :=
  ⟨h.causal.taken he, h.indexing.keep (fun _ _ => Iff.rfl)
    (fun inv hi => Or.inl ((holds_taken he inv).mp hi)) fun _ _ hi => hi⟩

theorem Invariant.clear (h : Invariant p manifests t) (c : Bool) : Invariant p manifests { t with
    sched := { t.sched with cancelled := c, pendingBlocks := ∅, executableBlocks := [] } } := by
  refine ⟨h.causal.clear c, h.indexing.keep (fun _ _ => Iff.rfl) ?_ ?_⟩
  · rintro inv (hi | hi | ⟨k, hi⟩)
    · cases hi
    · exact Or.inl (Or.inr (Or.inl hi))
    · simp at hi
  · intro k inv hi
    simp at hi

theorem Invariant.note (h : Invariant p manifests t) {inv : BlockInvocation}
    {result : BlockInvocationResult} (hinv : inv ∈ t.handedOut) (hid : result.id = inv.id)
    (hno : result.status = .map → p.kind manifests inv.id = some .map → result.items = []) :
    Invariant p manifests { t with reported := t.reported ++ [(inv, result)] } :=
  ⟨h.causal.note hinv hid,
    h.indexing.keep (fun _ _ => fannedOut_note hno) (fun _ hi => Or.inl hi) fun _ _ hi => hi⟩

theorem Invariant.gather (hacc : Accepted p manifests) (h : Invariant p manifests t)
    (σ : MapOrder) : Invariant p manifests { t with sched := t.sched.handleReduce σ } := by
  have hg := handleReduce_gathered σ t.sched
  have hnew : ∀ inv ∈ (t.sched.handleReduce σ).executableBlocks, inv ∈ t.sched.executableBlocks ∨
      (∃ b ∈ p.blocks, inv = b.invocation p.id none) ∧ p.kind manifests inv.id = some .reduce := by
    intro inv hi
    rcases hg.executable inv hi with hi | ⟨m, ctx, b, hm, hgath, hb, hid, rfl⟩
    · exact Or.inl hi
    · rw [h.causal.pipeline] at hb ⊢
      have hnil : ctx.reduceBlockID ≠ UUID.nil := by
        intro hn
        simp [gathers, hn] at hgath
      refine Or.inr ⟨⟨b, hb, rfl⟩, ?_⟩
      change p.kind manifests b.id = some .reduce
      rw [hid]
      exact (h.causal.contexts m ctx hm).2.2.resolve_left hnil
  refine ⟨h.causal.queues hacc hg.same ?_ ?_, h.indexing.keep (fun _ _ => Iff.rfl) ?_ hg.pending⟩
  · intro inv hi
    rcases hnew inv hi with hi | ⟨⟨b, hb, heq⟩, hk⟩
    · exact Or.inl (Or.inl hi)
    · exact Or.inr ⟨⟨b, hb, by rw [heq]; rfl⟩, Or.inl hk⟩
  · exact fun k inv hi => h.causal.made inv (Or.inr (Or.inr ⟨k, hg.pending k inv hi⟩))
  · rintro inv (hi | hi | ⟨k, hi⟩)
    · rcases hnew inv hi with hi | ⟨⟨b, hb, heq⟩, hk⟩
      · exact Or.inl (Or.inl hi)
      · exact Or.inr ⟨by rw [heq]; rfl, hk⟩
    · exact Or.inl (Or.inr (Or.inl hi))
    · exact Or.inl (Or.inr (Or.inr ⟨k, hg.pending k inv hi⟩))

theorem Invariant.record_complete (h : Invariant p manifests t) {inv : BlockInvocation}
    {result : BlockInvocationResult} (hinv : inv ∈ t.handedOut) (hid : result.id = inv.id)
    (hcomp : result.status = .complete) : Invariant p manifests { t with
      sched := { t.sched with completedBlocks := t.sched.completedBlocks.insert result.id result }
      reported := t.reported ++ [(inv, result)] } :=
  ⟨h.causal.record hinv hid (Or.inl hcomp) (fun _ c hm => ⟨c, hm, rfl, rfl⟩) fun _ hm => hm,
    h.indexing.keep (fun _ _ => fannedOut_note (by rw [hcomp]; exact nofun))
      (fun _ hi => Or.inl hi) fun _ _ hi => hi⟩

theorem Invariant.record_map (hacc : Accepted p manifests) (hkeys : KeysApart p)
    (h : Invariant p manifests t) (σ : MapOrder) {inv : BlockInvocation}
    {result : BlockInvocationResult} (hinv : inv ∈ t.handedOut) (hid : result.id = inv.id)
    (hfresh : inv.mapIndex = none → inv.id ∉ t.sched.completedBlocks)
    (hmap : result.status = .map) : Invariant p manifests { t with
      sched := t.sched.handleMap σ result, reported := t.reported ++ [(inv, result)] } := by
  by_cases heff : p.kind manifests inv.id = some .map ∧ result.items ≠ []
  · obtain ⟨hc, hi⟩ :=
      map_step hacc hkeys σ h.causal h.indexing hinv hid hfresh hmap heff.1 heff.2
    exact ⟨hc, hi⟩
  · have hskip : t.sched.handleMap σ result = t.sched := by
      apply handleMap_skip
      by_cases hne : result.items = []
      · exact Or.inl hne
      · refine Or.inr ?_
        cases hl : t.sched.mapContexts.lookup result.id with
        | none => rfl
        | some ctx =>
          exact absurd ⟨hid ▸ (h.causal.contexts _ _ hl).1, hne⟩ heff
    rw [hskip]
    exact h.note hinv hid fun _ hk => not_not.mp fun hne => heff ⟨hk, hne⟩

/-- One result of an invocation that was handed out keeps the invariant. -/
theorem Invariant.report (hacc : Accepted p manifests) (hkeys : KeysApart p)
    (h : Invariant p manifests t) (σ : MapOrder) {inv : BlockInvocation}
    {result : BlockInvocationResult} (hinv : inv ∈ t.handedOut) (hid : result.id = inv.id)
    (hfresh : inv.mapIndex = none → inv.id ∉ t.sched.completedBlocks) :
    Invariant p manifests (t.report σ inv result) := by
  unfold Trace.report
  by_cases herr : result.status = .error
  · rw [update_error σ _ herr]
    exact (h.note hinv hid (by rw [herr]; exact nofun)).clear true
  by_cases hcomp : result.status = .complete
  · rw [update_complete σ _ hcomp]
    exact (h.record_complete hinv hid hcomp).promote hacc σ
  by_cases hmap : result.status = .map
  · rw [update_map σ _ hmap]
    exact (h.record_map hacc hkeys σ hinv hid hfresh hmap).promote hacc σ
  by_cases hred : result.status = .reduce
  · rw [update_reduce σ _ hred]
    exact (h.note hinv hid (by rw [hred]; exact nofun)).gather hacc σ
  · rw [update_other σ _ herr hcomp hmap hred]
    exact h.note hinv hid fun hs => absurd hs hmap

theorem invariant_of_reachable (hacc : Accepted p manifests) (hkeys : KeysApart p)
    {Q : Trace → BlockInvocation → BlockInvocationResult → Prop}
    (h : Reachable p manifests Q t) : Invariant p manifests t := by
  induction h with
  | start => exact ⟨causal_start hacc, indexing_start hacc⟩
  | @handOut t _ ih => exact ih.taken (List.append_nil _).symm
  | @requeue t inv _ hinv ih =>
    refine ⟨ih.causal.queues hacc rfl ?_ ?_, ih.indexing.keep (fun _ _ => Iff.rfl) ?_ fun _ _ hi => hi⟩
    · intro i hi
      rcases List.mem_cons.mp hi with rfl | hi
      · exact Or.inl (Or.inr hinv)
      · exact Or.inl (Or.inl hi)
    · exact fun k i hi => ih.causal.made i (Or.inr (Or.inr ⟨k, hi⟩))
    · rintro i (hi | hi | hi)
      · rcases List.mem_cons.mp hi with rfl | hi
        · exact Or.inl (Or.inr (Or.inl hinv))
        · exact Or.inl (Or.inl hi)
      · exact Or.inl (Or.inr (Or.inl hi))
      · exact Or.inl (Or.inr (Or.inr hi))
  | cancel _ ih => exact ih.clear true
  | report _ hinv hid hfresh _ ih => exact ih.report hacc hkeys _ hinv hid hfresh

end Trace
end Spade
