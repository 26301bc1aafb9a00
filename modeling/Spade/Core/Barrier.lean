import Spade.Core.Formed
import Spade.Core.Reachable

set_option autoImplicit false

/-!
# What is complete when an invocation is handed out

Readiness is decided by block ids, so it says something about all invocations of a
mapped block only where there is no more than one.
-/
namespace Spade
open UUIDPackage
variable [UUIDPackage]

namespace SinglePipelineScheduler

/-- The contexts whose reduce block a `Reduce` result queues wait for completed blocks only. -/
def reduceSafe (s : SinglePipelineScheduler) (r : BlockInvocationResult) : Bool :=
  r.status ≠ .reduce || s.mapContexts.items.all fun e =>
    !gathers s.completedBlocks e.2 || s.pipeline.blocks.all fun b =>
      b.id ≠ e.2.reduceBlockID || depsCompleted s.completedBlocks b.inputs

theorem reduceSafe_iff {s : SinglePipelineScheduler} {r : BlockInvocationResult} :
    s.reduceSafe r = true ↔ (r.status = .reduce → ∀ m ctx, s.mapContexts.lookup m = some ctx →
      gathers s.completedBlocks ctx = true → ∀ b ∈ s.pipeline.blocks, b.id = ctx.reduceBlockID →
        depsCompleted s.completedBlocks b.inputs = true) := by
  simp only [reduceSafe, Bool.or_eq_true, decide_eq_true_eq, List.all_eq_true, Prod.forall,
    GoMap.mem_items, Bool.not_eq_true']
  constructor
  · intro h hr m ctx hm hg b hb hid
    rcases h with h | h
    · exact absurd hr h
    · rcases h m ctx hm with h | h
      · rw [hg] at h
        cases h
      · exact (h b hb).resolve_left (not_not.mpr hid)
  · intro h
    by_cases hr : r.status = .reduce
    · refine Or.inr fun m ctx hm => ?_
      by_cases hg : gathers s.completedBlocks ctx = true
      · exact Or.inr fun b hb => or_iff_not_imp_left.mpr fun hid => h hr m ctx hm hg b hb
          (not_not.mp hid)
      · exact Or.inl (by simpa using hg)
    · exact Or.inl hr

omit [UUIDPackage] in
/-- `b` takes an input from a mapped block of the context. -/
def readsMapped (ctx : MapContext) (b : PipelineBlock) : Bool :=
  b.inputs.any fun ref => ref.depID ∈ ctx.mappedBlockIDs

/-- An expansion has two or more items only where none of the picked blocks reads a mapped
block of its context. -/
def narrow (pick : MapContext → PipelineBlock → Bool) (s : SinglePipelineScheduler)
    (r : BlockInvocationResult) : Bool :=
  r.status ≠ .map || r.items.length ≤ 1 || s.mapContexts.items.all fun e =>
    e.1 ≠ r.id || s.pipeline.blocks.all fun b => !(pick e.2 b && readsMapped e.2 b)

omit [UUIDPackage] in
theorem narrow_iff {pick : MapContext → PipelineBlock → Bool} {s : SinglePipelineScheduler}
    {r : BlockInvocationResult} : s.narrow pick r = true ↔ (r.status = .map → ∀ ctx,
      s.mapContexts.lookup r.id = some ctx → ∀ b ∈ s.pipeline.blocks, pick ctx b = true →
        readsMapped ctx b = true → r.items.length ≤ 1) := by
  simp only [narrow, Bool.or_eq_true, decide_eq_true_eq, List.all_eq_true, Prod.forall,
    GoMap.mem_items, Bool.not_eq_true', Bool.and_eq_false_iff]
  constructor
  · rintro ((h | h) | h) hs ctx hctx b hb hp hr
    · exact absurd hs h
    · exact h
    · rcases h r.id ctx hctx with h | h
      · exact absurd rfl h
      · rcases h b hb with h | h
        · rw [hp] at h
          cases h
        · rw [hr] at h
          cases h
  · intro h
    by_cases hs : r.status = .map
    · by_cases hl : r.items.length ≤ 1
      · exact Or.inl (Or.inr hl)
      · refine Or.inr fun m ctx hm => or_iff_not_imp_left.mpr fun hid b hb => ?_
        have hid' : m = r.id := not_not.mp hid
        subst hid'
        by_cases hp : pick ctx b = true
        · by_cases hr : readsMapped ctx b = true
          · exact absurd (h hs ctx hm b hb hp hr) hl
          · exact Or.inr (by simpa using hr)
        · exact Or.inl (by simpa using hp)
    · exact Or.inl (Or.inl hs)

end SinglePipelineScheduler

namespace Trace
open SinglePipelineScheduler
variable {p : Pipeline} {manifests : Manifests} {t : Trace}

/-- The number of items stays bounded where every effective result keeps to the bound. -/
theorem fannedOut_le {wide : UUID → Prop} {bound : ℕ}
    {Q : Trace → BlockInvocation → BlockInvocationResult → Prop} (hacc : Accepted p manifests)
    (hQ : ∀ t inv r, Formed p manifests t → Q t inv r → r.status = .map →
      p.kind manifests r.id = some .map → wide r.id → r.items.length ≤ bound)
    (h : Reachable p manifests Q t) :
    ∀ m n, FannedOut p manifests t m n → wide m → n ≤ bound := by
  induction h with
  | start =>
    rintro m n ⟨-, -, e, he, -⟩
    cases he
  | handOut _ ih => exact ih
  | requeue _ _ ih => exact ih
  | cancel _ ih => exact ih
  | @report t σ inv r hreach _ hid _ hq ih =>
    intro m n hf hw
    rcases fannedOut_append.mp hf with hf | ⟨hk, -, rfl, hs, rfl⟩
    · exact ih m n hf hw
    · rw [← hid] at hk hw
      exact hQ t inv r (formed_of_reachable hacc hreach) hq hs hk hw

/-- What an `Update` makes executable is ready, or the reduce block of a context that gathers. -/
theorem update_executable (hacc : Accepted p manifests) (hkeys : KeysApart p)
    (h : Invariant p manifests t) (σ : MapOrder) (r : BlockInvocationResult) :
    ∀ inv ∈ (t.sched.update σ r).executableBlocks, inv ∈ t.sched.executableBlocks ∨
      (t.sched.update σ r).ready inv = true ∨ r.status = .reduce ∧
        ∃ m ctx b, t.sched.mapContexts.lookup m = some ctx ∧
          gathers t.sched.completedBlocks ctx = true ∧ b ∈ p.blocks ∧ b.id = ctx.reduceBlockID ∧
          inv = b.invocation p.id none := by
  have promoted : ∀ (s : SinglePipelineScheduler), ∀ inv ∈ (s.promoteReady σ).executableBlocks,
      inv ∈ s.executableBlocks ∨ (s.promoteReady σ).ready inv = true := by
    intro s inv hi
    obtain ⟨-, -, hc, -, hexec, -⟩ := promoteReady_spec σ s
    rcases (hexec inv).mp hi with hi | ⟨k, -, hr⟩
    · exact Or.inl hi
    · exact Or.inr (by unfold ready at hr ⊢; rwa [hc])
  intro inv hi
  by_cases herr : r.status = .error
  · rw [update_error σ _ herr] at hi
    cases hi
  by_cases hcomp : r.status = .complete
  · rw [update_complete σ _ hcomp] at hi ⊢
    exact (promoted _ inv hi).imp_right Or.inl
  by_cases hmap : r.status = .map
  · rw [update_map σ _ hmap] at hi ⊢
    rcases promoted _ inv hi with hi | hi
    · by_cases hx : r.items = []
      · rw [handleMap_skip σ (Or.inl hx)] at hi
        exact Or.inl hi
      · cases hctx : t.sched.mapContexts.lookup r.id with
        | none =>
          rw [handleMap_skip σ (Or.inr hctx)] at hi
          exact Or.inl hi
        | some ctx =>
          obtain ⟨-, hmapped, -⟩ := h.causal.contexts _ _ hctx
          obtain ⟨ids, -, hspread⟩ := handleMap_spread hacc.nodup hkeys σ h.causal.pipeline
            (h.indexing.based hacc hkeys h.causal) hx hctx
            fun id hm => ((hmapped id).mp hm).mem_blockIDs
          rcases hspread.executable inv hi with hi | ⟨hr, -⟩
          · exact Or.inl hi
          · refine Or.inr (Or.inl ?_)
            obtain ⟨-, -, hc, -⟩ := promoteReady_spec σ (t.sched.handleMap σ r)
            unfold ready at hr ⊢
            rw [hc, hspread.same]
            exact hr
    · exact Or.inr (Or.inl hi)
  by_cases hred : r.status = .reduce
  · rw [update_reduce σ _ hred] at hi
    rcases (handleReduce_gathered σ t.sched).executable inv hi with hi | ⟨m, ctx, b, hm, hg, hb, hid, he⟩
    · exact Or.inl hi
    · rw [h.causal.pipeline] at hb he
      exact Or.inr (Or.inr ⟨hred, m, ctx, b, hm, hg, hb, hid, he⟩)
  · rw [update_other σ _ herr hcomp hmap hred] at hi
    exact Or.inl hi

/-- Where `Reduce` results are safe, everything released has its dependencies completed. -/
theorem released_ready (hacc : Accepted p manifests) (hkeys : KeysApart p)
    {Q : Trace → BlockInvocation → BlockInvocationResult → Prop}
    (hQ : ∀ t inv r, Q t inv r → t.sched.reduceSafe r = true) (h : Reachable p manifests Q t) :
    ∀ inv, t.Released inv → t.sched.ready inv = true := by
  induction h with
  | start =>
    obtain ⟨g, hg, -⟩ := hacc.graph
    obtain ⟨-, -, -, -, -, he, -⟩ := registered_queues manifests hg
    rintro inv (hi | hi)
    · change inv ∈ (registered p manifests).executableBlocks at hi
      rw [he] at hi
      obtain ⟨b, hb, rfl⟩ := List.mem_map.mp hi
      have hin : b.inputs = [] := by simpa using (List.mem_filter.mp hb).2
      unfold ready
      rw [show (b.invocation p.id none).inputs = [] from hin]
      rfl
    · cases hi
  | @handOut t _ ih =>
    rintro inv (hi | hi)
    · cases hi
    · rcases List.mem_append.mp hi with hi | hi
      · exact ih inv (Or.inr hi)
      · exact ih inv (Or.inl hi)
  | @requeue t inv _ hinv ih =>
    rintro i (hi | hi)
    · rcases List.mem_cons.mp hi with rfl | hi
      · exact ih i (Or.inr hinv)
      · exact ih i (Or.inl hi)
    · exact ih i (Or.inr hi)
  | @cancel t _ ih =>
    rintro inv (hi | hi)
    · cases hi
    · exact ih inv (Or.inr hi)
  | @report t σ inv r hreach _ _ _ hq ih =>
    have hinv := invariant_of_reachable hacc hkeys hreach
    have hmono : ∀ i, t.sched.ready i = true → (t.sched.update σ r).ready i = true := fun i =>
      depsCompleted_mono fun k hk => (completed_update σ t.sched r k).mpr (Or.inl hk)
    rintro i (hi | hi)
    · rcases update_executable hacc hkeys hinv σ r i hi with hi | hi | ⟨hr, m, ctx, b, hm, hg, hb, hid, rfl⟩
      · exact hmono i (ih i (Or.inl hi))
      · exact hi
      · refine hmono _ (reduceSafe_iff.mp (hQ _ _ _ hq) hr m ctx hm hg b ?_ hid)
        rw [hinv.causal.pipeline]
        exact hb
    · exact hmono i (ih i (Or.inr hi))

/-- The one invocation of a mapped block is complete before anything that reads it is released. -/
theorem single_column (hacc : Accepted p manifests) (h : Invariant p manifests t)
    {inv : BlockInvocation} (hrel : t.Released inv) (hready : t.sched.ready inv = true) {ref : InputRef}
    (href : ref ∈ inv.inputs) {m : UUID} {n : ℕ} (hfan : FannedOut p manifests t m n)
    (hdown : Downstream p manifests m ref.depID)
    (hone : ∀ m n, FannedOut p manifests t m n → Downstream p manifests m ref.depID → n ≤ 1) :
    ∀ i < n, ∃ e ∈ t.reported, e.1.id = ref.depID ∧ e.1.mapIndex = some (i : Int) ∧
      e.2.status = .complete := by
  intro i hi
  have hnil : ref.depID ≠ UUID.nil := by
    obtain ⟨b, hb, heq⟩ := h.causal.made inv hrel.holds
    rw [heq] at href
    exact (hacc.known b hb ref href).1
  obtain ⟨e, he, hid, hrec⟩ := h.causal.recorded _ (depsCompleted_iff.mp hready ref href hnil)
  have hhanded : t.Released e.1 := Or.inr (h.causal.reported e he).1
  have hstatus : e.2.status = .complete := by
    rcases hrec with hs | ⟨-, hk, -⟩
    · exact hs
    · by_cases hm : ref.depID = m
      · exact absurd (hm ▸ hid ▸ hdown) (hid ▸ h.causal.acyclic e.1 hhanded)
      · exact absurd hdown (hacc.not_nested hfan.1 hk hm)
  refine ⟨e, he, hid, ?_, hstatus⟩
  rcases h.indexing.indexed e.1 hhanded.holds with hn | ⟨m', n', j, hj, hlt, hf, hd⟩
  · exact absurd hn (h.indexing.spread m n e.1 hfan (hid ▸ hdown) hhanded.holds)
  · have h₁ := hone m' n' hf (hid ▸ hd)
    have h₂ := hone m n hfan hdown
    have hij : j = i := by omega
    rw [hj, hij]

end Trace
end Spade
