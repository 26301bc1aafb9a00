import Spade.Core.Barrier
import Spade.Server.Samples
import Spade.Server.Steps
import Spade.Server.Tracking

set_option autoImplicit false

/-!
# When reduce blocks and chained mapped blocks are handed out

Both wait for block ids only. They are handed out in time as long as the mapped
blocks they read have at most one invocation each.
-/
namespace Spade
open UUIDPackage
variable [UUIDPackage] [Encoding]

namespace World

/-- A `Complete` result was applied for invocation `i` of block `d`. -/
def CompletedAt (w : World) (pid d : UUID) (i : ℕ) : Prop :=
  ∃ wr ∈ w.applied, wr.pipelineID = pid ∧ wr.invocationID = string d ++ "." ++ itoa i ∧
    wr.status = .complete

/-- Block `m` has reported an expansion of `n` items. -/
def Expanded (w : World) (pid m : UUID) (n : ℕ) : Prop :=
  n ≠ 0 ∧ ∃ wr ∈ w.applied, wr.pipelineID = pid ∧ wr.status = .map ∧
    (workerResultToInvocationResult wr).id = m ∧
    (workerResultToInvocationResult wr).items.length = n

instance (w : World) (pid d : UUID) (i : ℕ) : Decidable (w.CompletedAt pid d i) :=
  inferInstanceAs (Decidable (∃ wr ∈ w.applied, _))

instance (w : World) (pid m : UUID) (n : ℕ) : Decidable (w.Expanded pid m n) :=
  inferInstanceAs (Decidable (n ≠ 0 ∧ ∃ wr ∈ w.applied, _))

/-- The reduce block of a context is handed out after all invocations it depends on. -/
def ReduceBarrier (w : World) : Prop :=
  ∀ pid ps m ctx, w.engine.sched.schedulers.lookup pid = some ps →
    ps.mapContexts.lookup m = some ctx → ctx.reduceBlockID ≠ UUID.nil →
    ∀ inv ∈ w.handedOut, inv.pipelineId = pid → inv.id = ctx.reduceBlockID →
    ∀ n, w.Expanded pid m n → ∀ ref ∈ inv.inputs, ref.depID ∈ ctx.mappedBlockIDs →
    ∀ i < n, w.CompletedAt pid ref.depID i

/-- A mapped invocation is handed out after those of the same index that it depends on. -/
def IndexedChaining (w : World) : Prop :=
  ∀ pid ps m ctx, w.engine.sched.schedulers.lookup pid = some ps →
    ps.mapContexts.lookup m = some ctx →
    ∀ inv ∈ w.handedOut, inv.pipelineId = pid → inv.id ∈ ctx.mappedBlockIDs →
    ∀ n, w.Expanded pid m n → ∀ i < n, inv.mapIndex = some (i : Int) →
    ∀ ref ∈ inv.inputs, ref.depID ∈ ctx.mappedBlockIDs → w.CompletedAt pid ref.depID i

/-- A condition on the scheduler that a result is for. -/
def ResultGuard (G : SinglePipelineScheduler → BlockInvocationResult → Bool) (w : World)
    (a : Env × Op) : Prop :=
  match a.2 with
  | .result wr => ∀ ps ∈ w.engine.sched.schedulers.lookup wr.pipelineID,
      G ps (workerResultToInvocationResult wr) = true
  | _ => True

instance (G : SinglePipelineScheduler → BlockInvocationResult → Bool) (w : World)
    (a : Env × Op) : Decidable (w.ResultGuard G a) :=
  match a with
  | (_, .submit _ _ _) => isTrue trivial
  | (_, .cancel _) => isTrue trivial
  | (_, .drain) => isTrue trivial
  | (_, .publish _) => isTrue trivial
  | (_, .result wr) => inferInstanceAs (Decidable
      (∀ ps ∈ w.engine.sched.schedulers.lookup wr.pipelineID,
        G ps (workerResultToInvocationResult wr) = true))

omit [Encoding] in
theorem guards_result (G : SinglePipelineScheduler → BlockInvocationResult → Bool) :
    Guards (fun t _ r => G t.sched r = true) (ResultGuard G) := by
  rintro w ⟨env, op⟩ wr hg rfl ps manifests t inv hps ht _ _
  rw [ht.sched]
  exact hg ps hps

variable {w : World} {pid : UUID} {ps : SinglePipelineScheduler} {manifests : Manifests} {t : Trace}
  {Q : Trace → BlockInvocation → BlockInvocationResult → Prop}

omit [Encoding] in
theorem Tracks.fannedOut (h : w.Tracks Q pid ps manifests t) {m : UUID} {n : ℕ}
    (hk : ps.pipeline.kind manifests m = some .map) (he : w.Expanded pid m n)
    (hrep : ∀ e ∈ t.reported, e.2.id = e.1.id) : Trace.FannedOut ps.pipeline manifests t m n := by
  obtain ⟨hn, wr, hwr, hpid, hs, hid, hl⟩ := he
  obtain ⟨e, hmem, -, heq⟩ := h.applied wr hwr hpid
  refine ⟨hk, hn, e, hmem, ?_, by rw [heq]; exact hs, by rw [heq]; exact hl⟩
  rw [← hrep e hmem, heq]
  exact hid

omit [Encoding] in
theorem Tracks.completedAt (h : w.Tracks Q pid ps manifests t) {d : UUID} {i : ℕ}
    (he : ∃ e ∈ t.reported, e.1.id = d ∧ e.1.mapIndex = some (i : Int) ∧ e.2.status = .complete) :
    w.CompletedAt pid d i := by
  obtain ⟨e, hmem, rfl, hidx, hs⟩ := he
  obtain ⟨wr, hwr, hpid, hinv, heq⟩ := h.reported e hmem
  refine ⟨wr, hwr, hpid, ?_, ?_⟩
  · rw [hinv, BlockInvocation.invocationID, hidx]
  · rw [heq] at hs
    exact hs

/-- The blocks whose manifest says reduce. -/
def isReduce (s : SinglePipelineScheduler) (b : PipelineBlock) : Bool :=
  match s.manifests.bind fun manifests => manifests.lookup b.name with
  | none => false
  | some m => m.kind = .reduce

/-- No result before which `ReduceBarrier` can go wrong: an expansion of several items where
a reduce block reads a mapped block, or a `Reduce` result that queues a block too early. -/
def barrierGuard (s : SinglePipelineScheduler) (r : BlockInvocationResult) : Bool :=
  s.narrow (fun _ b => isReduce s b) r && s.reduceSafe r

omit [Encoding] in
theorem barrier_bound (hacc : Accepted ps.pipeline manifests)
    (h : Trace.Reachable ps.pipeline manifests (fun t _ r => barrierGuard t.sched r = true) t) :
    ∀ m n, Trace.FannedOut ps.pipeline manifests t m n →
      (∃ b ∈ ps.pipeline.blocks, ps.pipeline.kind manifests b.id = some .reduce ∧
        ∃ ref ∈ b.inputs, Downstream ps.pipeline manifests m ref.depID) → n ≤ 1 := by
  refine Trace.fannedOut_le hacc ?_ h
  rintro t inv r hf hq hs hk ⟨b, hb, hkb, ref, href, hd⟩
  obtain ⟨ctx, hctx⟩ := GoMap.lookup_of_mem (hf.has r.id hk)
  obtain ⟨-, hmapped, -⟩ := hf.contexts _ _ hctx
  simp only [barrierGuard, Bool.and_eq_true] at hq
  refine SinglePipelineScheduler.narrow_iff.mp hq.1 hs ctx hctx b (hf.pipeline ▸ hb) ?_ ?_
  · obtain ⟨c, hc, hid, mf, hmf, hmk⟩ := kind_mem hkb
    rw [unique_of_nodup hacc.nodup hc hb hid] at hmf
    simp [isReduce, hf.known, hmf, hmk]
  · simp only [SinglePipelineScheduler.readsMapped, List.any_eq_true, decide_eq_true_eq]
    exact ⟨ref, href, (hmapped _).mpr hd⟩

omit [Encoding] in
theorem reduceBarrier_of_linked
    (hw : w.Linked fun t _ r => barrierGuard t.sched r = true)
    (hkeys : ∀ pid ps, w.engine.sched.schedulers.lookup pid = some ps → KeysApart ps.pipeline) :
    w.ReduceBarrier := by
  intro pid ps m ctx hps hctx hnil inv hinv hpid hid n hexp ref href hmapped i hi
  obtain ⟨manifests, t, ht⟩ := hw.tracks pid ps hps
  have hI := Trace.invariant_of_reachable ht.accepted (hkeys pid ps hps) ht.reach
  rw [← ht.sched] at hctx
  obtain ⟨hk, hmem, hred⟩ := hI.causal.contexts m ctx hctx
  have hhanded : inv ∈ t.handedOut := (ht.handed inv).mpr ⟨hinv, hpid⟩
  have hrel : t.Released inv := Or.inr hhanded
  have hready := Trace.released_ready ht.accepted (hkeys pid ps hps)
    (fun t inv r hq => by
      simp only [barrierGuard, Bool.and_eq_true] at hq
      exact hq.2) ht.reach inv hrel
  obtain ⟨b, hb, heq⟩ := hI.causal.made inv hrel.holds
  have hkb : ps.pipeline.kind manifests b.id = some .reduce := by
    have hbid : b.id = ctx.reduceBlockID := by rw [← hid, heq]; rfl
    rw [hbid]
    exact hred.resolve_left hnil
  refine ht.completedAt (Trace.single_column ht.accepted hI hrel hready href
    (ht.fannedOut hk hexp fun e he => (hI.causal.reported e he).2) ((hmem _).mp hmapped) ?_ i hi)
  intro m' n' hf hd
  refine barrier_bound ht.accepted ht.reach m' n' hf ⟨b, hb, hkb, ref, ?_, hd⟩
  rw [heq] at href
  exact href

/-- What holds of linked worlds with a condition on their pipelines holds throughout a run. -/
theorem always_of_linked {G : World → Env × Op → Prop} (hG : Guards Q G) {R : Pipeline → Prop}
    (hid : ∀ p id, R p → R { p with id := id }) {P : World → Prop}
    (hP : ∀ w : World, w.Linked Q → (∀ pid ps,
      w.engine.sched.schedulers.lookup pid = some ps → R ps.pipeline) → P w)
    {ops : List (Env × Op)} (hsub : Submits R ops)
    (hrun : Runs.Along step (fun w a => w.Admits a ∧ G w a) {} ops) :
    Runs.Always step P {} ops := by
  refine Runs.always_of_prefixes step ?_
  rintro l₁ l₂ rfl
  refine hP _ (linked_run hG ((Runs.along_append step _ _ _ _).mp hrun).1) ?_
  refine registered_run hid (fun a ha => hsub a (List.mem_append_left _ ha)) ?_
  intro pid ps hps
  simp at hps

/-- In a run in which no expansion of several items feeds a reduce block through its
mapped blocks, and no `Reduce` result comes too early, reduce blocks wait. -/
theorem reduce_barrier {ops : List (Env × Op)} (hapart : Submits KeysApart ops)
    (hrun : Runs.Along step (fun w a => w.Admits a ∧ w.ResultGuard barrierGuard a) {} ops) :
    Runs.Always step ReduceBarrier {} ops :=
  always_of_linked (guards_result barrierGuard) (fun _ _ h => h)
    (fun _ hw hkeys => reduceBarrier_of_linked hw hkeys) hapart hrun

end World
end Spade

namespace Spade.World
open Samples Uuid

theorem reduce_barrier_mapped : Runs.Always step ReduceBarrier {}
    (mapRun mapped 1 ++ completeAt mapped 3 0 :: sweepOne ++ [complete mapped 4]) :=
  reduce_barrier (submits_keysApart (by decide +kernel)) (by decide +kernel)

/-- Of two items one is complete, and the reduce block is handed out. -/
theorem reduce_barrier_fails :
    Runs.Along step Admits {} (mapRun mapped 2 ++ [completeAt mapped 3 0, drain]) ∧
      ¬Runs.Always step ReduceBarrier {} (mapRun mapped 2 ++ [completeAt mapped 3 0, drain]) := by
  refine ⟨by decide, fun h => ?_⟩
  have hw := h.last
  generalize hrun : Runs.run step {} (mapRun mapped 2 ++ [completeAt mapped 3 0, drain]) = w at hw
  have hbad : ∃ e ∈ w.engine.sched.schedulers.items, ∃ c ∈ e.2.mapContexts.items,
      ∃ inv ∈ w.handedOut, ∃ ref ∈ inv.inputs, c.2.reduceBlockID ≠ UUID.nil ∧
        inv.pipelineId = e.1 ∧ inv.id = c.2.reduceBlockID ∧ w.Expanded e.1 c.1 2 ∧
        ref.depID ∈ c.2.mappedBlockIDs ∧ ¬w.CompletedAt e.1 ref.depID 1 := by
    rw [← hrun]
    decide +kernel
  obtain ⟨e, he, c, hc, inv, hinv, ref, href, hnil, hpid, hid, hexp, hmapped, hno⟩ := hbad
  exact hno (hw e.1 e.2 c.1 c.2 ((GoMap.mem_items _ _ _).mp he) ((GoMap.mem_items _ _ _).mp hc)
    hnil inv hinv hpid hid 2 hexp ref href hmapped 1 (by decide))

end Spade.World

namespace Spade
open UUIDPackage
variable [UUIDPackage] [Encoding]

namespace World
variable {w : World} {pid : UUID} {ps : SinglePipelineScheduler} {manifests : Manifests} {t : Trace}

/-! Chained mapped blocks. -/

/-- The expansion has one item, or no mapped block of its context reads another one. -/
def chainingGuard (s : SinglePipelineScheduler) (r : BlockInvocationResult) : Bool :=
  s.narrow (fun ctx b => b.id ∈ ctx.mappedBlockIDs) r

omit [Encoding] in
theorem chaining_bound (hacc : Accepted ps.pipeline manifests)
    (h : Trace.Reachable ps.pipeline manifests (fun t _ r => chainingGuard t.sched r = true) t) :
    ∀ m n, Trace.FannedOut ps.pipeline manifests t m n →
      (∃ b ∈ ps.pipeline.blocks, Downstream ps.pipeline manifests m b.id ∧
        ∃ ref ∈ b.inputs, Downstream ps.pipeline manifests m ref.depID) → n ≤ 1 := by
  refine Trace.fannedOut_le hacc ?_ h
  rintro t inv r hf hq hs hk ⟨b, hb, hdb, ref, href, hd⟩
  obtain ⟨ctx, hctx⟩ := GoMap.lookup_of_mem (hf.has r.id hk)
  obtain ⟨-, hmapped, -⟩ := hf.contexts _ _ hctx
  refine SinglePipelineScheduler.narrow_iff.mp hq hs ctx hctx b (hf.pipeline ▸ hb) ?_ ?_
  · simpa using (hmapped _).mpr hdb
  · simp only [SinglePipelineScheduler.readsMapped, List.any_eq_true, decide_eq_true_eq]
    exact ⟨ref, href, (hmapped _).mpr hd⟩

omit [Encoding] in
theorem indexedChaining_of_linked
    (hw : w.Linked fun t _ r => chainingGuard t.sched r = true)
    (hkeys : ∀ pid ps, w.engine.sched.schedulers.lookup pid = some ps → KeysApart ps.pipeline) :
    w.IndexedChaining := by
  intro pid ps m ctx hps hctx inv hinv hpid hin n hexp i hi _ ref href hmapped
  obtain ⟨manifests, t, ht⟩ := hw.tracks pid ps hps
  have hI := Trace.invariant_of_reachable ht.accepted (hkeys pid ps hps) ht.reach
  rw [← ht.sched] at hctx
  obtain ⟨hk, hmem, -⟩ := hI.causal.contexts m ctx hctx
  have hrel : t.Released inv := Or.inr ((ht.handed inv).mpr ⟨hinv, hpid⟩)
  have hdown := (hmem _).mp hin
  obtain ⟨k, hki, hne⟩ := hdown.kind
  have hready := hI.causal.deps inv hrel (by rw [hki]; simpa using hne)
  obtain ⟨b, hb, heq⟩ := hI.causal.made inv hrel.holds
  refine ht.completedAt (Trace.single_column ht.accepted hI hrel hready href
    (ht.fannedOut hk hexp fun e he => (hI.causal.reported e he).2) ((hmem _).mp hmapped) ?_ i hi)
  intro m' n' hf hd
  have hbid : b.id = inv.id := by rw [heq]; rfl
  have href' : ref ∈ b.inputs := by
    rw [heq] at href
    exact href
  refine chaining_bound ht.accepted ht.reach m' n' hf ⟨b, hb, ?_, ref, href', hd⟩
  exact .next hb href' hd (hbid ▸ hki) hne

/-- In a run in which no expansion of several items spreads blocks that read each other,
mapped invocations wait for those of their own index. -/
theorem indexed_chaining {ops : List (Env × Op)} (hapart : Submits KeysApart ops)
    (hrun : Runs.Along step (fun w a => w.Admits a ∧ w.ResultGuard chainingGuard a) {} ops) :
    Runs.Always step IndexedChaining {} ops :=
  always_of_linked (guards_result chainingGuard) (fun _ _ h => h)
    (fun _ hw hkeys => indexedChaining_of_linked hw hkeys) hapart hrun

end World
end Spade

namespace Spade.World
open Samples Uuid

theorem indexed_chaining_mapped : Runs.Always step IndexedChaining {}
    (mapRun chained 1 ++ completeAt chained 3 0 :: sweepOne ++ [completeAt chained 4 0]) :=
  indexed_chaining (submits_keysApart (by decide +kernel)) (by decide +kernel)

/-- Of two items one is complete, and both are handed out for the next block. -/
theorem indexed_chaining_fails :
    Runs.Along step Admits {} (mapRun chained 2 ++ [completeAt chained 3 0, drain]) ∧
      ¬Runs.Always step IndexedChaining {} (mapRun chained 2 ++ [completeAt chained 3 0, drain]) := by
  refine ⟨by decide +kernel, fun h => ?_⟩
  have hw := h.last
  generalize hrun : Runs.run step {} (mapRun chained 2 ++ [completeAt chained 3 0, drain]) = w at hw
  have hbad : ∃ e ∈ w.engine.sched.schedulers.items, ∃ c ∈ e.2.mapContexts.items,
      ∃ inv ∈ w.handedOut, ∃ ref ∈ inv.inputs, inv.pipelineId = e.1 ∧
        inv.id ∈ c.2.mappedBlockIDs ∧ w.Expanded e.1 c.1 2 ∧ inv.mapIndex = some 1 ∧
        ref.depID ∈ c.2.mappedBlockIDs ∧ ¬w.CompletedAt e.1 ref.depID 1 := by
    rw [← hrun]
    decide +kernel
  obtain ⟨e, he, c, hc, inv, hinv, ref, href, hpid, hid, hexp, hidx, hmapped, hno⟩ := hbad
  exact hno (hw e.1 e.2 c.1 c.2 ((GoMap.mem_items _ _ _).mp he) ((GoMap.mem_items _ _ _).mp hc)
    inv hinv hpid hid 2 hexp 1 (by decide) hidx ref href hmapped)

end Spade.World
