import Spade.Core.Update

set_option autoImplicit false

/-!
# One pipeline over time

A trace is the scheduler of a pipeline together with what it has handed out and
the results that were applied to it. The reachable traces are those of any order
of hand-outs, re-queued publishes, results of handed out invocations and cancels.
-/
namespace Spade
open UUIDPackage SinglePipelineScheduler

structure Trace where
  sched : SinglePipelineScheduler
  handedOut : List BlockInvocation := []
  reported : List (BlockInvocation × BlockInvocationResult) := []

namespace Trace

def start (p : Pipeline) (manifests : Manifests) : Trace := { sched := registered p manifests }

def handOut (t : Trace) : Trace := { t with
  sched := { t.sched with executableBlocks := [] }
  handedOut := t.handedOut ++ t.sched.executableBlocks }

def requeue (inv : BlockInvocation) (t : Trace) : Trace := { t with
  sched := { t.sched with executableBlocks := inv :: t.sched.executableBlocks } }

def cancel (t : Trace) : Trace := { t with sched := t.sched.cancelPipeline }

variable [UUIDPackage]

def report (σ : MapOrder) (inv : BlockInvocation) (result : BlockInvocationResult) (t : Trace) :
    Trace :=
  { t with sched := t.sched.update σ result, reported := t.reported ++ [(inv, result)] }

/-- A result of a non-mapped block is applied only while the block is not completed:
a later one is a duplicate. `Q` restricts the results further. -/
inductive Reachable (p : Pipeline) (manifests : Manifests)
    (Q : Trace → BlockInvocation → BlockInvocationResult → Prop) : Trace → Prop where
  | start : Reachable p manifests Q (start p manifests)
  | handOut {t : Trace} (h : Reachable p manifests Q t) : Reachable p manifests Q t.handOut
  | requeue {t : Trace} {inv : BlockInvocation} (h : Reachable p manifests Q t)
      (hinv : inv ∈ t.handedOut) : Reachable p manifests Q (t.requeue inv)
  | cancel {t : Trace} (h : Reachable p manifests Q t) : Reachable p manifests Q t.cancel
  | report {t : Trace} {σ : MapOrder} {inv : BlockInvocation} {result : BlockInvocationResult}
      (h : Reachable p manifests Q t) (hinv : inv ∈ t.handedOut) (hid : result.id = inv.id)
      (hfresh : inv.mapIndex = none → inv.id ∉ t.sched.completedBlocks)
      (hq : Q t inv result) : Reachable p manifests Q (t.report σ inv result)

/-- The invocation is in a queue or has been handed out. -/
def Holds (t : Trace) (inv : BlockInvocation) : Prop :=
  inv ∈ t.sched.executableBlocks ∨ inv ∈ t.handedOut ∨
    ∃ k, t.sched.pendingBlocks.lookup k = some inv

/-- The invocation is executable or has been handed out. -/
def Released (t : Trace) (inv : BlockInvocation) : Prop :=
  inv ∈ t.sched.executableBlocks ∨ inv ∈ t.handedOut

omit [UUIDPackage] in
theorem Released.holds {t : Trace} {inv : BlockInvocation} (h : t.Released inv) : t.Holds inv :=
  h.elim Or.inl fun h => Or.inr (Or.inl h)

/-- Map block `m` has reported an expansion of `n` items. -/
def FannedOut (p : Pipeline) (manifests : Manifests) (t : Trace) (m : UUID) (n : ℕ) : Prop :=
  p.kind manifests m = some .map ∧ n ≠ 0 ∧
    ∃ e ∈ t.reported, e.1.id = m ∧ e.2.status = .map ∧ e.2.items.length = n

/-- A result that `Update` records as completing its block. -/
def Recording (p : Pipeline) (manifests : Manifests) (k : UUID) (r : BlockInvocationResult) : Prop :=
  r.status = .complete ∨ r.status = .map ∧ p.kind manifests k = some .map ∧ r.items ≠ []

/-- What is handed out follows from what was completed before. -/
structure Causal (p : Pipeline) (manifests : Manifests) (t : Trace) : Prop where
  pipeline : t.sched.pipeline = p
  contexts : ∀ m ctx, t.sched.mapContexts.lookup m = some ctx →
    p.kind manifests m = some .map ∧ (∀ d, d ∈ ctx.mappedBlockIDs ↔ Downstream p manifests m d) ∧
      (ctx.reduceBlockID = UUID.nil ∨ p.kind manifests ctx.reduceBlockID = some .reduce)
  has : ∀ m, p.kind manifests m = some .map → m ∈ t.sched.mapContexts
  made : ∀ inv, t.Holds inv → ∃ b ∈ p.blocks, inv = b.invocation p.id inv.mapIndex
  deps : ∀ inv, t.Released inv → p.kind manifests inv.id ≠ some .reduce → t.sched.ready inv = true
  recorded : ∀ k ∈ t.sched.completedBlocks,
    ∃ e ∈ t.reported, e.1.id = k ∧ Recording p manifests k e.2
  reported : ∀ e ∈ t.reported, e.1 ∈ t.handedOut ∧ e.2.id = e.1.id
  acyclic : ∀ inv, t.Released inv → ¬ Downstream p manifests inv.id inv.id

section
omit [UUIDPackage]
variable {p : Pipeline} {manifests : Manifests} {t : Trace}

theorem made_inputs (h : Causal p manifests t) {inv : BlockInvocation} (hi : t.Holds inv) :
    inv.id ∈ p.blockIDs ∧ inv.pipelineId = p.id := by
  obtain ⟨b, hb, heq⟩ := h.made inv hi
  rw [heq]
  exact ⟨List.mem_map_of_mem hb, rfl⟩

/-- Whatever is handed out downstream of a block comes after its completion. -/
theorem Causal.upstream (hacc : Accepted p manifests) (h : Causal p manifests t) {m d : UUID}
    (hd : Downstream p manifests m d) :
    ∀ inv, t.Released inv → inv.id = d → m ∈ t.sched.completedBlocks := by
  have inputs : ∀ {b : PipelineBlock} {k : BlockKind} {inv : BlockInvocation} {r : InputRef},
      b ∈ p.blocks → p.kind manifests b.id = some k → k ≠ .reduce → t.Released inv →
      inv.id = b.id → r ∈ b.inputs → r.depID ∈ t.sched.completedBlocks := by
    intro b k inv r hb hk hne hrel hid hr
    obtain ⟨c, hc, heq⟩ := h.made inv hrel.holds
    have hcb : c = b := unique_of_nodup hacc.nodup hc hb (by rw [← hid, heq]; rfl)
    subst hcb
    have hready := h.deps inv hrel (by rw [hid, hk]; simpa using hne)
    rw [heq] at hready
    exact depsCompleted_iff.mp hready r hr (hacc.known c hc r hr).1
  induction hd with
  | first hb hr hm hk hne =>
    intro inv hrel hid
    exact hm ▸ inputs hb hk hne hrel hid hr
  | next hb hr _ hk hne ih =>
    intro inv hrel hid
    obtain ⟨e, he, hek, -⟩ := h.recorded _ (inputs hb hk hne hrel hid hr)
    exact ih e.1 (Or.inr (h.reported e he).1) hek

theorem Causal.completed_released (h : Causal p manifests t) {k : UUID}
    (hk : k ∈ t.sched.completedBlocks) : ∃ inv, t.Released inv ∧ inv.id = k := by
  obtain ⟨e, he, hek, -⟩ := h.recorded k hk
  exact ⟨e.1, Or.inr (h.reported e he).1, hek⟩

/-- A block that is ready is not downstream of itself. -/
theorem Causal.no_loop (hacc : Accepted p manifests) (h : Causal p manifests t)
    {b : PipelineBlock} (hb : b ∈ p.blocks)
    (hready : depsCompleted t.sched.completedBlocks b.inputs = true) :
    ¬ Downstream p manifests b.id b.id := by
  intro hloop
  have hself : b.id ∉ t.sched.completedBlocks := by
    intro hc
    obtain ⟨inv, hrel, hid⟩ := h.completed_released hc
    exact h.acyclic inv hrel (by rwa [hid])
  generalize hd : b.id = d at hloop
  cases hloop with
  | @first c r _ hc hr hm _ _ =>
    have hcb : c = b := unique_of_nodup hacc.nodup hc hb hd.symm
    subst hcb
    have hdep := depsCompleted_iff.mp hready r hr (hacc.known c hc r hr).1
    rw [hm] at hdep
    exact hself hdep
  | @next c r _ hc hr hdown _ _ =>
    have hcb : c = b := unique_of_nodup hacc.nodup hc hb hd.symm
    subst hcb
    have hdep := depsCompleted_iff.mp hready r hr (hacc.known c hc r hr).1
    obtain ⟨inv, hrel, hid⟩ := h.completed_released hdep
    exact hself (h.upstream hacc hdown inv hrel hid)

/-- Queues may take in what is ready and reduce blocks. -/
theorem Causal.queues (hacc : Accepted p manifests) (h : Causal p manifests t)
    {s' : SinglePipelineScheduler} (hsame : t.sched.SameButQueues s')
    (hexec : ∀ inv ∈ s'.executableBlocks, t.Released inv ∨
      (∃ b ∈ p.blocks, inv = b.invocation p.id inv.mapIndex) ∧
        (p.kind manifests inv.id = some .reduce ∨ t.sched.ready inv = true))
    (hpend : ∀ k inv, s'.pendingBlocks.lookup k = some inv →
      ∃ b ∈ p.blocks, inv = b.invocation p.id inv.mapIndex) :
    Causal p manifests { t with sched := s' } := by
  have hc : s'.completedBlocks = t.sched.completedBlocks := by rw [hsame]
  have hm : s'.mapContexts = t.sched.mapContexts := by rw [hsame]
  have hready : ∀ inv, s'.ready inv = t.sched.ready inv := fun inv => by
    unfold ready
    rw [hc]
  refine ⟨by rw [hsame]; exact h.pipeline, by rw [hm]; exact h.contexts,
    by rw [hm]; exact h.has, ?_, ?_, by rw [hc]; exact h.recorded, h.reported, ?_⟩
  · rintro inv (hi | hi | ⟨k, hi⟩)
    · rcases hexec inv hi with hr | ⟨hb, -⟩
      · exact h.made inv hr.holds
      · exact hb
    · exact h.made inv (Or.inr (Or.inl hi))
    · exact hpend k inv hi
  · rintro inv (hi | hi) hk
    · rcases hexec inv hi with hr | ⟨-, hr | hr⟩
      · exact (hready inv).trans (h.deps inv hr hk)
      · exact absurd hr hk
      · exact (hready inv).trans hr
    · exact (hready inv).trans (h.deps inv (Or.inr hi) hk)
  · rintro inv (hi | hi)
    · rcases hexec inv hi with hr | ⟨⟨b, hb, heq⟩, hr | hr⟩
      · exact h.acyclic inv hr
      · intro hd
        obtain ⟨k, hk, hne⟩ := hd.kind
        rw [hr] at hk
        cases hk
        exact hne rfl
      · have hid : inv.id = b.id := by rw [heq]; rfl
        have hin : inv.inputs = b.inputs := by rw [heq]; rfl
        rw [hid]
        exact h.no_loop hacc hb (hin ▸ hr)
    · exact h.acyclic inv (Or.inr hi)

/-- Recording a result of an invocation that was handed out. -/
theorem Causal.record (h : Causal p manifests t) {inv : BlockInvocation}
    {result : BlockInvocationResult} (hinv : inv ∈ t.handedOut) (hid : result.id = inv.id)
    (hrec : Recording p manifests result.id result) {contexts : GoMap UUID MapContext}
    (hctx : ∀ m ctx, contexts.lookup m = some ctx → ∃ ctx', t.sched.mapContexts.lookup m = some ctx' ∧
      ctx.mappedBlockIDs = ctx'.mappedBlockIDs ∧ ctx.reduceBlockID = ctx'.reduceBlockID)
    (hhas : ∀ m ∈ t.sched.mapContexts, m ∈ contexts) :
    Causal p manifests { t with
      sched := { t.sched with
        mapContexts := contexts
        completedBlocks := t.sched.completedBlocks.insert result.id result }
      reported := t.reported ++ [(inv, result)] } := by
  refine ⟨h.pipeline, ?_, fun m hm => hhas m (h.has m hm), h.made, ?_, ?_, ?_, h.acyclic⟩
  · intro m ctx hm
    obtain ⟨ctx', hm', h₁, h₂⟩ := hctx m ctx hm
    rw [h₁, h₂]
    exact h.contexts m ctx' hm'
  · exact fun i hi hk => depsCompleted_mono (fun k hk => (AList.mem_insert _).mpr (Or.inr hk))
      (h.deps i hi hk)
  · intro k hk
    rcases (AList.mem_insert _).mp hk with rfl | hk
    · exact ⟨(inv, result), by simp, hid.symm, hrec⟩
    · obtain ⟨e, he, h'⟩ := h.recorded k hk
      exact ⟨e, by simp [he], h'⟩
  · intro e he
    rcases List.mem_append.mp he with he | he
    · exact h.reported e he
    · rw [List.mem_singleton.mp he]
      exact ⟨hinv, hid⟩

theorem Causal.note (h : Causal p manifests t) {inv : BlockInvocation}
    {result : BlockInvocationResult} (hinv : inv ∈ t.handedOut) (hid : result.id = inv.id) :
    Causal p manifests { t with reported := t.reported ++ [(inv, result)] } := by
  refine ⟨h.pipeline, h.contexts, h.has, h.made, h.deps, ?_, ?_, h.acyclic⟩
  · intro k hk
    obtain ⟨e, he, h'⟩ := h.recorded k hk
    exact ⟨e, by simp [he], h'⟩
  · intro e he
    rcases List.mem_append.mp he with he | he
    · exact h.reported e he
    · rw [List.mem_singleton.mp he]
      exact ⟨hinv, hid⟩

theorem Causal.promote (hacc : Accepted p manifests) (h : Causal p manifests t) (σ : MapOrder) :
    Causal p manifests { t with sched := t.sched.promoteReady σ } := by
  obtain ⟨pending, heq, -⟩ := promoteReady_eq σ t.sched
  obtain ⟨-, -, -, -, hexec, hpend⟩ := promoteReady_spec σ t.sched
  refine h.queues hacc (by unfold SameButQueues; rw [heq]) ?_ ?_
  · intro inv hi
    rcases (hexec inv).mp hi with hi | ⟨k, hk, hr⟩
    · exact Or.inl (Or.inl hi)
    · exact Or.inr ⟨h.made inv (Or.inr (Or.inr ⟨k, hk⟩)), Or.inr hr⟩
  · exact fun k inv hi => h.made inv (Or.inr (Or.inr ⟨k, ((hpend k inv).mp hi).1⟩))

/-- The trace after the first executable invocations have been handed out. -/
def taken (t : Trace) (out rest : List BlockInvocation) : Trace := { t with
  sched := { t.sched with executableBlocks := rest }
  handedOut := t.handedOut ++ out }

theorem released_taken {out rest : List BlockInvocation}
    (he : t.sched.executableBlocks = out ++ rest) (inv : BlockInvocation) :
    (t.taken out rest).Released inv ↔ t.Released inv := by
  simp only [Released, taken, he, List.mem_append]
  tauto

theorem Causal.taken {out rest : List BlockInvocation} (h : Causal p manifests t)
    (he : t.sched.executableBlocks = out ++ rest) : Causal p manifests (t.taken out rest) := by
  have hrel := released_taken he
  refine ⟨h.pipeline, h.contexts, h.has, ?_, fun inv hi => h.deps inv ((hrel inv).mp hi), h.recorded, ?_,
    fun inv hi => h.acyclic inv ((hrel inv).mp hi)⟩
  · rintro inv (hi | hi | hi)
    · exact h.made inv ((hrel inv).mp (Or.inl hi)).holds
    · exact h.made inv ((hrel inv).mp (Or.inr hi)).holds
    · exact h.made inv (Or.inr (Or.inr hi))
  · intro e hm
    exact ⟨List.mem_append_left _ (h.reported e hm).1, (h.reported e hm).2⟩

/-- Dropping both queues, as an error and a cancel do. -/
theorem Causal.clear (h : Causal p manifests t) (c : Bool) :
    Causal p manifests { t with
      sched := { t.sched with cancelled := c, pendingBlocks := ∅, executableBlocks := [] } } := by
  refine ⟨h.pipeline, h.contexts, h.has, ?_, ?_, h.recorded, h.reported, ?_⟩
  · rintro inv (hi | hi | ⟨k, hi⟩)
    · cases hi
    · exact h.made inv (Or.inr (Or.inl hi))
    · simp at hi
  · rintro inv (hi | hi)
    · cases hi
    · exact h.deps inv (Or.inr hi)
  · rintro inv (hi | hi)
    · cases hi
    · exact h.acyclic inv (Or.inr hi)

end
end Trace
end Spade
