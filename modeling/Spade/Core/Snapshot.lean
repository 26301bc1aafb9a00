import Spade.Core.Acyclic
import Spade.Core.Calls
import Spade.Core.Formed
import Spade.Core.Idle
import Spade.Core.Reachable
import Spade.Core.Samples

set_option autoImplicit false

/-!
# Status snapshots

`Snapshot` of `core/scheduler_server.go`, and when its flags and lists say what happened.
-/
namespace Spade
open UUIDPackage

/-- A snapshot never shows a block as in flight. -/
inductive BlockSnapshotStatus where
  | pending | executable | inFlight | complete | error | map | reduce
  deriving DecidableEq

structure BlockSnapshot where
  blockID : UUID
  name : String
  status : BlockSnapshotStatus := .pending
  mapIndex : Option Int := none
  mapInvocations : List String := []
  expansion : Option ExpansionManifest := none
  exitCode : Int := 0
  errorMessage : String := ""

structure PipelineSnapshot where
  pipelineID : UUID
  cancelled : Bool
  complete : Bool := false
  failed : Bool := false
  blocks : List BlockSnapshot := []

def ExecutionStatus.snapshot : ExecutionStatus → BlockSnapshotStatus
  | .complete => .complete
  | .error => .error
  | .map => .map
  | .reduce => .reduce
  | _ => .complete

variable [UUIDPackage]

namespace SinglePipelineScheduler

def mapInvocations (s : SinglePipelineScheduler) (id : UUID) : List String :=
  match s.mapContexts.lookup id with
  | none => []
  | some ctx => (List.range ctx.expansionItems.length).map fun i : ℕ =>
      (⟨id, "", UUID.nil, [], none, some (i : Int)⟩ : BlockInvocation).invocationID

def blockSnapshot (s : SinglePipelineScheduler) (pb : PipelineBlock) : BlockSnapshot :=
  let executable := s.executableBlocks.map BlockInvocation.invocationID
  let bs : BlockSnapshot := { blockID := pb.id, name := pb.name,
                              mapInvocations := s.mapInvocations pb.id }
  match s.completedBlocks.lookup pb.id with
  | some res => { bs with
      status := res.status.snapshot
      exitCode := res.exitCode
      errorMessage := res.error
      expansion := res.expansion }
  | none => if string pb.id ∈ executable then { bs with status := .executable } else bs

def snapshot (s : SinglePipelineScheduler) : PipelineSnapshot where
  pipelineID := s.pipeline.id
  cancelled := s.cancelled
  complete := !s.cancelled && s.idle
  failed := s.cancelled && s.completedBlocks.items.any fun e => e.2.status = .error
  blocks := s.pipeline.blocks.map s.blockSnapshot

end SinglePipelineScheduler

def MultiTenantScheduler.snapshot (s : MultiTenantScheduler) (id : UUID) : Option PipelineSnapshot :=
  (s.schedulers.lookup id).map SinglePipelineScheduler.snapshot

namespace SinglePipelineScheduler
variable {s : SinglePipelineScheduler} {r : BlockInvocationResult}

theorem blockSnapshot_mapped (s : SinglePipelineScheduler) (pb : PipelineBlock) :
    (s.blockSnapshot pb).mapInvocations = s.mapInvocations pb.id := by
  unfold blockSnapshot
  dsimp only
  cases s.completedBlocks.lookup pb.id with
  | some res => rfl
  | none => split_ifs <;> rfl

theorem completed_of_blockSnapshot {pb : PipelineBlock}
    (h : (s.blockSnapshot pb).status = .complete) :
    ∃ res, s.completedBlocks.lookup pb.id = some res := by
  cases hres : s.completedBlocks.lookup pb.id with
  | some res => exact ⟨res, rfl⟩
  | none =>
    unfold blockSnapshot at h
    rw [hres] at h
    dsimp only at h
    split_ifs at h

/-! What `Update` does to the contexts and to the queues. -/

theorem update_mapContexts (σ : MapOrder) (s : SinglePipelineScheduler) (r : BlockInvocationResult)
    {m : UUID} {ctx : MapContext} (h : (s.update σ r).mapContexts.lookup m = some ctx) :
    ∃ old, s.mapContexts.lookup m = some old ∧
      ctx.expansionItems = if m = r.id ∧ r.status = .map ∧ r.items ≠ [] then r.items
        else old.expansionItems := by
  by_cases hmap : r.status = .map
  · rw [update_map σ s hmap, (promoteReady_spec σ _).2.2.2.1] at h
    rcases handleMap_same σ s r with ⟨hx, hs⟩ | ⟨old, hx, hold, hs⟩
    · rw [hs] at h
      refine ⟨ctx, h, (if_neg ?_).symm⟩
      rintro ⟨rfl, -, hne⟩
      simp [expands, hne, GoMap.mem_of_lookup h] at hx
    · rw [hs, GoMap.lookup_insert_if] at h
      have hne : r.items ≠ [] := by
        simp only [expands, decide_eq_true_eq] at hx
        exact hx.1
      split_ifs at h with hm
      · cases h
        subst hm
        exact ⟨old, hold, by rw [if_pos ⟨rfl, hmap, hne⟩]⟩
      · exact ⟨ctx, h, by rw [if_neg fun hall => hm hall.1]⟩
  · have hsame : (s.update σ r).mapContexts = s.mapContexts := by
      by_cases herr : r.status = .error
      · rw [update_error σ s herr]
      by_cases hcomp : r.status = .complete
      · rw [update_complete σ s hcomp, (promoteReady_spec σ _).2.2.2.1]
      by_cases hred : r.status = .reduce
      · rw [update_reduce σ s hred, (handleReduce_gathered σ s).same]
      · rw [update_other σ s herr hcomp hmap hred]
    rw [hsame] at h
    exact ⟨ctx, h, by rw [if_neg fun hall => hmap hall.2.1]⟩

omit [UUIDPackage] in
theorem queued_promote (σ : MapOrder) (s : SinglePipelineScheduler) (inv : BlockInvocation) :
    (s.promoteReady σ).Queued inv ↔ s.Queued inv := by
  obtain ⟨-, -, -, -, hexec, hpend⟩ := promoteReady_spec σ s
  unfold Queued
  constructor
  · rintro (hi | ⟨k, hi⟩)
    · exact ((hexec inv).mp hi).imp_right fun ⟨k, hk, _⟩ => ⟨k, hk⟩
    · exact .inr ⟨k, ((hpend k inv).mp hi).1⟩
  · rintro (hi | ⟨k, hi⟩)
    · exact .inl ((hexec inv).mpr (.inl hi))
    · cases hr : s.ready inv with
      | true => exact .inl ((hexec inv).mpr (.inr ⟨k, hi, hr⟩))
      | false => exact .inr ⟨k, (hpend k inv).mpr ⟨hi, hr⟩⟩

/-- Without items in any context no reduce block is queued. -/
theorem handleReduce_empty (σ : MapOrder)
    (h : ∀ m ctx, s.mapContexts.lookup m = some ctx → ctx.expansionItems = []) :
    s.handleReduce σ = s := by
  have hnone : ∀ e ∈ σ.range s.mapContexts, ∀ c, gathers c e.2 = false := by
    intro e he c
    simp [gathers, h e.1 e.2 ((σ.mem_range _ _ _).mp he)]
  unfold handleReduce
  generalize σ.range s.mapContexts = l at hnone
  induction l with
  | nil => rfl
  | cons e l ih =>
    rw [List.foldl_cons, hnone e List.mem_cons_self, if_neg Bool.false_ne_true]
    exact ih fun e' he' => hnone e' (List.mem_cons_of_mem e he')

/-- As long as nothing is spread no invocation is made or dropped, but for an error. -/
theorem queued_update (σ : MapOrder) (herr : r.status ≠ .error)
    (hmap : r.status = .map → s.expands r = false)
    (hempty : ∀ m ctx, s.mapContexts.lookup m = some ctx → ctx.expansionItems = [])
    (inv : BlockInvocation) : (s.update σ r).Queued inv ↔ s.Queued inv := by
  by_cases hcomp : r.status = .complete
  · rw [update_complete σ s hcomp, queued_promote]
    rfl
  by_cases hm : r.status = .map
  · rw [update_map σ s hm, queued_promote]
    rcases handleMap_same σ s r with ⟨-, hs⟩ | ⟨_, hx, -, -⟩
    · rw [hs]
    · rw [hmap hm] at hx
      cases hx
  by_cases hred : r.status = .reduce
  · rw [update_reduce σ s hred, handleReduce_empty σ hempty]
  · rw [update_other σ s herr hcomp hm hred]

end SinglePipelineScheduler

namespace Trace
open SinglePipelineScheduler

/-- Any order of dispatches, publishes that are put back, cancels, and results of invocations
that were handed out. -/
inductive Reached (p : Pipeline) (manifests : Manifests) : Trace → Prop where
  | start : Reached p manifests (start p manifests)
  | next {t : Trace} (h : Reached p manifests t) : Reached p manifests t.next
  | handOut {t : Trace} (h : Reached p manifests t) : Reached p manifests t.handOut
  | requeue {t : Trace} {inv : BlockInvocation} (h : Reached p manifests t)
      (hinv : inv ∈ t.handedOut) : Reached p manifests (t.requeue inv)
  | cancel {t : Trace} (h : Reached p manifests t) : Reached p manifests t.cancel
  | report {t : Trace} {σ : MapOrder} {inv : BlockInvocation} {result : BlockInvocationResult}
      (h : Reached p manifests t) (hinv : inv ∈ t.handedOut) (hid : result.id = inv.id) :
      Reached p manifests (t.report σ inv result)

/-- A result was applied that completes the invocation. -/
def Completed (p : Pipeline) (manifests : Manifests) (t : Trace) (inv : BlockInvocation) : Prop :=
  ∃ r, (inv, r) ∈ t.reported ∧ Recording p manifests inv.id r

/-- The invocation was handed out and nothing has come back. -/
def Flying (t : Trace) (inv : BlockInvocation) : Prop :=
  inv ∈ t.handedOut ∧ ∀ r, (inv, r) ∉ t.reported

/-- The invocations that the scheduler makes: one for each block, and one for each item of an
expansion and each block of its context. -/
def Created (p : Pipeline) (manifests : Manifests) (t : Trace) (inv : BlockInvocation) : Prop :=
  ∃ b ∈ p.blocks, inv = b.invocation p.id inv.mapIndex ∧
    (inv.mapIndex = none ∨ ∃ (m : UUID) (n i : ℕ), FannedOut p manifests t m n ∧
      Downstream p manifests m b.id ∧ i < n ∧ inv.mapIndex = some (i : Int))

/-- Those of them that are to run: the one for a block of a context is dropped when an
expansion comes. -/
def Due (p : Pipeline) (manifests : Manifests) (t : Trace) (inv : BlockInvocation) : Prop :=
  Created p manifests t inv ∧
    (inv.mapIndex = none → ∀ m n, FannedOut p manifests t m n → ¬Downstream p manifests m inv.id)

structure Truthful (p : Pipeline) (manifests : Manifests) (t : Trace) : Prop where
  complete : t.sched.snapshot.complete = true ↔
    (∀ inv, Due p manifests t inv → Completed p manifests t inv) ∧ ∀ inv, ¬t.Flying inv
  failed : t.sched.snapshot.failed = true ↔ ∃ e ∈ t.reported, e.2.status = .error
  blocks : ∀ bs ∈ t.sched.snapshot.blocks, bs.status = .complete →
    ∀ inv, Due p manifests t inv → inv.id = bs.blockID → Completed p manifests t inv
  mapped : ∀ bs ∈ t.sched.snapshot.blocks, ∀ id ∈ bs.mapInvocations,
    ∃ inv, Created p manifests t inv ∧ inv.invocationID = id

/-- What a snapshot can tell: no error has come and nothing was spread, nothing is on its way
once all is handed out, and what was completed is neither queued again nor cancelled. -/
structure Telling (p : Pipeline) (manifests : Manifests) (t : Trace) : Prop where
  noError : ∀ e ∈ t.reported, e.2.status ≠ .error
  unspread : ∀ m n, ¬FannedOut p manifests t m n
  settled : t.sched.cancelled = false → t.sched.idle = true →
    ∀ inv ∈ t.handedOut, Completed p manifests t inv
  waiting : (t.sched.cancelled = true ∨
      ∃ inv, t.sched.Queued inv ∧ Completed p manifests t inv) →
    ∃ b ∈ p.blocks, ¬Completed p manifests t (b.invocation p.id none)

/-- What holds in every trace. -/
structure Told (p : Pipeline) (manifests : Manifests) (t : Trace) : Prop where
  pipeline : t.sched.pipeline = p
  contexts : ∀ m, m ∈ t.sched.mapContexts ↔ p.kind manifests m = some .map
  items : ∀ m ctx, t.sched.mapContexts.lookup m = some ctx →
    (ctx.expansionItems ≠ [] ↔ ∃ n, FannedOut p manifests t m n)
  recorded : ∀ k r, t.sched.completedBlocks.lookup k = some r →
    Recording p manifests k r ∧ ∃ e ∈ t.reported, e.1.id = k ∧ e.2 = r
  reported : ∀ e ∈ t.reported, e.1 ∈ t.handedOut
  made : (∀ m n, ¬FannedOut p manifests t m n) → ∀ inv, t.Holds inv →
    ∃ b ∈ p.blocks, inv = b.invocation p.id none
  present : (∀ m n, ¬FannedOut p manifests t m n) → t.sched.cancelled = false →
    ∀ b ∈ p.blocks, t.Holds (b.invocation p.id none)

variable {p : Pipeline} {manifests : Manifests} {t : Trace}

omit [UUIDPackage] in
theorem told_start (hacc : Accepted p manifests) : Told p manifests (start p manifests) := by
  obtain ⟨g, hg, -⟩ := hacc.graph
  obtain ⟨hp, -, hc, -, -, he, hl, hpend⟩ := registered_queues manifests hg
  refine ⟨hp, fun m => ⟨fun hm => ?_, fun hm => GoMap.mem_iff_lookup.mpr (context_of_map hacc hm)⟩,
    fun m ctx hm => ?_, fun k r hk => ?_, fun _ h => absurd h List.not_mem_nil,
    fun _ _ hi => holds_start hacc hi, fun _ _ b hb => ?_⟩
  · obtain ⟨ctx, hctx⟩ := GoMap.lookup_of_mem hm
    exact (context_spec hacc hctx).1
  · refine iff_of_false (not_not.mpr (context_spec hacc hm).2.2.2) ?_
    rintro ⟨n, -, -, e, he, -⟩
    cases he
  · change (registered p manifests).completedBlocks.lookup k = some r at hk
    rw [hc] at hk
    simp at hk
  · by_cases hin : b.inputs = []
    · left
      change _ ∈ (registered p manifests).executableBlocks
      rw [he]
      exact List.mem_map_of_mem (List.mem_filter.mpr ⟨hb, by simp [hin]⟩)
    · obtain ⟨inv, hinv⟩ := GoMap.lookup_of_mem (hpend b hb hin)
      obtain ⟨c, hcm, -, hid, rfl⟩ := hl _ inv hinv
      rw [unique_of_nodup hacc.nodup hcm hb hid] at hinv
      exact .inr (.inr ⟨_, hinv⟩)

omit [UUIDPackage] in
/-- Moves from the queues and back to them. -/
theorem Told.moved (h : Told p manifests t) {executable : List BlockInvocation}
    {handed : List BlockInvocation} (hhand : ∀ inv ∈ t.handedOut, inv ∈ handed)
    (hmem : ∀ inv, inv ∈ executable ∨ inv ∈ handed ↔ inv ∈ t.sched.executableBlocks ∨
      inv ∈ t.handedOut) :
    Told p manifests { t with
      sched := { t.sched with executableBlocks := executable }, handedOut := handed } := by
  have hholds : ∀ inv, Holds { t with
      sched := { t.sched with executableBlocks := executable }, handedOut := handed } inv ↔
        t.Holds inv := by
    intro inv
    unfold Holds
    rw [← or_assoc, ← or_assoc]
    exact or_congr_left (hmem inv)
  exact ⟨h.pipeline, h.contexts, h.items, h.recorded, fun e he => hhand _ (h.reported e he),
    fun hu inv hi => h.made hu inv ((hholds inv).mp hi),
    fun hu hc b hb => (hholds _).mpr (h.present hu hc b hb)⟩

omit [UUIDPackage] in
theorem holds_iff {inv : BlockInvocation} :
    t.Holds inv ↔ inv ∈ t.handedOut ∨ t.sched.Queued inv := or_left_comm

/-- A result of an invocation that was handed out. -/
theorem Told.report (h : Told p manifests t) {σ : MapOrder} {inv : BlockInvocation}
    {result : BlockInvocationResult} (hinv : inv ∈ t.handedOut) (hid : result.id = inv.id) :
    Told p manifests (t.report σ inv result) := by
  obtain ⟨⟨hp, -, -⟩, hcancel, hctx⟩ := update_static σ t.sched result
  have hless : (∀ m n, ¬FannedOut p manifests (t.report σ inv result) m n) →
      ∀ m n, ¬FannedOut p manifests t m n := 
    fun hu m n hf => hu m n (fannedOut_append.mpr (.inl hf))
  have hstep : (∀ m n, ¬FannedOut p manifests (t.report σ inv result) m n) →
      result.status ≠ .error → ∀ i, (t.report σ inv result).Holds i ↔ t.Holds i := by
    intro hu herr i
    have hempty : ∀ m ctx, t.sched.mapContexts.lookup m = some ctx → ctx.expansionItems = [] := by
      intro m ctx hm
      by_contra hne
      obtain ⟨n, hf⟩ := (h.items m ctx hm).mp hne
      exact hless hu m n hf
    have hmap : result.status = .map → t.sched.expands result = false := by
      intro hs
      by_contra hx
      simp only [expands, Bool.not_eq_false, decide_eq_true_eq] at hx
      refine hu result.id result.items.length (fannedOut_append.mpr (.inr ?_))
      exact ⟨(h.contexts _).mp hx.2, fun hz => hx.1 (List.length_eq_zero_iff.mp hz), hid.symm, hs, rfl⟩
    rw [holds_iff, holds_iff]
    exact or_congr_right (queued_update σ herr hmap hempty i)
  refine ⟨hp.trans h.pipeline, fun m => (hctx.2 m).trans (h.contexts m), fun m ctx hm => ?_,
    fun k r hk => ?_, fun e he => ?_, fun hu i hi => ?_, fun hu hc b hb => ?_⟩
  · obtain ⟨old, hold, hitems⟩ := update_mapContexts σ t.sched result hm
    have hkind := (h.contexts m).mp (GoMap.mem_of_lookup hold)
    have hfan : (∃ n, FannedOut p manifests (t.report σ inv result) m n) ↔
        (∃ n, FannedOut p manifests t m n) ∨ m = result.id ∧ result.status = .map ∧
          result.items ≠ [] := by
      unfold Trace.report
      simp only [fannedOut_append, exists_or]
      refine or_congr_right ⟨?_, ?_⟩
      · rintro ⟨n, -, hn, hm, hs, hl⟩
        refine ⟨by rw [hid, hm], hs, fun hnil => hn ?_⟩
        rw [← hl, hnil]
        rfl
      · rintro ⟨rfl, hs, hne⟩
        exact ⟨_, hkind, fun hz => hne (List.length_eq_zero_iff.mp hz), hid.symm, hs, rfl⟩
    rw [hfan, hitems, ← h.items m old hold]
    split_ifs with hnew
    · exact iff_of_true hnew.2.2 (.inr hnew)
    · exact (or_iff_left hnew).symm
  · change (t.sched.update σ result).completedBlocks.lookup k = some r at hk
    rw [update_completedBlocks] at hk
    have hold : t.sched.completedBlocks.lookup k = some r → Recording p manifests k r ∧
        ∃ e ∈ t.reported ++ [(inv, result)], e.1.id = k ∧ e.2 = r := by
      intro hk
      obtain ⟨hrec, e, he, hrest⟩ := h.recorded k r hk
      exact ⟨hrec, e, List.mem_append_left _ he, hrest⟩
    split_ifs at hk with hrecords
    · rw [GoMap.lookup_insert_if] at hk
      split_ifs at hk with hkey
      · cases hk
        refine ⟨?_, (inv, result), List.mem_append_right _ List.mem_cons_self, ?_, rfl⟩
        · simp only [records, expands, Bool.decide_or, Bool.or_eq_true, decide_eq_true_eq] at hrecords
          rcases hrecords with hs | ⟨hs, hne, hmem⟩
          · exact .inl hs
          · exact .inr ⟨hs, hkey ▸ (h.contexts _).mp hmem, hne⟩
        · rw [hkey, hid]
      · exact hold hk
    · exact hold hk
  · rcases List.mem_append.mp he with he | he
    · exact h.reported e he
    · rw [List.mem_singleton.mp he]
      exact hinv
  · by_cases herr : result.status = .error
    · apply h.made (hless hu)
      change Holds { t with sched := t.sched.update σ result, reported := _ } i at hi
      rw [update_error σ t.sched herr] at hi
      rcases hi with hi | hi | ⟨k, hi⟩
      · cases hi
      · exact .inr (.inl hi)
      · simp at hi
    · exact h.made (hless hu) i ((hstep hu herr i).mp hi)
  · have hc' : (t.sched.update σ result).cancelled = false := hc
    rw [hcancel, Bool.or_eq_false_iff, decide_eq_false_iff_not] at hc'
    exact (hstep hu hc'.2 _).mpr (h.present (hless hu) hc'.1 b hb)

theorem told_of_reached (hacc : Accepted p manifests) (h : Reached p manifests t) :
    Told p manifests t := by
  induction h with
  | start => exact told_start hacc
  | @next t _ ih =>
    obtain ⟨out, rest, he, hnext⟩ := next_taken t
    rw [hnext]
    refine ih.moved (fun inv hi => List.mem_append_left _ hi) fun inv => ?_
    rw [he, List.mem_append, List.mem_append]
    tauto
  | @handOut t _ ih =>
    refine ih.moved (fun inv hi => List.mem_append_left _ hi) fun inv => ?_
    rw [List.mem_append]
    simp only [List.not_mem_nil, false_or]
    exact or_comm
  | @requeue t inv _ hinv ih =>
    refine ih.moved (fun inv hi => hi) fun i => ?_
    rw [List.mem_cons]
    constructor
    · rintro ((rfl | hi) | hi)
      · exact .inr hinv
      · exact .inl hi
      · exact .inr hi
    · exact fun hi => hi.imp_left .inr
  | @cancel t _ ih =>
    refine ⟨ih.pipeline, ih.contexts, ih.items, ih.recorded, ih.reported, fun hu inv hi => ?_,
      fun _ hc => by cases hc⟩
    apply ih.made hu
    rcases hi with hi | hi | ⟨k, hi⟩
    · cases hi
    · exact .inr (.inl hi)
    · simp [Trace.cancel, cancelPipeline] at hi
  | report _ hinv hid ih => exact ih.report hinv hid

/-- Errors are not kept. -/
theorem Told.not_failed (h : Told p manifests t) : t.sched.snapshot.failed = false := by
  by_contra hf
  simp only [snapshot, Bool.not_eq_false, Bool.and_eq_true, List.any_eq_true, decide_eq_true_eq] at hf
  obtain ⟨-, ⟨k, r⟩, he, herr⟩ := hf
  obtain ⟨hrec, -⟩ := h.recorded k r ((GoMap.mem_items _ _ _).mp he)
  dsimp only at herr
  rcases hrec with hs | ⟨hs, -⟩ <;>
  · rw [herr] at hs
    cases hs

omit [UUIDPackage] in
theorem rank_downstream {rank : UUID → ℕ}
    (hrank : ∀ b ∈ p.blocks, ∀ r ∈ b.inputs, rank r.depID < rank b.id) {m d : UUID}
    (h : Downstream p manifests m d) : rank m < rank d := by
  induction h with
  | first hb hr hm _ _ => exact hm ▸ hrank _ hb _ hr
  | next hb hr _ _ _ ih => exact ih.trans (hrank _ hb _ hr)

omit [UUIDPackage] in
theorem Created.indexed {inv : BlockInvocation} (h : Created p manifests t inv) : inv.Indexed := by
  obtain ⟨b, -, -, hi | ⟨m, n, i, -, -, -, hi⟩⟩ := h
  · intro j hj
    rw [hi] at hj
    cases hj
  · intro j hj
    rw [hi] at hj
    cases hj
    exact Int.natCast_nonneg i

omit [UUIDPackage] in
/-- A map block itself has one invocation. -/
theorem Created.not_map (hacc : Accepted p manifests) {rank : UUID → ℕ}
    (hrank : ∀ b ∈ p.blocks, ∀ r ∈ b.inputs, rank r.depID < rank b.id) {inv : BlockInvocation}
    (h : Created p manifests t inv) (hk : p.kind manifests inv.id = some .map) :
    inv.mapIndex = none := by
  obtain ⟨b, hb, heq, hi | ⟨m, n, i, hf, hd, -, -⟩⟩ := h
  · exact hi
  · have hid : inv.id = b.id := by rw [heq]; rfl
    rw [← hid] at hd
    by_cases hm : inv.id = m
    · rw [hm] at hd
      exact absurd (rank_downstream hrank hd) (lt_irrefl _)
    · exact absurd hd (hacc.not_nested hf.1 hk hm)

/-- The ids that are listed for a map block that was spread belong to no invocation. -/
theorem unspread_of_mapped (hacc : Accepted p manifests) {rank : UUID → ℕ}
    (hrank : ∀ b ∈ p.blocks, ∀ r ∈ b.inputs, rank r.depID < rank b.id) (h : Told p manifests t)
    (hmapped : ∀ bs ∈ t.sched.snapshot.blocks, ∀ id ∈ bs.mapInvocations,
      ∃ inv, Created p manifests t inv ∧ inv.invocationID = id) (m : UUID) (n : ℕ) :
    ¬FannedOut p manifests t m n := by
  intro hf
  obtain ⟨ctx, hctx⟩ := GoMap.lookup_of_mem ((h.contexts m).mpr hf.1)
  have hne := (h.items m ctx hctx).mpr ⟨n, hf⟩
  obtain ⟨b, hb, rfl, -⟩ := kind_mem hf.1
  let first : BlockInvocation := ⟨b.id, "", UUID.nil, [], none, some ((0 : ℕ) : Int)⟩
  have hlisted : first.invocationID ∈ (t.sched.blockSnapshot b).mapInvocations := by
    rw [blockSnapshot_mapped, mapInvocations, hctx]
    refine List.mem_map.mpr ⟨0, List.mem_range.mpr ?_, rfl⟩
    exact List.length_pos_iff.mpr hne
  obtain ⟨inv, hcreated, hid⟩ := hmapped _ (List.mem_map_of_mem (h.pipeline ▸ hb)) _ hlisted
  have hfirst := parse_invocationID first fun i hi => by
    cases hi
    exact Int.natCast_nonneg 0
  have hparse := parse_invocationID inv hcreated.indexed
  rw [hid] at hparse
  have hsame : inv.id = b.id := hparse.1.symm.trans hfirst.1
  have hnone := hcreated.not_map hacc hrank (hsame ▸ hf.1)
  have hbad := hfirst.2.1.mp (hparse.2.1.mpr hnone)
  cases hbad

omit [UUIDPackage] in
/-- Where nothing is spread the invocations are those of the blocks. -/
theorem due_iff (hu : ∀ m n, ¬FannedOut p manifests t m n) {inv : BlockInvocation} :
    Due p manifests t inv ↔ ∃ b ∈ p.blocks, inv = b.invocation p.id none := by
  constructor
  · rintro ⟨⟨b, hb, heq, hi | ⟨m, n, i, hf, -⟩⟩, -⟩
    · exact ⟨b, hb, by rw [← hi]; exact heq⟩
    · exact absurd hf (hu m n)
  · rintro ⟨b, hb, rfl⟩
    exact ⟨⟨b, hb, rfl, .inl rfl⟩, fun _ m n hf => absurd hf (hu m n)⟩

theorem Told.complete_iff (h : Told p manifests t) (hu : ∀ m n, ¬FannedOut p manifests t m n) :
    (t.sched.snapshot.complete = true ↔
      (∀ inv, Due p manifests t inv → Completed p manifests t inv) ∧ ∀ inv, ¬t.Flying inv) ↔
    (t.sched.cancelled = false → t.sched.idle = true →
      ∀ inv ∈ t.handedOut, Completed p manifests t inv) ∧
    ((t.sched.cancelled = true ∨ ∃ inv, t.sched.Queued inv ∧ Completed p manifests t inv) →
      ∃ b ∈ p.blocks, ¬Completed p manifests t (b.invocation p.id none)) := by
  have hcomplete : t.sched.snapshot.complete = true ↔
      t.sched.cancelled = false ∧ t.sched.idle = true := by
    simp only [snapshot, Bool.and_eq_true, Bool.not_eq_true']
  have hdue : (∀ inv, Due p manifests t inv → Completed p manifests t inv) ↔
      ∀ b ∈ p.blocks, Completed p manifests t (b.invocation p.id none) := by
    simp only [due_iff hu]
    exact ⟨fun hall b hb => hall _ ⟨b, hb, rfl⟩, fun hall inv ⟨b, hb, heq⟩ => heq ▸ hall b hb⟩
  have hlanded : (∀ b ∈ p.blocks, Completed p manifests t (b.invocation p.id none)) →
      ∀ inv, ¬t.Flying inv := by
    rintro hall inv ⟨hi, hnone⟩
    obtain ⟨b, hb, rfl⟩ := h.made hu inv (.inr (.inl hi))
    obtain ⟨r, hr, -⟩ := hall b hb
    exact hnone r hr
  rw [hcomplete, hdue]
  constructor
  · intro hiff
    refine ⟨fun hc hidle inv hi => ?_, fun hwait => ?_⟩
    · obtain ⟨b, hb, rfl⟩ := h.made hu inv (.inr (.inl hi))
      exact (hiff.mp ⟨hc, hidle⟩).1 b hb
    · by_contra hall
      push Not at hall
      obtain ⟨hc, hidle⟩ := hiff.mpr ⟨hall, hlanded hall⟩
      rcases hwait with hc' | ⟨inv, hq | ⟨k, hq⟩, -⟩
      · rw [hc] at hc'
        cases hc'
      · rw [not_idle_of_executable hq] at hidle
        cases hidle
      · rw [not_idle_of_pending (GoMap.mem_of_lookup hq)] at hidle
        cases hidle
  · rintro ⟨hsettled, hwaiting⟩
    constructor
    · rintro ⟨hc, hidle⟩
      have hall : ∀ b ∈ p.blocks, Completed p manifests t (b.invocation p.id none) := by
        intro b hb
        obtain ⟨hpend, hexec⟩ := SinglePipelineScheduler.idle_iff.mp hidle
        rcases h.present hu hc b hb with hi | hi | ⟨k, hi⟩
        · rw [hexec] at hi
          cases hi
        · exact hsettled hc hidle _ hi
        · exact absurd (GoMap.mem_of_lookup hi) (hpend k)
      exact ⟨hall, hlanded hall⟩
    · rintro ⟨hall, -⟩
      have hno : ¬(t.sched.cancelled = true ∨
          ∃ inv, t.sched.Queued inv ∧ Completed p manifests t inv) := by
        intro hwait
        obtain ⟨b, hb, hopen⟩ := hwaiting hwait
        exact hopen (hall b hb)
      have hempty : ∀ inv, ¬t.sched.Queued inv := by
        intro inv hq
        obtain ⟨b, hb, rfl⟩ := h.made hu inv (holds_iff.mpr (.inr hq))
        exact hno (.inr ⟨_, hq, hall b hb⟩)
      refine ⟨by simpa using fun hc => hno (.inl hc),
        SinglePipelineScheduler.idle_iff.mpr ⟨fun k hk => ?_, ?_⟩⟩
      · obtain ⟨inv, hi⟩ := GoMap.lookup_of_mem hk
        exact hempty inv (.inr ⟨k, hi⟩)
      · exact List.eq_nil_iff_forall_not_mem.mpr fun inv hi => hempty inv (.inl hi)

theorem truthful_iff {τ : MapOrder} (hval : validatePipeline τ p manifests = [])
    (h : Reached p manifests t) : Truthful p manifests t ↔ Telling p manifests t := by
  have hacc := accepted_of_validate hval
  obtain ⟨rank, hrank⟩ := rank_of_validate hval
  have htold := told_of_reached hacc h
  constructor
  · intro htrue
    have hu := unspread_of_mapped hacc hrank htold htrue.mapped
    obtain ⟨hsettled, hwaiting⟩ := (htold.complete_iff hu).mp htrue.complete
    refine ⟨fun e he herr => ?_, hu, hsettled, hwaiting⟩
    have hfailed := htrue.failed.mpr ⟨e, he, herr⟩
    rw [htold.not_failed] at hfailed
    cases hfailed
  · intro htell
    refine ⟨(htold.complete_iff htell.unspread).mpr ⟨htell.settled, htell.waiting⟩, ?_, ?_, ?_⟩
    · rw [htold.not_failed]
      exact iff_of_false Bool.false_ne_true fun ⟨e, he, herr⟩ => htell.noError e he herr
    · intro bs hbs hstatus inv hdue hid
      obtain ⟨b, hb, rfl⟩ := List.mem_map.mp hbs
      obtain ⟨res, hres⟩ := completed_of_blockSnapshot hstatus
      obtain ⟨hrec, e, he, heid, rfl⟩ := htold.recorded _ _ hres
      obtain ⟨c, hc, rfl⟩ := (due_iff htell.unspread).mp hdue
      obtain ⟨d, hd, hed⟩ := htold.made htell.unspread e.1 (.inr (.inl (htold.reported e he)))
      have hbid : (t.sched.blockSnapshot b).blockID = b.id := by
        unfold blockSnapshot
        dsimp only
        rw [hres]
      have hcid : c.id = b.id := hid.trans hbid
      have hdid : d.id = b.id := by
        rw [← heid, hed]
        rfl
      obtain rfl := unique_of_nodup hacc.nodup hd hc (hdid.trans hcid.symm)
      refine ⟨e.2, ?_, ?_⟩
      · rw [← hed]
        exact he
      · rw [show (d.invocation p.id none).id = b.id from hcid]
        exact hrec
    · intro bs hbs id hid
      obtain ⟨b, hb, rfl⟩ := List.mem_map.mp hbs
      rw [blockSnapshot_mapped, mapInvocations] at hid
      cases hctx : t.sched.mapContexts.lookup b.id with
      | none =>
        rw [hctx] at hid
        cases hid
      | some ctx =>
        have hnil : ctx.expansionItems = [] := by
          by_contra hne
          obtain ⟨n, hf⟩ := (htold.items _ ctx hctx).mp hne
          exact htell.unspread _ n hf
        rw [hctx] at hid
        dsimp only at hid
        rw [hnil] at hid
        cases hid

end Trace
end Spade

namespace Spade.Trace
open Samples Uuid

theorem truthful_chain : Truthful chain manifests (start chain manifests).next := by
  have hval : validatePipeline .stored chain manifests = [] := by decide
  refine (truthful_iff hval (.next .start)).mpr ⟨nofun, ?_, fun _ hidle => ?_, ?_⟩
  · rintro m n ⟨-, -, e, he, -⟩
    cases he
  · have hbusy : (start chain manifests).next.sched.idle = false := by decide
    rw [hidle] at hbusy
    cases hbusy
  · rintro (hc | ⟨inv, -, r, hr, -⟩)
    · have hopen : (start chain manifests).next.sched.cancelled = false := by decide
      rw [hc] at hopen
      cases hopen
    · cases hr

def chainSource : BlockInvocation := (block "source" 1 []).invocation (pipelineID 1) none

/-- The source of the chain has completed, and its step is on its way. -/
def chainStepped : Trace :=
  ((start chain manifests).next.report .stored chainSource (completed 1)).next

theorem truthful_fails : validatePipeline .stored chain manifests = [] ∧
    Reached chain manifests chainStepped ∧ chainStepped.sched.snapshot.complete = true ∧
      ¬Truthful chain manifests chainStepped := by
  have hcomplete : chainStepped.sched.snapshot.complete = true := by decide
  have hhand : (start chain manifests).next.handedOut = [chainSource] := by rfl
  have hids : ∀ e ∈ chainStepped.reported, e.1.id = blockID 1 ∧ e.2.status = .complete := by
    decide
  refine ⟨by decide, .next (.report (.next .start) ?_ rfl), hcomplete, fun htrue => ?_⟩
  · rw [hhand]
    exact List.mem_singleton_self _
  · have hdue : Due chain manifests chainStepped ((block "step" 2 [1]).invocation (pipelineID 1) none) := by
      refine ⟨⟨block "step" 2 [1], List.mem_cons_of_mem _ List.mem_cons_self, rfl, .inl rfl⟩, ?_⟩
      rintro - m n ⟨-, -, e, he, -, hmap, -⟩ -
      rw [(hids e he).2] at hmap
      cases hmap
    obtain ⟨r, hr, -⟩ := (htrue.complete.mp hcomplete).1 _ hdue
    have hid : blockID 2 = blockID 1 := (hids _ hr).1
    exact absurd hid (by decide)

end Spade.Trace
