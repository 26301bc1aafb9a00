import Spade.Core.Acyclic
import Spade.Core.Calls
import Spade.Core.Samples
import Spade.Core.Split

set_option autoImplicit false

/-!
# Where the blocks of a pipeline are

The scheduler is driven by `Next`, `Drain` and `Complete` results. Every block is
executable, pending, in flight or completed, and one of them at a time.
-/
namespace Spade
open UUIDPackage SinglePipelineScheduler

inductive Place where
  | executable | pending | inFlight | completed

namespace Trace

/-- The blocks with a result. -/
def done (t : Trace) : List UUID := t.reported.map fun e => e.1.id

def InFlight (t : Trace) (id : UUID) : Prop :=
  id ∈ t.handedOut.map BlockInvocation.id ∧ id ∉ t.done

def Stands (t : Trace) (id : UUID) : Place → Prop
  | .executable => id ∈ t.sched.executableBlocks.map BlockInvocation.id
  | .pending => id ∈ t.sched.pendingBlocks
  | .inFlight => t.InFlight id
  | .completed => id ∈ t.sched.completedBlocks

/-- Results are `Complete` ones. -/
def Completes [UUIDPackage] (t : Trace) (c : Call) : Prop :=
  t.Firsts c ∧ c.status? ∈ [none, some ExecutionStatus.complete]

instance [UUIDPackage] (t : Trace) (c : Call) : Decidable (t.Completes c) :=
  inferInstanceAs (Decidable (_ ∧ _))

structure Partitioned (p : Pipeline) (t : Trace) : Prop where
  place : ∀ b ∈ p.blocks, ∃! pl, t.Stands b.id pl
  queued : (t.sched.executableBlocks.map BlockInvocation.id).Nodup
  once : (t.handedOut.map BlockInvocation.id).Nodup

/-- What the call hands out are blocks whose dependencies are completed. -/
def HandsOutReady [UUIDPackage] (p : Pipeline) (t : Trace) (c : Call) : Prop :=
  ∃ out, (t.call c).handedOut = t.handedOut ++ out ∧ ∀ inv ∈ out,
    ∃ b ∈ p.blocks, inv = b.invocation p.id none ∧
      ∀ ref ∈ b.inputs, ref.depID ∈ t.sched.completedBlocks

/-- The invariant behind the partition. -/
structure Working (p : Pipeline) (t : Trace) : Prop where
  split : t.sched.Split p fun inv => inv ∈ t.handedOut
  once : ((t.handedOut ++ t.sched.executableBlocks).map BlockInvocation.id).Nodup
  reported : ∀ e ∈ t.reported, e.1 ∈ t.handedOut
  completed : ∀ k, k ∈ t.sched.completedBlocks ↔ k ∈ t.done

section
variable {p : Pipeline} {manifests : Manifests} {t : Trace}

theorem Working.next (h : Working p t) : Working p t.next := by
  obtain ⟨hs, ho, hr, hc⟩ := h
  unfold Trace.next SinglePipelineScheduler.next isReady
  cases he : t.sched.executableBlocks with
  | nil =>
    simp only [List.isEmpty_nil, Bool.not_true, Bool.false_eq_true, if_false, List.append_nil]
    exact ⟨hs, ho, hr, hc⟩
  | cons inv rest =>
    rw [he] at ho
    refine ⟨hs.frame rfl rfl fun i => ?_, by simpa using ho, fun e h => by simp [hr e h], hc⟩
    simp only [he, List.isEmpty_cons, Bool.not_false, if_true, List.mem_append, List.mem_cons,
      List.not_mem_nil, or_false]
    tauto

theorem Working.handOut (h : Working p t) : Working p t.handOut := by
  refine ⟨h.split.frame rfl rfl fun i => ?_, by simpa [Trace.handOut] using h.once,
    fun e he => List.mem_append_left _ (h.reported e he), h.completed⟩
  simp only [Trace.handOut, List.not_mem_nil, false_or, List.mem_append]
  exact or_comm

variable [UUIDPackage]

/-- A queue in which what was handed out stands in front of the executable blocks. -/
theorem update_prepend (σ : MapOrder) (s : SinglePipelineScheduler) (front : List BlockInvocation)
    {result : BlockInvocationResult} (hst : result.status = .complete) :
    (update σ { s with executableBlocks := front ++ s.executableBlocks } result).executableBlocks =
      front ++ (s.update σ result).executableBlocks := by
  obtain ⟨_, h, -⟩ := promoteReady_eq σ
    { s with completedBlocks := s.completedBlocks.insert result.id result }
  obtain ⟨_, h', -⟩ := promoteReady_eq σ { s with
    executableBlocks := front ++ s.executableBlocks
    completedBlocks := s.completedBlocks.insert result.id result }
  rw [update_complete σ _ hst, update_complete σ _ hst, h, h']
  exact List.append_assoc _ _ _

theorem Working.report (hacc : Accepted p manifests) (h : Working p t) (σ : MapOrder)
    {inv : BlockInvocation} {result : BlockInvocationResult} (hinv : inv ∈ t.handedOut)
    (hid : result.id = inv.id) (hst : result.status = .complete) :
    Working p (t.report σ inv result) := by
  obtain ⟨hcomp, -, -⟩ := complete_spec (s := t.sched) σ hst
  refine ⟨h.split.complete σ hst, ?_, ?_, fun k => ?_⟩
  · have hsplit : Split p (fun _ => False)
        { t.sched with executableBlocks := t.handedOut ++ t.sched.executableBlocks } :=
      h.split.frame rfl rfl fun i => by simp [or_comm]
    have hn := hsplit.promoted_nodup σ hacc hst h.once
    rwa [update_prepend σ _ _ hst] at hn
  · intro e he
    rcases List.mem_append.mp he with he | he
    · exact h.reported e he
    · rw [List.mem_singleton.mp he]
      exact hinv
  · change k ∈ (t.sched.update σ result).completedBlocks ↔ _
    rw [hcomp, h.completed, hid]
    simp [done, Trace.report]

theorem Working.call (hacc : Accepted p manifests) (h : Working p t) {c : Call}
    (hc : t.Completes c) : Working p (t.call c) := by
  cases c with
  | next => exact h.next
  | drain => exact h.handOut
  | report σ n result =>
    obtain ⟨hfirst, hst⟩ := hc
    obtain ⟨inv, hinv, -, hid, heq⟩ := hfirst.report
    rw [heq]
    exact h.report hacc σ hinv hid (by simpa [Call.status?] using hst)

omit [UUIDPackage] in
theorem working_start (hacc : Accepted p manifests) : Working p (start p manifests) := by
  have hsplit := split_registered hacc
  obtain ⟨g, hg, -⟩ := hacc.graph
  obtain ⟨-, -, hc, -, -, he, -, -⟩ := registered_queues manifests hg
  refine ⟨hsplit.frame rfl rfl fun i => by simp [start], ?_, fun e h => ?_, fun k => ?_⟩
  · change ((registered p manifests).executableBlocks.map BlockInvocation.id).Nodup
    rw [he, List.map_map]
    exact hacc.nodup.sublist (List.filter_sublist.map PipelineBlock.id)
  · exact absurd h List.not_mem_nil
  · change k ∈ (registered p manifests).completedBlocks ↔ _
    rw [hc]
    exact iff_of_false (AList.notMem_empty k) List.not_mem_nil

omit [UUIDPackage] in
theorem Working.ready_iff (hacc : Accepted p manifests) {b : PipelineBlock} (hb : b ∈ p.blocks) :
    t.sched.ready (b.invocation p.id none) = true ↔
      ∀ ref ∈ b.inputs, ref.depID ∈ t.sched.completedBlocks := by
  rw [ready_invocation, depsCompleted_iff]
  exact forall₂_congr fun ref hr => ⟨fun hd => hd (hacc.known b hb ref hr).1, fun hd _ => hd⟩

omit [UUIDPackage] in
/-- What is released is the invocation of a block that is ready. -/
theorem Working.released (hacc : Accepted p manifests) (h : Working p t) {b : PipelineBlock}
    (hb : b ∈ p.blocks) :
    b.id ∈ (t.handedOut ++ t.sched.executableBlocks).map BlockInvocation.id ↔
      t.sched.ready (b.invocation p.id none) = true := by
  constructor
  · intro hm
    obtain ⟨inv, hi, hid⟩ := List.mem_map.mp hm
    obtain ⟨c, hc, rfl, hr⟩ := h.split.released inv ((List.mem_append.mp hi).symm)
    rwa [← unique_of_nodup hacc.nodup hc hb hid]
  · intro hr
    rcases h.split.ready b hb hr with hc | he | ho
    · obtain ⟨e, he, hid⟩ := List.mem_map.mp ((h.completed _).mp hc)
      rw [← hid]
      exact List.mem_map_of_mem (List.mem_append_left _ (h.reported e he))
    · exact List.mem_map_of_mem (f := BlockInvocation.id) (List.mem_append_right _ he)
    · exact List.mem_map_of_mem (f := BlockInvocation.id) (List.mem_append_left _ ho)

omit [UUIDPackage] in
theorem Working.pending_iff (hacc : Accepted p manifests) (h : Working p t) {b : PipelineBlock}
    (hb : b ∈ p.blocks) :
    b.id ∈ t.sched.pendingBlocks ↔ t.sched.ready (b.invocation p.id none) = false := by
  rw [GoMap.mem_iff_lookup]
  constructor
  · rintro ⟨inv, hl⟩
    obtain ⟨c, hc, hid, rfl, hr⟩ := (h.split.pending _ _).mp hl
    rwa [← unique_of_nodup hacc.nodup hc hb hid]
  · exact fun hr => ⟨_, (h.split.pending _ _).mpr ⟨b, hb, rfl, rfl, hr⟩⟩

omit [UUIDPackage] in
theorem Working.partitioned (hacc : Accepted p manifests) (h : Working p t) : Partitioned p t := by
  have honce := h.once
  rw [List.map_append] at honce
  obtain ⟨hout, hexec, hdisj⟩ := List.nodup_append.mp honce
  refine ⟨fun b hb => ?_, hexec, hout⟩
  have hrel := h.released hacc hb
  have hpend := h.pending_iff hacc hb
  have hdone := h.completed b.id
  have hback : b.id ∈ t.done → b.id ∈ t.handedOut.map BlockInvocation.id := by
    intro hd
    obtain ⟨e, he, hid⟩ := List.mem_map.mp hd
    exact hid ▸ List.mem_map_of_mem (h.reported e he)
  rw [List.map_append, List.mem_append] at hrel
  by_cases hr : t.sched.ready (b.invocation p.id none) = true
  · have hnp : b.id ∉ t.sched.pendingBlocks := fun hp => by
      rw [hpend.mp hp] at hr
      cases hr
    by_cases he : b.id ∈ t.sched.executableBlocks.map BlockInvocation.id
    · have hno : b.id ∉ t.handedOut.map BlockInvocation.id := fun ho => hdisj _ ho _ he rfl
      refine ⟨.executable, he, ?_⟩
      rintro (_ | _ | _ | _) hs
      · rfl
      · exact absurd hs hnp
      · exact absurd hs.1 hno
      · exact absurd (hback (hdone.mp hs)) hno
    · have ho := (hrel.mpr hr).resolve_right he
      by_cases hd : b.id ∈ t.done
      · refine ⟨.completed, hdone.mpr hd, ?_⟩
        rintro (_ | _ | _ | _) hs
        · exact absurd hs he
        · exact absurd hs hnp
        · exact absurd hd hs.2
        · rfl
      · refine ⟨.inFlight, ⟨ho, hd⟩, ?_⟩
        rintro (_ | _ | _ | _) hs
        · exact absurd hs he
        · exact absurd hs hnp
        · rfl
        · exact absurd (hdone.mp hs) hd
  · have hno : ¬(b.id ∈ t.handedOut.map BlockInvocation.id ∨
        b.id ∈ t.sched.executableBlocks.map BlockInvocation.id) := fun hm => hr (hrel.mp hm)
    rw [not_or] at hno
    refine ⟨.pending, hpend.mpr (by simpa using hr), ?_⟩
    rintro (_ | _ | _ | _) hs
    · exact absurd hs hno.2
    · rfl
    · exact absurd hs.1 hno.1
    · exact absurd (hback (hdone.mp hs)) hno.1

theorem Working.handsOutReady (hacc : Accepted p manifests) (h : Working p t) (c : Call) :
    t.HandsOutReady p c := by
  have hexec : ∀ inv ∈ t.sched.executableBlocks, ∃ b ∈ p.blocks, inv = b.invocation p.id none ∧
      ∀ ref ∈ b.inputs, ref.depID ∈ t.sched.completedBlocks := by
    intro inv hi
    obtain ⟨b, hb, heq, hr⟩ := h.split.released inv (Or.inl hi)
    rw [heq] at hr
    exact ⟨b, hb, heq, (Working.ready_iff hacc hb).mp hr⟩
  cases c with
  | next =>
    refine ⟨_, rfl, fun inv hi => hexec inv ?_⟩
    unfold SinglePipelineScheduler.next isReady at hi
    cases he : t.sched.executableBlocks with
    | nil => simp [he] at hi
    | cons i rest =>
      rw [he] at hi
      rw [show inv = i by simpa using hi]
      exact List.mem_cons_self
  | drain => exact ⟨_, rfl, hexec⟩
  | report σ n result =>
    refine ⟨[], ?_, fun _ hi => absurd hi List.not_mem_nil⟩
    rw [call_report_handedOut, List.append_nil]

theorem working_run (hacc : Accepted p manifests) {calls : List Call}
    (hrun : Runs.Along call Completes (start p manifests) calls) :
    Runs.Always call (Working p) (start p manifests) calls :=
  Runs.always_of_along call (fun _ _ h hc => h.call hacc hc) (working_start hacc) hrun

/-- Every block is at one place at any time, no block is handed out twice, and none before
its dependencies are completed. -/
theorem partition {τ : MapOrder} (hval : validatePipeline τ p manifests = []) {calls : List Call}
    (hrun : Runs.Along call Completes (start p manifests) calls) :
    Runs.Always call (Partitioned p) (start p manifests) calls ∧
      Runs.Along call (HandsOutReady p) (start p manifests) calls := by
  have hacc := accepted_of_validate hval
  constructor
  · exact (working_run hacc hrun).mono call fun _ h => h.partitioned hacc
  · exact Runs.along_of_invariant call (P := Working p) (fun _ _ h hc => h.call hacc hc)
      (fun _ c h _ => h.handsOutReady hacc c) (working_start hacc) hrun

/-! No deadlock. -/

/-- While a block is pending another one is executable or in flight, and when nothing is left
to wait for all blocks are completed. -/
structure Live (p : Pipeline) (t : Trace) : Prop where
  moves : t.sched.pendingBlocks ≠ ∅ → t.sched.executableBlocks ≠ [] ∨ ∃ id, t.InFlight id
  ends : (∀ id, ¬t.InFlight id) → t.sched.next.2.2 = true →
    ∀ b ∈ p.blocks, b.id ∈ t.sched.completedBlocks

omit [UUIDPackage] in
/-- Of the pending blocks, one of least rank waits for a block that is not pending. -/
theorem Working.live (hacc : Accepted p manifests) {rank : UUID → ℕ}
    (hrank : ∀ b ∈ p.blocks, ∀ r ∈ b.inputs, rank r.depID < rank b.id) (h : Working p t) :
    Live p t := by
  have hplace := (h.partitioned hacc).place
  constructor
  · intro hne
    by_contra hidle
    rw [not_or, not_not] at hidle
    obtain ⟨hexec, hflight⟩ := hidle
    have hstuck : ∀ n, ∀ b ∈ p.blocks, rank b.id = n → b.id ∉ t.sched.pendingBlocks := by
      intro n
      induction n using Nat.strong_induction_on with
      | _ n ih =>
        intro b hb hn hp
        have hr := (h.pending_iff hacc hb).mp hp
        have hnot : ¬∀ ref ∈ b.inputs, ref.depID ∈ t.sched.completedBlocks := fun hall => by
          rw [(Working.ready_iff hacc hb).mpr hall] at hr
          cases hr
        simp only [not_forall] at hnot
        obtain ⟨ref, href, hdep⟩ := hnot
        obtain ⟨c, hc, hid⟩ := List.mem_map.mp (hacc.known b hb ref href).2
        have hlt := hrank b hb ref href
        rw [← hid] at hlt hdep
        have hnp := ih (rank c.id) (by omega) c hc rfl
        obtain ⟨pl, hpl, -⟩ := hplace c hc
        cases pl with
        | executable =>
          rw [Stands, hexec] at hpl
          exact absurd hpl List.not_mem_nil
        | pending => exact hnp hpl
        | inFlight => exact hflight ⟨_, hpl⟩
        | completed => exact hdep hpl
    obtain ⟨⟨k, inv⟩, hmem⟩ := List.exists_mem_of_ne_nil _ fun h => hne ((GoMap.items_eq_nil _).mp h)
    have hl := (GoMap.mem_items _ _ _).mp hmem
    obtain ⟨b, hb, hid, -, -⟩ := (h.split.pending _ _).mp hl
    exact hstuck _ b hb rfl (hid ▸ GoMap.mem_of_lookup hl)
  · intro hflight hdone b hb
    unfold SinglePipelineScheduler.next at hdone
    cases he : t.sched.executableBlocks with
    | cons i rest =>
      rw [he] at hdone
      cases hdone
    | nil =>
      rw [he] at hdone
      have hempty : t.sched.pendingBlocks = ∅ :=
        (GoMap.items_eq_nil _).mp (List.isEmpty_iff.mp hdone)
      obtain ⟨pl, hpl, -⟩ := hplace b hb
      cases pl with
      | executable =>
        rw [Stands, he] at hpl
        exact absurd hpl List.not_mem_nil
      | pending =>
        rw [Stands, hempty] at hpl
        exact absurd hpl (AList.notMem_empty _)
      | inFlight => exact absurd hpl (hflight _)
      | completed => exact hpl

/-- No run of `Complete` results gets stuck. -/
theorem no_deadlock {τ : MapOrder} (hval : validatePipeline τ p manifests = []) {calls : List Call}
    (hrun : Runs.Along call Completes (start p manifests) calls) :
    Runs.Always call (Live p) (start p manifests) calls := by
  have hacc := accepted_of_validate hval
  obtain ⟨rank, hrank⟩ := rank_of_validate hval
  exact (working_run hacc hrun).mono call fun _ h => h.live hacc hrank

end
end Trace
end Spade

namespace Spade.Trace
open Samples Uuid

/-- `Next` hands out the source of a chain, which completes. -/
def chainCalls : List Call := [.next, .report .stored 0 (completed 1), .drain]

theorem partition_chain :
    Runs.Always call (Partitioned chain) (start chain manifests) chainCalls ∧
      Runs.Along call (HandsOutReady chain) (start chain manifests) chainCalls := by
  have hval : validatePipeline .stored chain manifests = [] := by decide
  exact partition hval (by decide)

theorem no_deadlock_chain : Runs.Always call (Live chain) (start chain manifests) chainCalls := by
  have hval : validatePipeline .stored chain manifests = [] := by decide
  exact no_deadlock hval (by decide)

end Spade.Trace
