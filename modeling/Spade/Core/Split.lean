import Spade.Core.Contexts
import Spade.Core.Update

set_option autoImplicit false

/-!
# How a scheduler splits the blocks of its pipeline

As long as only `Complete` results come, every block whose dependencies are completed
has been released, and every other one is pending. The predicate `out` is what was
released and has left the queue.
-/
namespace Spade
open UUIDPackage

namespace SinglePipelineScheduler

structure Split (p : Pipeline) (out : BlockInvocation → Prop) (s : SinglePipelineScheduler) :
    Prop where
  released : ∀ inv, inv ∈ s.executableBlocks ∨ out inv →
    ∃ b ∈ p.blocks, inv = b.invocation p.id none ∧ s.ready inv = true
  ready : ∀ b ∈ p.blocks, s.ready (b.invocation p.id none) = true → b.id ∈ s.completedBlocks ∨
    b.invocation p.id none ∈ s.executableBlocks ∨ out (b.invocation p.id none)
  pending : ∀ k inv, s.pendingBlocks.lookup k = some inv ↔
    ∃ b ∈ p.blocks, b.id = k ∧ inv = b.invocation p.id none ∧ s.ready inv = false

variable {p : Pipeline} {out : BlockInvocation → Prop} {s s' : SinglePipelineScheduler}

theorem ready_invocation {b : PipelineBlock} {pid : UUID} :
    s.ready (b.invocation pid none) = depsCompleted s.completedBlocks b.inputs := rfl

/-- Two splits of a pipeline with the same completed blocks have the same pending ones. -/
theorem ready_congr (h : ∀ k, k ∈ s'.completedBlocks ↔ k ∈ s.completedBlocks)
    (inv : BlockInvocation) : s'.ready inv = s.ready inv := by
  unfold ready
  rw [Bool.eq_iff_iff, depsCompleted_iff, depsCompleted_iff]
  simp only [h]

/-- What has been released may move on from the queue. -/
theorem Split.frame {out' : BlockInvocation → Prop} (h : s.Split p out)
    (hc : s'.completedBlocks = s.completedBlocks) (hp : s'.pendingBlocks = s.pendingBlocks)
    (he : ∀ inv, inv ∈ s'.executableBlocks ∨ out' inv ↔ inv ∈ s.executableBlocks ∨ out inv) :
    s'.Split p out' := by
  have hr : ∀ inv, s'.ready inv = s.ready inv := ready_congr fun k => by rw [hc]
  refine ⟨fun inv hi => ?_, fun b hb hb' => ?_, fun k inv => ?_⟩
  · rw [hr]
    exact h.released inv ((he inv).mp hi)
  · rw [hc]
    exact (h.ready b hb ((hr _).symm.trans hb')).imp_right (he _).mpr
  · rw [hp, hr]
    exact h.pending k inv

/-- The invocations of a split that are still to report. -/
theorem Split.open_iff (h : s.Split p out) (inv : BlockInvocation) :
    (inv ∈ s.executableBlocks ∨ out inv) ∧ inv.id ∉ s.completedBlocks ↔
      ∃ b ∈ p.blocks, inv = b.invocation p.id none ∧ s.ready inv = true ∧
        b.id ∉ s.completedBlocks := by
  constructor
  · rintro ⟨hi, hc⟩
    obtain ⟨b, hb, rfl, hr⟩ := h.released inv hi
    exact ⟨b, hb, rfl, hr, hc⟩
  · rintro ⟨b, hb, rfl, hr, hc⟩
    exact ⟨(h.ready b hb hr).resolve_left hc, hc⟩

/-- A pipeline that has just been registered. -/
theorem split_of_queues {manifests : Manifests} (hacc : Accepted p manifests)
    (hc : s.completedBlocks = ∅)
    (he : s.executableBlocks =
      (p.blocks.filter fun b => b.inputs.isEmpty).map fun b => b.invocation p.id none)
    (hp : ∀ k inv, s.pendingBlocks.lookup k = some inv →
      ∃ b ∈ p.blocks, b.inputs ≠ [] ∧ b.id = k ∧ inv = b.invocation p.id none)
    (hm : ∀ b ∈ p.blocks, b.inputs ≠ [] → b.id ∈ s.pendingBlocks) :
    s.Split p fun _ => False := by
  have hready : ∀ b ∈ p.blocks, s.ready (b.invocation p.id none) = true ↔ b.inputs = [] := by
    intro b hb
    rw [ready_invocation, depsCompleted_iff, hc]
    constructor
    · intro h
      by_contra hne
      obtain ⟨r, hr⟩ := List.exists_mem_of_ne_nil _ hne
      exact absurd (h r hr (hacc.known b hb r hr).1) (AList.notMem_empty _)
    · rintro h
      simp [h]
  refine ⟨?_, ?_, ?_⟩
  · rintro inv (h | h)
    · rw [he] at h
      obtain ⟨b, hb, rfl⟩ := List.mem_map.mp h
      obtain ⟨hb, hnil⟩ := List.mem_filter.mp hb
      exact ⟨b, hb, rfl, (hready b hb).mpr (by simpa using hnil)⟩
    · exact h.elim
  · intro b hb hr
    refine Or.inr (Or.inl ?_)
    rw [he]
    exact List.mem_map_of_mem (List.mem_filter.mpr ⟨hb, by simpa using (hready b hb).mp hr⟩)
  · intro k inv
    constructor
    · intro h
      obtain ⟨b, hb, hne, hk, rfl⟩ := hp k inv h
      refine ⟨b, hb, hk, rfl, ?_⟩
      by_contra hr
      exact hne ((hready b hb).mp (by simpa using hr))
    · rintro ⟨b, hb, rfl, rfl, hr⟩
      have hne : b.inputs ≠ [] := by
        intro hnil
        rw [(hready b hb).mpr hnil] at hr
        cases hr
      obtain ⟨inv, hl⟩ := GoMap.lookup_of_mem (hm b hb hne)
      obtain ⟨c, hc', -, hid, rfl⟩ := hp _ _ hl
      rw [hl, unique_of_nodup hacc.nodup hc' hb hid]

theorem split_registered {manifests : Manifests} (hacc : Accepted p manifests) :
    (registered p manifests).Split p fun _ => False := by
  obtain ⟨g, hg, -⟩ := hacc.graph
  obtain ⟨-, -, hc, -, -, he, hp, hm⟩ := registered_queues manifests hg
  exact split_of_queues hacc hc he hp hm

/-- The queues of `registered` are those of the scheduler before its manifests are set. -/
theorem split_new {manifests : Manifests} (hacc : Accepted p manifests) :
    (newSchedulerForPipeline p).Split p fun _ => False := by
  obtain ⟨g, hg, -⟩ := hacc.graph
  obtain ⟨-, -, hc, -, -, he, hp, hm⟩ := registered_queues manifests hg
  exact split_of_queues (s := newSchedulerForPipeline p) hacc hc he hp hm

section
variable [UUIDPackage] (σ : MapOrder)

/-- What a `Complete` result does to a split. -/
theorem complete_spec {r : BlockInvocationResult} (hr : r.status = .complete) :
    (∀ k, k ∈ (s.update σ r).completedBlocks ↔ k ∈ s.completedBlocks ∨ k = r.id) ∧
    (∀ inv, inv ∈ (s.update σ r).executableBlocks ↔ inv ∈ s.executableBlocks ∨
      ∃ k, s.pendingBlocks.lookup k = some inv ∧ (s.update σ r).ready inv = true) ∧
    ∀ k inv, (s.update σ r).pendingBlocks.lookup k = some inv ↔
      s.pendingBlocks.lookup k = some inv ∧ (s.update σ r).ready inv = false := by
  obtain ⟨-, -, hcomp, -, hexec, hpend⟩ := promoteReady_spec σ
    { s with completedBlocks := s.completedBlocks.insert r.id r }
  have hready : ∀ inv, (s.update σ r).ready inv =
      ready { s with completedBlocks := s.completedBlocks.insert r.id r } inv := by
    intro inv
    unfold ready
    rw [update_complete σ s hr, hcomp]
  refine ⟨fun k => ?_, fun inv => ?_, fun k inv => ?_⟩
  · rw [completed_update]
    simp [records, hr]
  · rw [hready, update_complete σ s hr]
    exact hexec inv
  · rw [hready, update_complete σ s hr]
    exact hpend k inv

theorem Split.complete {r : BlockInvocationResult} (h : s.Split p out) (hr : r.status = .complete) :
    (s.update σ r).Split p out := by
  obtain ⟨hcomp, hexec, hpend⟩ := complete_spec (s := s) σ hr
  have hmono : ∀ inv, s.ready inv = true → (s.update σ r).ready inv = true := fun inv hi =>
    depsCompleted_mono (fun k hk => (hcomp k).mpr (Or.inl hk)) hi
  refine ⟨?_, ?_, ?_⟩
  · intro inv hi
    have hold : (inv ∈ s.executableBlocks ∨ out inv) →
        ∃ b ∈ p.blocks, inv = b.invocation p.id none ∧ (s.update σ r).ready inv = true := by
      intro hi
      obtain ⟨b, hb, heq, hrdy⟩ := h.released inv hi
      exact ⟨b, hb, heq, hmono inv hrdy⟩
    rcases hi with hi | hi
    · rcases (hexec inv).mp hi with hi | ⟨k, hk, hrdy⟩
      · exact hold (Or.inl hi)
      · obtain ⟨b, hb, -, heq, -⟩ := (h.pending k inv).mp hk
        exact ⟨b, hb, heq, hrdy⟩
    · exact hold (Or.inr hi)
  · intro b hb hrdy
    by_cases hold : s.ready (b.invocation p.id none) = true
    · rcases h.ready b hb hold with hc | he | ho
      · exact Or.inl ((hcomp _).mpr (Or.inl hc))
      · exact Or.inr (Or.inl ((hexec _).mpr (Or.inl he)))
      · exact Or.inr (Or.inr ho)
    · refine Or.inr (Or.inl ((hexec _).mpr (Or.inr ⟨b.id, ?_, hrdy⟩)))
      exact (h.pending _ _).mpr ⟨b, hb, rfl, rfl, by simpa using hold⟩
  · intro k inv
    rw [hpend, h.pending]
    constructor
    · rintro ⟨⟨b, hb, hk, heq, -⟩, hn⟩
      exact ⟨b, hb, hk, heq, hn⟩
    · rintro ⟨b, hb, hk, heq, hn⟩
      refine ⟨⟨b, hb, hk, heq, ?_⟩, hn⟩
      by_contra hrdy
      rw [hmono inv (by simpa using hrdy)] at hn
      cases hn

end

/-- Blocks with a result may leave the queue. -/
theorem Split.prune (h : s.Split p out) {q : BlockInvocation → Bool}
    (hq : ∀ b ∈ p.blocks, q (b.invocation p.id none) = false → b.id ∈ s.completedBlocks) :
    Split p out { s with executableBlocks := s.executableBlocks.filter q } := by
  refine ⟨fun inv hi => ?_, fun b hb hr => ?_, h.pending⟩
  · exact h.released inv (hi.imp_left fun hi => (List.mem_filter.mp hi).1)
  · rcases h.ready b hb hr with hc | he | ho
    · exact Or.inl hc
    · by_cases hkeep : q (b.invocation p.id none) = true
      · exact Or.inr (Or.inl (List.mem_filter.mpr ⟨he, hkeep⟩))
      · exact Or.inl (hq b hb (by simpa using hkeep))
    · exact Or.inr (Or.inr ho)

/-- An invocation that is not pending appears in the queue of ids at most once. -/
theorem Split.promoted_nodup [UUIDPackage] {manifests : Manifests} (σ : MapOrder)
    {r : BlockInvocationResult} (hacc : Accepted p manifests) (h : s.Split p out)
    (hr : r.status = .complete) (hn : (s.executableBlocks.map BlockInvocation.id).Nodup) :
    ((s.update σ r).executableBlocks.map BlockInvocation.id).Nodup := by
  rw [update_complete σ s hr]
  obtain ⟨pending, heq, -⟩ := promoteReady_eq σ
    { s with completedBlocks := s.completedBlocks.insert r.id r }
  have hids : ∀ e ∈ σ.range s.pendingBlocks,
      e.2.id = e.1 ∧ ∃ b ∈ p.blocks, e.2 = b.invocation p.id none ∧ s.ready e.2 = false := by
    intro e he
    obtain ⟨b, hb, hk, hinv, hnr⟩ := (h.pending e.1 e.2).mp ((σ.mem_range _ _ _).mp he)
    exact ⟨by rw [hinv]; exact hk, b, hb, hinv, hnr⟩
  rw [heq]
  dsimp only
  rw [List.map_append, List.nodup_append]
  refine ⟨hn, ?_, ?_⟩
  · rw [List.map_map, List.map_congr_left (f := BlockInvocation.id ∘ Prod.snd) (g := Prod.fst)
      fun e he => (hids e (List.mem_filter.mp he).1).1]
    exact (σ.range_nodup s.pendingBlocks).sublist (List.filter_sublist.map Prod.fst)
  · rintro k hk k' hk' rfl
    obtain ⟨inv, hinv, rfl⟩ := List.mem_map.mp hk
    obtain ⟨inv', hinv', hid⟩ := List.mem_map.mp hk'
    obtain ⟨e, he, rfl⟩ := List.mem_map.mp hinv'
    obtain ⟨b, hb, rfl, hrdy⟩ := h.released inv (Or.inl hinv)
    obtain ⟨-, c, hc, heq', hnr⟩ := hids e (List.mem_filter.mp he).1
    rw [heq'] at hid hnr
    rw [unique_of_nodup hacc.nodup hc hb hid, hrdy] at hnr
    cases hnr

end SinglePipelineScheduler
end Spade
