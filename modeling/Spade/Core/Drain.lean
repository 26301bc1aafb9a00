import Spade.Core.MultiTenant

set_option autoImplicit false

/-! # What `Drain` and the other registry operations do to each pipeline -/
namespace Spade
open UUIDPackage
namespace MultiTenantScheduler

def emptied (ps : SinglePipelineScheduler) : SinglePipelineScheduler :=
  { ps with executableBlocks := [] }

theorem drainOne_eq (acc : GoMap UUID SinglePipelineScheduler × List BlockInvocation) (pid : UUID) :
    (∀ k, (drainOne acc pid).1.lookup k =
      if k = pid then (acc.1.lookup k).map emptied else acc.1.lookup k) ∧
    (drainOne acc pid).2 = acc.2 ++ ((acc.1.lookup pid).map fun ps => ps.executableBlocks).getD [] := by
  unfold drainOne
  cases hl : acc.1.lookup pid with
  | none =>
    refine ⟨fun k => ?_, by simp⟩
    split_ifs with hk
    · subst hk
      rw [hl, Option.map_none]
    · rfl
  | some ps =>
    by_cases he : ps.executableBlocks = []
    · have hsame : emptied ps = ps := by rw [emptied, ← he]
      simp only [he, List.isEmpty_nil, if_true]
      refine ⟨fun k => ?_, by simp [he]⟩
      split_ifs with hk
      · subst hk
        rw [hl, Option.map_some, hsame]
      · rfl
    · have hne : ps.executableBlocks.isEmpty = false := by simpa using he
      simp only [hne, Bool.false_eq_true, if_false]
      refine ⟨fun k => ?_, by simp⟩
      rw [GoMap.lookup_insert_if]
      split_ifs with hk
      · subst hk
        rw [hl, Option.map_some, emptied]
      · rfl

theorem foldl_drainOne (order : List UUID)
    (acc : GoMap UUID SinglePipelineScheduler × List BlockInvocation) :
    (∀ pid, (order.foldl drainOne acc).1.lookup pid =
      (acc.1.lookup pid).map fun ps => if pid ∈ order then emptied ps else ps) ∧
    ∀ inv, inv ∈ (order.foldl drainOne acc).2 ↔ inv ∈ acc.2 ∨
      ∃ pid ∈ order, ∃ ps, acc.1.lookup pid = some ps ∧ inv ∈ ps.executableBlocks := by
  induction order generalizing acc with
  | nil => simp
  | cons a order ih =>
    rw [List.foldl_cons]
    obtain ⟨hone, hout⟩ := drainOne_eq acc a
    obtain ⟨h₁, h₂⟩ := ih (drainOne acc a)
    constructor
    · intro pid
      rw [h₁, hone]
      by_cases ha : pid = a
      · subst ha
        cases acc.1.lookup pid with
        | none => simp
        | some ps => by_cases hp : pid ∈ order <;> simp [hp, emptied]
      · simp [ha]
    · intro inv
      rw [h₂, hout, List.mem_append, or_assoc]
      refine or_congr_right ?_
      constructor
      · rintro (h | ⟨pid, hp, ps, hps, h⟩)
        · cases hl : acc.1.lookup a with
          | none => simp [hl] at h
          | some ps =>
            rw [hl] at h
            exact ⟨a, by simp, ps, hl, h⟩
        · rw [hone] at hps
          split at hps
          · obtain ⟨ps', -, rfl⟩ := Option.map_eq_some_iff.mp hps
            cases h
          · exact ⟨pid, by simp [hp], ps, hps, h⟩
      · rintro ⟨pid, hp, ps, hps, h⟩
        by_cases ha : pid = a
        · subst ha
          exact Or.inl (by simpa [hps] using h)
        · refine Or.inr ⟨pid, (List.mem_cons.mp hp).resolve_left ha, ps, ?_, h⟩
          rw [hone, if_neg ha]
          exact hps

theorem drain_lookup (s : MultiTenantScheduler) (pid : UUID) :
    s.drain.1.schedulers.lookup pid =
      (s.schedulers.lookup pid).map fun ps => if pid ∈ s.pipelineOrder then emptied ps else ps :=
  (foldl_drainOne s.pipelineOrder (s.schedulers, [])).1 pid

theorem mem_drain (s : MultiTenantScheduler) (inv : BlockInvocation) :
    inv ∈ s.drain.2 ↔ ∃ pid ∈ s.pipelineOrder, ∃ ps,
      s.schedulers.lookup pid = some ps ∧ inv ∈ ps.executableBlocks := by
  refine ((foldl_drainOne s.pipelineOrder (s.schedulers, [])).2 inv).trans ?_
  simp

/-! The invocations in all queues, whichever scheduler holds them. -/

def queuedIn (m : GoMap UUID SinglePipelineScheduler) : List BlockInvocation :=
  m.items.flatMap fun e => e.2.executableBlocks

def queued (s : MultiTenantScheduler) : List BlockInvocation := queuedIn s.schedulers

theorem queuedIn_insert (m : GoMap UUID SinglePipelineScheduler) (pid : UUID)
    (ps : SinglePipelineScheduler) :
    queuedIn (m.insert pid ps) = ps.executableBlocks ++ queuedIn (m.erase pid) := by
  rw [queuedIn, GoMap.items_insert, List.flatMap_cons]
  rfl

theorem queuedIn_lookup {m : GoMap UUID SinglePipelineScheduler} {pid : UUID}
    {ps : SinglePipelineScheduler} (h : m.lookup pid = some ps) :
    (queuedIn m).Perm (ps.executableBlocks ++ queuedIn (m.erase pid)) := by
  have hp := (GoMap.items_perm h).flatMap_right fun e => e.2.executableBlocks
  rwa [List.flatMap_cons] at hp

theorem drainOne_queued (acc : GoMap UUID SinglePipelineScheduler × List BlockInvocation)
    (pid : UUID) : ((drainOne acc pid).2 ++ queuedIn (drainOne acc pid).1).Perm
      (acc.2 ++ queuedIn acc.1) := by
  unfold drainOne
  cases hl : acc.1.lookup pid with
  | none => exact List.Perm.refl _
  | some ps =>
    dsimp only
    split
    · exact List.Perm.refl _
    · rw [queuedIn_insert, List.nil_append, List.append_assoc]
      exact ((queuedIn_lookup hl).symm).append_left acc.2

/-- A drain loses and duplicates nothing. -/
theorem drain_queued (s : MultiTenantScheduler) :
    (s.drain.2 ++ s.drain.1.queued).Perm s.queued := by
  have key : ∀ (order : List UUID) (acc : GoMap UUID SinglePipelineScheduler × List BlockInvocation),
      ((order.foldl drainOne acc).2 ++ queuedIn (order.foldl drainOne acc).1).Perm
        (acc.2 ++ queuedIn acc.1) := by
    intro order
    induction order with
    | nil => exact fun acc => List.Perm.refl _
    | cons pid order ih => exact fun acc => (ih (drainOne acc pid)).trans (drainOne_queued acc pid)
  exact key s.pipelineOrder (s.schedulers, [])

theorem cancel_lookup {s s' : MultiTenantScheduler} {id : UUID} (h : s.cancelPipeline id = some s')
    (pid : UUID) : s'.schedulers.lookup pid =
      if pid = id then (s.schedulers.lookup pid).map SinglePipelineScheduler.cancelPipeline
      else s.schedulers.lookup pid := by
  unfold cancelPipeline at h
  cases hl : s.schedulers.lookup id with
  | none => simp [hl] at h
  | some ps =>
    simp only [hl, Option.some.injEq] at h
    subst h
    rw [GoMap.lookup_insert_if]
    split_ifs with hk
    · subst hk
      rw [hl, Option.map_some]
    · rfl

theorem update_lookup [UUIDPackage] {σ : MapOrder} {s s' : MultiTenantScheduler} {u : UUID}
    {r : BlockInvocationResult} (h : s.update σ u r = some s') (pid : UUID) :
    s'.schedulers.lookup pid =
      if pid = r.pipelineId then (s.schedulers.lookup pid).map fun ps => ps.update σ r
      else s.schedulers.lookup pid := by
  unfold update at h
  cases hl : s.schedulers.lookup r.pipelineId with
  | none => simp [hl] at h
  | some ps =>
    simp only [hl, Option.some.injEq] at h
    subst h
    rw [GoMap.lookup_insert_if]
    split_ifs with hk
    · subst hk
      rw [hl, Option.map_some]
    · rfl

section
variable [UUIDPackage]

/-- The key that `IsAlreadyProcessed` looks up: the block id, or the one derived from it. -/
def detectionKey (id : UUID) (mapIdx : Option Int) : UUID :=
  match mapIdx with
  | none => id
  | some i => newSHA1 id (itoa i)

theorem processedBy_iff (id : UUID) (mapIdx : Option Int) (ps : SinglePipelineScheduler) :
    processedBy id mapIdx ps = true ↔ detectionKey id mapIdx ∈ ps.completedBlocks := by
  unfold processedBy detectionKey
  split <;> cases mapIdx <;> simp_all

theorem isAlreadyProcessed_iff {s : MultiTenantScheduler} {id : String} {u : UUID}
    {idx : Option Int} (hp : parseInvocationIDForScheduler id = (u, idx, true)) :
    s.isAlreadyProcessed id = true ↔ ∃ pid ps, s.schedulers.lookup pid = some ps ∧
      detectionKey u idx ∈ ps.completedBlocks := by
  unfold isAlreadyProcessed
  rw [hp]
  simp only [List.any_eq_true, Prod.exists, GoMap.mem_items, processedBy_iff]

end
end MultiTenantScheduler
end Spade
