import Spade.Server.Hiding

set_option autoImplicit false

/-!
# The engine without one pipeline

What the operations look at, write and leave behind, in a world and in the one
without `q`.
-/
namespace Spade
open UUIDPackage
variable [UUIDPackage] [Encoding]

namespace World
variable {q : UUID} {w v : World} {a : Env × Op}

/-! Maps without a key. -/

section
variable {V : Type} {m m' n n' : GoMap UUID V} {id : UUID} {f : Option V → Option V}

omit [UUIDPackage] [Encoding] in
theorem HidesKey.lookup (h : HidesKey q m m') (hne : id ≠ q) : m'.lookup id = m.lookup id := by
  rw [h, if_neg hne]

omit [UUIDPackage] [Encoding] in
theorem HidesKey.mem (h : HidesKey q m m') (hne : id ≠ q) : id ∈ m' ↔ id ∈ m := by
  rw [GoMap.mem_iff_lookup, GoMap.mem_iff_lookup, h.lookup hne]

omit [UUIDPackage] [Encoding] in
theorem HidesKey.both (h : HidesKey q m m') (hne : id ≠ q)
    (hn : ∀ k, n.lookup k = if k = id then f (m.lookup k) else m.lookup k)
    (hn' : ∀ k, n'.lookup k = if k = id then f (m'.lookup k) else m'.lookup k) :
    HidesKey q n n' := by
  intro k
  rw [hn, hn', h]
  by_cases hk : k = id
  · subst hk
    rw [if_pos rfl, if_neg hne, if_pos rfl, if_neg hne]
  · rw [if_neg hk, if_neg hk]

omit [UUIDPackage] [Encoding] in
theorem HidesKey.left (h : HidesKey q m m')
    (hn : ∀ k, n.lookup k = if k = q then f (m.lookup k) else m.lookup k) : HidesKey q n m' := by
  intro k
  rw [h, hn]
  by_cases hk : k = q
  · rw [if_pos hk, if_pos hk]
  · rw [if_neg hk, if_neg hk, if_neg hk]

end

/-! What the operations look at. -/

omit [UUIDPackage] in
theorem registering_hides (h : Hides q w v) {env : Env} {pp : Pipeline} (body : String)
    (hne : ∀ p, Engine.submittedPipeline env pp = some p → p.id ≠ q) :
    v.engine.registering env pp body = w.engine.registering env pp body := by
  unfold Engine.registering
  cases hp : Engine.submittedPipeline env pp with
  | none => rfl
  | some p => simp only [h.records.mem (hne p hp)]

omit [Encoding] in
theorem isAlreadyProcessed_congr {s s' : MultiTenantScheduler} {id : String}
    (h : ∀ k, s'.schedulers.lookup k = s.schedulers.lookup k) :
    s'.isAlreadyProcessed id = s.isAlreadyProcessed id := by
  obtain ⟨u, idx, ok, hp⟩ : ∃ u idx ok, parseInvocationIDForScheduler id = (u, idx, ok) :=
    ⟨_, _, _, rfl⟩
  cases ok with
  | false => simp [MultiTenantScheduler.isAlreadyProcessed, hp]
  | true =>
    rw [Bool.eq_iff_iff, MultiTenantScheduler.isAlreadyProcessed_iff hp,
      MultiTenantScheduler.isAlreadyProcessed_iff hp]
    simp only [h]

omit [Encoding] in
theorem isAlreadyProcessed_others {id : String}
    (h : (w.others q).isAlreadyProcessed id = true) :
    w.engine.sched.isAlreadyProcessed id = true := by
  obtain ⟨u, idx, ok, hp⟩ : ∃ u idx ok, parseInvocationIDForScheduler id = (u, idx, ok) :=
    ⟨_, _, _, rfl⟩
  cases ok with
  | false => simp [MultiTenantScheduler.isAlreadyProcessed, hp] at h
  | true =>
    rw [MultiTenantScheduler.isAlreadyProcessed_iff hp] at h ⊢
    obtain ⟨pid, ps, hps, hk⟩ := h
    change (w.engine.sched.schedulers.erase q).lookup pid = some ps at hps
    rw [GoMap.lookup_erase_if] at hps
    split at hps
    · cases hps
    · exact ⟨pid, ps, hps, hk⟩

theorem takes_hides (h : Hides q w v) {env : Env} {wr : WorkerResult} (hne : wr.pipelineID ≠ q)
    (hg : w.IsolationGuard q (env, .result wr)) : v.engine.takes wr = w.engine.takes wr := by
  have hothers : v.engine.sched.isAlreadyProcessed wr.invocationID =
      (w.others q).isAlreadyProcessed wr.invocationID :=
    isAlreadyProcessed_congr fun k => by
      rw [h.scheds k]
      exact (GoMap.lookup_erase_if _ _ _).symm
  have hsame : v.engine.sched.isAlreadyProcessed wr.invocationID =
      w.engine.sched.isAlreadyProcessed wr.invocationID := by
    rw [hothers, Bool.eq_iff_iff]
    exact ⟨isAlreadyProcessed_others, hg hne⟩
  unfold Engine.takes
  rw [hsame, h.scheds.lookup hne]

omit [Encoding] in
/-- The announcements of the other pipelines are the same. -/
theorem announces_hides (h : Hides q w v) {env : Env} {wr : WorkerResult} (hne : wr.pipelineID ≠ q)
    (ht : v.engine.takes wr = w.engine.takes wr) {pid : UUID} {st : PipelineStatus} :
    v.Announces (env, .result wr) pid st ↔ w.Announces (env, .result wr) pid st := by
  have hl := h.scheds.lookup hne
  constructor
  · intro ha
    cases ha with
    | failed hv hs => exact .failed (ht ▸ hv) hs
    | complete hv hs hps hc hi => exact .complete (ht ▸ hv) hs (hl ▸ hps) hc hi
  · intro ha
    cases ha with
    | failed hv hs => exact .failed (ht ▸ hv) hs
    | complete hv hs hps hc hi => exact .complete (ht ▸ hv) hs (hl ▸ hps) hc hi

/-! The rows that are written. -/

omit [Encoding] in
theorem collectPending_congr {σ : MapOrder} {sched sched' : MultiTenantScheduler} {pid : UUID}
    (h : sched'.schedulers.lookup pid = sched.schedulers.lookup pid) (st : ExecutionStatus)
    (exp : Option ExpansionManifest) : collectPendingRowsLocked σ sched' pid st exp =
      collectPendingRowsLocked σ sched pid st exp := by
  unfold collectPendingRowsLocked
  rw [h]

theorem loadInvocation_hides (hw : w.Tidy q) (h : Hides q w v) (ha : w.Admits a)
    (hg : w.IsolationGuard q a) (ht : touches q w a = false) {rec : InvocationRecord}
    (hrec : rec ∈ w.writes a) :
    v.engine.store.loadInvocation rec.id = w.engine.store.loadInvocation rec.id := by
  refine (h.rows rec.id).trans ?_
  cases hl : w.engine.store.invocations.lookup rec.id with
  | none => exact hl.symm
  | some e =>
    refine (Option.filter_some_pos ?_).trans hl.symm
    rw [decide_eq_true_eq]
    intro hq
    obtain ⟨hid, hown⟩ := hw.owned _ _ hl
    have hside := (tidy_step hw ha hg).side (hown.step (a := a) hw.sound.stored)
      (writes_owned hw.sound ha rec hrec) hid
    rw [(writes_touch hw.sound ha hrec).mp (hside.mp hq)] at ht
    cases ht

theorem writes_hides (hw : w.Tidy q) (h : Hides q w v) (ha : w.Admits a)
    (hg : w.IsolationGuard q a) (ht : touches q w a = false) : v.writes a = w.writes a := by
  have hrow : ∀ rec ∈ w.writes a,
      v.engine.store.loadInvocation rec.id = w.engine.store.loadInvocation rec.id :=
    fun rec => loadInvocation_hides hw h ha hg ht
  obtain ⟨env, op⟩ := a
  unfold touches at ht
  cases op with
  | cancel => rfl
  | drain => rfl
  | submit pp body who =>
    unfold writes
    dsimp only
    rw [registering_hides h body fun p hp hq => by simp [hp, hq] at ht]
  | publish ok =>
    cases ok with
    | false => rfl
    | true =>
      unfold writes
      dsimp only
      rw [h.sweep]
      cases hs : w.sweep with
      | nil => rfl
      | cons inv rest =>
        rw [hs] at ht
        have hne : inv.pipelineId ≠ q := by simpa using ht
        simp only [List.filter_cons, hne, ne_eq, not_false_eq_true, decide_true, if_true,
          h.scheds.mem hne]
  | result wr =>
    have hne : wr.pipelineID ≠ q := by simpa using ht
    have htk := takes_hides h hne hg
    unfold writes at hrow ⊢
    dsimp only at hrow ⊢
    rw [htk]
    by_cases hw' : w.engine.takes wr = true
    · rw [if_pos hw'] at hrow
      rw [if_pos hw', if_pos hw']
      have hload := hrow (Engine.resultRow env wr w.engine.store) List.mem_cons_self
      obtain ⟨-, ps, sched, hps, hs, hl⟩ := update_of_takes hw' env.order
      obtain ⟨-, ps', sched', hps', hs', hl'⟩ := update_of_takes (htk.trans hw') env.order
      rw [h.scheds.lookup hne, hps] at hps'
      cases hps'
      rw [hs, hs']
      congr 1
      · unfold Engine.resultRow
        rw [show v.engine.store.loadInvocation wr.invocationID =
          w.engine.store.loadInvocation wr.invocationID from hload]
      · exact collectPending_congr (hl'.trans hl.symm) _ _
    · rw [if_neg hw', if_neg hw']

/-! The registry and the records. -/

end World

namespace MultiTenantScheduler
variable {q : UUID}

omit [UUIDPackage] [Encoding] in
/-- A drain without the queue of `q`. -/
theorem foldl_drainOne_hides {order : List UUID}
    {acc acc' : GoMap UUID SinglePipelineScheduler × List BlockInvocation}
    (own : ∀ k ps, acc.1.lookup k = some ps → ∀ inv ∈ ps.executableBlocks, inv.pipelineId = k)
    (hm : World.HidesKey q acc.1 acc'.1)
    (hout : acc'.2 = acc.2.filter fun inv => inv.pipelineId ≠ q) :
    ((order.filter fun k => k ≠ q).foldl drainOne acc').2 =
      (order.foldl drainOne acc).2.filter fun inv => inv.pipelineId ≠ q := by
  induction order generalizing acc acc' with
  | nil => exact hout
  | cons k order ih =>
    obtain ⟨hone, hnew⟩ := drainOne_eq acc k
    have hown : ∀ k' ps, (drainOne acc k).1.lookup k' = some ps →
        ∀ inv ∈ ps.executableBlocks, inv.pipelineId = k' := by
      intro k' ps hps
      rw [hone] at hps
      split at hps
      · obtain ⟨ps', -, rfl⟩ := Option.map_eq_some_iff.mp hps
        exact nofun
      · exact own k' ps hps
    rw [List.foldl_cons]
    by_cases hk : k = q
    · rw [List.filter_cons_of_neg (by simpa using hk)]
      refine ih hown ?_ ?_
      · exact hm.left (f := Option.map emptied) (hk ▸ hone)
      · rw [hnew, List.filter_append, hout]
        cases hl : acc.1.lookup k with
        | none => simp
        | some ps =>
          have hnil : ps.executableBlocks.filter (fun inv => inv.pipelineId ≠ q) = [] :=
            List.filter_eq_nil_iff.mpr fun inv hinv => by simp [own k ps hl inv hinv, hk]
          rw [Option.map_some, Option.getD_some, hnil, List.append_nil]
    · rw [List.filter_cons_of_pos (by simpa using hk), List.foldl_cons]
      obtain ⟨hone', hnew'⟩ := drainOne_eq acc' k
      refine ih hown (hm.both (f := Option.map emptied) hk hone hone') ?_
      rw [hnew, hnew', List.filter_append, hout, hm.lookup hk]
      cases hl : acc.1.lookup k with
      | none => simp
      | some ps =>
        have hall : ps.executableBlocks.filter (fun inv => inv.pipelineId ≠ q) =
            ps.executableBlocks :=
          List.filter_eq_self.mpr fun inv hinv => by simp [own k ps hl inv hinv, hk]
        rw [Option.map_some, Option.getD_some, hall]

end MultiTenantScheduler

namespace Engine

omit [Encoding] in
theorem register_order (env : Env) (p : Pipeline) (body submitter : String) (e : Engine)
    (h : p.id ∉ e.store.pipelines) :
    (registerPipeline env p body submitter e).1.sched.pipelineOrder =
      e.sched.pipelineOrder ++ [p.id] := by
  unfold registerPipeline MemStore.insertPipeline MultiTenantScheduler.setManifests
  simp only [h, if_false]
  split <;> rfl

omit [UUIDPackage] [Encoding] in
theorem cancel_order (env : Env) (id : UUID) (e : Engine) :
    (e.cancelPipeline env id).1.sched.pipelineOrder =
      if id ∈ e.sched.schedulers then e.sched.pipelineOrder.erase id else e.sched.pipelineOrder := by
  have horder : ((e.sched.cancelPipeline id).getD e.sched).pipelineOrder =
      if id ∈ e.sched.schedulers then e.sched.pipelineOrder.erase id
      else e.sched.pipelineOrder := by
    unfold MultiTenantScheduler.cancelPipeline
    cases hl : e.sched.schedulers.lookup id with
    | none => rw [if_neg (AList.lookup_eq_none.mp hl), Option.getD_none]
    | some ps => rw [if_pos (GoMap.mem_of_lookup hl), Option.getD_some]
  unfold Engine.cancelPipeline
  cases e.store.updatePipelineStatus env.now id .cancelled <;> exact horder

omit [UUIDPackage] [Encoding] in
theorem cancel_records (env : Env) (id : UUID) (e : Engine) :
    (e.cancelPipeline env id).1.store.pipelines =
      ((e.store.updatePipelineStatus env.now id .cancelled).getD e.store).pipelines := by
  unfold Engine.cancelPipeline
  cases e.store.updatePipelineStatus env.now id .cancelled <;> rfl

theorem result_order (env : Env) (wr : WorkerResult) (e : Engine) :
    (e.applyResult env wr).1.sched.pipelineOrder = e.sched.pipelineOrder := by
  unfold applyResult
  split
  · rfl
  · split
    · rfl
    · rename_i sched hs
      have horder : sched.pipelineOrder = e.sched.pipelineOrder := by
        unfold MultiTenantScheduler.update at hs
        split at hs
        · cases hs
        · cases hs
          rfl
      dsimp only
      split_ifs <;> exact horder

omit [UUIDPackage] [Encoding] in
theorem requeue_order (inv : BlockInvocation) (s : MultiTenantScheduler) :
    (requeue inv s).pipelineOrder = s.pipelineOrder := by
  unfold requeue
  split <;> rfl

end Engine

end Spade
