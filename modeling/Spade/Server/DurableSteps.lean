import Spade.Server.Durable

set_option autoImplicit false

/-! # The steps that keep the running pipelines recoverable -/
namespace Spade
open UUIDPackage
variable [UUIDPackage] [Encoding]

namespace MultiTenantScheduler

omit [UUIDPackage] [Encoding] in
/-- The invocations of one pipeline in the queues are those in its own queue. -/
theorem queued_filter {s : MultiTenantScheduler} {pid : UUID} {ps : SinglePipelineScheduler}
    (hps : s.schedulers.lookup pid = some ps)
    (own : ∀ k ps, s.schedulers.lookup k = some ps → ∀ inv ∈ ps.executableBlocks, inv.pipelineId = k) :
    (s.queued.filter fun inv => inv.pipelineId = pid).Perm ps.executableBlocks := by
  have hself : ps.executableBlocks.filter (fun inv => inv.pipelineId = pid) =
      ps.executableBlocks :=
    List.filter_eq_self.mpr fun inv hinv => by simpa using own pid ps hps inv hinv
  have hrest : (queuedIn (s.schedulers.erase pid)).filter (fun inv => inv.pipelineId = pid) = [] := by
    refine List.filter_eq_nil_iff.mpr fun inv hinv => ?_
    obtain ⟨⟨k, ps'⟩, he, hmem⟩ := List.mem_flatMap.mp hinv
    rw [GoMap.mem_items, GoMap.lookup_erase_if] at he
    split at he
    · cases he
    · rename_i hk
      rw [own k ps' he inv hmem]
      simpa using hk
  have hp := (queuedIn_lookup hps).filter fun inv => inv.pipelineId = pid
  rwa [List.filter_append, hself, hrest, List.append_nil] at hp

omit [UUIDPackage] [Encoding] in
theorem drain_own {s : MultiTenantScheduler}
    (own : ∀ k ps, s.schedulers.lookup k = some ps → ∀ inv ∈ ps.executableBlocks, inv.pipelineId = k) :
    ∀ k ps, s.drain.1.schedulers.lookup k = some ps →
      ∀ inv ∈ ps.executableBlocks, inv.pipelineId = k := by
  intro k ps hps
  rw [drain_lookup] at hps
  obtain ⟨ps₀, hl, rfl⟩ := Option.map_eq_some_iff.mp hps
  split
  · exact nofun
  · exact own k ps₀ hl

end MultiTenantScheduler

namespace World
variable {w : World} {a : Env × Op} {pid : UUID} {rec : PipelineRecord}
  {ps ps' : SinglePipelineScheduler}

omit [Encoding] in
theorem own_queue (hw : w.Sound) : ∀ k ps, w.engine.sched.schedulers.lookup k = some ps →
    ∀ inv ∈ ps.executableBlocks, inv.pipelineId = k :=
  fun _ _ hps _ hinv => (made_of_sound hw hps (Or.inl hinv)).1

/-- A drain moves the queue of a pipeline to the sweep. -/
theorem kept_drain (hw : w.Sound) {env : Env} (hs : w.sweep = [])
    (hps : w.engine.sched.schedulers.lookup pid = some ps) (h : w.Kept pid rec ps) :
    ∃ ps', (w.step (env, .drain)).engine.sched.schedulers.lookup pid = some ps' ∧
      (w.step (env, .drain)).Kept pid rec ps' := by
  have hwrites : w.writes (env, .drain) = [] := rfl
  have hrows : (w.step (env, .drain)).engine.store.Rowed pid fun k => k ∈ ps.completedBlocks :=
    rowed_step h.rows (by rw [hwrites]; simp)
  have hstep : w.step (env, .drain) = { w with
      engine := { w.engine with sched := w.engine.sched.drain.1 }
      sweep := w.engine.sched.drain.2
      handedOut := w.handedOut ++ w.engine.sched.drain.2 } := by
    unfold step
    dsimp only
    rw [hs]
  rw [hstep] at hrows ⊢
  let ps' := if pid ∈ w.engine.sched.pipelineOrder then MultiTenantScheduler.emptied ps else ps
  have hps' : w.engine.sched.drain.1.schedulers.lookup pid = some ps' := by
    rw [MultiTenantScheduler.drain_lookup, hps, Option.map_some]
  have hin : ∀ inv, inv.pipelineId = pid → (inv ∈ w.engine.sched.drain.2 ↔
      pid ∈ w.engine.sched.pipelineOrder ∧ inv ∈ ps.executableBlocks) := by
    intro inv hpid
    rw [MultiTenantScheduler.mem_drain]
    constructor
    · rintro ⟨k, hk, psk, hl, hmem⟩
      obtain rfl : k = pid := (own_queue hw k psk hl inv hmem).symm.trans hpid
      rw [hps] at hl
      cases hl
      exact ⟨hk, hmem⟩
    · exact fun ⟨hk, hmem⟩ => ⟨pid, hk, ps, hps, hmem⟩
  have hexec : ∀ inv, inv ∈ ps'.executableBlocks ↔
      pid ∉ w.engine.sched.pipelineOrder ∧ inv ∈ ps.executableBlocks := by
    intro inv
    unfold ps'
    by_cases hk : pid ∈ w.engine.sched.pipelineOrder <;> simp [hk, MultiTenantScheduler.emptied]
  refine ⟨ps', hps', h.move ?_ (fun inv => ?_) ?_ (fun _ _ => Iff.rfl) (fun _ hid => hid) hrows⟩
  · unfold ps'
    split <;> rfl
  · have hown := fun hmem => own_queue hw pid ps hps inv hmem
    change inv ∈ ps'.executableBlocks ∨ (inv ∈ w.handedOut ++ w.engine.sched.drain.2 ∧
      inv.pipelineId = pid ∧ (inv ∈ w.engine.sched.drain.2 ∨ inv.invocationID ∈ w.launched pid)) ↔
      inv ∈ ps.executableBlocks ∨ (inv ∈ w.handedOut ∧ inv.pipelineId = pid ∧
        (inv ∈ w.sweep ∨ inv.invocationID ∈ w.launched pid))
    rw [hexec, hs, List.mem_append]
    by_cases hpid : inv.pipelineId = pid
    · rw [hin inv hpid]
      simp only [hpid, true_and, List.not_mem_nil, false_or]
      tauto
    · have hno : inv ∉ ps.executableBlocks := fun hmem => hpid (hown hmem)
      simp [hpid, hno]
  · have hdrained := (MultiTenantScheduler.drain_queued w.engine.sched).filter
      fun inv => inv.pipelineId = pid
    rw [List.filter_append] at hdrained
    have hq := MultiTenantScheduler.queued_filter hps (own_queue hw)
    have hq' := MultiTenantScheduler.queued_filter hps'
      (MultiTenantScheduler.drain_own (own_queue hw))
    have hperm := ((hq'.symm.append_right _).trans
      (List.perm_append_comm.trans (hdrained.trans hq))).map BlockInvocation.invocationID
    rw [List.map_append] at hperm
    unfold tokens
    dsimp only
    rw [hs, List.filter_nil, List.map_nil, List.nil_append, ← List.append_assoc]
    exact hperm.append_right _

omit [UUIDPackage] [Encoding] in
theorem active_iff : w.active pid = true ↔
    ∃ rec, w.engine.store.pipelines.lookup pid = some rec ∧ rec.status = .running := by
  simp [active, MemStore.loadPipeline, Option.any_eq_true]

/-- The rows after a publish. -/
theorem rowed_publish (hw : w.Sound) (env : Env) (ok : Bool) (h : w.Kept pid rec ps) :
    (w.step (env, .publish ok)).engine.store.Rowed pid fun k => k ∈ ps.completedBlocks := by
  refine rowed_step h.rows fun row hrow hpid => ?_
  unfold writes at hrow
  cases ok with
  | false => cases hrow
  | true =>
    dsimp only at hrow
    cases hs : w.sweep with
    | nil =>
      rw [hs] at hrow
      cases hrow
    | cons inv rest =>
      rw [hs] at hrow
      dsimp only at hrow
      split at hrow
      · obtain rfl := List.mem_singleton.mp hrow
        have hin : inv ∈ w.sweep := by simp [hs]
        exact ⟨(out_text h.split (Or.inr ⟨hw.sweep inv hin, hpid, Or.inl hin⟩)).2, Or.inr rfl⟩
      · cases hrow

/-- A publish that succeeds. -/
theorem kept_published (hw : w.Sound) {env : Env}
    (hps : w.engine.sched.schedulers.lookup pid = some ps) {inv : BlockInvocation}
    {rest : List BlockInvocation} (hs : w.sweep = inv :: rest) (h : w.Kept pid rec ps) :
    (w.step (env, .publish true)).engine.sched.schedulers.lookup pid = some ps ∧
      (w.step (env, .publish true)).Kept pid rec ps := by
  have hrows := rowed_publish hw env true h
  have hin : inv ∈ w.sweep := by simp [hs]
  obtain ⟨psi, hpsi⟩ := GoMap.lookup_of_mem (hw.handed inv (hw.sweep inv hin))
  have hpub : (w.step (env, .publish true)).published = _ := publish_published hs hpsi
  have hid : psi.pipeline.id = inv.pipelineId := by
    obtain ⟨manifests, t, ht⟩ := hw.tracks _ psi hpsi
    exact ht.id
  have hstep : (w.step (env, .publish true)).engine.sched = w.engine.sched ∧
      (w.step (env, .publish true)).sweep = rest ∧
      (w.step (env, .publish true)).handedOut = w.handedOut ∧
      (w.step (env, .publish true)).applied = w.applied := by
    simp only [step, hs, Engine.dispatchOne, hpsi, if_true, and_self]
  obtain ⟨hsched, hsweep, hhanded, happ⟩ := hstep
  have hlaunched : (w.step (env, .publish true)).launched pid =
      w.launched pid ++ if inv.pipelineId = pid then [inv.invocationID] else [] := by
    rw [launched, jobsOf, hpub, List.filter_append, List.map_append]
    by_cases hpid : inv.pipelineId = pid <;>
      simp [launched, jobsOf, buildJobForInvocation, hid, hpid]
  refine ⟨hsched ▸ hps, h.move rfl (fun i => or_congr_right ?_) ?_ (fun _ _ => happ ▸ Iff.rfl) ?_
    hrows⟩
  · unfold Out
    rw [hhanded, hsweep, hlaunched, hs]
    constructor
    · rintro ⟨hi, hpid, hmem⟩
      refine ⟨hi, hpid, ?_⟩
      rcases hmem with hmem | hmem
      · exact Or.inl (by simp [hmem])
      · rcases List.mem_append.mp hmem with hmem | hmem
        · exact Or.inr hmem
        · split at hmem
          · rename_i hown
            refine Or.inl ?_
            rw [out_unique hw hps h.split ⟨hw.sweep inv hin, hown, Or.inl hin⟩ hi hpid
              (List.mem_singleton.mp hmem)]
            simp
          · cases hmem
    · rintro ⟨hi, hpid, hmem⟩
      refine ⟨hi, hpid, ?_⟩
      rcases hmem with hmem | hmem
      · rcases List.mem_cons.mp hmem with rfl | hmem
        · simp [hpid]
        · exact Or.inl hmem
      · exact Or.inr (by simp [hmem])
  · unfold tokens
    rw [hsweep, hlaunched, hs]
    refine List.Perm.append_left _ ?_
    by_cases hpid : inv.pipelineId = pid
    · simp only [hpid, if_true, decide_true, List.filter_cons_of_pos, List.map_cons,
        List.cons_append, ← List.append_assoc]
      exact List.perm_append_singleton _ _
    · simp [hpid]
  · intro id hmem
    rw [hlaunched]
    simp [hmem]

/-- A publish that fails with nothing of a running pipeline behind it. -/
theorem kept_failed (hw : w.Sound) {env : Env} (hg : w.RecoveryGuard (env, .publish false))
    (hact : w.active pid = true) (hps : w.engine.sched.schedulers.lookup pid = some ps)
    {inv : BlockInvocation} {rest : List BlockInvocation} (hs : w.sweep = inv :: rest)
    (h : w.Kept pid rec ps) :
    ∃ ps', (w.step (env, .publish false)).engine.sched.schedulers.lookup pid = some ps' ∧
      (w.step (env, .publish false)).Kept pid rec ps' := by
  have hrows := rowed_publish hw env false h
  have hin : inv ∈ w.sweep := by simp [hs]
  obtain ⟨psi, hpsi⟩ := GoMap.lookup_of_mem (hw.handed inv (hw.sweep inv hin))
  have hrest : ∀ i ∈ rest, i.pipelineId ≠ pid := by
    rintro i hi rfl
    have hoff := hg.resolve_left (by simp) i (by simp [hs, hi])
    rw [hoff] at hact
    cases hact
  have hempty : rest.filter (fun i => i.pipelineId = pid) = [] :=
    List.filter_eq_nil_iff.mpr fun i hi => by simpa using hrest i hi
  have hq := Engine.requeue_lookup inv w.engine.sched pid
  have hstep : (w.step (env, .publish false)).engine.sched = Engine.requeue inv w.engine.sched ∧
      (w.step (env, .publish false)).sweep = [] ∧
      (w.step (env, .publish false)).handedOut = w.handedOut ∧
      (w.step (env, .publish false)).published = w.published ∧
      (w.step (env, .publish false)).applied = w.applied := by
    simp only [step, hs, Engine.dispatchOne, hpsi, Bool.false_eq_true, if_false, and_self]
  obtain ⟨hsched, hsweep, hhanded, hpub, happ⟩ := hstep
  have hlaunched : (w.step (env, .publish false)).launched pid = w.launched pid := by
    rw [launched, launched, jobsOf, jobsOf, hpub]
  rw [hsched, hq]
  by_cases hpid : inv.pipelineId = pid
  · rw [if_pos hpid.symm, hps]
    refine ⟨_, rfl, h.move rfl (fun i => ?_) ?_ (fun _ _ => happ ▸ Iff.rfl)
      (fun _ hmem => hlaunched ▸ hmem) hrows⟩
    · unfold Out
      rw [hhanded, hsweep, hlaunched, hs]
      constructor
      · rintro (hi | ⟨hi, hi', hmem⟩)
        · rcases List.mem_cons.mp hi with rfl | hi
          · exact Or.inr ⟨hw.sweep _ hin, hpid, Or.inl (by simp)⟩
          · exact Or.inl hi
        · exact Or.inr ⟨hi, hi', Or.inr (hmem.resolve_left List.not_mem_nil)⟩
      · rintro (hi | ⟨hi, hi', hmem | hmem⟩)
        · exact Or.inl (by simp [hi])
        · rcases List.mem_cons.mp hmem with rfl | hmem
          · exact Or.inl (by simp)
          · exact absurd hi' (hrest i hmem)
        · exact Or.inr ⟨hi, hi', Or.inr hmem⟩
    · unfold tokens
      rw [hsweep, hlaunched, hs, List.filter_cons_of_pos (by simpa using hpid), hempty]
      exact List.perm_middle.symm
  · rw [if_neg fun hk => hpid hk.symm]
    refine ⟨ps, hps, h.move rfl (fun i => or_congr_right ?_) ?_ (fun _ _ => happ ▸ Iff.rfl)
      (fun _ hmem => hlaunched ▸ hmem) hrows⟩
    · unfold Out
      rw [hhanded, hsweep, hlaunched, hs]
      refine and_congr_right fun _ => and_congr_right fun hi' => or_congr_left ?_
      refine iff_of_false List.not_mem_nil fun hmem => ?_
      rcases List.mem_cons.mp hmem with rfl | hmem
      · exact hpid hi'
      · exact hrest i hmem hi'
    · unfold tokens
      rw [hsweep, hlaunched, hs, List.filter_cons_of_neg (by simpa using hpid), hempty,
        List.filter_nil]

omit [Encoding] in
/-- What has left the queue belongs to an invocation that is out. -/
theorem out_of_token (hw : w.Sound) {id : String}
    (h : id ∈ (w.sweep.filter fun inv => inv.pipelineId = pid).map BlockInvocation.invocationID ++
      w.launched pid) : ∃ inv, w.Out pid inv ∧ inv.invocationID = id := by
  rcases List.mem_append.mp h with h | h
  · obtain ⟨inv, hinv, rfl⟩ := List.mem_map.mp h
    obtain ⟨hin, hpid⟩ := List.mem_filter.mp hinv
    exact ⟨inv, ⟨hw.sweep inv hin, by simpa using hpid, Or.inl hin⟩, rfl⟩
  · obtain ⟨j, hj, hid⟩ := List.mem_map.mp h
    obtain ⟨hjp, hpid⟩ := List.mem_filter.mp hj
    obtain ⟨inv, hinv, hji, hjpid⟩ := hw.published j hjp
    rw [decide_eq_true_eq] at hpid
    refine ⟨inv, ⟨hinv, hjpid.symm.trans hpid, Or.inr ?_⟩, hji.symm.trans hid⟩
    rwa [← hji.symm.trans hid] at h

omit [Encoding] in
/-- What a completion promotes has not been out before. -/
theorem tokens_complete (hw : w.Sound) (hps : w.engine.sched.schedulers.lookup pid = some ps)
    (σ : MapOrder) {r : BlockInvocationResult} (hr : r.status = .complete)
    (hsplit : ps.Split ps.pipeline (w.Out pid)) (honce : (w.tokens pid ps).Nodup) :
    (w.tokens pid (ps.update σ r)).Nodup := by
  obtain ⟨manifests, t, ht⟩ := hw.tracks pid ps hps
  have hnew := hsplit.complete σ hr
  have htext : ∀ {s : SinglePipelineScheduler}, s.Split ps.pipeline (w.Out pid) →
      s.executableBlocks.map BlockInvocation.invocationID =
        (s.executableBlocks.map BlockInvocation.id).map string := by
    intro s hs
    rw [List.map_map]
    refine List.map_congr_left fun inv hinv => ?_
    obtain ⟨b, -, rfl, -⟩ := hs.released inv (Or.inl hinv)
    rfl
  obtain ⟨hexec, htail, hapart⟩ := List.nodup_append.mp honce
  rw [htext hsplit] at hexec
  refine List.nodup_append.mpr ⟨?_, htail, ?_⟩
  · rw [htext hnew]
    exact (hsplit.promoted_nodup σ ht.accepted hr (List.Nodup.of_map _ hexec)).map
      fun _ _ => string_injective
  · rintro id hid id' hid' rfl
    obtain ⟨inv, hinv, rfl⟩ := List.mem_map.mp hid
    rcases ((SinglePipelineScheduler.complete_spec σ hr).2.1 inv).mp hinv with hold | ⟨k, hk, -⟩
    · exact hapart _ (List.mem_map_of_mem hold) _ hid' rfl
    · obtain ⟨b, hb, -, rfl, hn⟩ := (hsplit.pending k inv).mp hk
      obtain ⟨inv', hout, heq⟩ := out_of_token hw hid'
      obtain ⟨c, hc, rfl, hready⟩ := hsplit.released inv' (Or.inr hout)
      have hcb : c = b := unique_of_nodup ht.accepted.nodup hc hb (string_injective heq)
      rw [hcb, hn] at hready
      cases hready

/-- The rows after a completion. -/
theorem rowed_complete (env : Env) {wr : WorkerResult} (ht : w.engine.takes wr = true)
    (hc : wr.status = .complete)
    (hid : wr.invocationID = string (workerResultToInvocationResult wr).id)
    (hopen : ∀ row ∈ w.engine.store.loadInvocation wr.invocationID,
      row.status ≠ .complete ∧ row.status ≠ .error)
    {done : UUID → Prop} (h : w.engine.store.Rowed wr.pipelineID done) :
    (w.step (env, .result wr)).engine.store.Rowed wr.pipelineID
      fun k => done k ∨ k = (workerResultToInvocationResult wr).id := by
  obtain ⟨-, ps, sched, -, hs, -⟩ := update_of_takes ht env.order
  have hwrites : w.writes (env, .result wr) = [Engine.resultRow env wr w.engine.store] := by
    unfold writes
    dsimp only
    rw [if_pos ht, hs]
    simp [collectPendingRowsLocked, hc]
  refine MemStore.Rowed.congr ?_ (step_rows w (env, .result wr))
  rw [hwrites]
  have hst : (Engine.resultRow env wr w.engine.store).status = .complete := by
    simp [Engine.resultRow, statusFromWorker, hc]
  exact h.complete hid rfl hst hopen

/-- A completion that the rows keep. -/
theorem kept_complete (hw : w.Sound) {env : Env} {wr : WorkerResult} (hd : w.Dispatched wr)
    (ht : w.engine.takes wr = true) (hps : w.engine.sched.schedulers.lookup wr.pipelineID = some ps)
    (hc : wr.status = .complete) (hp : w.Persists ps wr) (h : w.Kept wr.pipelineID rec ps) :
    (w.step (env, .result wr)).Kept wr.pipelineID rec
      (ps.update env.order (workerResultToInvocationResult wr)) := by
  obtain ⟨manifests, t, htr⟩ := hw.tracks _ ps hps
  obtain ⟨inv, hinv, hinvid, hid, -⟩ := result_origin hw hd htr
  obtain ⟨hhanded, hpid⟩ := (htr.handed inv).mp hinv
  obtain ⟨j, hj, hjid, hjpid⟩ := hd
  have hlaunched : wr.invocationID ∈ w.launched wr.pipelineID := by
    rw [← hjid]
    exact List.mem_map_of_mem (List.mem_filter.mpr ⟨hj, by simpa using hjpid⟩)
  have hout : w.Out wr.pipelineID inv := ⟨hhanded, hpid, Or.inr (hinvid ▸ hlaunched)⟩
  have htext : wr.invocationID = string (workerResultToInvocationResult wr).id := by
    rw [← hinvid, (out_text h.split (Or.inr hout)).2]
    exact congrArg string hid.symm
  have hr : (workerResultToInvocationResult wr).status = .complete := hc
  obtain ⟨hcomp, -, -⟩ := SinglePipelineScheduler.complete_spec (s := ps) env.order hr
  obtain ⟨⟨hpipe, -⟩, hcan, -⟩ :=
    SinglePipelineScheduler.update_static env.order ps (workerResultToInvocationResult wr)
  refine ⟨?_, ?_, tokens_complete hw hps env.order hr h.split h.once, fun k => ?_, fun k hk => ?_,
    fun k hk b hb hbk ref href => ?_, ?_, ?_⟩
  · rw [hcan, h.live]
    simp [hr]
  · rw [hpipe]
    exact h.split.complete env.order hr
  · rw [hcomp, h.reported, applied_result env ht]
    constructor
    · rintro (⟨wr', hwr', hpid', hid'⟩ | rfl)
      · exact ⟨wr', List.mem_append_left _ hwr', hpid', hid'⟩
      · exact ⟨wr, by simp, rfl, htext⟩
    · rintro ⟨wr', hwr', hpid', hid'⟩
      rcases List.mem_append.mp hwr' with hwr' | hwr'
      · exact Or.inl ⟨wr', hwr', hpid', hid'⟩
      · rw [List.mem_singleton.mp hwr', htext] at hid'
        exact Or.inr (string_injective hid').symm
  · rcases (hcomp k).mp hk with hk | rfl
    · exact h.launched k hk
    · exact htext ▸ hlaunched
  · rw [hpipe] at hb
    rw [hcomp]
    rcases (hcomp k).mp hk with hk | rfl
    · obtain ⟨hdone, hle⟩ := h.sorted k hk b hb hbk ref href
      exact ⟨Or.inl hdone, hle⟩
    · obtain ⟨c, hcb, hinveq, hready⟩ := h.split.released inv (Or.inr hout)
      have hbc : b = c := by
        refine unique_of_nodup htr.accepted.nodup hb hcb (hbk.trans (hid.trans ?_))
        rw [hinveq]
        rfl
      rw [hinveq, ← hbc] at hready
      have hdone := depsCompleted_iff.mp hready ref href
        (htr.accepted.known b hb ref href).1
      exact ⟨Or.inl hdone, hbk ▸ hp.2 b hb hbk ref href⟩
  · have hrows := rowed_complete env ht hc htext hp.1 h.rows
    rwa [← funext fun k => propext (hcomp k)] at hrows
  · rw [hpipe]
    exact h.body

/-- The scheduler of a new pipeline. -/
theorem kept_registered (hw : w.Durable) (ha : w.Admits a) (hg : w.RecoveryGuard a) {pp p : Pipeline}
    {body who text : String} (hop : a.2 = .submit pp body who)
    (hx : w.engine.registering a.1 pp body = some (p, text)) :
    (w.step a).engine.sched.schedulers.lookup p.id = some (registered p a.1.manifests) ∧
      (w.step a).Kept p.id (Engine.submittedRecord a.1 p text who) (registered p a.1.manifests) := by
  have hnext := owned_step hw.sound ha hw.owned
  obtain ⟨env, op⟩ := a
  cases hop
  obtain ⟨hp, -, hval, hnew⟩ := Engine.registering_spec hx
  have hacc := accepted_of_validate hval
  obtain ⟨g, hgraph, -⟩ := hacc.graph
  obtain ⟨hpipe, hcan, hcomp, -, -, hexec, -⟩ := registered_queues env.manifests hgraph
  have hl : (w.step (env, .submit pp body who)).engine.sched.schedulers.lookup p.id =
      some (registered p env.manifests) := by
    change (w.engine.submitPipeline env pp body who).1.sched.schedulers.lookup p.id = _
    rw [Engine.submit_eq, hx]
    exact ((Engine.register_spec env p text who w.engine hnew).1 p.id).trans (if_pos rfl)
  have hfresh : p.id ∉ w.engine.sched.schedulers := fun h => hnew (hw.sound.stored _ h)
  have hnone : ∀ inv, ¬(w.step (env, .submit pp body who)).Out p.id inv :=
    fun inv h => hfresh (h.2.1 ▸ hw.sound.handed inv h.1)
  have hlaunched : (w.step (env, .submit pp body who)).launched p.id = [] := by
    refine List.map_eq_nil_iff.mpr (List.filter_eq_nil_iff.mpr fun j hj hpid => hfresh ?_)
    obtain ⟨inv, hinv, -, hjpid⟩ := hw.sound.published j hj
    have hid : j.assignment.pipelineID = p.id := by simpa using hpid
    exact hid ▸ hjpid ▸ hw.sound.handed inv hinv
  have hsweep : (w.step (env, .submit pp body who)).sweep.filter
      (fun inv => inv.pipelineId = p.id) = [] := by
    refine List.filter_eq_nil_iff.mpr fun inv hinv hpid => hfresh ?_
    have hid : inv.pipelineId = p.id := by simpa using hpid
    exact hid ▸ hw.sound.handed inv (hw.sound.sweep inv hinv)
  have hempty : ∀ k, k ∉ (registered p env.manifests).completedBlocks := fun k => by
    rw [hcomp]
    exact AList.notMem_empty k
  refine ⟨hl, hcan, ?_, ?_, fun k => ?_, fun k hk => absurd hk (hempty k),
    fun k hk => absurd hk (hempty k), ?_, ?_⟩
  · rw [hpipe]
    exact (SinglePipelineScheduler.split_registered hacc).frame rfl rfl fun inv =>
      or_congr_right (iff_of_false (hnone inv) id)
  · unfold tokens
    rw [hlaunched, hsweep, List.map_nil, List.append_nil, List.append_nil, hexec, List.map_map]
    have hids : (p.blocks.filter fun b => b.inputs.isEmpty).map
        (BlockInvocation.invocationID ∘ fun b => b.invocation p.id none) =
        ((p.blocks.filter fun b => b.inputs.isEmpty).map PipelineBlock.id).map string := by
      rw [List.map_map]
      rfl
    rw [hids]
    exact (hacc.nodup.sublist (List.filter_sublist.map PipelineBlock.id)).map
      fun _ _ => string_injective
  · refine iff_of_false (hempty k) ?_
    rintro ⟨wr, hwr, hpid, -⟩
    exact hfresh (hpid ▸ hw.sound.applied wr hwr)
  · refine rowed_step ⟨fun key row hrow hpid => ?_, fun k hk => absurd hk (hempty k)⟩ ?_
    · obtain ⟨ps, hps, -⟩ := (hw.owned key row hrow).2
      exact absurd (GoMap.mem_of_lookup hps) (hpid ▸ hfresh)
    · intro row hrow _
      obtain ⟨_, _, -, b, -, rfl⟩ := mem_writes_submit hrow
      exact ⟨rfl, Or.inl rfl⟩
  · rw [hpipe]
    exact hg (p, text) hx

/-- A running pipeline that the step does not end stays recoverable. -/
theorem kept_step (hw : w.Durable) (ha : w.Admits a) (hg : w.RecoveryGuard a)
    (hrec : w.engine.store.pipelines.lookup pid = some rec) (hrun : rec.status = .running)
    (hnot : ∀ st, ¬w.Announces a pid st) :
    ∃ ps', (w.step a).engine.sched.schedulers.lookup pid = some ps' ∧
      (w.step a).Kept pid rec ps' := by
  obtain ⟨ps, hps, h⟩ := hw.kept pid rec hrec hrun
  have hact : w.active pid = true := active_iff.mpr ⟨rec, hrec, hrun⟩
  obtain ⟨ps', hps', hm⟩ := moves_of_lookup (a := a) hw.sound.stored hps
  obtain ⟨env, op⟩ := a
  cases op with
  | submit pp body who =>
    cases hm
    refine ⟨ps, hps', h.stay rfl rfl rfl (fun _ _ => Iff.rfl) (rowed_step h.rows ?_)⟩
    intro row hrow _
    obtain ⟨_, _, -, b, -, rfl⟩ := mem_writes_submit hrow
    exact ⟨rfl, Or.inl rfl⟩
  | cancel id =>
    cases hm with
    | cancel => exact absurd (.cancelled (GoMap.mem_of_lookup hrec)) (hnot .cancelled)
    | stay =>
      refine ⟨ps, hps', h.stay rfl rfl rfl (fun _ _ => Iff.rfl) (rowed_step h.rows ?_)⟩
      intro row hrow
      cases hrow
  | drain =>
    cases hs : w.sweep with
    | nil => exact kept_drain hw.sound hs hps h
    | cons inv rest =>
      have hstep : w.step (env, .drain) = w := by simp only [step, hs]
      rw [hstep]
      exact ⟨ps, hps, h⟩
  | publish ok =>
    cases hs : w.sweep with
    | nil =>
      have hstep : w.step (env, .publish ok) = w := by simp only [step, hs]
      rw [hstep]
      exact ⟨ps, hps, h⟩
    | cons inv rest =>
      cases ok with
      | true => exact ⟨ps, kept_published hw.sound hps hs h⟩
      | false => exact kept_failed hw.sound hg hact hps hs h
  | result wr =>
    cases ht : w.engine.takes wr with
    | false =>
      have hstep : w.step (env, .result wr) = w := by
        simp only [step, ht, Engine.dropped_spec env wr w.engine ht, Bool.false_eq_true, if_false]
      rw [hstep]
      exact ⟨ps, hps, h⟩
    | true =>
      by_cases hpid : wr.pipelineID = pid
      · subst hpid
        refine ⟨_, (((Engine.taken_spec env wr _ ht).1 _).trans (if_pos rfl)).trans
          (congrArg _ hps), ?_⟩
        rcases hg ht hact ps hps with herr | ⟨hc, hidle | hp⟩
        · exact absurd (.failed ht herr) (hnot .failed)
        · refine absurd ?_ (hnot .complete)
          refine (announces_complete_iff ht (by simp [hc]) hps).mpr ⟨h.live, hidle, ?_⟩
          simp [SinglePipelineScheduler.revives, workerResultToInvocationResult, hc]
        · exact kept_complete hw.sound ha ht hps hc hp h
      · have htouch : touches pid w (env, .result wr) = false := by simpa [touches] using hpid
        refine ⟨ps, ((Engine.taken_spec env wr _ ht).1 _).trans
          ((if_neg fun hk => hpid hk.symm).trans hps), h.stay rfl rfl rfl (fun wr' hwr' => ?_)
          (rowed_other hw.sound ha htouch h.rows)⟩
        rw [applied_result env ht, List.mem_append, List.mem_singleton]
        refine ⟨fun hmem => hmem.resolve_right ?_, Or.inl⟩
        rintro rfl
        exact hpid hwr'

end World
end Spade
