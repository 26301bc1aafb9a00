import Spade.Server.Revival

set_option autoImplicit false

/-! # Restarts after a crash while a result is stored -/
namespace Spade
open UUIDPackage
variable [UUIDPackage] [Encoding]

namespace World
variable {w : World} {env : Env} {wr : WorkerResult} {k : ℕ} {pid : UUID} {rec : PipelineRecord}
  {ps : SinglePipelineScheduler}

omit [UUIDPackage] in
theorem Alive.read (h : w.Alive pid rec ps) (hid : rec.id = pid) :
    ∃ p, Engine.recoveredPipeline rec = some p ∧ p.blocks = ps.pipeline.blocks ∧ p.id = rec.id := by
  obtain ⟨p, hp, hb, hpid⟩ := h.body
  unfold Engine.recoveredPipeline
  rw [hp, Option.map_some]
  by_cases hnil : p.id = UUID.nil
  · rw [if_pos hnil]
    exact ⟨_, rfl, hb, rfl⟩
  · rw [if_neg hnil]
    exact ⟨p, rfl, hb, (hpid.resolve_left hnil).trans hid.symm⟩

/-- The running pipeline resumes from any rows that keep it clean and unfinished. -/
theorem Alive.resumes (hw : w.Sound) (hps : w.engine.sched.schedulers.lookup pid = some ps)
    (h : w.Alive pid rec ps) (hid : rec.id = pid) {m : MemStore}
    (hclean : ∀ k, ¬m.Finishes pid k .error)
    (hopen : ∃ b ∈ ps.pipeline.blocks, ¬m.Finishes pid b.id .complete) :
    ∃ p, Engine.Resumes m rec p := by
  obtain ⟨p, hp, hb, hpid⟩ := h.read hid
  obtain ⟨manifests, t, ht⟩ := hw.tracks pid ps hps
  refine ⟨p, hp, hpid, ⟨manifests, ht.accepted.congr hb⟩, ?_, ?_, ?_⟩
  · obtain ⟨rank, hrank⟩ := h.ranked
    refine ⟨rank, ?_⟩
    rw [hb]
    exact hrank
  · rw [hid]
    exact hclean
  · rw [hid, hb]
    exact hopen

/-- The writes of a result that ends its pipeline. -/
theorem appliedWrites_ends (env : Env) (ht : w.engine.takes wr = true)
    (hps : w.engine.sched.schedulers.lookup wr.pipelineID = some ps) (hlive : ps.cancelled = false)
    (hidle : wr.status = .complete → ps.idle = true) (hst : wr.status = .error ∨ wr.status = .complete) :
    ∃ evt evt' st, Engine.appliedWrites env wr w.engine =
      [.upsert (Engine.resultRow env wr w.engine.store), .event evt, .status wr.pipelineID st,
        .event evt'] := by
  obtain ⟨ps', sched, hps', hl, hwrites⟩ := Engine.appliedWrites_taken env ht
  rw [hps] at hps'
  cases hps'
  have hnomap : wr.status ≠ .map := by rcases hst with hst | hst <;> simp [hst]
  have hrows : collectPendingRowsLocked env.order sched wr.pipelineID wr.status wr.expansion = [] := by
    unfold collectPendingRowsLocked
    rw [if_pos (.inl hnomap)]
  have hend : ∃ st eventType msg, Engine.ending wr (pipelineCompleteLocked sched wr.pipelineID) =
      some (st, eventType, msg) := by
    unfold Engine.ending
    by_cases herr : wr.status = .error
    · rw [if_pos herr]
      exact ⟨_, _, _, rfl⟩
    · have hc := hst.resolve_left herr
      have hcomplete : pipelineCompleteLocked sched wr.pipelineID = true := by
        have hidle' := SinglePipelineScheduler.idle_update env.order ps
          (r := workerResultToInvocationResult wr) herr
        have hrev : ps.revives (workerResultToInvocationResult wr) = false := by
          simp [SinglePipelineScheduler.revives, workerResultToInvocationResult, hc]
        rw [pipelineComplete_iff hl, hidle', hidle hc, hrev,
          (SinglePipelineScheduler.update_static _ _ _).2.1, hlive]
        have hstatus : (workerResultToInvocationResult wr).status ≠ .error := herr
        simp [hstatus]
      rw [if_neg herr, if_pos hcomplete]
      exact ⟨_, _, _, rfl⟩
  obtain ⟨st, eventType, msg, hend⟩ := hend
  rw [hwrites, hrows]
  unfold Engine.resultWrites
  rw [hend]
  exact ⟨_, _, st, rfl⟩

/-- Where the crash falls when the result ends its pipeline: before its row, after the status
of the pipeline, or while another invocation is with the workers. -/
theorem crash_cases (hk : w.CrashGuard wr k) (hg : w.RevivalGuard (env, .result wr))
    (ht : w.engine.takes wr = true) (hact : w.active wr.pipelineID = true)
    (hps : w.engine.sched.schedulers.lookup wr.pipelineID = some ps) (hlive : ps.cancelled = false)
    (hend : w.Ends ps wr) : k = 0 ∨
      (∃ st, .status wr.pipelineID st ∈ (Engine.appliedWrites env wr w.engine).take k) ∨
      ∃ key row, (Engine.crashed env wr k w.engine).invocations.lookup key = some row ∧
        row.pipelineID = wr.pipelineID ∧ row.status = .dispatched := by
  have hidle : wr.status = .complete → ps.idle = true := by
    intro hc
    apply hg ht hact ps hps hc
    exact (hend.resolve_left (by simp [hc])).2
  obtain ⟨evt, evt', st, hwrites⟩ := appliedWrites_ends env ht hps hlive hidle
    (hend.imp_right And.left)
  rcases hk ht hact ps hps hend with hk | hk | ⟨e, he, hne, hpid, hdisp⟩
  · exact .inl hk
  · right
    left
    refine ⟨st, ?_⟩
    obtain ⟨n, rfl⟩ := Nat.exists_eq_add_of_le hk
    rw [hwrites, Nat.add_comm]
    simp
  · right
    right
    refine ⟨e.1, e.2, ?_, hpid, hdisp⟩
    unfold Engine.crashed Writes.brokenOff
    rw [MemStore.lookup_foldl]
    · exact (GoMap.mem_items _ _ _).mp he
    · intro row hrow
      have hmem := List.mem_of_mem_take hrow
      rw [hwrites] at hmem
      simp only [List.mem_cons, StoreWrite.upsert.injEq, reduceCtorEq, List.not_mem_nil,
        or_false] at hmem
      rw [hmem]
      exact hne.symm

theorem noZombie_crashed (hw : w.Revivable) (hg : w.RevivalGuard (env, .result wr))
    (hk : w.CrashGuard wr k) (env' : Env) :
    Engine.NoZombie env' (Engine.crashed env wr k w.engine) := by
  have hback : ∀ pid rec, (Engine.crashed env wr k w.engine).pipelines.lookup pid = some rec →
      rec.status = .running → w.engine.store.pipelines.lookup pid = some rec ∧
        ∀ st, .status pid st ∉ (Engine.appliedWrites env wr w.engine).take k := by
    intro pid rec hrec hrun
    refine MemStore.running_foldl env.now (fun id st h => ?_) hrec hrun
    exact (Engine.mem_status_applied (List.mem_of_mem_take h)).2
  have hids := MemStore.ids_foldl env.now ((Engine.appliedWrites env wr w.engine).take k) hw.records
  have hread : ∀ pid rec, (Engine.crashed env wr k w.engine).pipelines.lookup pid = some rec →
      rec.status = .running → ∃ p, Engine.recoveredPipeline rec = some p ∧ p.id = rec.id := by
    intro pid rec hrec hrun
    have hold := (hback pid rec hrec hrun).1
    obtain ⟨ps, -, h⟩ := hw.alive pid rec hold hrun
    obtain ⟨p, hp, -, hpid⟩ := h.read (hw.records pid rec hold)
    exact ⟨p, hp, hpid⟩
  intro pid rec hrec hrun
  obtain ⟨hold, hnost⟩ := hback pid rec hrec hrun
  obtain ⟨ps, hps, h⟩ := hw.alive pid rec hold hrun
  have hid := hw.records pid rec hold
  have hact : w.active pid = true := active_iff.mpr ⟨rec, hold, hrun⟩
  by_cases hdisp : ∃ key row, (Engine.crashed env wr k w.engine).invocations.lookup key = some row ∧
      row.pipelineID = pid ∧ row.status = .dispatched
  · exact .inr hdisp
  left
  have hzero : w.engine.takes wr = true → wr.pipelineID = pid → w.Ends ps wr → k = 0 := by
    rintro ht rfl hend
    rcases crash_cases hk hg ht hact hps h.live hend with hk | ⟨st, hst⟩ | hrow
    · exact hk
    · exact absurd hst (hnost st)
    · exact absurd hrow hdisp
  have hsame : k = 0 → Engine.crashed env wr k w.engine = w.engine.store := by
    rintro rfl
    rfl
  obtain ⟨p, hres⟩ : ∃ p, Engine.Resumes (Engine.crashed env wr k w.engine) rec p := by
    refine h.resumes hw.sound hps hid (fun b hb => ?_) ?_
    · rcases finishes_crashed (.inr rfl) hb with hb' | ⟨ht, hpid, -, hs⟩
      · exact h.clean b hb'
      · rw [hsame (hzero ht hpid (.inl (statusFromWorker_error.mp hs)))] at hb
        exact h.clean b hb
    · obtain ⟨b, hb, hopen⟩ := h.unfinished
      by_cases hfin : (Engine.crashed env wr k w.engine).Finishes pid b.id .complete
      · obtain ⟨ht, hpid, -, hs⟩ := (finishes_crashed (.inl rfl) hfin).resolve_left hopen
        have hc := statusFromWorker_complete.mp hs
        by_cases hall : w.OthersComplete ps wr
        · rw [hsame (hzero ht hpid (.inr ⟨hc, hall⟩))] at hfin
          exact absurd hfin hopen
        · unfold OthersComplete at hall
          push Not at hall
          obtain ⟨b', hb', hne, hopen'⟩ := hall
          refine ⟨b', hb', fun hfin' => ?_⟩
          rw [hpid] at hopen'
          obtain ⟨-, -, hid', -⟩ := (finishes_crashed (.inl rfl) hfin').resolve_left hopen'
          exact hne hid'.symm
      · exact ⟨b, hb, hfin⟩
  exact Engine.recover_executable env' hids hread hrec hrun hres

/-- In a run that meets the guard, a restart after a crash while a result is stored leaves no
running pipeline without anything to run. -/
theorem no_zombie {ops : List (Env × Op)}
    (hrun : Runs.Along step (fun w a => w.Admits a ∧ w.RevivalGuard a) {} ops) :
    Runs.Along step (fun w a => ∀ wr, a.2 = .result wr → ∀ k, w.CrashGuard wr k → ∀ env',
      Engine.NoZombie env' (Engine.crashed a.1 wr k w.engine)) {} ops := by
  refine Runs.along_of_invariant step (P := Revivable)
    (fun w a hw h => revivable_step hw h.1 h.2) ?_ revivable_start hrun
  rintro w ⟨env, op⟩ hw ⟨-, hg⟩ wr hop k hk env'
  cases hop
  exact noZombie_crashed hw hg hk env'

end World
end Spade

namespace Spade.World
open Samples Uuid

theorem no_zombie_chain : Runs.Along step (fun w a => ∀ wr, a.2 = .result wr →
    ∀ k, w.CrashGuard wr k → ∀ env', Engine.NoZombie env' (Engine.crashed a.1 wr k w.engine)) {}
      chainRun := by
  have hfirst : ∀ ps ∈ (run {} [submit chain, drain, publish]).engine.sched.schedulers.lookup
      chain.id, (run {} [submit chain, drain, publish]).OthersComplete ps
        (result chain (string (blockID 1)) .complete) → ps.idle = true := by decide
  have hlast : ∀ ps ∈ (run {} [submit chain, drain, publish, complete chain 1, drain,
      publish]).engine.sched.schedulers.lookup chain.id,
      (run {} [submit chain, drain, publish, complete chain 1, drain, publish]).OthersComplete ps
        (result chain (string (blockID 2)) .complete) → ps.idle = true := by decide
  refine no_zombie ⟨⟨trivial, ?_⟩, ⟨trivial, trivial⟩, ⟨trivial, trivial⟩,
    ⟨by decide, fun _ _ ps hps _ => hfirst ps hps⟩, ⟨trivial, trivial⟩,
    ⟨trivial, trivial⟩, ⟨by decide, fun _ _ ps hps _ => hlast ps hps⟩, trivial⟩
  intro x hx
  cases Engine.registering_chain hx
  exact ⟨by simp [chain, pipeline], Engine.unmarshal_chain⟩

/-- The last block of the chain has its row, and the pipeline is still running. -/
def crashedChain : MemStore :=
  Engine.crashed env (result chain (string (blockID 2)) .complete) 1
    (run {} (submit chain :: sweepOne ++ complete chain 1 :: sweepOne)).engine

theorem zombie_chain : ¬Engine.NoZombie env crashedChain := by
  have hbad : ∃ r ∈ crashedChain.pipelines.items, r.2.status = .running ∧
      (∀ e ∈ (Engine.recover env { store := crashedChain }).sched.schedulers.items,
        e.1 = r.1 → e.2.executableBlocks.isEmpty = true) ∧
      ∀ e ∈ crashedChain.invocations.items, e.2.status ≠ .dispatched := by decide +kernel
  generalize crashedChain = m at hbad
  intro h
  obtain ⟨r, hr, hrunning, hempty, hnone⟩ := hbad
  rcases h r.1 r.2 ((GoMap.mem_items _ _ _).mp hr) hrunning with
    ⟨ps, hps, hne⟩ | ⟨key, row, hl, -, hdisp⟩
  · have hnil := hempty (r.1, ps) ((GoMap.mem_items _ _ _).mpr hps) rfl
    exact hne (List.isEmpty_iff.mp hnil)
  · exact hnone (key, row) ((GoMap.mem_items _ _ _).mpr hl) hdisp

theorem no_zombie_fails : ¬∀ ops : List (Env × Op), Runs.Along step Admits {} ops →
    Runs.Along step (fun w a => ∀ wr, a.2 = .result wr → ∀ k env',
      Engine.NoZombie env' (Engine.crashed a.1 wr k w.engine)) {} ops := by
  intro h
  have hrun := h (submit chain :: sweepOne ++ complete chain 1 :: sweepOne ++ [complete chain 2])
    (by decide)
  rw [Runs.along_append] at hrun
  exact zombie_chain (hrun.2.1 _ rfl 1 env)

end Spade.World
