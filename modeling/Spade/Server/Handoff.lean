import Spade.Server.Custody
import Spade.Server.Faults
import Spade.Server.Samples

set_option autoImplicit false

/-!
# The hand-off to the engine

The call of `submit` is cut into the writes that it makes in the store of the scheduler.
A process that crashes is restarted with `Recover`.
-/
namespace Spade
open UUIDPackage
variable [UUIDPackage] [Encoding]

/-- The pipeline and its text that `buildSubmitFn` brings to `InsertPipeline`. -/
def Engine.prepare (env : Env) (run : QueuedRun) : Option (Pipeline × String) :=
  match Encoding.yamlUnmarshal run.yaml, parse run.id with
  | some pp, (runUUID, true) =>
    match submittedPipeline env { pp with id := runUUID } with
    | none => none
    | some p =>
      if validatePipeline env.order p env.manifests ≠ [] then none
      else (if run.yaml = "" then Encoding.yamlMarshal p else some run.yaml).map fun body => (p, body)
  | _, _ => none

/-- `buildSubmitFn` in two parts. -/
theorem Engine.buildSubmitFn_prepare (env : Env) (run : QueuedRun) (e : Engine) :
    (prepare env run = none → ∃ err, buildSubmitFn env run e = (e, some err)) ∧
      ∀ p body, prepare env run = some (p, body) →
        buildSubmitFn env run e = ((registerPipeline env p body run.ownerID e).1, none) := by
  unfold buildSubmitFn prepare
  cases Encoding.yamlUnmarshal run.yaml with
  | none => exact ⟨fun _ => ⟨_, rfl⟩, nofun⟩
  | some pp =>
    obtain ⟨id, ok⟩ := parse run.id
    cases ok with
    | false => exact ⟨fun _ => ⟨_, rfl⟩, nofun⟩
    | true =>
      dsimp only
      unfold submitPipeline
      cases submittedPipeline env { pp with id := id } with
      | none => exact ⟨fun _ => ⟨_, rfl⟩, nofun⟩
      | some p =>
        dsimp only
        by_cases hv : validatePipeline env.order p env.manifests = []
        · rw [if_neg (not_not.mpr hv), if_neg (not_not.mpr hv)]
          cases (if run.yaml = "" then Encoding.yamlMarshal p else some run.yaml) with
          | none => exact ⟨fun _ => ⟨_, rfl⟩, nofun⟩
          | some body =>
            refine ⟨nofun, fun p' body' heq => ?_⟩
            cases heq
            have herr : (registerPipeline env p body run.ownerID e).2 = none ∨
                (registerPipeline env p body run.ownerID e).2 = some .alreadyExists := by
              unfold registerPipeline
              dsimp only
              split
              · exact .inr rfl
              · exact .inl rfl
            dsimp only
            generalize registerPipeline env p body run.ownerID e = r at herr
            obtain ⟨e', err⟩ := r
            rcases herr with rfl | rfl <;> rfl
        · rw [if_pos hv, if_pos hv]
          exact ⟨fun _ => ⟨_, rfl⟩, nofun⟩

/-- `writing` is what a poller inside of `SubmitPipeline` has still to write. -/
structure Handoff where
  outbox : Outbox := {}
  store : MemStore := {}
  scheds : ℕ → MultiTenantScheduler := fun _ => {}
  writing : ℕ → Option (Pipeline × List StoreWrite) := fun _ => none

/-- The calls to the runs table other than the end of `submit`; the writes of the submission,
which may fail; a crash and the restart after it. -/
inductive HandoffOp where
  | outbox (op : OutboxOp)
  | insert (i : ℕ) (env : Env) (fails : Bool) (errMsg : String)
  | write (i : ℕ) (now : Time) (fails : Bool) (errMsg : String)
  | register (i : ℕ) (env : Env)
  | crash (i : ℕ) (env : Env)

namespace Handoff

/-- `submit` returns to the poller. -/
def returns (now : Time) (i : ℕ) (err : Option String) (h : Handoff) : Handoff := { h with
  outbox := h.outbox.step (now, .returns i err)
  writing := Function.update h.writing i none }

def step (h : Handoff) (a : Time × HandoffOp) : Handoff :=
  match a.2 with
  | .outbox (.returns _ _) | .outbox (.crash _) => h
  | .outbox op => { h with outbox := h.outbox.step (a.1, op) }
  | .insert i env fails errMsg =>
    match h.outbox.pollers i, h.writing i with
    | .submitting run _, none =>
      match Engine.prepare env run with
      | none => h.returns a.1 i (some errMsg)
      | some (p, body) =>
        if fails then h.returns a.1 i (some errMsg)
        else
          match h.store.insertPipeline env.now (Engine.submittedRecord env p body run.ownerID) with
          | none => h.returns a.1 i none
          | some store => { h with
              store := store
              writing := Function.update h.writing i (some (p, Engine.submitWrites p body)) }
    | _, _ => h
  | .write i now fails errMsg =>
    match h.writing i with
    | some (p, w :: ws) =>
      if fails then h.returns a.1 i (some errMsg)
      else { h with
        store := h.store.write now w
        writing := Function.update h.writing i (some (p, ws)) }
    | _ => h
  | .register i env =>
    match h.writing i with
    | some (p, []) => { h with
        scheds := Function.update h.scheds i
          (((h.scheds i).addPipeline p).setManifests p.id env.manifests) }.returns a.1 i none
    | _ => h
  | .crash i env =>
    let e := Engine.recover env { store := h.store }
    { outbox := h.outbox.step (a.1, .crash i)
      store := e.store
      scheds := Function.update h.scheds i e.sched
      writing := Function.update h.writing i none }

/-- The pipeline of a run is in the store. -/
def Present (h : Handoff) (id : String) : Prop :=
  ∃ pid, parse id = (pid, true) ∧ pid ∈ h.store.pipelines

/-- Every run is queued, failed, in the store, or in the hands of a poller. -/
def Lossless (h : Handoff) : Prop := h.outbox.Lossless h.Present

/-! What a step is to the runs table. -/

def calls (h : Handoff) : HandoffOp → Option OutboxOp
  | .outbox (.returns _ _) | .outbox (.crash _) => none
  | .outbox op => some op
  | .insert i env fails errMsg =>
    match h.outbox.pollers i, h.writing i with
    | .submitting run _, none =>
      match Engine.prepare env run with
      | none => some (.returns i (some errMsg))
      | some (p, _) =>
        if fails then some (.returns i (some errMsg))
        else if p.id ∈ h.store.pipelines then some (.returns i none) else none
    | _, _ => none
  | .write i _ fails errMsg =>
    match h.writing i with
    | some (_, _ :: _) => if fails then some (.returns i (some errMsg)) else none
    | _ => none
  | .register i _ =>
    match h.writing i with
    | some (_, []) => some (.returns i none)
    | _ => none
  | .crash i _ => some (.crash i)

omit [UUIDPackage] [Encoding] in
theorem mem_write (now : Time) (w : StoreWrite) (m : MemStore) (id : UUID) :
    id ∈ (m.write now w).pipelines ↔ id ∈ m.pipelines := by
  cases w with
  | upsert rec =>
    change id ∈ (m.upsertInvocation rec).pipelines ↔ _
    rw [MemStore.upsertInvocation_pipelines]
  | event evt => rfl
  | status pid status => exact MemStore.mem_updatePipelineStatus now pid status m id

omit [UUIDPackage] [Encoding] in
theorem insertPipeline_submitted (env : Env) (p : Pipeline) (body submitter : String)
    (m : MemStore) :
    m.insertPipeline env.now (Engine.submittedRecord env p body submitter) =
      if p.id ∈ m.pipelines then none
      else some { m with
        pipelines := m.pipelines.insert p.id (Engine.submittedRecord env p body submitter) } := by
  unfold MemStore.insertPipeline
  by_cases ht : env.now = 0 <;> simp [ht, Engine.submittedRecord]

variable {h : Handoff} {a : Time × HandoffOp}

/-- What a step can do. -/
inductive Moves (h : Handoff) (now : Time) : HandoffOp → Handoff → Prop
  | stay {op : HandoffOp} (hc : h.calls op = none) : Moves h now op h
  | outbox {op : OutboxOp} (hr : ∀ i err, op ≠ .returns i err) (hc : ∀ i, op ≠ .crash i) :
    Moves h now (.outbox op) { h with outbox := h.outbox.step (now, op) }
  | refused {op : HandoffOp} {i : ℕ} {errMsg : String}
    (hc : h.calls op = some (.returns i (some errMsg))) :
    Moves h now op (h.returns now i (some errMsg))
  | known {i : ℕ} {env : Env} {errMsg : String} {run : QueuedRun} {rest : List QueuedRun}
    {p : Pipeline} {body : String} (hi : h.outbox.pollers i = .submitting run rest)
    (hw : h.writing i = none) (hp : Engine.prepare env run = some (p, body))
    (hid : p.id ∈ h.store.pipelines) :
    Moves h now (.insert i env false errMsg) (h.returns now i none)
  | insert {i : ℕ} {env : Env} {errMsg : String} {run : QueuedRun} {rest : List QueuedRun}
    {p : Pipeline} {body : String} {row : PipelineRecord}
    (hi : h.outbox.pollers i = .submitting run rest) (hw : h.writing i = none)
    (hp : Engine.prepare env run = some (p, body)) (hid : p.id ∉ h.store.pipelines) :
    Moves h now (.insert i env false errMsg) { h with
      store := { h.store with pipelines := h.store.pipelines.insert p.id row }
      writing := Function.update h.writing i (some (p, Engine.submitWrites p body)) }
  | write {i : ℕ} {now' : Time} {errMsg : String} {p : Pipeline} {w : StoreWrite}
    {ws : List StoreWrite} (hw : h.writing i = some (p, w :: ws)) :
    Moves h now (.write i now' false errMsg) { h with
      store := h.store.write now' w
      writing := Function.update h.writing i (some (p, ws)) }
  | register {i : ℕ} {env : Env} {p : Pipeline} {scheds : ℕ → MultiTenantScheduler}
    (hw : h.writing i = some (p, [])) :
    Moves h now (.register i env) ({ h with scheds := scheds }.returns now i none)
  | crash {i : ℕ} {env : Env} {scheds : ℕ → MultiTenantScheduler} :
    Moves h now (.crash i env) { h with
      outbox := h.outbox.step (now, .crash i)
      scheds := scheds
      writing := Function.update h.writing i none }

theorem calls_insert {i : ℕ} {env : Env} {fails : Bool} {errMsg : String} {run : QueuedRun}
    {rest : List QueuedRun} (hi : h.outbox.pollers i = .submitting run rest)
    (hw : h.writing i = none) : h.calls (.insert i env fails errMsg) =
      match Engine.prepare env run with
      | none => some (.returns i (some errMsg))
      | some (p, _) =>
        if fails then some (.returns i (some errMsg))
        else if p.id ∈ h.store.pipelines then some (.returns i none) else none := by
  unfold calls
  dsimp only
  rw [hi, hw]

theorem calls_write {i : ℕ} {now : Time} {fails : Bool} {errMsg : String}
    {p : Pipeline} {w : StoreWrite} {ws : List StoreWrite} (hw : h.writing i = some (p, w :: ws)) :
    h.calls (.write i now fails errMsg) =
      if fails then some (.returns i (some errMsg)) else none := by
  unfold calls
  dsimp only
  rw [hw]

theorem calls_register {i : ℕ} {env : Env} {p : Pipeline} (hw : h.writing i = some (p, [])) :
    h.calls (.register i env) = some (.returns i none) := by
  unfold calls
  dsimp only
  rw [hw]

theorem step_moves (h : Handoff) (a : Time × HandoffOp) : h.Moves a.1 a.2 (h.step a) := by
  obtain ⟨now, op⟩ := a
  cases op with
  | outbox op =>
    cases op with
    | returns | crash => exact .stay rfl
    | _ => exact .outbox nofun nofun
  | crash i env => exact .crash
  | register i env =>
    rcases hw : h.writing i with _ | ⟨p, _ | ⟨w, ws⟩⟩
    · unfold step
      dsimp only
      rw [hw]
      exact .stay (by unfold calls; dsimp only; rw [hw])
    · unfold step
      dsimp only
      rw [hw]
      exact .register hw
    · unfold step
      dsimp only
      rw [hw]
      exact .stay (by unfold calls; dsimp only; rw [hw])
  | write i now' fails errMsg =>
    rcases hw : h.writing i with _ | ⟨p, _ | ⟨w, ws⟩⟩
    · unfold step
      dsimp only
      rw [hw]
      exact .stay (by unfold calls; dsimp only; rw [hw])
    · unfold step
      dsimp only
      rw [hw]
      exact .stay (by unfold calls; dsimp only; rw [hw])
    · have hcalls : h.calls (.write i now' fails errMsg) = _ := calls_write hw
      unfold step
      dsimp only
      rw [hw]
      dsimp only
      split_ifs with hf
      · exact .refused (by rw [hcalls, if_pos hf])
      · rw [Bool.not_eq_true] at hf
        subst hf
        exact .write hw
  | insert i env fails errMsg =>
    cases hi : h.outbox.pollers i with
    | submitting run rest =>
      cases hw : h.writing i with
      | some pw =>
        unfold step
        dsimp only
        rw [hi, hw]
        refine .stay ?_
        unfold calls
        dsimp only
        rw [hi, hw]
      | none =>
        have hcalls : h.calls (.insert i env fails errMsg) = _ := calls_insert hi hw
        unfold step
        dsimp only
        rw [hi, hw]
        dsimp only
        cases hp : Engine.prepare env run with
        | none =>
          rw [hp] at hcalls
          exact .refused hcalls
        | some pb =>
          obtain ⟨p, body⟩ := pb
          rw [hp] at hcalls
          dsimp only at hcalls ⊢
          split_ifs with hf
          · rw [if_pos hf] at hcalls
            exact .refused hcalls
          · rw [Bool.not_eq_true] at hf
            subst hf
            have hins := insertPipeline_submitted env p body run.ownerID h.store
            by_cases hid : p.id ∈ h.store.pipelines
            · rw [if_pos hid] at hins
              rw [hins]
              exact .known hi hw hp hid
            · rw [if_neg hid] at hins
              rw [hins]
              exact .insert hi hw hp hid
    | _ =>
      unfold step
      dsimp only
      rw [hi]
      refine .stay ?_
      unfold calls
      dsimp only
      rw [hi]

/-- A step is one of the runs table that keeps the store, or it only adds to the store. -/
theorem step_calls (h : Handoff) (a : Time × HandoffOp) :
    (∃ op, h.calls a.2 = some op ∧ (h.step a).outbox = h.outbox.step (a.1, op) ∧
      (h.step a).Present = h.Present) ∨
    h.calls a.2 = none ∧ (h.step a).outbox = h.outbox ∧
      ∀ id, h.Present id → (h.step a).Present id := by
  obtain ⟨now, op⟩ := a
  have hmoves := step_moves h (now, op)
  generalize h.step (now, op) = h' at hmoves ⊢
  cases hmoves with
  | stay hc => exact .inr ⟨hc, rfl, fun _ hid => hid⟩
  | @outbox op hr hc =>
    refine .inl ⟨op, ?_, rfl, rfl⟩
    cases op with
    | returns i err => exact absurd rfl (hr i err)
    | crash i => exact absurd rfl (hc i)
    | _ => rfl
  | refused hc => exact .inl ⟨_, hc, rfl, rfl⟩
  | @known i env errMsg run rest p body hi hw hp hid =>
    refine .inl ⟨.returns i none, ?_, rfl, rfl⟩
    rw [calls_insert hi hw, hp]
    exact if_pos hid
  | @insert i env errMsg run rest p body row hi hw hp hid =>
    refine .inr ⟨?_, rfl, fun id ⟨pid, hpid, hmem⟩ => ⟨pid, hpid, ?_⟩⟩
    · rw [calls_insert hi hw, hp]
      exact if_neg hid
    · exact (AList.mem_insert _).mpr (.inr hmem)
  | @write i now' errMsg p w ws hw =>
    refine .inr ⟨calls_write hw, rfl, fun id ⟨pid, hpid, hmem⟩ => ⟨pid, hpid, ?_⟩⟩
    exact (mem_write now' w h.store pid).mpr hmem
  | @register i env p scheds hw => exact .inl ⟨.returns i none, calls_register hw, rfl, rfl⟩
  | @crash i env scheds => exact .inl ⟨.crash i, rfl, rfl, rfl⟩

/-! Steps that nothing interrupts. -/

theorem run_writes (now : Time) (i : ℕ) (p : Pipeline) (ws : List StoreWrite)
    (hw : h.writing i = some (p, ws)) :
    Runs.run step h (ws.map fun _ => (now, .write i now false "")) = { h with
      store := ws.foldl (MemStore.write now) h.store
      writing := Function.update h.writing i (some (p, [])) } := by
  induction ws generalizing h with
  | nil =>
    rw [← hw, Function.update_eq_self]
    rfl
  | cons w ws ih =>
    have hstep : h.step (now, .write i now false "") = { h with
        store := h.store.write now w
        writing := Function.update h.writing i (some (p, ws)) } := by
      unfold step
      dsimp only
      rw [hw]
      rfl
    rw [List.map_cons, Runs.run_cons, hstep, ih (Function.update_self ..)]
    dsimp only
    rw [Function.update_idem]
    rfl

/-- The writes that a new submission makes are those of `buildSubmitFn`. -/
theorem submit_uninterrupted {i : ℕ} {env : Env} {run : QueuedRun} {rest : List QueuedRun}
    {p : Pipeline} {body : String} (hi : h.outbox.pollers i = .submitting run rest)
    (hw : h.writing i = none) (hp : Engine.prepare env run = some (p, body))
    (hid : p.id ∉ h.store.pipelines) :
    let e : Engine := { store := h.store, sched := h.scheds i }
    let h' := Runs.run step h ((env.now, .insert i env false "") ::
      (Engine.submitWrites p body).map (fun _ => (env.now, .write i env.now false "")) ++
        [(env.now, .register i env)])
    (e.buildSubmitFn env run).2 = none ∧ h'.store = (e.buildSubmitFn env run).1.store ∧
      h'.scheds i = (e.buildSubmitFn env run).1.sched ∧
        h'.outbox.pollers i = .sweeping rest := by
  intro e h'
  have hins := insertPipeline_submitted env p body run.ownerID h.store
  rw [if_neg hid] at hins
  have hfirst : h.step (env.now, .insert i env false "") = { h with
      store := { h.store with
        pipelines := h.store.pipelines.insert p.id
          (Engine.submittedRecord env p body run.ownerID) }
      writing := Function.update h.writing i (some (p, Engine.submitWrites p body)) } := by
    unfold step
    dsimp only
    rw [hi, hw]
    dsimp only
    rw [hp]
    dsimp only
    rw [if_neg Bool.false_ne_true, hins]
  have hsubmit : e.buildSubmitFn env run = ({ e with
      store := (Engine.submitWrites p body).foldl (MemStore.write env.now)
        { h.store with
          pipelines := h.store.pipelines.insert p.id
            (Engine.submittedRecord env p body run.ownerID) }
      sched := (e.sched.addPipeline p).setManifests p.id env.manifests }, none) := by
    rw [(Engine.buildSubmitFn_prepare env run e).2 p body hp, Engine.foldl_submitWrites]
    unfold Engine.submittedRecord at hins
    unfold Engine.registerPipeline
    dsimp only
    rw [hins]
    rfl
  have hrun : h' = Runs.run step h ((env.now, .insert i env false "") ::
      (Engine.submitWrites p body).map (fun _ => (env.now, .write i env.now false "")) ++
        [(env.now, .register i env)]) := rfl
  rw [List.cons_append, Runs.run_cons, Runs.run_append, hfirst,
    run_writes env.now i p _ (Function.update_self ..), Runs.run_cons, Runs.run_nil] at hrun
  unfold step at hrun
  dsimp only at hrun
  rw [Function.update_self] at hrun
  rw [hrun, hsubmit]
  refine ⟨rfl, rfl, Function.update_self .., ?_⟩
  change (h.outbox.step (env.now, .returns i none)).pollers i = _
  unfold Outbox.step
  dsimp only
  rw [hi]
  exact Function.update_self ..

/-! What is being written has been inserted. -/

theorem prepare_id {env : Env} {run : QueuedRun} {p : Pipeline} {body : String}
    (hp : Engine.prepare env run = some (p, body)) :
    ∃ pid, parse run.id = (pid, true) ∧ (pid ≠ UUID.nil → p.id = pid) := by
  unfold Engine.prepare at hp
  split at hp
  · rename_i pp pid hy hid
    refine ⟨pid, hid, fun hne => ?_⟩
    unfold Engine.submittedPipeline at hp
    rw [if_neg hne] at hp
    dsimp only at hp
    split at hp
    · cases hp
    · obtain ⟨_, -, hpb⟩ := Option.map_eq_some_iff.mp hp
      cases hpb
      rfl
  · cases hp

def Writing (h : Handoff) : Prop :=
  ∀ i p ws, h.writing i = some (p, ws) → p.id ∈ h.store.pipelines ∧
    ∃ run rest pid, h.outbox.pollers i = .submitting run rest ∧ parse run.id = (pid, true) ∧
      (pid ≠ UUID.nil → p.id = pid)

theorem Writing.step (hw : h.Writing) (a : Time × HandoffOp) : (h.step a).Writing := by
  obtain ⟨now, op⟩ := a
  have hmoves := step_moves h (now, op)
  generalize h.step (now, op) = h' at hmoves ⊢
  have hleave : ∀ {op : OutboxOp} {i j : ℕ} {p : Pipeline} {ws : List StoreWrite},
      (∀ k, k ≠ i → (∀ err, op ≠ .returns k err) ∧ op ≠ .crash k) →
      Function.update h.writing i none j = some (p, ws) → p.id ∈ h.store.pipelines ∧
        ∃ run rest pid, (h.outbox.step (now, op)).pollers j = .submitting run rest ∧
          parse run.id = (pid, true) ∧ (pid ≠ UUID.nil → p.id = pid) := by
    intro op i j p ws hop hj
    rw [Function.update_apply] at hj
    split_ifs at hj with hji
    obtain ⟨hmem, run, rest, pid, hpoll, hpid⟩ := hw j p ws hj
    exact ⟨hmem, run, rest, pid,
      Outbox.submitting_step hpoll (hop j hji).1 (hop j hji).2, hpid⟩
  have hreturns : ∀ {i : ℕ} {err : Option String} (k : ℕ), k ≠ i →
      (∀ err', OutboxOp.returns i err ≠ .returns k err') ∧ OutboxOp.returns i err ≠ .crash k := by
    refine fun k hk => ⟨fun err' heq => ?_, nofun⟩
    cases heq
    exact hk rfl
  cases hmoves with
  | stay => exact hw
  | outbox hr hc =>
    intro i p ws hi
    obtain ⟨hmem, run, rest, pid, hpoll, hpid⟩ := hw i p ws hi
    exact ⟨hmem, run, rest, pid, Outbox.submitting_step hpoll (hr i) (hc i), hpid⟩
  | refused | known | register => exact fun j p ws hj => hleave hreturns hj
  | @crash i env scheds =>
    have hcrash : ∀ k, k ≠ i → (∀ err, OutboxOp.crash i ≠ .returns k err) ∧
        OutboxOp.crash i ≠ .crash k := by
      refine fun k hk => ⟨fun _ => nofun, fun heq => ?_⟩
      cases heq
      exact hk rfl
    exact fun j p ws hj => hleave hcrash hj
  | @insert i env errMsg run rest p body row hi hw' hp hid =>
    intro j p' ws hj
    change p'.id ∈ h.store.pipelines.insert p.id row ∧ _
    change Function.update h.writing i _ j = _ at hj
    rw [Function.update_apply] at hj
    split_ifs at hj with hji
    · cases hj
      obtain ⟨pid, hpid⟩ := prepare_id hp
      exact ⟨(AList.mem_insert _).mpr (.inl rfl), run, rest, pid, hji ▸ hi, hpid⟩
    · obtain ⟨hmem, hrest⟩ := hw j p' ws hj
      exact ⟨(AList.mem_insert _).mpr (.inr hmem), hrest⟩
  | @write i now' errMsg p w ws hi =>
    intro j p' ws' hj
    change p'.id ∈ (h.store.write now' w).pipelines ∧ _
    rw [mem_write]
    change Function.update h.writing i _ j = _ at hj
    rw [Function.update_apply] at hj
    split_ifs at hj with hji
    · cases hj
      exact hji ▸ hw i p (w :: ws) hi
    · exact hw j p' ws' hj

/-- Where `submit` returns without an error. -/
theorem calls_accepts {op : HandoffOp} {i : ℕ} (hc : h.calls op = some (.returns i none)) :
    (∃ p, h.writing i = some (p, [])) ∨
    ∃ env run rest p body, h.outbox.pollers i = .submitting run rest ∧
      Engine.prepare env run = some (p, body) ∧ p.id ∈ h.store.pipelines := by
  unfold calls at hc
  split at hc
  · cases hc
  · cases hc
  · rename_i op hr _
    cases hc
    exact (hr i none rfl).elim
  · split at hc
    · rename_i run rest hi hw
      split at hc
      · cases hc
      · rename_i p body hp
        split_ifs at hc with hf hid
        · cases hc
        · cases hc
          exact .inr ⟨_, run, rest, p, body, hi, hp, hid⟩
    · cases hc
  · split at hc
    · split_ifs at hc
      cases hc
    · cases hc
  · split at hc
    · rename_i p hw
      cases hc
      exact .inl ⟨p, hw⟩
    · cases hc
  · cases hc

/-- Only a run with the nil id can be accepted and be missing. -/
theorem accepted_present (hw : h.Writing) {op : HandoffOp} {i : ℕ} {run : QueuedRun}
    {rest : List QueuedRun} (hc : h.calls op = some (.returns i none))
    (hi : h.outbox.pollers i = .submitting run rest) (hid : parse run.id ≠ (UUID.nil, true)) :
    h.Present run.id := by
  have hne : ∀ pid, parse run.id = (pid, true) → pid ≠ UUID.nil := by
    rintro pid hpid rfl
    exact hid hpid
  rcases calls_accepts hc with ⟨p, hwi⟩ | ⟨env, run', rest', p, body, hi', hp, hmem⟩
  · obtain ⟨hmem, run', rest', pid, hi', hpid, hp⟩ := hw i p [] hwi
    rw [hi] at hi'
    cases hi'
    exact ⟨pid, hpid, hp (hne pid hpid) ▸ hmem⟩
  · rw [hi] at hi'
    cases hi'
    obtain ⟨pid, hpid, hp⟩ := prepare_id hp
    exact ⟨pid, hpid, hp (hne pid hpid) ▸ hmem⟩

/-! When no run is lost. -/

/-- Runs are created as queued ones, and updated by the callback of their pipeline. -/
def Regular (h : Handoff) : HandoffOp → Prop
  | .outbox op => Outbox.Regular h.Present op
  | _ => True

/-- A process crashes, or fails to mark a run as failed, only if its run is in the store;
and no run with the nil id is accepted. -/
def Covered (h : Handoff) : HandoffOp → Prop
  | .crash i _ => ∀ run, (h.outbox.pollers i).held = some run → h.Present run.id
  | .outbox (.markFailedFails i) =>
    ∀ run errMsg rest, h.outbox.pollers i = .failing run errMsg rest → h.Present run.id
  | op => ∀ i run rest, h.calls op = some (.returns i none) →
    h.outbox.pollers i = .submitting run rest → parse run.id = (UUID.nil, true) → h.Present run.id

/-- The steps of a submission show in the runs table by its return. -/
theorem calls_eq_some {op : HandoffOp} {op' : OutboxOp} (hc : h.calls op = some op') :
    op = .outbox op' ∨ (∃ i env, op = .crash i env ∧ op' = .crash i) ∨
      ∃ i err, op' = .returns i err := by
  cases op with
  | outbox op => cases op <;> cases hc <;> exact .inl rfl
  | crash i env =>
    cases hc
    exact .inr (.inl ⟨i, env, rfl, rfl⟩)
  | insert i env fails errMsg =>
    refine .inr (.inr ?_)
    unfold calls at hc
    dsimp only at hc
    split at hc
    · split at hc
      · cases hc
        exact ⟨_, _, rfl⟩
      · split_ifs at hc <;> cases hc <;> exact ⟨_, _, rfl⟩
    · cases hc
  | write i now fails errMsg =>
    refine .inr (.inr ?_)
    unfold calls at hc
    dsimp only at hc
    split at hc
    · split_ifs at hc
      cases hc
      exact ⟨_, _, rfl⟩
    · cases hc
  | register i env =>
    refine .inr (.inr ?_)
    unfold calls at hc
    dsimp only at hc
    split at hc
    · cases hc
      exact ⟨_, _, rfl⟩
    · cases hc

theorem calls_regular (ha : h.Regular a.2) {op : OutboxOp} (hc : h.calls a.2 = some op) :
    Outbox.Regular h.Present op := by
  rcases calls_eq_some hc with hop | ⟨i, env, -, rfl⟩ | ⟨i, err, rfl⟩
  · rw [hop] at ha
    exact ha
  · trivial
  · trivial

theorem covered_iff (hw : h.Writing) (op : HandoffOp) :
    h.Covered op ↔ ∀ op', h.calls op = some op' → Outbox.HandsOver h.Present h.outbox op' := by
  have haccepts : (∀ i run rest, h.calls op = some (.returns i none) →
      h.outbox.pollers i = .submitting run rest → parse run.id = (UUID.nil, true) →
        h.Present run.id) ↔ ∀ i, h.calls op = some (.returns i none) →
      Outbox.HandsOver h.Present h.outbox (.returns i none) := by
    constructor
    · intro hall i hc run rest hi
      by_cases hid : parse run.id = (UUID.nil, true)
      · exact hall i run rest hc hi hid
      · exact accepted_present hw hc hi hid
    · exact fun hall i run rest hc hi _ => hall i hc run rest hi
  have hreturns : (∀ op', h.calls op = some op' → (∃ i err, op' = .returns i err) ∨
      Outbox.HandsOver h.Present h.outbox op') →
      ((∀ i, h.calls op = some (.returns i none) →
        Outbox.HandsOver h.Present h.outbox (.returns i none)) ↔
      ∀ op', h.calls op = some op' → Outbox.HandsOver h.Present h.outbox op') := by
    intro hop
    refine ⟨fun hall op' hc => ?_, fun hall i hc => hall _ hc⟩
    rcases hop op' hc with ⟨i, err, rfl⟩ | hover
    · cases err with
      | none => exact hall i hc
      | some errMsg => trivial
    · exact hover
  cases op with
  | crash i env =>
    refine ⟨fun hcov op' hc => ?_, fun hall => hall _ rfl⟩
    cases hc
    exact hcov
  | outbox op =>
    cases op with
    | markFailedFails i =>
      refine ⟨fun hcov op' hc => ?_, fun hall => hall _ rfl⟩
      cases hc
      exact hcov
    | returns i err => exact haccepts.trans (hreturns nofun)
    | crash i => exact haccepts.trans (hreturns nofun)
    | _ =>
      refine haccepts.trans (hreturns fun op' hc => .inr ?_)
      cases hc
      trivial
  | insert | write | register =>
    refine haccepts.trans (hreturns fun op' hc => .inl ?_)
    rcases calls_eq_some hc with hop | ⟨_, _, hop, -⟩ | hret
    · cases hop
    · cases hop
    · exact hret

theorem lossless_step_iff (hg : h.outbox.Guarded h.Present) (hw : h.Writing) (hl : h.Lossless)
    (ha : h.Regular a.2) : (h.step a).Lossless ↔ h.Covered a.2 := by
  rw [covered_iff hw]
  unfold Lossless
  rcases step_calls h a with ⟨op, hc, ho, hp⟩ | ⟨hc, ho, hp⟩
  · rw [ho, hp, Outbox.lossless_step_iff hg hl (calls_regular ha hc), hc]
    simp
  · rw [ho, hc]
    simp [hl.mono hp]

theorem guarded_step (hg : h.outbox.Guarded h.Present) (ha : h.Regular a.2) :
    (h.step a).outbox.Guarded (h.step a).Present := by
  rcases step_calls h a with ⟨op, hc, ho, hp⟩ | ⟨hc, ho, hp⟩
  · rw [ho, hp]
    exact hg.step (calls_regular ha hc)
  · rw [ho]
    exact hg.mono hp

/-- Nobody is at work yet. -/
def Idle (h : Handoff) : Prop := h.outbox.Idle ∧ ∀ i, h.writing i = none

/-- No run is lost, however the steps come, if and only if every step is covered. -/
theorem lossless_iff (hidle : h.Idle) (hl : h.Lossless) {l : List (Time × HandoffOp)}
    (hr : Runs.Along step (fun h a => h.Regular a.2) h l) :
    Runs.Always step Lossless h l ↔ Runs.Along step (fun h a => h.Covered a.2) h l := by
  have hguarded : h.outbox.Guarded h.Present := by
    intro i run hi
    rw [hidle.1.2 i] at hi
    cases hi
  have hwriting : h.Writing := by
    intro i p ws hi
    rw [hidle.2 i] at hi
    cases hi
  exact Runs.always_iff_along_of_invariant step
    (I := fun h : Handoff => h.outbox.Guarded h.Present ∧ h.Writing)
    (fun h a hi ha => ⟨guarded_step hi.1 ha, hi.2.step a⟩)
    (fun h a hi ha hl => lossless_step_iff hi.1 hi.2 hl ha) ⟨hguarded, hwriting⟩ hl hr

end Handoff
end Spade

namespace Spade.Handoff
open Samples Uuid

def queuedPair : RunRow :=
  { id := string (pipelineID 10), ownerId := "user", yaml := yamlText pair }

/-- The run up to the submission, and up to the row of its pipeline. -/
def claimOps : List (Time × HandoffOp) :=
  [(1, .outbox (.create queuedPair)), (2, .outbox (.fetch 0 .stored)), (2, .outbox (.claim 0))]

def submitOps : List (Time × HandoffOp) := claimOps ++ [(2, .outbox (.submit 0))]

def insertOps : List (Time × HandoffOp) := submitOps ++ [(2, .insert 0 env false "")]

theorem rescue_covered :
    Runs.Along step (fun h a => h.Covered a.2) {} (insertOps ++ [(3, .crash 0 env)]) := by
  refine (Runs.along_append step _ _ _ _).mpr
    ⟨(Runs.along_append step _ _ _ _).mpr ⟨⟨nofun, nofun, nofun, nofun, trivial⟩, ?_, trivial⟩,
      ?_, trivial⟩
  · intro i run rest hc
    have hnone : ((Runs.run step {} submitOps).calls (.insert 0 env false "")).isNone = true := by
      decide +kernel
    rw [Option.isNone_iff_eq_none.mp hnone] at hc
    cases hc
  · intro run hrun
    have hheld : ((Runs.run step {} insertOps).outbox.pollers 0).held.map QueuedRun.id =
        some queuedPair.id := by
      decide +kernel
    rw [hrun] at hheld
    rw [Option.some_inj.mp hheld]
    exact ⟨pipelineID 10, by decide +kernel, by decide +kernel⟩

/-- A crash after `InsertPipeline` loses nothing. -/
theorem lossless_rescued : Runs.Always step Lossless {} (insertOps ++ [(3, .crash 0 env)]) := by
  refine (lossless_iff ⟨⟨rfl, fun _ => rfl⟩, fun _ => rfl⟩ ?_ ?_).mpr rescue_covered
  · intro id row hrow
    cases hrow
  · exact ⟨rfl, trivial, trivial, trivial, trivial, trivial, trivial⟩

/-- A crash between the claim and the submission leaves a run that nobody has. -/
theorem lossless_fails : ∃ h, h = Runs.run step {} (claimOps ++ [(3, .crash 0 env)]) ∧
    (h.outbox.runs.lookup queuedPair.id).map RunRow.status = some .running ∧
    ¬h.Present queuedPair.id ∧ ∀ i, (h.outbox.pollers i).held = none := by
  refine ⟨_, rfl, by decide, ?_, fun i => ?_⟩
  · rintro ⟨pid, -, hmem⟩
    have hempty : (Runs.run step {} (claimOps ++ [(3, .crash 0 env)])).store.pipelines.items = [] := by
      decide
    rw [(GoMap.items_eq_nil _).mp hempty] at hmem
    cases hmem
  · by_cases hi : i = 0
    · subst hi
      rfl
    · have hother : ∀ op : OutboxOp, op.poller = none ∨ op.poller = some 0 → op.poller ≠ some i := by
        rintro op (hop | hop) heq <;> rw [hop] at heq <;> cases heq
        exact hi rfl
      change (((((({} : Outbox).step (1, .create queuedPair)).step (2, .fetch 0 .stored)).step
        (2, .claim 0)).step (3, .crash 0)).pollers i).held = none
      rw [Outbox.other_step (hother _ (.inr rfl)), Outbox.other_step (hother _ (.inr rfl)),
        Outbox.other_step (hother _ (.inr rfl)), Outbox.other_step (hother _ (.inl rfl))]
      rfl

end Spade.Handoff
