import Spade.Server.Handoff

set_option autoImplicit false

/-!
# Runs with ids of their own

While the ids of the runs are different UUIDs, each run reaches the engine once and as a
pipeline of its own.
-/
namespace Spade
open UUIDPackage

/-- The runs that a poller has before it. -/
def Poller.runs : Poller → List QueuedRun
  | .sweeping rest => rest
  | .claimed run rest => run :: rest
  | .submitting run rest => run :: rest
  | .failing run _ rest => run :: rest

namespace Outbox
variable {o : Outbox} {a : Time × OutboxOp} {id : String}

theorem mem_step (h : id ∈ o.runs) : id ∈ (o.step a).runs := by
  obtain ⟨now, op⟩ := a
  have hmoves := step_moves o (now, op)
  generalize o.step (now, op) = o' at hmoves ⊢
  cases hmoves with
  | create => exact (AList.mem_insert _).mpr (.inr h)
  | patch id' body =>
    change id ∈ o.runs.patch now id' body
    unfold RunsTable.patch RunsTable.updateStatus
    cases body.status with
    | none => exact h
    | some status => exact (RunsTable.mem_update _).mpr h
  | @claim i run rest hi hclaim =>
    change id ∈ (o.runs.markRunning now run.id).1
    rw [GoMap.mem_iff_lookup, RunsTable.markRunning_lookup]
    obtain ⟨row, hrow⟩ := GoMap.lookup_of_mem h
    split_ifs with hid
    · rw [← hid.1, hrow]
      exact ⟨_, rfl⟩
    · exact ⟨row, hrow⟩
  | markFailed => exact (RunsTable.mem_update _).mpr h
  | _ => exact h

/-- A row has been there, or it is created. -/
theorem lookup_step {row' : RunRow} (h : (o.step a).runs.lookup id = some row') :
    (∃ row, o.runs.lookup id = some row ∧ row'.id = row.id) ∨
      a.2 = .create row' ∧ row'.id = id ∧ id ∉ o.runs := by
  obtain ⟨now, op⟩ := a
  have hmoves := step_moves o (now, op)
  generalize o.step (now, op) = o' at hmoves h
  have hupdate : ∀ {id' : String} {f : RunRow → RunRow}, (∀ row, (f row).id = row.id) →
      (o.runs.update id' f).lookup id = some row' →
        ∃ row, o.runs.lookup id = some row ∧ row'.id = row.id := by
    intro id' f hf hrow
    rw [RunsTable.update_lookup] at hrow
    split_ifs at hrow with hid
    · obtain ⟨row, hrow', rfl⟩ := Option.map_eq_some_iff.mp hrow
      exact ⟨row, hid ▸ hrow', hf row⟩
    · exact ⟨row', hrow, rfl⟩
  cases hmoves with
  | @create input hid =>
    change (o.runs.insert input.id input).lookup id = some row' at h
    rw [GoMap.lookup_insert_if] at h
    split_ifs at h with heq
    · cases h
      exact .inr ⟨rfl, heq.symm, heq ▸ hid⟩
    · exact .inl ⟨row', h, rfl⟩
  | patch id' body =>
    change (o.runs.patch now id' body).lookup id = some row' at h
    unfold RunsTable.patch RunsTable.updateStatus at h
    cases hs : body.status with
    | none =>
      rw [hs] at h
      exact .inl ⟨row', h, rfl⟩
    | some status =>
      rw [hs] at h
      refine .inl (hupdate ?_ h)
      exact fun _ => rfl
  | @claim i run rest hi hclaim =>
    change (o.runs.markRunning now run.id).1.lookup id = some row' at h
    rw [RunsTable.markRunning_lookup] at h
    split_ifs at h with hid
    · obtain ⟨row, hrow, rfl⟩ := Option.map_eq_some_iff.mp h
      exact .inl ⟨row, hid.1 ▸ hrow, rfl⟩
    · exact .inl ⟨row', h, rfl⟩
  | @markFailed i run errMsg rest hi =>
    change (o.runs.update run.id _).lookup id = some row' at h
    refine .inl (hupdate ?_ h)
    exact fun _ => rfl
  | _ => exact .inl ⟨row', h, rfl⟩

/-- How a poller comes to be at a submission. -/
theorem submitting_after {j : ℕ} {run : QueuedRun} {rest : List QueuedRun}
    (h : (o.step a).pollers j = .submitting run rest) :
    (o.pollers j = .submitting run rest ∧ (∀ err, a.2 ≠ .returns j err) ∧ a.2 ≠ .crash j) ∨
      a.2 = .submit j ∧ o.pollers j = .claimed run rest := by
  by_cases hp : a.2.poller = some j
  · obtain ⟨now, op⟩ := a
    change op.poller = some j at hp
    have hset : ∀ {o' : Outbox} {p : Poller},
        (o'.setPoller j p).pollers j = .submitting run rest → p = .submitting run rest := by
      intro o' p hj
      rwa [setPoller_pollers, if_pos rfl] at hj
    unfold step at h
    cases op with
    | create | patch => cases hp
    | submit i =>
      cases hp
      dsimp only at h
      split at h
      · rename_i hi
        cases hset h
        exact .inr ⟨rfl, hi⟩
      · exact .inl ⟨h, nofun, nofun⟩
    | returns i err =>
      obtain rfl : i = j := Option.some_inj.mp hp
      cases hi : o.pollers i with
      | submitting run' rest' =>
        dsimp only at h
        rw [hi] at h
        cases err <;> cases hset h
      | _ =>
        dsimp only at h
        rw [hi] at h
        cases hi.symm.trans h
    | claim i =>
      cases hp
      dsimp only at h
      split at h
      · split at h <;> cases hset h
      · exact .inl ⟨h, nofun, nofun⟩
    | crash i =>
      cases hp
      cases hset h
    | _ =>
      cases hp
      dsimp only at h
      split at h
      · cases hset h
      · exact .inl ⟨h, nofun, nofun⟩
  · rw [other_step hp] at h
    refine .inl ⟨h, ?_, ?_⟩
    · rintro err heq
      rw [heq] at hp
      exact hp rfl
    · rintro heq
      rw [heq] at hp
      exact hp rfl

theorem submitted_mono (h : id ∈ o.submitted) : id ∈ (o.step a).submitted := by
  obtain ⟨now, op⟩ := a
  have hmoves := step_moves o (now, op)
  generalize o.step (now, op) = o' at hmoves ⊢
  cases hmoves with
  | submit => exact List.mem_append_left _ h
  | _ => exact h

theorem submit_submitted {j : ℕ} {run : QueuedRun} {rest : List QueuedRun} (ha : a.2 = .submit j)
    (hj : o.pollers j = .claimed run rest) : run.id ∈ (o.step a).submitted := by
  obtain ⟨now, op⟩ := a
  obtain rfl : op = .submit j := ha
  unfold step
  dsimp only
  rw [hj]
  exact List.mem_append_right _ (List.mem_singleton_self _)

/-- Rows stand under their ids, the runs before the pollers have rows, and those at which
pollers are have been submitted, each by one of them. -/
structure Placed (o : Outbox) : Prop where
  single : o.Single
  keyed : ∀ id row, o.runs.lookup id = some row → row.id = id
  listed : ∀ i, ∀ run ∈ (o.pollers i).runs, run.id ∈ o.runs
  entered : ∀ i run rest, o.pollers i = .submitting run rest → run.id ∈ o.submitted
  alone : ∀ i j run rest run' rest', o.pollers i = .submitting run rest →
    o.pollers j = .submitting run' rest' → run.id = run'.id → i = j

theorem listed_step (hkeyed : ∀ id row, o.runs.lookup id = some row → row.id = id)
    (h : ∀ i, ∀ run ∈ (o.pollers i).runs, run.id ∈ o.runs) (j : ℕ) :
    ∀ run ∈ ((o.step a).pollers j).runs, run.id ∈ (o.step a).runs := by
  intro run hrun
  refine mem_step ?_
  obtain ⟨now, op⟩ := a
  have hmoves := step_moves o (now, op)
  generalize o.step (now, op) = o' at hmoves hrun
  have hset : ∀ {i : ℕ} {p : Poller} {o' : Outbox}, run ∈ ((o'.setPoller i p).pollers j).runs →
      o'.pollers = o.pollers → (∀ run ∈ p.runs, run.id ∈ o.runs) → run.id ∈ o.runs := by
    intro i p o' hmem ho' hp
    rw [setPoller_pollers, ho'] at hmem
    split_ifs at hmem
    · exact hp run hmem
    · exact h j run hmem
  have hsame : ∀ {i : ℕ} {p p' : Poller}, o.pollers i = p → p'.runs ⊆ p.runs →
      ∀ run ∈ p'.runs, run.id ∈ o.runs := by
    rintro i p p' rfl hsub run hmem
    exact h i run (hsub hmem)
  cases hmoves with
  | stay | create | patch => exact h j run hrun
  | fetch hi =>
    refine hset hrun rfl fun run' hmem => ?_
    obtain ⟨id, row, hrow, -, rfl⟩ := RunsTable.mem_fetchQueued hmem
    rw [hkeyed id row hrow]
    exact GoMap.mem_of_lookup hrow
  | claim hi | submit hi | refused hi => exact hset hrun rfl (hsame hi fun _ hm => hm)
  | skip hop hi => exact hset hrun rfl (hsame hi fun _ hm => List.mem_cons_of_mem _ hm)
  | accepted hi | markFailed hi | giveUp hi =>
    exact hset hrun rfl (hsame hi fun _ hm => List.mem_cons_of_mem _ hm)
  | crash => exact hset hrun rfl nofun

theorem Placed.step (h : o.Placed) (ha : a.2.QueuesNew) : (o.step a).Placed where
  single := h.single.step ha
  keyed id row' hrow := by
    rcases lookup_step hrow with ⟨row, hrow, heq⟩ | ⟨-, heq, -⟩
    · rw [heq, h.keyed id row hrow]
    · exact heq
  listed := listed_step h.keyed h.listed
  entered i run rest hi := by
    rcases submitting_after hi with ⟨hi, -⟩ | ⟨ha, hi⟩
    · exact submitted_mono (h.entered i run rest hi)
    · exact submit_submitted ha hi
  alone i j run rest run' rest' hi hj hid := by
    rcases submitting_after hi with ⟨hi, -⟩ | ⟨ha, hi⟩
    · rcases submitting_after hj with ⟨hj, -⟩ | ⟨-, hj⟩
      · exact h.alone i j run rest run' rest' hi hj hid
      · exact absurd (hid ▸ h.entered i run rest hi) (h.single.held j run' rest' hj).2
    · rcases submitting_after hj with ⟨hj, -⟩ | ⟨ha', -⟩
      · exact absurd (hid ▸ h.entered j run' rest' hj) (h.single.held i run rest hi).2
      · rw [ha] at ha'
        cases ha'
        rfl

end Outbox
variable [UUIDPackage]

/-- The UUID that a run has in the engine; `SubmitPipeline` does not keep the nil one. -/
def runUUID (id : String) : Option UUID :=
  match parse id with
  | (u, true) => if u = UUID.nil then none else some u
  | (_, false) => none

/-- A UUID that no run has. -/
def OwnID (runs : RunsTable) (id : String) : Prop :=
  ∃ u, runUUID id = some u ∧ ∀ id' ∈ runs, runUUID id' ≠ some u

theorem runUUID_eq_some {id : String} {u : UUID} :
    runUUID id = some u ↔ parse id = (u, true) ∧ u ≠ UUID.nil := by
  unfold runUUID
  obtain ⟨u', ok⟩ := parse id
  cases ok with
  | false => simp
  | true =>
    dsimp only
    split_ifs with hnil
    · constructor
      · nofun
      · rintro ⟨heq, hne⟩
        cases heq
        exact absurd hnil hne
    · constructor
      · intro heq
        cases heq
        exact ⟨rfl, hnil⟩
      · rintro ⟨heq, -⟩
        cases heq
        rfl

namespace Handoff
variable [Encoding] {h : Handoff} {a : Time × HandoffOp}

/-- Runs have UUIDs of their own, and the store those of runs that have been submitted. -/
structure Separate (h : Handoff) : Prop where
  placed : h.outbox.Placed
  own : ∀ id ∈ h.outbox.runs, ∃ u, runUUID id = some u
  apart : ∀ id ∈ h.outbox.runs, ∀ id' ∈ h.outbox.runs, runUUID id = runUUID id' → id = id'
  stored : ∀ u ∈ h.store.pipelines, ∃ id ∈ h.outbox.submitted, runUUID id = some u
  pending : ∀ i run rest, h.outbox.pollers i = .submitting run rest → h.writing i = none →
    ∀ u, runUUID run.id = some u → u ∉ h.store.pipelines

/-- New runs are queued under ids of their own, and no update queues a run again. -/
def Supplied (h : Handoff) : HandoffOp → Prop
  | .outbox op => op.QueuesNew ∧ ∀ input, op = .create input → OwnID h.outbox.runs input.id
  | _ => True

omit [Encoding] in
theorem Separate.held (hs : h.Separate) {i : ℕ} {run : QueuedRun}
    (hrun : run ∈ (h.outbox.pollers i).runs) : run.id ∈ h.outbox.runs :=
  hs.placed.listed i run hrun

/-- What the engine gets is new to it, and is the run under its own id. -/
theorem Separate.insert_new (hs : h.Separate) {i : ℕ} {env : Env} {run : QueuedRun}
    {rest : List QueuedRun} {p : Pipeline} {body : String}
    (hi : h.outbox.pollers i = .submitting run rest) (hw : h.writing i = none)
    (hp : Engine.prepare env run = some (p, body)) :
    runUUID run.id = some p.id ∧ p.id ∉ h.store.pipelines := by
  have hmem : run.id ∈ h.outbox.runs := hs.held (i := i) (by rw [hi]; exact List.mem_cons_self)
  obtain ⟨u, hu⟩ := hs.own run.id hmem
  obtain ⟨hparse, hnil⟩ := runUUID_eq_some.mp hu
  obtain ⟨pid, hpid, hid⟩ := prepare_id hp
  obtain rfl : u = pid := (Prod.mk.inj (hparse.symm.trans hpid)).1
  rw [hid hnil]
  exact ⟨hu, hs.pending i run rest hi hw u hu⟩

omit [Encoding] in
theorem Separate.claimed_new (hs : h.Separate) {i : ℕ} {run : QueuedRun} {rest : List QueuedRun}
    (hi : h.outbox.pollers i = .claimed run rest) {u : UUID} (hu : runUUID run.id = some u) :
    u ∉ h.store.pipelines := by
  intro hmem
  obtain ⟨id, hid, hidu⟩ := hs.stored u hmem
  obtain ⟨row, hrow, -⟩ := hs.placed.single.left id hid
  have hrun : run.id ∈ h.outbox.runs := hs.held (i := i) (by rw [hi]; exact List.mem_cons_self)
  obtain rfl : id = run.id := hs.apart id (GoMap.mem_of_lookup hrow) run.id hrun (hidu.trans hu.symm)
  exact (hs.placed.single.held i run rest hi).2 hid

theorem calls_queuesNew (ha : h.Supplied a.2) {op : OutboxOp} (hc : h.calls a.2 = some op) :
    op.QueuesNew := by
  rcases calls_eq_some hc with hop | ⟨i, env, -, rfl⟩ | ⟨i, err, rfl⟩
  · rw [hop] at ha
    exact ha.1
  · trivial
  · trivial

theorem placed_step (hs : h.Separate) (ha : h.Supplied a.2) : (h.step a).outbox.Placed := by
  rcases step_calls h a with ⟨op, hc, ho, -⟩ | ⟨-, ho, -⟩
  · rw [ho]
    exact hs.placed.step (calls_queuesNew ha hc)
  · rw [ho]
    exact hs.placed

/-- A run has been there, or it is created. -/
theorem mem_runs_step {id : String} (hid : id ∈ (h.step a).outbox.runs) :
    id ∈ h.outbox.runs ∨ ∃ input, a.2 = .outbox (.create input) ∧ input.id = id := by
  rcases step_calls h a with ⟨op, hc, ho, -⟩ | ⟨-, ho, -⟩
  · rw [ho] at hid
    obtain ⟨row', hrow⟩ := GoMap.lookup_of_mem hid
    rcases Outbox.lookup_step hrow with ⟨row, hrow, -⟩ | ⟨hop, rfl, -⟩
    · exact .inl (GoMap.mem_of_lookup hrow)
    · obtain rfl : op = .create row' := hop
      rcases calls_eq_some hc with hop | ⟨i, env, -, hop⟩ | ⟨i, err, hop⟩
      · exact .inr ⟨row', hop, rfl⟩
      · cases hop
      · cases hop
  · rw [ho] at hid
    exact .inl hid

omit [Encoding] in
theorem own_created (ha : h.Supplied a.2) {input : RunRow} (hop : a.2 = .outbox (.create input)) :
    OwnID h.outbox.runs input.id := by
  rw [hop] at ha
  exact ha.2 input rfl

theorem apart_step (hs : h.Separate) (ha : h.Supplied a.2) :
    ∀ id ∈ (h.step a).outbox.runs, ∀ id' ∈ (h.step a).outbox.runs,
      runUUID id = runUUID id' → id = id' := by
  intro id hid id' hid' heq
  rcases mem_runs_step hid with hold | ⟨input, hop, rfl⟩
  · rcases mem_runs_step hid' with hold' | ⟨input, hop, rfl⟩
    · exact hs.apart id hold id' hold' heq
    · obtain ⟨u, hu, hnew⟩ := own_created ha hop
      exact absurd (heq.trans hu) (hnew id hold)
  · rcases mem_runs_step hid' with hold' | ⟨input', hop', rfl⟩
    · obtain ⟨u, hu, hnew⟩ := own_created ha hop
      exact absurd (heq.symm.trans hu) (hnew id' hold')
    · rw [hop] at hop'
      cases hop'
      rfl

theorem stored_step (hs : h.Separate) : ∀ u ∈ (h.step a).store.pipelines,
    ∃ id ∈ (h.step a).outbox.submitted, runUUID id = some u := by
  obtain ⟨now, op⟩ := a
  have hmoves := step_moves h (now, op)
  generalize h.step (now, op) = h' at hmoves ⊢
  have hgrow : ∀ {a : Time × OutboxOp} {u : UUID}, u ∈ h.store.pipelines →
      ∃ id ∈ (h.outbox.step a).submitted, runUUID id = some u := by
    intro a u hu
    obtain ⟨id, hid, hidu⟩ := hs.stored u hu
    exact ⟨id, Outbox.submitted_mono hid, hidu⟩
  intro u hu
  cases hmoves with
  | stay => exact hs.stored u hu
  | outbox | refused | known | register | crash => exact hgrow hu
  | @insert i env errMsg run rest p body row hi hw hp hid =>
    rcases (AList.mem_insert _).mp hu with rfl | hu
    · exact ⟨run.id, hs.placed.entered i run rest hi, (hs.insert_new hi hw hp).1⟩
    · exact hs.stored u hu
  | @write i now' errMsg p w ws hw => exact hs.stored u ((mem_write now' w h.store u).mp hu)

theorem pending_step (hs : h.Separate) : ∀ i run rest,
    (h.step a).outbox.pollers i = .submitting run rest → (h.step a).writing i = none →
      ∀ u, runUUID run.id = some u → u ∉ (h.step a).store.pipelines := by
  obtain ⟨now, op⟩ := a
  have hmoves := step_moves h (now, op)
  generalize h.step (now, op) = h' at hmoves ⊢
  intro i run rest hi hw u hu
  have hleave : ∀ {op : OutboxOp} {j : ℕ}, (∃ err, op = .returns j err) ∨ op = .crash j →
      (h.outbox.step (now, op)).pollers i = .submitting run rest →
        Function.update h.writing j none i = none → u ∉ h.store.pipelines := by
    intro op j hend hi hw
    rcases Outbox.submitting_after hi with ⟨hi, hr, hc⟩ | ⟨hop, -⟩
    · rw [Function.update_apply, if_neg] at hw
      · exact hs.pending i run rest hi hw u hu
      · rintro rfl
        rcases hend with ⟨err, hop⟩ | hop
        · exact hr err hop
        · exact hc hop
    · obtain rfl : op = .submit i := hop
      rcases hend with ⟨err, hop⟩ | hop <;> cases hop
  have hother : ∀ {j : ℕ} {x : Pipeline × List StoreWrite},
      Function.update h.writing j (some x) i = none → i ≠ j ∧ h.writing i = none := by
    intro j x hw
    rw [Function.update_apply] at hw
    split_ifs at hw with hij
    exact ⟨hij, hw⟩
  cases hmoves with
  | stay => exact hs.pending i run rest hi hw u hu
  | outbox =>
    rcases Outbox.submitting_after hi with ⟨hi, -⟩ | ⟨-, hi⟩
    · exact hs.pending i run rest hi hw u hu
    · exact hs.claimed_new hi hu
  | refused | known | register => exact hleave (.inl ⟨_, rfl⟩) hi hw
  | crash => exact hleave (.inr rfl) hi hw
  | @insert j env errMsg run' rest' p body row hj hwj hp hid =>
    obtain ⟨hij, hwi⟩ := hother hw
    intro hmem
    rcases (AList.mem_insert _).mp hmem with rfl | hmem
    · have hrun : run.id ∈ h.outbox.runs :=
        hs.held (i := i) (by rw [show h.outbox.pollers i = _ from hi]; exact List.mem_cons_self)
      have hrun' : run'.id ∈ h.outbox.runs :=
        hs.held (i := j) (by rw [hj]; exact List.mem_cons_self)
      have hid' := hs.apart run.id hrun run'.id hrun' (hu.trans (hs.insert_new hj hwj hp).1.symm)
      exact hij (hs.placed.alone i j run rest run' rest' hi hj hid')
    · exact hs.pending i run rest hi hwi u hu hmem
  | @write j now' errMsg p w ws hwj =>
    obtain ⟨-, hwi⟩ := hother hw
    exact fun hmem =>
      hs.pending i run rest hi hwi u hu ((mem_write now' w h.store u).mp hmem)

theorem Separate.step (hs : h.Separate) (ha : h.Supplied a.2) : (h.step a).Separate where
  placed := placed_step hs ha
  own id hid := by
    rcases mem_runs_step hid with hold | ⟨input, hop, rfl⟩
    · exact hs.own id hold
    · obtain ⟨u, hu, -⟩ := own_created ha hop
      exact ⟨u, hu⟩
  apart := apart_step hs ha
  stored := stored_step hs
  pending := pending_step hs

end Handoff
end Spade
