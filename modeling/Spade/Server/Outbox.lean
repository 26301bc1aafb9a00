import Spade.Lib.Runs
import Spade.Server.RunsTable

set_option autoImplicit false

/-!
# The outbox

Any number of pollers work on one runs table. `poll` is cut into its calls, so that the
steps of the pollers, of the web UI and crashes come in any order.
-/
namespace Spade

/-- Where a sweep of `poll` stands; between the sweeps nothing is left to do. -/
inductive Poller where
  | sweeping (rest : List QueuedRun)
  | claimed (run : QueuedRun) (rest : List QueuedRun)
  | submitting (run : QueuedRun) (rest : List QueuedRun)
  | failing (run : QueuedRun) (errMsg : String) (rest : List QueuedRun)

structure Outbox where
  runs : RunsTable := ∅
  pollers : ℕ → Poller := fun _ => .sweeping []
  submitted : List String := []

inductive OutboxOp where
  | create (input : RunRow)
  | patch (id : String) (body : RunsTable.StatusBody)
  | fetch (i : ℕ) (order : MapOrder)
  | claim (i : ℕ)
  | claimFails (i : ℕ)
  | submit (i : ℕ)
  | returns (i : ℕ) (err : Option String)
  | markFailed (i : ℕ)
  | markFailedFails (i : ℕ)
  | crash (i : ℕ)

namespace Outbox

def setPoller (o : Outbox) (i : ℕ) (p : Poller) : Outbox :=
  { o with pollers := Function.update o.pollers i p }

/-- A call that a poller is not at is no step. -/
def step (o : Outbox) (a : Time × OutboxOp) : Outbox :=
  match a.2 with
  | .create input => { o with runs := (o.runs.create input).getD o.runs }
  | .patch id body => { o with runs := o.runs.patch a.1 id body }
  | .fetch i order =>
    match o.pollers i with
    | .sweeping [] => o.setPoller i (.sweeping (o.runs.fetchQueued order 10))
    | _ => o
  | .claim i =>
    match o.pollers i with
    | .sweeping (run :: rest) =>
      match o.runs.markRunning a.1 run.id with
      | (runs, true) => { o with runs := runs }.setPoller i (.claimed run rest)
      | (_, false) => o.setPoller i (.sweeping rest)
    | _ => o
  | .claimFails i =>
    match o.pollers i with
    | .sweeping (_ :: rest) => o.setPoller i (.sweeping rest)
    | _ => o
  | .submit i =>
    match o.pollers i with
    | .claimed run rest =>
      { o with submitted := o.submitted ++ [run.id] }.setPoller i (.submitting run rest)
    | _ => o
  | .returns i err =>
    match o.pollers i, err with
    | .submitting _ rest, none => o.setPoller i (.sweeping rest)
    | .submitting run rest, some errMsg => o.setPoller i (.failing run errMsg rest)
    | _, _ => o
  | .markFailed i =>
    match o.pollers i with
    | .failing run errMsg rest =>
      { o with runs := o.runs.markFailed a.1 run.id errMsg }.setPoller i (.sweeping rest)
    | _ => o
  | .markFailedFails i =>
    match o.pollers i with
    | .failing _ _ rest => o.setPoller i (.sweeping rest)
    | _ => o
  | .crash i => o.setPoller i (.sweeping [])

end Outbox

/-- New runs are queued, and no update queues a run again. -/
def OutboxOp.QueuesNew : OutboxOp → Prop
  | .create input => input.status = .queued
  | .patch _ body => body.status ≠ some .queued
  | _ => True

instance : DecidablePred OutboxOp.QueuesNew
  | .create input => inferInstanceAs (Decidable (input.status = .queued))
  | .patch _ body => inferInstanceAs (Decidable (body.status ≠ some .queued))
  | .fetch .. | .claim _ | .claimFails _ | .submit _ | .returns .. | .markFailed _
  | .markFailedFails _ | .crash _ => isTrue trivial

/-- The poller that makes the step. -/
def OutboxOp.poller : OutboxOp → Option ℕ
  | .create _ | .patch _ _ => none
  | .fetch i _ | .claim i | .claimFails i | .submit i | .returns i _ | .markFailed i
  | .markFailedFails i | .crash i => some i

namespace Outbox
variable {o : Outbox} {a : Time × OutboxOp} {id : String}

/-- What a step can do. -/
inductive Moves (o : Outbox) (now : Time) : OutboxOp → Outbox → Prop
  | stay (op : OutboxOp) : Moves o now op o
  | create {input : RunRow} (h : input.id ∉ o.runs) :
    Moves o now (.create input) { o with runs := o.runs.insert input.id input }
  | patch (id : String) (body : RunsTable.StatusBody) :
    Moves o now (.patch id body) { o with runs := o.runs.patch now id body }
  | fetch {i : ℕ} {order : MapOrder} (h : o.pollers i = .sweeping []) :
    Moves o now (.fetch i order) (o.setPoller i (.sweeping (o.runs.fetchQueued order 10)))
  | claim {i : ℕ} {run : QueuedRun} {rest : List QueuedRun}
    (h : o.pollers i = .sweeping (run :: rest)) (hq : (o.runs.markRunning now run.id).2 = true) :
    Moves o now (.claim i) ({ o with runs := (o.runs.markRunning now run.id).1 }.setPoller i
      (.claimed run rest))
  | skip {op : OutboxOp} {i : ℕ} {run : QueuedRun} {rest : List QueuedRun}
    (hop : op.poller = some i) (h : o.pollers i = .sweeping (run :: rest)) :
    Moves o now op (o.setPoller i (.sweeping rest))
  | submit {i : ℕ} {run : QueuedRun} {rest : List QueuedRun} (h : o.pollers i = .claimed run rest) :
    Moves o now (.submit i) ({ o with submitted := o.submitted ++ [run.id] }.setPoller i
      (.submitting run rest))
  | accepted {i : ℕ} {run : QueuedRun} {rest : List QueuedRun}
    (h : o.pollers i = .submitting run rest) :
    Moves o now (.returns i none) (o.setPoller i (.sweeping rest))
  | refused {i : ℕ} {run : QueuedRun} {errMsg : String} {rest : List QueuedRun}
    (h : o.pollers i = .submitting run rest) :
    Moves o now (.returns i (some errMsg)) (o.setPoller i (.failing run errMsg rest))
  | markFailed {i : ℕ} {run : QueuedRun} {errMsg : String} {rest : List QueuedRun}
    (h : o.pollers i = .failing run errMsg rest) :
    Moves o now (.markFailed i) ({ o with runs := o.runs.markFailed now run.id errMsg }.setPoller i
      (.sweeping rest))
  | giveUp {i : ℕ} {run : QueuedRun} {errMsg : String} {rest : List QueuedRun}
    (h : o.pollers i = .failing run errMsg rest) :
    Moves o now (.markFailedFails i) (o.setPoller i (.sweeping rest))
  | crash (i : ℕ) : Moves o now (.crash i) (o.setPoller i (.sweeping []))

theorem step_moves (o : Outbox) (a : Time × OutboxOp) : o.Moves a.1 a.2 (o.step a) := by
  obtain ⟨now, op⟩ := a
  cases op with
  | create input =>
    change o.Moves now _ { o with runs := (o.runs.create input).getD o.runs }
    cases hc : o.runs.create input with
    | none => exact .stay _
    | some runs =>
      obtain ⟨hid, rfl⟩ := RunsTable.create_eq_some.mp hc
      exact .create hid
  | patch id body => exact .patch id body
  | crash i => exact .crash i
  | claim i =>
    unfold step
    dsimp only
    split
    · rename_i run rest hi
      split
      · rename_i runs hclaim
        have hmoves : o.Moves now (.claim i) _ := .claim hi (by rw [hclaim])
        rwa [hclaim] at hmoves
      · exact .skip rfl hi
    · exact .stay _
  | fetch i order =>
    unfold step
    dsimp only
    split
    · rename_i hi
      exact .fetch hi
    · exact .stay _
  | claimFails i =>
    unfold step
    dsimp only
    split
    · rename_i hi
      exact .skip rfl hi
    · exact .stay _
  | submit i =>
    unfold step
    dsimp only
    split
    · rename_i hi
      exact .submit hi
    · exact .stay _
  | returns i err =>
    unfold step
    dsimp only
    split
    · rename_i hi
      exact .accepted hi
    · rename_i hi
      exact .refused hi
    · exact .stay _
  | markFailed i =>
    unfold step
    dsimp only
    split
    · rename_i hi
      exact .markFailed hi
    · exact .stay _
  | markFailedFails i =>
    unfold step
    dsimp only
    split
    · rename_i hi
      exact .giveUp hi
    · exact .stay _

/-- The run is there and has left the queue. -/
def Left (o : Outbox) (id : String) : Prop :=
  ∃ row, o.runs.lookup id = some row ∧ row.status ≠ .queued

theorem left_update {f : RunRow → RunRow} {id' : String} (h : o.Left id)
    (hf : ∀ row, row.status ≠ .queued → (f row).status ≠ .queued) :
    ∃ row, (o.runs.update id' f).lookup id = some row ∧ row.status ≠ .queued := by
  obtain ⟨row, hrow, hq⟩ := h
  rw [RunsTable.update_lookup]
  split_ifs with hid
  · exact ⟨f row, by rw [← hid, hrow, Option.map_some], hf row hq⟩
  · exact ⟨row, hrow, hq⟩

/-- A run that has left the queue does not come back. -/
theorem left_step (ha : a.2.QueuesNew) (h : o.Left id) : (o.step a).Left id := by
  obtain ⟨now, op⟩ := a
  have hmoves := step_moves o (now, op)
  generalize o.step (now, op) = o' at hmoves ⊢
  have ⟨row, hrow, hq⟩ := h
  cases hmoves with
  | stay => exact h
  | create hid =>
    refine ⟨row, ?_, hq⟩
    rw [GoMap.lookup_insert_if, if_neg, hrow]
    rintro rfl
    exact hid (GoMap.mem_of_lookup hrow)
  | patch id' body =>
    change ∃ row, (o.runs.patch now id' body).lookup id = some row ∧ row.status ≠ .queued
    unfold RunsTable.patch
    cases hs : body.status with
    | none => exact h
    | some status =>
      refine left_update h fun _ _ => ?_
      rintro rfl
      exact ha hs
  | claim hi hclaim =>
    unfold Left
    change ∃ row, (o.runs.markRunning now _).1.lookup id = some row ∧ row.status ≠ .queued
    rw [RunsTable.markRunning_lookup]
    split_ifs with hid
    · exact ⟨RunsTable.RunRow.markRunning now row, by rw [← hid.1, hrow, Option.map_some], nofun⟩
    · exact h
  | markFailed hi => exact left_update h fun _ _ => nofun
  | _ => exact h

theorem left_of_claim {now : Time} (h : (o.runs.markRunning now id).2 = true) :
    ¬o.Left id ∧ ∃ row, (o.runs.markRunning now id).1.lookup id = some row ∧
      row.status = .running := by
  obtain ⟨row, hrow, hq⟩ := RunsTable.markRunning_claims.mp h
  refine ⟨?_, RunsTable.RunRow.markRunning now row, ?_, rfl⟩
  · rintro ⟨row', hrow', hne⟩
    rw [hrow] at hrow'
    cases hrow'
    exact hne hq
  · rw [RunsTable.markRunning_lookup, if_pos ⟨rfl, h⟩, hrow]
    rfl

/-- A run that was submitted or is held for submission has left the queue, and no two of
them are one. -/
structure Single (o : Outbox) : Prop where
  nodup : o.submitted.Nodup
  left : ∀ id ∈ o.submitted, o.Left id
  held : ∀ i run rest, o.pollers i = .claimed run rest → o.Left run.id ∧ run.id ∉ o.submitted
  apart : ∀ i j run rest run' rest', o.pollers i = .claimed run rest →
    o.pollers j = .claimed run' rest' → run.id = run'.id → i = j

/-- A poller goes on with something else than a submission. -/
theorem Single.go (h : o.Single) {o' : Outbox} (hleft : ∀ id, o.Left id → o'.Left id)
    (hs : o'.submitted = o.submitted) (hp : ∀ i run rest, o'.pollers i = .claimed run rest →
      o.pollers i = .claimed run rest) : o'.Single where
  nodup := hs ▸ h.nodup
  left id hid := hleft id (h.left id (hs ▸ hid))
  held i run rest hi := by
    obtain ⟨hl, hn⟩ := h.held i run rest (hp i run rest hi)
    exact ⟨hleft _ hl, hs ▸ hn⟩
  apart i j run rest run' rest' hi hj := h.apart i j run rest run' rest' (hp _ _ _ hi) (hp _ _ _ hj)

theorem setPoller_pollers (o : Outbox) (i j : ℕ) (p : Poller) :
    (o.setPoller i p).pollers j = if j = i then p else o.pollers j := Function.update_apply _ _ _ _

theorem claimed_setPoller {i j : ℕ} {p : Poller} (hp : ∀ run rest, p ≠ .claimed run rest)
    {run : QueuedRun} {rest : List QueuedRun}
    (h : (o.setPoller i p).pollers j = .claimed run rest) : o.pollers j = .claimed run rest := by
  rw [setPoller_pollers] at h
  split_ifs at h
  · exact absurd h (hp run rest)
  · exact h

theorem Single.step (h : o.Single) (ha : a.2.QueuesNew) : (o.step a).Single := by
  have hleft : ∀ id, o.Left id → (o.step a).Left id := fun id => left_step ha
  obtain ⟨now, op⟩ := a
  have hmoves := step_moves o (now, op)
  generalize o.step (now, op) = o' at hmoves hleft ⊢
  cases hmoves with
  | stay | create | patch => exact h.go hleft rfl fun _ _ _ hi => hi
  | fetch | skip | accepted | refused | markFailed | giveUp | crash =>
    exact h.go hleft rfl fun _ _ _ => claimed_setPoller (by simp)
  | @claim i run rest hi hclaim =>
    obtain ⟨hfresh, row, hrow, hrun⟩ := left_of_claim hclaim
    have hnow : Left ({ o with runs := (o.runs.markRunning now run.id).1 }.setPoller i
        (.claimed run rest)) run.id := ⟨row, hrow, by rw [hrun]; exact nofun⟩
    refine ⟨h.nodup, fun id hid => hleft id (h.left id hid), fun j run' rest' hj => ?_,
      fun j k run' rest' run'' rest'' hj hk hid => ?_⟩
    · rw [setPoller_pollers] at hj
      split_ifs at hj
      · cases hj
        exact ⟨hnow, fun hmem => hfresh (h.left run.id hmem)⟩
      · obtain ⟨hl, hn⟩ := h.held j run' rest' hj
        exact ⟨hleft _ hl, hn⟩
    · rw [setPoller_pollers] at hj hk
      split_ifs at hj hk with hji hki hki
      · rw [hji, hki]
      · cases hj
        exact absurd (hid ▸ (h.held k run'' rest'' hk).1) hfresh
      · cases hk
        exact absurd (hid ▸ (h.held j run' rest' hj).1) hfresh
      · exact h.apart j k run' rest' run'' rest'' hj hk hid
  | @submit i run rest hi =>
    obtain ⟨hl, hn⟩ := h.held i run rest hi
    refine ⟨?_, fun id hid => ?_, fun j run' rest' hj => ?_,
      fun j k run' rest' run'' rest'' hj hk => ?_⟩
    · exact List.nodup_append.mpr ⟨h.nodup, List.nodup_singleton _, fun id hid id' hid' heq => by
        rw [List.mem_singleton.mp hid'] at heq
        exact hn (heq ▸ hid)⟩
    · rcases List.mem_append.mp hid with hid | hid
      · exact hleft id (h.left id hid)
      · rw [List.mem_singleton.mp hid]
        exact hl
    · rw [setPoller_pollers] at hj
      split_ifs at hj with hji
      obtain ⟨hl', hn'⟩ := h.held j run' rest' hj
      refine ⟨hl', fun hmem => ?_⟩
      rcases List.mem_append.mp hmem with hmem | hmem
      · exact hn' hmem
      · exact hji (h.apart j i run' rest' run rest hj hi (List.mem_singleton.mp hmem))
    · exact h.apart j k run' rest' run'' rest'' (claimed_setPoller (by simp) hj)
        (claimed_setPoller (by simp) hk)

theorem other_step {j : ℕ} (hj : a.2.poller ≠ some j) : (o.step a).pollers j = o.pollers j := by
  obtain ⟨now, op⟩ := a
  have hmoves := step_moves o (now, op)
  generalize o.step (now, op) = o' at hmoves ⊢
  have hother : ∀ {i : ℕ} {p : Poller}, op.poller = some i →
      (o.setPoller i p).pollers j = o.pollers j := fun hi => by
    rw [setPoller_pollers, if_neg]
    rintro rfl
    exact hj hi
  cases hmoves with
  | stay | create | patch => rfl
  | skip hop => exact hother hop
  | fetch | claim | submit | accepted | refused | markFailed | giveUp | crash => exact hother rfl

/-- A submission is ended by its return and by a crash only. -/
theorem submitting_step {j : ℕ} {run : QueuedRun} {rest : List QueuedRun}
    (hj : o.pollers j = .submitting run rest) (hr : ∀ err, a.2 ≠ .returns j err)
    (hc : a.2 ≠ .crash j) : (o.step a).pollers j = .submitting run rest := by
  by_cases hp : a.2.poller = some j
  · obtain ⟨now, op⟩ := a
    change op.poller = some j at hp
    unfold step
    cases op with
    | returns i err =>
      cases hp
      exact absurd rfl (hr err)
    | crash i =>
      cases hp
      exact absurd rfl hc
    | create | patch => cases hp
    | _ =>
      cases hp
      dsimp only
      rw [hj]
      exact hj
  · rw [other_step hp, hj]

/-- Nobody is at work yet. -/
def Idle (o : Outbox) : Prop := o.submitted = [] ∧ ∀ i, o.pollers i = .sweeping []

theorem Idle.single (h : o.Idle) : o.Single := by
  have hno : ∀ i run rest, o.pollers i ≠ .claimed run rest := by
    intro i run rest hi
    rw [h.2] at hi
    cases hi
  refine ⟨by rw [h.1]; exact List.nodup_nil, fun id hid => ?_, fun i run rest hi => ?_,
    fun i _ run rest _ _ hi => ?_⟩
  · rw [h.1] at hid
    cases hid
  · exact absurd hi (hno i run rest)
  · exact absurd hi (hno i run rest)

/-- However the steps come, no run is submitted twice. -/
theorem submitted_once (h : o.Idle) {l : List (Time × OutboxOp)}
    (hl : Runs.Along step (fun _ a => a.2.QueuesNew) o l) (id : String) :
    (Runs.run step o l).submitted.count id ≤ 1 :=
  List.nodup_iff_count_le_one.mp
    (Runs.invariant step (P := Single) (fun _ _ hs ha => hs.step ha) h.single hl).nodup id

/-- Two pollers fetch the run before either claims it. -/
def raceOps : List (Time × OutboxOp) :=
  [(1, .create { id := "r", ownerId := "u", yaml := "blocks: []" }), (2, .fetch 0 .stored),
    (2, .fetch 1 .stored), (3, .claim 0), (4, .claim 1), (5, .submit 1), (5, .submit 0),
    (6, .returns 0 (some "no blocks")), (7, .markFailed 0), (8, .fetch 1 .stored), (9, .claim 1)]

theorem submitted_once_race : (Runs.run step {} raceOps).submitted = ["r"] ∧
    (Runs.run step {} raceOps).submitted.count "r" ≤ 1 :=
  ⟨by decide, submitted_once ⟨rfl, fun _ => rfl⟩ (by decide) "r"⟩

end Outbox
end Spade
