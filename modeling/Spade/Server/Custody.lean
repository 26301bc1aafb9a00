import Spade.Server.Outbox

set_option autoImplicit false

/-!
# Who has a run

A run is queued, failed, known to the engine, or in the hands of a poller that has claimed
it. `known` stands for the runs that the engine has.
-/
namespace Spade

/-- The run that a poller has claimed and not yet let go. -/
def Poller.held : Poller → Option QueuedRun
  | .sweeping _ => none
  | .claimed run _ => some run
  | .submitting run _ => some run
  | .failing run _ _ => some run

namespace Outbox
variable {known known' : String → Prop} {o : Outbox}

/-- Runs are created as queued ones, and updated by the callback only if the engine knows
them. -/
def Regular (known : String → Prop) : OutboxOp → Prop
  | .create input => input.status = .queued
  | .patch id _ => known id
  | _ => True

/-- A poller that lets its run go without marking it as failed has one that the engine
knows. -/
def HandsOver (known : String → Prop) (o : Outbox) : OutboxOp → Prop
  | .returns i none => ∀ run rest, o.pollers i = .submitting run rest → known run.id
  | .crash i => ∀ run, (o.pollers i).held = some run → known run.id
  | .markFailedFails i => ∀ run errMsg rest, o.pollers i = .failing run errMsg rest → known run.id
  | _ => True

/-- What is held and not known is running, and held once. -/
def Guarded (known : String → Prop) (o : Outbox) : Prop :=
  ∀ i run, (o.pollers i).held = some run → known run.id ∨
    (∃ row, o.runs.lookup run.id = some row ∧ row.status = .running) ∧
      ∀ j run', (o.pollers j).held = some run' → run'.id = run.id → j = i

/-- No run is lost. -/
def Lossless (known : String → Prop) (o : Outbox) : Prop :=
  ∀ id row, o.runs.lookup id = some row → row.status = .queued ∨ row.status = .failed ∨ known id ∨
    ∃ i run, (o.pollers i).held = some run ∧ run.id = id

theorem Guarded.mono (h : o.Guarded known) (hk : ∀ id, known id → known' id) : o.Guarded known' :=
  fun i run hi => (h i run hi).imp_left (hk run.id)

theorem Lossless.mono (h : o.Lossless known) (hk : ∀ id, known id → known' id) :
    o.Lossless known' := fun id row hrow => by
  rcases h id row hrow with hq | hf | hknown | hheld
  · exact .inl hq
  · exact .inr (.inl hf)
  · exact .inr (.inr (.inl (hk id hknown)))
  · exact .inr (.inr (.inr hheld))

theorem held_setPoller (o : Outbox) (i j : ℕ) (p : Poller) :
    ((o.setPoller i p).pollers j).held = if j = i then p.held else (o.pollers j).held := by
  rw [setPoller_pollers]
  split_ifs <;> rfl

/-! Steps that let nothing go. -/

/-- A poller goes on with the run that it has, or with none. -/
theorem held_same {i : ℕ} {p : Poller} (h : p.held = (o.pollers i).held) (j : ℕ) :
    ((o.setPoller i p).pollers j).held = (o.pollers j).held := by
  rw [held_setPoller]
  split_ifs with hj
  · rw [hj, h]
  · rfl

theorem Guarded.same {o' : Outbox} (h : o.Guarded known) (hr : o'.runs = o.runs)
    (hp : ∀ j, (o'.pollers j).held = (o.pollers j).held) : o'.Guarded known := by
  unfold Guarded
  simp only [hr, hp]
  exact h

theorem Lossless.same {o' : Outbox} (h : o.Lossless known) (hr : o'.runs = o.runs)
    (hp : ∀ j, (o'.pollers j).held = (o.pollers j).held) : o'.Lossless known := by
  unfold Lossless
  simp only [hr, hp]
  exact h

/-! Steps in which a poller lets its run go. -/

theorem Guarded.drop (h : o.Guarded known) (i : ℕ) (rest : List QueuedRun) :
    (o.setPoller i (.sweeping rest)).Guarded known := by
  intro j run hj
  rw [held_setPoller] at hj
  split_ifs at hj with hji
  · cases hj
  · refine (h j run hj).imp_right fun ⟨hrow, hone⟩ => ⟨hrow, fun k run' hk => ?_⟩
    rw [held_setPoller] at hk
    split_ifs at hk with hki
    · cases hk
    · exact hone k run' hk

/-- Nothing is lost if and only if the engine knows the run. -/
theorem drop_lossless_iff (hg : o.Guarded known) (h : o.Lossless known) {i : ℕ} {run : QueuedRun}
    (hi : (o.pollers i).held = some run) (rest : List QueuedRun) :
    (o.setPoller i (.sweeping rest)).Lossless known ↔ known run.id := by
  constructor
  · intro hl
    rcases hg i run hi with hk | ⟨⟨row, hrow, hrun⟩, hone⟩
    · exact hk
    · rcases hl run.id row hrow with hq | hf | hk | ⟨j, run', hj, hid⟩
      · rw [hrun] at hq
        cases hq
      · rw [hrun] at hf
        cases hf
      · exact hk
      · rw [held_setPoller] at hj
        split_ifs at hj with hji
        · cases hj
        · exact absurd (hone j run' hj hid) hji
  · intro hk id row hrow
    rcases h id row hrow with hq | hf | hk' | ⟨j, run', hj, rfl⟩
    · exact .inl hq
    · exact .inr (.inl hf)
    · exact .inr (.inr (.inl hk'))
    · by_cases hji : j = i
      · subst hji
        rw [hi] at hj
        cases hj
        exact .inr (.inr (.inl hk))
      · exact .inr (.inr (.inr ⟨j, run', by rw [held_setPoller, if_neg hji, hj], rfl⟩))

/-! Steps that change rows. -/

/-- A change of rows that are known, or that nobody has. -/
theorem Guarded.rows {o' : Outbox} (h : o.Guarded known) (hp : o'.pollers = o.pollers)
    (hr : ∀ id row, o.runs.lookup id = some row → o'.runs.lookup id = some row ∨ known id) :
    o'.Guarded known := by
  intro i run hi
  rw [hp] at hi
  rcases h i run hi with hk | ⟨⟨row, hrow, hrun⟩, hone⟩
  · exact .inl hk
  · rcases hr run.id row hrow with hrow' | hk
    · exact .inr ⟨⟨row, hrow', hrun⟩, by rwa [hp]⟩
    · exact .inl hk

variable {now : Time}

theorem Guarded.claim (h : o.Guarded known) {i : ℕ} {run : QueuedRun} {rest : List QueuedRun}
    (hclaim : (o.runs.markRunning now run.id).2 = true) :
    ({ o with runs := (o.runs.markRunning now run.id).1 }.setPoller i (.claimed run rest)).Guarded
      known := by
  obtain ⟨row, hrow, hq⟩ := RunsTable.markRunning_claims.mp hclaim
  have hother : ∀ j run', (o.pollers j).held = some run' → run'.id = run.id → known run.id := by
    intro j run' hj hid
    rcases h j run' hj with hk | ⟨⟨row', hrow', hrun⟩, -⟩
    · exact hid ▸ hk
    · rw [hid, hrow] at hrow'
      cases hrow'
      rw [hq] at hrun
      cases hrun
  intro j run' hj
  change _ ∨ (∃ row, (o.runs.markRunning now run.id).1.lookup run'.id = some row ∧ _) ∧ _
  rw [RunsTable.markRunning_lookup]
  rw [held_setPoller] at hj
  split_ifs at hj with hji
  · cases hj
    by_cases hk : known run.id
    · exact .inl hk
    · refine .inr ⟨?_, fun k run' hkh hid => ?_⟩
      · rw [if_pos ⟨rfl, hclaim⟩, hrow]
        exact ⟨_, rfl, rfl⟩
      · rw [held_setPoller] at hkh
        split_ifs at hkh with hki
        · rw [hki, hji]
        · exact absurd (hother k run' hkh hid) hk
  · by_cases hid : run'.id = run.id
    · exact .inl (hid ▸ hother j run' hj hid)
    · rw [if_neg fun hi => hid hi.1]
      refine (h j run' hj).imp_right fun ⟨hrun, hone⟩ => ⟨hrun, fun k run'' hk hid' => ?_⟩
      rw [held_setPoller] at hk
      split_ifs at hk with hki
      · cases hk
        exact absurd hid'.symm hid
      · exact hone k run'' hk hid'

theorem Guarded.markFailed (h : o.Guarded known) {i : ℕ} {run : QueuedRun} {errMsg : String}
    {rest : List QueuedRun} (hi : o.pollers i = .failing run errMsg rest) :
    ({ o with runs := o.runs.markFailed now run.id errMsg }.setPoller i (.sweeping rest)).Guarded
      known := by
  intro j run' hj
  have hdrop := h.drop i rest j run' hj
  rw [held_setPoller] at hj
  split_ifs at hj with hji
  · cases hj
  · rcases h j run' hj with hk | ⟨-, hone⟩
    · exact .inl hk
    · have hne : run'.id ≠ run.id := fun hid =>
        hji (hone i run (by rw [hi]; rfl) hid.symm).symm
      refine hdrop.imp_right fun ⟨⟨row, hrow, hrun⟩, hone'⟩ => ⟨⟨row, ?_, hrun⟩, hone'⟩
      change (o.runs.update run.id _).lookup run'.id = some row
      rw [RunsTable.update_lookup, if_neg hne]
      exact hrow

variable {a : Time × OutboxOp}

theorem Guarded.step (h : o.Guarded known) (ha : Regular known a.2) :
    (o.step a).Guarded known := by
  obtain ⟨now, op⟩ := a
  have hmoves := step_moves o (now, op)
  generalize o.step (now, op) = o' at hmoves ⊢
  cases hmoves with
  | stay => exact h
  | @create input hid =>
    refine h.rows rfl fun id row hrow => .inl ?_
    change (o.runs.insert input.id input).lookup id = some row
    rw [GoMap.lookup_insert_if, if_neg, hrow]
    rintro rfl
    exact hid (GoMap.mem_of_lookup hrow)
  | patch id body =>
    refine h.rows rfl fun id' row hrow => ?_
    by_cases hid : id' = id
    · exact .inr (hid ▸ ha)
    · refine .inl ?_
      change (o.runs.patch now id body).lookup id' = some row
      unfold RunsTable.patch
      cases body.status with
      | none => exact hrow
      | some status =>
        change (o.runs.update id _).lookup id' = some row
        rw [RunsTable.update_lookup, if_neg hid, hrow]
  | fetch hi | skip hop hi | submit hi | refused hi =>
    exact h.same rfl fun j => held_same (by rw [hi]; rfl) j
  | claim hi hclaim => exact h.claim hclaim
  | @accepted i run rest hi => exact h.drop i rest
  | markFailed hi => exact h.markFailed hi
  | @giveUp i run errMsg rest hi => exact h.drop i rest
  | crash i => exact h.drop i []

theorem lossless_step (hg : o.Guarded known) (h : o.Lossless known) (ha : Regular known a.2)
    (hd : HandsOver known o a.2) : (o.step a).Lossless known := by
  obtain ⟨now, op⟩ := a
  have hmoves := step_moves o (now, op)
  generalize o.step (now, op) = o' at hmoves ⊢
  cases hmoves with
  | stay => exact h
  | @create input hid =>
    intro id row hrow
    change (o.runs.insert input.id input).lookup id = some row at hrow
    rw [GoMap.lookup_insert_if] at hrow
    split_ifs at hrow
    · cases hrow
      exact .inl ha
    · exact h id row hrow
  | patch id body =>
    intro id' row hrow
    by_cases hid : id' = id
    · exact .inr (.inr (.inl (hid ▸ ha)))
    · change (o.runs.patch now id body).lookup id' = some row at hrow
      unfold RunsTable.patch at hrow
      cases hs : body.status with
      | none =>
        rw [hs] at hrow
        exact h id' row hrow
      | some status =>
        rw [hs] at hrow
        change (o.runs.update id _).lookup id' = some row at hrow
        rw [RunsTable.update_lookup, if_neg hid] at hrow
        exact h id' row hrow
  | fetch hi | skip hop hi | submit hi | refused hi =>
    exact h.same rfl fun j => held_same (by rw [hi]; rfl) j
  | @claim i run rest hi hclaim =>
    intro id row hrow
    by_cases hid : id = run.id
    · exact .inr (.inr (.inr ⟨i, run, by rw [held_setPoller, if_pos rfl]; rfl, hid.symm⟩))
    · change (o.runs.markRunning now run.id).1.lookup id = some row at hrow
      rw [RunsTable.markRunning_lookup, if_neg fun hc => hid hc.1] at hrow
      rcases h id row hrow with hq | hf | hk | ⟨j, run', hj, rfl⟩
      · exact .inl hq
      · exact .inr (.inl hf)
      · exact .inr (.inr (.inl hk))
      · refine .inr (.inr (.inr ⟨j, run', ?_, rfl⟩))
        rw [held_setPoller, if_neg, hj]
        rintro rfl
        rw [hi] at hj
        cases hj
  | @accepted i run rest hi =>
    exact (drop_lossless_iff hg h (by rw [hi]; rfl) rest).mpr (hd run rest hi)
  | @markFailed i run errMsg rest hi =>
    intro id row hrow
    change (o.runs.update run.id _).lookup id = some row at hrow
    rw [RunsTable.update_lookup] at hrow
    split_ifs at hrow with hid
    · obtain ⟨row', -, rfl⟩ := Option.map_eq_some_iff.mp hrow
      exact .inr (.inl rfl)
    · rcases h id row hrow with hq | hf | hk | ⟨j, run', hj, rfl⟩
      · exact .inl hq
      · exact .inr (.inl hf)
      · exact .inr (.inr (.inl hk))
      · refine .inr (.inr (.inr ⟨j, run', ?_, rfl⟩))
        rw [held_setPoller, if_neg, hj]
        rintro rfl
        rw [hi] at hj
        cases hj
        exact hid rfl
  | @giveUp i run errMsg rest hi =>
    exact (drop_lossless_iff hg h (by rw [hi]; rfl) rest).mpr (hd run errMsg rest hi)
  | crash i =>
    cases hi : (o.pollers i).held with
    | none => exact h.same rfl fun j => held_same (by rw [hi]; rfl) j
    | some run => exact (drop_lossless_iff hg h hi []).mpr (hd run hi)

theorem handsOver_of_lossless (hg : o.Guarded known) (h : o.Lossless known)
    (h' : (o.step a).Lossless known) : HandsOver known o a.2 := by
  obtain ⟨now, op⟩ := a
  cases op with
  | crash i =>
    intro run hi
    exact (drop_lossless_iff hg h hi []).mp h'
  | markFailedFails i =>
    intro run errMsg rest hi
    have hstep : o.step (now, .markFailedFails i) = o.setPoller i (.sweeping rest) := by
      unfold step
      dsimp only
      rw [hi]
    rw [hstep] at h'
    exact (drop_lossless_iff hg h (by rw [hi]; rfl) rest).mp h'
  | returns i err =>
    cases err with
    | some errMsg => trivial
    | none =>
      intro run rest hi
      have hstep : o.step (now, .returns i none) = o.setPoller i (.sweeping rest) := by
        unfold step
        dsimp only
        rw [hi]
      rw [hstep] at h'
      exact (drop_lossless_iff hg h (by rw [hi]; rfl) rest).mp h'
  | _ => trivial

/-- A step loses no run if and only if it hands its run over. -/
theorem lossless_step_iff (hg : o.Guarded known) (h : o.Lossless known)
    (ha : Regular known a.2) : (o.step a).Lossless known ↔ HandsOver known o a.2 :=
  ⟨handsOver_of_lossless hg h, lossless_step hg h ha⟩

end Outbox
end Spade
