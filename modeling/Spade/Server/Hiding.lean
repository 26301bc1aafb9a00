import Spade.Server.Rows

set_option autoImplicit false

/-!
# What one pipeline sees of another

A run is compared with the one that is left when the steps of pipeline `q` are taken
out of it. The other pipelines are the same in both as long as they share no block
with `q`, no duplicate is one of `q` only, and no publish of `q` fails in their way.
-/
namespace Spade
open UUIDPackage
variable [UUIDPackage] [Encoding]

namespace World

/-- The step is one of pipeline `q`, or a drain that comes too early to do anything. -/
def touches (q : UUID) (w : World) (a : Env × Op) : Bool :=
  match a.2 with
  | .submit pp _ _ => (Engine.submittedPipeline a.1 pp).any fun p => p.id = q
  | .cancel id => id = q
  | .drain => !w.sweep.isEmpty
  | .publish _ => w.sweep.head?.any fun inv => inv.pipelineId = q
  | .result wr => wr.pipelineID = q

/-- The steps of a run that remain when `q` is never submitted. -/
abbrev without (q : UUID) (ops : List (Env × Op)) : List (Env × Op) :=
  Runs.erase step (touches q) {} ops

/-- The registry without `q`. -/
def others (q : UUID) (w : World) : MultiTenantScheduler :=
  { w.engine.sched with schedulers := w.engine.sched.schedulers.erase q }

def IsolationGuard (q : UUID) (w : World) (a : Env × Op) : Prop :=
  match a.2 with
  | .submit pp body _ => ∀ x ∈ w.engine.registering a.1 pp body,
      ∀ e ∈ w.engine.sched.schedulers.items, x.1.id = q ∨ e.1 = q →
        ∀ b ∈ x.1.blocks, b.id ∉ e.2.pipeline.blockIDs
  | .publish ok => ok = true ∨ ∀ inv ∈ w.sweep.head?, inv.pipelineId = q →
      ∀ i ∈ w.sweep, i.pipelineId = q
  | .result wr => wr.pipelineID ≠ q →
      w.engine.sched.isAlreadyProcessed wr.invocationID = true →
      (w.others q).isAlreadyProcessed wr.invocationID = true
  | _ => True

instance (q : UUID) (w : World) (a : Env × Op) : Decidable (w.IsolationGuard q a) :=
  match a with
  | (env, .submit pp body _) => inferInstanceAs (Decidable
      (∀ x ∈ w.engine.registering env pp body,
        ∀ e ∈ w.engine.sched.schedulers.items, x.1.id = q ∨ e.1 = q →
          ∀ b ∈ x.1.blocks, b.id ∉ e.2.pipeline.blockIDs))
  | (_, .cancel _) => isTrue trivial
  | (_, .drain) => isTrue trivial
  | (_, .publish ok) => inferInstanceAs (Decidable
      (ok = true ∨ ∀ inv ∈ w.sweep.head?, inv.pipelineId = q → ∀ i ∈ w.sweep, i.pipelineId = q))
  | (_, .result wr) => inferInstanceAs (Decidable
      (wr.pipelineID ≠ q → w.engine.sched.isAlreadyProcessed wr.invocationID = true →
        (w.others q).isAlreadyProcessed wr.invocationID = true))

/-- The one map is the other without the key `q`. -/
def HidesKey {V : Type} (q : UUID) (m m' : GoMap UUID V) : Prop :=
  ∀ k, m'.lookup k = if k = q then none else m.lookup k

/-- The rows of the one store are those of the other that are not of `q`. -/
def HidesRows (q : UUID) (m m' : MemStore) : Prop :=
  ∀ key, m'.invocations.lookup key =
    (m.invocations.lookup key).filter fun row => row.pipelineID ≠ q

/-- The world `v` is `w` without what belongs to `q`, but for the rows. -/
structure HidesState (q : UUID) (w v : World) : Prop where
  scheds : HidesKey q w.engine.sched.schedulers v.engine.sched.schedulers
  order : v.engine.sched.pipelineOrder = w.engine.sched.pipelineOrder.filter fun k => k ≠ q
  sweep : v.sweep = w.sweep.filter fun inv => inv.pipelineId ≠ q
  records : HidesKey q w.engine.store.pipelines v.engine.store.pipelines
  published : v.published = w.published.filter fun j => j.assignment.pipelineID ≠ q

structure Hides (q : UUID) (w v : World) : Prop extends HidesState q w v where
  rows : HidesRows q w.engine.store v.engine.store

/-- What holds of the world with `q`. -/
structure Tidy (q : UUID) (w : World) : Prop where
  sound : w.Sound
  owned : ∀ key row, w.engine.store.invocations.lookup key = some row → row.id = key ∧ w.Owns row
  apart : ∀ pid ps ps', pid ≠ q → w.engine.sched.schedulers.lookup pid = some ps →
    w.engine.sched.schedulers.lookup q = some ps' →
    ∀ id ∈ ps.pipeline.blockIDs, id ∉ ps'.pipeline.blockIDs

variable {q : UUID} {w v : World} {a : Env × Op}

/-! The invariant of the world with `q`. -/

theorem Owns.step {rec : InvocationRecord} (hw : w.Stored) (h : w.Owns rec) :
    (w.step a).Owns rec := by
  obtain ⟨ps, hps, hmem, hparse⟩ := h
  obtain ⟨ps', hps', hm⟩ := moves_of_lookup (a := a) hw hps
  exact ⟨ps', hps', hm.pipeline ▸ hmem, hparse⟩

omit [Encoding] in
/-- An upsert of an owned row keeps the rows owned. -/
theorem owned_upsert {m : MemStore} {rec : InvocationRecord} (hrec : w.Owns rec)
    (hm : ∀ key row, m.invocations.lookup key = some row → row.id = key ∧ w.Owns row) :
    ∀ key row, (m.upsertInvocation rec).invocations.lookup key = some row →
      row.id = key ∧ w.Owns row := by
  intro key row hl
  rw [MemStore.upsert_lookup] at hl
  split at hl
  · rename_i hk
    cases hl
    rcases MemStore.upserted_cases (m.invocations.lookup rec.id) rec with h | ⟨h₁, h₂, h₃⟩
    · rw [hk]
      exact hm _ _ h
    · refine ⟨h₁.trans hk.symm, ?_⟩
      obtain ⟨ps, hps, hmem, hparse⟩ := hrec
      exact ⟨ps, h₂ ▸ hps, h₃ ▸ hmem, by rw [h₁, h₃, hparse]⟩
  · exact hm key row hl

theorem owned_step (hw : w.Sound) (ha : w.Admits a)
    (h : ∀ key row, w.engine.store.invocations.lookup key = some row → row.id = key ∧ w.Owns row) :
    ∀ key row, (w.step a).engine.store.invocations.lookup key = some row →
      row.id = key ∧ (w.step a).Owns row := by
  rw [step_rows]
  refine MemStore.upsertAll_induct (P := fun m => ∀ key row, m.invocations.lookup key = some row →
    row.id = key ∧ (w.step a).Owns row) ?_ ?_
  · exact fun key row hl => ⟨(h key row hl).1, (h key row hl).2.step hw.stored⟩
  · exact fun m hm rec hrec => owned_upsert (writes_owned hw ha rec hrec) hm

/-- A submission that goes through, seen from the step. -/
theorem registers_registering {env : Env} {pp p : Pipeline} {body who : String}
    {ps : SinglePipelineScheduler} (hw : w.Stored) (hr : w.Registers env pp p)
    (hps : (w.step (env, .submit pp body who)).engine.sched.schedulers.lookup p.id = some ps) :
    ∃ text, w.engine.registering env pp body = some (p, text) := by
  change (w.engine.submitPipeline env pp body who).1.sched.schedulers.lookup p.id = some ps at hps
  rw [Engine.submit_eq] at hps
  cases hx : w.engine.registering env pp body with
  | none =>
    rw [hx] at hps
    exact absurd (hw _ (GoMap.mem_of_lookup hps)) hr.fresh
  | some x =>
    obtain ⟨p', text⟩ := x
    have hp := (Engine.registering_spec hx).1
    rw [hr.submitted] at hp
    cases hp
    exact ⟨text, rfl⟩

theorem apart_step (hw : w.Tidy q) (hg : w.IsolationGuard q a) :
    ∀ pid ps ps', pid ≠ q → (w.step a).engine.sched.schedulers.lookup pid = some ps →
      (w.step a).engine.sched.schedulers.lookup q = some ps' →
      ∀ id ∈ ps.pipeline.blockIDs, id ∉ ps'.pipeline.blockIDs := by
  intro pid ps ps' hne hps hps'
  have fresh : ∀ {k k' : UUID} {s s' : SinglePipelineScheduler}, (k = q ∨ k' = q) →
      (w.step a).engine.sched.schedulers.lookup k = some s →
      (∃ pp body who p, a.2 = .submit pp body who ∧ w.Registers a.1 pp p ∧ p.id = k ∧
        s = registered p a.1.manifests) →
      w.engine.sched.schedulers.lookup k' = some s' →
      ∀ id ∈ s.pipeline.blockIDs, id ∉ s'.pipeline.blockIDs := by
    rintro k k' s s' hq hs ⟨pp, body, who, p, hop, hreg, rfl, rfl⟩ hs' id hid
    obtain ⟨env, op⟩ := a
    cases hop
    obtain ⟨text, hx⟩ := registers_registering hw.sound.stored hreg hs
    obtain ⟨g, hg', -⟩ := (accepted_of_validate hreg.valid).graph
    rw [(registered_queues _ hg').1] at hid
    obtain ⟨b, hb, rfl⟩ := List.mem_map.mp hid
    exact hg (p, text) hx (k', s') ((GoMap.mem_items _ _ _).mpr hs') hq b hb
  rcases step_lookup w a pid with
    ⟨s, hl, hnew⟩ | ⟨-, hl⟩ | ⟨s, s', hl₀, hl, hm⟩
  · rw [hps] at hl
    cases hl
    rcases step_lookup w a q with ⟨t, hl', hnew'⟩ | ⟨-, hl'⟩ | ⟨t, t', hl₀', hl', hm'⟩
    · obtain ⟨_, _, _, p, hop, hreg, hp, -⟩ := hnew
      obtain ⟨_, _, _, p', hop', hreg', hp', -⟩ := hnew'
      rw [hop] at hop'
      cases hop'
      have hsame := hreg.submitted.symm.trans hreg'.submitted
      cases hsame
      exact absurd (hp.symm.trans hp') hne
    · rw [hps'] at hl'
      cases hl'
    · rw [hps'] at hl'
      cases hl'
      rw [hm'.pipeline]
      exact fresh (Or.inr rfl) hps hnew hl₀'
  · rw [hps] at hl
    cases hl
  · rw [hps] at hl
    cases hl
    rw [hm.pipeline]
    rcases step_lookup w a q with ⟨t, hl', hnew'⟩ | ⟨-, hl'⟩ | ⟨t, t', hl₀', hl', hm'⟩
    · rw [hps'] at hl'
      cases hl'
      exact fun id hid hid' => fresh (Or.inl rfl) hps' hnew' hl₀ id hid' hid
    · rw [hps'] at hl'
      cases hl'
    · rw [hps'] at hl'
      cases hl'
      rw [hm'.pipeline]
      exact hw.apart pid s t hne hl₀ hl₀'

theorem tidy_step (hw : w.Tidy q) (ha : w.Admits a) (hg : w.IsolationGuard q a) :
    (w.step a).Tidy q :=
  ⟨sound_step w a hw.sound ha, owned_step hw.sound ha hw.owned, apart_step hw hg⟩

/-! The rows. -/

omit [Encoding] in
/-- Rows under one id are both of `q` or both not. -/
theorem Tidy.side (hw : w.Tidy q) {e rec : InvocationRecord} (he : w.Owns e) (hrec : w.Owns rec)
    (hid : e.id = rec.id) : e.pipelineID = q ↔ rec.pipelineID = q := by
  obtain ⟨ps, hps, hmem, hparse⟩ := he
  obtain ⟨ps', hps', hmem', hparse'⟩ := hrec
  rw [hid, hparse'] at hparse
  constructor
  · intro hq
    by_contra hne
    rw [hq] at hps
    exact hw.apart _ ps' ps hne hps' hps _ hmem' (hparse ▸ hmem)
  · intro hq
    by_contra hne
    rw [hq] at hps'
    exact hw.apart _ ps ps' hne hps hps' _ hmem (hparse ▸ hmem')

variable {m m' : MemStore} {rec : InvocationRecord}

omit [UUIDPackage] [Encoding] in
theorem upserted_pipeline {c : UUID → Prop} {existing : Option InvocationRecord}
    (hrec : c rec.pipelineID) (he : ∀ e, existing = some e → c e.pipelineID) :
    c (MemStore.upserted existing rec).pipelineID := by
  rcases MemStore.upserted_cases existing rec with h | ⟨-, h, -⟩
  · exact he _ h
  · exact h ▸ hrec

omit [Encoding] in
theorem hides_both (hw : w.Tidy q)
    (hm : ∀ key row, m.invocations.lookup key = some row → row.id = key ∧ w.Owns row)
    (hrec : w.Owns rec) (hne : rec.pipelineID ≠ q) (h : HidesRows q m m') :
    HidesRows q (m.upsertInvocation rec) (m'.upsertInvocation rec) := by
  intro key
  have hold : ∀ e, m.invocations.lookup rec.id = some e → e.pipelineID ≠ q := fun e he hq =>
    hne ((hw.side (hm _ _ he).2 hrec (hm _ _ he).1).mp hq)
  have hsame : m'.invocations.lookup rec.id = m.invocations.lookup rec.id := by
    rw [h rec.id]
    cases hl : m.invocations.lookup rec.id with
    | none => rfl
    | some e => exact Option.filter_some_pos (by simpa using hold e hl)
  rw [MemStore.upsert_lookup, MemStore.upsert_lookup, hsame]
  by_cases hk : key = rec.id
  · rw [if_pos hk, if_pos hk, Option.filter_some_pos]
    simpa using upserted_pipeline (c := fun k => k ≠ q) hne hold
  · rw [if_neg hk, if_neg hk]
    exact h key

omit [Encoding] in
theorem hides_left (hw : w.Tidy q)
    (hm : ∀ key row, m.invocations.lookup key = some row → row.id = key ∧ w.Owns row)
    (hrec : w.Owns rec) (hq : rec.pipelineID = q) (h : HidesRows q m m') :
    HidesRows q (m.upsertInvocation rec) m' := by
  intro key
  have hold : ∀ e, m.invocations.lookup rec.id = some e → e.pipelineID = q := fun e he =>
    (hw.side (hm _ _ he).2 hrec (hm _ _ he).1).mpr hq
  rw [MemStore.upsert_lookup]
  by_cases hk : key = rec.id
  · rw [if_pos hk, h key, hk, Option.filter_some_neg]
    · cases hl : m.invocations.lookup rec.id with
      | none => rfl
      | some e => exact Option.filter_some_neg (by simpa using hold e hl)
    · simpa using upserted_pipeline (c := fun k => k = q) hq hold
  · rw [if_neg hk]
    exact h key

omit [Encoding] in
theorem hides_all_both (hw : w.Tidy q) {recs : List InvocationRecord}
    (hrecs : ∀ rec ∈ recs, w.Owns rec ∧ rec.pipelineID ≠ q)
    (hm : ∀ key row, m.invocations.lookup key = some row → row.id = key ∧ w.Owns row)
    (h : HidesRows q m m') : HidesRows q (m.upsertAll recs) (m'.upsertAll recs) := by
  induction recs generalizing m m' with
  | nil => exact h
  | cons rec recs ih =>
    obtain ⟨hown, hne⟩ := hrecs rec (by simp)
    exact ih (fun r hr => hrecs r (by simp [hr])) (owned_upsert hown hm)
      (hides_both hw hm hown hne h)

omit [Encoding] in
theorem hides_all_left (hw : w.Tidy q) {recs : List InvocationRecord}
    (hrecs : ∀ rec ∈ recs, w.Owns rec ∧ rec.pipelineID = q)
    (hm : ∀ key row, m.invocations.lookup key = some row → row.id = key ∧ w.Owns row)
    (h : HidesRows q m m') : HidesRows q (m.upsertAll recs) m' := by
  induction recs generalizing m with
  | nil => exact h
  | cons rec recs ih =>
    obtain ⟨hown, hq⟩ := hrecs rec (by simp)
    exact ih (fun r hr => hrecs r (by simp [hr])) (owned_upsert hown hm)
      (hides_left hw hm hown hq h)

/-- The rows of a step are of the pipeline of the step. -/
theorem writes_touch (hw : w.Sound) (ha : w.Admits a) {rec : InvocationRecord}
    (hrec : rec ∈ w.writes a) : rec.pipelineID = q ↔ touches q w a = true := by
  have hnext := sound_step w a hw ha
  obtain ⟨env, op⟩ := a
  unfold writes at hrec
  unfold touches
  cases op with
  | cancel => cases hrec
  | drain => cases hrec
  | submit pp body who =>
    obtain ⟨p, text, hr, b, -, rfl⟩ := mem_writes_submit hrec
    dsimp only
    rw [(Engine.registering_spec hr).1]
    simp [Engine.submittedRow]
  | publish ok =>
    cases ok with
    | false => cases hrec
    | true =>
      dsimp only at hrec ⊢
      cases hs : w.sweep with
      | nil =>
        rw [hs] at hrec
        cases hrec
      | cons inv rest =>
        rw [hs] at hrec
        dsimp only at hrec
        split at hrec
        · rw [List.mem_singleton.mp hrec]
          simp [Engine.dispatchedRow, pendingRow]
        · cases hrec
  | result wr =>
    dsimp only at hrec ⊢
    rw [decide_eq_true_eq]
    split at hrec
    · rename_i ht
      obtain ⟨-, ps, sched, hps, hs, hl⟩ := update_of_takes ht env.order
      rw [hs] at hrec
      rcases List.mem_cons.mp hrec with rfl | hrec
      · rfl
      · obtain ⟨-, ps', inv, status, hps', rfl, hq⟩ := mem_collectPending hrec
        rw [hl] at hps'
        cases hps'
        have hlook : (w.step (env, .result wr)).engine.sched.schedulers.lookup wr.pipelineID =
            some (ps.update env.order (workerResultToInvocationResult wr)) := by
          refine ((Engine.taken_spec env wr w.engine ht).1 _).trans ?_
          rw [if_pos rfl, hps, Option.map_some]
        have hpid := (made_of_sound hnext hlook (hq.imp_right Or.inr)).1
        change inv.pipelineId = q ↔ _
        rw [hpid]
    · cases hrec

theorem rows_move (hw : w.Tidy q) (ha : w.Admits a) (hg : w.IsolationGuard q a)
    (hv : HidesRows q w.engine.store v.engine.store) (ht : touches q w a = false)
    (hwrites : v.writes a = w.writes a) :
    HidesRows q (w.step a).engine.store (v.step a).engine.store := by
  intro key
  rw [step_rows, step_rows, hwrites]
  refine hides_all_both (tidy_step hw ha hg) (fun rec hrec => ⟨writes_owned hw.sound ha rec hrec, ?_⟩)
    (fun key row hl => ⟨(hw.owned key row hl).1, (hw.owned key row hl).2.step hw.sound.stored⟩) hv key
  intro hq
  rw [(writes_touch hw.sound ha hrec).mp hq] at ht
  cases ht

theorem rows_stutter (hw : w.Tidy q) (ha : w.Admits a) (hg : w.IsolationGuard q a)
    (hv : HidesRows q w.engine.store v.engine.store) (ht : touches q w a = true) :
    HidesRows q (w.step a).engine.store v.engine.store := by
  intro key
  rw [step_rows]
  exact hides_all_left (tidy_step hw ha hg) (fun rec hrec => ⟨writes_owned hw.sound ha rec hrec,
    (writes_touch hw.sound ha hrec).mpr ht⟩)
    (fun key row hl => ⟨(hw.owned key row hl).1, (hw.owned key row hl).2.step hw.sound.stored⟩) hv key

end World
end Spade
