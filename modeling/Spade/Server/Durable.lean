import Spade.Core.Rehydrate
import Spade.Server.Halt
import Spade.Server.Hiding

set_option autoImplicit false

/-!
# What is kept of the running pipelines

A restart sees the rows and the stored bodies. As long as only `Complete` results are
taken for running pipelines, in an order that the rows keep, these determine the
scheduler.
-/
namespace Spade
open UUIDPackage
variable [UUIDPackage] [Encoding]

namespace World

/-- The pipeline is one that a restart brings back. -/
def active (w : World) (pid : UUID) : Bool :=
  (w.engine.store.loadPipeline pid).any fun rec => rec.status = .running

def launched (w : World) (pid : UUID) : List String :=
  (w.jobsOf pid).map fun j => j.assignment.invocationID

/-- The invocation waits in the sweep or is with the workers. -/
def Out (w : World) (pid : UUID) (inv : BlockInvocation) : Prop :=
  inv ∈ w.handedOut ∧ inv.pipelineId = pid ∧
    (inv ∈ w.sweep ∨ inv.invocationID ∈ w.launched pid)

/-- No result of the invocation has been applied. -/
def InFlight (w : World) (pid : UUID) (inv : BlockInvocation) : Prop :=
  w.Out pid inv ∧ ∀ wr ∈ w.applied, wr.pipelineID = pid → wr.invocationID ≠ inv.invocationID

/-- The rows keep the completion of a block in an order that `Rehydrate` can replay. -/
def Persists (w : World) (ps : SinglePipelineScheduler) (wr : WorkerResult) : Prop :=
  (∀ row ∈ w.engine.store.loadInvocation wr.invocationID,
    row.status ≠ .complete ∧ row.status ≠ .error) ∧
  ∀ b ∈ ps.pipeline.blocks, b.id = (workerResultToInvocationResult wr).id →
    ∀ ref ∈ b.inputs, string ref.depID ≤ string b.id

def RecoveryGuard (w : World) (a : Env × Op) : Prop :=
  match a.2 with
  | .submit pp body _ => ∀ x ∈ w.engine.registering a.1 pp body,
      ∃ p, Encoding.yamlUnmarshal x.2 = some p ∧ p.blocks = x.1.blocks ∧
        (p.id = UUID.nil ∨ p.id = x.1.id)
  | .publish ok => ok = true ∨ ∀ inv ∈ w.sweep.tail, w.active inv.pipelineId = false
  | .result wr => w.engine.takes wr = true → w.active wr.pipelineID = true →
      ∀ ps ∈ w.engine.sched.schedulers.lookup wr.pipelineID, wr.status = .error ∨
        wr.status = .complete ∧ (ps.idle = true ∨ w.Persists ps wr)
  | _ => True

instance (w : World) (ps : SinglePipelineScheduler) (wr : WorkerResult) :
    Decidable (w.Persists ps wr) :=
  inferInstanceAs (Decidable (_ ∧ _))

end World

/-! The rows of one pipeline. -/

/-- The rows of pipeline `pid` tell which blocks are completed, and nothing else. -/
structure MemStore.Rowed (pid : UUID) (done : UUID → Prop) (m : MemStore) : Prop where
  own : ∀ key row, m.invocations.lookup key = some row → row.pipelineID = pid →
    key = string row.blockID ∧ (row.status = .complete → done row.blockID) ∧
      row.status ≠ .error ∧ row.status ≠ .map ∧ row.status ≠ .reduce
  kept : ∀ k, done k → ∃ row, m.invocations.lookup (string k) = some row ∧ row.pipelineID = pid ∧
    row.blockID = k ∧ row.status = .complete

namespace MemStore
variable {pid : UUID} {done : UUID → Prop} {m m' : MemStore} {rec : InvocationRecord}

omit [Encoding] in
theorem Rowed.congr (h : m.Rowed pid done) (he : m'.invocations = m.invocations) :
    m'.Rowed pid done :=
  ⟨by rw [he]; exact h.own, by rw [he]; exact h.kept⟩

omit [UUIDPackage] [Encoding] in
/-- A terminal row stays; any other takes over the new status. -/
theorem upserted_status (existing : Option InvocationRecord) (hrec : rec.status ≠ .other "") :
    (∃ e, existing = some e ∧ (e.status = .complete ∨ e.status = .error) ∧
      upserted existing rec = e) ∨
    ((∀ e, existing = some e → e.status ≠ .complete ∧ e.status ≠ .error) ∧
      (upserted existing rec).pipelineID = rec.pipelineID ∧
      (upserted existing rec).blockID = rec.blockID ∧
      (upserted existing rec).status = rec.status) := by
  unfold upserted
  cases existing with
  | none => exact Or.inr ⟨fun _ h => (by cases h), rfl, rfl, rfl⟩
  | some e =>
    by_cases he : e.status = .complete ∨ e.status = .error
    · exact Or.inl ⟨e, rfl, he, if_pos he⟩
    · refine Or.inr ⟨?_, ?_⟩
      · rintro _ ⟨⟩
        exact not_or.mp he
      · dsimp only
        rw [if_neg he]
        exact ⟨rfl, rfl, if_neg hrec⟩

omit [Encoding] in
/-- A row that tells nothing about completion. -/
theorem Rowed.upsert (h : m.Rowed pid done)
    (hrec : rec.pipelineID = pid → rec.id = string rec.blockID ∧
      (rec.status = .pending ∨ rec.status = .dispatched)) :
    (m.upsertInvocation rec).Rowed pid done := by
  constructor
  · intro key row hl hpid
    rw [upsert_lookup] at hl
    split at hl
    · rename_i hk
      cases hl
      by_cases hown : rec.pipelineID = pid
      · obtain ⟨hid, hst⟩ := hrec hown
        have hne : rec.status ≠ .other "" := by rcases hst with h | h <;> simp [h]
        rcases upserted_status (m.invocations.lookup rec.id) hne with
          ⟨e, he, -, heq⟩ | ⟨-, -, hblock, hstatus⟩
        · rw [heq] at hpid ⊢
          exact h.own key e (hk ▸ he) hpid
        · rw [hblock, hstatus, hk, hid]
          rcases hst with h | h <;> simp [h]
      · rcases upserted_cases (m.invocations.lookup rec.id) rec with he | ⟨-, hp, -⟩
        · exact h.own key _ (hk ▸ he) hpid
        · exact absurd (hp.symm.trans hpid) hown
    · exact h.own key row hl hpid
  · intro k hk
    obtain ⟨row, hl, hpid, hblock, hst⟩ := h.kept k hk
    refine ⟨row, ?_, hpid, hblock, hst⟩
    rw [upsert_lookup]
    split
    · rename_i hkey
      rw [← hkey, hl]
      simp [upserted, hst]
    · exact hl

omit [Encoding] in
/-- The row of a completion. -/
theorem Rowed.complete (h : m.Rowed pid done) (hid : rec.id = string rec.blockID)
    (hpid : rec.pipelineID = pid) (hst : rec.status = .complete)
    (hopen : ∀ row ∈ m.loadInvocation rec.id, row.status ≠ .complete ∧ row.status ≠ .error) :
    (m.upsertInvocation rec).Rowed pid fun k => done k ∨ k = rec.blockID := by
  have hne : rec.status ≠ .other "" := by simp [hst]
  have hnew : (upserted (m.invocations.lookup rec.id) rec).pipelineID = rec.pipelineID ∧
      (upserted (m.invocations.lookup rec.id) rec).blockID = rec.blockID ∧
      (upserted (m.invocations.lookup rec.id) rec).status = rec.status := by
    rcases upserted_status (m.invocations.lookup rec.id) hne with ⟨e, he, hterm, -⟩ | ⟨-, hnew⟩
    · obtain ⟨hc, herr⟩ := hopen e he
      exact absurd hterm (not_or.mpr ⟨hc, herr⟩)
    · exact hnew
  obtain ⟨hp, hb, hs⟩ := hnew
  constructor
  · intro key row hl hrow
    rw [upsert_lookup] at hl
    split at hl
    · rename_i hk
      cases hl
      rw [hb, hs, hst, hk, hid]
      exact ⟨rfl, fun _ => Or.inr rfl, by simp, by simp, by simp⟩
    · obtain ⟨hkey, hdone, hrest⟩ := h.own key row hl hrow
      exact ⟨hkey, fun hc => Or.inl (hdone hc), hrest⟩
  · intro k hk
    rw [upsert_lookup]
    by_cases hkey : string k = rec.id
    · have hkb : k = rec.blockID := string_injective (hkey.trans hid)
      rw [if_pos hkey]
      exact ⟨_, rfl, hp.trans hpid, hb.trans hkb.symm, hs.trans hst⟩
    · rw [if_neg hkey]
      refine h.kept k (hk.resolve_right ?_)
      rintro rfl
      exact hkey hid.symm

end MemStore

namespace World
variable {w w' : World} {a : Env × Op} {pid : UUID} {rec : PipelineRecord}
  {ps ps' : SinglePipelineScheduler}

/-- The invocations of a pipeline from the queue on, each by its text. -/
def tokens (w : World) (pid : UUID) (ps : SinglePipelineScheduler) : List String :=
  ps.executableBlocks.map BlockInvocation.invocationID ++
    ((w.sweep.filter fun inv => inv.pipelineId = pid).map BlockInvocation.invocationID ++
      w.launched pid)

/-- What holds of a running pipeline with its record and its scheduler. -/
structure Kept (w : World) (pid : UUID) (rec : PipelineRecord) (ps : SinglePipelineScheduler) :
    Prop where
  live : ps.cancelled = false
  split : ps.Split ps.pipeline (w.Out pid)
  once : (w.tokens pid ps).Nodup
  reported : ∀ k, k ∈ ps.completedBlocks ↔
    ∃ wr ∈ w.applied, wr.pipelineID = pid ∧ wr.invocationID = string k
  launched : ∀ k ∈ ps.completedBlocks, string k ∈ w.launched pid
  sorted : ∀ k ∈ ps.completedBlocks, ∀ b ∈ ps.pipeline.blocks, b.id = k → ∀ ref ∈ b.inputs,
    ref.depID ∈ ps.completedBlocks ∧ string ref.depID ≤ string k
  rows : w.engine.store.Rowed pid fun k => k ∈ ps.completedBlocks
  body : ∃ p, Encoding.yamlUnmarshal rec.yaml = some p ∧ p.blocks = ps.pipeline.blocks ∧
    (p.id = UUID.nil ∨ p.id = pid)

/-- The invariant of a run that meets the guard. -/
structure Durable (w : World) : Prop where
  sound : w.Sound
  owned : ∀ key row, w.engine.store.invocations.lookup key = some row → row.id = key ∧ w.Owns row
  records : ∀ pid rec, w.engine.store.pipelines.lookup pid = some rec → rec.id = pid
  kept : ∀ pid rec, w.engine.store.pipelines.lookup pid = some rec → rec.status = .running →
    ∃ ps, w.engine.sched.schedulers.lookup pid = some ps ∧ w.Kept pid rec ps

/-- Invocations move on from the queue to the sweep and the workers. -/
theorem Kept.move (h : w.Kept pid rec ps)
    (hps : ps' = { ps with executableBlocks := ps'.executableBlocks })
    (hheld : ∀ inv, inv ∈ ps'.executableBlocks ∨ w'.Out pid inv ↔
      inv ∈ ps.executableBlocks ∨ w.Out pid inv)
    (honce : (w'.tokens pid ps').Perm (w.tokens pid ps))
    (happ : ∀ wr, wr.pipelineID = pid → (wr ∈ w'.applied ↔ wr ∈ w.applied))
    (hjobs : ∀ id ∈ w.launched pid, id ∈ w'.launched pid)
    (hrows : w'.engine.store.Rowed pid fun k => k ∈ ps.completedBlocks) :
    w'.Kept pid rec ps' := by
  have hc : ps'.completedBlocks = ps.completedBlocks := by rw [hps]
  have hp : ps'.pipeline = ps.pipeline := by rw [hps]
  refine ⟨by rw [hps]; exact h.live, ?_, honce.nodup_iff.mpr h.once, fun k => ?_,
    fun k hk => hjobs _ (h.launched k (hc ▸ hk)), ?_, hc ▸ hrows, hp ▸ h.body⟩
  · rw [hp]
    exact h.split.frame hc (by rw [hps]) hheld
  · rw [hc, h.reported]
    constructor
    · rintro ⟨wr, hwr, hpid, hid⟩
      exact ⟨wr, (happ wr hpid).mpr hwr, hpid, hid⟩
    · rintro ⟨wr, hwr, hpid, hid⟩
      exact ⟨wr, (happ wr hpid).mp hwr, hpid, hid⟩
  · rw [hc, hp]
    exact h.sorted

/-- A step that leaves the queue, the sweep and the jobs of the pipeline alone. -/
theorem Kept.stay (h : w.Kept pid rec ps) (hs : w'.sweep = w.sweep)
    (hh : w'.handedOut = w.handedOut) (hp : w'.published = w.published)
    (happ : ∀ wr, wr.pipelineID = pid → (wr ∈ w'.applied ↔ wr ∈ w.applied))
    (hrows : w'.engine.store.Rowed pid fun k => k ∈ ps.completedBlocks) :
    w'.Kept pid rec ps := by
  have hl : w'.launched pid = w.launched pid := by rw [World.launched, World.launched, jobsOf, jobsOf, hp]
  refine h.move rfl (fun inv => ?_) ?_ happ (fun id hid => hl ▸ hid) hrows
  · unfold Out
    rw [hs, hh, hl]
  · unfold tokens
    rw [hs, hl]

/-- Writes that tell nothing about completion keep the rows. -/
theorem rowed_step {done : UUID → Prop} (h : w.engine.store.Rowed pid done)
    (hrec : ∀ rec ∈ w.writes a, rec.pipelineID = pid → rec.id = string rec.blockID ∧
      (rec.status = .pending ∨ rec.status = .dispatched)) :
    (w.step a).engine.store.Rowed pid done :=
  (MemStore.upsertAll_induct (P := fun m => m.Rowed pid done) h
    fun _ hm rec hr => hm.upsert (hrec rec hr)).congr (step_rows w a)

/-- So do the writes of other pipelines. -/
theorem rowed_other {done : UUID → Prop} (hw : w.Sound) (ha : w.Admits a)
    (ht : touches pid w a = false) (h : w.engine.store.Rowed pid done) :
    (w.step a).engine.store.Rowed pid done := by
  refine rowed_step h fun rec hr hpid => ?_
  rw [(writes_touch hw ha hr).mp hpid] at ht
  cases ht

/-! What the invocations of a running pipeline look like. -/

omit [Encoding] in
theorem out_text (hsplit : ps.Split ps.pipeline (w.Out pid)) {inv : BlockInvocation}
    (h : inv ∈ ps.executableBlocks ∨ w.Out pid inv) :
    inv.mapIndex = none ∧ inv.invocationID = string inv.id := by
  obtain ⟨b, -, rfl, -⟩ := hsplit.released inv h
  exact ⟨rfl, rfl⟩

omit [Encoding] in
/-- What has been handed out under the text of such an invocation is the invocation. -/
theorem out_unique (hw : w.Sound) (hps : w.engine.sched.schedulers.lookup pid = some ps)
    (hsplit : ps.Split ps.pipeline (w.Out pid)) {inv i : BlockInvocation} (h : w.Out pid inv)
    (hi : i ∈ w.handedOut) (hpid : i.pipelineId = pid)
    (heq : i.invocationID = inv.invocationID) : i = inv := by
  obtain ⟨manifests, t, ht⟩ := hw.tracks pid ps hps
  have hmade := ht.formed.made i (Or.inr (Or.inl ((ht.handed i).mpr ⟨hi, hpid⟩)))
  obtain ⟨⟨c, hc, hic⟩, hidx⟩ := hmade
  obtain ⟨b, hb, rfl, -⟩ := hsplit.released inv (Or.inr h)
  obtain ⟨hid, hnone, -⟩ := parse_invocationID i hidx
  have hparse := parse_plain b.id
  rw [heq] at hid hnone
  change (parseInvocationIDForScheduler (string b.id)).1 = i.id at hid
  change (parseInvocationIDForScheduler (string b.id)).2.1 = none ↔ i.mapIndex = none at hnone
  rw [hparse] at hid hnone
  have hci : i.id = c.id := by rw [hic]; rfl
  have hcb : c = b := unique_of_nodup ht.accepted.nodup hc hb (hci.symm.trans hid.symm)
  rw [hic, hnone.mp rfl, hcb]

end World
end Spade
