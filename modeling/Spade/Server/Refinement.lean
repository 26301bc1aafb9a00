import Spade.Server.PgStore

set_option autoImplicit false

/-!
# Both stores under the same calls

The stores hold the same rows as long as no upsert leaves a field empty that its row
has. They then answer alike, up to the order in which the database lists running
pipelines and to events that bring a taken id.
-/
namespace Spade

/-- Every field that an upsert takes over from the row is one that the row has not. -/
def InvocationRecord.Fills (existing rec : InvocationRecord) : Prop :=
  (rec.status = .other "" → existing.status = .other "") ∧
  (rec.dispatchedAt = none → existing.dispatchedAt = none) ∧
  (rec.completedAt = none → existing.completedAt = none) ∧
  (rec.logsPath = "" → existing.logsPath = "") ∧
  (rec.errorMessage = "" → existing.errorMessage = "") ∧
  (rec.outputHashesJSON = "" → existing.outputHashesJSON = "") ∧
  (rec.expansionJSON = "" → existing.expansionJSON = "")

instance (existing rec : InvocationRecord) : Decidable (existing.Fills rec) :=
  inferInstanceAs (Decidable (_ ∧ _))

theorem ite_eq_right_of_empty {α : Type} [DecidableEq α] (x y e : α) :
    (if x = e then y else x) = x ↔ (x = e → y = e) := by
  by_cases hx : x = e
  · rw [if_pos hx, hx]
    exact ⟨fun h _ => h, fun h => h rfl⟩
  · rw [if_neg hx]
    exact ⟨fun _ h => absurd h hx, fun _ => rfl⟩

theorem or_eq_left_iff {α : Type} (x y : Option α) : x.or y = x ↔ (x = none → y = none) := by
  cases x with
  | none => simp
  | some a => simp

/-- The two ways of writing make the same of a row that an upsert fills. -/
theorem mergeInvocation_eq_iff (existing rec : InvocationRecord) :
    MemStore.mergeInvocation existing rec = rec ↔ existing.Fills rec := by
  obtain ⟨id, pipelineID, blockID, blockName, mapIndex, status, dispatchedAt, completedAt,
    exitCode, logsPath, errorMessage, outputHashesJSON, expansionJSON⟩ := rec
  simp only [MemStore.mergeInvocation, InvocationRecord.Fills, InvocationRecord.mk.injEq,
    true_and, ite_eq_right_of_empty, or_eq_left_iff]

/-- The row that is inserted for a pipeline. -/
def PipelineRecord.withDefaults (now : Time) (p : PipelineRecord) : PipelineRecord :=
  let p := if p.submittedAt = 0 then { p with submittedAt := now } else p
  if p.status = .other "" then { p with status := .running } else p

theorem PipelineRecord.withDefaults_id (now : Time) (p : PipelineRecord) :
    (p.withDefaults now).id = p.id := by
  unfold withDefaults
  dsimp only
  split_ifs <;> rfl

theorem MemStore.insertPipeline_eq (now : Time) (p : PipelineRecord) (m : MemStore) :
    m.insertPipeline now p = if p.id ∈ m.pipelines then none else
      some { m with pipelines := m.pipelines.insert p.id (p.withDefaults now) } := by
  unfold insertPipeline
  change (if p.id ∈ m.pipelines then none else some { m with
    pipelines := m.pipelines.insert (p.withDefaults now).id (p.withDefaults now) }) = _
  rw [PipelineRecord.withDefaults_id]

theorem PgStore.insertPipeline_eq (now : Time) (p : PipelineRecord) (s : PgStore) :
    s.insertPipeline now p = if p.id ∈ s.pipelines then none else
      some { s with pipelines := s.pipelines.insert p.id (p.withDefaults now) } := by
  unfold insertPipeline
  change (if (p.withDefaults now).id ∈ s.pipelines then none else
    some { s with pipelines := s.pipelines.insert (p.withDefaults now).id (p.withDefaults now) }) = _
  rw [PipelineRecord.withDefaults_id]

theorem updates_eq (now : Time) (status : PipelineStatus) (rec : PipelineRecord) :
    PgStore.updates now status rec = { rec with
      status := status
      completedAt := if status.terminal then some now else rec.completedAt } := by
  unfold PgStore.updates PipelineStatus.terminal
  by_cases h : status = .complete ∨ status = .failed ∨ status = .cancelled
  · rw [if_pos h]
    simp [h]
  · rw [if_neg h]
    simp [h]

theorem updates_id (now : Time) (status : PipelineStatus) (rec : PipelineRecord) :
    (PgStore.updates now status rec).id = rec.id := by
  rw [updates_eq]

/-! Both stores, and a call that both serve. -/

structure Stores where
  mem : MemStore := {}
  pg : PgStore := {}

/-- `now` is what the clock of both shows. -/
structure StoreCall where
  now : Time
  op : StoreOp

theorem MemStore.perform_state (now : Time) (σ σ' : MapOrder) (m : MemStore) (op : StoreOp) :
    (m.perform now σ op).1 = (m.perform now σ' op).1 := by
  cases op <;> rfl

theorem PgStore.perform_state (now : Time) (σ σ' : MapOrder) (s : PgStore) (op : StoreOp) :
    (s.perform now σ op).1 = (s.perform now σ' op).1 := by
  cases op <;> rfl

namespace Stores

def step (s : Stores) (c : StoreCall) : Stores :=
  ⟨(s.mem.perform c.now .stored c.op).1, (s.pg.perform c.now .stored c.op).1⟩

/-- The results are equal, whatever the order of the maps and of the rows. -/
def SameReply (s : Stores) (c : StoreCall) : Prop :=
  ∀ σ τ, (s.mem.perform c.now σ c.op).2 = (s.pg.perform c.now τ c.op).2

/-- So are those of the loads that may follow. -/
def SameRows (s : Stores) : Prop := ∀ now id, s.SameReply ⟨now, .loadInvocation id⟩

def runningRows (s : PgStore) : List PipelineRecord :=
  (s.pipelines.items.map Prod.snd).filter fun rec => rec.status = .running

/-- The calls on which the stores agree. -/
def Agreeable (s : Stores) (c : StoreCall) : Prop :=
  match c.op with
  | .upsertInvocation rec =>
    ∀ existing ∈ s.pg.loadInvocation rec.id, existing.terminal = true ∨ existing.Fills rec
  | .appendEvent evt => s.pg.eventID evt ∉ s.pg.events
  | .loadActivePipelinesForRestart => (runningRows s.pg).length ≤ 1
  | _ => True

/-- The tables are the same, each row under its own id. -/
structure Alike (s : Stores) : Prop where
  pipelines : s.mem.pipelines = s.pg.pipelines
  invocations : s.mem.invocations = s.pg.invocations
  pipelineKeys : Table.Keyed PipelineRecord.id s.pg.pipelines
  invocationKeys : Table.Keyed InvocationRecord.id s.pg.invocations

theorem alike_start : Alike {} := by
  constructor
  · rfl
  · rfl
  · exact Table.keyed_empty _
  · exact Table.keyed_empty _

variable {s : Stores}

theorem Alike.sameRows (h : s.Alike) : s.SameRows := by
  intro now id σ τ
  have hl : s.mem.loadInvocation id = s.pg.loadInvocation id := by
    unfold MemStore.loadInvocation PgStore.loadInvocation
    rw [h.invocations]
  unfold MemStore.perform PgStore.perform
  dsimp only
  rw [hl]
  cases s.pg.loadInvocation id <;> rfl

theorem SameRows.loadInvocation (h : s.SameRows) (id : String) :
    s.mem.loadInvocation id = s.pg.loadInvocation id := by
  have hl := h 0 id .stored .stored
  dsimp only [MemStore.perform, PgStore.perform] at hl
  cases hm : s.mem.loadInvocation id with
  | none =>
    cases hp : s.pg.loadInvocation id with
    | none => rfl
    | some rec =>
      rw [hm, hp] at hl
      cases hl
  | some rec =>
    cases hp : s.pg.loadInvocation id with
    | none =>
      rw [hm, hp] at hl
      cases hl
    | some rec' =>
      rw [hm, hp] at hl
      cases hl
      rfl

/-! One operation at a time. -/

theorem Alike.upsert (h : s.Alike) {rec : InvocationRecord}
    (ha : ∀ existing ∈ s.pg.loadInvocation rec.id, existing.terminal = true ∨ existing.Fills rec) :
    (s.mem.upsertInvocation rec).invocations = (s.pg.upsertInvocation rec).invocations := by
  rw [MemStore.upsertInvocation_eq]
  change Table.upsert InvocationRecord.terminal MemStore.mergeInvocation rec.id rec
    s.mem.invocations = Table.upsert InvocationRecord.terminal PgStore.assignColumns rec.id rec
      s.pg.invocations
  rw [h.invocations]
  apply Table.upsert_congr
  intro existing hl hf
  rw [assignColumns_eq (h.invocationKeys _ _ hl), mergeInvocation_eq_iff]
  apply (ha existing hl).resolve_left
  simp [hf]

/-- An upsert that does not fill its row makes a difference to the next load. -/
theorem Alike.fills_of_upsert (h : s.Alike) {rec : InvocationRecord}
    (hs : (s.mem.upsertInvocation rec).invocations.lookup rec.id =
      (s.pg.upsertInvocation rec).invocations.lookup rec.id) :
    ∀ existing ∈ s.pg.loadInvocation rec.id,
      existing.terminal = true ∨ existing.Fills rec := by
  intro existing hl
  rw [MemStore.upsertInvocation_eq] at hs
  change (Table.upsert InvocationRecord.terminal MemStore.mergeInvocation rec.id rec
    s.mem.invocations).lookup rec.id = (Table.upsert InvocationRecord.terminal
      PgStore.assignColumns rec.id rec s.pg.invocations).lookup rec.id at hs
  have hl' : s.pg.invocations.lookup rec.id = some existing := hl
  rw [Table.lookup_upsert, Table.lookup_upsert, if_pos rfl, if_pos rfl, h.invocations, hl',
    Option.some_inj] at hs
  cases hf : existing.terminal with
  | true => exact .inl rfl
  | false =>
    rw [Table.written_put _ _ hf, Table.written_put _ _ hf,
      assignColumns_eq (h.invocationKeys _ _ hl), mergeInvocation_eq_iff] at hs
    exact .inr hs

theorem Alike.step (h : s.Alike) {c : StoreCall} (ha : s.Agreeable c) : (s.step c).Alike := by
  obtain ⟨now, op⟩ := c
  unfold Stores.step MemStore.perform PgStore.perform
  cases op with
  | insertPipeline p =>
    dsimp only
    rw [MemStore.insertPipeline_eq, PgStore.insertPipeline_eq, h.pipelines]
    by_cases hp : p.id ∈ s.pg.pipelines
    · rw [if_pos hp, if_pos hp]
      exact h
    · rw [if_neg hp, if_neg hp]
      have hk := h.pipelineKeys.insert (p.withDefaults now)
      rw [PipelineRecord.withDefaults_id] at hk
      exact ⟨rfl, h.invocations, hk, h.invocationKeys⟩
  | updatePipelineStatus id status =>
    dsimp only
    unfold MemStore.updatePipelineStatus PgStore.updatePipelineStatus
    rw [h.pipelines]
    cases hl : s.pg.pipelines.lookup id with
    | none => exact h
    | some rec =>
      have hk := h.pipelineKeys.insert (PgStore.updates now status rec)
      rw [updates_id, h.pipelineKeys _ _ hl, updates_eq] at hk
      dsimp only
      rw [updates_eq]
      exact ⟨rfl, h.invocations, hk, h.invocationKeys⟩
  | upsertInvocation rec =>
    change Alike ⟨s.mem.upsertInvocation rec, s.pg.upsertInvocation rec⟩
    have hm : (s.mem.upsertInvocation rec).pipelines = s.mem.pipelines := by
      rw [MemStore.upsertInvocation_eq]
    exact ⟨hm.trans h.pipelines, h.upsert ha, h.pipelineKeys,
      h.invocationKeys.upsert _ _ fun existing hid => hid⟩
  | appendEvent evt =>
    dsimp only
    unfold PgStore.appendEvent
    dsimp only
    split_ifs <;> exact ⟨h.pipelines, h.invocations, h.pipelineKeys, h.invocationKeys⟩
  | loadPipeline id =>
    dsimp only
    cases s.mem.loadPipeline id <;> cases s.pg.loadPipeline id <;> exact h
  | loadInvocation id =>
    dsimp only
    cases s.mem.loadInvocation id <;> cases s.pg.loadInvocation id <;> exact h
  | loadInvocations pid => exact h
  | loadActivePipelinesForRestart => exact h

/-! The replies. -/

theorem perm_runningRows (σ : MapOrder) (s : PgStore) :
    (((σ.range s.pipelines).map Prod.snd).filter fun rec => rec.status = .running).Perm
      (runningRows s) :=
  ((σ.range_perm s.pipelines).map Prod.snd).filter _

theorem perm_eq_of_length_le_one {α : Type} {l l' : List α} (h : l.Perm l')
    (hl : l'.length ≤ 1) : l = l' := by
  match l', hl with
  | [], _ => exact h.eq_nil
  | [a], _ => exact List.perm_singleton.mp h

theorem insertionSort_of_length_le_one {α : Type} (r : α → α → Prop) [DecidableRel r]
    {l : List α} (hl : l.length ≤ 1) : l.insertionSort r = l := by
  match l, hl with
  | [], _ => rfl
  | [a], _ => rfl

theorem Alike.sameActive (h : s.Alike) (hl : (runningRows s.pg).length ≤ 1)
    (σ τ : MapOrder) :
    s.mem.loadActivePipelinesForRestart σ = s.pg.loadActivePipelinesForRestart τ := by
  have hload (pid : UUID) : s.mem.loadInvocations pid = s.pg.loadInvocations pid := by
    unfold MemStore.loadInvocations PgStore.loadInvocations
    rw [h.invocations]
  have hσ := perm_eq_of_length_le_one (perm_runningRows σ s.pg) hl
  have hτ := perm_eq_of_length_le_one (perm_runningRows τ s.pg) hl
  unfold MemStore.loadActivePipelinesForRestart PgStore.loadActivePipelinesForRestart
  dsimp only
  rw [h.pipelines, hσ, hτ]
  simp only [hload]
  apply insertionSort_of_length_le_one
  rwa [List.length_map]

theorem Alike.sameReply (h : s.Alike) {c : StoreCall} (ha : s.Agreeable c) : s.SameReply c := by
  obtain ⟨now, op⟩ := c
  intro σ τ
  cases op with
  | insertPipeline p =>
    dsimp only [MemStore.perform, PgStore.perform]
    rw [MemStore.insertPipeline_eq, PgStore.insertPipeline_eq, h.pipelines]
    split_ifs <;> rfl
  | updatePipelineStatus id status =>
    dsimp only [MemStore.perform, PgStore.perform]
    unfold MemStore.updatePipelineStatus PgStore.updatePipelineStatus
    rw [h.pipelines]
    cases s.pg.pipelines.lookup id <;> rfl
  | upsertInvocation rec => rfl
  | appendEvent evt =>
    dsimp only [MemStore.perform, PgStore.perform]
    unfold PgStore.appendEvent
    rw [if_neg ha]
  | loadPipeline id =>
    dsimp only [MemStore.perform, PgStore.perform]
    unfold MemStore.loadPipeline PgStore.loadPipeline
    rw [h.pipelines]
    cases s.pg.pipelines.lookup id <;> rfl
  | loadInvocation id => exact h.sameRows now id σ τ
  | loadInvocations pid =>
    dsimp only [MemStore.perform, PgStore.perform]
    unfold MemStore.loadInvocations PgStore.loadInvocations
    rw [h.invocations]
  | loadActivePipelinesForRestart =>
    dsimp only [MemStore.perform, PgStore.perform]
    rw [h.sameActive ha σ τ]

/-! Where the replies agree. -/

def reversed : MapOrder := ⟨List.reverse, List.reverse_perm⟩

theorem length_le_one_of_reverse {α : Type} {l : List α} (hn : l.Nodup) (h : l.reverse = l) :
    l.length ≤ 1 := by
  match l with
  | [] => exact Nat.zero_le 1
  | [a] => exact le_rfl
  | a :: b :: l =>
    exfalso
    have hhead := congrArg List.head? h
    rw [List.head?_reverse, List.getLast?_cons_cons, List.head?_cons] at hhead
    exact (List.nodup_cons.mp hn).1 (List.mem_of_getLast? hhead)

theorem Alike.runningRows_le (h : s.Alike) {now : Time}
    (hs : s.SameReply ⟨now, .loadActivePipelinesForRestart⟩) : (runningRows s.pg).length ≤ 1 := by
  have hstored := hs .stored .stored
  rw [hs .stored reversed] at hstored
  dsimp only [PgStore.perform] at hstored
  have hrows := congrArg (List.map Prod.fst) (Reply.active.inj hstored)
  unfold PgStore.loadActivePipelinesForRestart at hrows
  rw [List.map_map, List.map_map] at hrows
  have hid : (Prod.fst ∘ fun rec : PipelineRecord => (rec, s.pg.loadInvocations rec.id)) = id :=
    rfl
  rw [hid, List.map_id, List.map_id] at hrows
  unfold MapOrder.range at hrows
  apply length_le_one_of_reverse
  · exact h.pipelineKeys.values_nodup.filter _
  · unfold runningRows
    rw [← List.filter_reverse, ← List.map_reverse]
    exact hrows

theorem Alike.agreeable (h : s.Alike) {c : StoreCall} (hs : s.SameReply c)
    (hr : (s.step c).SameRows) : s.Agreeable c := by
  obtain ⟨now, op⟩ := c
  cases op with
  | upsertInvocation rec =>
    exact h.fills_of_upsert (hr.loadInvocation rec.id)
  | appendEvent evt =>
    intro hmem
    have hfail := hs .stored .stored
    dsimp only [MemStore.perform, PgStore.perform] at hfail
    unfold PgStore.appendEvent at hfail
    rw [if_pos hmem] at hfail
    cases hfail
  | loadActivePipelinesForRestart => exact h.runningRows_le hs
  | insertPipeline p => trivial
  | updatePipelineStatus id status => trivial
  | loadPipeline id => trivial
  | loadInvocation id => trivial
  | loadInvocations pid => trivial

theorem replies_agree (calls : List StoreCall) :
    Runs.Along step (fun s c => s.SameReply c ∧ (s.step c).SameRows) {} calls ↔
      Runs.Along step Agreeable {} calls := by
  refine Runs.along_iff_along step (I := fun _ => True) (P := Alike) (R := fun _ _ => True)
    (fun _ _ _ _ => trivial) ?_ ?_ trivial alike_start ?_
  · intro s c _ h _ hs
    exact h.step (h.agreeable hs.1 hs.2)
  · intro s c _ h _
    constructor
    · exact fun hs => h.agreeable hs.1 hs.2
    · exact fun ha => ⟨h.sameReply ha, (h.step ha).sameRows⟩
  · exact Runs.along_of_prefixes step fun _ _ _ _ => trivial

/-- The result of an invocation leaves out when it was dispatched. -/
def partialUpsert : List StoreCall :=
  let row : InvocationRecord := ⟨"a", 1, 1, "a", none, .dispatched, some 5, none, 0, "", "", "", ""⟩
  [⟨5, .upsertInvocation row⟩,
    ⟨6, .upsertInvocation { row with
      status := .complete
      dispatchedAt := none
      completedAt := some 6 }⟩]

theorem replies_agree_fails : ¬∀ calls : List StoreCall,
    Runs.Along step SameReply {} calls := by
  intro h
  have hrun := h (partialUpsert ++ [⟨7, .loadInvocation "a"⟩])
  rw [Runs.along_append] at hrun
  have hload := hrun.2.1 .stored .stored
  revert hload
  decide

end Stores
end Spade
