import Spade.Lib.Runs
import Spade.Server.PgStore
import Spade.Server.Rows
import Spade.Server.Samples

set_option autoImplicit false

/-!
# The writes of the two loops

The dispatch loop stores that an invocation is dispatched after the job is published,
and the result loop stores a result and the rows of a fan-out, both without the lock.
Their writes interleave in any way. A row with the result of a map or a reduce is not
protected from the other loop.
-/
namespace Spade

/-- Either store. -/
inductive Store where
  | mem (m : MemStore)
  | pg (s : PgStore)

namespace Store

def upsertInvocation (rec : InvocationRecord) : Store → Store
  | .mem m => .mem (m.upsertInvocation rec)
  | .pg s => .pg (s.upsertInvocation rec)

def loadInvocation (id : String) : Store → Option InvocationRecord
  | .mem m => m.loadInvocation id
  | .pg s => s.loadInvocation id

/-- What the store makes of a row that is there and a new one. -/
def put : Store → InvocationRecord → InvocationRecord → InvocationRecord
  | .mem _ => MemStore.mergeInvocation
  | .pg _ => PgStore.assignColumns

theorem lookup_upsert (s : Store) (rec : InvocationRecord) (id : String) :
    (s.upsertInvocation rec).loadInvocation id =
      if id = rec.id then
        some (Table.written InvocationRecord.terminal s.put (s.loadInvocation rec.id) rec)
      else s.loadInvocation id := by
  cases s with
  | mem m =>
    change (m.upsertInvocation rec).invocations.lookup id = _
    rw [MemStore.upsertInvocation_eq]
    exact Table.lookup_upsert _ _ _ _ _ _
  | pg s => exact Table.lookup_upsert _ _ _ _ _ _

end Store

namespace InvocationRecord

/-- What a result records. -/
def outcome (rec : InvocationRecord) : InvocationStatus × Int × String × String :=
  (rec.status, rec.exitCode, rec.outputHashesJSON, rec.expansionJSON)

def hasResult (rec : InvocationRecord) : Bool :=
  rec.status = .complete ∨ rec.status = .error ∨ rec.status = .map ∨ rec.status = .reduce

theorem hasResult_congr {rec rec' : InvocationRecord} (h : rec'.outcome = rec.outcome) :
    rec'.hasResult = rec.hasResult := by
  have hstatus : rec'.status = rec.status := congrArg Prod.fst h
  unfold hasResult
  rw [hstatus]

end InvocationRecord

namespace Store
variable {s : Store}

/-- The results that are recorded stay. -/
def Keeps (s s' : Store) : Prop :=
  ∀ id, ∀ rec ∈ s.loadInvocation id, rec.hasResult = true →
    ∃ rec' ∈ s'.loadInvocation id, rec'.outcome = rec.outcome

theorem Keeps.refl (s : Store) : s.Keeps s := fun _ rec hrec _ => ⟨rec, hrec, rfl⟩

theorem Keeps.trans {s s' s'' : Store} (h : s.Keeps s') (h' : s'.Keeps s'') : s.Keeps s'' := by
  intro id rec hrec hres
  obtain ⟨rec', hrec', ho⟩ := h id rec hrec hres
  obtain ⟨rec'', hrec'', ho'⟩ := h' id rec' hrec' (by rw [InvocationRecord.hasResult_congr ho, hres])
  exact ⟨rec'', hrec'', ho'.trans ho⟩

/-- The new row has the result of the old one; `MemStore` takes over what it leaves empty. -/
def Repeats : Store → InvocationRecord → InvocationRecord → Prop
  | .mem _, old, rec =>
    (rec.status = .other "" ∨ rec.status = old.status) ∧ rec.exitCode = old.exitCode ∧
      (rec.outputHashesJSON = "" ∨ rec.outputHashesJSON = old.outputHashesJSON) ∧
      (rec.expansionJSON = "" ∨ rec.expansionJSON = old.expansionJSON)
  | .pg _, old, rec => rec.outcome = old.outcome

/-- The write does not meet the result of a map or a reduce, or it repeats it. -/
def Harmless (s : Store) (rec : InvocationRecord) : Prop :=
  ∀ old ∈ s.loadInvocation rec.id, old.status = .map ∨ old.status = .reduce → s.Repeats old rec

theorem ite_eq_iff_of_empty {α : Type} [DecidableEq α] (x y e : α) :
    (if x = e then y else x) = y ↔ x = e ∨ x = y := by
  by_cases hx : x = e
  · simp [hx]
  · simp [hx]

theorem repeats_iff (s : Store) (old rec : InvocationRecord) :
    (s.put old rec).outcome = old.outcome ↔ s.Repeats old rec := by
  cases s with
  | mem m =>
    simp only [put, Repeats, InvocationRecord.outcome, MemStore.mergeInvocation, Prod.mk.injEq,
      ite_eq_iff_of_empty]
  | pg s => exact Iff.rfl

theorem keeps_upsert_iff (s : Store) (rec : InvocationRecord) :
    s.Keeps (s.upsertInvocation rec) ↔ s.Harmless rec := by
  constructor
  · intro h old hold hres
    have hold' : s.loadInvocation rec.id = some old := hold
    obtain ⟨rec', hrec', ho⟩ := h rec.id old hold (by
      unfold InvocationRecord.hasResult
      rcases hres with hres | hres <;> simp [hres])
    rw [lookup_upsert, if_pos rfl, hold', Option.mem_some_iff] at hrec'
    have hf : old.terminal = false := by
      unfold InvocationRecord.terminal
      rcases hres with hres | hres <;> simp [hres]
    rw [Table.written_put _ _ hf] at hrec'
    rw [← repeats_iff, ← ho, ← hrec']
  · intro h id old hold hres
    rw [lookup_upsert]
    by_cases hid : id = rec.id
    · subst hid
      have hold' : s.loadInvocation rec.id = some old := hold
      rw [if_pos rfl, hold']
      refine ⟨_, rfl, ?_⟩
      cases hf : old.terminal with
      | true => rw [Table.written_frozen _ _ hf]
      | false =>
        rw [Table.written_put _ _ hf, repeats_iff]
        apply h old hold
        unfold InvocationRecord.hasResult at hres
        unfold InvocationRecord.terminal at hf
        rw [decide_eq_true_eq, ← or_assoc] at hres
        exact hres.resolve_left (decide_eq_false_iff_not.mp hf)
    · rw [if_neg hid]
      exact ⟨old, hold, rfl⟩

end Store
/-! The two loops. -/

inductive Loop where
  | dispatch | results
  deriving DecidableEq

/-- A result as `applyResult` persists it: the name that it found on the row, and the
invocations of the fan-out. -/
structure Applied where
  env : Env
  wr : WorkerResult
  blockName : String
  ready : List BlockInvocation := []
  pending : List BlockInvocation := []

/-- The store, and the rows that the loops have still to write. -/
structure Writers where
  store : Store
  dispatch : List InvocationRecord
  results : List InvocationRecord

namespace Writers

/-- The loop whose turn it is makes its next write. -/
def step (w : Writers) : Loop → Writers
  | .dispatch =>
    match w.dispatch with
    | [] => w
    | rec :: rest => { w with
        store := w.store.upsertInvocation rec
        dispatch := rest }
  | .results =>
    match w.results with
    | [] => w
    | rec :: rest => { w with
        store := w.store.upsertInvocation rec
        results := rest }

def next (w : Writers) : Loop → Option InvocationRecord
  | .dispatch => w.dispatch.head?
  | .results => w.results.head?

def Harmless (w : Writers) (turn : Loop) : Prop := ∀ rec ∈ w.next turn, w.store.Harmless rec

/-- What is recorded at some time stays until every later time. -/
def NeverRegresses (w : Writers) (turns : List Loop) : Prop :=
  ∀ l₁ l₂ l₃, turns = l₁ ++ l₂ ++ l₃ →
    (Runs.run step w l₁).store.Keeps (Runs.run step w (l₁ ++ l₂)).store

theorem step_store (w : Writers) (turn : Loop) :
    (w.step turn).store = match w.next turn with
      | none => w.store
      | some rec => w.store.upsertInvocation rec := by
  cases turn with
  | dispatch =>
    unfold step next
    cases w.dispatch <;> rfl
  | results =>
    unfold step next
    cases w.results <;> rfl

theorem keeps_step_iff (w : Writers) (turn : Loop) :
    w.store.Keeps (w.step turn).store ↔ w.Harmless turn := by
  rw [step_store]
  unfold Harmless
  cases w.next turn with
  | none =>
    constructor
    · intro _ rec hrec
      cases hrec
    · exact fun _ => Store.Keeps.refl _
  | some rec =>
    dsimp only
    rw [Store.keeps_upsert_iff]
    constructor
    · intro h rec' hrec'
      cases hrec'
      exact h
    · exact fun h => h rec rfl

theorem keeps_between_iff (w : Writers) (turns : List Loop) :
    w.NeverRegresses turns ↔ Runs.Along step Harmless w turns := by
  have h := Runs.along_iff_between step (R := fun w w' : Writers => w.store.Keeps w'.store)
    (fun w => Store.Keeps.refl w.store) (fun _ _ _ h h' => h.trans h') w turns
  simp only [keeps_step_iff] at h
  exact h.symm

end Writers

section
variable [UUIDPackage] [Encoding]

/-- The row of the result and those of the fan-out. -/
def Applied.rows (a : Applied) : List InvocationRecord :=
  { Engine.resultRow a.env a.wr {} with blockName := a.blockName } ::
    (a.ready.map (pendingRow .ready) ++ a.pending.map (pendingRow .pending))

/-- The two loops with what was published and what was applied. -/
def Writers.start (store : Store) (published : List (Env × BlockInvocation))
    (applied : List Applied) : Writers where
  store := store
  dispatch := published.map fun x => Engine.dispatchedRow x.1 x.2
  results := applied.flatMap Applied.rows

omit [UUIDPackage] [Encoding] in
theorem Writers.run_results (m : MemStore) (dispatch recs : List InvocationRecord) :
    (Runs.run step ⟨.mem m, dispatch, recs⟩ (List.replicate recs.length .results)).store =
      .mem (m.upsertAll recs) := by
  induction recs generalizing m with
  | nil => rfl
  | cons rec recs ih =>
    rw [List.length_cons, List.replicate_succ, Runs.run_cons]
    exact ih (m.upsertInvocation rec)

/-- Left alone, the result loop writes what `applyResult` persists. -/
theorem Writers.results_alone (m : MemStore) (a : Applied)
    (hname : a.blockName =
      ((m.loadInvocation a.wr.invocationID).map InvocationRecord.blockName).getD "") :
    ∃ m', (Runs.run step (start (.mem m) [] [a])
        (List.replicate a.rows.length .results)).store = .mem m' ∧
      m'.invocations = (Engine.persistResult a.env a.wr
        (a.ready.map (pendingRow .ready) ++ a.pending.map (pendingRow .pending)) m).invocations := by
  have hrow : { Engine.resultRow a.env a.wr {} with blockName := a.blockName } =
      Engine.resultRow a.env a.wr m := by
    rw [hname]
    rfl
  have hrows : [a].flatMap Applied.rows = a.rows := by
    rw [List.flatMap_singleton]
  refine ⟨m.upsertAll a.rows, ?_, ?_⟩
  · unfold start
    rw [hrows]
    exact run_results m [] a.rows
  · unfold Applied.rows
    rw [hrow]
    rfl

/-- A recorded result never regresses, exactly if no write finds the result of a map or a
reduce on its row other than to repeat it. -/
theorem Writers.never_regresses (store : Store) (published : List (Env × BlockInvocation))
    (applied : List Applied) (turns : List Loop) :
    (start store published applied).NeverRegresses turns ↔
      Runs.Along step Harmless (start store published applied) turns :=
  keeps_between_iff _ _

end
end Spade

namespace Spade.Writers
open Samples Uuid

/-- The map invocation of `mapped`. -/
def mapInvocation : BlockInvocation where
  id := blockID 2
  blockId := "split"
  pipelineId := mapped.id
  inputs := [{ id := blockID 1 }]
  arguments := none

/-- The block of `mapped` as the submission stores it, its dispatch and its expansion. -/
def fastWorker : Writers :=
  start (.pg (PgStore.upsertInvocation (pendingRow .pending mapInvocation) {}))
    [(env, mapInvocation)]
    [⟨env, { result mapped (string (blockID 2)) .map with expansion := some (expansion 2) },
      "split", [], []⟩]

/-- The expansion is stored before the row says that the job is dispatched, and is lost. -/
theorem never_regresses_fails :
    ¬∀ (store : Store) (published : List (Env × BlockInvocation)) (applied : List Applied)
      (turns : List Loop), (start store published applied).NeverRegresses turns := by
  intro h
  have hrun : fastWorker.NeverRegresses [.results, .dispatch] := h _ _ _ _
  have hlost : ∃ rec ∈ (Runs.run step fastWorker [.results]).store.loadInvocation
      (string (blockID 2)), rec.hasResult = true ∧
        ∀ rec' ∈ (Runs.run step fastWorker [.results, .dispatch]).store.loadInvocation
          (string (blockID 2)), rec'.outcome ≠ rec.outcome := by
    decide
  obtain ⟨rec, hrec, hres, hlost⟩ := hlost
  obtain ⟨rec', hrec', ho⟩ := hrun [.results] [.dispatch] [] rfl _ rec hrec hres
  exact hlost rec' hrec' ho

end Spade.Writers
