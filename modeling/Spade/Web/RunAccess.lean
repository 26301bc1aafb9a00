import Spade.Lib.Runs
import Spade.Web.Submit

set_option autoImplicit false

/-!
# Who may see a run

The lists and the check of `repositories/runs.ts` over the tables of runs and of shares, in
any history of calls.
-/
namespace Spade.Web

structure RunAcl where
  ownerId : String
  visibility : Visibility := .«private»
  createdAt : Time := 0
  updatedAt : Time := 0

inductive SharePermission where
  | view | edit
  deriving DecidableEq

/-- Runs by their ids, and shares by run and user; `users` are the ids that a share may name. -/
structure RunDb where
  users : List String
  runs : GoMap String RunAcl := ∅
  runShares : GoMap (String × String) SharePermission := ∅

namespace RunDb

/-- The rows that a query selects, new ones first; `σ` stands for the order of rows of one age. -/
def select (σ : MapOrder) (db : RunDb) (test : String × RunAcl → Bool) : List (String × RunAcl) :=
  ((σ.range db.runs).filter test).insertionSort fun a b => b.2.createdAt ≤ a.2.createdAt

def getByIdForUser (id userId : String) (db : RunDb) : Option RunAcl :=
  match db.runs.lookup id with
  | none => none
  | some row =>
    if row.ownerId = userId ∨ row.visibility = .«public» then some row
    else if (id, userId) ∈ db.runShares then some row else none

/-- The database refuses an id that is taken, and an owner who is no user. -/
def create (id : String) (input : RunAcl) (db : RunDb) : Option (RunDb × RunAcl) :=
  if id ∈ db.runs ∨ input.ownerId ∉ db.users then none
  else some ({ db with runs := db.runs.insert id input }, input)

/-- The row of a run that the user owns. -/
def owned (id ownerId : String) (db : RunDb) : Option RunAcl :=
  (db.runs.lookup id).filter fun row => row.ownerId = ownerId

def setVisibility (now : Time) (id ownerId : String) (visibility : Visibility) (db : RunDb) :
    RunDb × Option RunAcl :=
  match db.owned id ownerId with
  | none => (db, none)
  | some row =>
    let row := { row with visibility := visibility, updatedAt := now }
    ({ db with runs := db.runs.insert id row }, some row)

/-- The database refuses a share with someone who is no user. -/
def share (runId ownerId shareWithUserId : String) (permission : SharePermission) (db : RunDb) :
    Option (RunDb × Bool) :=
  match db.owned runId ownerId with
  | none => some (db, false)
  | some _ =>
    if shareWithUserId ∈ db.users then
      some ({ db with runShares := db.runShares.insert (runId, shareWithUserId) permission }, true)
    else none

def unshare (runId ownerId userId : String) (db : RunDb) : RunDb × Bool :=
  match db.owned runId ownerId with
  | none => (db, false)
  | some _ => ({ db with runShares := db.runShares.erase (runId, userId) }, true)

end RunDb

inductive AccessCall where
  | create (id : String) (visibility : Visibility) (now : Time)
  | setVisibility (now : Time) (id : String) (visibility : Visibility)
  | share (runId shareWithUserId : String) (permission : SharePermission)
  | unshare (runId userId : String)

/-- A call of a user; one that throws leaves the tables as they are. -/
def RunDb.step (db : RunDb) (c : String × AccessCall) : RunDb :=
  match c.2 with
  | .create id visibility now => ((db.create id ⟨c.1, visibility, now, now⟩).map Prod.fst).getD db
  | .setVisibility now id visibility => (db.setVisibility now id c.1 visibility).1
  | .share runId userId permission => ((db.share runId c.1 userId permission).map Prod.fst).getD db
  | .unshare runId userId => (db.unshare runId c.1 userId).1

def RunDb.Owns (db : RunDb) (userId id : String) : Prop :=
  ∃ row, db.runs.lookup id = some row ∧ row.ownerId = userId

/-! What the queries answer. -/

namespace RunDb
variable {σ : MapOrder} {db db' : RunDb} {id userId : String}

theorem mem_select {test : String × RunAcl → Bool} :
    id ∈ (db.select σ test).map Prod.fst ↔
      ∃ row, db.runs.lookup id = some row ∧ test (id, row) = true := by
  unfold select
  rw [List.mem_map]
  constructor
  · rintro ⟨⟨_, row⟩, hmem, rfl⟩
    obtain ⟨hrow, htest⟩ := List.mem_filter.mp ((List.mem_insertionSort _).mp hmem)
    exact ⟨row, (σ.mem_range _ _ _).mp hrow, htest⟩
  · rintro ⟨row, hrow, htest⟩
    refine ⟨(id, row), (List.mem_insertionSort _).mpr (List.mem_filter.mpr ⟨?_, htest⟩), rfl⟩
    exact (σ.mem_range _ _ _).mpr hrow

/-- A call leaves everything, or touches one run, which the caller owns from then on, with the
shares of that run. -/
inductive Effect (db : RunDb) (caller : String) : RunDb → Prop where
  | nothing : Effect db caller db
  | row (id : String) (acl : RunAcl) (howner : acl.ownerId = caller) :
      Effect db caller { db with runs := db.runs.insert id acl }
  | shared (id userId : String) (permission : SharePermission) (howner : db.Owns caller id) :
      Effect db caller { db with runShares := db.runShares.insert (id, userId) permission }
  | unshared (id userId : String) (howner : db.Owns caller id) :
      Effect db caller { db with runShares := db.runShares.erase (id, userId) }

/-- A run that the caller does not own keeps its row and its shares. -/
theorem Effect.frame {caller : String} (h : Effect db caller db') (hother : ¬db'.Owns caller id) :
    db'.runs.lookup id = db.runs.lookup id ∧
      ∀ u, (id, u) ∈ db'.runShares ↔ (id, u) ∈ db.runShares := by
  cases h with
  | nothing => exact ⟨rfl, fun u => Iff.rfl⟩
  | row i acl howner =>
    refine ⟨AList.lookup_insert_ne fun heq => hother ⟨acl, ?_, howner⟩, fun u => Iff.rfl⟩
    rw [heq]
    exact AList.lookup_insert _
  | shared i u permission howner =>
    refine ⟨rfl, fun u' => ?_⟩
    rw [AList.mem_insert, or_iff_right]
    intro heq
    exact hother ((Prod.mk.inj heq).1 ▸ howner)
  | unshared i u howner =>
    refine ⟨rfl, fun u' => ?_⟩
    rw [AList.mem_erase, and_iff_right]
    intro heq
    exact hother ((Prod.mk.inj heq).1 ▸ howner)

end RunDb

end Spade.Web
