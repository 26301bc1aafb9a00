import Spade.Server.Separate
import Spade.Web.ShortCodes
import Spade.Web.Validate

set_option autoImplicit false

/-!
# Submitting runs

`POST /api/runs`, before the outbox and the engine, with any edits of the library of
pipelines in between.
-/
namespace Spade.Web

/-- What the handler uses of the yaml package and of the database driver. A text that does
not parse to an object is none; `columnText` is what a text column gets. -/
class Packages where
  yamlParse : String → Option UploadedPipeline
  yamlStringify : UploadedPipeline → String
  columnText : Value → String

inductive Visibility where
  | «private» | shared | «public»
  deriving DecidableEq

structure SavedPipeline where
  ownerId : String
  name : String
  yaml : String
  visibility : Visibility := .«private»

structure Library where
  pipelines : GoMap String SavedPipeline := ∅
  shares : List (String × String) := []

def Library.getByIdForUser (lib : Library) (id userId : String) : Option SavedPipeline :=
  match lib.pipelines.lookup id with
  | none => none
  | some row =>
    if row.ownerId = userId ∨ row.visibility = .«public» then some row
    else if (id, userId) ∈ lib.shares then some row else none

structure RunBody where
  pipelineId : Option String := none
  yaml : Option String := none
  name : Option String := none

inductive PostError where
  | notFound
  | missingYAML
  | invalidYAML
  | upload (err : UploadError)
  | invalid
  deriving DecidableEq

/-- A field that is there and not the empty text. -/
def truthy (s : Option String) : Option String := s.filter fun s => s ≠ ""

/-- The text to run, the display name and the saved pipeline. -/
def runSource (lib : Library) (userId : String) (body : RunBody) :
    Except PostError (String × Option String × Option String) :=
  match truthy body.pipelineId with
  | some id =>
    match lib.getByIdForUser id userId with
    | none => .error .notFound
    | some row => .ok (row.yaml, some (body.name.getD row.name), some id)
  | none =>
    match truthy body.yaml with
    | some yaml => .ok (yaml, body.name, none)
    | none => .error .missingYAML

/-! An upload as the validator sees it, if its ids are texts. -/

def UploadedRef.typed : UploadedRef → Option InputRef
  | .bare id => some (.bare id)
  | .explicit r =>
    match r.block with
    | some (.str block) => some (.explicit block "")
    | _ => none

def UploadedBlock.typed (b : UploadedBlock) : Option Block :=
  match b.id, (b.inputs.getD []).mapM UploadedRef.typed with
  | some (.str id), some refs => some { id := id, name := "", inputs := some refs }
  | _, _ => none

/-- Without manifests the validator reads no more than the ids. -/
def UploadedPipeline.typed (p : UploadedPipeline) : Option Pipeline :=
  ((p.blocks.getD []).mapM UploadedBlock.typed).map fun blocks => { blocks := some blocks }

/-- `untyped` stands for the verdict on ids that are no texts. -/
def UploadedPipeline.valid (untyped : UploadedPipeline → Bool) (p : UploadedPipeline) : Bool :=
  match p.typed with
  | some q => (validatePipeline .stored q none).any ValidationResult.ok
  | none => untyped p

theorem resolveShortCodes_id {uuidv7 : ℕ → String} {p p' : UploadedPipeline}
    (h : resolveShortCodes uuidv7 p = .ok p') : p'.id = p.id := by
  unfold resolveShortCodes at h
  split at h
  · cases h
  · split at h
    · cases h
    · split at h
      · cases h
      · cases h
        rfl

section
variable [Packages]

/-- A field for a column; null is a field that is missing. -/
def fieldText : Option Value → Option String
  | none | some .null => none
  | some v => some (Packages.columnText v)

/-- A submission that passes validation, with its display name and its saved pipeline. -/
def acceptRun (untyped : UploadedPipeline → Bool) (uuidv7 : ℕ → String) (lib : Library)
    (userId : String) (body : RunBody) :
    Except PostError (UploadedPipeline × Option String × Option String) :=
  match runSource lib userId body with
  | .error err => .error err
  | .ok (yaml, source) =>
    match Packages.yamlParse yaml with
    | none => .error .invalidYAML
    | some parsed =>
      match resolveShortCodes uuidv7 parsed with
      | .error err => .error (.upload err)
      | .ok resolved => if resolved.valid untyped then .ok (resolved, source) else .error .invalid

/-- The row that goes to `repo.create`. -/
def newRun (untyped : UploadedPipeline → Bool) (uuidv7 : ℕ → String) (v7 : String) (now : Time)
    (lib : Library) (userId : String) (body : RunBody) : Except PostError RunRow :=
  match acceptRun untyped uuidv7 lib userId body with
  | .error err => .error err
  | .ok (resolved, name, pipelineId) => .ok {
      id := (fieldText resolved.id).getD v7
      pipelineId := pipelineId
      ownerId := userId
      name := name <|> fieldText resolved.name
      yaml := Packages.yamlStringify resolved
      createdAt := now
      updatedAt := now }

end

/-- The web UI and what lies behind it. -/
structure Site where
  library : Library := {}
  handoff : Handoff := {}

/-- `v7` and `uuidv7` are what the calls for new ids return in the handler. -/
inductive SiteOp where
  | post (userId : String) (body : RunBody) (untyped : UploadedPipeline → Bool)
    (uuidv7 : ℕ → String) (v7 : String)
  | edit (library : Library)
  | handoff (op : HandoffOp)

namespace Site
variable [UUIDPackage] [Encoding] [Packages]

/-- Only the handler creates runs. -/
def step (s : Site) (a : Time × SiteOp) : Site :=
  match a.2 with
  | .post userId body untyped uuidv7 v7 =>
    match newRun untyped uuidv7 v7 a.1 s.library userId body with
    | .error _ => s
    | .ok row => { s with handoff := s.handoff.step (a.1, .outbox (.create row)) }
  | .edit library => { s with library := library }
  | .handoff (.outbox (.create _)) => s
  | .handoff op => { s with handoff := s.handoff.step (a.1, op) }

def runs (s : Site) : RunsTable := s.handoff.outbox.runs

/-- A submission makes a row with a new id, and what a poller submits is new to it and to the
engine. -/
def EachNew (s : Site) (a : Time × SiteOp) : Prop :=
  match a.2 with
  | .post userId body untyped uuidv7 v7 =>
    ∀ row, newRun untyped uuidv7 v7 a.1 s.library userId body = .ok row →
      row.id ∉ s.runs ∧ s.runs.create row = some (s.runs.insert row.id row)
  | .handoff (.outbox (.submit i)) => ∀ run rest, s.handoff.outbox.pollers i = .claimed run rest →
    run.id ∉ s.handoff.outbox.submitted
  | .handoff (.insert i env _ _) => ∀ run rest p body,
    s.handoff.outbox.pollers i = .submitting run rest → s.handoff.writing i = none →
      Engine.prepare env run = some (p, body) →
        runUUID run.id = some p.id ∧ p.id ∉ s.handoff.store.pipelines
  | _ => True

/-- The calls of `v7()` return new ids, and so does every id that an accepted submission
brings along; no update queues a run again. -/
def BringsOwn (s : Site) (a : Time × SiteOp) : Prop :=
  match a.2 with
  | .post userId body untyped uuidv7 v7 => OwnID s.runs v7 ∧
    ∀ resolved source, acceptRun untyped uuidv7 s.library userId body = .ok (resolved, source) →
      ∀ id, fieldText resolved.id = some id → OwnID s.runs id
  | .handoff (.outbox op) => op.QueuesNew
  | _ => True

variable {s : Site} {a : Time × SiteOp}

omit [UUIDPackage] [Encoding] in
/-- The id that is brought along is the one of the text. -/
theorem accepted_id {lib : Library} {userId : String} {body : RunBody}
    {untyped : UploadedPipeline → Bool} {uuidv7 : ℕ → String} {resolved : UploadedPipeline}
    {source : Option String × Option String}
    (h : acceptRun untyped uuidv7 lib userId body = .ok (resolved, source)) :
    ∃ yaml parsed, runSource lib userId body = .ok (yaml, source) ∧
      Packages.yamlParse yaml = some parsed ∧ resolved.id = parsed.id := by
  unfold acceptRun at h
  split at h
  · cases h
  · rename_i yaml source' hsource
    split at h
    · cases h
    · rename_i parsed hparsed
      split at h
      · cases h
      · rename_i resolved' hresolved
        split_ifs at h
        cases h
        exact ⟨yaml, parsed, hsource, hparsed, resolveShortCodes_id hresolved⟩

omit [Encoding] in
/-- The row of a submission has the id that it brings along, or else the one of `v7()`. -/
theorem newRun_own {now : Time} {userId : String} {body : RunBody}
    {untyped : UploadedPipeline → Bool} {uuidv7 : ℕ → String} {v7 : String} {row : RunRow}
    (h : s.BringsOwn (now, .post userId body untyped uuidv7 v7))
    (hrow : newRun untyped uuidv7 v7 now s.library userId body = .ok row) :
    OwnID s.runs row.id ∧ row.status = .queued := by
  obtain ⟨hv7, hown⟩ := h
  unfold newRun at hrow
  cases ha : acceptRun untyped uuidv7 s.library userId body with
  | error err =>
    rw [ha] at hrow
    cases hrow
  | ok r =>
    obtain ⟨resolved, source⟩ := r
    rw [ha] at hrow
    cases hrow
    refine ⟨?_, rfl⟩
    dsimp only
    cases hid : fieldText resolved.id with
    | none => exact hv7
    | some id => exact hown resolved source ha id hid

omit [Encoding] [Packages] in
theorem not_mem_of_own {runs : RunsTable} {id : String} (h : OwnID runs id) : id ∉ runs := by
  obtain ⟨u, hu, hnew⟩ := h
  exact fun hmem => hnew id hmem hu

theorem separate_step (hs : s.handoff.Separate) (ha : s.BringsOwn a) :
    (s.step a).handoff.Separate := by
  obtain ⟨now, op⟩ := a
  cases op with
  | edit => exact hs
  | post userId body untyped uuidv7 v7 =>
    change (match newRun untyped uuidv7 v7 now s.library userId body with
      | .error _ => s
      | .ok row => { s with
          handoff := s.handoff.step (now, .outbox (.create row)) } : Site).handoff.Separate
    cases hrow : newRun untyped uuidv7 v7 now s.library userId body with
    | error => exact hs
    | ok row =>
      obtain ⟨hown, hq⟩ := newRun_own ha hrow
      refine hs.step (a := (now, .outbox (.create row))) ⟨hq, fun input heq => ?_⟩
      cases heq
      exact hown
  | handoff op =>
    cases op with
    | outbox op =>
      have hop : op.QueuesNew := ha
      by_cases hc : ∃ input, op = .create input
      · obtain ⟨input, rfl⟩ := hc
        exact hs
      · have hstep : s.step (now, .handoff (.outbox op)) =
            { s with handoff := s.handoff.step (now, .outbox op) } := by
          cases op with
          | create input => exact absurd ⟨input, rfl⟩ hc
          | _ => rfl
        rw [hstep]
        exact hs.step (a := (now, .outbox op)) ⟨hop, fun input heq => absurd ⟨input, heq⟩ hc⟩
    | insert i env fails errMsg => exact hs.step (a := (now, .insert i env fails errMsg)) trivial
    | write i now' fails errMsg => exact hs.step (a := (now, .write i now' fails errMsg)) trivial
    | register i env => exact hs.step (a := (now, .register i env)) trivial
    | crash i env => exact hs.step (a := (now, .crash i env)) trivial

theorem eachNew_of_own (hs : s.handoff.Separate) (ha : s.BringsOwn a) : s.EachNew a := by
  obtain ⟨now, op⟩ := a
  cases op with
  | edit => trivial
  | post userId body untyped uuidv7 v7 =>
    intro row hrow
    have hnew := not_mem_of_own (newRun_own ha hrow).1
    exact ⟨hnew, if_neg hnew⟩
  | handoff op =>
    cases op with
    | outbox op =>
      cases op with
      | submit i => exact fun run rest hi => (hs.placed.single.held i run rest hi).2
      | _ => trivial
    | insert i env fails errMsg => exact fun run rest p body hi hw hp => hs.insert_new hi hw hp
    | _ => trivial

/-- In every history of submissions, edits and steps behind them, each submission is a new run
that reaches the engine on its own. -/
theorem each_new (library : Library) {l : List (Time × SiteOp)}
    (hl : Runs.Along step BringsOwn { library := library } l) :
    Runs.Along step EachNew { library := library } l := by
  have hstart : Handoff.Separate {} := by
    have hno : ∀ i run rest, (({} : Handoff).outbox.pollers i) ≠ .submitting run rest := nofun
    have hplaced : Outbox.Placed {} :=
      ⟨Outbox.Idle.single ⟨rfl, fun _ => rfl⟩, nofun, nofun,
        fun i run rest hi => absurd hi (hno i run rest),
        fun i _ run rest _ _ hi => absurd hi (hno i run rest)⟩
    exact ⟨hplaced, nofun, nofun, nofun, fun i run rest hi => absurd hi (hno i run rest)⟩
  exact Runs.along_of_invariant step (P := fun s : Site => s.handoff.Separate)
    (fun s a hs ha => separate_step hs ha) (fun s a hs ha => eachNew_of_own hs ha) hstart hl

end Site
end Spade.Web

namespace Spade.Web.Site
open Samples Uuid

/-- A pipeline of one block, without an id and as the editor exports it. -/
def plainText : String := "blocks:\n  - id: a\n    name: source\n    inputs: []\n"

def exportedText : String := "id: " ++ string (pipelineID 10) ++ "\n" ++ plainText

def plain : UploadedPipeline where
  blocks := some [{ id := some (.str "a"), name := some (.str "source"), inputs := some [] }]

/-- The yaml package and the driver on these texts. -/
scoped instance : Packages where
  yamlParse s :=
    if s = exportedText then some { plain with id := some (.str (string (pipelineID 10))) }
    else if s = plainText then some plain else none
  yamlStringify p := if p.id.isSome then exportedText else plainText
  columnText v :=
    match v with
    | .str s => s
    | _ => ""

def postText (text : String) (v7 : UUID) : Time × SiteOp :=
  (1, .post "user" { yaml := some text } (fun _ => false) (fun _ => "") (string v7))

/-- Submitted again, an exported pipeline clashes with its first run. -/
theorem each_new_fails : ¬Runs.Along step EachNew {}
    [postText exportedText (pipelineID 1), postText exportedText (pipelineID 2)] := by
  rintro ⟨-, hnew, -⟩
  have hid : (newRun (fun _ => false) (fun _ => "") (string (pipelineID 2)) 1 {} "user"
      { yaml := some exportedText }).toOption.map RunRow.id = some (string (pipelineID 10)) := by
    decide
  have hmem : string (pipelineID 10) ∈
      (step {} (postText exportedText (pipelineID 1))).runs := by
    decide
  cases hrow : newRun (fun _ => false) (fun _ => "") (string (pipelineID 2)) 1 {} "user"
      { yaml := some exportedText } with
  | error err =>
    rw [hrow] at hid
    cases hid
  | ok row =>
    rw [hrow] at hid
    have heq : row.id = string (pipelineID 10) := Option.some_inj.mp hid
    exact (hnew row hrow).1 (heq ▸ hmem)

/-- A text without an id gets the one of `v7()`. -/
theorem own_plain {s : Site} {v7 : UUID} (hnil : v7 ≠ UUID.nil)
    (hnew : ∀ id ∈ s.runs, runUUID id ≠ some v7) : s.BringsOwn (postText plainText v7) := by
  refine ⟨⟨v7, runUUID_eq_some.mpr ⟨UUIDPackage.parse_string v7, hnil⟩, hnew⟩, ?_⟩
  intro resolved source ha id hid
  obtain ⟨yaml, parsed, hsource, hparse, heq⟩ := accepted_id ha
  cases hsource
  have hne : plainText ≠ exportedText := by decide
  change (if plainText = exportedText then _ else if plainText = plainText then some plain
    else none) = some parsed at hparse
  rw [if_neg hne, if_pos rfl] at hparse
  cases hparse
  rw [heq] at hid
  cases hid

/-- Two runs of one text, of which a poller takes the first. -/
theorem each_new_plain : Runs.Along step EachNew {}
    [postText plainText (pipelineID 1), postText plainText (pipelineID 2),
      (2, .handoff (.outbox (.fetch 0 .stored))), (3, .handoff (.outbox (.claim 0))),
      (3, .handoff (.outbox (.submit 0)))] := by
  refine each_new {} ⟨own_plain (by decide) nofun, own_plain (by decide) ?_, trivial, trivial,
    trivial, trivial⟩
  intro id hid
  have hkeys : (step {} (postText plainText (pipelineID 1))).runs.keys =
      [string (pipelineID 1)] := by
    decide
  have hmem : id ∈ (step {} (postText plainText (pipelineID 1))).runs.keys :=
    AList.mem_keys.mpr hid
  rw [hkeys] at hmem
  rw [List.mem_singleton.mp hmem]
  decide

end Spade.Web.Site
