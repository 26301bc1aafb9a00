import Spade.Core.Samples
import Spade.Server.Steps

set_option autoImplicit false

/-! # The texts of small pipelines, and the steps to run them -/
namespace Spade.Samples
open Uuid

def yamlBlock (b : PipelineBlock) : String :=
  "    - id: " ++ string b.id ++ "\n      name: " ++ b.name ++
    (if b.inputs.isEmpty then "\n      inputs: []"
    else "\n      inputs:" ++ String.join (b.inputs.map fun r => "\n        - " ++ string r.id)) ++
    "\n      args: \x7b\x7d\n"

/-- The text of a pipeline whose blocks have bare references and no arguments. -/
def yamlText (p : Pipeline) : String :=
  "id: " ++ string p.id ++ "\nname: " ++ p.name ++ "\nversion: " ++ p.version ++ "\nblocks:\n" ++
    String.join (p.blocks.map yamlBlock)

def jsonText (e : ExpansionManifest) : String :=
  "\x7b\"Items\":[" ++ ",".intercalate (e.items.map fun i =>
    "\x7b\"Path\":" ++ quoted i.path ++ ",\"Key\":" ++ quoted i.key ++ "\x7d") ++ "]\x7d"

def expansion (n : ℕ) : ExpansionManifest where
  items := (List.range n).map fun i => ⟨"items/" ++ itoa i, itoa i⟩

/-- The yaml and json packages on the texts that occur here. -/
scoped instance : Encoding where
  yamlMarshal p := some (yamlText p)
  yamlUnmarshal s := [chain, zigzag, pair, mapped, chained].find? fun p => yamlText p = s
  jsonExpansion := jsonText
  jsonReadExpansion s := ((List.range 3).map expansion).find? fun e => jsonText e = s
  jsonHashes m := "\x7b" ++ ",".intercalate
    ((m.items.insertionSort fun a b => a.1 ≤ b.1).map fun e => quoted e.1 ++ ":" ++ quoted e.2) ++ "\x7d"

def env : Env := { manifests := manifests }

def submit (p : Pipeline) : Env × Op := (env, .submit p (yamlText p) "user")

def cancel (p : Pipeline) : Env × Op := (env, .cancel p.id)

def drain : Env × Op := (env, .drain)

def publish : Env × Op := (env, .publish true)

def result (p : Pipeline) (invocationID : String) (status : ExecutionStatus) : WorkerResult where
  invocationID := invocationID
  pipelineID := p.id
  status := status

def report (wr : WorkerResult) : Env × Op := (env, .result wr)

/-- Block `n` is complete. -/
def complete (p : Pipeline) (n : ℕ) : Env × Op := report (result p (string (blockID n)) .complete)

/-- Invocation `i` of block `n` is complete. -/
def completeAt (p : Pipeline) (n i : ℕ) : Env × Op :=
  report (result p (string (blockID n) ++ "." ++ itoa i) .complete)

/-- Block `n` has failed. -/
def fail (p : Pipeline) (n : ℕ) : Env × Op := report (result p (string (blockID n)) .error)

/-- Map block `n` reports `k` items. -/
def expand (p : Pipeline) (n k : ℕ) : Env × Op :=
  report { result p (string (blockID n)) .map with expansion := some (expansion k) }

/-- A sweep of one invocation. -/
def sweepOne : List (Env × Op) := [drain, publish]

/-- The chain from its submission to its end. -/
def chainRun : List (Env × Op) :=
  submit chain :: sweepOne ++ complete chain 1 :: sweepOne ++ [complete chain 2]

/-- A map run up to the fan-out of `k` items, which are handed out. -/
def mapRun (p : Pipeline) (k : ℕ) : List (Env × Op) :=
  submit p :: sweepOne ++ complete p 1 :: sweepOne ++ expand p 2 k :: drain :: List.replicate k publish

/-- The pipelines that are submitted in a run. -/
def submitted (ops : List (Env × Op)) : List Pipeline :=
  ops.filterMap fun a =>
    match a.2 with
    | .submit p _ _ => some p
    | _ => none

theorem submits_iff {P : Pipeline → Prop} {ops : List (Env × Op)} :
    World.Submits P ops ↔ ∀ p ∈ submitted ops, P p := by
  constructor
  · intro h p hp
    obtain ⟨⟨env, op⟩, ha, hop⟩ := List.mem_filterMap.mp hp
    cases op with
    | submit pp body who =>
      cases hop
      exact h _ ha _ _ _ rfl
    | _ => cases hop
  · intro h a ha pp body who hop
    obtain ⟨env, op⟩ := a
    cases hop
    exact h pp (List.mem_filterMap.mpr ⟨_, ha, rfl⟩)

theorem submits_keysApart {ops : List (Env × Op)}
    (h : ∀ p ∈ submitted ops, ∀ b ∈ p.blocks, version b.id = 7) :
    World.Submits KeysApart ops :=
  submits_iff.mpr fun p hp => keysApart (h p hp)

end Spade.Samples
