import Spade.Core.Uuid

set_option autoImplicit false

/-! # Small pipelines -/
namespace Spade.Samples

/-- Ids of version 7, in the order of their numbers. -/
def blockID (n : ℕ) : UUID := BitVec.ofNat 128 (0x019cf4bc000070008000000000000000 + n)

def pipelineID (n : ℕ) : UUID := BitVec.ofNat 128 (0x019cf4bd000070008000000000000000 + n)

def block (name : String) (n : ℕ) (deps : List ℕ) : PipelineBlock where
  id := blockID n
  name := name
  inputs := deps.map fun d => { id := blockID d }

def pipeline (n : ℕ) (blocks : List PipelineBlock) : Pipeline where
  id := pipelineID n
  name := "sample"
  version := "v1"
  blocks := blocks

/-- A source, an ordinary block, a map block and a reduce block. -/
def manifests : Manifests :=
  let file : OutputDeclaration := { type := "file" }
  let data : GoMap String InputDeclaration := (∅ : GoMap String InputDeclaration).insert "data" { type := "file" }
  let out : GoMap String OutputDeclaration := (∅ : GoMap String OutputDeclaration).insert "out" file
  (((((∅ : Manifests).insert "source" { id := "source", kind := .standard, outputs := out }).insert
    "step" { id := "step", kind := .standard, inputs := data, outputs := out }).insert
    "split" { id := "split", kind := .map, inputs := data,
              outputs := (∅ : GoMap String OutputDeclaration).insert "items" { type := "expansion" } }).insert
    "merge" { id := "merge", kind := .reduce, outputs := out,
              inputs := (∅ : GoMap String InputDeclaration).insert "parts" { type := "collection" } })

/-- A source and a step. -/
def chain : Pipeline := pipeline 1 [block "source" 1 [], block "step" 2 [1]]

/-- The blocks of a chain in an order that is not that of their ids. -/
def zigzag : Pipeline := pipeline 2 [block "source" 2 [], block "step" 1 [2], block "step" 3 [1]]

/-- Two sources. -/
def pair : Pipeline := pipeline 3 [block "source" 1 [], block "source" 2 []]

/-- A map block, a mapped block, and a reduce block that reads it. -/
def mapped : Pipeline :=
  pipeline 4 [block "source" 1 [], block "split" 2 [1], block "step" 3 [2], block "merge" 4 [3]]

/-- Two mapped blocks in a row. -/
def chained : Pipeline := pipeline 5 [block "source" 1 [], block "split" 2 [1], block "step" 3 [2],
  block "step" 4 [3], block "merge" 5 [4]]

/-- Two map blocks side by side, and a block that reads both. -/
def fork : Pipeline := pipeline 8 [block "source" 1 [], block "split" 2 [1], block "split" 3 [1],
  block "step" 4 [2, 3], block "merge" 5 [4]]

/-- Two map contexts. The block behind the first map block has the id that is derived for
the first invocation of block 5 in the other context. -/
def clash : Pipeline := pipeline 9 [block "source" 1 [], block "split" 2 [1], block "split" 3 [1],
  block "step" 4 [3], block "step" 5 [4],
  { block "step" 6 [2] with id := Uuid.newSHA1 (blockID 5) "0" }, block "merge" 7 [5],
  { block "merge" 8 [] with inputs := [{ id := Uuid.newSHA1 (blockID 5) "0" }] }]

/-- The chain under another pipeline id. -/
def twin : Pipeline := { chain with id := pipelineID 6 }

/-- A chain of other blocks. -/
def apart : Pipeline := pipeline 7 [block "source" 6 [], block "step" 7 [6]]

/-- A `Complete` result of block `n`. -/
def completed (n : ℕ) : BlockInvocationResult where
  id := blockID n
  pipelineId := UUID.nil
  status := .complete

/-- A `Map` result of block `n` with `k` items. -/
def expanded (n k : ℕ) : BlockInvocationResult where
  id := blockID n
  pipelineId := UUID.nil
  status := .map
  expansion := some ⟨List.replicate k ⟨"", ""⟩⟩

end Spade.Samples
