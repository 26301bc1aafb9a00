import Spade.Core.InvocationText
import Spade.Core.Resolve
import Spade.Lib.FileSystem

set_option autoImplicit false

/-!
# The directory of an invocation

`CreateBlockDirectory` and `SetupInputSymlinks` on a disk on which the process may die
before any of its writes.
-/
namespace Spade
open UUIDPackage

inductive Stop where
  | died | failed
  deriving DecidableEq

/-- `budget` is the number of writes before the process dies, if it does. -/
structure Disk where
  fs : FileSystem
  budget : Option ℕ := none

namespace Disk

abbrev Result := Except (Stop × FileSystem) Disk

/-- The file system that is left. -/
def left : Result → FileSystem
  | .ok d => d.fs
  | .error (_, fs) => fs

def fail (d : Disk) : Result := .error (.failed, d.fs)

def write (f : FileSystem → Option FileSystem) (d : Disk) : Result :=
  match d.budget with
  | some 0 => .error (.died, d.fs)
  | _ =>
    match f d.fs with
    | none => d.fail
    | some fs => .ok ⟨fs, d.budget.map (· - 1)⟩

end Disk

def createBlockDirectory (invocationID : String) (workdir : Path) (d : Disk) : Disk.Result :=
  ["", "inputs", "outputs", "logs"].foldlM
    (fun d sub => d.write (FileSystem.mkdirAll ((workdir.join invocationID).join sub))) d

/-- `filepath.Glob` of `prefix*` in a directory. -/
def globPrefix (dir : Path) (pre : String) (fs : FileSystem) : List FileName :=
  ((fs.readDir dir).getD []).filter fun n => pre.toList.isPrefixOf n.1.toList

/-- The text after the last dot. -/
def idxTag (suffix : String) : String :=
  match splitLastDot suffix.toList with
  | some (_, tag) => String.ofList tag
  | none => suffix

section
variable [UUIDPackage] (yamlExpansion : String → Option ExpansionManifest)

def loadExpansionManifest (p : Path) (fs : FileSystem) : Option ExpansionManifest :=
  (fs.readFile p).bind yamlExpansion

/-- What `SetupInputSymlinks` is called with, but for the directory and the inputs. -/
structure InputContext where
  pipelineDir : Path
  invocation : BlockInvocation
  manifest : BlockManifest
  depManifests : GoMap UUID BlockManifest

namespace InputContext
variable (c : InputContext)

def workDir : Path := c.pipelineDir.join c.invocation.invocationID

/-- The target of an item of an expansion. -/
def itemTarget (src : UUID) (item : ExpansionItem) : String :=
  if item.path.toList.head? = some '/' then item.path
  else ((c.pipelineDir.join (string src)).join item.path).text

/-- The directory that the default lookup reads. -/
def sourceDir (ri : ResolvedInput) (fs : FileSystem) : Path :=
  match c.invocation.mapIndex with
  | none => ((c.pipelineDir.join (string ri.sourceBlockID)).join "outputs").join ri.sourceOutputName
  | some i =>
    let peer := c.pipelineDir.join (string ri.sourceBlockID ++ "." ++ itoa i)
    if fs.isDir peer then (peer.join "outputs").join ri.sourceOutputName
    else ((c.pipelineDir.join (string ri.sourceBlockID)).join "outputs").join ri.sourceOutputName

/-- Link what stands in a directory, under names that start with `tag`. -/
def linkEntries (linkDir outDir : Path) (tag : String) (entries : List FileName) (d : Disk) :
    Disk.Result :=
  entries.foldlM (fun d entry =>
    d.write (FileSystem.symlink (outDir.join entry.1).text (linkDir.join (tag ++ entry.1)))) d

/-- Case 1: one item of the expansion of a map block. -/
def linkItem (linkDir : Path) (ri : ResolvedInput) (idx : Int) (d : Disk) : Disk.Result :=
  let expPath := (((c.pipelineDir.join (string ri.sourceBlockID)).join "outputs").join
    ri.sourceOutputName).join "expansion.yaml"
  match loadExpansionManifest yamlExpansion expPath d.fs with
  | none => d.fail
  | some exp =>
    if idx < 0 then d.fail
    else
      match exp.items[idx.toNat]? with
      | none => d.fail
      | some item =>
        let target := c.itemTarget ri.sourceBlockID item
        d.write (FileSystem.symlink target (linkDir.join (Path.base target)))

def siblings (ri : ResolvedInput) (fs : FileSystem) : List FileName :=
  globPrefix c.pipelineDir (string ri.sourceBlockID ++ ".") fs

/-- Case 2: the outputs of every mapped sibling, where they can be read. -/
def linkSiblings (linkDir : Path) (ri : ResolvedInput) (siblings : List FileName) (d : Disk) :
    Disk.Result :=
  siblings.foldlM (fun d sibling =>
    let outDir := ((c.pipelineDir.join sibling.1).join "outputs").join ri.sourceOutputName
    match d.fs.readDir outDir with
    | none => .ok d
    | some entries => linkEntries linkDir outDir (idxTag sibling.1 ++ "_") entries d) d

/-- Cases 3 and 4. -/
def linkSource (linkDir : Path) (ri : ResolvedInput) (d : Disk) : Disk.Result :=
  match d.fs.readDir (c.sourceDir ri d.fs) with
  | none => d.fail
  | some entries => linkEntries linkDir (c.sourceDir ri d.fs) "" entries d

/-- The loop body of `SetupInputSymlinks`. -/
def setupInput (workDir : Path) (d : Disk) (e : String × ResolvedInput) : Disk.Result :=
  let linkDir := (workDir.join "inputs").join e.1
  match d.write (FileSystem.mkdirAll linkDir) with
  | .error stop => .error stop
  | .ok d =>
    let kind := (c.depManifests.lookup e.2.sourceBlockID).map BlockManifest.kind
    match c.invocation.mapIndex with
    | some idx =>
      if kind = some .map then c.linkItem yamlExpansion linkDir e.2 idx d
      else if c.manifest.kind = .reduce ∧ c.siblings e.2 d.fs ≠ [] then
        c.linkSiblings linkDir e.2 (c.siblings e.2 d.fs) d
      else c.linkSource linkDir e.2 d
    | none =>
      if c.manifest.kind = .reduce ∧ c.siblings e.2 d.fs ≠ [] then
        c.linkSiblings linkDir e.2 (c.siblings e.2 d.fs) d
      else c.linkSource linkDir e.2 d

def setupInputSymlinks (σ : MapOrder) (workDir : Path) (resolvedInputs : GoMap String ResolvedInput)
    (d : Disk) : Disk.Result :=
  (σ.range resolvedInputs).foldlM (c.setupInput yamlExpansion workDir) d

/-- The part of `Worker.Run` that sets up the directory. -/
def attempt (σ : MapOrder) (resolvedInputs : GoMap String ResolvedInput) (d : Disk) : Disk.Result :=
  match createBlockDirectory c.invocation.invocationID c.pipelineDir d with
  | .error stop => .error stop
  | .ok d => c.setupInputSymlinks yamlExpansion σ c.workDir resolvedInputs d

end InputContext
end
end Spade
