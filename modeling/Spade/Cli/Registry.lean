import Spade.Core.ContentHash
import Spade.Core.Types
import Spade.Lib.KeyedRows

set_option autoImplicit false

/-!
# The block registry

The table of installed blocks of `core/registry.go`, and what it reads of the install
directories.
-/
namespace Spade.Cli
open FileSystem Path KeyedRows

inductive CollectionLanguage where
  | rust | go | python | typeScript | r
  deriving DecidableEq

/-- A row; its primary key is its place in the table. A language is never the zero value. -/
structure BlockRegistryEntry where
  collectionName : String
  collectionVersion : String
  blockName : String
  blockID : String
  language : CollectionLanguage
  entrypoint : String := ""
  installedPath : Path
  contentHash : String := ""
  kind : BlockKind
  network : Bool := false
  deriving DecidableEq

namespace BlockRegistryEntry

/-- GORM's update from a struct: fields that are zero are left as they are. -/
def assign (entry row : BlockRegistryEntry) : BlockRegistryEntry where
  collectionName := if entry.collectionName = "" then row.collectionName else entry.collectionName
  collectionVersion :=
    if entry.collectionVersion = "" then row.collectionVersion else entry.collectionVersion
  blockName := if entry.blockName = "" then row.blockName else entry.blockName
  blockID := if entry.blockID = "" then row.blockID else entry.blockID
  language := entry.language
  entrypoint := if entry.entrypoint = "" then row.entrypoint else entry.entrypoint
  installedPath := entry.installedPath
  contentHash := if entry.contentHash = "" then row.contentHash else entry.contentHash
  kind := if entry.kind = .other "" then row.kind else entry.kind
  network := entry.network || row.network

/-- What a row is found by. -/
def key (row : BlockRegistryEntry) : String × String := (row.blockID, row.collectionVersion)

end BlockRegistryEntry

/-- The first row with the same block and version takes the fields, or a new row does. -/
def registerBlock (rows : List BlockRegistryEntry) (entry : BlockRegistryEntry) :
    List BlockRegistryEntry := upsert BlockRegistryEntry.key BlockRegistryEntry.assign entry rows

/-- Without a version, the row whose version is last as a text. -/
def lookupBlock (rows : List BlockRegistryEntry) (name version : String) :
    Option BlockRegistryEntry :=
  let named := rows.filter fun row => row.blockID = name
  if version ≠ "" then named.find? fun row => row.collectionVersion = version
  else (named.insertionSort fun a b => b.collectionVersion ≤ a.collectionVersion).head?

def blockNameFromID (id : String) : String :=
  String.ofList (id.toList.reverse.takeWhile (· ≠ '.')).reverse

variable (unmarshal : String → Option BlockManifest)

/-- A manifest that names no kind is one of a standard block. -/
def decodeManifest (data : String) : Option BlockManifest :=
  (unmarshal data).map fun m => if m.kind = .other "" then { m with kind := .standard } else m

def loadBlockManifest (path : Path) (fs : FileSystem) : Option BlockManifest :=
  (fs.readAt (names path)).toOption.bind (decodeManifest unmarshal)

def loadManifestForEntry (entry : BlockRegistryEntry) (fs : FileSystem) : Option BlockManifest :=
  loadBlockManifest unmarshal
    ((entry.installedPath.join "blocks").join (entry.blockName ++ ".yaml")) fs

def existsAt (path : Path) (fs : FileSystem) : Bool := (fs.stat (names path)).isOk

/-- The marker files, in the order in which they are looked for. -/
def checks : List (String × CollectionLanguage) :=
  [("Cargo.toml", .rust), ("go.mod", .go), ("pyproject.toml", .python),
    ("package.json", .typeScript)]

def detectLanguage (repoRoot : Path) (fs : FileSystem) : CollectionLanguage :=
  match checks.find? fun c => existsAt (repoRoot.join c.1) fs with
  | some c => c.2
  | none => .r

def isYaml (name : String) : Bool := decide (".yaml".toList <:+ name.toList)

def discoverBlocks (repoRoot : Path) (fs : FileSystem) : Option (List Path) :=
  (fs.readDirAt (names (repoRoot.join "blocks"))).toOption.map fun entries =>
    (entries.filter fun entry => !entry.isDir && isYaml entry.name.1).map fun entry =>
      (repoRoot.join "blocks").join entry.name.1

variable (sha256 : String → String)

def verifyBlock (entry : BlockRegistryEntry) (fs : FileSystem) : Bool :=
  computeContentHash sha256 entry.installedPath fs = some entry.contentHash

/-- The row of a manifest that is found in an install directory. -/
def rebuiltEntry (collection version : FileName) (versionPath : Path) (lang : CollectionLanguage)
    (fs : FileSystem) (manifest : BlockManifest) : BlockRegistryEntry where
  collectionName := collection.1
  collectionVersion := version.1
  blockName := blockNameFromID manifest.id
  blockID := manifest.id
  language := lang
  entrypoint := manifest.entrypoint
  installedPath := versionPath
  contentHash := (computeContentHash sha256 versionPath fs).getD ""
  kind := manifest.kind
  network := manifest.network

/-- The rows of one install directory. -/
def rebuildVersion (collection version : FileName) (versionPath : Path) (fs : FileSystem)
    (rows : List BlockRegistryEntry) : List BlockRegistryEntry :=
  match discoverBlocks versionPath fs with
  | none => rows
  | some blockFiles => (blockFiles.filterMap fun file => loadBlockManifest unmarshal file fs).foldl
      (fun rows manifest => registerBlock rows
        (rebuiltEntry sha256 collection version versionPath (detectLanguage versionPath fs) fs
          manifest)) rows

def rebuildCollection (collection : FileName) (collectionPath : Path) (fs : FileSystem)
    (rows : List BlockRegistryEntry) : List BlockRegistryEntry :=
  match fs.readDirAt (names collectionPath) with
  | .error _ => rows
  | .ok versions => (versions.filter DirEntry.isDir).foldl (fun rows version =>
      rebuildVersion unmarshal sha256 collection version.name (collectionPath ++ [version.name]) fs
        rows) rows

/-- The table that is left; the rows there were are gone in any case. -/
def rebuildFromFilesystem (blocksDir : Path) (fs : FileSystem) : List BlockRegistryEntry :=
  match fs.readDirAt (names blocksDir) with
  | .error _ => []
  | .ok collections => (collections.filter DirEntry.isDir).foldl (fun rows collection =>
      rebuildCollection unmarshal sha256 collection.name (blocksDir ++ [collection.name]) fs rows) []

/-! Rows and their keys. -/

namespace BlockRegistryEntry

theorem key_assign {entry row : BlockRegistryEntry} (h : row.key = entry.key) :
    (entry.assign row).key = entry.key := by
  have hid : row.blockID = entry.blockID := congrArg Prod.fst h
  have hversion : row.collectionVersion = entry.collectionVersion := congrArg Prod.snd h
  unfold key assign
  rw [hid, hversion, ite_self, ite_self]

theorem merging_assign : Merging key assign where
  key_merge _ _ h := key_assign h
  assoc w v row := by
    simp only [assign, mk.injEq, true_and]
    refine ⟨?_, ?_, ?_, ?_, ?_, ?_, ?_, (Bool.or_assoc _ _ _).symm⟩ <;> split_ifs <;> simp_all

/-- Nothing of the old row is left. -/
theorem assign_eq {entry row : BlockRegistryEntry} (hname : entry.collectionName ≠ "")
    (hkey : row.key = entry.key) (hblock : row.blockName = entry.blockName)
    (hentry : entry.entrypoint = "" → row.entrypoint = "") (hhash : entry.contentHash ≠ "")
    (hkind : entry.kind ≠ .other "") (hnetwork : entry.network = false → row.network = false) :
    entry.assign row = entry := by
  have hid : row.blockID = entry.blockID := congrArg Prod.fst hkey
  have hversion : row.collectionVersion = entry.collectionVersion := congrArg Prod.snd hkey
  have hpoint : (if entry.entrypoint = "" then row.entrypoint else entry.entrypoint) =
      entry.entrypoint := by
    split_ifs with h
    · rw [hentry h, h]
    · rfl
  have hnet : (entry.network || row.network) = entry.network := by
    cases hn : entry.network with
    | true => rfl
    | false => exact hnetwork hn
  unfold assign
  rw [if_neg hname, if_neg hhash, if_neg hkind, hid, hversion, hblock, hpoint, hnet, ite_self,
    ite_self, ite_self]

end BlockRegistryEntry

theorem lookupBlock_version {rows : List BlockRegistryEntry} {name version : String}
    (h : version ≠ "") :
    lookupBlock rows name version = find BlockRegistryEntry.key (name, version) rows := by
  unfold lookupBlock find
  rw [if_pos h, List.find?_filter]
  refine congrArg (fun p => List.find? p rows) (funext fun row => ?_)
  rw [decide_eq_decide, decide_eq_true_eq, decide_eq_true_eq, BlockRegistryEntry.key, Prod.mk.injEq]

end Spade.Cli
