import Spade.Cli.Language

set_option autoImplicit false

/-!
# `spade install`

`installFromSource` of `cli/cmd/install.go`, from the sources of a collection to the files of
its install directory and its rows in the registry.
-/
namespace Spade.Cli
open FileSystem Path

/-- A decoded TOML value, as far as the sources of packages need it. -/
inductive Toml where
  | string (s : String)
  | table (fields : List (String × Toml))
  | other (text : String)

/-- What an install uses that is not its own code. Commands are run in a directory, and paths
with more than `depth` directories to copy are too long. -/
structure Environment where
  unmarshalYAML : String → Option BlockManifest
  unmarshalJSON : String → Option (GoMap String (Option String))
  unmarshalTOML : String → Option (List (String × Toml))
  marshalTOML : List (String × Toml) → Option String
  exec : List String → Path → FileSystem → Option FileSystem
  sha256 : String → String
  depth : ℕ

/-- Changes the table that a chain of keys leads to, where all of them lead to tables. -/
def updateNested (f : List (String × Toml) → List (String × Toml)) :
    List String → List (String × Toml) → List (String × Toml)
  | [], fields => f fields
  | k :: keys, fields => fields.map fun e =>
      if e.1 = k then
        match e.2 with
        | .table inner => (e.1, .table (updateNested f keys inner))
        | value => (e.1, value)
      else e

/-- The `path` of a package source, from the root on. -/
def absoluteSource (srcDir : Path) (e : String × Toml) : String × Toml :=
  match e.2 with
  | .table fields => (e.1, .table (fields.map fun field =>
      match field.2 with
      | .string path =>
        if field.1 = "path" ∧ isAbs path = false then (field.1, .string (text (srcDir.join path)))
        else field
      | _ => field))
  | _ => e

variable (env : Environment)

def copyPyprojectWithAbsoluteSources (srcDir dstPath : Path) (fs : FileSystem) :
    Option FileSystem := do
  let data ← readText srcDir fs "pyproject.toml"
  let doc ← env.unmarshalTOML data
  let out ← env.marshalTOML (updateNested (List.map (absoluteSource srcDir)) ["tool", "uv", "sources"] doc)
  writeFile out dstPath fs

def copyFileSimple (src dst : Path) (fs : FileSystem) : Option FileSystem := do
  let data ← (fs.readAt (names src)).toOption
  writeFile data dst fs

/-- The last element of the path is not followed. -/
def lstat (path : Path) (fs : FileSystem) : Option Node :=
  match path.getLast? with
  | none => some .dir
  | some name => (fs.locate (names path.dropLast)).toOption.bind fun dir => fs.lookup (dir ++ [name])

/-- `filepath.Walk` lists a directory before the copy of it is made. -/
def copyDirRecursive : ℕ → Path → Path → FileSystem → Option FileSystem
  | 0, _, _, _ => none
  | depth + 1, src, dst, fs =>
    match lstat src fs with
    | none => none
    | some .dir => do
      let entries ← (fs.readDirAt (names src)).toOption
      let fs ← mkdirAll dst fs
      entries.foldlM (fun fs entry =>
        copyDirRecursive depth (src ++ [entry.name]) (dst ++ [entry.name]) fs) fs
    | some _ => copyFileSimple src dst fs

/-- The files of the directory of manifests, whatever their names. -/
def copyManifests (srcBlocks dstBlocks : Path) (fs : FileSystem) : Option FileSystem := do
  let entries ← (fs.readDirAt (names srcBlocks)).toOption
  (entries.filter fun entry => !entry.isDir).foldlM (fun fs entry =>
    copyFileSimple (srcBlocks ++ [entry.name]) (dstBlocks ++ [entry.name]) fs) fs

/-- The lock file, where there is one. -/
def copyLock (srcDir dstDir : Path) (fs : FileSystem) : Option FileSystem :=
  if existsAt (srcDir.join "uv.lock") fs then
    copyFileSimple (srcDir.join "uv.lock") (dstDir.join "uv.lock") fs
  else some fs

def copyArtifacts (srcDir dstDir : Path) (name : String) (fs : FileSystem) :
    CollectionLanguage → Option FileSystem
  | .rust => copyFileSimple (((srcDir.join "target").join "release").join name) (dstDir.join name) fs
  | .go => copyFileSimple (srcDir.join name) (dstDir.join name) fs
  | .python => do
    let fs ← copyPyprojectWithAbsoluteSources env srcDir (dstDir.join "pyproject.toml") fs
    let fs ← copyLock srcDir dstDir fs
    copyDirRecursive env.depth (srcDir.join "src") (dstDir.join "src") fs
  | .typeScript => copyFileSimple (srcDir.join name) (dstDir.join name) fs
  | .r => copyDirRecursive env.depth (srcDir.join "R") (dstDir.join "R") fs

def copyCollection (srcDir dstDir : Path) (lang : CollectionLanguage) (name : String)
    (fs : FileSystem) : Option FileSystem := do
  let fs ← mkdirAll (dstDir.join "blocks") fs
  let fs ← copyManifests (srcDir.join "blocks") (dstDir.join "blocks") fs
  copyArtifacts env srcDir dstDir name fs lang

def runBuild (dir : Path) (lang : CollectionLanguage) (name : String) (fs : FileSystem) :
    Option FileSystem :=
  match lang with
  | .rust => env.exec ["cargo", "build", "--release"] dir fs
  | .go => env.exec ["go", "build", "-o", name] dir fs
  | .python => env.exec ["uv", "sync"] dir fs
  | .typeScript => env.exec ["bun", "build", "."] dir fs
  | .r => if existsAt (dir.join "setup.R") fs then env.exec ["Rscript", "setup.R"] dir fs else some fs

/-- The environment of a Python collection is made where it is installed. -/
def finalizeInstall (installDir : Path) (lang : CollectionLanguage) (fs : FileSystem) :
    Option FileSystem :=
  if lang = .python then env.exec ["uv", "sync"] installDir fs else some fs

def removeAll (path : Path) (fs : FileSystem) : FileSystem :=
  (fs.keys.filter fun k => path <+: k).foldl (fun fs k => fs.erase k) fs

/-- The manifests that an install finds; there has to be one. -/
def sourceManifests (srcDir : Path) (fs : FileSystem) : Option (List BlockManifest) := do
  let blockPaths ← discoverBlocks srcDir fs
  if blockPaths = [] then none
  else blockPaths.mapM fun path => loadBlockManifest env.unmarshalYAML path fs

def collectionName (srcDir : Path) (lang : CollectionLanguage) (fs : FileSystem) : String :=
  (readCollectionName srcDir fs env.unmarshalJSON lang).getD (baseName srcDir)

def collectionVersion (srcDir : Path) (lang : CollectionLanguage) (fs : FileSystem) : String :=
  (readCollectionVersion srcDir fs env.unmarshalJSON lang).getD "0.1.0"

def installedEntry (name version : String) (lang : CollectionLanguage) (installDir : Path)
    (contentHash : String) (manifest : BlockManifest) : BlockRegistryEntry where
  collectionName := name
  collectionVersion := version
  blockName := blockNameFromID manifest.id
  blockID := manifest.id
  language := lang
  entrypoint := manifest.entrypoint
  installedPath := installDir
  contentHash := contentHash
  kind := manifest.kind
  network := manifest.network

/-- The disk once the collection is built, copied and finished. -/
def layOut (srcDir installDir : Path) (lang : CollectionLanguage) (name : String)
    (fs : FileSystem) : Option FileSystem := do
  let fs ← mkdirAll installDir fs
  let fs ← copyCollection env srcDir installDir lang name fs
  finalizeInstall env installDir lang fs

variable (blocksDir : Path)

/-- The disk and the rows that a successful install leaves. -/
def installFromSource (srcDir : Path) (cleanupSrc : Bool) (rows : List BlockRegistryEntry)
    (fs : FileSystem) : Option (FileSystem × List BlockRegistryEntry) := do
  let lang := detectLanguage srcDir fs
  let manifests ← sourceManifests env srcDir fs
  let name := collectionName env srcDir lang fs
  let version := collectionVersion env srcDir lang fs
  let fs ← runBuild env srcDir lang name fs
  let installDir := (blocksDir.join name).join version
  let fs ← layOut env srcDir installDir lang name fs
  let contentHash := (computeContentHash env.sha256 installDir fs).getD ""
  let rows := manifests.foldl (fun rows manifest =>
    registerBlock rows (installedEntry name version lang installDir contentHash manifest)) rows
  some (if cleanupSrc then removeAll srcDir fs else fs, rows)

end Spade.Cli
