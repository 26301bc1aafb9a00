import Spade.Cli.Registry

set_option autoImplicit false

/-!
# Names and versions of collections

What `cli/cmd/language.go` reads of the manifests of the languages.
-/
namespace Spade.Cli
open FileSystem Path

/-- `unicode.IsSpace`. -/
def isSpace (c : Char) : Bool :=
  c ∈ ['\t', '\n', '\x0b', '\x0c', '\r', ' ', '\u0085', '\u00a0', '\u1680', '\u2028', '\u2029',
    '\u202f', '\u205f', '\u3000'] || ('\u2000' ≤ c && c ≤ '\u200a')

def trim (p : Char → Bool) (s : String) : String :=
  String.ofList ((s.toList.dropWhile p).reverse.dropWhile p).reverse

def trimSpace : String → String := trim isSpace

def lines (content : String) : List String := (content.toList.splitOn '\n').map String.ofList

/-- The value of the first line that starts with the key and has a `=`. -/
def parseTOMLValue (content key : String) : Option String :=
  (lines content).findSome? fun line =>
    if key.toList <+: (trimSpace line).toList then
      match (trimSpace line).toList.dropWhile (· ≠ '=') with
      | [] => none
      | _ :: val => some (trim (· = '"') (trimSpace (String.ofList val)))
    else none

/-- `filepath.Base` of a directory. -/
def baseName (repoRoot : Path) : String := Path.base (text repoRoot)

variable (repoRoot : Path) (fs : FileSystem)

def readText (name : String) : Option String := (fs.readAt (names (repoRoot.join name))).toOption

def readTOML (file key : String) : Option String :=
  (readText repoRoot fs file).bind fun data => parseTOMLValue data key

/-- The last segment of the module path. -/
def readGoModName : Option String :=
  (readText repoRoot fs "go.mod").map fun data =>
    ((lines data).findSome? fun line =>
      if "module ".toList <+: (trimSpace line).toList then
        ((trimSpace (String.ofList ((trimSpace line).toList.drop 7))).toList.splitOn '/').getLast?.map
          String.ofList
      else none).getD (baseName repoRoot)

variable (unmarshalJSON : String → Option (GoMap String (Option String)))

/-- A field of a JSON object, whose fields are `none` where they are no texts. -/
def readPackageJSON (field : String) : Option String :=
  (readText repoRoot fs "package.json").bind fun data =>
    (unmarshalJSON data).bind fun pkg => (pkg.lookup field).bind id

def readCollectionName : CollectionLanguage → Option String
  | .rust => readTOML repoRoot fs "Cargo.toml" "name"
  | .python => readTOML repoRoot fs "pyproject.toml" "name"
  | .typeScript => readPackageJSON repoRoot fs unmarshalJSON "name"
  | .go => readGoModName repoRoot fs
  | .r => some (baseName repoRoot)

def readCollectionVersion : CollectionLanguage → Option String
  | .rust => readTOML repoRoot fs "Cargo.toml" "version"
  | .python => readTOML repoRoot fs "pyproject.toml" "version"
  | .typeScript => readPackageJSON repoRoot fs unmarshalJSON "version"
  | .go => some "0.1.0"
  | .r => some "0.1.0"

end Spade.Cli
