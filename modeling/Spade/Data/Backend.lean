import Spade.Data.Uri

set_option autoImplicit false

/-!
# Backends of the data blocks

The operators for parsed URIs and the keys of their objects
(`blocks/data/src/common/backend.rs`).
-/
namespace Spade.Data
open IdleSteps (bind_ok)

/-- A service with what it is configured with. -/
inductive Backend where
  | fs (root : String)
  | memory
  | s3 (bucket : String) (region accessKeyId secretAccessKey endpoint : Option String)
  | gcs (bucket : String)
  | azblob (container : String) (endpoint accountName accountKey : Option String)
  | http (endpoint : String)
  | sftp (endpoint root : String) (user : Option String)
  | webdav (endpoint : String) (username password : Option String)
  | gdrive (accessToken : String)
  | onedrive (accessToken : String)
  | dropbox (accessToken : String)
  deriving DecidableEq

/-- The parser of hosts, the environment variables, and whether an operator can be made. -/
structure Services where
  parseHost : Url.HostParser
  env : String → Option String
  operatorNew : Backend → Except String Unit

def orBadUri (uri : ParsedUri) (reason : String) : Option String → Except DataError String
  | some s => .ok s
  | none => .error (.badUri uri.original reason)

def orUnauthorized (reason : String) : Option String → Except DataError String
  | some s => .ok s
  | none => .error (.unauthorized reason)

variable (sv : Services)

def portSuffix (scheme host : String) (uri : ParsedUri) : String :=
  if (scheme ++ "://" ++ host ++ ":").toList <+: uri.original.toList then
    match parseUrl sv.parseHost uri.original with
    | .ok u => (u.port.map fun p => ":" ++ toString p).getD ""
    | .error _ => ""
  else ""

def httpBackend (scheme : String) (uri : ParsedUri) : Except DataError Backend := do
  let host ← orBadUri uri "http(s):// requires a host" uri.host
  return .http (scheme ++ "://" ++ host ++ portSuffix sv scheme host uri)

def backendOf (uri : ParsedUri) : Except DataError Backend :=
  match uri.scheme with
  | .fs => .ok (.fs "/")
  | .memory => .ok .memory
  | .s3 => do
    let bucket ← orBadUri uri "s3:// requires a bucket" uri.bucket
    return .s3 bucket (sv.env "AWS_REGION") (sv.env "AWS_ACCESS_KEY_ID")
      (sv.env "AWS_SECRET_ACCESS_KEY") (sv.env "AWS_ENDPOINT_URL")
  | .gcs => do
    let bucket ← orBadUri uri "gs:// requires a bucket" uri.bucket
    return .gcs bucket
  | .azBlob => do
    let container ← orBadUri uri "azblob:// requires a container" uri.bucket
    return .azblob container (sv.env "AZURE_STORAGE_ENDPOINT") (sv.env "AZURE_STORAGE_ACCOUNT")
      (sv.env "AZURE_STORAGE_KEY")
  | .http => httpBackend sv "http" uri
  | .https => httpBackend sv "https" uri
  | .sftp => do
    let host ← orBadUri uri "sftp:// requires a host" uri.host
    return .sftp ("sftp://" ++ host) "/" (sv.env "SFTP_USER")
  | .ftp => .error (.unsupportedScheme "ftp (disabled in this build; pending opendal upgrade)")
  | .webdav => do
    let host ← orBadUri uri "webdav:// requires a host" uri.host
    return .webdav ("https://" ++ host) (sv.env "WEBDAV_USER") (sv.env "WEBDAV_PASSWORD")
  | .googleDrive => do
    let token ← orUnauthorized "GDRIVE_ACCESS_TOKEN must be set" (sv.env "GDRIVE_ACCESS_TOKEN")
    return .gdrive token
  | .oneDrive => do
    let token ← orUnauthorized "ONEDRIVE_ACCESS_TOKEN must be set" (sv.env "ONEDRIVE_ACCESS_TOKEN")
    return .onedrive token
  | .dropbox => do
    let token ← orUnauthorized "DROPBOX_ACCESS_TOKEN must be set" (sv.env "DROPBOX_ACCESS_TOKEN")
    return .dropbox token

def buildOperator (uri : ParsedUri) : Except DataError Backend := do
  let backend ← backendOf sv uri
  (sv.operatorNew backend).mapError .backend
  return backend

def trimStartSlashes (s : String) : String := String.ofList (Url.trimSlashes s.toList)

def objectKey (uri : ParsedUri) : String :=
  match uri.scheme with
  | .fs => trimStartSlashes uri.path
  | .memory => trimStartSlashes uri.path
  | .s3 | .gcs | .azBlob => uri.path
  | .http | .https => trimStartSlashes uri.path
  | .sftp | .ftp | .webdav => uri.path
  | .googleDrive | .oneDrive | .dropbox => uri.path

/-! The places of files. -/

/-- A bare path and its file URI give one key, the path without its slashes. -/
def SameFile (parseHost : Url.HostParser) (p : String) : Prop :=
  ∃ u v, parseUri parseHost p = .ok u ∧ parseUri parseHost ("file://" ++ p) = .ok v ∧
    objectKey u = trimStartSlashes p ∧ objectKey v = trimStartSlashes p

theorem sameFile_iff (parseHost : Url.HostParser) (t : String) :
    SameFile parseHost ("/" ++ t) ↔ Url.Literal "file" t.toList := by
  have hslash : ("/" ++ t).toList = '/' :: t.toList := String.toList_append
  have hfile := Url.parse_printed_file parseHost t.toList
  rw [← hslash] at hfile
  have hparse := parseUri_asStr .fs hfile
  have hkey : objectKey (ofUrl (Scheme.fs.asStr ++ "://" ++ ("/" ++ t)) .fs
      ⟨"file", [], none, Url.pathState "file" (Url.clean t.toList)⟩) = trimStartSlashes ("/" ++ t) ↔
        Url.Literal "file" t.toList := by
    rw [← Url.trim_pathText_iff, trimStartSlashes, hslash]
    change String.ofList (Url.trimSlashes (String.ofList _).toList) =
      String.ofList (Url.trimSlashes t.toList) ↔ _
    rw [String.toList_ofList, String.ofList_inj]
  constructor
  · rintro ⟨u, v, -, hv, -, hvkey⟩
    obtain rfl := Except.ok.inj (hparse.symm.trans hv)
    exact hkey.mp hvkey
  · intro h
    exact ⟨_, _, parseUri_bare t, hparse, rfl, hkey.mpr h⟩

/-- A space is written as `%20` in the path of the file URI. -/
theorem sameFile_fails : ¬SameFile (fun _ h => .ok h) "/tmp/a b.txt" := by
  rintro ⟨u, v, -, hv, -, hvkey⟩
  have hkey : (parseUri (fun _ h => .ok h) ("file://" ++ "/tmp/a b.txt")).map objectKey =
      .ok "tmp/a%20b.txt" := by decide
  rw [hv] at hkey
  exact absurd (hvkey.symm.trans (Except.ok.inj hkey)) (by decide)

end Spade.Data
