import Spade.Data.Backend
import Spade.Data.Download

set_option autoImplicit false

/-!
# Uploads of collections

Each file of a collection is written under a remote prefix, and a receipt is recorded for it
(`blocks/data/src/write_collection.rs`).
-/
namespace Spade.Data

/-- An object that is written. -/
structure Put where
  backend : Backend
  key : String
  bytes : List UInt8
  deriving DecidableEq

structure Receipt where
  uri : String
  bytes : ℕ
  sha256 : String
  deriving DecidableEq

/-- The file systems and the remote objects. What they give depends on what has been written. -/
structure UploadServices extends Services where
  read : List Put → String → Except String (List UInt8)
  sha256OfFile : List Put → String → Except String String
  objectExists : List Put → Backend → String → Except DataError Bool
  write : List Put → Put → Except DataError Unit
  writeJson : List Put → List Receipt → Except String Unit

structure UploadArgs where
  files : Except DataError (List String)
  uri : Option String
  overwrite : Option Bool

def isWhitespace (c : Char) : Bool :=
  c ∈ ['\t', '\n', '\x0b', '\x0c', '\r', ' ', '\u0085', '\u00a0', '\u1680', '\u2028', '\u2029',
    '\u202f', '\u205f', '\u3000'] || ('\u2000' ≤ c && c ≤ '\u200a')

def joinPrefix (pre name : String) : String :=
  if pre = "" then name
  else if pre.toList.getLast? = some '/' then pre ++ name
  else pre ++ "/" ++ name

def destUri (parsed : ParsedUri) (key : String) : String :=
  match parsed.scheme with
  | .fs => "file:///" ++ trimStartSlashes key
  | s => s.asStr ++ "://" ++ ((parsed.bucket <|> parsed.host).getD "") ++ "/" ++ key

variable (sv : UploadServices)

def refuseExisting (overwrite : Bool) (puts : List Put) (backend : Backend) (key : String) :
    Except DataError Unit :=
  if overwrite then .ok ()
  else do
    let found ← sv.objectExists puts backend key
    if found then
      throw (.badArgument "uri" s!"destination {key} exists and overwrite=false")

/-- One file is uploaded; what has been written stays if that fails. -/
def uploadFile (parsed : ParsedUri) (backend : Backend) (overwrite : Bool) (path : String)
    (puts : List Put) : List Put × Except DataError Receipt :=
  match fileName path with
  | none => (puts, .error (.badArgument "files" s!"bad input filename: {path}"))
  | some basename =>
    let key := joinPrefix (objectKey parsed) basename
    match refuseExisting sv overwrite puts backend key, sv.read puts path with
    | .error e, _ => (puts, .error e)
    | .ok _, .error e => (puts, .error (.io e))
    | .ok _, .ok bytes =>
      let put : Put := ⟨backend, key, bytes⟩
      match sv.write puts put, sv.sha256OfFile (puts ++ [put]) path with
      | .error e, _ => (puts, .error e)
      | .ok _, .error e => (puts ++ [put], .error (.io e))
      | .ok _, .ok sha => (puts ++ [put], .ok ⟨destUri parsed key, bytes.length, sha⟩)

def uploadFiles (parsed : ParsedUri) (backend : Backend) (overwrite : Bool) :
    List String → List Receipt → List Put → List Put × Except DataError (List Receipt)
  | [], receipts, puts => (puts, .ok receipts)
  | path :: paths, receipts, puts =>
    match uploadFile sv parsed backend overwrite path puts with
    | (puts, .error e) => (puts, .error e)
    | (puts, .ok receipt) =>
      uploadFiles parsed backend overwrite paths (receipts ++ [receipt]) puts

/-- The URI of the destination with its backend. -/
def destination (uri : Option String) : Except DataError (ParsedUri × Backend) :=
  match uri with
  | none => .error (.badArgument "uri" "required")
  | some uriRaw =>
    if uriRaw.toList.all isWhitespace then .error (.badArgument "uri" "empty")
    else do
      let parsed ← parseUri sv.parseHost uriRaw
      let backend ← buildOperator sv.toServices parsed
      return (parsed, backend)

def writeCollection (args : UploadArgs) : List Put × Except DataError (List Receipt) :=
  match args.files, destination sv args.uri with
  | .error e, _ => ([], .error e)
  | .ok _, .error e => ([], .error e)
  | .ok paths, .ok (parsed, backend) =>
    match uploadFiles sv parsed backend (args.overwrite.getD false) paths [] [] with
    | (puts, .error e) => (puts, .error e)
    | (puts, .ok receipts) =>
      match sv.writeJson puts receipts with
      | .error e => (puts, .error (.io e))
      | .ok _ => (puts, .ok receipts)

/-! The run of an upload. -/

/-- A file with the object that is written and the receipt for it. -/
structure Upload where
  path : String
  put : Put
  receipt : Receipt

/-- The file is written under the prefix, and the receipt names the place. -/
def Upload.Done (parsed : ParsedUri) (backend : Backend) (up : Upload) : Prop :=
  ∃ name, fileName up.path = some name ∧ up.put.backend = backend ∧
    up.put.key = joinPrefix (objectKey parsed) name ∧ up.receipt.uri = destUri parsed up.put.key

variable {sv} {parsed : ParsedUri} {backend : Backend} {overwrite : Bool}

theorem uploadFile_ok {path : String} {puts puts' : List Put} {receipt : Receipt}
    (h : uploadFile sv parsed backend overwrite path puts = (puts', .ok receipt)) :
    ∃ put, puts' = puts ++ [put] ∧ Upload.Done parsed backend ⟨path, put, receipt⟩ := by
  unfold uploadFile at h
  split at h
  · cases h
  rename_i name hname
  simp only at h
  split at h
  · cases h
  · cases h
  rename_i bytes hbytes
  split at h
  · cases h
  · cases h
  rename_i sha hsha
  obtain ⟨rfl, hreceipt⟩ := Prod.mk.inj h
  obtain rfl := Except.ok.inj hreceipt
  exact ⟨_, rfl, name, hname, rfl, rfl, rfl⟩

theorem uploadFiles_ok {paths : List String} {receipts receipts' : List Receipt}
    {puts puts' : List Put}
    (h : uploadFiles sv parsed backend overwrite paths receipts puts = (puts', .ok receipts')) :
    ∃ ups : List Upload, ups.map Upload.path = paths ∧ puts' = puts ++ ups.map Upload.put ∧
      receipts' = receipts ++ ups.map Upload.receipt ∧ ∀ up ∈ ups, up.Done parsed backend := by
  induction paths generalizing receipts puts with
  | nil =>
    obtain ⟨rfl, hreceipts⟩ := Prod.mk.inj h
    obtain rfl := Except.ok.inj hreceipts
    exact ⟨[], rfl, (List.append_nil _).symm, (List.append_nil _).symm, nofun⟩
  | cons path paths ih =>
    unfold uploadFiles at h
    split at h
    · cases h
    rename_i puts₁ receipt hone
    obtain ⟨put, rfl, hdone⟩ := uploadFile_ok hone
    obtain ⟨ups, rfl, rfl, rfl, hall⟩ := ih h
    refine ⟨⟨path, put, receipt⟩ :: ups, rfl, ?_, ?_, List.forall_mem_cons.mpr ⟨hdone, hall⟩⟩
    · rw [List.append_assoc]
      rfl
    · rw [List.append_assoc]
      rfl

/-- Where receipts are recorded, each file has one. -/
theorem writeCollection_ok {args : UploadArgs} {puts : List Put} {receipts : List Receipt}
    (h : writeCollection sv args = (puts, .ok receipts)) :
    ∃ (uri : String) (parsed : ParsedUri) (backend : Backend) (ups : List Upload),
      args.uri = some uri ∧ parseUri sv.parseHost uri = .ok parsed ∧
      buildOperator sv.toServices parsed = .ok backend ∧ args.files = .ok (ups.map Upload.path) ∧
        puts = ups.map Upload.put ∧ receipts = ups.map Upload.receipt ∧
          ∀ up ∈ ups, up.Done parsed backend := by
  unfold writeCollection at h
  split at h
  · cases h
  · cases h
  rename_i paths parsed backend hfiles hdest
  split at h
  · cases h
  rename_i puts₁ receipts₁ hrun
  split at h
  · cases h
  obtain ⟨rfl, hreceipts⟩ := Prod.mk.inj h
  obtain rfl := Except.ok.inj hreceipts
  obtain ⟨ups, rfl, hputs, hrec, hall⟩ := uploadFiles_ok hrun
  unfold destination at hdest
  split at hdest
  · cases hdest
  rename_i uri huri
  split_ifs at hdest
  obtain ⟨parsed', hparse, hdest⟩ := IdleSteps.bind_ok.mp hdest
  obtain ⟨backend', hbuild, hdest⟩ := IdleSteps.bind_ok.mp hdest
  obtain ⟨rfl, rfl⟩ := Prod.mk.inj (Except.ok.inj hdest)
  exact ⟨uri, parsed', backend', ups, huri, hparse, hbuild, hfiles, hputs, hrec, hall⟩

end Spade.Data
