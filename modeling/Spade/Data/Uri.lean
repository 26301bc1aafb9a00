import Spade.Data.Types
import Spade.Lib.Url

set_option autoImplicit false

/-!
# URIs of the data blocks

The parsing of URIs and the dispatch on their schemes (`blocks/data/src/common/uri.rs`).
-/
namespace Spade.Data
open Url (HostParser)
open IdleSteps (bind_ok)

inductive Scheme where
  | s3 | gcs | azBlob | http | https | fs | sftp | ftp | webdav | googleDrive | oneDrive | dropbox
  | memory
  deriving DecidableEq

def toAsciiLowercase (s : String) : String := String.ofList (s.toList.map Char.toLower)

def Scheme.parse (s : String) : Except DataError Scheme :=
  match toAsciiLowercase s with
  | "s3" => .ok .s3
  | "gs" => .ok .gcs
  | "gcs" => .ok .gcs
  | "azblob" => .ok .azBlob
  | "az" => .ok .azBlob
  | "http" => .ok .http
  | "https" => .ok .https
  | "file" => .ok .fs
  | "sftp" => .ok .sftp
  | "ftp" => .ok .ftp
  | "webdav" => .ok .webdav
  | "gdrive" => .ok .googleDrive
  | "googledrive" => .ok .googleDrive
  | "onedrive" => .ok .oneDrive
  | "dropbox" => .ok .dropbox
  | "memory" => .ok .memory
  | other => .error (.unsupportedScheme other)

def Scheme.asStr : Scheme → String
  | .s3 => "s3"
  | .gcs => "gs"
  | .azBlob => "azblob"
  | .http => "http"
  | .https => "https"
  | .fs => "file"
  | .sftp => "sftp"
  | .ftp => "ftp"
  | .webdav => "webdav"
  | .googleDrive => "gdrive"
  | .oneDrive => "onedrive"
  | .dropbox => "dropbox"
  | .memory => "memory"

/-- The schemes whose host is a bucket. -/
def Scheme.bucketed (s : Scheme) : Bool := s = .s3 || s = .gcs || s = .azBlob

structure ParsedUri where
  scheme : Scheme
  host : Option String
  bucket : Option String
  path : String
  original : String
  deriving DecidableEq

/-- The texts before and after the first `://`. -/
def splitScheme : List Char → Option (List Char × List Char)
  | [] => none
  | c :: s =>
    if [':', '/', '/'] <+: c :: s then some ([], s.drop 2)
    else (splitScheme s).map fun r => (c :: r.1, r.2)

section
variable (parseHost : HostParser)

/-- `url::Url::parse` of a text in which a scheme stands before the first `://`. -/
def parseUrl (uri : String) : Except String Url.Record :=
  match splitScheme uri.toList with
  | none => .error "relative URL without a base"
  | some (scheme, rest) => Url.parse parseHost (toAsciiLowercase (String.ofList scheme)) rest

def hostStr (u : Url.Record) : Option String :=
  if u.host = [] then none else some (String.ofList u.host)

/-- For buckets the slash before the path is stripped. -/
def ofUrl (uri : String) (scheme : Scheme) (parsed : Url.Record) : ParsedUri :=
  let path := Url.pathText parsed.path
  if scheme.bucketed then
    let key := if path.head? = some '/' then path.tail else path
    ⟨scheme, hostStr parsed, hostStr parsed, String.ofList key, uri⟩
  else ⟨scheme, hostStr parsed, none, String.ofList path, uri⟩

def parseUri (uri : String) : Except DataError ParsedUri :=
  if uri = "" then .error (.badArgument "uri" "empty")
  else if uri.toList.head? = some '/' then .ok ⟨.fs, none, none, uri, "file://" ++ uri⟩
  else
    match splitScheme uri.toList with
    | none => .error (.badUri uri "missing scheme and not an absolute path")
    | some (schemeStr, _) => do
      let scheme ← Scheme.parse (String.ofList schemeStr)
      let parsed ← (parseUrl parseHost uri).mapError fun e => .badUri uri ("malformed URL: " ++ e)
      return ofUrl uri scheme parsed

end

/-! What is parsed. -/

theorem splitScheme_append {s : List Char} (hs : ':' ∉ s) (t : List Char) :
    splitScheme (s ++ ':' :: '/' :: '/' :: t) = some (s, t) := by
  induction s with
  | nil => exact if_pos (List.prefix_append [':', '/', '/'] t)
  | cons c s ih =>
    have hc : ¬[':', '/', '/'] <+: c :: (s ++ ':' :: '/' :: '/' :: t) := by
      rintro ⟨r, hr⟩
      exact hs ((List.cons.inj hr).1 ▸ List.mem_cons_self)
    rw [List.cons_append, splitScheme, if_neg hc, ih fun h => hs (List.mem_cons_of_mem c h)]
    rfl

theorem Scheme.parse_asStr (s : Scheme) : Scheme.parse s.asStr = .ok s := by cases s <;> rfl

theorem Scheme.asStr_plain (s : Scheme) : ':' ∉ s.asStr.toList ∧
    s.asStr.toList.head? ≠ some '/' ∧ toAsciiLowercase s.asStr = s.asStr := by
  cases s <;> decide

/-- All names of a scheme are special, or none is. -/
theorem Scheme.parse_special {s : String} {scheme : Scheme} (h : Scheme.parse s = .ok scheme) :
    Url.isSpecial (toAsciiLowercase s) = Url.isSpecial scheme.asStr ∧
      (toAsciiLowercase s = "file" ↔ scheme = .fs) := by
  unfold Scheme.parse at h
  split at h
  case h_17 => cases h
  all_goals
    rename_i hs
    obtain rfl := Except.ok.inj h
    rw [hs]
    decide

section
variable {parseHost : HostParser} {uri : String} {u : ParsedUri}

/-- A bare absolute path is taken as it stands. -/
theorem parseUri_bare (t : String) : parseUri parseHost ("/" ++ t) =
    .ok ⟨.fs, none, none, "/" ++ t, "file://" ++ ("/" ++ t)⟩ := by
  have hslash : ("/" ++ t).toList = '/' :: t.toList := String.toList_append
  have hne : "/" ++ t ≠ "" := fun h => List.cons_ne_nil _ _ (hslash.symm.trans (congrArg _ h))
  rw [parseUri, if_neg hne, hslash]
  exact if_pos List.head?_cons

theorem parseUri_asStr (scheme : Scheme) {t : String} {parsed : Url.Record}
    (h : Url.parse parseHost scheme.asStr t.toList = .ok parsed) :
    parseUri parseHost (scheme.asStr ++ "://" ++ t) =
      .ok (ofUrl (scheme.asStr ++ "://" ++ t) scheme parsed) := by
  obtain ⟨hcolon, hhead, hlower⟩ := scheme.asStr_plain
  have htext : (scheme.asStr ++ "://" ++ t).toList =
      scheme.asStr.toList ++ ':' :: '/' :: '/' :: t.toList := by
    rw [String.toList_append, String.toList_append, List.append_assoc]
    rfl
  have hsplit := splitScheme_append hcolon t.toList
  rw [← htext] at hsplit
  have hne : scheme.asStr ++ "://" ++ t ≠ "" := by
    intro hnil
    rw [hnil] at hsplit
    cases hsplit
  have hfirst : (scheme.asStr ++ "://" ++ t).toList.head? ≠ some '/' := by
    rw [htext]
    cases hs : scheme.asStr.toList with
    | nil => simp
    | cons c s => simpa [hs] using hhead
  have hurl : parseUrl parseHost (scheme.asStr ++ "://" ++ t) = .ok parsed := by
    rw [parseUrl, hsplit]
    simp only [String.ofList_toList, hlower, h]
  rw [parseUri, if_neg hne, if_neg hfirst, hsplit]
  simp only [String.ofList_toList, Scheme.parse_asStr, hurl]
  rfl

theorem parseUri_ok (h : parseUri parseHost uri = .ok u) :
    (uri.toList.head? = some '/' ∧ u = ⟨.fs, none, none, uri, "file://" ++ uri⟩) ∨
      ∃ name rest parsed, parseUrl parseHost uri = .ok parsed ∧ Scheme.parse name = .ok u.scheme ∧
        Url.parse parseHost (toAsciiLowercase name) rest = .ok parsed ∧
          u = ofUrl uri u.scheme parsed := by
  unfold parseUri at h
  split_ifs at h with hnil hslash
  · exact .inl ⟨hslash, (Except.ok.inj h).symm⟩
  · refine .inr ?_
    cases hsplit : splitScheme uri.toList with
    | none =>
      rw [hsplit] at h
      cases h
    | some r =>
      rw [hsplit] at h
      obtain ⟨scheme, hscheme, h⟩ := bind_ok.mp h
      obtain ⟨parsed, hparsed, h⟩ := bind_ok.mp h
      obtain rfl := Except.ok.inj h
      have hurl : parseUrl parseHost uri = .ok parsed := by
        cases hres : parseUrl parseHost uri with
        | error e =>
          rw [hres] at hparsed
          cases hparsed
        | ok w =>
          rw [hres] at hparsed
          exact congrArg _ (Except.ok.inj hparsed)
      have hrest := hurl
      rw [parseUrl, hsplit] at hrest
      have hkind : (ofUrl uri scheme parsed).scheme = scheme := by
        unfold ofUrl
        dsimp only
        split_ifs <;> rfl
      rw [hkind]
      exact ⟨_, _, parsed, hurl, hscheme, hrest, rfl⟩

end

end Spade.Data
