import Spade.Data.Upload

set_option autoImplicit false

/-!
# Reading uploads back

When the URI of a receipt leads to the place to which the file was written.
-/
namespace Spade.Data
open Url IdleSteps

/-! Keys. -/

/-- The key that is taken from the path of a URL. -/
def keyText (scheme : Scheme) (path : List Char) : List Char :=
  match scheme with
  | .fs | .memory | .http | .https => trimSlashes path
  | .s3 | .gcs | .azBlob => if path.head? = some '/' then path.tail else path
  | .sftp | .ftp | .webdav | .googleDrive | .oneDrive | .dropbox => path

/-- The schemes that keep the slash before the path. -/
def Scheme.keepsSlash (s : Scheme) : Bool :=
  [.sftp, .ftp, .webdav, .googleDrive, .oneDrive, .dropbox].contains s

theorem objectKey_ofUrl (uri : String) (scheme : Scheme) (parsed : Record) :
    (objectKey (ofUrl uri scheme parsed)).toList = keyText scheme (pathText parsed.path) := by
  cases scheme <;>
    simp [objectKey, ofUrl, Scheme.bucketed, keyText, trimStartSlashes, String.toList_ofList]

theorem trimSlashes_eq {t : List Char} (h : t.head? ≠ some '/') : trimSlashes t = t := by
  cases t with
  | nil => rfl
  | cons c t => exact List.dropWhile_cons_of_neg (by simpa using h)

theorem head_trimSlashes (t : List Char) : (trimSlashes t).head? ≠ some '/' := by
  intro h
  have hfirst := List.head?_dropWhile_not (fun c => decide (c = '/')) t
  rw [← trimSlashes, h] at hfirst
  exact absurd hfirst (by decide)

theorem trim_keyText (scheme : Scheme) (path : List Char) :
    trimSlashes (keyText scheme path) = trimSlashes path := by
  have htrim : trimSlashes (trimSlashes path) = trimSlashes path :=
    trimSlashes_eq (head_trimSlashes path)
  have hstrip : trimSlashes (if path.head? = some '/' then path.tail else path) =
      trimSlashes path := by
    split_ifs with hslash
    · obtain ⟨t, rfl⟩ := List.head?_eq_some_iff.mp hslash
      exact (List.dropWhile_cons_of_pos (by decide)).symm
    · rfl
  cases scheme <;> first | exact htrim | exact hstrip | rfl

theorem literal_keyText {scheme : Scheme} {s : String} (hs : s ≠ "file") {path : List Char}
    (h : Literal s path) : Literal s (keyText scheme path) :=
  (literal_trim hs).mp ((trim_keyText scheme path).symm ▸ (literal_trim hs).mpr h)

/-- The path that is read for a key gives the key exactly if the key is literal and the slash
before it is not kept. -/
theorem keyText_pathState_iff {scheme : Scheme} {s : String} {key : List Char}
    (htrim : scheme.keepsSlash = false → scheme.bucketed = false → trimSlashes key = key) :
    keyText scheme (pathText (pathState s (clean key))) = key ↔
      Literal s key ∧ scheme.keepsSlash = false := by
  have htrimmed (h : trimSlashes key = key) :
      trimSlashes (pathText (pathState s (clean key))) = key ↔ Literal s key := by
    rw [← trim_pathText_iff, h]
  have hstripped : (if (pathText (pathState s (clean key))).head? = some '/' then
      (pathText (pathState s (clean key))).tail else pathText (pathState s (clean key))) = key ↔
        Literal s key := by
    obtain ⟨r, path, hpath⟩ := List.exists_cons_of_ne_nil (pathState_ne_nil s (clean key))
    rw [← pathText_iff, hpath]
    exact ⟨congrArg ('/' :: ·), congrArg List.tail⟩
  cases scheme
  case fs | memory | http | https => exact (htrimmed (htrim rfl rfl)).trans (and_iff_left rfl).symm
  case s3 | gcs | azBlob => exact hstripped.trans (and_iff_left rfl).symm
  all_goals exact iff_of_false pathText_ne fun h => Bool.noConfusion h.2

section
variable {pre name : String}

/-- The name follows a slash, unless the prefix is empty. -/
theorem joinPrefix_cases (pre name : String) : (pre = "" ∧ joinPrefix pre name = name) ∨
    pre ≠ "" ∧ ∃ p, (pre.toList = p ∨ pre.toList = p ++ ['/']) ∧
      (joinPrefix pre name).toList = p ++ '/' :: name.toList := by
  unfold joinPrefix
  split_ifs with hempty hslash
  · exact .inl ⟨hempty, rfl⟩
  · obtain ⟨p, hp⟩ := List.getLast?_eq_some_iff.mp hslash
    refine .inr ⟨hempty, p, .inr hp, ?_⟩
    rw [String.toList_append, hp, List.append_assoc]
    rfl
  · refine .inr ⟨hempty, pre.toList, .inl rfl, ?_⟩
    rw [String.toList_append, String.toList_append, List.append_assoc]
    rfl

theorem literal_joinPrefix {s : String} (hname : '/' ∉ name.toList) :
    Literal s (joinPrefix pre name).toList ↔
      if pre = "" then Literal s name.toList
      else Literal s pre.toList ∧ PlainSegment s name.toList := by
  obtain ⟨hempty, hjoin⟩ | ⟨hne, p, hp, hjoin⟩ := joinPrefix_cases pre name
  · rw [if_pos hempty, hjoin]
  · have hpre : Literal s pre.toList ↔ Literal s p := by
      obtain hp | hp := hp
      · rw [hp]
      · rw [hp, literal_append_segment List.not_mem_nil]
        exact and_iff_left plainSegment_nil
    rw [if_neg hne, hjoin, literal_append_segment hname, hpre]

/-- With a prefix without slashes at the front, keys have none. -/
theorem trim_joinPrefix (hname : PlainName name) (hpre : pre.toList.head? ≠ some '/') :
    trimSlashes (joinPrefix pre name).toList = (joinPrefix pre name).toList := by
  refine trimSlashes_eq ?_
  obtain ⟨-, hjoin⟩ | ⟨hne, p, hp, hjoin⟩ := joinPrefix_cases pre name
  · rw [hjoin]
    intro hslash
    exact hname.2.2.2 (List.mem_of_head? hslash)
  · rw [hjoin]
    cases p with
    | nil =>
      obtain hp | hp := hp
      · exact absurd (String.toList_eq_nil_iff.mp hp) hne
      · exact absurd (by rw [hp]; rfl) hpre
    | cons c p =>
      have hhead : pre.toList.head? = some c := by
        obtain hp | hp := hp <;> rw [hp] <;> rfl
      rw [hhead] at hpre
      exact hpre

end

/-! What a receipt is parsed to. -/

section
variable {parseHost : HostParser} {uri key : String} {parsed : ParsedUri}

theorem destUri_fs (hfs : parsed.scheme = .fs) (htrim : trimSlashes key.toList = key.toList) :
    destUri parsed key = Scheme.fs.asStr ++ "://" ++ ("/" ++ key) := by
  rw [destUri, hfs, trimStartSlashes, htrim, String.ofList_toList]
  rw [← String.append_assoc]
  rfl

theorem destUri_other (hfs : parsed.scheme ≠ .fs) : destUri parsed key =
    parsed.scheme.asStr ++ "://" ++ (((parsed.bucket <|> parsed.host).getD "") ++ ("/" ++ key)) := by
  unfold destUri
  split
  · contradiction
  · rw [← String.append_assoc, ← String.append_assoc]

theorem ofUrl_same (uri : String) (scheme : Scheme) (u : Record) :
    (ofUrl uri scheme u).scheme = scheme ∧ (ofUrl uri scheme u).host = hostStr u ∧
      (ofUrl uri scheme u).bucket = (if scheme.bucketed then hostStr u else none) ∧
        (ofUrl uri scheme u).original = uri := by
  cases hbucket : scheme.bucketed <;> simp [ofUrl, hbucket]

theorem hostText (uri : String) (scheme : Scheme) (u : Record) :
    (((ofUrl uri scheme u).bucket <|> (ofUrl uri scheme u).host).getD "").toList = u.host := by
  obtain ⟨-, hhost, hbucket, -⟩ := ofUrl_same uri scheme u
  have hstr : ((hostStr u).getD "").toList = u.host := by
    unfold hostStr
    split_ifs with hnil
    · exact hnil.symm
    · exact String.toList_ofList
  rw [hhost, hbucket]
  split_ifs
  · cases hu : hostStr u <;> rw [hu] at hstr <;> exact hstr
  · exact hstr

theorem asStr_file {scheme : Scheme} (h : scheme.asStr = "file") : scheme = .fs := by
  revert h
  cases scheme <;> decide

/-- The receipt is parsed to the same place, with the path that is read for the key. -/
theorem destUri_parses (rules : HostRules parseHost) (h : parseUri parseHost uri = .ok parsed)
    (htrim : parsed.scheme = .fs → trimSlashes key.toList = key.toList) :
    ∃ v, parseUri parseHost (destUri parsed key) = .ok v ∧ v.scheme = parsed.scheme ∧
      v.original = destUri parsed key ∧
        (parsed.scheme ≠ .fs → v.host = parsed.host ∧ v.bucket = parsed.bucket) ∧
          (objectKey v).toList = keyText parsed.scheme
            (pathText (pathState parsed.scheme.asStr (clean key.toList))) := by
  by_cases hfs : parsed.scheme = .fs
  · have hslash : ("/" ++ key).toList = '/' :: key.toList := String.toList_append
    have hfile := parse_printed_file parseHost key.toList
    rw [← hslash] at hfile
    have hparse := parseUri_asStr .fs hfile
    rw [← destUri_fs hfs (htrim hfs)] at hparse
    obtain ⟨hscheme, -, -, horiginal⟩ := ofUrl_same (destUri parsed key) .fs
      ⟨"file", [], none, pathState "file" (clean key.toList)⟩
    refine ⟨_, hparse, hscheme.trans hfs.symm, horiginal, absurd hfs, ?_⟩
    rw [objectKey_ofUrl, hfs]
    rfl
  · obtain ⟨-, rfl⟩ | ⟨name, rest, u, -, hname, hurl, hparsed⟩ := parseUri_ok h
    · exact absurd rfl hfs
    · obtain ⟨hspecial, hfile⟩ := Scheme.parse_special hname
      have hhost := parse_host (mt hfile.mp hfs) hurl
      rw [hspecial] at hhost
      have hprinted := Url.parse_printed rules (mt asStr_file hfs) hhost key.toList
      have htext : (((parsed.bucket <|> parsed.host).getD "") ++ ("/" ++ key)).toList =
          u.host ++ '/' :: key.toList := by
        rw [String.toList_append, hparsed, hostText]
        exact congrArg _ String.toList_append
      rw [← htext] at hprinted
      have hparse := parseUri_asStr parsed.scheme hprinted
      rw [← destUri_other hfs] at hparse
      obtain ⟨hscheme, hvhost, hvbucket, horiginal⟩ := ofUrl_same (destUri parsed key) parsed.scheme
        ⟨parsed.scheme.asStr, u.host, none, pathState parsed.scheme.asStr (clean key.toList)⟩
      obtain ⟨-, hphost, hpbucket, -⟩ := ofUrl_same uri parsed.scheme u
      refine ⟨_, hparse, hscheme, horiginal, fun _ => ⟨?_, ?_⟩, objectKey_ofUrl _ _ _⟩
      · exact hvhost.trans ((congrArg ParsedUri.host hparsed).trans hphost).symm
      · exact hvbucket.trans ((congrArg ParsedUri.bucket hparsed).trans hpbucket).symm

end

/-! The backend that a receipt leads to. -/

/-- The port of the URL goes into the endpoint. -/
def KeepsPort (parseHost : HostParser) (uri : ParsedUri) : Prop :=
  (uri.scheme = .http ∨ uri.scheme = .https) ∧ ∃ host u port, uri.host = some host ∧
    (uri.scheme.asStr ++ "://" ++ host ++ ":").toList <+: uri.original.toList ∧
      parseUrl parseHost uri.original = .ok u ∧ u.port = some port

section
variable {sv : Services} {u v : ParsedUri} {b : Backend}

theorem orBadUri_ok {uri : ParsedUri} {reason s : String} {o : Option String} :
    orBadUri uri reason o = .ok s ↔ o = some s := by
  cases o with
  | none => exact iff_of_false nofun nofun
  | some s' =>
    exact ⟨fun h => congrArg some (Except.ok.inj h), fun h => congrArg _ (Option.some.inj h)⟩

theorem buildOperator_ok : buildOperator sv u = .ok b ↔
    backendOf sv u = .ok b ∧ sv.operatorNew b = .ok () := by
  unfold buildOperator
  rw [bind_ok]
  constructor
  · rintro ⟨b', hb, h⟩
    obtain ⟨_, hnew, h⟩ := bind_ok.mp h
    obtain rfl := Except.ok.inj h
    refine ⟨hb, ?_⟩
    cases hres : sv.operatorNew b' with
    | error e =>
      rw [hres] at hnew
      cases hnew
    | ok _ => rfl
  · rintro ⟨hb, hnew⟩
    refine ⟨b, hb, ?_⟩
    rw [hnew]
    rfl

theorem portSuffix_eq_nil {host : String} (hhost : u.host = some host)
    (hscheme : u.scheme = .http ∨ u.scheme = .https) :
    portSuffix sv u.scheme.asStr host u = "" ↔ ¬KeepsPort sv.parseHost u := by
  unfold portSuffix
  split_ifs with hstart
  · cases hurl : parseUrl sv.parseHost u.original with
    | error e =>
      refine iff_of_true rfl ?_
      rintro ⟨-, host', w, port, -, -, hw, -⟩
      rw [hurl] at hw
      cases hw
    | ok w =>
      cases hport : w.port with
      | none =>
        refine iff_of_true (by simp only [hport]; rfl) ?_
        rintro ⟨-, host', w', port, -, -, hw, hsome⟩
        obtain rfl := Except.ok.inj (hurl.symm.trans hw)
        rw [hport] at hsome
        cases hsome
      | some port =>
        refine iff_of_false ?_ fun h => h ⟨hscheme, host, w, port, hhost, hstart, hurl, hport⟩
        simp only [hport]
        intro h
        have hlist := congrArg String.toList h
        rw [Option.map_some, Option.getD_some, String.toList_append] at hlist
        cases hlist
  · refine iff_of_true rfl ?_
    rintro ⟨-, host', w, port, hhost', hstart', -⟩
    rw [hhost] at hhost'
    exact hstart (Option.some.inj hhost' ▸ hstart')

/-- Without a port in the text there is no suffix. -/
theorem portSuffix_portless {scheme host t : String}
    (h : v.original = scheme ++ "://" ++ host ++ ("/" ++ t)) : portSuffix sv scheme host v = "" := by
  refine if_neg ?_
  rw [h, String.toList_append, String.toList_append (s := scheme ++ "://" ++ host),
    List.prefix_append_right_inj, String.toList_append]
  rintro ⟨r, hr⟩
  cases hr

theorem backendOf_same (hscheme : v.scheme = u.scheme)
    (hsame : u.scheme ≠ .fs → v.host = u.host ∧ v.bucket = u.bucket)
    (hhttp : ¬(u.scheme = .http ∨ u.scheme = .https)) :
    backendOf sv v = .ok b ↔ backendOf sv u = .ok b := by
  unfold backendOf
  rw [hscheme]
  cases hs : u.scheme
  case fs => exact Iff.rfl
  case http => exact absurd (.inl hs) hhttp
  case https => exact absurd (.inr hs) hhttp
  all_goals
    obtain ⟨hhost, hbucket⟩ := hsame (by rw [hs]; exact Scheme.noConfusion)
    simp only [bind_ok, orBadUri_ok, hhost, hbucket]

theorem httpBackend_ok {s : String} : httpBackend sv s u = .ok b ↔
    ∃ host, u.host = some host ∧ .http (s ++ "://" ++ host ++ portSuffix sv s host u) = b := by
  unfold httpBackend
  simp only [bind_ok, orBadUri_ok]
  exact exists_congr fun host => and_congr_right fun _ => ⟨Except.ok.inj, congrArg _⟩

theorem backendOf_http (h : u.scheme = .http ∨ u.scheme = .https) :
    backendOf sv u = httpBackend sv u.scheme.asStr u := by
  obtain h | h := h <;> rw [backendOf, h] <;> rfl

/-- The receipt leads to the backend exactly if no port has been kept. -/
theorem backendOf_receipt {key : String} (hb : backendOf sv u = .ok b)
    (hscheme : v.scheme = u.scheme) (hsame : u.scheme ≠ .fs → v.host = u.host ∧ v.bucket = u.bucket)
    (hbucket : u.scheme.bucketed = false → u.bucket = none)
    (horiginal : v.original = destUri u key) :
    backendOf sv v = .ok b ↔ ¬KeepsPort sv.parseHost u := by
  by_cases hhttp : u.scheme = .http ∨ u.scheme = .https
  · have hfs : u.scheme ≠ .fs := by
      rintro hfs
      rw [hfs] at hhttp
      exact absurd hhttp (by decide)
    have hnone : u.bucket = none := hbucket (by obtain h | h := hhttp <;> rw [h] <;> rfl)
    rw [backendOf_http hhttp, httpBackend_ok] at hb
    obtain ⟨host, hhost, rfl⟩ := hb
    rw [destUri_other hfs, hnone, hhost] at horiginal
    rw [← portSuffix_eq_nil hhost hhttp, backendOf_http (hscheme ▸ hhttp), httpBackend_ok,
      (hsame hfs).1, hhost, hscheme]
    have hnil : portSuffix sv u.scheme.asStr host v = "" := by
      refine portSuffix_portless (t := key) ?_
      rw [horiginal, ← String.append_assoc]
      rfl
    constructor
    · rintro ⟨host', hhost', h⟩
      obtain rfl := Option.some.inj hhost'
      rw [hnil] at h
      exact ((String.append_right_inj _).mp (Backend.http.inj h)).symm
    · intro h
      exact ⟨host, rfl, by rw [hnil, h]⟩
  · rw [backendOf_same hscheme hsame hhttp]
    exact iff_of_true hb fun h => hhttp h.1

end

/-! When a receipt can be read back. -/

/-- The URI leads to the place of the object; of keys only what `f` leaves is compared. -/
def LeadsTo (sv : Services) (f : String → String) (uri : String) (put : Put) : Prop :=
  ∃ v, parseUri sv.parseHost uri = .ok v ∧ buildOperator sv v = .ok put.backend ∧
    f (objectKey v) = f put.key

/-- The name stands in a URL as it is, and so does the destination in a file URL, where no drive
letter is made of the name. No port is kept. -/
structure Rereads (parseHost : HostParser) (parsed : ParsedUri) (name : String) : Prop where
  plain : PlainSegment parsed.scheme.asStr name.toList
  file : parsed.scheme = .fs → Literal "file" (objectKey parsed).toList ∧
    (objectKey parsed = "" → ∀ c, c.isAlpha = true → name.toList ≠ [c, '|'])
  port : ¬KeepsPort parseHost parsed

section
variable {sv : Services} {uri name : String} {parsed : ParsedUri}

theorem objectKey_head (hslash : parsed.scheme.keepsSlash = false)
    (hbucket : parsed.scheme.bucketed = false) : (objectKey parsed).toList.head? ≠ some '/' := by
  have htrimmed : (trimStartSlashes parsed.path).toList.head? ≠ some '/' := by
    rw [trimStartSlashes, String.toList_ofList]
    exact head_trimSlashes _
  unfold objectKey
  cases hs : parsed.scheme
  case fs | memory | http | https => exact htrimmed
  case s3 | gcs | azBlob => rw [hs] at hbucket; cases hbucket
  all_goals rw [hs] at hslash; cases hslash

/-- What is parsed without a bare path stands as it is, and has a bucket only for bucket schemes. -/
theorem parseUri_other (h : parseUri sv.parseHost uri = .ok parsed) (hfs : parsed.scheme ≠ .fs) :
    Literal parsed.scheme.asStr (objectKey parsed).toList := by
  obtain ⟨-, rfl⟩ | ⟨s, rest, u, -, hs, hurl, hparsed⟩ := parseUri_ok h
  · exact absurd rfl hfs
  · have hfile := mt asStr_file hfs
    rw [hparsed, objectKey_ofUrl, ← hparsed]
    refine literal_keyText hfile (literal_pathText hfile fun r hr => ?_)
    exact (parse_path hurl r hr).congr (Scheme.parse_special hs).1

theorem parseUri_bucket (h : parseUri sv.parseHost uri = .ok parsed)
    (hbucket : parsed.scheme.bucketed = false) : parsed.bucket = none := by
  obtain ⟨-, rfl⟩ | ⟨s, rest, u, -, -, -, hparsed⟩ := parseUri_ok h
  · rfl
  · have hnone := (ofUrl_same uri parsed.scheme u).2.2.1
    rwa [← hparsed, hbucket, if_neg Bool.false_ne_true] at hnone

theorem rereads_iff (h : parseUri sv.parseHost uri = .ok parsed) (hname : PlainName name) :
    Rereads sv.parseHost parsed name ↔
      Literal parsed.scheme.asStr (joinPrefix (objectKey parsed) name).toList ∧
        ¬KeepsPort sv.parseHost parsed := by
  have hparts : Literal parsed.scheme.asStr (joinPrefix (objectKey parsed) name).toList ↔
      PlainSegment parsed.scheme.asStr name.toList ∧ (parsed.scheme = .fs →
        Literal "file" (objectKey parsed).toList ∧
          (objectKey parsed = "" → ∀ c, c.isAlpha = true → name.toList ≠ [c, '|'])) := by
    rw [literal_joinPrefix hname.2.2.2, literal_segment hname.2.2.2]
    by_cases hfs : parsed.scheme = .fs
    · rw [hfs]
      by_cases hempty : objectKey parsed = ""
      · have hnil : Literal "file" (objectKey parsed).toList := by
          rw [hempty]
          exact (literal_segment List.not_mem_nil).mpr ⟨plainSegment_nil, nofun⟩
        rw [if_pos hempty]
        exact and_congr_right fun _ =>
          ⟨fun hbar _ => ⟨hnil, fun _ => hbar rfl⟩, fun hbar _ => (hbar rfl).2 hempty⟩
      · rw [if_neg hempty]
        exact ⟨fun h => ⟨h.2, fun _ => ⟨h.1, fun heq => absurd heq hempty⟩⟩,
          fun h => ⟨(h.2 rfl).1, h.1⟩⟩
    · have hfile := mt asStr_file hfs
      have hpre := parseUri_other h hfs
      simp [hfs, hfile, hpre]
  rw [hparts, and_assoc]
  exact ⟨fun h => ⟨h.plain, h.file, h.port⟩, fun h => ⟨h.1, h.2.1, h.2.2⟩⟩

theorem leadsTo_iff (rules : HostRules sv.parseHost) (h : parseUri sv.parseHost uri = .ok parsed)
    (hname : PlainName name) {put : Put} (hbuild : buildOperator sv parsed = .ok put.backend)
    (hkey : put.key = joinPrefix (objectKey parsed) name) :
    (LeadsTo sv id (destUri parsed put.key) put ↔
      Rereads sv.parseHost parsed name ∧ parsed.scheme.keepsSlash = false) ∧
    (LeadsTo sv trimStartSlashes (destUri parsed put.key) put ↔
      Rereads sv.parseHost parsed name) := by
  have htrim (hslash : parsed.scheme.keepsSlash = false)
      (hbucket : parsed.scheme.bucketed = false) : trimSlashes put.key.toList = put.key.toList := by
    rw [hkey]
    exact trim_joinPrefix hname (objectKey_head hslash hbucket)
  obtain ⟨v, hv, hscheme, horiginal, hsame, hvkey⟩ := destUri_parses rules h
    fun hfs => htrim (by rw [hfs]; rfl) (by rw [hfs]; rfl)
  have hlit := rereads_iff h hname
  rw [← hkey] at hlit
  obtain ⟨hbackend, hnew⟩ := buildOperator_ok.mp hbuild
  have hback : buildOperator sv v = .ok put.backend ↔ ¬KeepsPort sv.parseHost parsed := by
    rw [buildOperator_ok, and_iff_left hnew]
    exact backendOf_receipt hbackend hscheme hsame (parseUri_bucket h) horiginal
  have hleads (f : String → String) : LeadsTo sv f (destUri parsed put.key) put ↔
      ¬KeepsPort sv.parseHost parsed ∧ f (objectKey v) = f put.key := by
    rw [← hback]
    constructor
    · rintro ⟨v', hv', hb, hf⟩
      obtain rfl := Except.ok.inj (hv.symm.trans hv')
      exact ⟨hb, hf⟩
    · exact fun hbf => ⟨v, hv, hbf⟩
  constructor
  · rw [hleads, hlit, id, id, ← String.toList_inj, hvkey,
      keyText_pathState_iff htrim]
    tauto
  · rw [hleads, hlit, trimStartSlashes, trimStartSlashes, String.ofList_inj,
      hvkey, trim_keyText, trim_pathText_iff]
    exact and_comm

end

/-- The URI of a receipt leads to the key of its upload exactly if the key keeps no slash before it,
the name stands in a URL as it is and no port is kept; where leading slashes do not matter,
the last two are enough. -/
theorem receipts_leadTo_iff (sv : UploadServices) (rules : HostRules sv.parseHost)
    {args : UploadArgs} {puts : List Put} {receipts : List Receipt}
    (h : writeCollection sv args = (puts, .ok receipts)) :
    ∃ (uri : String) (parsed : ParsedUri) (ups : List Upload), args.uri = some uri ∧
      parseUri sv.parseHost uri = .ok parsed ∧ args.files = .ok (ups.map Upload.path) ∧
        puts = ups.map Upload.put ∧ receipts = ups.map Upload.receipt ∧
          ∀ up ∈ ups, ∃ name, fileName up.path = some name ∧
            (LeadsTo sv.toServices id up.receipt.uri up.put ↔
              Rereads sv.parseHost parsed name ∧ parsed.scheme.keepsSlash = false) ∧
            (LeadsTo sv.toServices trimStartSlashes up.receipt.uri up.put ↔
              Rereads sv.parseHost parsed name) := by
  obtain ⟨uri, parsed, backend, ups, huri, hparse, hbuild, hfiles, hputs, hrec, hall⟩ :=
    writeCollection_ok h
  refine ⟨uri, parsed, ups, huri, hparse, hfiles, hputs, hrec, fun up hup => ?_⟩
  obtain ⟨name, hname, hbackend, hkey, hdest⟩ := hall up hup
  refine ⟨name, hname, ?_⟩
  rw [hdest]
  exact leadsTo_iff rules hparse (fileName_eq hname).1 (hbackend ▸ hbuild) hkey

def hostSet : List Char := "abcdefghijklmnopqrstuvwxyz0123456789.-".toList

/-- Only hosts that are printed as they are. -/
def plainHost : HostParser := fun o h =>
  if h.all hostSet.contains && (o || !h.isEmpty) then .ok h
  else .error "invalid international domain name"

theorem plainHost_ok {o : Bool} {h b : List Char} (hb : plainHost o h = .ok b) :
    b = h ∧ (∀ c ∈ h, c ∈ hostSet) ∧ (o = false → h ≠ []) := by
  unfold plainHost at hb
  split_ifs at hb with hall
  rw [Bool.and_eq_true, List.all_eq_true] at hall
  refine ⟨(Except.ok.inj hb).symm, fun c hc => List.contains_iff_mem.mp (hall.1 c hc), ?_⟩
  rintro rfl
  simpa using hall.2

theorem hostSet_plain {c : Char} (hc : c ∈ hostSet) : 32 < c.toNat ∧ c ≠ '/' ∧ c ≠ '?' ∧ c ≠ '#' ∧
    c ≠ '@' ∧ c ≠ '\\' ∧ c ≠ ':' ∧ c ≠ '[' := by
  have hall : (hostSet.all fun c => 32 < c.toNat ∧
      c ∉ ['/', '?', '#', '@', '\\', ':', '[']) = true := by decide +kernel
  have hplain := of_decide_eq_true (List.all_eq_true.mp hall c hc)
  simpa using hplain

theorem splitPort_portless {h : List Char} (hall : ∀ c ∈ h, c ∈ hostSet) :
    splitPort false h = (h, none) := by
  induction h with
  | nil => rfl
  | cons c h ih =>
    obtain ⟨-, -, -, -, -, -, hcolon, hbracket⟩ := hostSet_plain (hall c List.mem_cons_self)
    rw [splitPort, if_neg fun h => hcolon h.1, if_neg hbracket, ite_self,
      ih fun x hx => hall x (List.mem_cons_of_mem c hx)]

theorem plainHost_rules : HostRules plainHost where
  again := by
    intro o h b hb
    obtain ⟨rfl, -⟩ := plainHost_ok hb
    exact hb
  plain := by
    intro o h b hb c hc
    obtain ⟨rfl, hall, -⟩ := plainHost_ok hb
    obtain ⟨hlarge, hslash, hquery, hhash, hat, hback, -⟩ := hostSet_plain (hall c hc)
    exact ⟨hlarge, hslash, hquery, hhash, hat, hback⟩
  colons := by
    intro o h b hb
    obtain ⟨rfl, hall, -⟩ := plainHost_ok hb
    exact splitPort_portless hall
  nonempty := by
    intro h b hb
    obtain ⟨rfl, -, hne⟩ := plainHost_ok hb
    exact hne rfl
  empty := rfl

def emptySha256 : String := "e3b0c44298fc1c149afbf4c8996fb92427ae41e4649b934ca495991b7852b855"

/-- A bucket into which everything can be written, and empty files. -/
def bucketServices : UploadServices where
  parseHost := plainHost
  env _ := none
  operatorNew _ := .ok ()
  read _ _ := .ok []
  sha256OfFile _ _ := .ok emptySha256
  objectExists _ _ _ := .ok false
  write _ _ := .ok ()
  writeJson _ _ := .ok ()

def bucketArgs (path : String) : UploadArgs := ⟨.ok [path], some "gs://bucket/dir", none⟩

theorem writeCollection_bucket : writeCollection bucketServices (bucketArgs "data/a.txt") =
    ([⟨.gcs "bucket", "dir/a.txt", []⟩], .ok [⟨"gs://bucket/dir/a.txt", 0, emptySha256⟩]) := by
  decide +kernel

theorem receipts_leadTo_bucket : ∃ (uri : String) (parsed : ParsedUri) (ups : List Upload),
    (bucketArgs "data/a.txt").uri = some uri ∧ parseUri bucketServices.parseHost uri = .ok parsed ∧
      (bucketArgs "data/a.txt").files = .ok (ups.map Upload.path) ∧
        [⟨.gcs "bucket", "dir/a.txt", []⟩] = ups.map Upload.put ∧
          [⟨"gs://bucket/dir/a.txt", 0, emptySha256⟩] = ups.map Upload.receipt ∧
            ∀ up ∈ ups, ∃ name, fileName up.path = some name ∧
              (LeadsTo bucketServices.toServices id up.receipt.uri up.put ↔
                Rereads bucketServices.parseHost parsed name ∧ parsed.scheme.keepsSlash = false) ∧
              (LeadsTo bucketServices.toServices trimStartSlashes up.receipt.uri up.put ↔
                Rereads bucketServices.parseHost parsed name) :=
  receipts_leadTo_iff bucketServices plainHost_rules writeCollection_bucket

/-- A space is written as `%20` in the path of the receipt's URI. -/
theorem receipts_leadTo_fails : writeCollection bucketServices (bucketArgs "data/a b.txt") =
      ([⟨.gcs "bucket", "dir/a b.txt", []⟩], .ok [⟨"gs://bucket/dir/a b.txt", 0, emptySha256⟩]) ∧
    ¬LeadsTo bucketServices.toServices id "gs://bucket/dir/a b.txt"
      ⟨.gcs "bucket", "dir/a b.txt", []⟩ := by
  refine ⟨by decide +kernel, ?_⟩
  rintro ⟨v, hv, -, hkey⟩
  have hread : (parseUri bucketServices.parseHost "gs://bucket/dir/a b.txt").map objectKey =
      .ok "dir/a%20b.txt" := by decide +kernel
  rw [hv] at hread
  exact absurd (hkey.symm.trans (Except.ok.inj hread)) (by decide)

end Spade.Data
