import Spade.Lib.IdleSteps
import Spade.Lib.Numerals
import Spade.Lib.UrlPath

set_option autoImplicit false

/-!
# Hierarchical URLs

How the WHATWG URL standard reads what follows `scheme://`, and that it reads what has been
printed from a host and a path. The host parser is a parameter.
-/
namespace Url
open Spade.IdleSteps (bind_ok)

structure Record where
  scheme : String
  host : List Char
  port : Option ℕ
  path : List (List Char)

/-- The parser of hosts, with whether the host is opaque. It gives the host in the form in which it
is printed, or an error text. -/
abbrev HostParser := Bool → List Char → Except String (List Char)

def endsAuthority (scheme : String) (c : Char) : Bool :=
  c = '/' || c = '?' || c = '#' || (isSpecial scheme && c = '\\')

def afterUserinfo (authority : List Char) : Except String (List Char) :=
  if '@' ∈ authority then
    let rest := authority.rtakeWhile (· ≠ '@')
    if rest = [] then .error "empty host" else .ok rest
  else .ok authority

/-- The host and what follows its first colon; the flag tells that a bracket is open. -/
def splitPort : Bool → List Char → List Char × Option (List Char)
  | _, [] => ([], none)
  | inBrackets, c :: s =>
    if c = ':' ∧ inBrackets = false then ([], some s)
    else
      let rest := splitPort (if c = '[' then true else if c = ']' then false else inBrackets) s
      (c :: rest.1, rest.2)

def defaultPort (scheme : String) : Option ℕ :=
  [("ftp", 21), ("http", 80), ("https", 443), ("ws", 80), ("wss", 443)].lookup scheme

def parsePort (scheme : String) : Option (List Char) → Except String (Option ℕ)
  | none => .ok none
  | some s =>
    let n := Numerals.value (fun c => c.toNat - '0'.toNat) 10 s
    if s.all Char.isDigit = false ∨ 65535 < n then .error "invalid port number"
    else if s = [] ∨ defaultPort scheme = some n then .ok none
    else .ok (some n)

/-- The path after the authority. It is empty where nothing follows, but in a special URL. -/
def pathStart (scheme : String) : List Char → List (List Char)
  | [] => if isSpecial scheme then pathState scheme [] else []
  | c :: s =>
    if c = '/' ∨ isSpecial scheme ∧ c = '\\' then pathState scheme s
    else if isSpecial scheme then pathState scheme (c :: s)
    else []

section
variable (parseHost : HostParser)

/-- After `file://`. A drive letter in the place of the host belongs to the path. -/
def parseFile (text : List Char) : Except String Record :=
  let buffer := text.takeWhile fun c => !endsAuthority "file" c
  let rest := text.dropWhile fun c => !endsAuthority "file" c
  if isDrive buffer then .ok ⟨"file", [], none, pathState "file" text⟩
  else if buffer = [] then .ok ⟨"file", [], none, pathStart "file" rest⟩
  else do
    let host ← parseHost false buffer
    return ⟨"file", if host = "localhost".toList then [] else host, none, pathStart "file" rest⟩

def parseAuthority (scheme : String) (text : List Char) : Except String Record := do
  let rest := text.dropWhile fun c => !endsAuthority scheme c
  let hostPort ← afterUserinfo (text.takeWhile fun c => !endsAuthority scheme c)
  let (buffer, portText) := splitPort false hostPort
  if buffer = [] ∧ (isSpecial scheme ∨ portText ≠ none) then .error "empty host"
  else
    let host ← parseHost (!isSpecial scheme) buffer
    let port ← parsePort scheme portText
    return ⟨scheme, host, port, pathStart scheme rest⟩

/-- The URL `scheme://text`, with a scheme in lower case. -/
def parse (scheme : String) (text : List Char) : Except String Record :=
  if scheme = "file" then parseFile parseHost (clean text)
  else if isSpecial scheme then
    parseAuthority parseHost scheme ((clean text).dropWhile fun c => c = '/' ∨ c = '\\')
  else parseAuthority parseHost scheme (clean text)

/-- What the standard says about hosts. The form in which a host is printed is parsed to itself, has
no control characters, spaces and delimiters, and colons only between brackets; only an opaque
host may be empty. -/
structure HostRules : Prop where
  again : ∀ {o h b}, parseHost o h = .ok b → parseHost o b = .ok b
  plain : ∀ {o h b}, parseHost o h = .ok b →
    ∀ c ∈ b, 32 < c.toNat ∧ c ≠ '/' ∧ c ≠ '?' ∧ c ≠ '#' ∧ c ≠ '@' ∧ c ≠ '\\'
  colons : ∀ {o h b}, parseHost o h = .ok b → splitPort false b = (b, none)
  nonempty : ∀ {h b}, parseHost false h = .ok b → b ≠ []
  empty : parseHost true [] = .ok []

end

/-! What is parsed. -/

section
variable {parseHost : HostParser} {scheme : String} {text : List Char} {u : Record}

theorem pathStart_plain : ∀ s ∈ pathStart scheme text, PlainSegment scheme s := by
  unfold pathStart
  split
  · split_ifs
    · exact pathState_plain
    · exact nofun
  · split_ifs
    · exact pathState_plain
    · exact pathState_plain
    · exact nofun

theorem parseAuthority_ok (h : parseAuthority parseHost scheme text = .ok u) :
    (∃ buffer, parseHost (!isSpecial scheme) buffer = .ok u.host) ∧
      ∃ rest, u.path = pathStart scheme rest := by
  unfold parseAuthority at h
  obtain ⟨hostPort, -, h⟩ := bind_ok.mp h
  simp only at h
  split_ifs at h
  obtain ⟨host, hhost, h⟩ := bind_ok.mp h
  obtain ⟨port, -, h⟩ := bind_ok.mp h
  obtain rfl := Except.ok.inj h
  exact ⟨⟨_, hhost⟩, _, rfl⟩

theorem parse_host (hfile : scheme ≠ "file") (h : parse parseHost scheme text = .ok u) :
    ∃ buffer, parseHost (!isSpecial scheme) buffer = .ok u.host := by
  rw [parse, if_neg hfile] at h
  split_ifs at h
  · exact (parseAuthority_ok h).1
  · exact (parseAuthority_ok h).1

theorem parseFile_path (h : parseFile parseHost text = .ok u) :
    ∀ s ∈ u.path, PlainSegment "file" s := by
  unfold parseFile at h
  simp only at h
  split_ifs at h
  · obtain rfl := Except.ok.inj h
    exact pathState_plain
  · obtain rfl := Except.ok.inj h
    exact pathStart_plain
  · obtain ⟨host, -, h⟩ := bind_ok.mp h
    obtain rfl := Except.ok.inj h
    exact pathStart_plain

/-- Every segment that is parsed would be read as it is. -/
theorem parse_path (h : parse parseHost scheme text = .ok u) :
    ∀ s ∈ u.path, PlainSegment scheme s := by
  unfold parse at h
  split_ifs at h with hfile
  · rw [hfile]
    exact parseFile_path h
  · obtain ⟨-, rest, hpath⟩ := parseAuthority_ok h
    rw [hpath]
    exact pathStart_plain
  · obtain ⟨-, rest, hpath⟩ := parseAuthority_ok h
    rw [hpath]
    exact pathStart_plain

/-! What is parsed of a host and a path that have been printed. -/

theorem clean_cons {c : Char} (hc : 32 < c.toNat) (t : List Char) :
    clean (c :: t) = c :: clean t := by
  have hkeep : decide (c.toNat ≤ 32) = false := decide_eq_false (by omega)
  have hend : (c :: t).rdropWhile (fun c => decide (c.toNat ≤ 32)) =
      c :: t.rdropWhile fun c => decide (c.toNat ≤ 32) := by
    rw [List.rdropWhile, List.reverse_cons, List.dropWhile_append]
    split_ifs with hnil
    · rw [List.rdropWhile, List.isEmpty_iff.mp hnil, List.dropWhile_cons_of_neg (by simp [hkeep])]
      rfl
    · rw [List.reverse_append]
      rfl
  rw [clean, hend, List.filter_cons_of_pos, clean]
  rw [decide_eq_true_eq]
  refine ⟨?_, ?_, ?_⟩ <;> rintro rfl <;> exact absurd hc (by decide)

theorem clean_append {b : List Char} (hb : ∀ c ∈ b, 32 < c.toNat) (t : List Char) :
    clean (b ++ t) = b ++ clean t := by
  induction b with
  | nil => rfl
  | cons c b ih =>
    rw [List.cons_append, clean_cons (hb c List.mem_cons_self), List.cons_append,
      ih fun x hx => hb x (List.mem_cons_of_mem c hx)]

/-- After `file:///` there is no host. -/
theorem parse_printed_file (parseHost : HostParser) (key : List Char) :
    parse parseHost "file" ('/' :: key) = .ok ⟨"file", [], none, pathState "file" (clean key)⟩ := by
  rw [parse, if_pos rfl, clean_cons (by decide)]
  rfl

variable {b : List Char}

theorem parseAuthority_printed (rules : HostRules parseHost)
    (hb : ∃ buffer, parseHost (!isSpecial scheme) buffer = .ok b) (t : List Char) :
    parseAuthority parseHost scheme (b ++ '/' :: t) = .ok ⟨scheme, b, none, pathState scheme t⟩ := by
  obtain ⟨buffer, hb⟩ := hb
  have hplain := rules.plain hb
  have hinside : ∀ c ∈ b, (!endsAuthority scheme c) = true := by
    intro c hc
    obtain ⟨-, hslash, hquery, hhash, -, hback⟩ := hplain c hc
    simp [endsAuthority, hslash, hquery, hhash, hback]
  have hslash : (!endsAuthority scheme '/') = false := by simp [endsAuthority]
  have hhost : (b ++ '/' :: t).takeWhile (fun c => !endsAuthority scheme c) = b := by
    rw [List.takeWhile_append_of_pos hinside, List.takeWhile_cons, hslash, if_neg Bool.false_ne_true,
      List.append_nil]
  have hrest : (b ++ '/' :: t).dropWhile (fun c => !endsAuthority scheme c) = '/' :: t := by
    rw [List.dropWhile_append_of_pos hinside, List.dropWhile_cons, hslash, if_neg Bool.false_ne_true]
  have huser : afterUserinfo b = .ok b := if_neg fun hat => (hplain _ hat).2.2.2.2.1 rfl
  have hempty : ¬(b = [] ∧ (isSpecial scheme = true ∨ (none : Option (List Char)) ≠ none)) := by
    rintro ⟨hnil, hspecial | hport⟩
    · rw [hspecial] at hb
      exact rules.nonempty hb hnil
    · exact hport rfl
  have hpath : pathStart scheme ('/' :: t) = pathState scheme t := by
    rw [pathStart, if_pos (.inl rfl)]
  unfold parseAuthority
  rw [hhost, hrest, bind_ok]
  refine ⟨b, huser, ?_⟩
  rw [rules.colons hb]
  simp only [if_neg hempty]
  rw [bind_ok]
  refine ⟨b, rules.again hb, ?_⟩
  rw [bind_ok]
  exact ⟨none, rfl, by rw [hpath]; rfl⟩

/-- The parsed host and a path are parsed again. -/
theorem parse_printed (rules : HostRules parseHost) (hfile : scheme ≠ "file")
    (hb : ∃ buffer, parseHost (!isSpecial scheme) buffer = .ok b) (key : List Char) :
    parse parseHost scheme (b ++ '/' :: key) =
      .ok ⟨scheme, b, none, pathState scheme (clean key)⟩ := by
  have hclean : clean (b ++ '/' :: key) = b ++ '/' :: clean key := by
    obtain ⟨buffer, hb⟩ := hb
    rw [clean_append fun c hc => (rules.plain hb c hc).1, clean_cons (by decide)]
  rw [parse, if_neg hfile, hclean]
  split_ifs with hspecial
  · have hstart : (b ++ '/' :: clean key).dropWhile (fun c => decide (c = '/' ∨ c = '\\')) =
        b ++ '/' :: clean key := by
      obtain ⟨buffer, hb'⟩ := hb
      rw [hspecial] at hb'
      obtain ⟨c, s, rfl⟩ := List.exists_cons_of_ne_nil (rules.nonempty hb')
      obtain ⟨-, hslash, -, -, -, hback⟩ := rules.plain hb' c List.mem_cons_self
      exact List.dropWhile_cons_of_neg (by simp [hslash, hback])
    rw [hstart]
    exact parseAuthority_printed rules hb _
  · exact parseAuthority_printed rules hb _

end

end Url
