import Mathlib.Data.List.DropRight
import Mathlib.Data.List.Infix
import Mathlib.Data.List.Lex
import Mathlib.Data.List.TakeWhile
import Spade.Lib.Words

set_option autoImplicit false

/-!
# Paths of URLs

How the WHATWG URL standard reads the path of a hierarchical URL: characters of the path
percent-encode set are encoded, dot segments are taken away, and the first segment of a `file`
URL may be a drive letter. A text is read as it stands exactly if nothing of this happens to it.
-/
namespace Url

/-! Percent-encoding. -/

def hexDigit (n : ℕ) : Char := Char.ofNat (if n < 10 then 48 + n else 55 + n)

/-- `%` and two digits for each byte of the character. -/
def percentChar (c : Char) : List Char :=
  (String.utf8EncodeChar c).flatMap fun b => ['%', hexDigit (b.toNat / 16), hexDigit (b.toNat % 16)]

def inC0Set (c : Char) : Bool := c.toNat < 32 || 126 < c.toNat

def inPathSet (c : Char) : Bool :=
  inC0Set c || [' ', '"', '#', '<', '>', '?', '^', '\x60', '\x7b', '\x7d'].contains c

def percentEncode (s : List Char) : List Char :=
  s.flatMap fun c => if inPathSet c then percentChar c else [c]

theorem hexDigit_plain : ∀ n < 16, inPathSet (hexDigit n) = false ∧ hexDigit n ≠ '/' ∧
    hexDigit n ≠ '\\' := by decide

theorem percentChar_plain {c x : Char} (h : x ∈ percentChar c) :
    inPathSet x = false ∧ x ≠ '/' ∧ x ≠ '\\' := by
  obtain ⟨b, -, hx⟩ := List.mem_flatMap.mp h
  have hlt : b.toNat < 256 := b.toNat_lt
  simp only [List.mem_cons, List.not_mem_nil, or_false] at hx
  obtain rfl | rfl | rfl := hx
  · decide
  · exact hexDigit_plain _ (by omega)
  · exact hexDigit_plain _ (by omega)

theorem percentEncode_plain {s : List Char} (h : ∀ c ∈ s, inPathSet c = false) :
    percentEncode s = s := by
  induction s with
  | nil => rfl
  | cons c s ih =>
    rw [percentEncode, List.flatMap_cons, if_neg (by rw [h c List.mem_cons_self]; decide)]
    exact congrArg (c :: ·) (ih fun x hx => h x (List.mem_cons_of_mem c hx))

/-! Segments. -/

/-- The schemes whose URLs have a host that is a domain or an address, and `file`. -/
def isSpecial (scheme : String) : Bool :=
  ["ftp", "file", "http", "https", "ws", "wss"].contains scheme

def isSingleDot (s : List Char) : Bool := s.map Char.toLower ∈ [['.'], ['%', '2', 'e']]

def isDoubleDot (s : List Char) : Bool :=
  s.map Char.toLower ∈ [['.', '.'], ['.', '%', '2', 'e'], ['%', '2', 'e', '.'],
    ['%', '2', 'e', '%', '2', 'e']]

def isDot (s : List Char) : Bool := isSingleDot s || isDoubleDot s

def isDrive : List Char → Bool
  | [c, d] => c.isAlpha && (d = ':' || d = '|')
  | _ => false

def normalDrive (s : List Char) : List Char := if isDrive s then s.take 1 ++ [':'] else s

def shorten (scheme : String) (path : List (List Char)) : List (List Char) :=
  if scheme = "file" ∧ path.length = 1 ∧ ∀ s ∈ path, isDrive s ∧ s.getLast? = some ':' then path
  else path.dropLast

def addSegment (scheme : String) (path : List (List Char)) (s : List Char) : List (List Char) :=
  path ++ [if scheme = "file" ∧ path = [] then normalDrive s else s]

/-- A segment is read; `last` tells that no slash follows. -/
def closeSegment (scheme : String) (path : List (List Char)) (s : List Char) (last : Bool) :
    List (List Char) :=
  if isDoubleDot s then
    if last then shorten scheme path ++ [[]] else shorten scheme path
  else if isSingleDot s then if last then path ++ [[]] else path
  else addSegment scheme path s

def closeSegments (scheme : String) : List (List Char) → List (List Char) → List (List Char)
  | path, [] => path
  | path, [s] => closeSegment scheme path s true
  | path, s :: rest => closeSegments scheme (closeSegment scheme path s false) rest

/-- In special URLs a backslash is a slash. -/
def slashes (scheme : String) (text : List Char) : List Char :=
  if isSpecial scheme then text.map fun c => if c = '\\' then '/' else c else text

/-- The path up to the query and the fragment. -/
def pathState (scheme : String) (text : List Char) : List (List Char) :=
  let body := text.takeWhile fun c => c ≠ '?' ∧ c ≠ '#'
  closeSegments scheme [] (((slashes scheme body).splitOn '/').map percentEncode)

/-- The text of a path. -/
def pathText (path : List (List Char)) : List Char := path.flatMap ('/' :: ·)

theorem pathText_splitOn (t : List Char) : pathText (t.splitOn '/') = '/' :: t := by
  have hflat : ∀ (s : List Char) (l : List (List Char)),
      pathText (s :: l) = '/' :: ['/'].intercalate (s :: l) := by
    intro s l
    induction l generalizing s with
    | nil => simp [pathText]
    | cons r l ih =>
      rw [pathText, List.flatMap_cons, ← pathText, ih r]
      simp [List.intercalate_cons_cons]
  obtain ⟨s, l, hsl⟩ := Words.exists_splitOn '/' t
  rw [hsl, hflat, ← hsl, List.intercalate_splitOn]

/-! What is read is plain. -/

/-- A character that is kept as it is. -/
def Kept (scheme : String) (c : Char) : Prop :=
  inPathSet c = false ∧ (isSpecial scheme = true → c ≠ '\\')

/-- A segment that is kept as it is. -/
structure PlainSegment (scheme : String) (s : List Char) : Prop where
  kept : ∀ c ∈ s, Kept scheme c ∧ c ≠ '/'
  notDot : isDot s = false

variable {scheme : String} {path : List (List Char)} {s : List Char}

theorem isDot_nil : isDot [] = false := by decide

theorem plainSegment_nil : PlainSegment scheme [] := ⟨nofun, isDot_nil⟩

theorem PlainSegment.congr {scheme' : String} (h : isSpecial scheme = isSpecial scheme')
    (hs : PlainSegment scheme s) : PlainSegment scheme' s :=
  ⟨fun c hc => ⟨⟨(hs.kept c hc).1.1, fun hspecial => (hs.kept c hc).1.2 (h.trans hspecial)⟩,
    (hs.kept c hc).2⟩, hs.notDot⟩

theorem isDrive_iff : isDrive s = true ↔
    ∃ c d, s = [c, d] ∧ c.isAlpha = true ∧ (d = ':' ∨ d = '|') := by
  constructor
  · intro h
    unfold isDrive at h
    split at h
    · rename_i c d
      simp only [Bool.and_eq_true, Bool.or_eq_true, decide_eq_true_eq] at h
      exact ⟨c, d, rfl, h.1, h.2⟩
    · cases h
  · rintro ⟨c, d, rfl, hc, hd⟩
    simp [isDrive, hc, hd]

/-- A drive letter is written with a colon. -/
theorem normalDrive_of_drive {c d : Char} (h : isDrive [c, d] = true) :
    normalDrive [c, d] = [c, ':'] := if_pos h

theorem normalDrive_plain (h : PlainSegment scheme s) : PlainSegment scheme (normalDrive s) := by
  by_cases hdrive : isDrive s = true
  · obtain ⟨c, d, rfl, -, -⟩ := isDrive_iff.mp hdrive
    rw [normalDrive_of_drive hdrive]
    refine ⟨fun x hx => ?_, ?_⟩
    · obtain rfl | hx := List.mem_cons.mp hx
      · exact h.kept x List.mem_cons_self
      · rw [List.mem_singleton.mp hx]
        exact ⟨⟨by decide, fun _ => by decide⟩, by decide⟩
    · simp [isDot, isSingleDot, isDoubleDot]
  · rwa [normalDrive, if_neg hdrive]

theorem shorten_subset : shorten scheme path ⊆ path := by
  unfold shorten
  split_ifs
  · exact List.Subset.refl _
  · exact List.dropLast_subset path

theorem closeSegment_plain (hpath : ∀ r ∈ path, PlainSegment scheme r)
    (hs : ∀ c ∈ s, Kept scheme c ∧ c ≠ '/') (last : Bool) :
    ∀ r ∈ closeSegment scheme path s last, PlainSegment scheme r := by
  have hend : ∀ (p : List (List Char)), (∀ r ∈ p, PlainSegment scheme r) →
      ∀ r ∈ if last then p ++ [[]] else p, PlainSegment scheme r := by
    intro p hp r hr
    split_ifs at hr
    · rw [List.mem_append, List.mem_singleton] at hr
      obtain hr | rfl := hr
      · exact hp r hr
      · exact plainSegment_nil
    · exact hp r hr
  unfold closeSegment
  by_cases hdouble : isDoubleDot s = true
  · rw [if_pos hdouble]
    exact hend _ fun r hr => hpath r (shorten_subset hr)
  · rw [if_neg hdouble]
    by_cases hsingle : isSingleDot s = true
    · rw [if_pos hsingle]
      exact hend _ hpath
    · rw [if_neg hsingle, addSegment]
      have hplain : PlainSegment scheme s := ⟨hs, by simp [isDot, hsingle, hdouble]⟩
      intro r hr
      rw [List.mem_append, List.mem_singleton] at hr
      obtain hr | rfl := hr
      · exact hpath r hr
      · split_ifs
        · exact normalDrive_plain hplain
        · exact hplain

theorem closeSegment_last : closeSegment scheme path s true ≠ [] := by
  simp only [closeSegment, addSegment, reduceIte]
  split_ifs <;> simp

theorem closeSegments_cons (s s' : List Char) (l : List (List Char)) :
    closeSegments scheme path (s :: s' :: l) =
      closeSegments scheme (closeSegment scheme path s false) (s' :: l) := rfl

theorem closeSegments_plain {l : List (List Char)} (hpath : ∀ r ∈ path, PlainSegment scheme r)
    (hl : ∀ s ∈ l, ∀ c ∈ s, Kept scheme c ∧ c ≠ '/') :
    ∀ r ∈ closeSegments scheme path l, PlainSegment scheme r := by
  induction l generalizing path with
  | nil => exact hpath
  | cons s l ih =>
    have hs := hl s List.mem_cons_self
    cases l with
    | nil => exact closeSegment_plain hpath hs true
    | cons s' l =>
      exact ih (closeSegment_plain hpath hs false) fun r hr => hl r (List.mem_cons_of_mem s hr)

theorem closeSegments_ne_nil {l : List (List Char)} (hl : l ≠ []) :
    closeSegments scheme path l ≠ [] := by
  induction l generalizing path with
  | nil => exact absurd rfl hl
  | cons s l ih =>
    cases l with
    | nil => exact closeSegment_last
    | cons s' l => exact ih (List.cons_ne_nil s' l)

/-- Segments that are no dots are kept, but for a drive letter at the start. -/
theorem closeSegments_notDot {l : List (List Char)} (hl : ∀ s ∈ l, isDot s = false)
    (hpath : path ≠ []) : closeSegments scheme path l = path ++ l := by
  induction l generalizing path with
  | nil => exact (List.append_nil path).symm
  | cons s l ih =>
    have hs := hl s List.mem_cons_self
    rw [isDot, Bool.or_eq_false_iff] at hs
    have hclose : ∀ last, closeSegment scheme path s last = path ++ [s] := by
      intro last
      rw [closeSegment, if_neg (by simp [hs.2]), if_neg (by simp [hs.1]), addSegment,
        if_neg fun h => hpath h.2]
    cases l with
    | nil => exact hclose true
    | cons s' l =>
      have hrest : closeSegments scheme (path ++ [s]) (s' :: l) = path ++ [s] ++ s' :: l :=
        ih (fun r hr => hl r (List.mem_cons_of_mem s hr)) (by simp)
      rw [closeSegments_cons, hclose, hrest, List.append_assoc, List.singleton_append]

theorem closeSegments_start {l : List (List Char)} (hl : ∀ r ∈ s :: l, isDot r = false) :
    closeSegments scheme [] (s :: l) = (if scheme = "file" then normalDrive s else s) :: l := by
  have hs := hl s List.mem_cons_self
  rw [isDot, Bool.or_eq_false_iff] at hs
  have hclose : ∀ last, closeSegment scheme [] s last =
      [if scheme = "file" then normalDrive s else s] := by
    intro last
    rw [closeSegment, if_neg (by simp [hs.2]), if_neg (by simp [hs.1]), addSegment]
    simp
  cases l with
  | nil => exact hclose true
  | cons s' l =>
    rw [closeSegments_cons, hclose, closeSegments_notDot (fun r hr => hl r (List.mem_cons_of_mem s hr))
      (List.cons_ne_nil _ _)]
    rfl

/-! What is read of a text. -/

variable {t : List Char}

theorem slashes_kept : ∀ c ∈ slashes scheme t, isSpecial scheme = true → c ≠ '\\' := by
  intro c hc hspecial
  rw [slashes, if_pos hspecial] at hc
  obtain ⟨x, -, rfl⟩ := List.mem_map.mp hc
  split_ifs with hx
  · decide
  · exact hx

theorem slashes_eq (h : ∀ c ∈ t, Kept scheme c) : slashes scheme t = t := by
  unfold slashes
  split_ifs with hspecial
  · exact (List.map_congr_left fun c hc => if_neg ((h c hc).2 hspecial)).trans (List.map_id t)
  · rfl

/-- Every segment that is read would be read as it is. -/
theorem pathState_plain : ∀ s ∈ pathState scheme t, PlainSegment scheme s := by
  refine closeSegments_plain nofun fun s hs c hc => ?_
  obtain ⟨r, hr, rfl⟩ := List.mem_map.mp hs
  obtain ⟨x, hx, hmem⟩ := List.mem_flatMap.mp hc
  split_ifs at hmem with hset
  · obtain ⟨hplain, hslash, hback⟩ := percentChar_plain hmem
    exact ⟨⟨hplain, fun _ => hback⟩, hslash⟩
  · obtain rfl := List.mem_singleton.mp hmem
    refine ⟨⟨Bool.eq_false_iff.mpr hset, ?_⟩, fun heq => Words.not_mem_of_mem_splitOn hr (heq ▸ hx)⟩
    exact slashes_kept c (Words.mem_of_mem_splitOn hr hx)

theorem pathState_ne_nil (scheme : String) (t : List Char) : pathState scheme t ≠ [] := by
  refine closeSegments_ne_nil ?_
  rw [Ne, List.map_eq_nil_iff]
  exact List.splitOnP_ne_nil _ _

/-- A text that is read as it stands. -/
structure Literal (scheme : String) (t : List Char) : Prop where
  kept : ∀ c ∈ t, Kept scheme c
  notDot : ∀ s ∈ t.splitOn '/', isDot s = false
  noBar : scheme = "file" → ∀ c, c.isAlpha = true → (t.splitOn '/').head? ≠ some [c, '|']

theorem kept_slash : Kept scheme '/' := ⟨by decide, fun _ => by decide⟩

/-- Leading and trailing control characters and spaces are stripped, and tabs and line ends are
taken out. Nothing is stripped at the front, where a scheme is. -/
def clean (t : List Char) : List Char :=
  (t.rdropWhile fun c => c.toNat ≤ 32).filter fun c => c ≠ '\t' ∧ c ≠ '\n' ∧ c ≠ '\r'

theorem kept_large {c : Char} (h : Kept scheme c) : 32 < c.toNat := by
  by_contra hle
  have hset := h.1
  rw [inPathSet, Bool.or_eq_false_iff, inC0Set, Bool.or_eq_false_iff, decide_eq_false_iff_not] at hset
  have hspace : c.toNat = ' '.toNat := by
    have htwo : ' '.toNat = 32 := rfl
    omega
  rw [Char.toNat_inj.mp hspace] at hset
  exact absurd hset.2 (by decide)

theorem clean_eq (h : ∀ c ∈ t, Kept scheme c) : clean t = t := by
  have hstrip : t.rdropWhile (fun c => decide (c.toNat ≤ 32)) = t := by
    refine List.rdropWhile_eq_self_iff.mpr fun hl => ?_
    have hlarge := kept_large (h _ (List.getLast_mem hl))
    simpa using hlarge
  rw [clean, hstrip, List.filter_eq_self]
  intro c hc
  have hlarge := kept_large (h c hc)
  rw [decide_eq_true_eq]
  refine ⟨?_, ?_, ?_⟩ <;> rintro rfl <;> exact absurd hlarge (by decide)

theorem normalDrive_eq (h : ∀ c, c.isAlpha = true → s ≠ [c, '|']) : normalDrive s = s := by
  by_cases hdrive : isDrive s = true
  · obtain ⟨c, d, rfl, hc, rfl | rfl⟩ := isDrive_iff.mp hdrive
    · exact normalDrive_of_drive hdrive
    · exact absurd rfl (h c hc)
  · exact if_neg hdrive

/-- What is read of kept characters in segments that are no dots. -/
theorem pathState_kept (hkept : ∀ c ∈ t, Kept scheme c) {s : List Char} {l : List (List Char)}
    (hsplit : t.splitOn '/' = s :: l) (hl : ∀ r ∈ s :: l, isDot r = false) :
    pathState scheme t = (if scheme = "file" then normalDrive s else s) :: l := by
  have hbody : t.takeWhile (fun c => decide (c ≠ '?' ∧ c ≠ '#')) = t := by
    refine List.takeWhile_eq_self_iff.mpr fun c hc => ?_
    rw [decide_eq_true_eq]
    have hset := (hkept c hc).1
    constructor <;> rintro rfl <;> exact absurd hset (by decide)
  have hencode : (s :: l).map percentEncode = s :: l := by
    refine (List.map_congr_left fun r hr => ?_).trans (List.map_id _)
    exact percentEncode_plain fun c hc => (hkept c (Words.mem_of_mem_splitOn (hsplit ▸ hr) hc)).1
  rw [pathState, hbody, slashes_eq hkept, hsplit, hencode]
  exact closeSegments_start hl

theorem pathText_literal (h : Literal scheme t) : pathText (pathState scheme t) = '/' :: t := by
  obtain ⟨s, l, hsplit⟩ := Words.exists_splitOn '/' t
  have hfirst : (if scheme = "file" then normalDrive s else s) = s := by
    split_ifs with hfile
    · refine normalDrive_eq fun c hc heq => h.noBar hfile c hc ?_
      rw [hsplit, heq, List.head?_cons]
    · rfl
  rw [pathState_kept h.kept hsplit (hsplit ▸ h.notDot), hfirst, ← hsplit, pathText_splitOn]

/-! When a text is read as it stands. -/

theorem mem_pathText {c : Char} (h : c ∈ pathText path) : c = '/' ∨ ∃ s ∈ path, c ∈ s := by
  obtain ⟨s, hs, hc⟩ := List.mem_flatMap.mp h
  exact (List.mem_cons.mp hc).imp_right fun hc => ⟨s, hs, hc⟩

theorem splitOn_pathText (h : ∀ s ∈ path, '/' ∉ s) : (pathText path).splitOn '/' = [] :: path := by
  have hafter : ∀ s, '/' ∉ s → (s ++ pathText path).splitOn '/' = s :: path := by
    induction path with
    | nil =>
      intro s hs
      rw [pathText, List.flatMap_nil, List.append_nil]
      exact List.splitOn_eq_singleton hs
    | cons r path ih =>
      intro s hs
      rw [pathText, List.flatMap_cons, List.cons_append, ← pathText,
        List.splitOn_append_cons_self_of_not_mem hs,
        ih (fun x hx => h x (List.mem_cons_of_mem r hx)) r (h r List.mem_cons_self)]
  exact hafter [] List.not_mem_nil

/-- Slashes at the front. -/
def trimSlashes (t : List Char) : List Char := t.dropWhile (· = '/')

/-- A text whose segments, but for empty ones at the front, have been read is plain. -/
theorem plain_of_trim (hpath : ∀ s ∈ path, PlainSegment scheme s)
    (h : trimSlashes (pathText path) = trimSlashes t) :
    (∀ c ∈ t, Kept scheme c) ∧ ∀ s ∈ t.splitOn '/', isDot s = false := by
  have hslash : ∀ s ∈ path, '/' ∉ s := fun s hs hc => ((hpath s hs).kept _ hc).2 rfl
  constructor
  · intro c hc
    rw [← List.takeWhile_append_dropWhile (p := fun c => decide (c = '/')) (l := t),
      List.mem_append] at hc
    obtain hc | hc := hc
    · have hmem := List.mem_takeWhile_imp hc
      rw [of_decide_eq_true hmem]
      exact kept_slash
    · have hmem : c ∈ trimSlashes (pathText path) := h ▸ hc
      obtain rfl | ⟨s, hs, hcs⟩ := mem_pathText ((List.dropWhile_suffix _).subset hmem)
      · exact kept_slash
      · exact ((hpath s hs).kept c hcs).1
  · intro s hs
    by_cases hnil : s = []
    · rw [hnil]
      exact isDot_nil
    · have hmem : s ∈ (pathText path).splitOn '/' := by
        rw [← Words.mem_splitOn_dropWhile hnil] at hs ⊢
        rw [← trimSlashes, h]
        exact hs
      rw [splitOn_pathText hslash] at hmem
      exact (hpath s ((List.mem_cons.mp hmem).resolve_left hnil)).notDot

/-- A text is read as it stands, but for slashes at the front, exactly if it is literal. -/
theorem trim_pathText_iff : trimSlashes (pathText (pathState scheme (clean t))) = trimSlashes t ↔
    Literal scheme t := by
  constructor
  · intro h
    obtain ⟨hkept, hnotDot⟩ := plain_of_trim pathState_plain h
    refine ⟨hkept, hnotDot, fun hfile c hc hbar => ?_⟩
    obtain ⟨s, l, hsplit⟩ := Words.exists_splitOn '/' t
    obtain rfl : s = [c, '|'] := by rw [hsplit] at hbar; exact Option.some.inj hbar
    have htext : t = c :: '|' :: pathText l := by
      have hall := pathText_splitOn t
      rw [hsplit] at hall
      exact (List.cons.inj hall).2.symm
    have hletter : decide (c = '/') = false := by
      rw [decide_eq_false_iff_not]
      rintro rfl
      exact absurd hc (by decide)
    rw [clean_eq hkept, pathState_kept hkept hsplit (hsplit ▸ hnotDot), if_pos hfile,
      normalDrive_of_drive (isDrive_iff.mpr ⟨c, '|', rfl, hc, .inr rfl⟩), htext] at h
    change trimSlashes ('/' :: c :: ':' :: pathText l) = _ at h
    rw [trimSlashes, trimSlashes, List.dropWhile_cons_of_pos (by decide),
      List.dropWhile_cons_of_neg (by simpa using hletter),
      List.dropWhile_cons_of_neg (by simpa using hletter)] at h
    simp at h
  · intro h
    rw [clean_eq h.kept, pathText_literal h]
    exact List.dropWhile_cons_of_pos (by decide)

theorem pathText_iff : pathText (pathState scheme (clean t)) = '/' :: t ↔ Literal scheme t := by
  constructor
  · intro h
    refine trim_pathText_iff.mp ?_
    rw [h]
    exact List.dropWhile_cons_of_pos (by decide)
  · intro h
    rw [clean_eq h.kept, pathText_literal h]

/-- What is read is no text that is read without the slash before it. -/
theorem pathText_ne : pathText (pathState scheme (clean t)) ≠ t := by
  intro h
  have hlit : Literal scheme t := trim_pathText_iff.mp (congrArg trimSlashes h)
  have hlong := (pathText_iff.mpr hlit).symm.trans h
  have hlen := congrArg List.length hlong
  rw [List.length_cons] at hlen
  omega

/-! Literal texts that are put together. -/

section
variable {p : List Char}

theorem literal_segment (hs : '/' ∉ s) : Literal scheme s ↔ PlainSegment scheme s ∧
    (scheme = "file" → ∀ c, c.isAlpha = true → s ≠ [c, '|']) := by
  have hone : s.splitOn '/' = [s] := List.splitOn_eq_singleton hs
  constructor
  · intro h
    refine ⟨⟨fun c hc => ⟨h.kept c hc, fun heq => hs (heq ▸ hc)⟩, h.notDot s ?_⟩,
      fun hfile c hc hbar => h.noBar hfile c hc ?_⟩
    · rw [hone]
      exact List.mem_singleton_self s
    · rw [hone, hbar, List.head?_cons]
  · rintro ⟨h, hbar⟩
    refine ⟨fun c hc => (h.kept c hc).1, fun r hr => ?_, fun hfile c hc hhead => ?_⟩
    · rw [hone] at hr
      rw [List.mem_singleton.mp hr]
      exact h.notDot
    · rw [hone] at hhead
      exact hbar hfile c hc (Option.some.inj hhead)

/-- The first segment stays the first one. -/
theorem literal_append_segment (hs : '/' ∉ s) :
    Literal scheme (p ++ '/' :: s) ↔ Literal scheme p ∧ PlainSegment scheme s := by
  have hsplit : (p ++ '/' :: s).splitOn '/' = p.splitOn '/' ++ [s] := by
    rw [List.splitOn_append_cons_self, List.splitOn_eq_singleton hs]
  have hhead : ((p ++ '/' :: s).splitOn '/').head? = (p.splitOn '/').head? := by
    obtain ⟨r, l, hp⟩ := Words.exists_splitOn '/' p
    rw [hsplit, hp]
    rfl
  constructor
  · intro h
    refine ⟨⟨fun c hc => h.kept c (List.mem_append_left _ hc), fun r hr => h.notDot r ?_,
      fun hfile c hc => hhead ▸ h.noBar hfile c hc⟩,
      fun c hc => ⟨h.kept c (List.mem_append_right p (List.mem_cons_of_mem _ hc)),
        fun heq => hs (heq ▸ hc)⟩, h.notDot s ?_⟩
    · rw [hsplit]
      exact List.mem_append_left _ hr
    · rw [hsplit]
      exact List.mem_append_right _ (List.mem_singleton_self s)
  · rintro ⟨hp, hplain⟩
    refine ⟨fun c hc => ?_, fun r hr => ?_, fun hfile c hc => hhead ▸ hp.noBar hfile c hc⟩
    · obtain hc | hc := List.mem_append.mp hc
      · exact hp.kept c hc
      · obtain rfl | hc := List.mem_cons.mp hc
        · exact kept_slash
        · exact (hplain.kept c hc).1
    · rw [hsplit, List.mem_append, List.mem_singleton] at hr
      obtain hr | rfl := hr
      · exact hp.notDot r hr
      · exact hplain.notDot

end

/-! Literal texts where no segment is a drive letter. -/

section
variable {p : List Char} (hfile : scheme ≠ "file")
include hfile

theorem literal_append : Literal scheme (p ++ '/' :: t) ↔ Literal scheme p ∧ Literal scheme t := by
  have hsplit : (p ++ '/' :: t).splitOn '/' = p.splitOn '/' ++ t.splitOn '/' :=
    List.splitOn_append_cons_self p t
  constructor
  · intro h
    constructor
    · refine ⟨fun c hc => h.kept c (List.mem_append_left _ hc), fun r hr => h.notDot r ?_,
        fun heq => absurd heq hfile⟩
      rw [hsplit]
      exact List.mem_append_left _ hr
    · refine ⟨fun c hc => h.kept c (List.mem_append_right p (List.mem_cons_of_mem _ hc)),
        fun r hr => h.notDot r ?_, fun heq => absurd heq hfile⟩
      rw [hsplit]
      exact List.mem_append_right _ hr
  · rintro ⟨hp, ht⟩
    refine ⟨fun c hc => ?_, fun r hr => ?_, fun heq => absurd heq hfile⟩
    · obtain hc | hc := List.mem_append.mp hc
      · exact hp.kept c hc
      · obtain rfl | hc := List.mem_cons.mp hc
        · exact kept_slash
        · exact ht.kept c hc
    · rw [hsplit] at hr
      exact (List.mem_append.mp hr).elim (hp.notDot r) (ht.notDot r)

theorem literal_nil : Literal scheme [] :=
  (literal_segment List.not_mem_nil).mpr ⟨plainSegment_nil, fun h => absurd h hfile⟩

theorem literal_cons_slash : Literal scheme ('/' :: t) ↔ Literal scheme t :=
  (literal_append hfile (p := [])).trans (and_iff_right (literal_nil hfile))

theorem literal_trim : Literal scheme (trimSlashes t) ↔ Literal scheme t := by
  induction t with
  | nil => exact Iff.rfl
  | cons c t ih =>
    by_cases hc : c = '/'
    · rw [trimSlashes, List.dropWhile_cons_of_pos (by simpa using hc), ← trimSlashes, ih, hc,
        literal_cons_slash hfile]
    · rw [trimSlashes, List.dropWhile_cons_of_neg (by simpa using hc)]

theorem literal_pathText (hpath : ∀ r ∈ path, PlainSegment scheme r) :
    Literal scheme (pathText path) := by
  refine ⟨fun c hc => ?_, fun r hr => ?_, fun heq => absurd heq hfile⟩
  · obtain rfl | ⟨r, hr, hcr⟩ := mem_pathText hc
    · exact kept_slash
    · exact ((hpath r hr).kept c hcr).1
  · rw [splitOn_pathText fun r hr hc => ((hpath r hr).kept _ hc).2 rfl] at hr
    obtain rfl | hr := List.mem_cons.mp hr
    · exact isDot_nil
    · exact (hpath r hr).notDot

end

end Url
