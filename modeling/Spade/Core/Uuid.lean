import Mathlib.Tactic.IntervalCases
import Mathlib.Tactic.Ring
import Spade.Core.FanOut

set_option autoImplicit false

/-!
# The uuid package

The text form of a UUID with its parser, and the name-based UUIDs of `NewSHA1`.
-/
namespace Spade.Uuid

/-- The lowest `k` hexadecimal digits of a number, from the highest on. -/
def hexDigits : ℕ → ℕ → List ℕ
  | 0, _ => []
  | k + 1, n => hexDigits k (n / 16) ++ [n % 16]

def hexText (u : UUID) : List Char := (hexDigits 32 u.toNat).map Nat.digitChar

/-- The five groups of the text. -/
def dashed (cs : List Char) : List Char :=
  cs.take 8 ++ '-' :: ((cs.drop 8).take 4 ++ '-' :: ((cs.drop 12).take 4 ++
    '-' :: ((cs.drop 16).take 4 ++ '-' :: cs.drop 20)))

def string (u : UUID) : String := String.ofList (dashed (hexText u))

def hexValue (c : Char) : Option ℕ :=
  if '0' ≤ c ∧ c ≤ '9' then some (c.toNat - '0'.toNat)
  else if 'a' ≤ c ∧ c ≤ 'f' then some (c.toNat - 'a'.toNat + 10)
  else if 'A' ≤ c ∧ c ≤ 'F' then some (c.toNat - 'A'.toNat + 10)
  else none

/-- Reads `k` more bytes after those of `n`; at the first pair that is no byte the rest
stays zero. -/
def readBytes : ℕ → List Char → ℕ → UUID × Bool
  | k + 1, hi :: lo :: rest, n =>
    match hexValue hi, hexValue lo with
    | some a, some b => readBytes k rest (n * 256 + (a * 16 + b))
    | _, _ => (BitVec.ofNat 128 (n * 256 ^ (k + 1)), false)
  | _, _, n => (BitVec.ofNat 128 n, true)

def readDashed (s : List Char) : UUID × Bool :=
  if s[8]? = some '-' ∧ s[13]? = some '-' ∧ s[18]? = some '-' ∧ s[23]? = some '-' then
    readBytes 16 (s.take 8 ++ ((s.drop 9).take 4 ++ ((s.drop 14).take 4 ++
      ((s.drop 19).take 4 ++ (s.drop 24).take 12)))) 0
  else (UUID.nil, false)

/-- The plain form, the `urn:uuid:` form, the one in braces and the one without dashes. -/
def parse (s : String) : UUID × Bool :=
  let cs := s.toList
  if cs.length = 36 then readDashed cs
  else if cs.length = 45 then
    if (cs.take 9).map Char.toLower = "urn:uuid:".toList then readDashed (cs.drop 9)
    else (UUID.nil, false)
  else if cs.length = 38 then readDashed (cs.drop 1)
  else if cs.length = 32 then readBytes 16 cs 0
  else (UUID.nil, false)

/-! The text of a UUID reads back. -/

theorem hexDigits_length (k n : ℕ) : (hexDigits k n).length = k := by
  induction k generalizing n with
  | zero => rfl
  | succ k ih => simp [hexDigits, ih]

theorem hexDigits_lt (k n : ℕ) : ∀ d ∈ hexDigits k n, d < 16 := by
  induction k generalizing n with
  | zero => simp [hexDigits]
  | succ k ih =>
    intro d hd
    rcases List.mem_append.mp hd with hd | hd
    · exact ih _ d hd
    · rw [List.mem_singleton.mp hd]
      exact Nat.mod_lt n (by decide)

theorem foldl_hexDigits (k n m : ℕ) :
    (hexDigits k n).foldl (fun a d => a * 16 + d) m = m * 16 ^ k + n % 16 ^ k := by
  induction k generalizing n with
  | zero => simp [hexDigits, Nat.mod_one]
  | succ k ih =>
    rw [hexDigits, List.foldl_append, ih, List.foldl_cons, List.foldl_nil, pow_succ,
      Nat.mul_comm (16 ^ k) 16, Nat.mod_mul]
    ring

theorem hexValue_digitChar {d : ℕ} (h : d < 16) : hexValue (Nat.digitChar d) = some d := by
  interval_cases d <;> rfl

theorem digitChar_ne {d : ℕ} (h : d < 16) : Nat.digitChar d ≠ '-' ∧ Nat.digitChar d ≠ '.' := by
  interval_cases d <;> decide

theorem readBytes_digits (k : ℕ) (ds : List ℕ) (hlen : ds.length = 2 * k) (hds : ∀ d ∈ ds, d < 16)
    (n : ℕ) : readBytes k (ds.map Nat.digitChar) n =
      (BitVec.ofNat 128 (ds.foldl (fun a d => a * 16 + d) n), true) := by
  induction k generalizing ds n with
  | zero =>
    obtain rfl := List.length_eq_zero_iff.mp hlen
    rfl
  | succ k ih =>
    obtain ⟨hi, lo, rest, rfl⟩ : ∃ hi lo rest, ds = hi :: lo :: rest := by
      match ds, hlen with
      | hi :: lo :: rest, _ => exact ⟨hi, lo, rest, rfl⟩
    have hhi := hexValue_digitChar (hds hi (by simp))
    have hlo := hexValue_digitChar (hds lo (by simp))
    rw [List.map_cons, List.map_cons, readBytes, hhi, hlo]
    dsimp only
    rw [ih rest (by simp at hlen; omega) (fun d hd => hds d (by simp [hd])), List.foldl_cons,
      List.foldl_cons]
    congr 3
    ring

theorem hexText_length (u : UUID) : (hexText u).length = 32 := by
  rw [hexText, List.length_map, hexDigits_length]

/-- The dashes stand where the parser expects them, and the rest is the digits. -/
theorem readDashed_dashed {cs : List Char} (h : cs.length = 32) :
    (dashed cs).length = 36 ∧ readDashed (dashed cs) = readBytes 16 cs 0 := by
  obtain ⟨a, rest, rfl, ha⟩ : ∃ a rest, cs = a ++ rest ∧ a.length = 8 :=
    ⟨cs.take 8, cs.drop 8, (List.take_append_drop 8 cs).symm, by simp [h]⟩
  obtain ⟨b, rest, rfl, hb⟩ : ∃ b rest', rest = b ++ rest' ∧ b.length = 4 :=
    ⟨rest.take 4, rest.drop 4, (List.take_append_drop 4 rest).symm, by simp at h; simp; omega⟩
  obtain ⟨c, rest, rfl, hc⟩ : ∃ c rest', rest = c ++ rest' ∧ c.length = 4 :=
    ⟨rest.take 4, rest.drop 4, (List.take_append_drop 4 rest).symm, by simp at h; simp; omega⟩
  obtain ⟨d, e, rfl, hd⟩ : ∃ d rest', rest = d ++ rest' ∧ d.length = 4 :=
    ⟨rest.take 4, rest.drop 4, (List.take_append_drop 4 rest).symm, by simp at h; simp; omega⟩
  have he : e.length = 12 := by simp at h; omega
  have hform : dashed (a ++ (b ++ (c ++ (d ++ e)))) =
      a ++ '-' :: (b ++ '-' :: (c ++ '-' :: (d ++ '-' :: e))) := by
    simp (disch := omega) [dashed, List.drop_append, List.drop_eq_nil_of_le, ha, hb, hc]
  rw [hform]
  refine ⟨by simp; omega, ?_⟩
  unfold readDashed
  rw [if_pos (by simp [List.getElem?_append, ha, hb, hc, hd])]
  congr 1
  simp (disch := omega) [List.drop_append, List.drop_eq_nil_of_le, List.take_of_length_le, ha, hb,
    hc, hd]

theorem parse_string (u : UUID) : parse (string u) = (u, true) := by
  obtain ⟨hlen, hread⟩ := readDashed_dashed (hexText_length u)
  unfold parse string
  simp only [String.toList_ofList]
  rw [if_pos hlen, hread, hexText,
    readBytes_digits 16 _ (by rw [hexDigits_length]) (hexDigits_lt 32 _), foldl_hexDigits]
  have hu : u.toNat % 16 ^ 32 = u.toNat := Nat.mod_eq_of_lt u.isLt
  rw [hu, Nat.zero_mul, Nat.zero_add, BitVec.ofNat_toNat, BitVec.setWidth_eq]

theorem string_no_dot (u : UUID) : '.' ∉ (string u).toList := by
  have hdigit : ∀ c ∈ hexText u, c ≠ '.' := by
    intro c hc
    obtain ⟨d, hd, rfl⟩ := List.mem_map.mp hc
    exact (digitChar_ne (hexDigits_lt 32 _ d hd)).2
  have htake : ∀ {n}, '.' ∉ (hexText u).take n := fun h => hdigit _ (List.mem_of_mem_take h) rfl
  have hdrop : ∀ {n}, '.' ∉ (hexText u).drop n := fun h => hdigit _ (List.mem_of_mem_drop h) rfl
  have hmid : ∀ {n k}, '.' ∉ ((hexText u).drop n).take k := fun h => hdrop (List.mem_of_mem_take h)
  unfold string
  rw [String.toList_ofList]
  simp [dashed, htake, hdrop, hmid]

/-! SHA-1 on bytes, with words as numbers below `2 ^ 32`. -/

def rotl (n x : ℕ) : ℕ := (x <<< n ||| x >>> (32 - n)) % 2 ^ 32

/-- The next `n` words of the message schedule; the words are kept from the last on. -/
def extendWords : ℕ → List ℕ → List ℕ
  | 0, ws => ws
  | n + 1, ws =>
    extendWords n (rotl 1 (ws.getD 2 0 ^^^ ws.getD 7 0 ^^^ ws.getD 13 0 ^^^ ws.getD 15 0) :: ws)

structure Sha1State where
  a : ℕ := 0x67452301
  b : ℕ := 0xEFCDAB89
  c : ℕ := 0x98BADCFE
  d : ℕ := 0x10325476
  e : ℕ := 0xC3D2E1F0

/-- The function and the constant of round `t`. -/
def sha1Mix (t : ℕ) (s : Sha1State) : ℕ × ℕ :=
  if t < 20 then ((s.b &&& s.c) ||| ((s.b ^^^ 0xFFFFFFFF) &&& s.d), 0x5A827999)
  else if t < 40 then (s.b ^^^ s.c ^^^ s.d, 0x6ED9EBA1)
  else if t < 60 then ((s.b &&& s.c) ||| (s.b &&& s.d) ||| (s.c &&& s.d), 0x8F1BBCDC)
  else (s.b ^^^ s.c ^^^ s.d, 0xCA62C1D6)

def sha1Round (t w : ℕ) (s : Sha1State) : Sha1State where
  a := (rotl 5 s.a + (sha1Mix t s).1 + s.e + (sha1Mix t s).2 + w) % 2 ^ 32
  b := s.a
  c := rotl 30 s.b
  d := s.c
  e := s.d

def sha1Rounds : ℕ → List ℕ → Sha1State → Sha1State
  | _, [], s => s
  | t, w :: ws, s => sha1Rounds (t + 1) ws (sha1Round t w s)

def sha1Block (s : Sha1State) (words : List ℕ) : Sha1State :=
  let s' := sha1Rounds 0 (extendWords 64 words.reverse).reverse s
  { a := (s.a + s'.a) % 2 ^ 32, b := (s.b + s'.b) % 2 ^ 32, c := (s.c + s'.c) % 2 ^ 32,
    d := (s.d + s'.d) % 2 ^ 32, e := (s.e + s'.e) % 2 ^ 32 }

/-- A number of `k` digits to the base 256, from the highest on. -/
def toBytes : ℕ → ℕ → List ℕ
  | 0, _ => []
  | k + 1, n => toBytes k (n / 256) ++ [n % 256]

def ofBytes (bytes : List ℕ) : ℕ := bytes.foldl (fun n b => n * 256 + b) 0

def sha1Words : ℕ → List ℕ → List ℕ
  | 0, _ => []
  | k + 1, bytes => ofBytes (bytes.take 4) :: sha1Words k (bytes.drop 4)

def sha1Blocks : ℕ → List ℕ → Sha1State → Sha1State
  | 0, _, s => s
  | k + 1, bytes, s => sha1Blocks k (bytes.drop 64) (sha1Block s (sha1Words 16 bytes))

/-- The digest as a number of 160 bits. -/
def sha1 (msg : List ℕ) : ℕ :=
  let blocks := (msg.length + 8) / 64 + 1
  let padded := msg ++ 0x80 :: List.replicate (64 * blocks - msg.length - 9) 0 ++
    toBytes 8 (8 * msg.length)
  let s := sha1Blocks blocks padded {}
  (((s.a * 2 ^ 32 + s.b) * 2 ^ 32 + s.c) * 2 ^ 32 + s.d) * 2 ^ 32 + s.e

/-- The first 16 bytes of the digest with the version and the variant set. -/
def newSHA1 (space : UUID) (data : String) : UUID :=
  let digest := sha1 (toBytes 16 space.toNat ++
    (data.toList.flatMap String.utf8EncodeChar).map UInt8.toNat)
  let u : UUID := BitVec.ofNat 128 (digest >>> 32)
  (u &&& ~~~(0xF#128 <<< 76 ||| 3#128 <<< 62)) ||| (5#128 <<< 76 ||| 2#128 <<< 62)

def version (u : UUID) : ℕ := (u.extractLsb' 76 4).toNat

theorem newSHA1_version (space : UUID) (data : String) : version (newSHA1 space data) = 5 := by
  have h : (newSHA1 space data).extractLsb' 76 4 = 5 := by
    unfold newSHA1
    ext i hi
    interval_cases i <;> simp
  rw [version, h]
  rfl

example : newSHA1 0x6ba7b8109dad11d180b400c04fd430c8 "python.org" =
    0x886313e13b8a53729b900c9aee199e5d := by decide +kernel

scoped instance : UUIDPackage where
  string := string
  parse := parse
  newSHA1 := newSHA1
  parse_string := parse_string
  string_no_dot := string_no_dot

/-- Block ids of version 7 are apart from the ids of mapped invocations. -/
theorem keysApart {p : Pipeline} (h : ∀ b ∈ p.blocks, version b.id = 7) : KeysApart p := by
  intro id _ i hmem
  obtain ⟨b, hb, hid⟩ := List.mem_map.mp hmem
  have h5 : version (UUIDPackage.newSHA1 id (itoa i)) = 5 := newSHA1_version id (itoa i)
  have h7 := h b hb
  rw [hid] at h7
  omega

end Spade.Uuid
