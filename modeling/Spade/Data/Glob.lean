import Mathlib.Algebra.Ring.Nat
import Mathlib.Data.List.Infix
import Mathlib.Data.List.TakeWhile
import Spade.Data.Types
import Spade.Lib.Wildcard

set_option autoImplicit false

/-!
# Globs of the data blocks

The pattern that ends a URI and how the names of listed objects are matched with it
(`blocks/data/src/read_collection.rs`).
-/
namespace Spade.Data
open Words Wildcard

/-- The parts before and after the last `c`. -/
def rsplitOnce (c : Char) (s : List Char) : Option (List Char × List Char) :=
  if c ∈ s then
    some ((s.reverse.dropWhile (· ≠ c)).tail.reverse, (s.reverse.takeWhile (· ≠ c)).reverse)
  else none

def splitPrefixAndGlob (key : String) : Except DataError (String × Option String) :=
  if ['*', '*'] <:+: key.toList then
    .error (.badArgument "uri"
      "'**' recursive glob is not supported; restructure as a prefix")
  else
    let (dir, tail) := match rsplitOnce '/' key.toList with
      | some (d, t) => (d ++ ['/'], t)
      | none => ([], key.toList)
    if '*' ∈ tail then .ok (String.ofList dir, some (String.ofList tail))
    else if tail = [] then .ok (String.ofList dir, none)
    else .ok (String.ofList (dir ++ tail), none)

/-- The number of bytes. -/
def utf8Len (s : List Char) : ℕ := (s.map Char.utf8Size).sum

/-- The place of the first byte of the leftmost occurrence. -/
def find (part : List Char) : List Char → Option ℕ
  | [] => if part = [] then some 0 else none
  | c :: s => if part <+: c :: s then some 0 else (find part s).map (c.utf8Size + ·)

/-- One part of the pattern; the loop is left where there is no new position. -/
def globStep (count : ℕ) (name : String) (pos : ℕ) (part : List Char × ℕ) : Option ℕ :=
  if part.1 = [] then some pos
  else if part.2 = 0 then if part.1 <+: name.toList then some (utf8Len part.1) else none
  else if part.2 = count - 1 then if part.1 <:+ name.toList then some pos else none
  else
    let hay := name.toByteArray.extract pos name.toByteArray.size
    let s := (hay.utf8Decode?.map Array.toList).getD []
    (find part.1 s).map fun j => pos + (j + utf8Len part.1)

def globMatch (pattern name : String) : Bool :=
  let parts := pattern.toList.splitOn '*'
  (parts.zipIdx.foldlM (globStep parts.length name) 0).isSome

/-! The pattern of a key. -/

theorem rsplitOnce_eq {c : Char} {s d t : List Char} (h : rsplitOnce c s = some (d, t)) :
    d ++ [c] ++ t = s := by
  unfold rsplitOnce at h
  rw [Option.ite_none_right_eq_some, Option.some.injEq, Prod.mk.injEq] at h
  obtain ⟨hc, rfl, rfl⟩ := h
  have hne : s.reverse.dropWhile (· ≠ c) ≠ [] := by
    intro hnil
    exact of_decide_eq_true (List.dropWhile_eq_nil_iff.mp hnil c (List.mem_reverse.mpr hc)) rfl
  have hhead : (s.reverse.dropWhile (· ≠ c)).head hne = c := by
    have hfirst := List.head_dropWhile_not (· ≠ c) hne
    exact not_not.mp (of_decide_eq_false hfirst)
  have hsplit := List.takeWhile_append_dropWhile (p := (· ≠ c)) (l := s.reverse)
  rw [← List.cons_head_tail hne, hhead] at hsplit
  have hrev := congrArg List.reverse hsplit
  rw [List.reverse_reverse, List.reverse_append, List.reverse_cons] at hrev
  exact hrev

/-- The pattern is the last part of the key. It has a star, and no two in a row. -/
theorem splitPrefixAndGlob_glob {key dir glob : String}
    (h : splitPrefixAndGlob key = .ok (dir, some glob)) :
    dir.toList ++ glob.toList = key.toList ∧ '*' ∈ glob.toList ∧ ¬['*', '*'] <:+: glob.toList := by
  obtain ⟨d, t, ht, hkey, hglob⟩ : ∃ d t, ¬['*', '*'] <:+: key.toList ∧ d ++ t = key.toList ∧
      (if '*' ∈ t then Except.ok (String.ofList d, some (String.ofList t))
        else if t = [] then .ok (String.ofList d, none)
        else .ok (String.ofList (d ++ t), none)) =
      (Except.ok (dir, some glob) : Except DataError (String × Option String)) := by
    unfold splitPrefixAndGlob at h
    split_ifs at h with hstars
    cases hr : rsplitOnce '/' key.toList with
    | none =>
      rw [hr] at h
      exact ⟨[], key.toList, hstars, rfl, h⟩
    | some dt =>
      rw [hr] at h
      exact ⟨dt.1 ++ ['/'], dt.2, hstars, rsplitOnce_eq hr, h⟩
  split_ifs at hglob with hstar
  · rw [Except.ok.injEq, Prod.mk.injEq, Option.some.injEq] at hglob
    obtain ⟨rfl, rfl⟩ := hglob
    rw [String.toList_ofList, String.toList_ofList]
    exact ⟨hkey, hstar, fun hrow => ht (hrow.trans (hkey ▸ (List.suffix_append d t).isInfix))⟩
  · cases hglob
  · cases hglob

/-! Positions. -/

theorem utf8Len_append (s t : List Char) : utf8Len (s ++ t) = utf8Len s + utf8Len t := by
  unfold utf8Len
  rw [List.map_append, List.sum_append]

theorem size_utf8Encode (s : List Char) : s.utf8Encode.size = utf8Len s := by
  induction s with
  | nil => rw [List.utf8Encode_nil]; rfl
  | cons c s ih =>
    rw [List.utf8Encode_cons, ByteArray.size_append, ih, List.utf8Encode_singleton,
      List.size_toByteArray, String.length_utf8EncodeChar]
    rfl

/-- What stands at the end of a beginning is the rest. -/
theorem decode_rest {name : String} {x r : List Char} (h : name.toList = x ++ r) :
    ((name.toByteArray.extract (utf8Len x) name.toByteArray.size).utf8Decode?.map
      Array.toList).getD [] = r := by
  have hrest : name.toByteArray.extract (utf8Len x) name.toByteArray.size = r.utf8Encode := by
    rw [← String.utf8Encode_toList, h, List.utf8Encode_append, ← size_utf8Encode]
    exact ByteArray.extract_append_eq_right rfl ByteArray.size_append
  rw [hrest, List.utf8Decode?_utf8Encode]
  rfl

/-- The place that is found is the leftmost one. -/
theorem find_after (w s : List Char) : (after w s = none ∧ find w s = none) ∨
    ∃ y q, after w s = some q ∧ s = y ++ (w ++ q) ∧ find w s = some (utf8Len y) := by
  induction s with
  | nil =>
    unfold after find
    split_ifs with hw
    · exact .inr ⟨[], [], rfl, by rw [hw]; rfl, rfl⟩
    · exact .inl ⟨rfl, rfl⟩
  | cons c s ih =>
    unfold after find
    split_ifs with hw
    · obtain ⟨q, hq⟩ := hw
      exact .inr ⟨[], q, by rw [← hq, List.drop_left], hq.symm, rfl⟩
    · obtain ⟨hnone, hfind⟩ | ⟨y, q, hq, rfl, hfind⟩ := ih
      · exact .inl ⟨hnone, by rw [hfind]; rfl⟩
      · refine .inr ⟨c :: y, q, hq, rfl, ?_⟩
        rw [hfind]
        rfl

/-! The parts of a pattern, one after the other. -/

variable {name : String} {x r last : List Char} {count : ℕ}

theorem globStep_middle (hname : name.toList = x ++ r) (w : List Char) {i : ℕ} (hi : i ≠ 0)
    (hcount : i ≠ count - 1) :
    (after w r = none ∧ globStep count name (utf8Len x) (w, i) = none) ∨
    ∃ y q, after w r = some q ∧ r = y ++ q ∧
      globStep count name (utf8Len x) (w, i) = some (utf8Len (x ++ y)) := by
  unfold globStep
  simp only [if_neg hi, if_neg hcount, decode_rest hname]
  by_cases hw : w = []
  · refine .inr ⟨[], r, ?_, rfl, by rw [if_pos hw, List.append_nil]⟩
    cases r <;> simp [after, hw]
  · rw [if_neg hw]
    obtain ⟨hnone, hfind⟩ | ⟨y, q, hq, hr, hfind⟩ := find_after w r
    · exact .inl ⟨hnone, by rw [hfind]; rfl⟩
    · refine .inr ⟨y ++ w, q, hq, by rw [hr, List.append_assoc], ?_⟩
      rw [hfind, Option.map_some, utf8Len_append, utf8Len_append]

theorem globStep_last {pos : ℕ} (hcount : 2 ≤ count) :
    (globStep count name pos (last, count - 1)).isSome ↔ last <:+ name.toList := by
  unfold globStep
  rw [if_neg (show count - 1 ≠ 0 by omega), if_pos rfl]
  split_ifs with hnil hsuf
  · have hlast : last = [] := hnil
    exact ⟨fun _ => hlast ▸ List.nil_suffix, fun _ => rfl⟩
  · exact ⟨fun _ => hsuf, fun _ => rfl⟩
  · exact ⟨fun h => absurd h Bool.false_ne_true, fun h => absurd h hsuf⟩

/-- The parts after the first one: those between are found, and the last is only compared with
the end of the whole name. -/
theorem globLoop_rest (ws : List (List Char)) {k : ℕ} (hk : k ≠ 0)
    (hcount : k + ws.length = count - 1) (hname : name.toList = x ++ r) :
    (((ws ++ [last]).zipIdx k).foldlM (globStep count name) (utf8Len x)).isSome ↔
      (afterAll ws r).isSome ∧ last <:+ name.toList := by
  induction ws generalizing k x r with
  | nil =>
    obtain rfl : k = count - 1 := by simpa using hcount
    rw [List.nil_append, List.zipIdx_cons, List.zipIdx_nil, List.foldlM_cons]
    have hone : (globStep count name (utf8Len x) (last, count - 1)).isSome ↔
        last <:+ name.toList := globStep_last (show 2 ≤ count by omega)
    rw [← hone]
    cases globStep count name (utf8Len x) (last, count - 1) <;> simp [afterAll]
  | cons w ws ih =>
    have hlen : k + 1 + ws.length = count - 1 := by rw [← hcount, List.length_cons]; omega
    have hcons : afterAll (w :: ws) r = (after w r).bind (afterAll ws) := List.foldlM_cons
    rw [List.cons_append, List.zipIdx_cons, List.foldlM_cons, hcons]
    obtain ⟨hafter, hstep⟩ | ⟨y, q, hafter, rfl, hstep⟩ :=
      globStep_middle hname w hk (show k ≠ count - 1 by omega)
    · rw [hafter, hstep]
      exact ⟨fun h => absurd h Bool.false_ne_true, fun h => absurd h.1 Bool.false_ne_true⟩
    · rw [hafter, hstep]
      exact ih k.succ_ne_zero hlen (hname.trans (List.append_assoc x y q).symm)

/-! The pieces of a pattern. -/

def firstPiece (pattern : String) : List Char := (pattern.toList.splitOn '*').headD []

def middlePieces (pattern : String) : List (List Char) :=
  (pattern.toList.splitOn '*').tail.dropLast

def lastPiece (pattern : String) : List Char := (pattern.toList.splitOn '*').getLastD []

/-- The pieces but the last stand in the text in order, the first one at its start. -/
def Leads (pattern : String) (s : List Char) : Prop :=
  ∃ r, s = firstPiece pattern ++ r ∧ Spread (middlePieces pattern) r []

/-- If the pieces but the last stand in the name, then they do so before the last piece. -/
def SparesLast (pattern name : String) : Prop :=
  ∀ body, name.toList = body ++ lastPiece pattern → Leads pattern name.toList →
    Leads pattern body

variable {pattern : String}

theorem splitOn_pieces (h : '*' ∈ pattern.toList) : pattern.toList.splitOn '*' =
    firstPiece pattern :: (middlePieces pattern ++ [lastPiece pattern]) := by
  obtain ⟨w, v, ws, hsplit⟩ := exists_splitOn_of_mem h
  unfold firstPiece middlePieces lastPiece
  rw [hsplit, List.headD_cons, List.tail_cons, List.getLastD_cons, List.getLastD_cons,
    ← List.getLast_eq_getLastD (List.cons_ne_nil v ws), List.dropLast_append_getLast]

theorem globStep_first (w : List Char) :
    globStep count name 0 (w, 0) = if w <+: name.toList then some (utf8Len w) else none := by
  unfold globStep
  by_cases hw : w = []
  · rw [if_pos hw, hw, if_pos List.nil_prefix]
    rfl
  · rw [if_neg hw, if_pos rfl]

/-- The loop compares the last piece with the end of the name, and not with what follows the
pieces before it. -/
theorem globMatch_leads (h : '*' ∈ pattern.toList) : globMatch pattern name = true ↔
    Leads pattern name.toList ∧ lastPiece pattern <:+ name.toList := by
  unfold globMatch Leads
  simp only
  rw [splitOn_pieces h, List.zipIdx_cons, List.foldlM_cons, globStep_first]
  by_cases hfirst : firstPiece pattern <+: name.toList
  · obtain ⟨r, hr⟩ := hfirst
    have hlen : 0 + 1 + (middlePieces pattern).length =
        (firstPiece pattern :: (middlePieces pattern ++ [lastPiece pattern])).length - 1 := by
      simp only [List.length_cons, List.length_append, List.length_nil]
      omega
    rw [if_pos ⟨r, hr⟩]
    refine (globLoop_rest (middlePieces pattern) (Nat.succ_ne_zero 0) hlen hr.symm).trans
      (and_congr_left fun _ => ?_)
    constructor
    · intro hsome
      obtain ⟨q, hq⟩ := Option.isSome_iff_exists.mp hsome
      exact ⟨r, hr.symm, (spread_iff _ _ _).mpr ⟨q, hq, List.nil_suffix⟩⟩
    · rintro ⟨r', hr', hspread⟩
      obtain rfl := List.append_cancel_left (hr.trans hr')
      obtain ⟨q, hq, -⟩ := (spread_iff _ _ _).mp hspread
      exact Option.isSome_iff_exists.mpr ⟨q, hq⟩
  · rw [if_neg hfirst]
    exact ⟨fun hsome => absurd hsome Bool.false_ne_true,
      fun ⟨⟨r, hr, _⟩, _⟩ => absurd ⟨r, hr.symm⟩ hfirst⟩

theorem expands_leads (h : '*' ∈ pattern.toList) {s : List Char} :
    Expands '*' pattern.toList s ↔ ∃ body, s = body ++ lastPiece pattern ∧ Leads pattern body := by
  rw [expands_iff, splitOn_pieces h, joined_spread]
  constructor
  · rintro ⟨r, rfl, hr⟩
    obtain ⟨b, rfl, hb⟩ := spread_append.mp hr
    exact ⟨firstPiece pattern ++ b, (List.append_assoc _ _ _).symm, b, rfl, hb⟩
  · rintro ⟨body, rfl, r, rfl, hr⟩
    exact ⟨r ++ lastPiece pattern, List.append_assoc _ _ _, spread_append.mpr ⟨r, rfl, hr⟩⟩

theorem Leads.append {s t : List Char} (h : Leads pattern s) : Leads pattern (s ++ t) := by
  obtain ⟨r, rfl, hr⟩ := h
  have ht : Spread (middlePieces pattern) (r ++ t) t := spread_append.mpr ⟨r, rfl, hr⟩
  obtain ⟨q, hq, -⟩ := (spread_iff _ _ _).mp ht
  exact ⟨r ++ t, List.append_assoc _ _ _, (spread_iff _ _ _).mpr ⟨q, hq, List.nil_suffix⟩⟩

theorem globMatch_exact_iff (pattern name : String) (h : '*' ∈ pattern.toList) :
    (globMatch pattern name = true ↔ Expands '*' pattern.toList name.toList) ↔
      SparesLast pattern name := by
  rw [globMatch_leads h, expands_leads h]
  constructor
  · intro hexact body hbody hleads
    obtain ⟨body', hbody', hleads'⟩ := hexact.mp ⟨hleads, body, hbody.symm⟩
    rwa [List.append_cancel_right (hbody.symm.trans hbody')]
  · intro hspares
    constructor
    · rintro ⟨hleads, body, hbody⟩
      exact ⟨body, hbody.symm, hspares body hbody.symm hleads⟩
    · rintro ⟨body, hbody, hleads⟩
      exact ⟨hbody ▸ hleads.append, body, hbody.symm⟩

/-- A name that is long enough for both pieces is matched as it should be. -/
theorem globMatch_exact_csv :
    globMatch "item_*.csv" "item_1.csv" = true ↔
      Expands '*' "item_*.csv".toList "item_1.csv".toList :=
  (globMatch_exact_iff "item_*.csv" "item_1.csv" (by decide)).mpr fun body hbody _ => by
    have hpiece : lastPiece "item_*.csv" = ".csv".toList := by decide
    have hfirst : firstPiece "item_*.csv" = "item_".toList := by decide
    have hmiddle : middlePieces "item_*.csv" = [] := by decide
    rw [hpiece] at hbody
    have hitem : body = "item_1".toList := List.append_cancel_right hbody.symm
    exact ⟨"1".toList, by rw [hfirst, hitem]; rfl, by rw [hmiddle]; exact List.nil_suffix⟩

/-- The one letter of the name stands for both pieces. -/
theorem globMatch_exact_fails :
    '*' ∈ "a*a".toList ∧ ¬['*', '*'] <:+: "a*a".toList ∧ globMatch "a*a" "a" = true ∧
      ¬Expands '*' "a*a".toList "a".toList := by
  refine ⟨by decide, by decide, by decide, ?_⟩
  rw [expands_leads (by decide)]
  have hfirst : firstPiece "a*a" = ['a'] := by decide
  have hlast : lastPiece "a*a" = ['a'] := by decide
  rintro ⟨body, hbody, r, hr, -⟩
  rw [hr, hfirst, hlast] at hbody
  simp at hbody

end Spade.Data
