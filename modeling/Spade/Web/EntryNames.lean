import Mathlib.Data.Finset.Card
import Spade.Lib.Occurrences
import Spade.Runner.Gather

set_option autoImplicit false

/-!
# The names in the archive of a run

How files of one name are told apart in the archive that a run is downloaded as
(`server/api/runs/[id]/zip.get.ts`).
-/
namespace Spade.Web
open Occurrences

/-- The last place where `c` is. -/
def lastIndexOf (c : Char) : List Char → Option ℕ
  | [] => none
  | d :: s =>
    match lastIndexOf c s with
    | some i => some (i + 1)
    | none => if d = c then some 0 else none

/-- The name of the `n`th file after the first one. -/
def numbered (name : String) (n : ℕ) : String :=
  match lastIndexOf '.' name.toList with
  | some dot =>
    if 0 < dot then
      String.ofList (name.toList.take dot) ++ "_" ++ itoa n ++ String.ofList (name.toList.drop dot)
    else name ++ "_" ++ itoa n
  | none => name ++ "_" ++ itoa n

def entryName (seen : GoMap String ℕ) (name : String) : String × GoMap String ℕ :=
  let n := (seen.lookup name).getD 0
  (if n = 0 then name else numbered name n, seen.insert name (n + 1))

def entryNamesFrom (seen : GoMap String ℕ) : List String → List String
  | [] => []
  | name :: l => (entryName seen name).1 :: entryNamesFrom (entryName seen name).2 l

/-- The names of the files of a run, in turn. -/
def entryNames (l : List String) : List String := entryNamesFrom ∅ l

/-- The names are distinct, so that as many files are unpacked. -/
def Unpacks (l : List String) : Prop :=
  (entryNames l).Nodup ∧ (entryNames l).toFinset.card = l.length

/-! The last dot. -/

section

variable {c : Char} {s t : List Char}

theorem lastIndexOf_eq_none : lastIndexOf c s = none ↔ c ∉ s := by
  induction s with
  | nil => exact ⟨fun _ => List.not_mem_nil, fun _ => rfl⟩
  | cons d s ih =>
    rw [lastIndexOf, List.mem_cons, not_or, ← ih]
    cases hs : lastIndexOf c s with
    | some j => exact ⟨nofun, fun h => nomatch h.2⟩
    | none =>
      change (if d = c then some 0 else none) = none ↔ _
      rw [ite_eq_right_iff]
      exact ⟨fun h => ⟨fun hc => (nomatch h hc.symm), rfl⟩, fun h hd => absurd hd.symm h.1⟩

theorem lastIndexOf_append (h : c ∉ t) : lastIndexOf c (s ++ t) = lastIndexOf c s := by
  induction s with
  | nil => exact lastIndexOf_eq_none.mpr h
  | cons d s ih => rw [List.cons_append, lastIndexOf, lastIndexOf, ih]

theorem lastIndexOf_append_cons (h : c ∉ t) : lastIndexOf c (s ++ c :: t) = some s.length := by
  induction s with
  | nil =>
    rw [List.nil_append, lastIndexOf, lastIndexOf_eq_none.mpr h]
    exact if_pos rfl
  | cons d s ih => rw [List.cons_append, lastIndexOf, ih, List.length_cons]

theorem lastIndexOf_eq_some {i : ℕ} (h : lastIndexOf c s = some i) :
    ∃ t, s.drop i = c :: t ∧ c ∉ t ∧ i < s.length := by
  induction s generalizing i with
  | nil => cases h
  | cons d s ih =>
    rw [lastIndexOf] at h
    cases hs : lastIndexOf c s with
    | some j =>
      rw [hs] at h
      cases h
      obtain ⟨t, ht, hc, hj⟩ := ih hs
      exact ⟨t, ht, hc, Nat.succ_lt_succ hj⟩
    | none =>
      rw [hs] at h
      change (if d = c then some 0 else none) = some i at h
      rw [Option.ite_none_right_eq_some] at h
      obtain ⟨rfl, h⟩ := h
      cases h
      exact ⟨s, rfl, lastIndexOf_eq_none.mp hs, Nat.succ_pos _⟩

/-- The last place tells what is before it and after it. -/
theorem append_cons_inj {s' t' : List Char} (h : c ∉ t) (h' : c ∉ t')
    (heq : s ++ c :: t = s' ++ c :: t') : s = s' ∧ t = t' := by
  have hlen : s.length = s'.length := by
    have hlast := lastIndexOf_append_cons (s := s) h
    rw [heq, lastIndexOf_append_cons h'] at hlast
    exact (Option.some.inj hlast).symm
  obtain ⟨hs, ht⟩ := List.append_inj heq hlen
  exact ⟨hs, (List.cons.inj ht).2⟩

end

/-! Numbered names. -/

/-- A name without an extension, like one that starts with its only dot. -/
def Plain (s : List Char) : Prop := ∀ i, lastIndexOf '.' s = some i → i = 0

theorem numbered_plain {name : String} (h : Plain name.toList) (n : ℕ) :
    (numbered name n).toList = name.toList ++ '_' :: (itoa n).toList := by
  unfold numbered
  cases hdot : lastIndexOf '.' name.toList with
  | none => simp
  | some i =>
    rw [h i hdot]
    simp

theorem numbered_extension {name : String} (h : ¬Plain name.toList) (n : ℕ) :
    ∃ stem ext, name.toList = stem ++ '.' :: ext ∧ stem ≠ [] ∧ '.' ∉ ext ∧
      (numbered name n).toList = (stem ++ '_' :: (itoa n).toList) ++ '.' :: ext := by
  obtain ⟨i, hdot, hi⟩ : ∃ i, lastIndexOf '.' name.toList = some i ∧ i ≠ 0 := by
    simpa [Plain] using h
  obtain ⟨ext, hdrop, hext, hlt⟩ := lastIndexOf_eq_some hdot
  refine ⟨name.toList.take i, ext, ?_, ?_, hext, ?_⟩
  · rw [← hdrop, List.take_append_drop]
  · intro hnil
    rw [List.take_eq_nil_iff] at hnil
    obtain hnil | hnil := hnil
    · exact hi hnil
    · rw [hnil] at hlt
      exact absurd hlt (Nat.not_lt_zero i)
  · unfold numbered
    rw [hdot]
    change String.toList (if 0 < i then _ else _) = _
    rw [if_pos (Nat.pos_of_ne_zero hi), hdrop]
    simp

theorem plain_numbered_iff (name : String) (n : ℕ) :
    Plain (numbered name n).toList ↔ Plain name.toList := by
  by_cases h : Plain name.toList
  · have hdot : '.' ∉ '_' :: (itoa n).toList := by
      rw [List.mem_cons, not_or]
      exact ⟨by decide, dot_not_mem_itoa n⟩
    rw [numbered_plain h, Plain, lastIndexOf_append hdot]
    rfl
  · obtain ⟨stem, ext, -, -, hext, heq⟩ := numbered_extension h n
    rw [heq, Plain, lastIndexOf_append_cons hext]
    refine iff_of_false (fun hzero => ?_) h
    have hlen := hzero _ rfl
    rw [List.length_append, List.length_cons] at hlen
    omega

/-- A numbered name shows the name and the number. -/
theorem numbered_inj {x y : String} {m n : ℕ} (h : numbered x m = numbered y n) :
    x = y ∧ m = n := by
  have hplain : Plain x.toList ↔ Plain y.toList := by
    rw [← plain_numbered_iff x m, ← plain_numbered_iff y n, h]
  by_cases hx : Plain x.toList
  · have heq : x.toList ++ '_' :: (itoa m).toList = y.toList ++ '_' :: (itoa n).toList := by
      rw [← numbered_plain hx, ← numbered_plain (hplain.mp hx), h]
    obtain ⟨hname, hnum⟩ :=
      append_cons_inj (underscore_not_mem_itoa m) (underscore_not_mem_itoa n) heq
    exact ⟨String.toList_inj.mp hname, itoa_injective (String.toList_inj.mp hnum)⟩
  · obtain ⟨s, t, hxs, -, ht, hm⟩ := numbered_extension hx m
    obtain ⟨s', t', hys, -, ht', hn⟩ := numbered_extension (fun hy => hx (hplain.mpr hy)) n
    rw [h, hn] at hm
    obtain ⟨hstem, hext⟩ := append_cons_inj ht' ht hm
    obtain ⟨hs, hnum⟩ :=
      append_cons_inj (underscore_not_mem_itoa n) (underscore_not_mem_itoa m) hstem
    refine ⟨String.toList_inj.mp ?_, (itoa_injective (String.toList_inj.mp hnum)).symm⟩
    rw [hxs, hys, hs, hext]

/-! The names of a run. -/

/-- The name of an occurrence. -/
def nameOf (name : String) (n : ℕ) : String := if n = 0 then name else numbered name n

theorem entryNamesFrom_eq (seen : GoMap String ℕ) (l : List String) :
    entryNamesFrom seen l =
      (numberFrom (fun name => (seen.lookup name).getD 0) l).map fun p => nameOf p.1 p.2 := by
  induction l generalizing seen with
  | nil => rfl
  | cons name l ih =>
    rw [entryNamesFrom, numberFrom, List.map_cons, ih]
    have hseen : (fun x => (((entryName seen name).2.lookup x).getD 0)) =
        Function.update (fun x => (seen.lookup x).getD 0) name ((seen.lookup name).getD 0 + 1) := by
      funext x
      change ((seen.insert name _).lookup x).getD 0 = _
      rw [GoMap.lookup_insert_if, Function.update_apply]
      split_ifs <;> rfl
    rw [hseen]
    rfl

theorem entryNames_eq (l : List String) :
    entryNames l = (numberFrom (fun _ => 0) l).map fun p => nameOf p.1 p.2 :=
  entryNamesFrom_eq ∅ l

theorem length_entryNames (l : List String) : (entryNames l).length = l.length := by
  rw [entryNames_eq, List.length_map, length_numberFrom]

/-- The names are distinct if no file has the name that a duplicate of another is given. -/
theorem unpacks_iff (l : List String) :
    Unpacks l ↔ ∀ name n, n + 1 < l.count name → numbered name (n + 1) ∉ l := by
  have hnodup : (entryNames l).Nodup ↔
      ∀ name n, n + 1 < l.count name → numbered name (n + 1) ∉ l := by
    rw [entryNames_eq]
    refine nodup_names_iff (fun _ => rfl) (fun h => ?_) l
    obtain ⟨hname, hnum⟩ := numbered_inj h
    exact ⟨hname, Nat.succ.inj hnum⟩
  refine Iff.trans (and_iff_left_of_imp fun h => ?_) hnodup
  rw [List.toFinset_card_of_nodup h, length_entryNames]

/-- A duplicate of `a.txt` is given the name of the third file. -/
theorem unpacks_fails : ¬Unpacks ["a.txt", "a.txt", "a_1.txt"] := by
  intro h
  have hnames : entryNames ["a.txt", "a.txt", "a_1.txt"] = ["a.txt", "a_1.txt", "a_1.txt"] := by
    decide
  have hnodup := h.1
  rw [hnames] at hnodup
  exact absurd hnodup (by decide)

end Spade.Web
