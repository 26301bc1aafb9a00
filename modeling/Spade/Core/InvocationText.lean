import Mathlib.Algebra.Group.Int.Defs
import Mathlib.Algebra.Group.Nat.Defs
import Mathlib.Data.List.TakeWhile
import Spade.Core.Types

set_option autoImplicit false

/-!
# Invocation ids as text

`InvocationID` renders a block id and an optional map index; the scheduler and the
runner each have a parser for it.
-/
namespace Spade
open UUIDPackage

/-- `fmt.Sprintf("%d", i)`. -/
def itoa (i : Int) : String := i.repr

/-- A 64-bit two's complement `int`. -/
def wrapInt (n : Int) : Int := n.bmod (2 ^ 64)

theorem wrapInt_eq {n : Int} (h : 0 ≤ n) (hlt : n < 2 ^ 63) : wrapInt n = n :=
  Int.bmod_eq_of_le (by omega) (by omega)

def digit (c : Char) : ℕ := c.toNat - '0'.toNat

/-- `id[:i]` and `id[i+1:]` for the last dot of `id`. -/
def splitLastDot (s : List Char) : Option (List Char × List Char) :=
  match s.reverse.dropWhile (· ≠ '.') with
  | [] => none
  | _ :: before => some (before.reverse, (s.reverse.takeWhile (· ≠ '.')).reverse)

/-- `strconv.Atoi`: an optional sign and decimal digits within the range of `int`. -/
def atoi (s : List Char) : Option Int :=
  let signed : Bool × List Char :=
    match s with
    | '-' :: t => (true, t)
    | '+' :: t => (false, t)
    | t => (false, t)
  if signed.2 ≠ [] ∧ signed.2.all Char.isDigit then
    let n : ℕ := signed.2.foldl (fun n c => n * 10 + digit c) 0
    let v : Int := if signed.1 then -(n : Int) else n
    if -2 ^ 63 ≤ v ∧ v < 2 ^ 63 then some v else none
  else none

section
variable [UUIDPackage]

def BlockInvocation.invocationID (b : BlockInvocation) : String :=
  match b.mapIndex with
  | some i => string b.id ++ "." ++ itoa i
  | none => string b.id

/-- The UUID part, the index if there is one, and whether the UUID part parsed. -/
def parseInvocationIDForScheduler (id : String) : UUID × Option Int × Bool :=
  match splitLastDot id.toList with
  | some (raw, suffix) =>
    if suffix ≠ [] ∧ suffix.all Char.isDigit then
      let u := parse (String.ofList raw)
      (u.1, some (suffix.foldl (fun n c => wrapInt (n * 10 + digit c)) 0), u.2)
    else ((parse id).1, none, (parse id).2)
  | none => ((parse id).1, none, (parse id).2)

/-- `ParseInvocationID` of the runner; `uuid.Nil` and no index on failure. -/
def parseInvocationID (id : String) : UUID × Option Int × Bool :=
  let rawIdx : String × Option Int :=
    match splitLastDot id.toList with
    | some (raw, idxStr) =>
      match atoi idxStr with
      | some n => if 0 ≤ n then (String.ofList raw, some n) else (id, none)
      | none => (id, none)
    | none => (id, none)
  let u := parse rawIdx.1
  if u.2 then (u.1, rawIdx.2, true) else (UUID.nil, none, false)

end

theorem splitLastDot_none {s : List Char} (h : '.' ∉ s) : splitLastDot s = none := by
  have hd : s.reverse.dropWhile (· ≠ '.') = [] := by
    rw [List.dropWhile_eq_nil_iff]
    intro c hc
    simp only [decide_eq_true_eq]
    rintro rfl
    exact h (by simpa using hc)
  rw [splitLastDot, hd]

theorem splitLastDot_append {s t : List Char} (h : '.' ∉ t) :
    splitLastDot (s ++ '.' :: t) = some (s, t) := by
  have ht : ∀ c ∈ t.reverse, decide (c ≠ '.') = true := by
    intro c hc
    simp only [decide_eq_true_eq]
    rintro rfl
    exact h (by simpa using hc)
  have hr : (s ++ '.' :: t).reverse = t.reverse ++ '.' :: s.reverse := by simp
  have hd : (s ++ '.' :: t).reverse.dropWhile (· ≠ '.') = '.' :: s.reverse := by
    rw [hr, List.dropWhile_append_of_pos ht]
    simp
  have hw : (s ++ '.' :: t).reverse.takeWhile (· ≠ '.') = t.reverse := by
    rw [hr, List.takeWhile_append_of_pos ht]
    simp
  rw [splitLastDot, hd, hw]
  simp

theorem itoa_digits (n : ℕ) : (itoa n).toList ≠ [] ∧ (itoa n).toList.all Char.isDigit = true := by
  have h : (itoa n).toList = Nat.toDigits 10 n := Nat.toList_repr
  rw [h]
  exact ⟨Nat.toDigits_ne_nil,
    List.all_eq_true.mpr fun c hc => Nat.isDigit_of_mem_toDigits (by omega) (by omega) hc⟩

theorem dot_not_mem_itoa (n : ℕ) : '.' ∉ (itoa n).toList := by
  intro h
  have hd := List.all_eq_true.mp (itoa_digits n).2 _ h
  simp at hd

theorem itoa_injective {m n : ℕ} (h : itoa m = itoa n) : m = n := by
  have hd : Nat.toDigits 10 m = Nat.toDigits 10 n := by
    have hm : (itoa m).toList = Nat.toDigits 10 m := Nat.toList_repr
    rw [← hm, h]
    exact Nat.toList_repr
  simpa using congrArg (fun l => Nat.ofDigitChars 10 l 0) hd

section
variable [UUIDPackage]

theorem parse_plain (u : UUID) : parseInvocationIDForScheduler (string u) = (u, none, true) := by
  rw [parseInvocationIDForScheduler, splitLastDot_none (string_no_dot u)]
  simp only [parse_string]

theorem parse_mapped (u : UUID) (n : ℕ) : ∃ i : Int,
    parseInvocationIDForScheduler (string u ++ "." ++ itoa n) = (u, some i, true) := by
  have hs : (string u ++ "." ++ itoa n).toList = (string u).toList ++ '.' :: (itoa n).toList := by
    simp
  rw [parseInvocationIDForScheduler, hs, splitLastDot_append (dot_not_mem_itoa n)]
  dsimp only
  rw [if_pos (itoa_digits n), String.ofList_toList, parse_string]
  exact ⟨_, rfl⟩

/-- The map index of an invocation the scheduler makes is a position in an expansion. -/
def BlockInvocation.Indexed (b : BlockInvocation) : Prop :=
  ∀ i, b.mapIndex = some i → 0 ≤ i

theorem parse_invocationID (b : BlockInvocation) (h : b.Indexed) :
    (parseInvocationIDForScheduler b.invocationID).1 = b.id ∧
    ((parseInvocationIDForScheduler b.invocationID).2.1 = none ↔ b.mapIndex = none) ∧
    (parseInvocationIDForScheduler b.invocationID).2.2 = true := by
  unfold BlockInvocation.invocationID
  cases hi : b.mapIndex with
  | none => simp [parse_plain]
  | some i =>
    obtain ⟨n, rfl⟩ := Int.eq_ofNat_of_zero_le (h i hi)
    obtain ⟨j, hj⟩ := parse_mapped b.id n
    simp [hj]

theorem string_injective {u v : UUID} (h : string u = string v) : u = v := by
  have hu := parse_string u
  rw [h, parse_string v] at hu
  exact (congrArg Prod.fst hu).symm

end
end Spade
