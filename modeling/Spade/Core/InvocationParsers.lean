import Spade.Core.Uuid

set_option autoImplicit false

/-!
# The two parsers of invocation ids

Both read back what `InvocationID` prints. On other texts the digit loop of the scheduler wraps
around and takes no sign, where `strconv.Atoi` of the runner has a range and takes one.
-/
namespace Spade
open UUIDPackage

/-- A nonempty run of decimal digits. -/
def Decimal (s : List Char) : Prop := s ≠ [] ∧ s.all Char.isDigit = true

instance (s : List Char) : Decidable (Decimal s) := inferInstanceAs (Decidable (_ ∧ _))

/-- The number that a run of digits stands for. -/
def decimalValue (s : List Char) : ℕ := s.foldl (fun n c => n * 10 + digit c) 0

/-! The arithmetic of the digit loops. -/

theorem wrapInt_step (n : Int) (d : ℕ) : wrapInt (wrapInt n * 10 + d) = wrapInt (n * 10 + d) := by
  unfold wrapInt
  rw [← Int.bmod_add_bmod, Int.bmod_mul_bmod, Int.bmod_add_bmod]

/-- The digit loop of the scheduler. -/
theorem schedulerLoop_eq (s : List Char) :
    s.foldl (fun n c => wrapInt (n * 10 + digit c)) 0 = wrapInt (decimalValue s) := by
  have hstep : ∀ (n : ℕ) (c : Char),
      wrapInt (wrapInt n * 10 + digit c) = wrapInt (n * 10 + digit c : ℕ) := by
    intro n c
    rw [wrapInt_step, Nat.cast_add, Nat.cast_mul, Nat.cast_ofNat]
  have hzero : wrapInt (0 : ℕ) = 0 := Int.zero_bmod
  rw [← hzero, decimalValue]
  exact List.foldl_hom (fun n : ℕ => wrapInt n) hstep

theorem decimalValue_itoa (n : ℕ) : decimalValue (itoa n).toList = n := by
  have hfold : ∀ (s : List Char) (m : ℕ),
      s.foldl (fun n c => n * 10 + digit c) m = Nat.ofDigitChars 10 s m := by
    intro s
    induction s with
    | nil => exact fun m => Nat.ofDigitChars_nil.symm
    | cons c s ih =>
      intro m
      rw [List.foldl_cons, ih, Nat.ofDigitChars_cons, Nat.mul_comm]
      rfl
  have hdigits : (itoa n).toList = Nat.toDigits 10 n := Nat.toList_repr
  rw [decimalValue, hfold, hdigits, Nat.ofDigitChars_ten_toDigits]

/-! What `strconv.Atoi` makes of a text. -/

theorem not_decimal_sign {c : Char} (hc : c = '-' ∨ c = '+') (s : List Char) :
    ¬Decimal (c :: s) := by
  rintro ⟨-, h⟩
  have hdigit := List.all_eq_true.mp h c List.mem_cons_self
  rcases hc with rfl | rfl <;> exact absurd hdigit (by decide)

theorem atoi_unsigned {s : List Char} (h : ∀ c t, s = c :: t → c ≠ '-' ∧ c ≠ '+') :
    atoi s = if Decimal s then
      if decimalValue s < 2 ^ 63 then some (decimalValue s : Int) else none else none := by
  have hrange : ∀ n : ℕ, (-2 ^ 63 ≤ (n : Int) ∧ (n : Int) < 2 ^ 63) ↔ n < 2 ^ 63 := by omega
  unfold atoi
  split
  · exact absurd rfl (h _ _ rfl).1
  · exact absurd rfl (h _ _ rfl).2
  · refine if_congr Iff.rfl ?_ rfl
    exact if_congr (hrange _) rfl rfl

theorem atoi_minus (s : List Char) : atoi ('-' :: s) = if Decimal s then
    if decimalValue s ≤ 2 ^ 63 then some (-(decimalValue s : Int)) else none else none := by
  have hrange : ∀ n : ℕ, (-2 ^ 63 ≤ -(n : Int) ∧ -(n : Int) < 2 ^ 63) ↔ n ≤ 2 ^ 63 := by omega
  unfold atoi
  refine if_congr Iff.rfl ?_ rfl
  exact if_congr (hrange _) rfl rfl

theorem atoi_plus (s : List Char) : atoi ('+' :: s) = if Decimal s then
    if decimalValue s < 2 ^ 63 then some (decimalValue s : Int) else none else none := by
  have hrange : ∀ n : ℕ, (-2 ^ 63 ≤ (n : Int) ∧ (n : Int) < 2 ^ 63) ↔ n < 2 ^ 63 := by omega
  unfold atoi
  refine if_congr Iff.rfl ?_ rfl
  exact if_congr (hrange _) rfl rfl

theorem atoi_decimal {s : List Char} (h : Decimal s) :
    atoi s = if decimalValue s < 2 ^ 63 then some (decimalValue s : Int) else none := by
  rw [atoi_unsigned, if_pos h]
  rintro c t rfl
  exact ⟨fun hc => not_decimal_sign (.inl hc) t h, fun hc => not_decimal_sign (.inr hc) t h⟩

/-- A sign in front of a number that is in range and not negative. -/
def SignedIndex (s : List Char) : Prop :=
  ∃ sign digits, s = sign :: digits ∧ Decimal digits ∧
    (sign = '+' ∧ decimalValue digits < 2 ^ 63 ∨ sign = '-' ∧ decimalValue digits = 0)

/-- A number beyond the range of `int`. -/
def LargeIndex (s : List Char) : Prop := Decimal s ∧ 2 ^ 63 ≤ decimalValue s

theorem SignedIndex.not_decimal {s : List Char} (h : SignedIndex s) : ¬Decimal s := by
  obtain ⟨sign, digits, rfl, -, ⟨rfl, -⟩ | ⟨rfl, -⟩⟩ := h
  · exact not_decimal_sign (.inr rfl) _
  · exact not_decimal_sign (.inl rfl) _

theorem SignedIndex.atoi {s : List Char} (h : SignedIndex s) : ∃ n, atoi s = some n ∧ 0 ≤ n := by
  obtain ⟨sign, digits, rfl, hd, ⟨rfl, hlt⟩ | ⟨rfl, hzero⟩⟩ := h
  · exact ⟨_, by rw [atoi_plus, if_pos hd, if_pos hlt], Int.natCast_nonneg _⟩
  · refine ⟨_, by rw [atoi_minus, if_pos hd, if_pos (hzero ▸ by decide)], ?_⟩
    omega

/-- Only digits and signed numbers are read as an index. -/
theorem signedIndex_of_atoi {s : List Char} {n : Int} (h : atoi s = some n) (hn : 0 ≤ n)
    (hd : ¬Decimal s) : SignedIndex s := by
  by_cases hs : ∀ c t, s = c :: t → c ≠ '-' ∧ c ≠ '+'
  · rw [atoi_unsigned hs, if_neg hd] at h
    cases h
  · push Not at hs
    obtain ⟨c, t, rfl, hc⟩ := hs
    by_cases hminus : c = '-'
    · subst hminus
      rw [atoi_minus] at h
      split_ifs at h with ht
      refine ⟨'-', t, rfl, ht, .inr ⟨rfl, ?_⟩⟩
      have heq := Option.some.inj h
      omega
    · obtain rfl := hc hminus
      rw [atoi_plus] at h
      split_ifs at h with ht hlt
      exact ⟨'+', t, rfl, ht, .inl ⟨rfl, hlt⟩⟩

section
variable [UUIDPackage]

/-! The branches of the parsers. -/

section
variable {id : String} {raw suffix : List Char} (hs : splitLastDot id.toList = some (raw, suffix))
include hs

theorem scheduler_decimal (hd : Decimal suffix) : parseInvocationIDForScheduler id =
    ((parse (String.ofList raw)).1, some (wrapInt (decimalValue suffix)),
      (parse (String.ofList raw)).2) := by
  rw [parseInvocationIDForScheduler, hs, ← schedulerLoop_eq]
  exact if_pos hd

theorem scheduler_whole (hd : ¬Decimal suffix) :
    parseInvocationIDForScheduler id = ((parse id).1, none, (parse id).2) := by
  rw [parseInvocationIDForScheduler, hs]
  exact if_neg hd

theorem runner_index {n : Int} (hn : atoi suffix = some n) (hnonneg : 0 ≤ n) :
    parseInvocationID id = if (parse (String.ofList raw)).2 then
      ((parse (String.ofList raw)).1, some n, true) else (UUID.nil, none, false) := by
  unfold parseInvocationID
  simp only [hs, hn, if_pos hnonneg]

theorem runner_whole (hn : ∀ n, atoi suffix = some n → ¬0 ≤ n) :
    parseInvocationID id = if (parse id).2 then ((parse id).1, none, true)
      else (UUID.nil, none, false) := by
  unfold parseInvocationID
  cases ha : atoi suffix with
  | none => simp only [hs, ha]
  | some n => simp only [hs, ha, if_neg (hn n ha)]

end

/-! Reading back what is printed. -/

theorem invocationID_mapped (u : UUID) (n : ℕ) :
    splitLastDot (string u ++ "." ++ itoa n).toList = some ((string u).toList, (itoa n).toList) := by
  have hs : (string u ++ "." ++ itoa n).toList = (string u).toList ++ '.' :: (itoa n).toList := by
    simp
  rw [hs, splitLastDot_append (dot_not_mem_itoa n)]

theorem parseForScheduler_mapped (u : UUID) {n : ℕ} (hn : n < 2 ^ 63) :
    parseInvocationIDForScheduler (string u ++ "." ++ itoa n) = (u, some (n : Int), true) := by
  rw [scheduler_decimal (invocationID_mapped u n) (itoa_digits n), decimalValue_itoa,
    wrapInt_eq (Int.natCast_nonneg n) (by omega), String.ofList_toList, parse_string]

theorem parse_mapped_runner (u : UUID) {n : ℕ} (hn : n < 2 ^ 63) :
    parseInvocationID (string u ++ "." ++ itoa n) = (u, some (n : Int), true) := by
  have hatoi : atoi (itoa n).toList = some (n : Int) := by
    rw [atoi_decimal (itoa_digits n), decimalValue_itoa, if_pos hn]
  rw [runner_index (invocationID_mapped u n) hatoi (Int.natCast_nonneg n), String.ofList_toList,
    parse_string]
  rfl

theorem parse_plain_runner (u : UUID) : parseInvocationID (string u) = (u, none, true) := by
  rw [parseInvocationID, splitLastDot_none (string_no_dot u)]
  dsimp only
  rw [parse_string]
  rfl

/-- A map index, if there is one, that is no negative `int`. -/
def BlockInvocation.IndexInRange (b : BlockInvocation) : Prop :=
  ∀ i, b.mapIndex = some i → 0 ≤ i ∧ i < 2 ^ 63

theorem parse_printed {b : BlockInvocation} (h : b.IndexInRange) :
    parseInvocationIDForScheduler b.invocationID = (b.id, b.mapIndex, true) ∧
      parseInvocationID b.invocationID = (b.id, b.mapIndex, true) := by
  unfold BlockInvocation.invocationID
  cases hi : b.mapIndex with
  | none => exact ⟨parse_plain b.id, parse_plain_runner b.id⟩
  | some i =>
    obtain ⟨hnonneg, hlt⟩ := h i hi
    obtain ⟨n, rfl⟩ := Int.eq_ofNat_of_zero_le hnonneg
    have hn : n < 2 ^ 63 := by omega
    exact ⟨parseForScheduler_mapped b.id hn, parse_mapped_runner b.id hn⟩

/-- Both parsers read back the block and the index, so that no two invocations print the same. -/
theorem invocationID_readBack {b : BlockInvocation} (h : b.IndexInRange) :
    parseInvocationIDForScheduler b.invocationID = (b.id, b.mapIndex, true) ∧
    parseInvocationID b.invocationID = (b.id, b.mapIndex, true) ∧
    ∀ b' : BlockInvocation, b'.IndexInRange → b'.invocationID = b.invocationID →
      b'.id = b.id ∧ b'.mapIndex = b.mapIndex := by
  obtain ⟨hscheduler, hrunner⟩ := parse_printed h
  refine ⟨hscheduler, hrunner, fun b' h' heq => ?_⟩
  have hread := (parse_printed h').1
  rw [heq, hscheduler] at hread
  obtain ⟨hid, hrest⟩ := Prod.mk.inj hread
  exact ⟨hid.symm, (Prod.mk.inj hrest).1.symm⟩

/-! On any text. -/

/-- Both parsers fail, or both return the same block and the same index. -/
def ParsersAgree (id : String) : Prop :=
  (parseInvocationIDForScheduler id).2.2 = false ∧ (parseInvocationID id).2.2 = false ∨
  (parseInvocationIDForScheduler id).2.2 = true ∧
    parseInvocationID id = parseInvocationIDForScheduler id

/-- The part after the last dot is read alike. -/
theorem agree_of_same {id raw : String} {idx : Option Int}
    (hscheduler : parseInvocationIDForScheduler id = ((parse raw).1, idx, (parse raw).2))
    (hrunner : parseInvocationID id = if (parse raw).2 then ((parse raw).1, idx, true)
      else (UUID.nil, none, false)) : ParsersAgree id := by
  unfold ParsersAgree
  rw [hscheduler, hrunner]
  cases (parse raw).2 with
  | false => exact .inl ⟨rfl, rfl⟩
  | true => exact .inr ⟨rfl, rfl⟩

/-- One parser finds an index where the other takes the whole text for a UUID. -/
theorem agree_iff_of_apart {id raw raw' : String} {idx idx' : Option Int} (hidx : idx ≠ idx')
    (hscheduler : parseInvocationIDForScheduler id = ((parse raw).1, idx, (parse raw).2))
    (hrunner : parseInvocationID id = if (parse raw').2 then ((parse raw').1, idx', true)
      else (UUID.nil, none, false)) :
    ParsersAgree id ↔ (parse raw).2 = false ∧ (parse raw').2 = false := by
  unfold ParsersAgree
  rw [hscheduler, hrunner]
  cases (parse raw).2 with
  | false =>
    cases (parse raw').2 with
    | false => exact ⟨fun _ => ⟨rfl, rfl⟩, fun _ => .inl ⟨rfl, rfl⟩⟩
    | true => exact ⟨fun h => (h.elim (fun h => by cases h.2) fun h => by cases h.1), nofun⟩
  | true =>
    refine ⟨fun h => ?_, nofun⟩
    rcases h with ⟨h, -⟩ | ⟨-, h⟩
    · cases h
    · cases hp : (parse raw').2 with
      | false =>
        rw [hp] at h
        cases (Prod.mk.inj (Prod.mk.inj h).2).2
      | true =>
        rw [hp] at h
        exact absurd (Prod.mk.inj (Prod.mk.inj h).2).1.symm hidx

/-- The parsers agree unless an index with a sign or out of range follows the last dot, and what
is before it, or the whole text, is a UUID. -/
theorem parsers_agree_iff (id : String) : ParsersAgree id ↔ ∀ raw suffix,
    splitLastDot id.toList = some (raw, suffix) → SignedIndex suffix ∨ LargeIndex suffix →
    (parse (String.ofList raw)).2 = false ∧ (parse id).2 = false := by
  cases hs : splitLastDot id.toList with
  | none =>
    refine iff_of_true ?_ nofun
    have hscheduler : parseInvocationIDForScheduler id =
        ((parse id).1, none, (parse id).2) := by
      rw [parseInvocationIDForScheduler, hs]
    exact agree_of_same hscheduler (by rw [parseInvocationID, hs])
  | some split =>
    obtain ⟨raw, suffix⟩ := split
    have hrewrite : (∀ raw' suffix', some (raw, suffix) = some (raw', suffix') →
        SignedIndex suffix' ∨ LargeIndex suffix' →
        (parse (String.ofList raw')).2 = false ∧ (parse id).2 = false) ↔
        (SignedIndex suffix ∨ LargeIndex suffix →
          (parse (String.ofList raw)).2 = false ∧ (parse id).2 = false) := by
      refine ⟨fun h => h raw suffix rfl, fun h raw' suffix' heq => ?_⟩
      cases heq
      exact h
    rw [hrewrite]
    by_cases hd : Decimal suffix
    · have hscheduler := scheduler_decimal hs hd
      have hsigned : ¬SignedIndex suffix := fun h => h.not_decimal hd
      have hatoi := atoi_decimal hd
      by_cases hlt : decimalValue suffix < 2 ^ 63
      · have hlarge : ¬LargeIndex suffix := fun h => absurd h.2 (Nat.not_le.mpr hlt)
        rw [if_pos hlt] at hatoi
        rw [wrapInt_eq (Int.natCast_nonneg _) (by omega)] at hscheduler
        exact iff_of_true (agree_of_same hscheduler (runner_index hs hatoi (Int.natCast_nonneg _)))
          fun h => (h.elim hsigned hlarge).elim
      · have hlarge : LargeIndex suffix := ⟨hd, Nat.not_lt.mp hlt⟩
        rw [if_neg hlt] at hatoi
        rw [agree_iff_of_apart (Option.some_ne_none _) hscheduler
          (runner_whole hs fun n hn => by rw [hatoi] at hn; cases hn)]
        exact ⟨fun h _ => h, fun h => h (.inr hlarge)⟩
    · have hscheduler := scheduler_whole hs hd
      have hlarge : ¬LargeIndex suffix := fun h => hd h.1
      by_cases hsigned : SignedIndex suffix
      · obtain ⟨n, hn, hnonneg⟩ := hsigned.atoi
        rw [agree_iff_of_apart (Option.some_ne_none _).symm hscheduler (runner_index hs hn hnonneg)]
        exact ⟨fun h _ => h.symm, fun h => (h (.inl hsigned)).symm⟩
      · exact iff_of_true (agree_of_same hscheduler (runner_whole hs fun n hn hnonneg =>
          hsigned (signedIndex_of_atoi hn hnonneg hd))) fun h => (h.elim hsigned hlarge).elim

end

open scoped Uuid

theorem invocationID_readBack_third :
    parseInvocationIDForScheduler (BlockInvocation.mk 7 "data.read" 1 [] none (some 3)).invocationID =
      (7, some 3, true) ∧
    parseInvocationID (BlockInvocation.mk 7 "data.read" 1 [] none (some 3)).invocationID =
      (7, some 3, true) ∧
    ∀ b' : BlockInvocation, b'.IndexInRange →
      b'.invocationID = (BlockInvocation.mk 7 "data.read" 1 [] none (some 3)).invocationID →
      b'.id = 7 ∧ b'.mapIndex = some 3 :=
  invocationID_readBack fun i hi => by
    cases hi
    decide

/-- `strconv.Atoi` takes the sign, the digit loop does not. -/
theorem parsers_agree_fails : ¬ParsersAgree "019cf4bc-1111-7000-0000-000000000000.+5" := by
  have hscheduler :
      (parseInvocationIDForScheduler "019cf4bc-1111-7000-0000-000000000000.+5").2.2 = false := by
    decide
  have hrunner : (parseInvocationID "019cf4bc-1111-7000-0000-000000000000.+5").2.2 = true := by
    decide
  rintro (⟨-, h⟩ | ⟨h, -⟩)
  · rw [hrunner] at h
    cases h
  · rw [hscheduler] at h
    cases h

end Spade
