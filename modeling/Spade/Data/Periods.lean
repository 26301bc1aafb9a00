import Spade.Core.InvocationParsers
import Spade.Data.Types
import Spade.Lib.Successors

set_option autoImplicit false

/-!
# Periods between two dates

The years, months or days for which `data.prism` downloads rasters
(`blocks/data/src/catalog/prism.rs`).
-/
namespace Spade.Data
open Successors

/-- Year, month and day. -/
abbrev Date := ℤ × ℕ × ℕ

def minI32 : ℤ := -2 ^ 31

def maxI32 : ℤ := 2 ^ 31 - 1

def parseDigits (s : List Char) : Option ℕ := if Decimal s then some (decimalValue s) else none

def parseI32 (s : List Char) : Option ℤ :=
  let n : Option ℤ := match s with
    | '+' :: t => (parseDigits t).map fun n => n
    | '-' :: t => (parseDigits t).map fun n => -n
    | t => (parseDigits t).map fun n => n
  n.filter fun n => minI32 ≤ n ∧ n ≤ maxI32

def parseU32 (s : List Char) : Option ℕ :=
  let n := match s with
    | '+' :: t => parseDigits t
    | t => parseDigits t
  n.filter fun n => n < 2 ^ 32

def orBad {α : Type} (reason : String) : Option α → Except DataError α
  | some x => .ok x
  | none => .error (.badArgument "date" reason)

def parseDate (s : String) : Except DataError Date :=
  match s.toList.splitOn '-' with
  | [y, m, d] => do
    let year ← orBad s!"bad year in '{s}'" (parseI32 y)
    let month ← orBad s!"bad month in '{s}'" (parseU32 m)
    let day ← orBad s!"bad day in '{s}'" (parseU32 d)
    if ¬(1 ≤ month ∧ month ≤ 12) ∨ ¬(1 ≤ day ∧ day ≤ 31) then
      .error (.badArgument "date" s!"out-of-range month/day in '{s}'")
    else .ok (year, month, day)
  | _ => .error (.badArgument "date" s!"expected YYYY-MM-DD (got '{s}')")

def daysIn (y : ℤ) (m : ℕ) : ℕ :=
  if m ∈ [1, 3, 5, 7, 8, 10, 12] then 31
  else if m ∈ [4, 6, 9, 11] then 30
  else if m = 2 then
    if (y.tmod 4 = 0 ∧ y.tmod 100 ≠ 0) ∨ y.tmod 400 = 0 then 29 else 28
  else 0

/-- The last year of the type has no next one. -/
def nextYear (y : ℤ) : Option ℤ := if y = maxI32 then none else some (y + 1)

def nextMonth (x : ℤ × ℕ) : Option (ℤ × ℕ) :=
  if 12 < x.2 + 1 then (nextYear x.1).map fun y => (y, 1) else some (x.1, x.2 + 1)

def nextDay (x : Date) : Option Date :=
  if daysIn x.1 x.2.1 < x.2.2 + 1 then
    (nextMonth (x.1, x.2.1)).map fun z => (z.1, z.2, 1)
  else some (x.1, x.2.1, x.2.2 + 1)

def MonthBefore (a b : ℤ × ℕ) : Prop := a.1 < b.1 ∨ (a.1 = b.1 ∧ a.2 < b.2)

instance (a b : ℤ × ℕ) : Decidable (MonthBefore a b) := inferInstanceAs (Decidable (_ ∨ _))

def DayBefore (a b : Date) : Prop :=
  a.1 < b.1 ∨ (a.1 = b.1 ∧ a.2.1 < b.2.1) ∨ (a.1 = b.1 ∧ a.2.1 = b.2.1 ∧ a.2.2 < b.2.2)

instance (a b : Date) : Decidable (DayBefore a b) := inferInstanceAs (Decidable (_ ∨ _))

def pad2 (n : ℕ) : String := if n < 10 then "0" ++ itoa n else itoa n

def monthText (x : ℤ × ℕ) : String := itoa x.1 ++ pad2 x.2

def dayText (x : Date) : String := itoa x.1 ++ pad2 x.2.1 ++ pad2 x.2.2

/-- Months and days, numbered with gaps. -/
def monthKey (x : ℤ × ℕ) : ℤ := 12 * x.1 + x.2

def dayKey (x : Date) : ℤ := 372 * x.1 + 31 * x.2.1 + x.2.2

inductive EnumError where
  | data (e : DataError)
  | halt (h : Halt)
  deriving DecidableEq

/-- The loops are given as many turns as there are numbers from the first to the last. -/
def monthly (first last : ℤ × ℕ) : Except Halt (List (ℤ × ℕ)) :=
  upTo nextMonth (fun x => MonthBefore last x) last
    ((monthKey last - monthKey first).toNat + 1) first []

def daily (first last : Date) : Except Halt (List Date) :=
  upTo nextDay (fun x => DayBefore last x) last ((dayKey last - dayKey first).toNat + 1) first []

def enumeratePeriods (start stop : Date) (cadence : String) : Except EnumError (List String) :=
  if cadence = "annual" then
    .ok ((List.range (stop.1 - start.1 + 1).toNat).map fun k : ℕ => itoa (start.1 + k))
  else if cadence = "monthly" then
    ((monthly (start.1, start.2.1) (stop.1, stop.2.1)).mapError .halt).map (List.map monthText)
  else if cadence = "daily" then
    ((daily start stop).mapError .halt).map (List.map dayText)
  else .error (.data (.badArgument "cadence" s!"unknown cadence '{cadence}'"))

/-! What is to be listed. -/

inductive Cadence where
  | annual | monthly | daily

def Cadence.text : Cadence → String
  | annual => "annual"
  | monthly => "monthly"
  | daily => "daily"

def Leap (y : ℤ) : Prop := 4 ∣ y ∧ (¬100 ∣ y ∨ 400 ∣ y)

instance (y : ℤ) : Decidable (Leap y) := inferInstanceAs (Decidable (_ ∧ _))

def monthLength (y : ℤ) (m : ℕ) : ℕ :=
  if m = 2 then if Leap y then 29 else 28
  else if m = 4 ∨ m = 6 ∨ m = 9 ∨ m = 11 then 30
  else 31

/-- A day of the calendar. -/
def Gregorian (x : Date) : Prop :=
  1 ≤ x.2.1 ∧ x.2.1 ≤ 12 ∧ 1 ≤ x.2.2 ∧ x.2.2 ≤ monthLength x.1 x.2.1

instance (x : Date) : Decidable (Gregorian x) := inferInstanceAs (Decidable (_ ∧ _))

/-- The texts of these elements, each once and in increasing order, are what is returned. -/
def Lists {α : Type} (result : Except EnumError (List String)) (text : α → String)
    (before : α → α → Prop) (P : α → Prop) : Prop :=
  ∃ l : List α, l.Pairwise before ∧ (∀ x, x ∈ l ↔ P x) ∧ result = .ok (l.map text)

/-- The periods from the first date to the last; there are none if the last date is earlier. -/
def Exact (start stop : Date) : Cadence → Prop
  | .annual => Lists (enumeratePeriods start stop "annual") itoa (· < ·)
      fun y => ¬DayBefore stop start ∧ start.1 ≤ y ∧ y ≤ stop.1
  | .monthly => Lists (enumeratePeriods start stop "monthly") monthText MonthBefore
      fun x => ¬DayBefore stop start ∧ (1 ≤ x.2 ∧ x.2 ≤ 12) ∧
        ¬MonthBefore x (start.1, start.2.1) ∧ ¬MonthBefore (stop.1, stop.2.1) x
  | .daily => Lists (enumeratePeriods start stop "daily") dayText DayBefore
      fun x => Gregorian x ∧ ¬DayBefore x start ∧ ¬DayBefore stop x

/-- The dates are in order, if only for the years where these are listed, and the first of the
days is one of the calendar. -/
def InOrder (start stop : Date) : Cadence → Prop
  | .annual => DayBefore stop start → stop.1 < start.1
  | .monthly => ¬DayBefore stop start
  | .daily => ¬DayBefore stop start ∧ Gregorian start

/-! What the parser lets through. -/

/-- A date whose fields are in range. -/
structure Parsed (x : Date) : Prop where
  year_le : x.1 ≤ maxI32
  month : 1 ≤ x.2.1 ∧ x.2.1 ≤ 12
  day : 1 ≤ x.2.2 ∧ x.2.2 ≤ 31

theorem parseDate_parsed {s : String} {x : Date} (h : parseDate s = .ok x) : Parsed x := by
  unfold parseDate at h
  split at h
  · rename_i y m d _
    cases hy : parseI32 y with
    | none => rw [hy] at h; cases h
    | some year =>
    cases hm : parseU32 m with
    | none => rw [hy, hm] at h; cases h
    | some month =>
    cases hd : parseU32 d with
    | none => rw [hy, hm, hd] at h; cases h
    | some day =>
      rw [hy, hm, hd] at h
      change (if _ then _ else _) = _ at h
      split_ifs at h with hrange
      obtain rfl := Except.ok.inj h
      have hyear := Option.filter_eq_some_iff.mp hy
      have hle := of_decide_eq_true hyear.2
      rw [not_or, not_not, not_not] at hrange
      exact ⟨hle.2, hrange.1, hrange.2⟩
  · cases h

/-! Months and days one after the other. -/

theorem daysIn_eq {y : ℤ} {m : ℕ} (h : 1 ≤ m ∧ m ≤ 12) : daysIn y m = monthLength y m := by
  have hleap : ((y.tmod 4 = 0 ∧ y.tmod 100 ≠ 0) ∨ y.tmod 400 = 0) ↔ Leap y := by
    unfold Leap
    rw [← Int.dvd_iff_tmod_eq_zero, Ne, ← Int.dvd_iff_tmod_eq_zero, ← Int.dvd_iff_tmod_eq_zero]
    omega
  unfold daysIn monthLength
  simp only [hleap]
  obtain ⟨hlow, hhigh⟩ := h
  interval_cases m <;> rfl

theorem monthLength_le (y : ℤ) (m : ℕ) : 28 ≤ monthLength y m ∧ monthLength y m ≤ 31 := by
  unfold monthLength
  split_ifs <;> omega

theorem monthBefore_iff {a b : ℤ × ℕ} (ha : 1 ≤ a.2 ∧ a.2 ≤ 12) (hb : 1 ≤ b.2 ∧ b.2 ≤ 12) :
    MonthBefore a b ↔ monthKey a < monthKey b := by
  unfold MonthBefore monthKey
  omega

theorem dayBefore_iff {a b : Date} (ha : Parsed a) (hb : Parsed b) :
    DayBefore a b ↔ dayKey a < dayKey b := by
  have ham := ha.month
  have had := ha.day
  have hbm := hb.month
  have hbd := hb.day
  unfold DayBefore dayKey
  omega

/-- A month of a year in the type. -/
def MonthOk (x : ℤ × ℕ) : Prop := x.1 ≤ maxI32 ∧ 1 ≤ x.2 ∧ x.2 ≤ 12

theorem nextYear_eq {y z : ℤ} (h : nextYear y = some z) (hy : y ≤ maxI32) :
    z = y + 1 ∧ z ≤ maxI32 := by
  unfold nextYear at h
  split_ifs at h with hmax
  obtain rfl := Option.some.inj h
  omega

theorem nextYear_lt {y : ℤ} (h : y < maxI32) : nextYear y = some (y + 1) := if_neg h.ne

/-- The month after is the next number on the line. -/
theorem nextMonth_key {x z : ℤ × ℕ} (h : nextMonth x = some z) (hx : MonthOk x) :
    MonthOk z ∧ monthKey z = monthKey x + 1 := by
  obtain ⟨hyear, hlow, hhigh⟩ := hx
  unfold nextMonth at h
  split_ifs at h with hend
  · obtain ⟨y, hy, rfl⟩ := Option.map_eq_some_iff.mp h
    obtain ⟨rfl, hle⟩ := nextYear_eq hy hyear
    refine ⟨⟨hle, le_refl 1, by omega⟩, ?_⟩
    simp only [monthKey]
    omega
  · obtain rfl := Option.some.inj h
    refine ⟨⟨hyear, by omega, by omega⟩, ?_⟩
    simp only [monthKey]
    omega

theorem exists_nextMonth {x last : ℤ × ℕ} (hx : MonthOk x) (hlast : MonthOk last)
    (h : x.2 = 12 → monthKey x < monthKey last) : ∃ z, nextMonth x = some z := by
  obtain ⟨hyear, hlow, hhigh⟩ := hx
  obtain ⟨hlastYear, hlastLow, hlastHigh⟩ := hlast
  unfold nextMonth
  split_ifs with hend
  · have hlt : x.1 < maxI32 := by
      have hkey := h (by omega)
      unfold monthKey at hkey
      omega
    exact ⟨_, by rw [nextYear_lt hlt]; rfl⟩
  · exact ⟨_, rfl⟩

theorem follows_month {last : ℤ × ℕ} (hlast : MonthOk last) :
    Follows MonthOk MonthOk monthKey nextMonth last where
  inj x y hx hy h := by
    obtain ⟨-, hx⟩ := hx
    obtain ⟨-, hy⟩ := hy
    unfold monthKey at h
    exact Prod.ext (by omega) (by omega)
  step x y hx h := by
    obtain ⟨hy, hkey⟩ := nextMonth_key h hx
    exact ⟨hy, by omega⟩
  valid _ := id
  next_valid x hx h := by
    obtain ⟨z, hz⟩ := exists_nextMonth hx hlast fun _ => h
    obtain ⟨hok, hkey⟩ := nextMonth_key hz hx
    exact ⟨z, hz, hok, fun v _ hv => by omega⟩

theorem Parsed.monthOk {x : Date} (h : Parsed x) : MonthOk (x.1, x.2.1) :=
  ⟨h.year_le, h.month.1, h.month.2⟩

/-- A day of the calendar, in a year of the type. -/
def DayOk (x : Date) : Prop := x.1 ≤ maxI32 ∧ Gregorian x

theorem DayOk.parsed {x : Date} (h : DayOk x) : Parsed x where
  year_le := h.1
  month := ⟨h.2.1, h.2.2.1⟩
  day := ⟨h.2.2.2.1, h.2.2.2.2.trans (monthLength_le _ _).2⟩

theorem nextDay_key {x z : Date} (h : nextDay x = some z) (hx : Parsed x) :
    Parsed z ∧ dayKey x < dayKey z := by
  have hlen := monthLength_le x.1 x.2.1
  have hmonth := hx.month
  have hday := hx.day
  unfold nextDay at h
  rw [daysIn_eq hx.month] at h
  split_ifs at h with hend
  · obtain ⟨y, hy, rfl⟩ := Option.map_eq_some_iff.mp h
    obtain ⟨hok, hkey⟩ := nextMonth_key hy hx.monthOk
    refine ⟨⟨hok.1, hok.2, by simp⟩, ?_⟩
    have hrange := hok.2
    simp only [monthKey] at hkey
    simp only [dayKey]
    omega
  · obtain rfl := Option.some.inj h
    refine ⟨⟨hx.year_le, hx.month, ?_⟩, ?_⟩
    · simp only
      omega
    · simp only [dayKey]
      omega

theorem dayKey_eq (x : Date) : dayKey x = 31 * monthKey (x.1, x.2.1) + x.2.2 := by
  simp only [dayKey, monthKey]
  ring

theorem exists_nextDay {x last : Date} (hx : DayOk x) (hlast : Parsed last)
    (h : dayKey x < dayKey last) : ∃ z, nextDay x = some z := by
  unfold nextDay
  rw [daysIn_eq hx.parsed.month]
  split_ifs with hend
  · obtain ⟨z, hz⟩ := exists_nextMonth hx.parsed.monthOk hlast.monthOk fun hmonth => by
      have hlen : monthLength x.1 x.2.1 = 31 := by
        simp only at hmonth
        rw [hmonth]
        rfl
      have hday := hlast.day.2
      rw [dayKey_eq, dayKey_eq] at h
      omega
    exact ⟨_, by rw [hz]; rfl⟩
  · exact ⟨_, rfl⟩

/-- The day after is one of the calendar, and there is none in between. -/
theorem nextDay_valid {x z : Date} (h : nextDay x = some z) (hx : DayOk x) :
    DayOk z ∧ ∀ v, DayOk v → dayKey x < dayKey v → dayKey z ≤ dayKey v := by
  have hmonth := hx.parsed.month
  unfold nextDay at h
  rw [daysIn_eq hmonth] at h
  split_ifs at h with hend
  · obtain ⟨y, hy, rfl⟩ := Option.map_eq_some_iff.mp h
    obtain ⟨hok, hkey⟩ := nextMonth_key hy hx.parsed.monthOk
    have hlen := (monthLength_le y.1 y.2).1
    refine ⟨⟨hok.1, hok.2.1, hok.2.2, le_refl 1, by simp only; omega⟩, fun v hv hlt => ?_⟩
    have hvday := hv.parsed.day
    have hnext : monthKey (y.1, y.2) = monthKey (x.1, x.2.1) + 1 := hkey
    rw [dayKey_eq, dayKey_eq v] at hlt ⊢
    by_cases hsame : v.1 = x.1 ∧ v.2.1 = x.2.1
    · have hvlen := hv.2.2.2.2
      rw [hsame.1, hsame.2] at hvlen hlt
      omega
    · have hne : monthKey (v.1, v.2.1) ≠ monthKey (x.1, x.2.1) := fun heq => by
        have hpair := (follows_month hok).inj _ _ hv.parsed.monthOk hx.parsed.monthOk heq
        exact hsame (Prod.mk.inj hpair)
      have hxday := hx.parsed.day
      simp only
      omega
  · obtain rfl := Option.some.inj h
    refine ⟨⟨hx.1, hmonth.1, hmonth.2, by simp, by simp only; omega⟩, fun v _ hlt => ?_⟩
    simp only [dayKey] at hlt ⊢
    omega

theorem follows_day {last : Date} (hlast : Parsed last) :
    Follows Parsed DayOk dayKey nextDay last where
  inj x y hx hy h := by
    have hxd := hx.day
    have hyd := hy.day
    have hxm := hx.month
    have hym := hy.month
    unfold dayKey at h
    exact Prod.ext (by omega) (Prod.ext (by omega) (by omega))
  step _ _ hx h := nextDay_key h hx
  valid _ := DayOk.parsed
  next_valid x hx h := by
    obtain ⟨z, hz⟩ := exists_nextDay hx hlast h
    obtain ⟨hok, hfirst⟩ := nextDay_valid hz hx
    exact ⟨z, hz, hok, hfirst⟩

/-! The loops do not run out of turns. -/

variable {start stop : Date}

theorem monthly_fuel {first last : ℤ × ℕ} (hfirst : MonthOk first) (hlast : MonthOk last) :
    monthly first last ≠ .error .outOfFuel :=
  upTo_fuel (follows_month hlast).toAscends
    (fun x hx => decide_eq_true_iff.trans (monthBefore_iff hlast.2 hx.2)) [] hfirst (by omega)
    (by omega)

theorem daily_fuel (hstart : Parsed start) (hstop : Parsed stop) :
    daily start stop ≠ .error .outOfFuel :=
  upTo_fuel (follows_day hstop).toAscends
    (fun x hx => decide_eq_true_iff.trans (dayBefore_iff hstop hx)) [] hstart (by omega) (by omega)

theorem texts_fuel {α : Type} {result : Except Halt (List α)} {text : α → String}
    (h : result ≠ .error .outOfFuel) :
    (result.mapError EnumError.halt).map (List.map text) ≠ .error (.halt .outOfFuel) := by
  cases result with
  | ok l => exact nofun
  | error e => exact fun heq => h (congrArg _ (EnumError.halt.inj (Except.error.inj heq)))

theorem enumeratePeriods_fuel (hstart : Parsed start) (hstop : Parsed stop) (cadence : String) :
    enumeratePeriods start stop cadence ≠ .error (.halt .outOfFuel) := by
  unfold enumeratePeriods
  split_ifs
  · exact nofun
  · exact texts_fuel (monthly_fuel hstart.monthOk hstop.monthOk)
  · exact texts_fuel (daily_fuel hstart hstop)
  · exact nofun

/-! The periods that are listed. -/

theorem texts_ok {α : Type} {result : Except Halt (List α)} {text : α → String} {l : List String} :
    (result.mapError EnumError.halt).map (List.map text) = .ok l ↔
      ∃ xs, result = .ok xs ∧ xs.map text = l := by
  cases result with
  | ok xs =>
    exact ⟨fun h => ⟨xs, rfl, Except.ok.inj h⟩,
      fun ⟨ys, hys, h⟩ => congrArg Except.ok (Except.ok.inj hys ▸ h)⟩
  | error e => exact ⟨nofun, fun ⟨ys, hys, _⟩ => absurd hys nofun⟩

theorem monthly_ok {first last : ℤ × ℕ} (hfirst : MonthOk first) (hlast : MonthOk last)
    (h : ¬MonthBefore last first) :
    ∃ l, monthly first last = .ok l ∧ l.Pairwise MonthBefore ∧
      ∀ x, x ∈ l ↔ (1 ≤ x.2 ∧ x.2 ≤ 12) ∧ ¬MonthBefore x first ∧ ¬MonthBefore last x := by
  obtain ⟨l, hl, hpair, hmem⟩ := upTo_between (follows_month hlast) hlast
    (fun a b ha hb => monthBefore_iff ha.2 hb.2) hfirst h
    (show monthKey last - monthKey first < ((monthKey last - monthKey first).toNat + 1 : ℕ) by
      omega)
  refine ⟨l, hl, hpair, fun x => (hmem x).trans ?_⟩
  refine ⟨fun ⟨hx, hlow, hhigh⟩ => ⟨hx.2, hlow, hhigh⟩, fun ⟨hx, hlow, hhigh⟩ => ?_⟩
  exact ⟨⟨not_lt.mp fun hgt => hhigh (.inl (hlast.1.trans_lt hgt)), hx⟩, hlow, hhigh⟩

theorem daily_ok (hstart : DayOk start) (hstop : Parsed stop) (h : ¬DayBefore stop start) :
    ∃ l, daily start stop = .ok l ∧ l.Pairwise DayBefore ∧
      ∀ x, x ∈ l ↔ Gregorian x ∧ ¬DayBefore x start ∧ ¬DayBefore stop x := by
  obtain ⟨l, hl, hpair, hmem⟩ := upTo_between (follows_day hstop) hstop
    (fun a b ha hb => dayBefore_iff ha hb) hstart h
    (show dayKey stop - dayKey start < ((dayKey stop - dayKey start).toNat + 1 : ℕ) by omega)
  refine ⟨l, hl, hpair, fun x => (hmem x).trans ?_⟩
  refine ⟨fun ⟨hx, hlow, hhigh⟩ => ⟨hx.2, hlow, hhigh⟩, fun ⟨hx, hlow, hhigh⟩ => ?_⟩
  exact ⟨⟨not_lt.mp fun hgt => hhigh (.inl (hstop.year_le.trans_lt hgt)), hx⟩, hlow, hhigh⟩

/-! The texts of days. -/

theorem itoa_int_injective {i j : ℤ} (h : itoa i = itoa j) : i = j := by
  have hsign : ∀ m n : ℕ, itoa (m : ℤ) ≠ itoa (Int.negSucc n) := by
    intro m n heq
    have hdigit := List.all_eq_true.mp (itoa_digits m).2
    rw [heq] at hdigit
    exact absurd (hdigit '-' (by simp [itoa, Int.repr])) (by decide)
  cases i with
  | ofNat m =>
    cases j with
    | ofNat n => exact congrArg Int.ofNat (itoa_injective h)
    | negSucc n => exact absurd h (hsign m n)
  | negSucc m =>
    cases j with
    | ofNat n => exact absurd h.symm (hsign n m)
    | negSucc n =>
      have hnat : itoa ((m + 1 : ℕ) : ℤ) = itoa ((n + 1 : ℕ) : ℤ) :=
        String.append_right_inj _ |>.mp h
      exact congrArg Int.negSucc (Nat.succ.inj (itoa_injective hnat))

theorem pad2_length : ∀ n < 100, (pad2 n).toList.length = 2 := by decide

theorem pad2_value : ∀ n < 100, decimalValue (pad2 n).toList = n := by decide

theorem append_pad2_inj {s t : String} {m n : ℕ} (hm : m < 100) (hn : n < 100)
    (h : s ++ pad2 m = t ++ pad2 n) : s = t ∧ m = n := by
  have hlist := congrArg String.toList h
  rw [String.toList_append, String.toList_append] at hlist
  obtain ⟨hs, hpad⟩ := List.append_inj' hlist ((pad2_length m hm).trans (pad2_length n hn).symm)
  exact ⟨String.toList_inj.mp hs, by rw [← pad2_value m hm, hpad, pad2_value n hn]⟩

theorem dayText_inj {x z : Date} (hx : Parsed x) (hz : Parsed z) (h : dayText x = dayText z) :
    x = z := by
  have hxm := hx.month
  have hzm := hz.month
  have hxd := hx.day
  have hzd := hz.day
  obtain ⟨hrest, hday⟩ := append_pad2_inj (by omega) (by omega) h
  obtain ⟨hyear, hmonth⟩ := append_pad2_inj (by omega) (by omega) hrest
  exact Prod.ext (itoa_int_injective hyear) (Prod.ext hmonth hday)

/-! Where the listing is what it should be. -/

theorem annual_iff : Exact start stop .annual ↔ InOrder start stop .annual := by
  have hlen : ∀ y, y ∈ (List.range (stop.1 - start.1 + 1).toNat).map (fun k : ℕ => start.1 + k) ↔
      start.1 ≤ y ∧ y ≤ stop.1 := by
    intro y
    rw [List.mem_map]
    constructor
    · rintro ⟨k, hk, rfl⟩
      have hlt := List.mem_range.mp hk
      omega
    · rintro ⟨hlow, hhigh⟩
      exact ⟨(y - start.1).toNat, List.mem_range.mpr (by omega), by omega⟩
  constructor
  · rintro ⟨l, -, hmem, hresult⟩ hbefore
    have hnil : l = [] := List.eq_nil_iff_forall_not_mem.mpr fun y hy => ((hmem y).mp hy).1 hbefore
    rw [hnil] at hresult
    have hempty := congrArg List.length (Except.ok.inj hresult)
    rw [List.length_map, List.length_range, List.map_nil, List.length_nil] at hempty
    omega
  · intro h
    refine ⟨(List.range (stop.1 - start.1 + 1).toNat).map fun k : ℕ => start.1 + k, ?_,
      fun y => ?_, ?_⟩
    · exact List.pairwise_map.mpr (List.pairwise_lt_range.imp fun hlt => by omega)
    · rw [hlen]
      exact ⟨fun hy => ⟨fun hbefore => absurd (h hbefore) (by omega), hy⟩, And.right⟩
    · rw [List.map_map]
      rfl

theorem monthly_iff (hstart : Parsed start) (hstop : Parsed stop) :
    Exact start stop .monthly ↔ InOrder start stop .monthly := by
  constructor
  · rintro ⟨l, -, hmem, hresult⟩ hbefore
    have hnil : l = [] := List.eq_nil_iff_forall_not_mem.mpr fun y hy => ((hmem y).mp hy).1 hbefore
    obtain ⟨xs, hxs, hmap⟩ := texts_ok.mp hresult
    rw [hnil, List.map_nil, List.map_eq_nil_iff] at hmap
    exact absurd (hmap ▸ (mem_upTo hxs).1) List.not_mem_nil
  · intro h
    have hmonth : ¬MonthBefore (stop.1, stop.2.1) (start.1, start.2.1) := fun hb =>
      h (hb.imp_right Or.inl)
    obtain ⟨l, hl, hpair, hmem⟩ := monthly_ok hstart.monthOk hstop.monthOk hmonth
    exact ⟨l, hpair, fun x => (hmem x).trans ⟨fun hx => ⟨h, hx⟩, And.right⟩,
      texts_ok.mpr ⟨l, hl, rfl⟩⟩

theorem daily_iff (hstart : Parsed start) (hstop : Parsed stop) :
    Exact start stop .daily ↔ InOrder start stop .daily := by
  constructor
  · rintro ⟨l, -, hmem, hresult⟩
    obtain ⟨xs, hxs, hmap⟩ := texts_ok.mp hresult
    have hfirst : dayText start ∈ l.map dayText := by
      rw [← hmap]
      exact List.mem_map_of_mem (mem_upTo hxs).1
    obtain ⟨v, hv, htext⟩ := List.mem_map.mp hfirst
    obtain ⟨hvalid, hlow, hhigh⟩ := (hmem v).mp hv
    have hyear : v.1 ≤ maxI32 := not_lt.mp fun hgt => hhigh (.inl (hstop.year_le.trans_lt hgt))
    obtain rfl := dayText_inj (DayOk.parsed ⟨hyear, hvalid⟩) hstart htext
    exact ⟨hhigh, hvalid⟩
  · rintro ⟨h, hvalid⟩
    obtain ⟨l, hl, hpair, hmem⟩ := daily_ok ⟨hstart.year_le, hvalid⟩ hstop h
    exact ⟨l, hpair, hmem, texts_ok.mpr ⟨l, hl, rfl⟩⟩

theorem enumeratePeriods_exact_iff {s t : String} (hs : parseDate s = .ok start)
    (ht : parseDate t = .ok stop) (c : Cadence) : Exact start stop c ↔ InOrder start stop c := by
  have hstart := parseDate_parsed hs
  have hstop := parseDate_parsed ht
  cases c with
  | annual => exact annual_iff
  | monthly => exact monthly_iff hstart hstop
  | daily => exact daily_iff hstart hstop

theorem enumeratePeriods_exact_leap :
    Exact (2024, 2, 28) (2024, 3, 1) .daily ↔ InOrder (2024, 2, 28) (2024, 3, 1) .daily :=
  @enumeratePeriods_exact_iff (2024, 2, 28) (2024, 3, 1) "2024-02-28" "2024-03-01" (by decide)
    (by decide) .daily

/-- The months back from January 2024 to January 2023 are listed as that one month. -/
theorem enumeratePeriods_exact_fails :
    parseDate "2024-01-01" = .ok (2024, 1, 1) ∧ parseDate "2023-01-01" = .ok (2023, 1, 1) ∧
    enumeratePeriods (2024, 1, 1) (2023, 1, 1) "monthly" = .ok ["202401"] ∧
    ¬Exact (2024, 1, 1) (2023, 1, 1) .monthly := by
  have hresult : enumeratePeriods (2024, 1, 1) (2023, 1, 1) "monthly" = .ok ["202401"] := by decide
  refine ⟨by decide, by decide, hresult, ?_⟩
  rintro ⟨l, -, hmem, hlist⟩
  have hnil : l = [] := List.eq_nil_iff_forall_not_mem.mpr fun y hy =>
    ((hmem y).mp hy).1 (by decide)
  rw [hresult, hnil] at hlist
  exact absurd (Except.ok.inj hlist) (by decide)

end Spade.Data
