import Mathlib.Tactic.IntervalCases
import Unikraft.Basic

/-!
# Calendar time (`lib/uktimeconv/timeconv.c`)

From 2000 on, `uktimeconv_bmkclock_to_nsec` counts the days of the years in blocks of 400, 100 and 4
years. It takes 24 leap years for each century, though the one that starts with a leap year has 25:
until the first leap year of the three centuries after it, a day is missing.
-/

namespace Unikraft.Uktimeconv

open List

/-! ### The source -/

def uktimeconvIsLeapYear (year : Nat) : Bool :=
  if year &&& 3 ≠ 0 then false
  else if year % 100 ≠ 0 then true
  else year % 400 = 0

def uktimeconvDaysPerYear (year : Nat) : Nat := if uktimeconvIsLeapYear year then 366 else 365

/-- `_days_in_month` -/
def daysInMonth : Nat → Nat
  | 2 => 28
  | 4 | 6 | 9 | 11 => 30
  | 1 | 3 | 5 | 7 | 8 | 10 | 12 => 31
  | _ => 0

/-- `struct uktimeconv_bmkclock` -/
structure UktimeconvBmkclock where
  dtYear : Int
  dtMon : Nat
  dtDay : Nat
  dtHour : Nat
  dtMin : Nat
  dtSec : Nat

/-- The days of the years before `year`, added to `days`. -/
def yearDays (year days : Nat) : Nat :=
  if year < 2000 then
    (range' 1970 (year - 1970)).foldl (fun days i => days + uktimeconvDaysPerYear i) days
  else
    let days := days + (365 * 30 + 7)
    let rest := year - 2000
    let days := days + rest / 400 * (365 * 400 + 97)
    let rest := rest - rest / 400 * 400
    let days := days + rest / 100 * (365 * 100 + 24)
    let rest := rest - rest / 100 * 100
    let days := days + rest / 4 * (365 * 4 + 1)
    let rest := rest - rest / 4 * 4
    (range' (year - rest) rest).foldl (fun days i => days + uktimeconvDaysPerYear i) days

/-- `uktimeconv_bmkclock_to_nsec`: sums and products of `__u64`, modulo `2 ^ 64` at the end. -/
def uktimeconvBmkclockToNsec (dt : UktimeconvBmkclock) : Outcome Nat := do
  ukAssert (1970 ≤ dt.dtYear)
  let year := dt.dtYear.toNat
  let days := if uktimeconvIsLeapYear year ∧ 2 < dt.dtMon then 1 else 0
  let days := yearDays year days
  let days := (range' 1 (dt.dtMon - 1)).foldl (fun days i => days + daysInMonth i) days
  let days := days + subU64 dt.dtDay 1
  let secs := ((days * 24 + dt.dtHour) * 60 + dt.dtMin) * 60 + dt.dtSec
  .ok (secs * 1000000000 % 2 ^ 64)

/-! ### The calendar -/

def Leap (year : Nat) : Prop := 4 ∣ year ∧ (100 ∣ year → 400 ∣ year)
  deriving Decidable

def yearLength (year : Nat) : Nat := if Leap year then 366 else 365

def monthLength (year month : Nat) : Nat :=
  if month = 2 then if Leap year then 29 else 28
  else if month = 4 ∨ month = 6 ∨ month = 9 ∨ month = 11 then 30 else 31

/-- The days from 1970-01-01 to a date. -/
def dayNumber (year month day : Nat) : Nat :=
  ((range' 1970 (year - 1970)).map yearLength).sum +
    ((range' 1 (month - 1)).map (monthLength year)).sum + (day - 1)

/-- A date and a time of day from 1970 on. -/
structure Valid (dt : UktimeconvBmkclock) : Prop where
  year : 1970 ≤ dt.dtYear
  month : 1 ≤ dt.dtMon ∧ dt.dtMon ≤ 12
  day : 1 ≤ dt.dtDay ∧ dt.dtDay ≤ monthLength dt.dtYear.toNat dt.dtMon
  time : dt.dtHour < 24 ∧ dt.dtMin < 60 ∧ dt.dtSec < 60

def seconds (dt : UktimeconvBmkclock) : Nat :=
  ((dayNumber dt.dtYear.toNat dt.dtMon dt.dtDay * 24 + dt.dtHour) * 60 + dt.dtMin) * 60 + dt.dtSec

/-- The blocks have the right number of leap years. -/
def Counted (year : Nat) : Prop := year < 2000 ∨ year % 400 < 100 ∨ 4 ≤ year % 100
  deriving Decidable

theorem isLeapYear_eq (year : Nat) : uktimeconvIsLeapYear year = decide (Leap year) := by
  have hand : year &&& 3 = year % 4 := Nat.and_two_pow_sub_one_eq_mod year 2
  unfold uktimeconvIsLeapYear
  rw [hand]
  split_ifs with h4 h100
  · exact (decide_eq_false fun h => h4 (Nat.mod_eq_zero_of_dvd h.1)).symm
  · exact (decide_eq_true ⟨by omega, fun h => absurd h (by omega)⟩).symm
  · exact decide_eq_decide.mpr ⟨fun h => ⟨by omega, fun _ => by omega⟩, fun h => by
      have := h.2 (by omega)
      omega⟩

theorem daysPerYear_eq (year : Nat) : uktimeconvDaysPerYear year = yearLength year := by
  simp [uktimeconvDaysPerYear, yearLength, isLeapYear_eq]

theorem foldl_add {f : Nat → Nat} (l : List Nat) (days : Nat) :
    l.foldl (fun days i => days + f i) days = days + (l.map f).sum := by
  induction l generalizing days with
  | nil => rfl
  | cons i l ih => rw [foldl_cons, ih, map_cons, sum_cons, Nat.add_assoc]

/-- The number of leap years up to a year. -/
def leapYears (year : Nat) : Nat := year / 4 - year / 100 + year / 400

theorem leapYears_succ (year : Nat) :
    leapYears (year + 1) = leapYears year + if Leap (year + 1) then 1 else 0 := by
  have h100 : 100 ∣ year + 1 → 4 ∣ year + 1 := Nat.dvd_trans (by decide)
  have h400 : 400 ∣ year + 1 → 100 ∣ year + 1 := Nat.dvd_trans (by decide)
  have hle : year / 100 ≤ year / 4 := Nat.div_le_div_left (by decide) (by decide)
  unfold leapYears Leap
  rw [Nat.succ_div, Nat.succ_div, Nat.succ_div]
  generalize year / 4 = x, year / 100 = y at *
  by_cases 4 ∣ year + 1 <;> by_cases 100 ∣ year + 1 <;> by_cases 400 ∣ year + 1 <;>
    simp_all <;> omega

theorem sum_yearLength (year n : Nat) :
    ((range' (year + 1) n).map yearLength).sum + leapYears year =
      365 * n + leapYears (year + n) := by
  induction n with
  | zero => simp
  | succ n ih =>
    rw [range'_concat, map_append, sum_append, map_singleton,
      sum_singleton, yearLength, one_mul, ← Nat.add_assoc year n 1, leapYears_succ,
      Nat.add_right_comm year 1 n]
    split_ifs <;> omega

theorem leapYears_blocks {a b c : Nat} (hb : b < 4) (hc : c < 25) :
    leapYears (1999 + (400 * a + 100 * b + 4 * c)) =
      484 + 97 * a + 24 * b + c + if b = 0 ∨ 0 < c then 0 else 1 := by
  have h4 : (1999 + (400 * a + 100 * b + 4 * c)) / 4 = 499 + 100 * a + 25 * b + c := by omega
  rw [leapYears, h4]
  rcases Nat.eq_zero_or_pos c with rfl | hpos
  · split_ifs <;> omega
  have h100 : (1999 + (400 * a + 100 * b + 4 * c)) / 100 = 20 + 4 * a + b := by omega
  have h400 : (1999 + (400 * a + 100 * b + 4 * c)) / 400 = 5 + a := by omega
  rw [if_pos (.inr hpos)]
  omega

/-- The blocks miss a day in the years that are not counted right, and nothing in the others. -/
theorem yearDays_eq (year days : Nat) :
    yearDays year days + (if Counted year then 0 else 1) =
      days + ((range' 1970 (year - 1970)).map yearLength).sum := by
  unfold yearDays
  simp only [daysPerYear_eq, foldl_add]
  by_cases h2000 : year < 2000
  · rw [if_pos h2000, if_pos (.inl h2000), Nat.add_zero]
  rw [if_neg h2000]
  -- the numbers of blocks, and of the years behind them
  generalize ha : (year - 2000) / 400 = a
  generalize hb : (year - 2000 - a * 400) / 100 = b
  generalize hc : (year - 2000 - a * 400 - b * 100) / 4 = c
  generalize hr : year - 2000 - a * 400 - b * 100 - c * 4 = r
  have hblocks := leapYears_blocks (a := a) (b := b) (c := c) (by omega) (by omega)
  have hcounted : Counted year ↔ b = 0 ∨ 0 < c := by unfold Counted; omega
  rw [if_congr hcounted rfl rfl]
  generalize (if b = 0 ∨ 0 < c then 0 else 1) = missing at hblocks ⊢
  generalize hq : 400 * a + 100 * b + 4 * c = q at hblocks
  have hall := sum_yearLength 1969 (30 + q + r)
  have hrest := sum_yearLength (1999 + q) r
  rw [show leapYears 1969 = 477 by decide, show 1969 + 1 = 1970 from rfl,
    show 1969 + (30 + q + r) = 1999 + q + r by omega] at hall
  rw [show year - 1970 = 30 + q + r by omega, show year - r = 1999 + q + 1 by omega]
  omega

theorem monthDays_eq (year : Nat) {month : Nat} (h : 1 ≤ month ∧ month ≤ 12) :
    (if uktimeconvIsLeapYear year ∧ 2 < month then 1 else 0) +
        ((range' 1 (month - 1)).map daysInMonth).sum =
      ((range' 1 (month - 1)).map (monthLength year)).sum := by
  obtain ⟨h1, h12⟩ := h
  rw [isLeapYear_eq]
  by_cases hleap : Leap year <;> interval_cases month <;>
    simp [hleap, range', monthLength, daysInMonth]

/-- **Calendar conversion**: where the seconds since 1970 have 64 bits in nanoseconds, they are what
is returned if and only if the blocks of the year have the right number of leap years. -/
theorem uktimeconv_bmkclock_counts (dt : UktimeconvBmkclock) (h : Valid dt)
    (hfits : seconds dt * 10 ^ 9 < 2 ^ 64) :
    uktimeconvBmkclockToNsec dt = .ok (seconds dt * 10 ^ 9) ↔ Counted dt.dtYear.toNat := by
  have hmonths := monthDays_eq dt.dtYear.toNat h.month
  have hyears := yearDays_eq dt.dtYear.toNat
    (if uktimeconvIsLeapYear dt.dtYear.toNat ∧ 2 < dt.dtMon then 1 else 0)
  have hlen : monthLength dt.dtYear.toNat dt.dtMon ≤ 31 := by
    unfold monthLength
    split_ifs <;> omega
  have hday : subU64 dt.dtDay 1 = dt.dtDay - 1 := by have := h.day; unfold subU64; omega
  rw [uktimeconvBmkclockToNsec, ukAssert_pos h.year, Outcome.ok_bind]
  simp only [foldl_add, hday]
  -- a day that is missing is missing in the result, which has not wrapped around
  generalize hdays : yearDays dt.dtYear.toNat _ + _ + (dt.dtDay - 1) = days
  have hsum : days + (if Counted dt.dtYear.toNat then 0 else 1) =
      dayNumber dt.dtYear.toNat dt.dtMon dt.dtDay := by
    rw [dayNumber]
    omega
  generalize hsecs : ((days * 24 + dt.dtHour) * 60 + dt.dtMin) * 60 + dt.dtSec = secs
  have hseconds : secs + (if Counted dt.dtYear.toNat then 0 else 1) * 86400 = seconds dt := by
    rw [seconds, ← hsum]
    omega
  have hlt : secs * 1000000000 < 2 ^ 64 :=
    Nat.lt_of_le_of_lt (Nat.mul_le_mul_right _ (by omega)) hfits
  rw [Nat.mod_eq_of_lt hlt, Except.ok.injEq]
  by_cases hcounted : Counted dt.dtYear.toNat
  · rw [if_pos hcounted] at hseconds
    exact ⟨fun _ => hcounted, fun _ => by omega⟩
  · rw [if_neg hcounted] at hseconds
    exact ⟨fun heq => by omega, fun h => absurd h hcounted⟩

/-- 2000-02-29 12:00:00. -/
theorem uktimeconv_bmkclock_counts_leap_day :
    uktimeconvBmkclockToNsec ⟨2000, 2, 29, 12, 0, 0⟩ = .ok (951825600 * 10 ^ 9) :=
  (uktimeconv_bmkclock_counts ⟨2000, 2, 29, 12, 0, 0⟩
    (by constructor <;> decide) (by decide +kernel)).mpr (by decide)

/-- 2100-01-01 00:00:00 is taken for the day before. -/
theorem uktimeconv_bmkclock_loses_day : Valid ⟨2100, 1, 1, 0, 0, 0⟩ ∧
    seconds ⟨2100, 1, 1, 0, 0, 0⟩ = 4102444800 ∧
    uktimeconvBmkclockToNsec ⟨2100, 1, 1, 0, 0, 0⟩ = .ok ((4102444800 - 86400) * 10 ^ 9) :=
  ⟨by constructor <;> decide, by decide +kernel, by decide +kernel⟩

end Unikraft.Uktimeconv
