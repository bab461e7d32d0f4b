/-
  Uboot.Drivers.RtcDate

  The calendar of `drivers/rtc/date.c`: `to_tm` takes the years and then the months off a number of
  days, and `mktime` counts the days of a date with Gauss's formula.  Both are for times from 1970
  on; `to_tm` counts every fourth year as a leap year, which the years up to 2038 bear out.

  `int` and `long` values are not negative here; `mktime` counts in 32 bits without sign.
-/

import Mathlib.Tactic.IntervalCases
import Uboot.Lib.Gregorian
import Uboot.Lib.Mem

namespace Uboot.Drivers.RtcDate

open Uboot.Lib Uboot.Lib.Gregorian

-- ============================================================================
-- The functions
-- ============================================================================

/-- The fields of `struct rtc_time` that are set here. -/
@[ext] structure RtcTime where
  tmSec : Nat
  tmMin : Nat
  tmHour : Nat
  tmMday : Nat
  tmMon : Nat
  tmYear : Nat
  tmWday : Nat
  deriving DecidableEq, Repr

def secday : Nat := 86400

def leapyear (year : Nat) : Prop := year % 4 = 0

instance (year : Nat) : Decidable (leapyear year) := inferInstanceAs (Decidable (_ = _))

def daysInYear (a : Nat) : Nat := if leapyear a then 366 else 365

def monthDays : List Nat := [31, 28, 31, 30, 31, 30, 31, 31, 30, 31, 30, 31]

def monthOffset : List Nat := [0, 31, 59, 90, 120, 151, 181, 212, 243, 273, 304, 334]

/-- `GregorianDay`: the day of the week. -/
def gregorianDay (tm : RtcTime) : RtcTime :=
  let lastYear := tm.tmYear - 1
  let leapsToDate := lastYear / 4 - lastYear / 100 + lastYear / 400
  -- past Feb. 29 in a leap year
  let day := if tm.tmYear % 4 = 0 ∧ (tm.tmYear % 100 ≠ 0 ∨ tm.tmYear % 400 = 0) ∧ tm.tmMon > 2 then 1 else 0
  let day := day + lastYear * 365 + leapsToDate + monthOffset.getD (tm.tmMon - 1) 0 + tm.tmMday
  { tm with tmWday := day % 7 }

/-- Number of years in days: the year, and the days left. -/
def yearLoop (day i : Nat) : Nat × Nat :=
  if daysInYear i ≤ day then yearLoop (day - daysInYear i) (i + 1) else (i, day)
termination_by day
decreasing_by
  have hpos : 0 < daysInYear i := by
    rw [daysInYear]
    split <;> omega
  omega

/-- Number of months in days left: the month, and the days left.  The list is what the table
    has from month `i` on. -/
def monthLoop : List Nat → Nat → Nat → Nat × Nat
  | [], day, i => (i, day)
  | len :: months, day, i => if len ≤ day then monthLoop months (day - len) (i + 1) else (i, day)

def toTm (tim : Nat) : RtcTime :=
  let day := tim / secday
  let hms := tim % secday
  let (year, day) := yearLoop day 1970
  let table := if leapyear year then monthDays.set 1 29 else monthDays
  let (mon, day) := monthLoop table day 1
  gregorianDay {
    tmSec := hms % 3600 % 60
    tmMin := hms % 3600 / 60
    tmHour := hms / 3600
    -- days are what is left over (+1) from all that
    tmMday := day + 1
    tmMon := mon
    tmYear := year
    tmWday := 0 }

/-- `mktime`, on `unsigned int`s. -/
def mktime (year mon day hour min sec : Nat) : Nat :=
  let mon := usub mon 2
  -- 1..12 -> 11,12,1..10
  let wraps := mon = 0 ∨ 2147483648 ≤ mon
  let year := if wraps then usub year 1 else year
  let mon := if wraps then u32 (mon + 12) else mon
  let days := u32 (u32 (u32 (usub (year / 4) (year / 100) + year / 400) + u32 (367 * mon) / 12) + day)
  let days := usub (u32 (days + u32 (year * 365))) 719499
  u32 (u32 (u32 (u32 (u32 (u32 (days * 24) + hour) * 60) + min) * 60) + sec)

-- ============================================================================
-- The date of a day
-- ============================================================================

section Loops

variable {year day i : Nat}

/-- Every fourth year, between the years that break the rule. -/
theorem leapyear_iff (hlo : 1901 ≤ year) (hhi : year < 2100) : leapyear year ↔ IsLeap year := by
  rw [leapyear, IsLeap]
  omega

theorem daysInYear_eq (hlo : 1901 ≤ year) (hhi : year < 2100) : daysInYear year = yearLength year := by
  rw [daysInYear, yearLength]
  exact if_congr (leapyear_iff hlo hhi) rfl rfl

/-- The loop over the years keeps the day. -/
theorem yearLoop_spec (hlo : 1901 ≤ i) (hend : daysBeforeYear i + day < daysBeforeYear 2100) :
    i ≤ (yearLoop day i).1 ∧ (yearLoop day i).1 < 2100 ∧ (yearLoop day i).2 < yearLength (yearLoop day i).1 ∧
      daysBeforeYear (yearLoop day i).1 + (yearLoop day i).2 = daysBeforeYear i + day := by
  induction day using Nat.strongRecOn generalizing i with
  | _ day ih =>
    have hi : i < 2100 := by
      by_contra hge
      have hle : daysBeforeYear 2100 ≤ daysBeforeYear i := daysBeforeYear_mono (Nat.not_lt.1 hge)
      omega
    have hlength := daysInYear_eq hlo hi
    have hpos := yearLength_pos i
    have hsucc : daysBeforeYear (i + 1) = daysBeforeYear i + yearLength i := daysBeforeYear_succ (by omega)
    rw [yearLoop]
    by_cases hmore : daysInYear i ≤ day
    · rw [if_pos hmore]
      obtain ⟨hle, hlt, hrest, hsum⟩ := ih (day - daysInYear i) (by omega) (i := i + 1) (by omega) (by omega)
      exact ⟨by omega, hlt, hrest, by omega⟩
    · rw [if_neg hmore]
      have hrest : day < yearLength i := by omega
      exact ⟨Nat.le_refl i, hi, hrest, rfl⟩

/-- The table as `to_tm` sets it, month by month. -/
theorem table_eq (hlo : 1901 ≤ year) (hhi : year < 2100) :
    (if leapyear year then monthDays.set 1 29 else monthDays) = (List.range' 1 12).map (monthLength year) := by
  by_cases hleap : IsLeap year
  · rw [if_pos ((leapyear_iff hlo hhi).2 hleap)]
    simp [monthDays, monthLength, hleap, List.range']
  · rw [if_neg (mt (leapyear_iff hlo hhi).1 hleap)]
    simp [monthDays, monthLength, hleap, List.range']

/-- The loop over the months keeps the day. -/
theorem monthLoop_spec {n : Nat} (hi : 1 ≤ i) (hn : i + n = 13) (hend : daysBeforeMonth year i + day < yearLength year) :
    let res := monthLoop ((List.range' i n).map (monthLength year)) day i
    i ≤ res.1 ∧ res.1 ≤ 12 ∧ res.2 < monthLength year res.1 ∧
      daysBeforeMonth year res.1 + res.2 = daysBeforeMonth year i + day := by
  induction n generalizing i day with
  | zero =>
    obtain rfl : i = 13 := hn
    rw [daysBeforeMonth_thirteen] at hend
    omega
  | succ n ih =>
    intro res
    have hsucc : daysBeforeMonth year (i + 1) = daysBeforeMonth year i + monthLength year i := daysBeforeMonth_succ hi
    have hres : res = if monthLength year i ≤ day then
        monthLoop ((List.range' (i + 1) n).map (monthLength year)) (day - monthLength year i) (i + 1)
      else (i, day) := rfl
    by_cases hmore : monthLength year i ≤ day
    · rw [hres, if_pos hmore]
      have hrest : daysBeforeMonth year (i + 1) + (day - monthLength year i) < yearLength year := by omega
      obtain ⟨hle, hlt, hrest, hsum⟩ := ih (by omega) (by omega) hrest
      exact ⟨by omega, hlt, hrest, by omega⟩
    · rw [hres, if_neg hmore]
      exact ⟨Nat.le_refl i, by omega, Nat.not_le.1 hmore, rfl⟩

end Loops

/-- The first day of 1970, a Thursday. -/
def epoch : Date := ⟨1970, 1, 1, by decide, le_rfl, by decide, le_rfl, by decide⟩

theorem daysBeforeYear_1970 : daysBeforeYear 1970 = 719162 := by
  have hyears : daysBeforeYear 1970 + 1969 / 100 = 365 * 1969 + 1969 / 4 + 1969 / 400 := daysBeforeYear_eq 1969
  omega

theorem daysBeforeYear_2100 : daysBeforeYear 2100 = 766644 := by
  have hyears : daysBeforeYear 2100 + 2099 / 100 = 365 * 2099 + 2099 / 4 + 2099 / 400 := daysBeforeYear_eq 2099
  omega

theorem epoch_ordinal : epoch.ordinal = 719163 := by
  have hmonths : daysBeforeMonth 1970 1 = 0 := rfl
  rw [Date.ordinal]
  simp only [epoch]
  rw [daysBeforeYear_1970, hmonths]

-- ============================================================================
-- The functions on a date
-- ============================================================================

section Functions

/-- The fields of a date in the struct. -/
structure HasDate (tm : RtcTime) (d : Date) : Prop where
  year : tm.tmYear = d.year
  mon : tm.tmMon = d.month
  mday : tm.tmMday = d.day

/-- The table of `GregorianDay` is that of a year that is not a leap year. -/
theorem monthOffset_eq (d : Date) : daysBeforeMonth d.year d.month =
    monthOffset.getD (d.month - 1) 0 + if IsLeap d.year ∧ d.month > 2 then 1 else 0 := by
  have hpos := d.month_pos
  have hle := d.month_le
  generalize d.month = month at hpos hle
  by_cases hleap : IsLeap d.year
  · interval_cases month <;> simp [monthOffset, daysBeforeMonth, monthLength, hleap]
  · interval_cases month <;> simp [monthOffset, daysBeforeMonth, monthLength, hleap]

/-- `GregorianDay` takes the day's number by seven. -/
theorem gregorianDay_wday {tm : RtcTime} {d : Date} (h : HasDate tm d) :
    (gregorianDay tm).tmWday = d.ordinal % 7 := by
  obtain ⟨hyear, hmon, hmday⟩ := h
  have hpos := d.year_pos
  obtain ⟨y, hy⟩ := Nat.exists_eq_add_of_le' hpos
  have hyears := daysBeforeYear_eq y
  have hmonths := monthOffset_eq d
  simp only [gregorianDay, hyear, hmon, hmday, Date.ordinal]
  congr 1
  have hpast : (d.year % 4 = 0 ∧ (d.year % 100 ≠ 0 ∨ d.year % 400 = 0) ∧ d.month > 2) ↔ IsLeap d.year ∧ d.month > 2 :=
    and_assoc.symm
  rw [hmonths, hy] at *
  simp only [Nat.add_sub_cancel, hpast]
  omega

/-- The year of a day, and the month in it, with the days left. -/
def yearOf (t : Nat) : Nat × Nat := yearLoop (t / secday) 1970

def monthOf (t : Nat) : Nat × Nat :=
  monthLoop (if leapyear (yearOf t).1 then monthDays.set 1 29 else monthDays) (yearOf t).2 1

theorem toTm_eq (t : Nat) : toTm t = gregorianDay
    ⟨t % secday % 3600 % 60, t % secday % 3600 / 60, t % secday / 3600, (monthOf t).2 + 1, (monthOf t).1, (yearOf t).1, 0⟩ :=
  rfl

theorem yearOf_spec {t : Nat} (ht : t < 2147483648) : 1970 ≤ (yearOf t).1 ∧ (yearOf t).1 < 2100 ∧
    (yearOf t).2 < yearLength (yearOf t).1 ∧ daysBeforeYear (yearOf t).1 + (yearOf t).2 = 719162 + t / 86400 := by
  have hend : daysBeforeYear 1970 + t / 86400 < daysBeforeYear 2100 := by
    rw [daysBeforeYear_1970, daysBeforeYear_2100]
    omega
  obtain ⟨hyear, hlt, hday, hsum⟩ := yearLoop_spec (i := 1970) (by omega) hend
  exact ⟨hyear, hlt, hday, hsum.trans (by rw [daysBeforeYear_1970])⟩

/-- The date that `to_tm` finds is the day's. -/
theorem toTm_date {t : Nat} (ht : t < 2147483648) :
    ∃ d : Date, HasDate (toTm t) d ∧ 1970 ≤ d.year ∧ d.year < 2100 ∧ d.ordinal = 719163 + t / 86400 := by
  obtain ⟨hyear, hlt, hday, hsum⟩ := yearOf_spec ht
  have hfirst : daysBeforeMonth (yearOf t).1 1 = 0 := rfl
  have hstart : daysBeforeMonth (yearOf t).1 1 + (yearOf t).2 < yearLength (yearOf t).1 := by
    rw [hfirst, Nat.zero_add]
    exact hday
  obtain ⟨hpos, hle, hmday, hsum'⟩ := monthLoop_spec (n := 12) (Nat.le_refl 1) rfl hstart
  rw [← table_eq (by omega) hlt] at hpos hle hmday hsum'
  refine ⟨⟨(yearOf t).1, (monthOf t).1, (monthOf t).2 + 1, by omega, hpos, hle, Nat.succ_pos _, hmday⟩,
    ⟨rfl, rfl, rfl⟩, hyear, hlt, ?_⟩
  change daysBeforeMonth (yearOf t).1 (monthOf t).1 + (monthOf t).2 = _ at hsum'
  rw [hfirst] at hsum'
  simp only [Date.ordinal]
  omega

/-- Gauss's formula for a month of a year that starts in March. -/
def gaussDays (year mon day : Nat) : Nat := year / 4 - year / 100 + year / 400 + 367 * mon / 12 + day + year * 365

/-- In 32 bits nothing is lost. -/
theorem u32_gaussDays (year mon : Nat) {day : Nat} (hyear : year < 2100) (hmon : mon ≤ 12) (hday : day ≤ 31)
    (hfrom : 719499 ≤ gaussDays year mon day) :
    usub (u32 (u32 (u32 (u32 (usub (year / 4) (year / 100) + year / 400) + u32 (367 * mon) / 12) + day) + u32 (year * 365)))
      719499 = gaussDays year mon day - 719499 := by
  have hleaps : usub (year / 4) (year / 100) = year / 4 - year / 100 := usub_of_le (by omega) (by omega)
  have hmonths : u32 (367 * mon) = 367 * mon := u32_of_lt (by omega)
  have hyears : u32 (year * 365) = year * 365 := u32_of_lt (by omega)
  have hsum : u32 (year / 4 - year / 100 + year / 400) = year / 4 - year / 100 + year / 400 := u32_of_lt (by omega)
  have hdays : u32 (year / 4 - year / 100 + year / 400 + 367 * mon / 12) =
      year / 4 - year / 100 + year / 400 + 367 * mon / 12 := u32_of_lt (by omega)
  rw [hleaps, hmonths, hyears, hsum, hdays, u32_add_left]
  have hall : u32 (year / 4 - year / 100 + year / 400 + 367 * mon / 12 + day + year * 365) = gaussDays year mon day := by
    apply u32_of_lt
    omega
  rw [hall]
  apply usub_of_le hfrom
  rw [gaussDays]
  omega

/-- The months of Gauss's formula, of which February is the last one, and those of the table. -/
theorem gauss_months {month : Nat} (hpos : 1 ≤ month) (hle : month ≤ 12) :
    (month ≤ 2 → 367 * (month + 10) / 12 = monthOffset.getD (month - 1) 0 + 336) ∧
      (2 < month → 367 * (month - 2) / 12 + 29 = monthOffset.getD (month - 1) 0) := by
  interval_cases month <;> decide

/-- A month as `mktime` counts it: February is the last one. -/
theorem gaussDays_ordinal (d : Date) :
    (d.month ≤ 2 → gaussDays (d.year - 1) (d.month + 10) d.day = d.ordinal + 336) ∧
      (2 < d.month → gaussDays d.year (d.month - 2) d.day = d.ordinal + 336) := by
  obtain ⟨hearly, hlate⟩ := gauss_months d.month_pos d.month_le
  rw [Date.ordinal, monthOffset_eq d]
  constructor
  · intro hmonth
    have hyears := daysBeforeYear_eq (d.year - 1)
    rw [Nat.sub_add_cancel d.year_pos] at hyears
    rw [gaussDays, hearly hmonth, if_neg fun h => Nat.not_lt.2 hmonth h.2]
    omega
  · intro hmonth
    -- March is in the year that the leap day is in
    have hyears := daysBeforeYear_eq d.year
    rw [daysBeforeYear_succ d.year_pos, yearLength] at hyears
    have hmonths := hlate hmonth
    rw [gaussDays]
    by_cases hleap : IsLeap d.year
    · rw [if_pos hleap] at hyears
      rw [if_pos ⟨hleap, hmonth⟩]
      omega
    · rw [if_neg hleap] at hyears
      rw [if_neg fun h => hleap h.1]
      omega

/-- The numbers of the days from 1970 to 2099. -/
theorem ordinal_bounds (d : Date) (hyear : 1970 ≤ d.year) (hyear' : d.year < 2100) :
    719163 ≤ d.ordinal ∧ d.ordinal ≤ 766644 := by
  have hfrom : daysBeforeYear 1970 ≤ daysBeforeYear d.year := daysBeforeYear_mono hyear
  have hto : daysBeforeYear (d.year + 1) ≤ daysBeforeYear 2100 := daysBeforeYear_mono hyear'
  rw [daysBeforeYear_succ d.year_pos, daysBeforeYear_2100] at hto
  rw [daysBeforeYear_1970] at hfrom
  have hin := d.dayOfYear_le
  have hday := d.day_pos
  rw [Date.ordinal]
  omega

/-- The end of `mktime`: nothing is lost on the way to the seconds. -/
theorem u32_seconds {days hour min sec : Nat} (hdays : days ≤ 47481) (hhour : hour < 24) (hmin : min < 60)
    (hsec : sec < 60) :
    u32 (u32 (u32 (u32 (u32 (u32 (days * 24) + hour) * 60) + min) * 60) + sec) =
      ((days * 24 + hour) * 60 + min) * 60 + sec := by
  have hhours : u32 (u32 (days * 24) + hour) = days * 24 + hour := by
    rw [u32_add_left]
    exact u32_of_lt (by omega)
  have hmins : u32 (u32 ((days * 24 + hour) * 60) + min) = (days * 24 + hour) * 60 + min := by
    rw [u32_add_left]
    exact u32_of_lt (by omega)
  rw [hhours, hmins, u32_add_left]
  exact u32_of_lt (by omega)

/-- `mktime` counts the seconds of the days since the epoch. -/
theorem mktime_eq (d : Date) {hour min sec : Nat} (hyear : 1970 ≤ d.year) (hyear' : d.year < 2100) (hhour : hour < 24)
    (hmin : min < 60) (hsec : sec < 60) :
    mktime d.year d.month d.day hour min sec = (((d.ordinal - 719163) * 24 + hour) * 60 + min) * 60 + sec := by
  obtain ⟨hfrom, hto⟩ := ordinal_bounds d hyear hyear'
  obtain ⟨hearly, hlate⟩ := gaussDays_ordinal d
  have hday : d.day ≤ 31 := d.day_le.trans (monthLength_le d.year d.month)
  have hpos := d.month_pos
  have hle := d.month_le
  have hsub : ∀ n, n + 336 - 719499 = n - 719163 := fun n => by omega
  rw [mktime]
  rcases Nat.lt_or_ge 2 d.month with hmarch | hfeb
  · -- March to December, of this year
    have hmon : usub d.month 2 = d.month - 2 := usub_of_le (by omega) (by omega)
    have hwraps : ¬ (d.month - 2 = 0 ∨ 2147483648 ≤ d.month - 2) := by omega
    have hgauss := u32_gaussDays d.year (d.month - 2) hyear' (by omega) hday (by rw [hlate hmarch]; omega)
    simp only [hmon, if_neg hwraps, hgauss, hlate hmarch, hsub]
    exact u32_seconds (by omega) hhour hmin hsec
  · -- January and February, of the year before
    have hwraps : usub d.month 2 = 0 ∨ 2147483648 ≤ usub d.month 2 := by
      simp only [usub, u32]
      omega
    have hmon : u32 (usub d.month 2 + 12) = d.month + 10 := by
      simp only [usub, u32]
      omega
    have hbefore : usub d.year 1 = d.year - 1 := usub_of_le (by omega) (by omega)
    have hgauss := u32_gaussDays (d.year - 1) (d.month + 10) (by omega) (by omega) hday
      (by rw [hearly hfeb]; omega)
    simp only [if_pos hwraps, hmon, hbefore, hgauss, hearly hfeb, hsub]
    exact u32_seconds (by omega) hhour hmin hsec

end Functions

-- ============================================================================
-- There and back
-- ============================================================================

/-- The seconds of a date and time since the epoch. -/
def seconds (d : Date) (hour min sec : Nat) : Nat := (((d.ordinal - epoch.ordinal) * 24 + hour) * 60 + min) * 60 + sec

section Calendar

variable {t : Nat}

theorem toTm_time (t : Nat) : (toTm t).tmHour = t % 86400 / 3600 ∧ (toTm t).tmMin = t % 86400 % 3600 / 60 ∧
    (toTm t).tmSec = t % 86400 % 3600 % 60 := ⟨rfl, rfl, rfl⟩

theorem toTm_wday {d : Date} (h : HasDate (toTm t) d) : (toTm t).tmWday = d.ordinal % 7 := by
  obtain ⟨hyear, hmon, hmday⟩ := h
  rw [toTm_eq] at hyear hmon hmday ⊢
  exact gregorianDay_wday ⟨hyear, hmon, hmday⟩

/-- The day found is the one that many days after the epoch. -/
theorem toTm_hasDate (ht : t < 2147483648) : HasDate (toTm t) (Date.next^[t / 86400] epoch) := by
  obtain ⟨d, hd, -, -, hordinal⟩ := toTm_date ht
  have hsame : d = Date.next^[t / 86400] epoch := by
    apply Date.ordinal_injective
    rw [hordinal, Date.ordinal_iterate, epoch_ordinal]
  exact hsame ▸ hd

theorem mktime_toTm (ht : t < 2147483648) :
    mktime (toTm t).tmYear (toTm t).tmMon (toTm t).tmMday (toTm t).tmHour (toTm t).tmMin (toTm t).tmSec = t := by
  obtain ⟨d, ⟨hyear, hmon, hmday⟩, hfrom, hto, hordinal⟩ := toTm_date ht
  obtain ⟨hhour, hmin, hsec⟩ := toTm_time t
  rw [hyear, hmon, hmday, hhour, hmin, hsec, mktime_eq d hfrom hto (by omega) (by omega) (by omega), hordinal]
  omega

/-- A date and time is found from its seconds. -/
theorem toTm_seconds (d : Date) {hour min sec : Nat} (hyear : 1970 ≤ d.year) (hhour : hour < 24) (hmin : min < 60)
    (hsec : sec < 60) (ht : seconds d hour min sec < 2147483648) :
    mktime d.year d.month d.day hour min sec = seconds d hour min sec ∧
      toTm (seconds d hour min sec) =
        ⟨sec, min, hour, d.day, d.month, d.year, (4 + (d.ordinal - epoch.ordinal)) % 7⟩ := by
  have hfrom : daysBeforeYear 1970 ≤ daysBeforeYear d.year := daysBeforeYear_mono hyear
  rw [daysBeforeYear_1970] at hfrom
  have hday := d.day_pos
  have hordinal : d.ordinal = daysBeforeYear d.year + daysBeforeMonth d.year d.month + d.day := rfl
  have hseconds : seconds d hour min sec = (((d.ordinal - 719163) * 24 + hour) * 60 + min) * 60 + sec := by
    rw [seconds, epoch_ordinal]
  have hto : d.year < 2100 := by
    by_contra hge
    have hlate : daysBeforeYear 2100 ≤ daysBeforeYear d.year := daysBeforeYear_mono (Nat.not_lt.1 hge)
    rw [daysBeforeYear_2100] at hlate
    omega
  have hdays : seconds d hour min sec / 86400 = d.ordinal - 719163 := by omega
  constructor
  · rw [mktime_eq d hyear hto hhour hmin hsec, hseconds]
  obtain ⟨e, he, -, -, hnumber⟩ := toTm_date ht
  obtain rfl : e = d := by
    apply Date.ordinal_injective
    omega
  have hwday := toTm_wday he
  obtain ⟨hyear', hmon', hmday'⟩ := he
  obtain ⟨hhour', hmin', hsec'⟩ := toTm_time (seconds e hour min sec)
  have hrest : seconds e hour min sec % 86400 = hour * 3600 + min * 60 + sec := by omega
  rw [hrest] at hhour' hmin' hsec'
  have hsecs : (hour * 3600 + min * 60 + sec) % 3600 % 60 = sec := by omega
  have hmins : (hour * 3600 + min * 60 + sec) % 3600 / 60 = min := by omega
  have hhours : (hour * 3600 + min * 60 + sec) / 3600 = hour := by omega
  apply RtcTime.ext
  · exact hsec'.trans hsecs
  · exact hmin'.trans hmins
  · exact hhour'.trans hhours
  · exact hmday'
  · exact hmon'
  · exact hyear'
  · rw [hwday, epoch_ordinal]
    change e.ordinal % 7 = (4 + (e.ordinal - 719163)) % 7
    omega

end Calendar

/-- **The calendar.**  Every time up to 2^31 - 1 becomes the date that many days after the first of
    January 1970, with the time of the day and the day of the week, and `mktime` leads back;
    and every date and time of that number of seconds is the one that `to_tm` finds. -/
theorem toTm_mktime (t : Nat) (ht : t < 2147483648) :
    (HasDate (toTm t) (Date.next^[t / 86400] epoch) ∧
      (toTm t).tmHour < 24 ∧ (toTm t).tmMin < 60 ∧ (toTm t).tmSec < 60 ∧
      (toTm t).tmHour * 3600 + (toTm t).tmMin * 60 + (toTm t).tmSec = t % 86400 ∧
      (toTm t).tmWday = (4 + t / 86400) % 7 ∧
      mktime (toTm t).tmYear (toTm t).tmMon (toTm t).tmMday (toTm t).tmHour (toTm t).tmMin (toTm t).tmSec = t) ∧
    ∀ (d : Date) (hour min sec : Nat), 1970 ≤ d.year → hour < 24 → min < 60 → sec < 60 → seconds d hour min sec = t →
      mktime d.year d.month d.day hour min sec = t ∧
        toTm t = ⟨sec, min, hour, d.day, d.month, d.year, (4 + (d.ordinal - epoch.ordinal)) % 7⟩ := by
  constructor
  · have hdate := toTm_hasDate ht
    have hwday := toTm_wday hdate
    rw [Date.ordinal_iterate, epoch_ordinal] at hwday
    obtain ⟨hhour, hmin, hsec⟩ := toTm_time t
    refine ⟨hdate, by omega, by omega, by omega, by omega, by omega, mktime_toTm ht⟩
  · rintro d hour min sec hyear hhour hmin hsec rfl
    exact toTm_seconds d hyear hhour hmin hsec ht

/-- The last day of February 2000, a Tuesday. -/
theorem toTm_mktime_2000 : 951782400 < 2147483648 ∧ (toTm 951782400).tmWday = 2 ∧
    mktime (toTm 951782400).tmYear (toTm 951782400).tmMon (toTm 951782400).tmMday (toTm 951782400).tmHour
      (toTm 951782400).tmMin (toTm 951782400).tmSec = 951782400 :=
  have h := (toTm_mktime 951782400 (by decide)).1
  ⟨by decide, h.2.2.2.2.2.1, h.2.2.2.2.2.2⟩

end Uboot.Drivers.RtcDate
