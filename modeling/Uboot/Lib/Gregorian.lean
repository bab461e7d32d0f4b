/-
  Uboot.Lib.Gregorian

  The Gregorian calendar, from the length of its months on: dates that exist, the day after a date,
  and the number of a day, counted from the first of January of the year 1.  Different dates have
  different numbers, and the next day has the next number, so that a number is a date.
-/

import Mathlib.Logic.Function.Iterate
import Mathlib.Order.Monotone.Basic

namespace Uboot.Lib.Gregorian

-- ============================================================================
-- Dates
-- ============================================================================

def IsLeap (year : Nat) : Prop := year % 4 = 0 ∧ (year % 100 ≠ 0 ∨ year % 400 = 0)

instance (year : Nat) : Decidable (IsLeap year) := inferInstanceAs (Decidable (_ ∧ _))

def yearLength (year : Nat) : Nat := if IsLeap year then 366 else 365

/-- The days of a month from 1 to 12. -/
def monthLength (year : Nat) : Nat → Nat
  | 2 => if IsLeap year then 29 else 28
  | 4 | 6 | 9 | 11 => 30
  | _ => 31

theorem monthLength_pos (year month : Nat) : 1 ≤ monthLength year month := by
  unfold monthLength
  split
  · split <;> omega
  all_goals omega

theorem monthLength_le (year month : Nat) : monthLength year month ≤ 31 := by
  unfold monthLength
  split
  · split <;> omega
  all_goals omega

/-- A date that exists. -/
@[ext] structure Date where
  year : Nat
  month : Nat
  day : Nat
  year_pos : 1 ≤ year
  month_pos : 1 ≤ month
  month_le : month ≤ 12
  day_pos : 1 ≤ day
  day_le : day ≤ monthLength year month

/-- The day after. -/
def Date.next (d : Date) : Date :=
  if hday : d.day < monthLength d.year d.month then
    ⟨d.year, d.month, d.day + 1, d.year_pos, d.month_pos, d.month_le, Nat.succ_pos _, hday⟩
  else if hmonth : d.month < 12 then
    ⟨d.year, d.month + 1, 1, d.year_pos, Nat.succ_pos _, hmonth, Nat.le_refl 1, monthLength_pos _ _⟩
  else
    ⟨d.year + 1, 1, 1, Nat.succ_pos _, Nat.le_refl 1, by omega, Nat.le_refl 1, monthLength_pos _ _⟩

-- ============================================================================
-- Day numbers
-- ============================================================================

/-- The days of the years from 1 on that are before a year. -/
def daysBeforeYear : Nat → Nat
  | 0 | 1 => 0
  | year + 2 => daysBeforeYear (year + 1) + yearLength (year + 1)

/-- The days of a year that are before a month. -/
def daysBeforeMonth (year : Nat) : Nat → Nat
  | 0 | 1 => 0
  | month + 2 => daysBeforeMonth year (month + 1) + monthLength year (month + 1)

/-- The number of a day; that of 0001-01-01 is 1. -/
def Date.ordinal (d : Date) : Nat := daysBeforeYear d.year + daysBeforeMonth d.year d.month + d.day

section Numbers

variable {year month : Nat}

theorem daysBeforeYear_succ (h : 1 ≤ year) : daysBeforeYear (year + 1) = daysBeforeYear year + yearLength year := by
  obtain ⟨y, rfl⟩ := Nat.exists_eq_add_of_le' h
  rfl

theorem daysBeforeMonth_succ (h : 1 ≤ month) :
    daysBeforeMonth year (month + 1) = daysBeforeMonth year month + monthLength year month := by
  obtain ⟨m, rfl⟩ := Nat.exists_eq_add_of_le' h
  rfl

/-- The twelve months make a year. -/
theorem daysBeforeMonth_thirteen (year : Nat) : daysBeforeMonth year 13 = yearLength year := by
  by_cases h : IsLeap year
  · simp [daysBeforeMonth, monthLength, yearLength, h]
  · simp [daysBeforeMonth, monthLength, yearLength, h]

theorem yearLength_pos (year : Nat) : 365 ≤ yearLength year := by
  rw [yearLength]
  split <;> omega

/-- The leap years up to a year, by the three rules. -/
theorem daysBeforeYear_eq (year : Nat) :
    daysBeforeYear (year + 1) + year / 100 = 365 * year + year / 4 + year / 400 := by
  induction year with
  | zero => rfl
  | succ year ih =>
    have hcenturies : 100 ∣ year + 1 → 4 ∣ year + 1 := Nat.dvd_trans (by decide)
    have hfours : 400 ∣ year + 1 → 100 ∣ year + 1 := Nat.dvd_trans (by decide)
    have hleap : IsLeap (year + 1) ↔ 4 ∣ year + 1 ∧ (¬100 ∣ year + 1 ∨ 400 ∣ year + 1) := by
      simp only [IsLeap, Nat.dvd_iff_mod_eq_zero, ne_eq]
    rw [daysBeforeYear_succ (Nat.le_add_left 1 year), yearLength, Nat.succ_div, Nat.succ_div, Nat.succ_div, if_congr hleap rfl rfl]
    -- each rule on its own
    by_cases h400 : 400 ∣ year + 1
    · have h100 := hfours h400
      have h4 := hcenturies h100
      rw [if_pos h4, if_pos h100, if_pos h400, if_pos ⟨h4, .inr h400⟩]
      omega
    · by_cases h100 : 100 ∣ year + 1
      · rw [if_pos (hcenturies h100), if_pos h100, if_neg h400, if_neg fun h => h.2.elim (· h100) h400]
        omega
      · rw [if_neg h100, if_neg h400]
        by_cases h4 : 4 ∣ year + 1
        · rw [if_pos h4, if_pos ⟨h4, .inl h100⟩]
          omega
        · rw [if_neg h4, if_neg fun h => h4 h.1]
          omega

theorem daysBeforeYear_mono : Monotone daysBeforeYear := by
  apply monotone_nat_of_le_succ
  intro year
  rcases Nat.eq_zero_or_pos year with rfl | hpos
  · exact Nat.le_refl _
  · rw [daysBeforeYear_succ hpos]
    omega

theorem daysBeforeMonth_mono (year : Nat) : Monotone (daysBeforeMonth year) := by
  apply monotone_nat_of_le_succ
  intro month
  rcases Nat.eq_zero_or_pos month with rfl | hpos
  · exact Nat.le_refl _
  · rw [daysBeforeMonth_succ hpos]
    omega

/-- A date is in its year. -/
theorem Date.dayOfYear_le (d : Date) : daysBeforeMonth d.year d.month + d.day ≤ yearLength d.year := by
  have hmonths : daysBeforeMonth d.year (d.month + 1) ≤ daysBeforeMonth d.year 13 :=
    daysBeforeMonth_mono d.year (Nat.succ_le_succ d.month_le)
  rw [daysBeforeMonth_succ d.month_pos, daysBeforeMonth_thirteen] at hmonths
  have hday := d.day_le
  omega

/-- The numbers go on from day to day. -/
theorem Date.ordinal_next (d : Date) : d.next.ordinal = d.ordinal + 1 := by
  have hday := d.day_le
  unfold Date.next
  by_cases hlast : d.day < monthLength d.year d.month
  · rw [dif_pos hlast]
    rfl
  rw [dif_neg hlast]
  by_cases hmonth : d.month < 12
  · rw [dif_pos hmonth]
    simp only [Date.ordinal, daysBeforeMonth_succ d.month_pos]
    omega
  · rw [dif_neg hmonth]
    simp only [Date.ordinal, daysBeforeYear_succ d.year_pos, ← daysBeforeMonth_thirteen]
    have hfirst : daysBeforeMonth (d.year + 1) 1 = 0 := rfl
    have htwelve : d.month = 12 := Nat.le_antisymm d.month_le (Nat.not_lt.1 hmonth)
    have hyear : daysBeforeMonth d.year 13 = daysBeforeMonth d.year d.month + monthLength d.year d.month := by
      rw [htwelve]
      rfl
    omega

theorem Date.ordinal_iterate (d : Date) (n : Nat) : (Date.next^[n] d).ordinal = d.ordinal + n := by
  induction n with
  | zero => rfl
  | succ n ih => rw [Function.iterate_succ_apply', Date.ordinal_next, ih, Nat.add_assoc]

/-- A number belongs to one date. -/
theorem Date.ordinal_injective : Function.Injective Date.ordinal := by
  -- a date of an earlier year, or of an earlier month of the same year, has a smaller number
  have hyears : ∀ d e : Date, d.year < e.year → d.ordinal < e.ordinal := by
    intro d e hlt
    have hbefore : daysBeforeYear (d.year + 1) ≤ daysBeforeYear e.year := daysBeforeYear_mono hlt
    rw [daysBeforeYear_succ d.year_pos] at hbefore
    have hin := d.dayOfYear_le
    have hday := e.day_pos
    simp only [Date.ordinal]
    omega
  have hmonths : ∀ d e : Date, d.year = e.year → d.month < e.month → d.ordinal < e.ordinal := by
    intro d e hyear hlt
    have hbefore : daysBeforeMonth d.year (d.month + 1) ≤ daysBeforeMonth d.year e.month :=
      daysBeforeMonth_mono d.year hlt
    rw [daysBeforeMonth_succ d.month_pos] at hbefore
    have hin := d.day_le
    have hday := e.day_pos
    simp only [Date.ordinal, ← hyear]
    omega
  intro d e heq
  have hyear : d.year = e.year := by
    rcases Nat.lt_trichotomy d.year e.year with hlt | hsame | hgt
    · exact absurd heq (Nat.ne_of_lt (hyears d e hlt))
    · exact hsame
    · exact absurd heq (Nat.ne_of_gt (hyears e d hgt))
  have hmonth : d.month = e.month := by
    rcases Nat.lt_trichotomy d.month e.month with hlt | hsame | hgt
    · exact absurd heq (Nat.ne_of_lt (hmonths d e hyear hlt))
    · exact hsame
    · exact absurd heq (Nat.ne_of_gt (hmonths e d hyear.symm hgt))
  simp only [Date.ordinal, hyear, hmonth] at heq
  exact Date.ext hyear hmonth (Nat.add_left_cancel heq)

end Numbers

end Uboot.Lib.Gregorian
