import Mathlib.Algebra.BigOperators.Intervals
import Mathlib.Algebra.Order.BigOperators.Group.Finset

/-! # The Gregorian calendar

Dates of the proleptic Gregorian calendar and their numbers: how many days lie between the
first day of a year and the date, as the sum over the whole years, the whole months and the
days before it. Numbers follow the order of dates (`Foundation.CivilDate.number_lt`).
-/

namespace Foundation

/-- The Gregorian leap years. -/
def isLeapYear (year : Nat) : Bool := year % 4 = 0 ∧ (year % 100 ≠ 0 ∨ year % 400 = 0)

/-- The days of a month, counted from 1. -/
def monthLength (year : Nat) : Nat → Nat
  | 2 => if isLeapYear year then 29 else 28
  | 4 | 6 | 9 | 11 => 30
  | _ => 31

theorem monthLength_le (year month : Nat) : monthLength year month ≤ 31 := by
  rw [monthLength.eq_def]
  split
  · split <;> omega
  all_goals omega

/-- The days of a year before a month. -/
def daysBeforeMonth (year month : Nat) : Nat := ∑ past ∈ Finset.Ico 1 month, monthLength year past

/-- The days of a year. -/
def yearLength (year : Nat) : Nat := daysBeforeMonth year 13

/-- The days from the beginning of one year to that of another. -/
def daysBeforeYear (epoch year : Nat) : Nat := ∑ past ∈ Finset.Ico epoch year, yearLength past

/-- A date of the calendar. -/
structure CivilDate where
  year : Nat
  month : Nat
  day : Nat
  month_pos : 1 ≤ month
  month_le : month ≤ 12
  day_pos : 1 ≤ day
  day_le : day ≤ monthLength year month

namespace CivilDate

/-- The day, counted from the first of a year. -/
def number (epoch : Nat) (date : CivilDate) : Nat :=
  daysBeforeYear epoch date.year + daysBeforeMonth date.year date.month + (date.day - 1)

/-- Years, then months, then days. -/
def fields (date : CivilDate) : List Nat := [date.year, date.month, date.day]

/-- Less than one more summand is less than a longer sum. -/
theorem sum_Ico_add_lt {length : Nat → Nat} {first last longer rest : Nat} (low : first ≤ last)
    (more : last < longer) (inside : rest < length last) :
    ∑ past ∈ Finset.Ico first last, length past + rest <
      ∑ past ∈ Finset.Ico first longer, length past := by
  calc ∑ past ∈ Finset.Ico first last, length past + rest
      < ∑ past ∈ Finset.Ico first last, length past + length last :=
        Nat.add_lt_add_left inside _
    _ = ∑ past ∈ Finset.Ico first (last + 1), length past :=
        (Finset.sum_Ico_succ_top low length).symm
    _ ≤ ∑ past ∈ Finset.Ico first longer, length past :=
        Finset.sum_le_sum_of_subset (Finset.Ico_subset_Ico_right more)

/-- A date lies before the months that follow. -/
theorem daysBeforeMonth_lt (date : CivilDate) {month : Nat} (later : date.month < month) :
    daysBeforeMonth date.year date.month + (date.day - 1) < daysBeforeMonth date.year month := by
  apply sum_Ico_add_lt date.month_pos later
  have first := date.day_pos
  have last := date.day_le
  omega

/-- A date lies before the years that follow. -/
theorem daysBeforeYear_lt (date : CivilDate) {epoch year : Nat} (since : epoch ≤ date.year)
    (later : date.year < year) : date.number epoch < daysBeforeYear epoch year := by
  have inYear : daysBeforeMonth date.year date.month + (date.day - 1) < yearLength date.year :=
    date.daysBeforeMonth_lt (Nat.lt_succ_of_le date.month_le)
  rw [number, Nat.add_assoc]
  exact sum_Ico_add_lt since later inYear

/-- **Numbers of dates** follow their order. -/
theorem number_lt {date other : CivilDate} {epoch : Nat} (since : epoch ≤ date.year)
    (before : date.fields < other.fields) : date.number epoch < other.number epoch := by
  rcases List.cons_lt_cons_iff.mp before with earlier | ⟨sameYear, before⟩
  · have lower := date.daysBeforeYear_lt since earlier
    have whole : daysBeforeYear epoch other.year ≤ other.number epoch := by
      rw [number, Nat.add_assoc]
      exact Nat.le_add_right _ _
    exact lower.trans_le whole
  · rcases List.cons_lt_cons_iff.mp before with earlier | ⟨sameMonth, before⟩
    · have lower := date.daysBeforeMonth_lt earlier
      rw [number, number, ← sameYear]
      omega
    · rcases List.cons_lt_cons_iff.mp before with earlier | ⟨-, nothing⟩
      · have first := date.day_pos
        rw [number, number, ← sameYear, ← sameMonth]
        omega
      · exact absurd nothing (List.lt_irrefl [])

/-- Dates of the same fields have the same number. -/
theorem number_congr {date other : CivilDate} (epoch : Nat) (same : date.fields = other.fields) :
    date.number epoch = other.number epoch := by
  obtain ⟨year, rest⟩ := List.cons.inj same
  obtain ⟨month, rest⟩ := List.cons.inj rest
  rw [number, number, year, month, (List.cons.inj rest).1]

end CivilDate

end Foundation
