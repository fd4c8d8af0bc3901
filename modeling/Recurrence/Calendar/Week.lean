/-
Recurrence/Calendar/Week.lean

Weeks: where they start, how they are numbered within a year, and where the
n-th Monday of a month or a year falls.

Weeks are runs of seven day numbers that begin on a chosen weekday.  Week one
of a year is the first week with at least four days in that year, so a date
near New Year may belong to a week of the neighbouring year.  All weekdays in
the formulas are numbers counted from Sunday.
-/
import Recurrence.Calendar.Gregorian
import Recurrence.Calendar.Weekday

namespace Recurrence.Gregorian

/-! ### Weekdays of dates -/

/-- The weekday of a date, counted from Sunday. -/
def weekdayNumber (year month day : Int) : Int := dayNumber year month day % 7

/-- The weekday of the first of a month. -/
def firstWeekdayOfMonth (year month : Int) : Int := weekdayNumber year month 1

/-! ### Numbered weeks -/

/-- The day number on which the week of day number n starts. -/
def weekStart (n weekday : Int) : Int := n - (n - weekday) % 7

/-- The day number on which week one of a year starts. -/
def weekOneStart (year weekday : Int) : Int :=
  let jan1 := dayNumber year 1 1
  let start := weekStart jan1 weekday
  if 3 < jan1 - start then start + 7 else start

/-- The number of numbered weeks of a year. -/
def weeksInYear (year weekday : Int) : Int :=
  (weekOneStart (year + 1) weekday - weekOneStart year weekday) / 7

/-- A week's number together with the year whose weeks it counts among. -/
structure WeekOfYear where
  year : Int
  week : Int
deriving DecidableEq

/-- The numbered week of a date. -/
def weekNumber (year month day weekday : Int) : WeekOfYear :=
  let n := dayNumber year month day
  let here := weekOneStart year weekday
  let next := weekOneStart (year + 1) weekday
  if n < here then ⟨year - 1, (n - weekOneStart (year - 1) weekday) / 7 + 1⟩
  else if next ≤ n then ⟨year + 1, (n - next) / 7 + 1⟩
  else ⟨year, (n - here) / 7 + 1⟩

/-! ### Positions within a period -/

/-- A position counted from the end, as one counted from the start: among
`count` items -1 is the last.  Positive positions stay as they are. -/
def positionFromStart (position count : Int) : Int :=
  if position < 0 then count + position + 1 else position

/-- The day of the month of the n-th given weekday of a period that starts on
weekday `firstWeekday` and has `length` days, negative n counting from the
end.  The month begins `monthOffset` days into the period; the answer is 0 if
the day does not fall into that month. -/
def nthWeekday (firstWeekday length n weekday monthOffset monthDays : Int) : Int :=
  let first := 1 + (7 + weekday - firstWeekday) % 7
  let day :=
    if 0 < n then (n - 1) * 7 + first - monthOffset
    else
      let beyond := first + 7 * 54
      let last := beyond - 7 * ((beyond - length + 6) / 7)
      last + 7 * (n + 1) - monthOffset
  if day ≤ 0 ∨ monthDays < day then 0 else day

/-- How often a weekday occurs in a period that starts on `firstWeekday`. -/
def weekdayCount (weekday firstWeekday length : Int) : Int :=
  if firstWeekday ≤ weekday then 1 + (length - (weekday - firstWeekday) - 1) / 7
  else 1 + (length - (7 - (firstWeekday - weekday)) - 1) / 7

/-- The position from the start that an ordinal of a weekday counted from the
end has in a period. -/
def weekdayPositionFromStart (ordinal weekday firstWeekday length : Int) : Int :=
  weekdayCount weekday firstWeekday length + ordinal + 1

end Recurrence.Gregorian
