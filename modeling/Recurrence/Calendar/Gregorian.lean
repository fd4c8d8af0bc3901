/-
Recurrence/Calendar/Gregorian.lean

Years and months of the proleptic Gregorian calendar.

Years are any integers: there is a year 0 and there are years before it, and
the leap rule is applied to all of them alike.  Months outside 1 to 12 are
not errors but months of a neighbouring year, so that callers can step over a
new year without looking.  Divisions are by positive constants throughout, so
they round down.
-/

namespace Recurrence.Gregorian

/-- A year divisible by four is a leap year, a full century only if it is
divisible by four hundred. -/
def isLeap (year : Int) : Bool :=
  year % 4 == 0 && (year % 100 != 0 || year % 400 == 0)

/-- The number of days in a year. -/
def yearLength (year : Int) : Int := if isLeap year then 366 else 365

/-- The same month with its number brought into 1 to 12 by moving the year. -/
def carryMonth (year month : Int) : Int × Int :=
  (year + (month - 1) / 12, (month - 1) % 12 + 1)

/-- The number of days in a month whose number lies in 1 to 12. -/
def monthLengthWithin (year month : Int) : Int :=
  if month = 2 then (if isLeap year then 29 else 28)
  else if month = 4 ∨ month = 6 ∨ month = 9 ∨ month = 11 then 30
  else 31

/-- The number of days in a month; other month numbers belong to a
neighbouring year. -/
def monthLength (year month : Int) : Int :=
  let (y, m) := carryMonth year month
  monthLengthWithin y m

/-- Days before the first of January of a year, day 1 being the first of
January of year 1. -/
def daysBeforeYear (year : Int) : Int :=
  let p := year - 1
  365 * p + p / 4 - p / 100 + p / 400

/-- The day number of a date whose month lies in 1 to 12.  The slope 367/12
spreads the month lengths as if February had thirty days; the dates after
February are then moved back by the days that it lacks. -/
def dayNumberWithin (year month day : Int) : Int :=
  let n := daysBeforeYear year + (367 * month - 362) / 12 + day
  if 2 < month then n - (if isLeap year then 1 else 2) else n

/-- The day number of a date.  Day 1 is the first of January of year 1; months
and days outside their range roll over into the neighbouring ones. -/
def dayNumber (year month day : Int) : Int :=
  let (y, m) := carryMonth year month
  dayNumberWithin y m day

/-- The year that holds a day number: count whole cycles of 400, 100, 4 and 1
years; the last day of a cycle would start a fifth part of it and belongs to
the year before. -/
def yearOfDayNumber (n : Int) : Int :=
  let d0 := n - 1
  let n400 := d0 / 146097
  let d1 := d0 % 146097
  let n100 := d1 / 36524
  let d2 := d1 % 36524
  let n4 := d2 / 1461
  let d3 := d2 % 1461
  let n1 := d3 / 365
  let year := 400 * n400 + 100 * n100 + 4 * n4 + n1
  if n100 = 4 ∨ n1 = 4 then year else year + 1

/-- The days that February lacks of thirty, for the days after it. -/
def februaryGap (year n : Int) : Int :=
  if n < dayNumber year 3 1 then 0 else if isLeap year then 1 else 2

/-- The month of the year that holds a day number. -/
def monthOfDayNumber (n : Int) : Int :=
  let year := yearOfDayNumber n
  (12 * (n - dayNumber year 1 1 + februaryGap year n) + 373) / 367

/-- The day of the month of a day number. -/
def dayOfDayNumber (n : Int) : Int :=
  n - dayNumber (yearOfDayNumber n) (monthOfDayNumber n) 1 + 1

/-- The days from the first of January to a date, which is 0 for the first of
January itself. -/
def dayOfYear (year month day : Int) : Int :=
  dayNumber year month day - dayNumber year 1 1

end Recurrence.Gregorian
