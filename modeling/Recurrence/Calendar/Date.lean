/-
Recurrence/Calendar/Date.lean

Dates, times of day, and the values a recurrence produces: a date, or a date
with a time of day.

The fields are any integers.  A value is taken as it is given, so that a start
on the 31st of February can be told apart from one on the 3rd of March; what
makes a value real is a predicate beside the type and not part of it.

Values are ordered field by field, the coarsest first.  A plain date stands
immediately before every time of day on that date: it takes part in the
order as if its hour were -1.
-/
import Recurrence.Calendar.Week

namespace Recurrence

/-- A day of the calendar. -/
@[ext] structure Date where
  year : Int
  month : Int
  day : Int
deriving DecidableEq, Inhabited

/-- A wall-clock time to the second. -/
@[ext] structure TimeOfDay where
  hour : Int
  minute : Int
  second : Int
deriving DecidableEq, Inhabited

/-- The start of a day. -/
def TimeOfDay.midnight : TimeOfDay := ⟨0, 0, 0⟩

/-- A date, or a date with a time of day. -/
@[ext] structure Value where
  date : Date
  time : Option TimeOfDay
deriving DecidableEq, Inhabited

/-! ### Dates as day numbers -/

namespace Date

/-- The day number of a date; fields out of range roll over. -/
def dayNumber (d : Date) : Int := Gregorian.dayNumber d.year d.month d.day

/-- The real date of a day number. -/
def ofDayNumber (n : Int) : Date :=
  ⟨Gregorian.yearOfDayNumber n, Gregorian.monthOfDayNumber n, Gregorian.dayOfDayNumber n⟩

/-- The date a number of days later. -/
def addDays (d : Date) (days : Int) : Date := ofDayNumber (d.dayNumber + days)

/-- The weekday, counted from Sunday. -/
def weekdayNumber (d : Date) : Int := d.dayNumber % 7

/-- The weekday. -/
def weekday (d : Date) : Weekday := Weekday.ofNumber d.dayNumber

/-- The days since the first of January. -/
def dayOfYear (d : Date) : Int := Gregorian.dayOfYear d.year d.month d.day

/-- The numbered week, for weeks that start on a given weekday. -/
def weekNumber (d : Date) (weekStart : Int) : Gregorian.WeekOfYear :=
  Gregorian.weekNumber d.year d.month d.day weekStart

/-- Whether month and day exist in the calendar. -/
def IsReal (d : Date) : Prop :=
  1 ≤ d.month ∧ d.month ≤ 12 ∧ 1 ≤ d.day ∧ d.day ≤ Gregorian.monthLengthWithin d.year d.month

instance (d : Date) : Decidable d.IsReal := by unfold IsReal; infer_instance

/-- The fields, coarsest first. -/
def key (d : Date) : List Int := [d.year, d.month, d.day]

end Date

/-! ### Times of day -/

namespace TimeOfDay

/-- Whether the fields are those of a clock. -/
def IsReal (t : TimeOfDay) : Prop :=
  0 ≤ t.hour ∧ t.hour < 24 ∧ 0 ≤ t.minute ∧ t.minute < 60 ∧ 0 ≤ t.second ∧ t.second < 60

instance (t : TimeOfDay) : Decidable t.IsReal := by unfold IsReal; infer_instance

/-- The fields, coarsest first. -/
def key (t : TimeOfDay) : List Int := [t.hour, t.minute, t.second]

/-- The seconds since midnight. -/
def seconds (t : TimeOfDay) : Int := (t.hour * 60 + t.minute) * 60 + t.second

end TimeOfDay

/-! ### Values -/

namespace Value

/-- A value without a time of day. -/
def ofDate (d : Date) : Value := ⟨d, none⟩

/-- A value with a time of day. -/
def ofDateTime (d : Date) (t : TimeOfDay) : Value := ⟨d, some t⟩

/-- Whether the value has a time of day. -/
def hasTime (v : Value) : Bool := v.time.isSome

/-- The time of day, midnight if there is none. -/
def timeOrMidnight (v : Value) : TimeOfDay := v.time.getD .midnight

/-- The value without its time of day. -/
def withoutTime (v : Value) : Value := ⟨v.date, none⟩

/-- Whether all fields are real. -/
def IsReal (v : Value) : Prop := v.date.IsReal ∧ ∀ t ∈ v.time, t.IsReal

instance (v : Value) : Decidable v.IsReal := by unfold IsReal; infer_instance

/-- The value a number of days later, at the same time of day. -/
def addDays (v : Value) (days : Int) : Value := { v with date := v.date.addDays days }

/-- The whole days from one value's date to another's. -/
def daysSince (a b : Value) : Int := a.date.dayNumber - b.date.dayNumber

/-- What values are sorted by; a plain date counts as hour -1. -/
def key (v : Value) : List Int :=
  v.date.key ++ match v.time with
    | some t => t.key
    | none => [-1, 0, 0]

/-- The order of values: by key, and where a date-time has the key of a plain
date, the plain date first. -/
def Before (a b : Value) : Prop :=
  a.key < b.key ∨ a.key = b.key ∧ a.time = none ∧ b.time ≠ none

instance : LT Value := ⟨Before⟩

instance (a b : Value) : Decidable (a < b) :=
  inferInstanceAs (Decidable (a.key < b.key ∨ a.key = b.key ∧ a.time = none ∧ b.time ≠ none))

/-- Whether one value is before or the same as another. -/
instance : LE Value := ⟨fun a b => a < b ∨ a = b⟩

instance (a b : Value) : Decidable (a ≤ b) := inferInstanceAs (Decidable (a < b ∨ a = b))

end Value

end Recurrence
