/-
Recurrence/Rule/Meaning.lean

What it is for a value to match a rule, said without generating anything.

A value matches if it lies in a period of the rule's frequency that is in
phase with the start's, satisfies every list that the rule has, and agrees with
the start wherever the rule leaves a field open.  The end of the rule and its
positions have no part in this: they choose among the values that match.

Numbers in the lists of days and weeks count from the start of their month or
year, or from its end if they are negative.  Ordinals of weekdays have a
meaning in monthly and yearly rules only.
-/
import Recurrence.Rule.Basic

namespace Recurrence

/-! ### Periods in phase -/

/-- The number of the period of a frequency that holds a value. -/
def periodNumber (freq : Frequency) (weekStart : Weekday) (v : Value) : Int :=
  let day := v.date.dayNumber
  let t := v.timeOrMidnight
  match freq with
  | .yearly => v.date.year
  | .monthly => v.date.year * 12 + v.date.month
  | .weekly => (day - weekStart.number) / 7
  | .daily => day
  | .hourly => day * 24 + t.hour
  | .minutely => (day * 24 + t.hour) * 60 + t.minute
  | .secondly => ((day * 24 + t.hour) * 60 + t.minute) * 60 + t.second

/-- The number of the period of a rule that holds a value. -/
def Rule.periodNumber (r : Rule) (v : Value) : Int :=
  Recurrence.periodNumber r.freq r.weekStart v

/-- A value's period is the start's own, or one a whole number of intervals after
it. -/
def Rule.InPhase (r : Rule) (start v : Value) : Prop :=
  r.periodNumber start ≤ r.periodNumber v ∧ r.interval ∣ r.periodNumber v - r.periodNumber start

/-! ### Lists -/

/-- Whether a list names a place among `count`, from the start or from the end. -/
def Named (ns : List Int) (count place : Int) : Prop := place ∈ ns ∨ place - count - 1 ∈ ns

/-- The day of a date within its month or year, counted from zero, and the number
of days that this month or year has. -/
def Date.dayWithin (d : Date) (inYear : Bool) : Int × Int :=
  if inYear then (d.dayOfYear, Gregorian.yearLength d.year)
  else (d.day - 1, Gregorian.monthLength d.year d.month)

/-- Whether an ordinal names a date among the days of its weekday in its month or
year. -/
def OrdinalNames (inYear : Bool) (d : Date) (n : Int) : Prop :=
  let (day, count) := d.dayWithin inYear
  n = day / 7 + 1 ∨ n = -((count - 1 - day) / 7 + 1)

/-- Whether an entry of a rule's weekdays names a date. -/
def Rule.EntryNames (r : Rule) (d : Date) (e : WeekdayNum) : Prop :=
  e.weekday = d.weekday ∧
    (r.freq = .monthly ∨ r.freq = .yearly → ∀ n ∈ e.ordinal,
      OrdinalNames (decide (r.freq = .yearly ∧ r.byMonth = [])) d n)

/-- Whether a date satisfies the lists of a rule. -/
def Rule.AcceptsDate (r : Rule) (d : Date) : Prop :=
  let week := d.weekNumber r.weekStart.number
  (r.byMonth = [] ∨ d.month ∈ r.byMonth) ∧
  (r.byMonthDay = [] ∨ Named r.byMonthDay (Gregorian.monthLength d.year d.month) d.day) ∧
  (r.byYearDay = [] ∨ Named r.byYearDay (Gregorian.yearLength d.year) (d.dayOfYear + 1)) ∧
  (r.byWeekNo = [] ∨
    Named r.byWeekNo (Gregorian.weeksInYear week.year r.weekStart.number) week.week) ∧
  (r.byDay = [] ∨ ∃ e ∈ r.byDay, r.EntryNames d e)

/-- Whether a time field of a value satisfies its list or, if the list is empty and
the field is finer than the frequency, is that of the start. -/
def ClockAgrees (freq unit : Frequency) (ns : List Int) (startField field : Int) : Prop :=
  if ns ≠ [] then field ∈ ns
  else unit.isFinerThan freq = true → field = startField

/-- Whether a time of day satisfies the lists of a rule, or agrees with the start's
where there is none. -/
def Rule.AcceptsTime (r : Rule) (startTime t : TimeOfDay) : Prop :=
  ClockAgrees r.freq .hourly r.byHour startTime.hour t.hour ∧
  ClockAgrees r.freq .minutely r.byMinute startTime.minute t.minute ∧
  ClockAgrees r.freq .secondly r.bySecond startTime.second t.second

/-! ### Fields that a rule leaves open -/

/-- Whether no list of a rule names days. -/
def Rule.LeavesDayOpen (r : Rule) : Prop :=
  r.byDay = [] ∧ r.byMonthDay = [] ∧ r.byYearDay = [] ∧ r.byWeekNo = []

/-- A date keeps the start's weekday, day and month where the rule leaves them
open and its frequency does not step through them. -/
def Rule.KeepsDate (r : Rule) (startDate d : Date) : Prop :=
  (r.freq = .weekly → r.byDay = [] → d.weekday = startDate.weekday) ∧
  (r.freq = .monthly ∨ r.freq = .yearly → r.LeavesDayOpen → d.day = startDate.day) ∧
  (r.freq = .yearly → r.LeavesDayOpen → r.byMonth = [] → d.month = startDate.month)

/-! ### Matches -/

/-- Whether a value matches a rule from a start on. -/
def Rule.Matches (r : Rule) (start v : Value) : Prop :=
  v.IsReal ∧ v.hasTime = start.hasTime ∧ r.InPhase start v ∧ r.AcceptsDate v.date ∧
    r.KeepsDate start.date v.date ∧ ∀ t ∈ v.time, r.AcceptsTime start.timeOrMidnight t

/-! ### Matching can be decided -/

instance (r : Rule) (start v : Value) : Decidable (r.InPhase start v) := by
  unfold Rule.InPhase; infer_instance

instance (ns : List Int) (count place : Int) : Decidable (Named ns count place) := by
  unfold Named; infer_instance

instance (inYear : Bool) (d : Date) (n : Int) : Decidable (OrdinalNames inYear d n) := by
  unfold OrdinalNames; infer_instance

instance (r : Rule) (d : Date) (e : WeekdayNum) : Decidable (r.EntryNames d e) := by
  unfold Rule.EntryNames; infer_instance

instance (r : Rule) (d : Date) : Decidable (r.AcceptsDate d) := by
  unfold Rule.AcceptsDate; infer_instance

instance (freq unit : Frequency) (ns : List Int) (a b : Int) :
    Decidable (ClockAgrees freq unit ns a b) := by
  unfold ClockAgrees; infer_instance

instance (r : Rule) (a b : TimeOfDay) : Decidable (r.AcceptsTime a b) := by
  unfold Rule.AcceptsTime; infer_instance

instance (r : Rule) : Decidable r.LeavesDayOpen := by
  unfold Rule.LeavesDayOpen; infer_instance

instance (r : Rule) (a b : Date) : Decidable (r.KeepsDate a b) := by
  unfold Rule.KeepsDate; infer_instance

instance (r : Rule) (start v : Value) : Decidable (r.Matches start v) := by
  unfold Rule.Matches; infer_instance

end Recurrence
