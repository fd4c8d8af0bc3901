/-
Recurrence/Expansion/Filter.lean

Parts of a rule that only restrict.

Where one part of a rule drives a field, the others restrict what it produces.
A filter is such a restriction as a piece of data, with the values it accepts
given by one function.  Filters look at the value alone and keep no state.
Conditions on the time of day accept every plain date.

Months, days of the month and times of day are looked up in tables of positions
that begin at zero and end somewhere.
-/
import Recurrence.Expansion.Listing

namespace Recurrence

/-- A restriction on values. -/
inductive Filter where
  | always
  | weekdays (entries : List WeekdayNum) (inYear : Bool)
  | monthDays (ns : List Int)
  | yearDays (ns : List Int)
  | weekNumbers (ns : List Int) (weekStart : Weekday)
  | months (ns : List Int)
  | clock (unit : ClockField) (ns : List Int)
  /-- The weeks a multiple of an interval after the one that starts on a given
  day number. -/
  | weekInterval (interval firstWeek : Int)
  | all (filters : List Filter)

namespace Filter

/-! ### Making filters -/

/-- The number of values that a time field can take. -/
def clockSize : ClockField → Nat
  | .hour => 24
  | .minute | .second => 60

/-- A restriction of a time field; one that lists exactly all values of the field
restricts nothing. -/
def ofClock (unit : ClockField) (ns : List Int) : Filter :=
  if ascendingInts ns = (List.range (clockSize unit)).map (fun k : Nat => (k : Int)) then .always
  else .clock unit ns

/-- The weeks a multiple of an interval after the week of a value. -/
def ofWeekInterval (interval : Int) (weekStart : Weekday) (v : Value) : Filter :=
  .weekInterval interval (Gregorian.weekStart v.date.dayNumber weekStart.number)

/-- Whether a filter accepts everything by its form. -/
def isAlways : Filter → Bool
  | always => true
  | _ => false

/-- All of several filters together. -/
def ofAll (filters : List Filter) : Filter :=
  match filters.filter fun f => !f.isAlways with
  | [] => .always
  | [f] => f
  | fs => .all fs

/-- A filter, unless it lists a position that no table has. -/
def checkPositions (ns : List Int) (f : Filter) : Except Undefined Filter := do
  ns.forM Undefined.checkPosition
  return f

/-- A restriction to days of the month, unless one of them is not in any table. -/
def ofMonthDays? (ns : List Int) : Except Undefined Filter :=
  checkPositions (ns.map fun n => n.natAbs) (.monthDays ns)

/-! ### What filters accept -/

/-- The place of a date among the days of its weekday in its month or year,
counted from one. -/
def weekdayPosition (inYear : Bool) (d : Date) : Int :=
  (if inYear then d.dayOfYear else d.day - 1) / 7 + 1

/-- The place from the start that an ordinal names in the period of a date. -/
def ordinalPosition (inYear : Bool) (d : Date) (weekday : Weekday) (n : Int) : Int :=
  if 0 < n then n
  else if inYear then
    Gregorian.weekdayPositionFromStart n weekday.number
      (Gregorian.weekdayNumber d.year 1 1) (Gregorian.yearLength d.year)
  else
    Gregorian.weekdayPositionFromStart n weekday.number
      (Gregorian.firstWeekdayOfMonth d.year d.month) (Gregorian.monthLength d.year d.month)

/-- Whether a weekday entry names a date. -/
def entryAccepts (inYear : Bool) (d : Date) (e : WeekdayNum) : Bool :=
  e.weekday.number == d.weekdayNumber &&
    match e.ordinal with
    | none => true
    | some n => ordinalPosition inYear d e.weekday n == weekdayPosition inYear d

/-- Whether a day of the month is listed, from the start or from the end. -/
def acceptsMonthDay (ns : List Int) (d : Date) : Except Undefined Bool := do
  Undefined.checkPosition d.day
  if ns.any fun n => 0 < n && n == d.day then return true
  let fromEnd := Gregorian.monthLength d.year d.month - d.day + 1
  Undefined.checkPosition fromEnd
  return ns.any fun n => n ≤ 0 && -n == fromEnd

/-- Whether a day of the year is listed, from the start or from the end. -/
def acceptsYearDay (ns : List Int) (d : Date) : Bool :=
  let day := d.dayOfYear + 1
  ns.contains day || ns.contains (day - Gregorian.yearLength d.year - 1)

/-- Whether a position that counts from zero is listed. -/
def acceptsPosition (ns : List Int) (n : Int) : Except Undefined Bool := do
  Undefined.checkPosition n
  return ns.contains n

/-- Whether a date lies in a week a multiple of an interval after the first. -/
def acceptsWeek (interval firstWeek : Int) (d : Date) : Except Undefined Bool :=
  if interval = 0 then .error .zeroInterval
  else .ok (((d.dayNumber - firstWeek) / 7).fmod interval == 0)

mutual

/-- Whether a filter accepts a value. -/
def accepts : Filter → Value → Except Undefined Bool
  | always, _ => .ok true
  | weekdays es inYear, v => .ok (es.any (entryAccepts inYear v.date))
  | monthDays ns, v => acceptsMonthDay ns v.date
  | yearDays ns, v => .ok (acceptsYearDay ns v.date)
  | weekNumbers ns weekStart, v =>
    .ok (weekListed ns (v.date.weekNumber weekStart.number) weekStart.number)
  | months ns, v => acceptsPosition ns v.date.month
  | clock unit ns, v => if v.hasTime then acceptsPosition ns (v.timeField unit.field) else .ok true
  | weekInterval interval firstWeek, v => acceptsWeek interval firstWeek v.date
  | all fs, v => acceptsAll fs v

/-- Whether all of several filters accept a value; the first that does not
decides. -/
def acceptsAll : List Filter → Value → Except Undefined Bool
  | [], _ => .ok true
  | f :: fs, v =>
    match accepts f v with
    | .ok true => acceptsAll fs v
    | r => r

end

end Filter

end Recurrence
