/-
Recurrence/Expansion/Listing.lean

Fields that take their values from a list.

For every period a list part of a rule gives an ascending list of values: the
months of a year, the days of a month, the hours of a day.  The values are
computed once per period and handed out one by one.  In the period of the
start the values below the start's own are left out, since they could only
make instances before it.
-/
import Recurrence.Calendar.Ascending
import Recurrence.Expansion.Fields
import Recurrence.Expansion.Step
import Recurrence.Rule.WeekdayNum

namespace Recurrence

/-- The fields of a time of day. -/
inductive ClockField where
  | hour | minute | second
deriving DecidableEq

/-- The field among all six. -/
def ClockField.field : ClockField → Field
  | hour => .hour | minute => .minute | second => .second

/-- Where the values of a field come from. -/
inductive Listing where
  | months (ns : List Int)
  /-- Days of the month, counted from its end if negative. -/
  | monthDays (ns : List Int)
  /-- Days of the year, counted from its end if negative. -/
  | yearDays (ns : List Int)
  /-- Weeks of the year, counted from its last if negative. -/
  | weekNumbers (ns : List Int) (weekStart : Weekday)
  /-- Weekdays; their ordinals count within the month or within the year. -/
  | weekdays (entries : List WeekdayNum) (inYear : Bool)
  | clock (unit : ClockField) (ns : List Int)
deriving DecidableEq

/-! ### The days of a month that a part names -/

/-- The days of a month, from the first on. -/
def daysOfMonth (year month : Int) : List Int :=
  (List.range (Gregorian.monthLength year month).toNat).map fun k : Nat => (k : Int) + 1

/-- The listed days of a month. -/
def monthDaysIn (ns : List Int) (year month : Int) : List Int :=
  let length := Gregorian.monthLength year month
  ascendingInts ((ns.map fun n => Gregorian.positionFromStart n length).filter fun d =>
    1 ≤ d && d ≤ length)

/-- The listed days of a year that fall into a month. -/
def yearDaysIn (ns : List Int) (year month : Int) : List Int :=
  let before := Gregorian.dayOfYear year month 1
  let length := Gregorian.monthLength year month
  ascendingInts ((ns.map fun n =>
    Gregorian.positionFromStart n (Gregorian.yearLength year) - before).filter fun d =>
      1 ≤ d && d ≤ length)

/-- Whether a week is listed, by its number or by its place from the last week
of its year. -/
def weekListed (ns : List Int) (w : Gregorian.WeekOfYear) (weekStart : Int) : Bool :=
  ns.contains w.week || ns.contains (w.week - Gregorian.weeksInYear w.year weekStart - 1)

/-- The days of a month that lie in a listed week. -/
def weekDaysIn (ns : List Int) (weekStart : Weekday) (year month : Int) : List Int :=
  (daysOfMonth year month).filter fun d =>
    weekListed ns (Gregorian.weekNumber year month d weekStart.number) weekStart.number

/-- The days of a month that a weekday entry names. -/
def weekdayDaysIn (inYear : Bool) (year month : Int) (e : WeekdayNum) : List Int :=
  let length := Gregorian.monthLength year month
  let firstOfMonth := Gregorian.firstWeekdayOfMonth year month
  match e.ordinal with
  | some n =>
    let day :=
      if inYear then
        Gregorian.nthWeekday (Gregorian.weekdayNumber year 1 1) (Gregorian.yearLength year) n
          e.weekday.number (Gregorian.dayOfYear year month 1) length
      else Gregorian.nthWeekday firstOfMonth length n e.weekday.number 0 length
    if day = 0 then [] else [day]
  | none =>
    let first := 1 + (7 + e.weekday.number - firstOfMonth) % 7
    ((List.range 5).map fun k : Nat => first + 7 * (k : Int)).filter fun d => d ≤ length

namespace Listing

/-- The field that a listing fills. -/
def field : Listing → Field
  | months _ => .month
  | monthDays _ | yearDays _ | weekNumbers _ _ | weekdays _ _ => .day
  | clock unit _ => unit.field

/-- The coarser fields, which make out the period. -/
def periodKey (l : Listing) (f : Fields) : List Int :=
  match l with
  | months _ => [f.year]
  | monthDays _ | yearDays _ | weekNumbers _ _ | weekdays _ _ => [f.year, f.month]
  | clock .hour _ => [f.year, f.month, f.day]
  | clock .minute _ => [f.year, f.month, f.day, f.hour]
  | clock .second _ => [f.year, f.month, f.day, f.hour, f.minute]

/-- The values of the current period, ascending and each once. -/
def values (l : Listing) (f : Fields) : List Int :=
  match l with
  | months ns => ascendingInts ns
  | monthDays ns => monthDaysIn ns f.year f.month
  | yearDays ns => yearDaysIn ns f.year f.month
  | weekNumbers ns weekStart => weekDaysIn ns weekStart f.year f.month
  | weekdays es inYear => ascendingInts (es.flatMap (weekdayDaysIn inYear f.year f.month))
  | clock _ ns => ascendingInts ns

/-- The only value of every period, if there is only one. -/
def singleValue? : Listing → Option Int
  | clock _ ns =>
    match ascendingInts ns with
    | [n] => some n
    | _ => none
  | _ => none

/-- A listing as it is shown. -/
def text : Listing → String
  | months ns => "ByMonthGenerator(" ++ Text.integerList (ascendingInts ns) ++ ")"
  | monthDays ns => "ByMonthDayGenerator(" ++ Text.integerList ns ++ ")"
  | yearDays ns => "ByYearDayGenerator(" ++ Text.integerList ns ++ ")"
  | weekNumbers ns _ => "ByWeekNoGenerator(" ++ Text.integerList (ascendingInts ns) ++ ")"
  | weekdays es inYear =>
    "ByDayGenerator([" ++ String.intercalate ", " (es.map fun e => Text.quotedString e.text)
      ++ "], weeks_in_year=" ++ (if inYear then "True" else "False") ++ ")"
  | clock .hour ns => "ByHourGenerator(" ++ Text.integerList (ascendingInts ns) ++ ")"
  | clock .minute ns => "ByMinuteGenerator(" ++ Text.integerList (ascendingInts ns) ++ ")"
  | clock .second ns => "BySecondGenerator(" ++ Text.integerList (ascendingInts ns) ++ ")"

end Listing

/-- A generator that hands out the values of a listing. -/
structure Lister where
  listing : Listing
  /-- The period of the start. -/
  startPeriod : List Int
  /-- The start's own value of the field. -/
  floor : Int
  /-- The period whose values are being handed out. -/
  period : Option (List Int) := none
  /-- The values of that period that are left. -/
  rest : List Int := []
deriving DecidableEq

namespace Lister

/-- A generator for the periods from that of a value on. -/
def start (listing : Listing) (v : Value) : Lister :=
  let f := Fields.ofValue v
  { listing, startPeriod := listing.periodKey f, floor := f.get listing.field }

/-- The values to hand out in the current period. -/
def available (g : Lister) (f : Fields) : List Int :=
  let period := g.listing.periodKey f
  if g.period = some period then g.rest
  else
    let values := g.listing.values f
    if period = g.startPeriod then values.filter fun n => g.floor ≤ n else values

/-- Fill the field with the next value of the current period. -/
def generate (g : Lister) (f : Fields) : Step × Lister × Fields :=
  let period := some (g.listing.periodKey f)
  match g.available f with
  | [] => (.rollover, { g with period, rest := [] }, f)
  | n :: rest => (.value, { g with period, rest }, f.set g.listing.field n)

end Lister

end Recurrence
