/-
Recurrence/Expansion/Stepper.lean

Every n-th month, day, hour, minute or second.

Units are counted on an absolute scale: months since the year 0, days by their
number, hours, minutes and seconds since day 0.  A stepper remembers the last
unit it produced, so its phase carries over from period to period, whatever
the lengths of the periods and also across periods without a slot.

The months of a year are the slots of that year's period, the days those of a
month, the hours those of a day, and so on.
-/
import Recurrence.Expansion.Fields
import Recurrence.Expansion.Step

namespace Recurrence

/-- The units that can be stepped through. -/
inductive StepUnit where
  | month | day | hour | minute | second
deriving DecidableEq

namespace StepUnit

/-- The field that counts the unit. -/
def field : StepUnit → Field
  | month => .month | day => .day | hour => .hour | minute => .minute | second => .second

/-- The first unit of the current period. -/
def periodStart (u : StepUnit) (f : Fields) : Int :=
  match u with
  | month => f.year * 12
  | day => Gregorian.dayNumber f.year f.month 1
  | hour => f.dayNumber * 24
  | minute => (f.dayNumber * 24 + f.hour) * 60
  | second => ((f.dayNumber * 24 + f.hour) * 60 + f.minute) * 60

/-- The number that the field has in the first slot of a period. -/
def base : StepUnit → Int
  | month | day => 1
  | hour | minute | second => 0

/-- The slot that the field is on, counted from zero. -/
def offset (u : StepUnit) (f : Fields) : Int := f.get u.field - u.base

/-- The number of slots in the current period. -/
def span (u : StepUnit) (f : Fields) : Int :=
  match u with
  | month => 12
  | day => Gregorian.monthLength f.year f.month
  | hour => 24
  | minute | second => 60

/-- The fields with the unit on a slot. -/
def assign (u : StepUnit) (f : Fields) (slot : Int) : Fields := f.set u.field (slot + u.base)

/-- The units in a day, for units that divide a day. -/
def perDay : StepUnit → Int
  | month | day => 1
  | hour => 24 | minute => 1440 | second => 86400

/-- The first unit of a year. -/
def yearStart (u : StepUnit) (year : Int) : Int :=
  match u with
  | month => year * 12
  | u => Gregorian.dayNumber year 1 1 * u.perDay

/-- The year that holds a unit. -/
def yearOf (u : StepUnit) (n : Int) : Int :=
  match u with
  | month => n / 12
  | u => Gregorian.yearOfDayNumber (n / u.perDay)

end StepUnit

/-- A generator that steps through a unit. -/
structure Stepper where
  unit : StepUnit
  interval : Int
  /-- The first unit of the period that produced the last value. -/
  period : Int
  /-- The last unit that was produced. -/
  last : Int
deriving DecidableEq

namespace Stepper

/-- A stepper whose first unit is that of a value. -/
def start (unit : StepUnit) (interval : Int) (v : Value) : Stepper :=
  let f := Fields.ofValue v
  let period := unit.periodStart f
  ⟨unit, interval, period, period + unit.offset f - interval⟩

/-- The next slot: one interval on within a period, and in a new period the
first slot in phase with the last unit. -/
def nextSlot (g : Stepper) (period : Int) : Int :=
  if period = g.period then g.last - period + g.interval
  else (g.interval - (period - g.last).fmod g.interval).fmod g.interval

/-- Fill the field with the next unit of the current period.  A period without a
slot leaves the stepper as it was. -/
def generate (g : Stepper) (f : Fields) : Step × Stepper × Fields :=
  let period := g.unit.periodStart f
  if period ≠ g.period ∧ g.interval = 0 then (.undefined .zeroInterval, g, f)
  else
    let slot := g.nextSlot period
    if g.unit.span f ≤ slot then (.rollover, g, f)
    else (.value, { g with period, last := period + slot }, g.unit.assign f slot)

/-- The first year from a given one on that holds a unit in phase. -/
def firstYearFrom (g : Stepper) (year : Int) : Int :=
  let first := g.unit.yearStart year
  g.unit.yearOf (first + (g.last - first).fmod g.interval)

/-- The name of the steppers of a unit. -/
def kind : StepUnit → String
  | .month => "SerialMonthGenerator" | .day => "SerialDayGenerator"
  | .hour => "SerialHourGenerator" | .minute => "SerialMinuteGenerator"
  | .second => "SerialSecondGenerator"

/-- A stepper as it is shown. -/
def text (g : Stepper) : String :=
  kind g.unit ++ "(interval=" ++ Text.integerString g.interval ++ ")"

end Stepper

end Recurrence
