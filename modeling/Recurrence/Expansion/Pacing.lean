/-
Recurrence/Expansion/Pacing.lean

Stepping through years, and skipping the years that hold nothing.

A series must not look for its next instance forever, so the years that pass
without one are counted against a budget; an instance fills the budget up
again.  Where a rule has a long interval, a pacer names the next year that has
a slot at all, so that the years in between cost nothing.

All that a pacer needs to know is its interval and one of its slots: it names
the same years whichever slot it has been told.
-/
import Recurrence.Expansion.Stepper

namespace Recurrence

/-! ### Weeks -/

/-- Every n-th week, beginning with the week of the start. -/
structure WeekCycle where
  interval : Int
  /-- The day number on which the first week starts. -/
  firstWeek : Int
deriving DecidableEq

namespace WeekCycle

/-- The weeks counted from the one of a value. -/
def start (interval : Int) (weekStart : Weekday) (v : Value) : WeekCycle :=
  ⟨interval, Gregorian.weekStart v.date.dayNumber weekStart.number⟩

/-- The first year from a given one on that holds a day of a slot week.  A week
that starts up to six days before the first of January reaches into the
year. -/
def firstYearFrom (p : WeekCycle) (year : Int) : Int :=
  let earliest := Gregorian.dayNumber year 1 1 - 6
  let week := earliest + (p.firstWeek - earliest).fmod (7 * p.interval)
  max year (Gregorian.yearOfDayNumber week)

/-- A week pacer as it is shown. -/
def text (p : WeekCycle) : String :=
  "WeekPacer(interval=" ++ Text.integerString p.interval ++ ")"

end WeekCycle

/-! ### Pacers -/

/-- What can name the years that hold a slot. -/
inductive Pacer where
  | slots (stepper : Stepper)
  | weeks (pacer : WeekCycle)
deriving DecidableEq

namespace Pacer

/-- The interval of the slots. -/
def interval : Pacer → Int
  | slots g => g.interval
  | weeks p => p.interval

/-- The first year from a given one on that holds a slot. -/
def firstYearFrom : Pacer → Int → Int
  | slots g => g.firstYearFrom
  | weeks p => p.firstYearFrom

/-- The first year from a given one on that holds a slot, if the interval has
slots. -/
def firstYearFrom? (p : Pacer) (year : Int) : Except Undefined Int :=
  if p.interval = 0 then .error .zeroInterval else .ok (p.firstYearFrom year)

/-- A pacer as it is shown. -/
def text : Pacer → String
  | slots g => g.text
  | weeks p => p.text

end Pacer

/-! ### Years -/

/-- A generator that steps through years. -/
structure YearStepper where
  interval : Int
  year : Int
  /-- The years that may pass without an instance. -/
  budget : Int
  remaining : Int
  pacer : Option Pacer := none
deriving DecidableEq

namespace YearStepper

/-- A stepper whose first year is that of a value. -/
def start (interval : Int) (v : Value) (budget : Int) : YearStepper :=
  ⟨interval, v.date.year - interval, budget, budget, none⟩

/-- Fill the budget up. -/
def refill (g : YearStepper) : YearStepper := { g with remaining := g.budget }

/-- Fill the year with the next one, paced if there is a pacer.  Every call costs
a unit of the budget, and none is given without one. -/
def generate (g : YearStepper) (f : Fields) : Step × YearStepper × Fields :=
  let g := { g with remaining := g.remaining - 1 }
  if g.remaining < 0 then (.halt, g, f)
  else
    let next := g.year + g.interval
    let paced : Except Undefined Int :=
      match g.pacer with
      | none => .ok next
      | some p => (p.firstYearFrom? next).map (max next)
    match paced with
    | .error why => (.undefined why, g, f)
    | .ok year => (.value, { g with year }, { f with year })

/-- A year stepper as it is shown. -/
def text (g : YearStepper) : String :=
  "SerialYearGenerator(interval=" ++ Text.integerString g.interval ++ ")"

end YearStepper

end Recurrence
