/-
Recurrence/Expansion/Ending.lean

The end of a series.

A series ends after a number of instances, or at a bound that its instances
must not pass, or never.  A bound without a time of day is compared with the
local date of an instance.  A bound with one is a UTC value and is compared
with the instance in UTC, by the date alone if the instance has no time.
-/
import Recurrence.Calendar.BasicFormat
import Recurrence.Rule.Basic

namespace Recurrence

/-- What ends a series. -/
inductive Ending where
  | never
  /-- So many more instances pass; negative once some have been refused. -/
  | count (remaining : Int)
  | untilBound (last : Value)
deriving DecidableEq

namespace Ending

/-- The ending of a rule. -/
def ofRule (r : Rule) : Ending :=
  match r.count, r.untilBound with
  | some n, _ => .count n
  | none, some v => .untilBound v
  | none, none => .never

/-- Whether an instance does not pass a bound. -/
def withinBound (last localValue utc : Value) : Bool :=
  if !last.hasTime then !decide (last.date.key < localValue.date.key)
  else if utc.hasTime then !decide (last.key < utc.key)
  else !decide (last.date.key < utc.date.key)

/-- Whether an instance passes, and the ending for the next one. -/
def check (e : Ending) (localValue utc : Value) : Bool × Ending :=
  match e with
  | never => (true, never)
  | count remaining => (0 ≤ remaining - 1, count (remaining - 1))
  | untilBound last => (withinBound last localValue utc, untilBound last)

/-- An ending as it is shown; the one that never comes is not. -/
def text? : Ending → Option String
  | never => none
  | count remaining =>
    some ("CountCondition(remaining=" ++ Text.integerString remaining ++ ")")
  | untilBound last => some ("UntilCondition(until=" ++ last.text ++ ")")

end Ending

end Recurrence
