/-
Recurrence/Rule/Frequency.lean

How often a rule repeats.

The frequencies are ordered from the second to the year; a frequency is finer
than another if its unit is the shorter one.
-/

namespace Recurrence

/-- The unit in which a rule repeats. -/
inductive Frequency where
  | secondly | minutely | hourly | daily | weekly | monthly | yearly
deriving DecidableEq, Inhabited

namespace Frequency

/-- All frequencies, the finest first. -/
def all : List Frequency := [secondly, minutely, hourly, daily, weekly, monthly, yearly]

/-- The place among the frequencies, the finest being 0. -/
def rank : Frequency → Nat
  | secondly => 0 | minutely => 1 | hourly => 2 | daily => 3
  | weekly => 4 | monthly => 5 | yearly => 6

/-- Whether a frequency has a shorter unit than another. -/
def isFinerThan (a b : Frequency) : Bool := a.rank < b.rank

/-- Whether the unit is shorter than a day. -/
def isSubDaily (f : Frequency) : Bool := f.isFinerThan .daily

/-- The word for a frequency. -/
def name : Frequency → String
  | secondly => "SECONDLY" | minutely => "MINUTELY" | hourly => "HOURLY" | daily => "DAILY"
  | weekly => "WEEKLY" | monthly => "MONTHLY" | yearly => "YEARLY"

/-- The frequency that a word in capitals names. -/
def ofName? (s : String) : Option Frequency := all.find? fun f => f.name == s

@[simp] theorem ofName?_name (f : Frequency) : ofName? f.name = some f := by cases f <;> decide

end Frequency

end Recurrence
