/-
Recurrence/Rule/WeekdayNum.lean

Weekdays with an ordinal: the Mondays, the first Monday, the last Friday.

An ordinal names one of the weekdays of a month or a year, counted from the
start or, if negative, from the end; without one all of them are meant.  No
year has more than 53 of a weekday.
-/
import Recurrence.Calendar.Weekday
import Recurrence.Rule.Error
import Recurrence.Text.Upper

namespace Recurrence

/-- A weekday, or the n-th such weekday of a period. -/
@[ext] structure WeekdayNum where
  ordinal : Option Int
  weekday : Weekday
deriving DecidableEq

/-- The weekday that a code names, in any case and with blanks around it. -/
def Weekday.ofText? (cs : Text.Chars) : Option Weekday :=
  Weekday.ofCode? (String.ofList (Text.upper (Text.trim cs)))

/-- Whether an ordinal can name a weekday of some year. -/
def ordinalAdmitted (n : Int) : Bool := n ≠ 0 && -53 ≤ n && n ≤ 53

namespace WeekdayNum

/-- All days of a weekday. -/
def every (d : Weekday) : WeekdayNum := ⟨none, d⟩

/-- The entry of a weekday and an ordinal in range. -/
def of (d : Weekday) (ordinal : Option Int) : Except RuleError WeekdayNum :=
  match ordinal with
  | none => .ok ⟨none, d⟩
  | some n => if ordinalAdmitted n then .ok ⟨some n, d⟩ else .error (.invalid (.ordinal n) none)

/-- Whether the ordinal, if any, is in range. -/
def Valid (e : WeekdayNum) : Prop := ∀ n ∈ e.ordinal, ordinalAdmitted n = true

instance (e : WeekdayNum) : Decidable e.Valid := by unfold Valid; infer_instance

/-- The entry as it is written in rules. -/
def chars (e : WeekdayNum) : Text.Chars :=
  (match e.ordinal with
    | none => []
    | some n => Text.integer n) ++ e.weekday.code.toList

/-- The entry as it is written in rules. -/
def text (e : WeekdayNum) : String := String.ofList e.chars

/-! ### Reading -/

/-- The ordinal before the code of an entry: an optional sign and one or two
digits, or nothing at all. -/
def readOrdinal? (cs : Text.Chars) : Option (Option Int × Text.Chars) :=
  let (sign, rest) := Text.splitSign cs
  let ds := rest.takeWhile Text.isDecimalDigit
  if ds.length = 1 ∨ ds.length = 2 then
    some (some (sign * Text.digitsValue ds), rest.drop ds.length)
  else if ds = [] ∧ rest = cs then some (none, cs)
  else none

/-- The ordinal and the weekday that an entry writes, in any case. -/
def readParts? (cs : Text.Chars) : Option (Option Int × Weekday) := do
  let (ordinal, rest) ← readOrdinal? (Text.upper (Text.trim cs))
  let weekday ← Weekday.ofCode? (String.ofList rest)
  return (ordinal, weekday)

/-- The entry that a text writes. -/
def read (cs : Text.Chars) : Except RuleError WeekdayNum :=
  match readParts? cs with
  | none => .error (.unreadable (.badDayEntry (String.ofList cs)) none)
  | some (ordinal, weekday) => of weekday ordinal

end WeekdayNum

end Recurrence
