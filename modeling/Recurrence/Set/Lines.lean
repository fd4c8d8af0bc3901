/-
Recurrence/Set/Lines.lean

Recurrence sets as content lines.

A line is the name of a property, parameters that are ignored, a colon and a
value.  Rules have one rule as their value, dates a list with commas between
its items; blank lines and blank items are skipped.  A listed date-time with a
final Z is in UTC and is turned into wall-clock time, so that all dates of a
set are in one zone.
-/
import Recurrence.Rule.Parser
import Recurrence.Set.Basic
import Recurrence.Text.Lines

namespace Recurrence

open Text (Chars)

/-- The properties of a recurring event that content lines set. -/
inductive SetProperty where
  | rule | exRule | dates | exDates
deriving DecidableEq

namespace SetProperty

/-- The property that a name in capitals stands for. -/
def ofName? : String → Option SetProperty
  | "RRULE" => some .rule
  | "EXRULE" => some .exRule
  | "RDATE" => some .dates
  | "EXDATE" => some .exDates
  | _ => none

end SetProperty

/-- One listed date, in wall-clock time of a zone. -/
def readListedDate (zone : Zone) (cs : Chars) : Except SeriesError Value := do
  let v ← (Value.read cs).mapError SeriesError.rule
  if (Text.upper (Text.trim cs)).getLast? = some 'Z' then
    (v.fromUtc zone).mapError SeriesError.conversion
  else return v

/-- The listed dates of a line. -/
def readListedDates (zone : Zone) (cs : Chars) : Except SeriesError (List Value) :=
  ((Text.pieces ',' cs).filter fun item => Text.trim item ≠ []).mapM (readListedDate zone)

/-- The rule of a line. -/
def readLineRule (cs : Chars) : Except SeriesError Rule :=
  (Rule.parse (String.ofList cs)).mapError SeriesError.rule

namespace RecurrenceSet

/-- Add what a line without blanks around it says. -/
def addLine (s : RecurrenceSet) (line : Chars) : Except SeriesError RecurrenceSet :=
  match Text.cut ':' line with
  | (_, none) => .error (.rule (.unreadable (.malformedLine (String.ofList line)) none))
  | (head, some value) =>
    let name := String.ofList (Text.upper (Text.trim (Text.cut ';' head).1))
    match SetProperty.ofName? name with
    | some .rule => do return s.addRule (← readLineRule value)
    | some .exRule => do return s.addExRule (← readLineRule value)
    | some .dates => do return s.addDates (← readListedDates s.zone value)
    | some .exDates => do return s.addExDates (← readListedDates s.zone value)
    | none => .error (.rule (.unreadable (.unsupportedProperty name) none))

/-- Add what content lines say; blank lines are skipped. -/
def addLines (s : RecurrenceSet) (text : Chars) : Except SeriesError RecurrenceSet :=
  (((Text.lines text).map Text.trim).filter fun line => line ≠ []).foldlM addLine s

end RecurrenceSet

end Recurrence
