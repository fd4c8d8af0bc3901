/-
Recurrence/Journal/Level.lean

Levels of journal entries.

A level is a number; the named ones stand ten apart, with one for detailed
diagnostics between debugging and information.  Names are read in any case.
-/
import Recurrence.Text.Upper

namespace Recurrence

/-- The levels that entries are written at. -/
inductive JournalLevel where
  | debug | verbose | info | warning | error | critical
deriving DecidableEq

namespace JournalLevel

/-- The number of a level. -/
def number : JournalLevel → Int
  | debug => 10 | verbose => 15 | info => 20 | warning => 30 | error => 40 | critical => 50

/-- The name of a level. -/
def name : JournalLevel → String
  | debug => "DEBUG" | verbose => "VERBOSE" | info => "INFO" | warning => "WARNING"
  | error => "ERROR" | critical => "CRITICAL"

end JournalLevel

/-- The level number that a name in capitals stands for; some levels have two
names, and the lowest stands for no level at all. -/
def levelNumberOfName? : String → Option Int
  | "CRITICAL" | "FATAL" => some 50
  | "ERROR" => some 40
  | "WARNING" | "WARN" => some 30
  | "INFO" => some 20
  | "VERBOSE" => some 15
  | "DEBUG" => some 10
  | "NOTSET" => some 0
  | _ => none

/-- A text in capitals. -/
def upperString (s : String) : String := String.ofList (Text.upper s.toList)

/-- The level number that a name in any case stands for. -/
def levelNumber? (name : String) : Option Int := levelNumberOfName? (upperString name)

end Recurrence
