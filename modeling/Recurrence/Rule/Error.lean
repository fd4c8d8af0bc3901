/-
Recurrence/Rule/Error.lean

Why a text is no rule, and why a rule is not valid.

Each cause is a constructor and its wording is in one function.  An error also
carries the text of the rule it was found in, where that text is known at the
place that finds the error.
-/
import Recurrence.Rule.Frequency
import Recurrence.Text.Number
import Recurrence.Text.Quoted

namespace Recurrence

/-! ### Texts that cannot be read -/

/-- Why a text cannot be read as a rule, a date, or a content line. -/
inductive ReadFault where
  | emptyRule
  | malformedPart (raw : String)
  | duplicatePart (name : String)
  | missingFrequency
  | unknownFrequency (value : String)
  | notAnInteger (name text : String)
  | badDate (text : String)
  | badDayEntry (text : String)
  | badWeekStart (value : String)
  | unknownPart (name : String)
  | malformedLine (line : String)
  | unsupportedProperty (name : String)
deriving DecidableEq

/-- The wording of a reading fault. -/
def ReadFault.message : ReadFault → String
  | emptyRule => "Empty RRULE"
  | malformedPart raw => "Malformed rule part: " ++ Text.quotedString raw
  | duplicatePart name => "Duplicate rule part: " ++ name
  | missingFrequency => "RRULE is missing FREQ"
  | unknownFrequency value => "Unknown FREQ: " ++ Text.quotedString value
  | notAnInteger name text => name ++ " expects an integer, got " ++ Text.quotedString text
  | badDate text => "Invalid date value: " ++ Text.quotedString text
  | badDayEntry text => "Invalid BYDAY entry: " ++ Text.quotedString text
  | badWeekStart value => "Invalid WKST: " ++ Text.quotedString value
  | unknownPart name => "Unknown rule part: " ++ name
  | malformedLine line => "Malformed content line: " ++ Text.quotedString line
  | unsupportedProperty name => "Unsupported recurrence property: " ++ name

/-! ### Lists of a rule and their ranges -/

/-- The parts of a rule that are lists of integers. -/
inductive ListPart where
  | second | minute | hour | monthDay | yearDay | weekNo | month | setPos
deriving DecidableEq

namespace ListPart

/-- All list parts. -/
def all : List ListPart := [second, minute, hour, monthDay, yearDay, weekNo, month, setPos]

/-- The name of a part in rule texts. -/
def name : ListPart → String
  | second => "BYSECOND" | minute => "BYMINUTE" | hour => "BYHOUR" | monthDay => "BYMONTHDAY"
  | yearDay => "BYYEARDAY" | weekNo => "BYWEEKNO" | month => "BYMONTH" | setPos => "BYSETPOS"

/-- The part that a name in capitals stands for. -/
def ofName? (s : String) : Option ListPart := all.find? fun p => p.name == s

/-- The least magnitude of a part's values. -/
def low : ListPart → Int
  | second | minute | hour => 0
  | monthDay | yearDay | weekNo | month | setPos => 1

/-- The greatest magnitude of a part's values. -/
def high : ListPart → Int
  | second | minute => 59 | hour => 23 | monthDay => 31 | yearDay => 366
  | weekNo => 53 | month => 12 | setPos => 366

/-- Whether a part takes negative values, which count from the end. -/
def isSigned : ListPart → Bool
  | second | minute | hour | month => false
  | monthDay | yearDay | weekNo | setPos => true

/-- Whether a value is within the range of a part. -/
def admits (p : ListPart) (n : Int) : Bool :=
  let size : Int := if p.isSigned then n.natAbs else n
  p.low ≤ size && size ≤ p.high && !(p.isSigned && n == 0)

@[simp] theorem ofName?_name (p : ListPart) : ofName? p.name = some p := by cases p <;> decide

end ListPart

/-! ### Rules that are not valid -/

/-- Why the parts of a rule do not make a rule. -/
inductive PartFault where
  | frequency
  | interval (n : Int)
  | count (n : Int)
  | listValue (part : ListPart) (n : Int)
  | countAndUntil
deriving DecidableEq

/-- The wording of a faulty part. -/
def PartFault.message : PartFault → String
  | frequency =>
    "Input should be 'SECONDLY', 'MINUTELY', 'HOURLY', 'DAILY', 'WEEKLY', 'MONTHLY' or 'YEARLY'"
  | interval n => "INTERVAL must be a positive integer, got " ++ Text.integerString n
  | count n => "COUNT must be a positive integer, got " ++ Text.integerString n
  | listValue p n =>
    p.name ++ " values must be within " ++ (if p.isSigned then "±" else "")
      ++ Text.integerString p.low ++ ".." ++ Text.integerString p.high
      ++ ", got " ++ Text.integerString n
  | countAndUntil => "COUNT and UNTIL cannot both be set"

/-- Why a rule, or the use of one, is not valid. -/
inductive ValidityFault where
  | ordinal (n : Int)
  | parts (faults : List PartFault)
  | needsTimeOfDay (freq : Frequency)
  | unknownZone (name : String)
deriving DecidableEq

/-- The wording of a validity fault. -/
def ValidityFault.message : ValidityFault → String
  | ordinal n => "BYDAY ordinal must be within ±1..53, got " ++ Text.integerString n
  | parts faults =>
    "Invalid recurrence rule: " ++ String.intercalate "; " (faults.map PartFault.message)
  | needsTimeOfDay freq => freq.name ++ " rules need a start with a time of day"
  | unknownZone name => "Unknown time zone: " ++ name

/-! ### Errors -/

/-- An error in a rule, with the text of the rule where it is known. -/
inductive RuleError where
  | unreadable (fault : ReadFault) (ruleText : Option String)
  | invalid (fault : ValidityFault) (ruleText : Option String)
deriving DecidableEq

namespace RuleError

/-- The wording of an error. -/
def message : RuleError → String
  | unreadable fault _ => fault.message
  | invalid fault _ => fault.message

/-- The text of the rule that the error was found in. -/
def ruleText : RuleError → Option String
  | unreadable _ text => text
  | invalid _ text => text

/-- A validity error with the text of the rule added; a reading error as it
is. -/
def withRuleText (text : String) : RuleError → RuleError
  | invalid fault _ => .invalid fault (some text)
  | e => e

end RuleError

end Recurrence
