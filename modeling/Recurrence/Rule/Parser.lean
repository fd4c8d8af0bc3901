/-
Recurrence/Rule/Parser.lean

Reading rules.

A rule text is cut at its semicolons; each piece is a name and a value with an
equals sign between them, in any order, each name at most once.  Blanks around
names and values and the case of letters do not matter, and a leading RRULE
with a colon is dropped.  Names that begin with X- are extensions and ignored.
The frequency is looked up before any other part is read; the first fault in
the order of the text is the one reported, and ranges are checked last.
-/
import Recurrence.Calendar.BasicFormat
import Recurrence.Rule.Basic

namespace Recurrence

open Text (Chars)

/-! ### Single values -/

/-- The integer value of a part. -/
def readInteger (name : String) (cs : Chars) : Except RuleError Int :=
  match Text.readInteger? cs with
  | some n => .ok n
  | none => .error (.unreadable (.notAnInteger name (String.ofList cs)) none)

/-- The integer values of a list part, with commas between them. -/
def readIntegers (name : String) (cs : Chars) : Except RuleError (List Int) :=
  (Text.pieces ',' cs).mapM (readInteger name)

/-- The weekday entries of a list, with commas between them. -/
def readDayEntries (cs : Chars) : Except RuleError (List WeekdayNum) :=
  (Text.pieces ',' cs).mapM WeekdayNum.read

/-- The value that a text in the basic format writes, in any case and with blanks
around it. -/
def Value.read (cs : Chars) : Except RuleError Value :=
  let cs := Text.upper (Text.trim cs)
  match Value.ofChars? cs with
  | some v => .ok v
  | none => .error (.unreadable (.badDate (String.ofList cs)) none)

/-! ### Parts -/

/-- A part of a rule text: a name in capitals and a value without blanks around
it. -/
structure TextPart where
  name : String
  value : Chars
deriving DecidableEq

/-- A name and a value with an equals sign between them, both present. -/
def readPart? (raw : Chars) : Option TextPart :=
  match Text.cut '=' raw with
  | (_, none) => none
  | (name, some value) =>
    let name := Text.upper (Text.trim name)
    let value := Text.trim value
    if name = [] ∨ value = [] then none else some ⟨String.ofList name, value⟩

/-- The parts of the pieces of a rule text; blank pieces are skipped. -/
def readParts (text : String) : List Chars → List String → Except RuleError (List TextPart)
  | [], _ => .ok []
  | raw :: raws, seen =>
    if Text.trim raw = [] then readParts text raws seen
    else match readPart? raw with
      | none => .error (.unreadable (.malformedPart (String.ofList raw)) (some text))
      | some part =>
        if part.name ∈ seen then .error (.unreadable (.duplicatePart part.name) (some text))
        else (readParts text raws (part.name :: seen)).map (part :: ·)

/-- A rule text without blanks around it and without the name of its
property. -/
def ruleBody (cs : Chars) : Chars :=
  let cs := Text.trim cs
  if (Text.afterStart? "RRULE:".toList (Text.upper cs)).isSome then cs.drop 6 else cs

/-- The parts of a rule text. -/
def splitRule (cs : Chars) : Except RuleError (List TextPart) :=
  let body := ruleBody cs
  readParts (String.ofList body) (Text.pieces ';' body) []

/-- Add a part of the rule text to the parts that have been read. -/
def RuleParts.add (text : String) (r : RuleParts) (part : TextPart) : Except RuleError RuleParts :=
  match part.name with
  | "FREQ" => .ok r
  | "INTERVAL" => do return { r with interval := ← readInteger part.name part.value }
  | "COUNT" => do return { r with count := some (← readInteger part.name part.value) }
  | "UNTIL" => do return { r with untilBound := some (← Value.read part.value) }
  | "BYDAY" => do return { r with byDay := ← readDayEntries part.value }
  | "WKST" =>
    match Weekday.ofText? part.value with
    | some d => .ok { r with weekStart := d }
    | none => .error (.unreadable (.badWeekStart (String.ofList part.value)) (some text))
  | name =>
    match ListPart.ofName? name with
    | some list => do return r.withValues list (← readIntegers name part.value)
    | none =>
      if (Text.afterStart? "X-".toList name.toList).isSome then .ok r
      else .error (.unreadable (.unknownPart name) (some text))

/-! ### Rules -/

/-- The frequency that the parts of a rule text name. -/
def readFrequency (text : String) (parts : List TextPart) : Except RuleError Frequency :=
  match parts.find? fun part => part.name == "FREQ" with
  | none => .error (.unreadable .missingFrequency (some text))
  | some part =>
    match Frequency.ofName? (String.ofList (Text.upper part.value)) with
    | some freq => .ok freq
    | none => .error (.unreadable (.unknownFrequency (String.ofList part.value)) none)

/-- The rule that the parts of a rule text make. -/
def ruleOfParts (text : String) (freq : Frequency) (parts : List TextPart) :
    Except RuleError Rule := do
  let r ← parts.foldlM (RuleParts.add text) {}
  RuleDraft.build { r with freq := some freq }

/-- The rule that a text writes. -/
def Rule.parse (text : String) : Except RuleError Rule :=
  if Text.trim text.toList = [] then .error (.unreadable .emptyRule none)
  else do
    let parts ← splitRule text.toList
    let freq ← readFrequency text parts
    (ruleOfParts text freq parts).mapError (RuleError.withRuleText text)

/-! ### Sources -/

/-- A rule, or a text that writes one and is read when the rule is needed. -/
inductive RuleSource where
  | rule (r : Rule)
  | text (s : String)

/-- The rule of a source. -/
def RuleSource.read : RuleSource → Except RuleError Rule
  | rule r => .ok r
  | text s => Rule.parse s

end Recurrence
