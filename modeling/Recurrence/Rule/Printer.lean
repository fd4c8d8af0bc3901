/-
Recurrence/Rule/Printer.lean

Rules as texts.

The parts are written in a fixed order with semicolons between them.  Parts at
their default are left out: an interval of one, empty lists, weeks that start
on Monday.  An end with a time of day is in UTC and says so by a final Z.
-/
import Recurrence.Calendar.BasicFormat
import Recurrence.Rule.Basic

namespace Recurrence

/-- A part with its name. -/
def namedPart (name : String) (value : Text.Chars) : Text.Chars := name.toList ++ '=' :: value

/-- A list part, or nothing for the empty list. -/
def listPart? (name : String) (items : List Text.Chars) : Option Text.Chars :=
  if items = [] then none else some (namedPart name (Text.joined [','] items))

namespace Rule

/-- The end of a rule, in UTC if it has a time of day. -/
def untilChars (v : Value) : Text.Chars := v.chars ++ if v.hasTime then ['Z'] else []

/-- A list part of a rule, or nothing for the empty list. -/
def listChars? (r : Rule) (part : ListPart) : Option Text.Chars :=
  listPart? part.name ((r.values part).map Text.integer)

/-- The written parts of a rule. -/
def partChars (r : Rule) : List Text.Chars :=
  [some (namedPart "FREQ" r.freq.name.toList),
    r.untilBound.map fun v => namedPart "UNTIL" (untilChars v),
    r.count.map fun n => namedPart "COUNT" (Text.integer n),
    if r.interval = 1 then none else some (namedPart "INTERVAL" (Text.integer r.interval)),
    r.listChars? .second, r.listChars? .minute, r.listChars? .hour,
    listPart? "BYDAY" (r.byDay.map WeekdayNum.chars),
    r.listChars? .monthDay, r.listChars? .yearDay, r.listChars? .weekNo, r.listChars? .month,
    r.listChars? .setPos,
    if r.weekStart = .mo then none else some (namedPart "WKST" r.weekStart.code.toList)].filterMap id

/-- A rule as text. -/
def chars (r : Rule) : Text.Chars := Text.joined [';'] r.partChars

/-- A rule as text. -/
def text (r : Rule) : String := String.ofList r.chars

end Rule

end Recurrence
