/-
Recurrence/Calendar/BasicFormat.lean

The basic written format of values: eight digits for a date, and for a
date-time also the letter T and six digits.

Written years have at least four characters and the other fields at least two.
A reader takes exactly four and two digits of any script, an optional letter Z
after a time, and only dates and times that exist in the years 1 to 9999.
-/
import Recurrence.Calendar.Zone
import Recurrence.Text.Number
import Recurrence.Text.Upper

namespace Recurrence

/-! ### Writing -/

/-- A date in the basic format. -/
def Date.chars (d : Date) : Text.Chars :=
  Text.zeroFilled 4 d.year ++ Text.zeroFilled 2 d.month ++ Text.zeroFilled 2 d.day

/-- A time of day in the basic format. -/
def TimeOfDay.chars (t : TimeOfDay) : Text.Chars :=
  Text.zeroFilled 2 t.hour ++ Text.zeroFilled 2 t.minute ++ Text.zeroFilled 2 t.second

/-- A value in the basic format. -/
def Value.chars (v : Value) : Text.Chars :=
  v.date.chars ++ match v.time with
    | none => []
    | some t => 'T' :: t.chars

/-- A value in the basic format. -/
def Value.text (v : Value) : String := String.ofList v.chars

/-! ### Reading -/

/-- A number of exactly so many digits at the start of a text, and the rest. -/
def takeNumber? (width : Nat) (cs : Text.Chars) : Option (Int × Text.Chars) :=
  let ds := cs.take width
  if ds.length = width ∧ ds.all Text.isDecimalDigit then
    some (Text.digitsValue ds, cs.drop width)
  else none

/-- The time of day after the letter T. -/
def readTime? (cs : Text.Chars) : Option TimeOfDay := do
  let (hour, cs) ← takeNumber? 2 cs
  let (minute, cs) ← takeNumber? 2 cs
  let (second, cs) ← takeNumber? 2 cs
  if cs = [] ∨ cs = ['Z'] then some ⟨hour, minute, second⟩ else none

/-- The fields that a text in the basic format writes, whether or not they are
those of a real date. -/
def readFields? (cs : Text.Chars) : Option Value := do
  let (year, cs) ← takeNumber? 4 cs
  let (month, cs) ← takeNumber? 2 cs
  let (day, cs) ← takeNumber? 2 cs
  match cs with
  | [] => some (.ofDate ⟨year, month, day⟩)
  | 'T' :: cs => (readTime? cs).map (.ofDateTime ⟨year, month, day⟩)
  | _ => none

/-- The value that a text in the basic format writes. -/
def Value.ofChars? (cs : Text.Chars) : Option Value :=
  match readFields? cs with
  | none => none
  | some v => v.check.toOption

example : (Value.ofChars? "19970902T090000Z".toList).map Value.text = some "19970902T090000" := by
  decide +kernel
example : Value.ofChars? "19970229".toList = none := by decide +kernel

end Recurrence
