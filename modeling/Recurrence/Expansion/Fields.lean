/-
Recurrence/Expansion/Fields.lean

The fields of the instance that is being put together.

Generators fill the fields from the year down to the second.  Nothing is
checked here: the generators keep the fields in range, and a start with fields
out of range is taken over as it is.
-/
import Recurrence.Calendar.BasicFormat

namespace Recurrence

/-- One of the six fields of a date-time. -/
inductive Field where
  | year | month | day | hour | minute | second
deriving DecidableEq

/-- The six fields of a date-time. -/
@[ext] structure Fields where
  year : Int
  month : Int := 1
  day : Int := 1
  hour : Int := 0
  minute : Int := 0
  second : Int := 0
deriving DecidableEq, Inhabited

namespace Fields

/-- The fields of a value, with midnight for a plain date. -/
def ofValue (v : Value) : Fields :=
  let t := v.timeOrMidnight
  ⟨v.date.year, v.date.month, v.date.day, t.hour, t.minute, t.second⟩

/-- The date in the fields. -/
def date (f : Fields) : Date := ⟨f.year, f.month, f.day⟩

/-- The time of day in the fields. -/
def time (f : Fields) : TimeOfDay := ⟨f.hour, f.minute, f.second⟩

/-- The value in the fields, with or without the time of day. -/
def toValue (f : Fields) (hasTime : Bool) : Value :=
  if hasTime then .ofDateTime f.date f.time else .ofDate f.date

/-- The day number of the date in the fields. -/
def dayNumber (f : Fields) : Int := f.date.dayNumber

/-- The content of a field. -/
def get (f : Fields) : Field → Int
  | .year => f.year | .month => f.month | .day => f.day
  | .hour => f.hour | .minute => f.minute | .second => f.second

/-- The fields with one of them set. -/
def set (f : Fields) (field : Field) (n : Int) : Fields :=
  match field with
  | .year => { f with year := n }
  | .month => { f with month := n }
  | .day => { f with day := n }
  | .hour => { f with hour := n }
  | .minute => { f with minute := n }
  | .second => { f with second := n }

/-- All fields, coarsest first. -/
def toList (f : Fields) : List Int := [f.year, f.month, f.day, f.hour, f.minute, f.second]

/-- The fields as they are shown. -/
def text (f : Fields) : String :=
  "DateTimeBuilder(" ++ String.intercalate ", " (f.toList.map Text.integerString) ++ ")"

end Fields

/-- The content of a time field of a value, 0 for a plain date. -/
def Value.timeField (v : Value) (field : Field) : Int := ((Fields.ofValue v).get field)

end Recurrence
