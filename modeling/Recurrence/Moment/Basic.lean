/-
Recurrence/Moment/Basic.lean

Moments: dates and date-times as callers have them.

A moment is a date, a date-time without a zone, or a date-time in a zone, and
date-times have microseconds.  All of them lie in the years 1 to 9999; a
conversion that would leave those years fails.
-/
import Recurrence.Calendar.BasicFormat

namespace Recurrence

/-- A date, or a date-time with or without a zone. -/
inductive Moment where
  | date (d : Date)
  | dateTime (d : Date) (t : TimeOfDay) (micros : Int) (zone : Option Zone)
deriving DecidableEq

/-- A date-time a number of seconds later, within the years 1 to 9999. -/
def shiftWithinYears (d : Date) (t : TimeOfDay) (seconds : Int) :
    Except ConversionError (Date × TimeOfDay) :=
  let (d, t) := carryFields d { t with second := t.second + seconds }
  if 1 ≤ d.year ∧ d.year ≤ 9999 then .ok (d, t) else .error .outOfRange

namespace Zone

/-- The UTC fields of wall-clock fields. -/
def toUtcFields (z : Zone) (d : Date) (t : TimeOfDay) :
    Except ConversionError (Date × TimeOfDay) := do
  let offset ← checkOffset (z.offsetAtLocal (instantOf d t))
  shiftWithinYears d t (-offset)

/-- The wall-clock fields of UTC fields. -/
def fromUtcFields (z : Zone) (d : Date) (t : TimeOfDay) :
    Except ConversionError (Date × TimeOfDay) :=
  shiftWithinYears d t (z.offsetAtInstant (instantOf d t))

end Zone

namespace Moment

/-! ### Moments and values -/

/-- The value of the wall-clock fields. -/
def toValue : Moment → Value
  | date d => .ofDate d
  | dateTime d t _ _ => .ofDateTime d t

/-- The value in UTC; a date-time without a zone is taken to be in the given
one. -/
def toUtcValue (m : Moment) (zone : Zone) : Except ConversionError Value :=
  match m with
  | date d => .ok (.ofDate d)
  | dateTime d t _ own => do
    let (d, t) ← (own.getD zone).toUtcFields d t
    return .ofDateTime d t

/-- The moment in another zone; a date or a date-time without a zone stays as it
is. -/
def inZone (m : Moment) (zone : Zone) : Except ConversionError Moment :=
  match m with
  | dateTime d t micros (some own) =>
    if own = .utc ∧ zone = .utc then .ok m
    else do
      let (d, t) ← own.toUtcFields d t
      let (d, t) ← zone.fromUtcFields d t
      return .dateTime d t micros (some zone)
  | m => .ok m

/-- The zone of a moment. -/
def zone? : Moment → Option Zone
  | date _ => none
  | dateTime _ _ _ zone => zone

/-- Whether a moment has a time of day. -/
def hasTime : Moment → Bool
  | date _ => false
  | dateTime _ _ _ _ => true

/-- The first whole date at or after a moment, by its own fields. -/
def dateBound : Moment → Date
  | date d => d
  | dateTime d t micros _ => if t = .midnight ∧ micros = 0 then d else d.addDays 1

/-! ### Moments as texts -/

/-- A date with hyphens. -/
def dateText (d : Date) : String :=
  String.ofList (Text.zeroFilled 4 d.year ++ '-' :: Text.zeroFilled 2 d.month
    ++ '-' :: Text.zeroFilled 2 d.day)

/-- A time of day with colons. -/
def timeText (t : TimeOfDay) : String :=
  String.ofList (Text.zeroFilled 2 t.hour ++ ':' :: Text.zeroFilled 2 t.minute
    ++ ':' :: Text.zeroFilled 2 t.second)

/-- The microseconds after a point, nothing if there are none. -/
def microsText (micros : Int) : String :=
  if micros = 0 then "" else String.ofList ('.' :: Text.zeroFilled 6 micros)

/-- A date-time with the offset of its zone, if it has one. -/
def text : Moment → String
  | date d => dateText d
  | dateTime d t micros zone =>
    dateText d ++ " " ++ timeText t ++ microsText micros ++ match zone with
      | none => ""
      | some z => Zone.offsetText (z.offsetAtLocal (instantOf d t))

/-- The microseconds that the digits after a point write; more than six digits are
cut off. -/
def readMicros (digits : Text.Chars) : Int := Text.digitsValue ((digits.rightpad 6 '0').take 6)

/-- The date, or the date-time without a zone, that a text with hyphens and colons
writes. -/
def read (s : String) : Except ConversionError Moment :=
  let (main, fraction) := Text.cut '.' s.toList
  match readFields? (main.filter fun c => c ≠ '-' ∧ c ≠ ':') with
  | none => .error .notReal
  | some v => do
    let v ← v.check
    return match v.time with
      | none => .date v.date
      | some t => .dateTime v.date t (readMicros (fraction.getD [])) none

end Moment

/-- A value of the years 1 to 9999 as a moment, its time of day in UTC. -/
def Value.toMoment (v : Value) : Except ConversionError Moment := do
  let v ← v.check
  return match v.time with
    | none => .date v.date
    | some t => .dateTime v.date t 0 (some .utc)

end Recurrence
