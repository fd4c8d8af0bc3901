/-
Recurrence/Calendar/Carry.lean

Moving a date-time by seconds.

Seconds carry into minutes, minutes into hours, hours into days, and days into
months and years through the day number.  All carries round down, so negative
fields borrow.  The result is the one real date-time of the same instant.
-/
import Recurrence.Calendar.Date

namespace Recurrence

/-- The number of seconds in a day. -/
def secondsPerDay : Int := 86400

/-- Bring the fields of a date-time into their ranges by carrying. -/
def carryFields (d : Date) (t : TimeOfDay) : Date × TimeOfDay :=
  let minutes := t.minute + t.second / 60
  let hours := t.hour + minutes / 60
  (Date.ofDayNumber (d.dayNumber + hours / 24), ⟨hours % 24, minutes % 60, t.second % 60⟩)

/-- The seconds from the start of day 0 to a date-time. -/
def instantOf (d : Date) (t : TimeOfDay) : Int := d.dayNumber * secondsPerDay + t.seconds

/-- The date-time a number of seconds later; a value without a time of day
stays as it is. -/
def Value.addSeconds (v : Value) (seconds : Int) : Value :=
  match v.time with
  | none => v
  | some t =>
    let (d, t) := carryFields v.date { t with second := t.second + seconds }
    .ofDateTime d t

end Recurrence
