/-
Recurrence/Expansion/Period.lean

The periods of a frequency.

Two values belong to the same period if they agree in the fields down to the
frequency's own, for weekly rules if they lie in the same week.
-/
import Recurrence.Calendar.Date
import Recurrence.Rule.Frequency

namespace Recurrence

/-- What the values of a period have in common. -/
def periodKey (freq : Frequency) (weekStart : Weekday) (v : Value) : List Int :=
  let timeKey := match v.time with
    | none => []
    | some t => t.key
  match freq with
  | .yearly => [v.date.year]
  | .monthly => [v.date.year, v.date.month]
  | .weekly => [Gregorian.weekStart v.date.dayNumber weekStart.number]
  | .daily => v.date.key
  | .hourly => v.date.key ++ timeKey.take 1
  | .minutely => v.date.key ++ timeKey.take 2
  | .secondly => v.date.key ++ timeKey

/-- The start of the period that holds a value, with a time of day if the value
has one.  A weekly period is only counted from the date of the value on, so
that the days of its week before it never take part. -/
def periodStart (freq : Frequency) (v : Value) : Value :=
  let date : Date := match freq with
    | .yearly => ⟨v.date.year, 1, 1⟩
    | .monthly => ⟨v.date.year, v.date.month, 1⟩
    | _ => v.date
  ⟨date, v.time.map fun t =>
    ⟨if freq.isFinerThan .daily then t.hour else 0,
      if freq.isFinerThan .hourly then t.minute else 0,
      if freq.isFinerThan .minutely then t.second else 0⟩⟩

end Recurrence
