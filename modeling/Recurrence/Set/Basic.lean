/-
Recurrence/Set/Basic.lean

Recurrence sets: the rules, exception rules, dates and exception dates of one
recurring event.

The set keeps its parts in the order in which they were added.  Every cursor
over it begins anew.
-/
import Recurrence.Cursor.Any

namespace Recurrence

/-- The parts of a recurring event. -/
structure RecurrenceSet where
  start : Value
  zone : Zone
  /-- The years that a rule may pass without an instance. -/
  budget : Int
  rules : List Rule := []
  exRules : List Rule := []
  dates : List Value := []
  exDates : List Value := []

namespace RecurrenceSet

/-- A set with one more rule. -/
def addRule (s : RecurrenceSet) (r : Rule) : RecurrenceSet := { s with rules := s.rules ++ [r] }

/-- A set with one more exception rule. -/
def addExRule (s : RecurrenceSet) (r : Rule) : RecurrenceSet :=
  { s with exRules := s.exRules ++ [r] }

/-- A set with more dates. -/
def addDates (s : RecurrenceSet) (vs : List Value) : RecurrenceSet :=
  { s with dates := s.dates ++ vs }

/-- A set with more exception dates. -/
def addExDates (s : RecurrenceSet) (vs : List Value) : RecurrenceSet :=
  { s with exDates := s.exDates ++ vs }

/-- The series of some rules of a set. -/
def seriesOf (s : RecurrenceSet) (bound : Nat) :
    List Rule → Option (Except SeriesError (List Cursor))
  | [] => some (.ok [])
  | r :: rs =>
    match Series.create bound r s.start s.zone s.budget with
    | none => none
    | some (.error e) => some (.error e)
    | some (.ok series) => (seriesOf s bound rs).map fun c => c.map (.series series :: ·)

/-- Listed dates as cursors, none for an empty list. -/
def listedOf (s : RecurrenceSet) (vs : List Value) : Except SeriesError (List Cursor) :=
  if vs.isEmpty then .ok []
  else (DateCursor.ofList vs s.zone).map fun c => [.dates c]

/-- A new cursor over the values of a set, in UTC. -/
def cursor (s : RecurrenceSet) (bound : Nat) : Option (Except SeriesError Cursor) :=
  match s.seriesOf bound s.rules with
  | none => none
  | some (.error e) => some (.error e)
  | some (.ok rules) =>
    match s.seriesOf bound s.exRules with
    | none => none
    | some (.error e) => some (.error e)
    | some (.ok exRules) =>
      match s.listedOf s.dates with
      | .error e => some (.error e)
      | .ok dates =>
        match s.listedOf s.exDates with
        | .error e => some (.error e)
        | .ok exDates => Cursor.merge bound (rules ++ dates) (exRules ++ exDates)

end RecurrenceSet

end Recurrence
