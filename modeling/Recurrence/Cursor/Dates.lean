/-
Recurrence/Cursor/Dates.lean

Listed dates as a cursor.

The listed values are turned into UTC, sorted, and each kept once.  The cursor
stands before the values that are left; moving ahead drops those before the
target.
-/
import Recurrence.Calendar.Ascending
import Recurrence.Cursor.Basic

namespace Recurrence

/-- A forward cursor over listed values. -/
structure DateCursor where
  /-- All values in UTC, ascending and each once. -/
  values : List Value
  /-- The values that have not been handed out or passed over. -/
  rest : List Value
deriving DecidableEq

namespace DateCursor

/-- The distinct UTC values of wall-clock values, ascending. -/
def utcValues (vs : List Value) (zone : Zone) : Except ConversionError (List Value) := do
  let utc ← vs.mapM fun v => v.toUtc zone
  return ascending (fun a b => decide (a < b)) utc

/-- A cursor over listed wall-clock values of a zone. -/
def ofList (vs : List Value) (zone : Zone) : Except SeriesError DateCursor :=
  match utcValues vs zone with
  | .error e => .error (.conversion e)
  | .ok utc => .ok ⟨utc, utc⟩

/-- Whether a value is left. -/
def hasNext (c : DateCursor) : Bool := !c.rest.isEmpty

/-- The next value. -/
def next (c : DateCursor) : Except SeriesError Value × DateCursor :=
  match c.rest with
  | v :: rest => (.ok v, { c with rest })
  | [] => (.error .noMoreDates, c)

/-- Move past the values before a target. -/
def advanceTo (c : DateCursor) (target : Value) : DateCursor :=
  { c with rest := c.rest.dropWhile fun v => v < target }

/-- A cursor over listed values as it is shown. -/
def text (c : DateCursor) : String :=
  "RDateIterator([" ++ String.intercalate ", " (c.values.map fun v => Text.quotedString v.text)
    ++ "])"

/-- The operations of cursors over listed values. -/
def ops : CursorOps DateCursor where
  hasNext := fun c => some (.ok c.hasNext, c)
  next := fun c => some c.next
  advanceTo := fun c target => some (.ok (), c.advanceTo target)

end DateCursor

end Recurrence
