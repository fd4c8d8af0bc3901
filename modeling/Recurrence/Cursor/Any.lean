/-
Recurrence/Cursor/Any.lean

Cursors of every kind: a series, listed dates, or a merger of cursors, which
may themselves be mergers.
-/
import Recurrence.Cursor.Dates
import Recurrence.Cursor.Merged

namespace Recurrence

/-- A cursor of any kind. -/
inductive Cursor where
  | series (s : Series)
  | dates (c : DateCursor)
  | merged (m : Merged Cursor)

namespace Cursor

/-- The operations of cursors; the bound also limits how deep mergers may be
nested. -/
def ops : Nat → CursorOps Cursor
  | 0 => ⟨fun _ => none, fun _ => none, fun _ _ => none⟩
  | bound + 1 =>
    { hasNext := fun c => match c with
        | series s => (s.hasNext bound).lift series
        | dates d => (DateCursor.ops.hasNext d).lift dates
        | merged m => (m.hasNext (ops bound) bound).lift merged
      next := fun c => match c with
        | series s => (s.next bound).lift series
        | dates d => (DateCursor.ops.next d).lift dates
        | merged m => (m.next (ops bound) bound).lift merged
      advanceTo := fun c target => match c with
        | series s => (s.advanceTo bound target).lift series
        | dates d => (DateCursor.ops.advanceTo d target).lift dates
        | merged m => (m.advanceTo (ops bound) target).lift merged }

/-- The cursor over the union of some cursors less the values of others. -/
def merge (bound : Nat) (included excluded : List Cursor) : Option (Except SeriesError Cursor) :=
  (Merged.create (ops bound) included excluded).map fun r => r.map merged

/-- A cursor as it is shown. -/
def text : Cursor → String
  | series s => s.text
  | dates d => d.text
  | merged m => m.text

/-- The name of a kind of cursor. -/
def kind : Cursor → String
  | series _ => "RRuleIterator"
  | dates _ => "RDateIterator"
  | merged _ => "CompoundIterator"

/-- The refusal to take a value back out of a cursor. -/
def removalRefused (c : Cursor) : String := c.kind ++ " does not support remove()"

end Cursor

end Recurrence
