/-
Recurrence/Cursor/Basic.lean

Forward cursors.

A cursor tells whether it has another value, hands it out, and moves past the
values before a target.  What a cursor is made of is left open: its operations
are a record, so that a merged cursor can be built over any kind of members.
-/
import Recurrence.Expansion.Series

namespace Recurrence

/-- The operations of a kind of cursor. -/
structure CursorOps (ι : Type) where
  hasNext : ι → Answer ι Bool
  next : ι → Answer ι Value
  advanceTo : ι → Value → Answer ι Unit

/-- An answer with the state put into a larger one. -/
def Answer.lift (into : σ → τ) (a : Answer σ α) : Answer τ α := a.map fun (r, s) => (r, into s)

/-- The next value of a cursor, or none if it has no more. -/
def CursorOps.head (ops : CursorOps ι) (c : ι) : Answer ι (Option Value) :=
  match ops.hasNext c with
  | none => none
  | some (.error e, c) => some (.error e, c)
  | some (.ok false, c) => some (.ok none, c)
  | some (.ok true, c) =>
    match ops.next c with
    | none => none
    | some (.error e, c) => some (.error e, c)
    | some (.ok v, c) => some (.ok (some v), c)

/-- At most so many values of a cursor. -/
def CursorOps.take (ops : CursorOps ι) : Nat → ι → Answer ι (List Value)
  | 0, c => some (.ok [], c)
  | n + 1, c =>
    match ops.head c with
    | none => none
    | some (.error e, c) => some (.error e, c)
    | some (.ok none, c) => some (.ok [], c)
    | some (.ok (some v), c) =>
      match ops.take n c with
      | none => none
      | some (.error e, c) => some (.error e, c)
      | some (.ok vs, c) => some (.ok (v :: vs), c)

/-- The operations of series. -/
def Series.ops (bound : Nat) : CursorOps Series where
  hasNext := Series.hasNext bound
  next := Series.next bound
  advanceTo := Series.advanceTo bound

end Recurrence
