/-
Recurrence/Cursor/Merged.lean

The union of several cursors, less the values of others.

The next value of every included cursor waits in a queue, ordered by key and
then by the place of its cursor.  The first of the queue is taken out and its
place refilled at once; it is dropped if it repeats the key of the one before,
and if an excluded cursor produces it.  Excluded cursors are moved on only
when a value overtakes them, and then straight to that value.

Moving ahead moves only the included cursors whose waiting value is before
the target.

Nothing bounds how many values in a row may be excluded.
-/
import Recurrence.Cursor.Basic

namespace Recurrence

/-- A value that waits to be merged. -/
structure Waiting where
  value : Value
  /-- The place of its cursor among the included ones. -/
  index : Nat
deriving DecidableEq

/-- The order of waiting values. -/
def Waiting.before (a b : Waiting) : Bool :=
  a.value.key < b.value.key || (a.value.key == b.value.key && a.index < b.index)

/-- Put a value into an ordered queue. -/
def enqueue (w : Waiting) : List Waiting → List Waiting
  | [] => [w]
  | x :: xs => if w.before x then w :: x :: xs else x :: enqueue w xs

/-- An excluded cursor with its next value. -/
structure Excluded (ι : Type) where
  cursor : ι
  head : Option Value

/-- A forward cursor over the union of some cursors less the values of others. -/
structure Merged (ι : Type) where
  included : List ι
  excluded : List (Excluded ι)
  queue : List Waiting := []
  lastKey : Option (List Int) := none
  pending : Option Value := none

namespace Merged

variable {ι : Type}

/-! ### Making -/

/-- Let the next value of an included cursor wait. -/
def refill (ops : CursorOps ι) (m : Merged ι) (index : Nat) : Answer (Merged ι) Unit :=
  match m.included[index]? with
  | none => some (.ok (), m)
  | some c =>
    match ops.head c with
    | none => none
    | some (r, c) =>
      let m := { m with included := m.included.set index c }
      match r with
      | .error e => some (.error e, m)
      | .ok none => some (.ok (), m)
      | .ok (some value) => some (.ok (), { m with queue := enqueue ⟨value, index⟩ m.queue })

/-- Let the next values of several included cursors wait. -/
def refillAll (ops : CursorOps ι) : List Nat → Merged ι → Answer (Merged ι) Unit
  | [], m => some (.ok (), m)
  | i :: is, m =>
    match m.refill ops i with
    | some (.ok (), m) => refillAll ops is m
    | r => r

/-- Excluded cursors with their first values. -/
def withHeads (ops : CursorOps ι) : List ι → Option (Except SeriesError (List (Excluded ι)))
  | [] => some (.ok [])
  | c :: cs =>
    match ops.head c with
    | none => none
    | some (.error e, _) => some (.error e)
    | some (.ok head, c) => (withHeads ops cs).map fun r => r.map (⟨c, head⟩ :: ·)

/-- The cursor over the union of some cursors less the values of others. -/
def create (ops : CursorOps ι) (included excluded : List ι) :
    Option (Except SeriesError (Merged ι)) :=
  match refillAll ops (List.range included.length) { included, excluded := [] } with
  | none => none
  | some (.error e, _) => some (.error e)
  | some (.ok (), m) =>
    (withHeads ops excluded).map fun r => r.map fun xs => { m with excluded := xs }

/-! ### Stepping -/

/-- Whether an excluded cursor produces a value; cursors that are behind the value
are moved on to it. -/
def excludes (ops : CursorOps ι) (v : Value) :
    List (Excluded ι) → Option (Except SeriesError Bool × List (Excluded ι))
  | [] => some (.ok false, [])
  | x :: xs =>
    let moved : Answer (Excluded ι) Unit :=
      match x.head with
      | some h =>
        if h < v then
          match ops.advanceTo x.cursor v with
          | none => none
          | some (.error e, c) => some (.error e, ⟨c, x.head⟩)
          | some (.ok (), c) =>
            match ops.head c with
            | none => none
            | some (.error e, c) => some (.error e, ⟨c, x.head⟩)
            | some (.ok head, c) => some (.ok (), ⟨c, head⟩)
        else some (.ok (), x)
      | none => some (.ok (), x)
    match moved with
    | none => none
    | some (.error e, x) => some (.error e, x :: xs)
    | some (.ok (), x) =>
      match excludes ops v xs with
      | none => none
      | some (.error e, xs) => some (.error e, x :: xs)
      | some (.ok found, xs) => some (.ok (found || x.head == some v), x :: xs)

/-- Take the first waiting value, and hold it if it is new and not excluded. -/
def turn (ops : CursorOps ι) (m : Merged ι) :
    Option (Turn (Merged ι) (Except SeriesError Bool × Merged ι)) :=
  match m.pending, m.queue with
  | some _, _ => some (.done (.ok true, m))
  | none, [] => some (.done (.ok false, m))
  | none, w :: queue =>
    match { m with queue }.refill ops w.index with
    | none => none
    | some (.error e, m) => some (.done (.error e, m))
    | some (.ok (), m) =>
      let key := w.value.key
      let isNew := match m.lastKey with
        | some last => decide (last < key)
        | none => true
      if !isNew then some (.again m)
      else
        let m := { m with lastKey := some key }
        match excludes ops w.value m.excluded with
        | none => none
        | some (.error e, excluded) => some (.done (.error e, { m with excluded }))
        | some (.ok true, excluded) => some (.again { m with excluded })
        | some (.ok false, excluded) => some (.again { m with excluded, pending := some w.value })

/-- Whether another value is left. -/
def hasNext (ops : CursorOps ι) (bound : Nat) (m : Merged ι) : Answer (Merged ι) Bool :=
  loop (turn ops) bound m

/-- The next value. -/
def next (ops : CursorOps ι) (bound : Nat) (m : Merged ι) : Answer (Merged ι) Value :=
  match m.hasNext ops bound with
  | none => none
  | some (.error e, m) => some (.error e, m)
  | some (.ok _, m) =>
    match m.pending with
    | some v => some (.ok v, { m with pending := none })
    | none => some (.error (.noMoreInstances none), m)

/-! ### Moving ahead -/

/-- Move some of the included cursors to a target, and let their next values
wait. -/
def advanceAll (ops : CursorOps ι) (target : Value) : List Nat → Merged ι → Answer (Merged ι) Unit
  | [], m => some (.ok (), m)
  | i :: is, m =>
    match m.included[i]? with
    | none => advanceAll ops target is m
    | some c =>
      match ops.advanceTo c target with
      | none => none
      | some (.error e, c) => some (.error e, { m with included := m.included.set i c })
      | some (.ok (), c) =>
        match { m with included := m.included.set i c }.refill ops i with
        | some (.ok (), m) => advanceAll ops target is m
        | r => r

/-- Move past the values before a target. -/
def advanceTo (ops : CursorOps ι) (m : Merged ι) (target : Value) : Answer (Merged ι) Unit :=
  let keeps := match m.pending with
    | some v => !decide (v < target)
    | none => false
  if keeps then some (.ok (), m)
  else
    let isStale (w : Waiting) : Bool := w.value.key < target.key
    let stale := m.queue.takeWhile isStale
    advanceAll ops target (stale.map Waiting.index)
      { m with pending := none, queue := m.queue.dropWhile isStale }

/-- A merged cursor as it is shown. -/
def text (m : Merged ι) : String :=
  "CompoundIterator(" ++ Text.integerString m.included.length ++ " inclusions, "
    ++ Text.integerString m.excluded.length ++ " exclusions)"

end Merged

end Recurrence
