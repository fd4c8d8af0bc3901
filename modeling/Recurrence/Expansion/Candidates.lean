/-
Recurrence/Expansion/Candidates.lean

Candidates: the values that the generators put together and that pass the
filters on the time of day.

Every candidate counts as an instance for the budget of idle years, unless a
later stage chooses among the candidates and counts for itself.
-/
import Recurrence.Expansion.Generator
import Recurrence.Expansion.Odometer

namespace Recurrence

/-- A chain of generators with the fields that they share. -/
structure Candidates where
  chain : List Generator
  fields : Fields
  filter : Filter
  hasTime : Bool
  /-- The generator whose budget a candidate fills up. -/
  credited : Option Nat

namespace Candidates

/-- Run the first generators of the chain from one of them on. -/
def run (bound count index : Nat) (c : Candidates) : Option (Step × Candidates) :=
  (Odometer.run (Generator.generate bound) bound count index c.chain c.fields).map
    fun (step, chain, fields) => (step, { c with chain, fields })

/-- Run the whole chain from its finest generator on. -/
def advance (bound : Nat) (c : Candidates) : Option (Step × Candidates) :=
  c.run bound c.chain.length (c.chain.length - 1)

/-- Fill up the budget of the generator at an index. -/
def credit (c : Candidates) (index : Nat) : Candidates :=
  { c with chain := c.chain.modify index Generator.refill }

/-- Fill up the budget that the candidates themselves count for. -/
def creditOwn (c : Candidates) : Candidates :=
  match c.credited with
  | some i => c.credit i
  | none => c

/-- One try for a candidate. -/
def attempt (bound : Nat) (c : Candidates) :
    Option (Turn Candidates (Except Undefined (Option Value) × Candidates)) :=
  match c.advance bound with
  | none => none
  | some (step, c) =>
    match step with
    | .value =>
      let v := c.fields.toValue c.hasTime
      match c.filter.accepts v with
      | .ok true => some (.done (.ok (some v), c.creditOwn))
      | .ok false => some (.again c)
      | .error why => some (.done (.error why, c))
    | .undefined why => some (.done (.error why, c))
    | _ => some (.done (.ok none, c))

/-- The next candidate in local time, or none once generation stops. -/
def next (bound : Nat) (c : Candidates) : Option (Except Undefined (Option Value) × Candidates) :=
  loop (attempt bound) bound c

end Candidates

end Recurrence
