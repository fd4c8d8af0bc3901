/-
Recurrence/Expansion/Odometer.lean

Filling all fields in turn.

A chain of generators, coarsest first, is run like an odometer.  A value sends
the run on to the next finer generator, a rollover back to the next coarser
one, and the run is over when the finest has produced a value, when the
coarsest has none left, or when a generator gives up.

The chain knows nothing about its generators but how to ask one for its next
value.  So it is written for any kind of generator over any kind of fields.
-/
import Recurrence.Expansion.Loop
import Recurrence.Expansion.Step

namespace Recurrence

/-- How a generator is asked for its next value of the fields. -/
abbrev Generate (γ φ : Type) := γ → φ → Option (Step × γ × φ)

/-- A chain of generators and the fields in the middle of a run. -/
structure Odometer (γ φ : Type) where
  /-- The place of the generator whose turn it is. -/
  index : Nat
  chain : List γ
  fields : φ

namespace Odometer

/-- Ask one generator, if its place is among the first `count`. -/
def turn (generate : Generate γ φ) (count : Nat) (o : Odometer γ φ) :
    Option (Turn (Odometer γ φ) (Step × List γ × φ)) :=
  match (o.chain.take count)[o.index]? with
  | none => some (.done (.value, o.chain, o.fields))
  | some g =>
    match generate g o.fields with
    | none => none
    | some (step, g, fields) =>
      let chain := o.chain.set o.index g
      match step, o.index with
      | .value, i => some (.again ⟨i + 1, chain, fields⟩)
      | .rollover, i + 1 => some (.again ⟨i, chain, fields⟩)
      | step, _ => some (.done (step, chain, fields))

/-- Run the first `count` generators of a chain, beginning with the one at an
index. -/
def run (generate : Generate γ φ) (bound count index : Nat) (chain : List γ) (fields : φ) :
    Option (Step × List γ × φ) :=
  loop (turn generate count) bound ⟨index, chain, fields⟩

end Odometer

end Recurrence
