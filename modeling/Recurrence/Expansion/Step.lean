/-
Recurrence/Expansion/Step.lean

What a generator answers.

A generator fills its field with the next value, or has no value left in the
current period, or gives up on the whole series.  A generator or filter whose
parameters make no sense, such as an interval of zero, answers that its value
is undefined; no valid rule makes one.
-/

namespace Recurrence

/-- Why a generator or a filter has no defined answer. -/
inductive Undefined where
  /-- Steps of an interval of zero. -/
  | zeroInterval
  /-- A field below zero where positions are counted from zero. -/
  | negativePosition
  /-- A position that no table of positions reaches. -/
  | uncountablePosition
  /-- A position that only a table of positions too large to be kept reaches. -/
  | distantPosition
deriving DecidableEq

namespace Undefined

/-- The first position that no table reaches. -/
def uncountable : Int := 69175290276410818321

/-- The first position that only a table too large to be kept reaches. -/
def distant : Int := 274877906944

/-- Check that a position can be looked up in a table. -/
def checkPosition (n : Int) : Except Undefined Unit :=
  if n < 0 then .error negativePosition
  else if uncountable ≤ n then .error uncountablePosition
  else if distant ≤ n then .error distantPosition
  else .ok ()

end Undefined

/-- The outcome of asking a generator for its next value. -/
inductive Step where
  /-- The field is set. -/
  | value
  /-- No value remains in this period; a coarser field has to move on. -/
  | rollover
  /-- The whole series is given up. -/
  | halt
  | undefined (why : Undefined)
deriving DecidableEq

/-- The word for an outcome. -/
def Step.name : Step → String
  | value => "value"
  | rollover => "rollover"
  | halt => "halt"
  | undefined _ => "undefined"

end Recurrence
