/-
Recurrence/Text/Word.lean

The characters of words.

A word holds letters and digits of any script, signs that stand for numbers,
and underscores.
-/
import Recurrence.Text.WordTable

namespace Recurrence.Text

/-- Whether a character may stand in a word. -/
def isWordChar (c : Char) : Bool :=
  let n := c.toNat
  if n < 0x80 then c.isAlphanum || c == '_'
  else wordRuns.any fun r => r.1 ≤ n && n ≤ r.2

example : isWordChar 'é' = true ∧ isWordChar '²' = true ∧ isWordChar '-' = false := by
  decide +kernel

end Recurrence.Text
