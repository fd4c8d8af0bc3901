/-
Recurrence/Calendar/ZoneName.lean

Offsets written in the names of zones.

A name is cut into runs of letters, runs of digits, single commas, colons and
points, and runs of anything else.  It begins with an abbreviation, and an
offset follows: a sign, and hours, or hours and minutes in four digits or around
a colon.  Plus and no sign mean west, minus means east, but the other way round
after the abbreviations of universal time.  There the name ends, up to one comma
or semicolon.

So an offset alone is no name, and neither is an abbreviation with two offsets.
A name with a second abbreviation would tell a zone that changes its offset
twice a year; those are not known.
-/
import Recurrence.Text.Number

namespace Recurrence.ZoneName

open Text (Chars)

/-! ### Tokens -/

/-- The classes of characters that runs are made of. -/
inductive CharClass where
  | letter | digit | point | rest
deriving DecidableEq

/-- The class of a character. -/
def CharClass.of (c : Char) : CharClass :=
  if c.isAlpha then .letter
  else if c.isDigit then .digit
  else if c = ',' ∨ c = ':' ∨ c = '.' then .point
  else .rest

/-- Put a character before tokens: into the first one, if both are of one class
that makes runs. -/
def consToken (c : Char) : List Chars → List Chars
  | (d :: ds) :: ts =>
    if CharClass.of c = CharClass.of d ∧ CharClass.of c ≠ .point then (c :: d :: ds) :: ts
    else [c] :: (d :: ds) :: ts
  | ts => [c] :: ts

/-- The tokens of a name. -/
def tokens (name : Chars) : List Chars := name.foldr consToken []

/-- Whether a token can belong to an abbreviation. -/
def inAbbreviation (token : Chars) : Bool :=
  token.all fun c => !c.isDigit && !":,-+".toList.contains c

/-! ### Offsets -/

/-- The hours and minutes at the start of tokens, in seconds, and the tokens that
follow. -/
def hoursAndMinutes? : List Chars → Option (Int × List Chars)
  | ds :: ts =>
    if ds.all Char.isDigit then
      let value := Text.digitsValue ds
      if ds.length = 4 then some (value / 100 * 3600 + value % 100 * 60, ts)
      else match ts with
        | [':'] :: ts =>
          match ts with
          | ms :: ts =>
            if ms.all Char.isDigit then some (value * 3600 + Text.digitsValue ms * 60, ts)
            else none
          | [] => none
        | ts => if ds.length ≤ 2 then some (value * 3600, ts) else none
    else none
  | [] => none

/-- The offset at the start of tokens, in seconds east of UTC, and the tokens that
follow. -/
def readOffset? : List Chars → Option (Int × List Chars)
  | ['-'] :: ts => hoursAndMinutes? ts
  | ['+'] :: ts => (hoursAndMinutes? ts).map fun r => (-r.1, r.2)
  | ts => (hoursAndMinutes? ts).map fun r => (-r.1, r.2)

/-- Whether a name may end before these tokens. -/
def isEnd (ts : List Chars) : Bool := ts = [] ∨ ts = [[',']] ∨ ts = [[';']]

/-- The abbreviation that a name begins with, and the offset after it. -/
def readTokens? (ts : List Chars) : Option (Chars × Int) :=
  match ts.takeWhile inAbbreviation with
  | [] => none
  | parts =>
    match readOffset? (ts.dropWhile inAbbreviation) with
    | some (offset, rest) => if isEnd rest then some (parts.flatten, offset) else none
    | none => none

/-- The offset that a name tells, in seconds east of UTC. -/
def offset? (name : String) : Option Int :=
  (readTokens? (tokens name.toList)).map fun (abbreviation, offset) =>
    if abbreviation = "GMT".toList ∨ abbreviation = "UTC".toList then -offset else offset

example : offset? "Etc/GMT+13" = some (-46800) := by decide +kernel
example : offset? "UTC+5:30" = some 19800 := by decide +kernel
example : offset? "Mars" = none := by decide +kernel
example : offset? "+05:30" = none := by decide +kernel
example : offset? "GMT+5+5" = none := by decide +kernel

end Recurrence.ZoneName
