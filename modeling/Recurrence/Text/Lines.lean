/-
Recurrence/Text/Lines.lean

The lines of a text.

A line ends at a line feed, a carriage return, both in that order, a vertical
tab, a form feed, one of the first three information separators, the next-line
control, or a line or paragraph separator.  What follows the last line end is
a line only if it is not empty.
-/
import Recurrence.Text.Blank

namespace Recurrence.Text

/-- Whether a line ends at a character. -/
def isLineEnd (c : Char) : Bool :=
  [0xa, 0xb, 0xc, 0xd, 0x1c, 0x1d, 0x1e, 0x85, 0x2028, 0x2029].contains c.toNat

/-- Put a character before the first line. -/
def consLine (c : Char) : List Chars → List Chars
  | [] => [[c]]
  | l :: ls => (c :: l) :: ls

/-- The lines of a text, without their line ends. -/
def lines : Chars → List Chars
  | [] => []
  | '\r' :: '\n' :: cs => [] :: lines cs
  | c :: cs => if isLineEnd c then [] :: lines cs else consLine c (lines cs)

example : lines "a\r\n\nb".toList = [['a'], [], ['b']] := by decide

end Recurrence.Text
