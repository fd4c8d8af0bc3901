/-
Recurrence/Text/Blank.lean

Blanks around texts, and the pieces between separators.

Texts are lists of characters in this library: a rule, a content line and a
part of either are cut and trimmed many times, and lists make each cut a
plain recursion.
-/

namespace Recurrence.Text

/-- A text as the readers see it. -/
abbrev Chars := List Char

/-- The code points of all blanks: spaces, line and paragraph ends, and the four
information separators. -/
def blankCodes : List Nat :=
  [0x9, 0xa, 0xb, 0xc, 0xd, 0x1c, 0x1d, 0x1e, 0x1f, 0x20, 0x85, 0xa0, 0x1680, 0x2000, 0x2001,
   0x2002, 0x2003, 0x2004, 0x2005, 0x2006, 0x2007, 0x2008, 0x2009, 0x200a, 0x2028, 0x2029,
   0x202f, 0x205f, 0x3000]

/-- Whether a character is a blank. -/
def isBlank (c : Char) : Bool := blankCodes.contains c.toNat

/-- Whether a character may surround a number.  The four information separators
may not, though they are blanks elsewhere. -/
def isNumberBlank (c : Char) : Bool := isBlank c && !(0x1c ≤ c.toNat && c.toNat ≤ 0x1f)

/-- Drop the characters of a class from both ends. -/
def trimBy (p : Char → Bool) (cs : Chars) : Chars :=
  ((cs.dropWhile p).reverse.dropWhile p).reverse

/-- A text without the blanks at its ends. -/
def trim (cs : Chars) : Chars := trimBy isBlank cs

/-- The pieces between the occurrences of a separator; a text without it is one
piece, also the empty text. -/
def pieces (sep : Char) : Chars → List Chars
  | [] => [[]]
  | c :: cs =>
    match pieces sep cs with
    | [] => [[c]]
    | p :: ps => if c = sep then [] :: p :: ps else (c :: p) :: ps

/-- The text before the first occurrence of a separator and, if there is one,
the text after it. -/
def cut (sep : Char) : Chars → Chars × Option Chars
  | [] => ([], none)
  | c :: cs =>
    if c = sep then ([], some cs)
    else
      let (head, rest) := cut sep cs
      (c :: head, rest)

/-- Pieces put together with a separator between them. -/
def joined (sep : Chars) (ps : List Chars) : Chars := (ps.intersperse sep).flatten

/-- The rest of a text after a given beginning, if it has that beginning. -/
def afterStart? : Chars → Chars → Option Chars
  | [], cs => some cs
  | _ :: _, [] => none
  | p :: ps, c :: cs => if p = c then afterStart? ps cs else none

end Recurrence.Text
