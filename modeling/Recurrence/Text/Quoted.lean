/-
Recurrence/Text/Quoted.lean

Texts as they are shown inside messages.

A shown text stands between quotes, single ones unless it holds a single quote
and no double one.  The quote itself, the backslash and the three everyday
control characters are escaped by a backslash; other characters that cannot be
printed are shown by their code point in hexadecimal, as short as it fits into
two, four or eight digits.
-/
import Recurrence.Text.Blank
import Recurrence.Text.PrintableTable

namespace Recurrence.Text

/-- Whether a character can be printed; of all separators only the space can. -/
def isPrintable (c : Char) : Bool :=
  let n := c.toNat
  if n < 0x80 then 0x20 ≤ n && n ≠ 0x7f
  else !unprintableRuns.any fun r => r.1 ≤ n && n ≤ r.2

/-- A number in lower-case hexadecimal digits, filled with zeros to a width. -/
def hex (width n : Nat) : Chars := (Nat.toDigits 16 n).leftpad width '0'

/-- A character shown by its code point. -/
def codePoint (c : Char) : Chars :=
  let n := c.toNat
  if n < 0x100 then '\\' :: 'x' :: hex 2 n
  else if n < 0x10000 then '\\' :: 'u' :: hex 4 n
  else '\\' :: 'U' :: hex 8 n

/-- One character of a shown text. -/
def shownChar (quote c : Char) : Chars :=
  if c = quote ∨ c = '\\' then ['\\', c]
  else if c = '\t' then ['\\', 't']
  else if c = '\n' then ['\\', 'n']
  else if c = '\r' then ['\\', 'r']
  else if isPrintable c then [c]
  else codePoint c

/-- A text with all characters outside ASCII shown by their code points. -/
def asciiOnly (cs : Chars) : Chars :=
  cs.flatMap fun c => if c.toNat < 0x80 then [c] else codePoint c

/-- The quote that a text is shown in. -/
def quoteFor (cs : Chars) : Char := if '\'' ∈ cs ∧ '"' ∉ cs then '"' else '\''

/-- A text between quotes. -/
def quoted (cs : Chars) : Chars :=
  let q := quoteFor cs
  q :: cs.flatMap (shownChar q) ++ [q]

/-- A text between quotes. -/
def quotedString (s : String) : String := String.ofList (quoted s.toList)

example : quotedString "it's" = "\"it's\"" := by decide +kernel
example : quotedString "a\tb" = "'a\\tb'" := by decide +kernel

end Recurrence.Text
