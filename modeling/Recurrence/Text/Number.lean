/-
Recurrence/Text/Number.lean

Integers in texts.

They are written in base ten, with a sign only if negative; a minimal width is
filled with zeros between sign and digits, the sign counting towards it.  They
are read more liberally: blanks around them, either sign, digits of any script
and single underscores between digits.  A number of more than 4300 digits is
refused.
-/
import Recurrence.Text.Blank
import Recurrence.Text.DecimalDigit

namespace Recurrence.Text

/-! ### Writing -/

/-- The digits of a number in base ten. -/
def digits (n : Nat) : Chars := Nat.toDigits 10 n

/-- An integer filled with zeros to a width, the minus sign included. -/
def zeroFilled (width : Nat) (n : Int) : Chars :=
  if n < 0 then '-' :: (digits n.natAbs).leftpad (width - 1) '0'
  else (digits n.toNat).leftpad width '0'

/-- An integer in base ten. -/
def integer (n : Int) : Chars := zeroFilled 0 n

/-- An integer in base ten. -/
def integerString (n : Int) : String := String.ofList (integer n)

/-- Integers between brackets, as lists are shown. -/
def integerList (ns : List Int) : String :=
  "[" ++ String.ofList (joined [',', ' '] (ns.map integer)) ++ "]"

/-! ### Reading -/

/-- The longest number that is read. -/
def maxDigits : Nat := 4300

/-- The digits of a text in which single underscores may stand between digits. -/
def groupedDigits? : Chars → Option Chars
  | [] => none
  | [c] => if isDecimalDigit c then some [c] else none
  | c :: '_' :: d :: cs =>
    if isDecimalDigit c then (groupedDigits? (d :: cs)).map (c :: ·) else none
  | c :: d :: cs =>
    if isDecimalDigit c then (groupedDigits? (d :: cs)).map (c :: ·) else none

/-- A sign before a number, and what follows it. -/
def splitSign : Chars → Int × Chars
  | '+' :: cs => (1, cs)
  | '-' :: cs => (-1, cs)
  | cs => (1, cs)

/-- The integer that a text writes. -/
def readInteger? (cs : Chars) : Option Int :=
  let (sign, rest) := splitSign (trimBy isNumberBlank cs)
  match groupedDigits? rest with
  | none => none
  | some ds => if maxDigits < ds.length then none else some (sign * digitsValue ds)

example : readInteger? " +1_0 ".toList = some 10 := by decide +kernel
example : readInteger? "1__0".toList = none := by decide +kernel
example : zeroFilled 4 (-5) = "-005".toList := by decide +kernel

end Recurrence.Text
