/-
Recurrence/Text/Decimal.lean

Whole numbers written with a decimal point.

A number that is to be written so is first rounded to one that fits into a
binary word of 53 digits and a power of two; this one is then written exactly,
or rounded once more to the digits that are asked for.  Both roundings go to
the nearest, a half to the even neighbour.
-/
import Recurrence.Text.Number

namespace Recurrence.Text

/-! ### Rounding -/

/-- The quotient of two numbers, rounded to the nearest; a half goes to the even
neighbour. -/
def roundDiv (n d : Nat) : Nat :=
  if 2 * (n % d) < d ∨ (2 * (n % d) = d ∧ n / d % 2 = 0) then n / d else n / d + 1

/-- The binary digits that are kept of a number. -/
def binaryDigits : Nat := 53

/-- The first power of two that is too large to be written. -/
def binaryLimit : Nat := Nat.pow 2 1024

/-- A number rounded to its leading binary digits, unless it is too large. -/
def roundBinary? (n : Nat) : Option Nat :=
  let unit := Nat.pow 2 (n.log2 + 1 - binaryDigits)
  let rounded := roundDiv n unit * unit
  if rounded < binaryLimit then some rounded else none

/-- So many leading digits of a number, zeros after its last one, and the power
of ten that the first of them counts. -/
def leadingDigits (count n : Nat) : Chars × Nat :=
  let ds := digits n
  if ds.length ≤ count then (ds.rightpad count '0', ds.length - 1)
  else
    let rounded := digits (roundDiv n (Nat.pow 10 (ds.length - count)))
    if rounded.length ≤ count then (rounded, ds.length - 1) else (rounded.take count, ds.length)

/-! ### Writing -/

/-- The digits before and after a decimal point.  The point is left out if no
digits follow it and it need not be kept. -/
def withPoint (keepPoint : Bool) (whole fraction : Chars) : Chars :=
  if fraction.isEmpty && !keepPoint then whole else whole ++ '.' :: fraction

/-- The mark of a power of ten, with two digits at least. -/
def exponentMark (exponent : Nat) : Chars := 'e' :: '+' :: (digits exponent).leftpad 2 '0'

/-- A number with so many digits after the point. -/
def fixedPoint (keepPoint : Bool) (places n : Nat) : Chars :=
  withPoint keepPoint (digits n) (List.replicate places '0')

/-- A number with one digit before the point, so many after it, and a power of
ten. -/
def scientific (keepPoint : Bool) (places n : Nat) : Chars :=
  let (ds, exponent) := leadingDigits (places + 1) n
  withPoint keepPoint (ds.take 1) (ds.drop 1) ++ exponentMark exponent

/-- A number with at most so many digits, and with a power of ten only if they
do not reach the point.  Zeros at the end of the fraction are dropped unless the
point is kept. -/
def shortPoint (keepPoint : Bool) (count n : Nat) : Chars :=
  let (ds, exponent) := leadingDigits count n
  let fits : Bool := exponent < count
  let whole := if fits then exponent + 1 else 1
  let fraction := ds.drop whole
  let fraction := if keepPoint then fraction
    else (fraction.reverse.dropWhile fun c => c == '0').reverse
  withPoint keepPoint (ds.take whole) fraction ++ if fits then [] else exponentMark exponent

example : roundDiv 5 2 = 2 ∧ roundDiv 7 2 = 4 ∧ roundDiv 8 3 = 3 := by decide
example : roundBinary? (2 ^ 53 + 1) = some (2 ^ 53) := by decide +kernel
example : scientific false 3 12345 = "1.234e+04".toList := by decide +kernel
example : shortPoint false 3 99950 = "1e+05".toList := by decide +kernel

end Recurrence.Text
