/-
Recurrence/Journal/Place.lean

Places for values in a text, and the values written at them.

A place ends with a letter that says how its value is written: as a text, as a
character, or as a number in some base, with a point or with a power of ten.
Before it may stand flags, a least width and a precision.  A width or a
precision is written in the place itself or taken from the values.
-/
import Recurrence.Settings.Config
import Recurrence.Text.Decimal
import Recurrence.Text.Quoted

namespace Recurrence

open Text (Chars)

/-! ### Values as texts -/

mutual

/-- A value as it is shown inside another. -/
def shownValue : ConfigValue → Chars
  | .null => "None".toList
  | .bool b => if b then "True".toList else "False".toList
  | .int n => Text.integer n
  | .text s => Text.quoted s.toList
  | .other => ['?']
  | .list items => '[' :: shownItems items ++ [']']
  | .table entries => '\x7b' :: shownEntries entries ++ ['\x7d']

/-- Values with commas between them. -/
def shownItems : List ConfigValue → Chars
  | [] => []
  | [v] => shownValue v
  | v :: vs => shownValue v ++ ", ".toList ++ shownItems vs

/-- Keys and values with commas between them. -/
def shownEntries : List (String × ConfigValue) → Chars
  | [] => []
  | [(k, v)] => Text.quoted k.toList ++ ": ".toList ++ shownValue v
  | (k, v) :: es =>
    Text.quoted k.toList ++ ": ".toList ++ shownValue v ++ ", ".toList ++ shownEntries es

end

/-- What is written at a place: a value, or all values of an entry together. -/
inductive PlaceValue where
  | one (v : ConfigValue)
  | several (vs : List ConfigValue)

namespace PlaceValue

/-- A value as it is shown inside a text; a comma follows one that stands for
several. -/
def shown : PlaceValue → Chars
  | one v => shownValue v
  | several [v] => '(' :: shownValue v ++ [',', ')']
  | several vs => '(' :: shownItems vs ++ [')']

/-- A value by itself. -/
def plain : PlaceValue → Chars
  | one (.text s) => s.toList
  | v => v.shown

/-- The integer that a value is. -/
def integer? : PlaceValue → Option Int
  | one (.int n) => some n
  | one (.bool b) => some (if b then 1 else 0)
  | _ => none

/-- The character that a value is, by itself or by its code point. -/
def character? : PlaceValue → Option Char
  | one (.text s) => match s.toList with
    | [c] => some c
    | _ => none
  | v => v.integer?.bind fun n =>
    if h : 0 ≤ n ∧ n.toNat.isValidChar then some (Char.ofNatAux n.toNat h.2) else none

end PlaceValue

/-! ### Writing one value -/

/-- How a value is written. -/
structure PlaceLayout where
  flags : Chars
  width : Nat
  precision : Option Nat
  conversion : Char

namespace PlaceLayout

/-- The longest width, and the longest precision of a number, that is written. -/
def maxLength : Nat := 1073741824

/-- The places after the point where no precision is given. -/
def defaultPlaces : Nat := 6

/-- Fill a text to the width: at its end for the flag `-`, else at its start. -/
def fill (p : PlaceLayout) (cs : Chars) : Chars :=
  if '-' ∈ p.flags then cs.rightpad p.width ' ' else cs.leftpad p.width ' '

/-- A text cut to the precision. -/
def cut (p : PlaceLayout) (cs : Chars) : Chars :=
  p.fill (match p.precision with
    | some n => cs.take n
    | none => cs)

/-- The sign of a number: that of a negative one always, that of another as the
flags say. -/
def sign (p : PlaceLayout) (n : Int) : Chars :=
  if n < 0 then ['-'] else if '+' ∈ p.flags then ['+'] else if ' ' ∈ p.flags then [' '] else []

/-- A number filled to the width.  For the flag `0` zeros fill it, behind the sign
and the mark of its base. -/
def fillNumber (p : PlaceLayout) (head body : Chars) : Chars :=
  if '0' ∈ p.flags ∧ '-' ∉ p.flags then head ++ body.leftpad (p.width - head.length) '0'
  else p.fill (head ++ body)

/-- An integer in some base, with at least as many digits as the precision, after
the mark of its base. -/
def whole (p : PlaceLayout) (mark : Chars) (digits : Nat → Chars) (n : Int) : Option Chars :=
  let precision := p.precision.getD 0
  if maxLength < precision then none
  else
    let head := p.sign n ++ if '#' ∈ p.flags then mark else []
    some (p.fillNumber head ((digits n.natAbs).leftpad precision '0'))

/-- A number with a point or a power of ten; the flag `#` keeps the point. -/
def pointed (p : PlaceLayout) (digits : Bool → Nat → Nat → Chars) (n : Int) : Option Chars :=
  let precision := p.precision.getD defaultPlaces
  if maxLength < precision then none
  else (Text.roundBinary? n.natAbs).map fun m =>
    p.fillNumber (p.sign n) (digits (p.flags.contains '#') precision m)

/-- The digits of a number in capitals. -/
def capitalHex (n : Nat) : Chars := (Nat.toDigits 16 n).map Char.toUpper

/-- A number with a power of ten, in capitals. -/
def capitals (digits : Bool → Nat → Nat → Chars) (keepPoint : Bool) (precision n : Nat) : Chars :=
  (digits keepPoint precision n).map Char.toUpper

/-- A number with at most as many digits as the precision, one at least. -/
def short (keepPoint : Bool) (precision n : Nat) : Chars :=
  Text.shortPoint keepPoint (max precision 1) n

/-- A value as its layout says, if it can be written so. -/
def write? (p : PlaceLayout) (v : PlaceValue) : Option Chars :=
  if maxLength < p.width then none
  else match p.conversion with
    | 's' => some (p.cut v.plain)
    | 'r' => some (p.cut v.shown)
    | 'a' => some (p.cut (Text.asciiOnly v.shown))
    | 'c' => v.character?.map fun c => p.fill [c]
    | 'd' | 'i' | 'u' => v.integer?.bind (p.whole [] Text.digits)
    | 'x' => v.integer?.bind (p.whole ['0', 'x'] (Nat.toDigits 16))
    | 'X' => v.integer?.bind (p.whole ['0', 'X'] capitalHex)
    | 'o' => v.integer?.bind (p.whole ['0', 'o'] (Nat.toDigits 8))
    | 'f' | 'F' => v.integer?.bind (p.pointed Text.fixedPoint)
    | 'e' => v.integer?.bind (p.pointed Text.scientific)
    | 'E' => v.integer?.bind (p.pointed (capitals Text.scientific))
    | 'g' => v.integer?.bind (p.pointed short)
    | 'G' => v.integer?.bind (p.pointed (capitals short))
    | _ => none

end PlaceLayout

end Recurrence
