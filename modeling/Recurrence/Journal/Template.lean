/-
Recurrence/Journal/Template.lean

Texts with places for values.

A place begins with a percent sign, and two percent signs stand for one.  Places
without a name take the values one after another, and all values have to be
taken.  A name in parentheses looks its value up; the value then serves its
place alone, also as a width or a precision, and may be left over.
-/
import Recurrence.Journal.Place
import Recurrence.Text.Word

namespace Recurrence

open Text (Chars)

/-- A number in a place: written there, or taken from the values. -/
inductive PlaceCount where
  | written (n : Nat)
  | taken

/-- A place for a value in a template. -/
structure Place where
  name : Option String
  flags : Chars
  width : PlaceCount
  precision : Option PlaceCount
  conversion : Char

/-- A stretch of text, or a place for a value. -/
inductive TemplatePiece where
  | literal (c : Char)
  | place (p : Place)

/-! ### Reading templates -/

/-- Whether a character is a flag of a place. -/
def isPlaceFlag (c : Char) : Bool := "#0- +".toList.contains c

/-- The text up to the parenthesis that closes the one before it, and the rest;
parentheses between them come in pairs.  So many are open already. -/
def closeParenthesis? : Nat → Chars → Option (Chars × Chars)
  | _, [] => none
  | 0, ')' :: cs => some ([], cs)
  | depth + 1, ')' :: cs => (closeParenthesis? depth cs).map fun r => (')' :: r.1, r.2)
  | depth, '(' :: cs => (closeParenthesis? (depth + 1) cs).map fun r => ('(' :: r.1, r.2)
  | depth, c :: cs => (closeParenthesis? depth cs).map fun r => (c :: r.1, r.2)

/-- The name of a place in parentheses, if it has one. -/
def readPlaceName? : Chars → Option (Option String × Chars)
  | '(' :: cs => (closeParenthesis? 0 cs).map fun r => (some (String.ofList r.1), r.2)
  | cs => some (none, cs)

/-- The number in a place, zero if there is none. -/
def readPlaceCount : Chars → PlaceCount × Chars
  | '*' :: cs => (.taken, cs)
  | cs => (.written (Text.digitsValue (cs.takeWhile Char.isDigit)), cs.dropWhile Char.isDigit)

/-- The precision after a point, if there is one. -/
def readPrecision : Chars → Option PlaceCount × Chars
  | '.' :: cs => let (count, rest) := readPlaceCount cs; (some count, rest)
  | cs => (none, cs)

/-- A text without a size letter at its start, which says nothing here. -/
def dropSize : Chars → Chars
  | c :: cs => if c = 'h' ∨ c = 'l' ∨ c = 'L' then cs else c :: cs
  | [] => []

/-- The place after a percent sign, and the rest of the template. -/
def readPlace? (cs : Chars) : Option (Place × Chars) := do
  let (name, cs) ← readPlaceName? cs
  let flags := cs.takeWhile isPlaceFlag
  let (width, cs) := readPlaceCount (cs.dropWhile isPlaceFlag)
  let (precision, cs) := readPrecision cs
  match dropSize cs with
  | conversion :: rest => some (⟨name, flags, width, precision, conversion⟩, rest)
  | [] => none

/-- The pieces of a template of at most so many characters. -/
def readTemplate? : Nat → Chars → Option (List TemplatePiece)
  | _, [] => some []
  | 0, _ => none
  | n + 1, '%' :: '%' :: cs => (readTemplate? n cs).map (.literal '%' :: ·)
  | n + 1, '%' :: cs =>
    match readPlace? cs with
    | none => none
    | some (p, rest) => (readTemplate? n rest).map (.place p :: ·)
  | n + 1, c :: cs => (readTemplate? n cs).map (.literal c :: ·)

/-- The pieces of a template. -/
def templatePieces? (template : String) : Option (List TemplatePiece) :=
  readTemplate? template.length template.toList

/-! ### Filling templates -/

/-- The values that wait for places. -/
inductive PlaceSupply where
  /-- Values for one place after another, all of which have to be taken. -/
  | queue (vs : List PlaceValue)
  /-- At most one value, which may be left over. -/
  | spare (v : Option PlaceValue)

namespace PlaceSupply

/-- The next value, and those that wait after it. -/
def take? : PlaceSupply → Option (PlaceValue × PlaceSupply)
  | queue (v :: vs) => some (v, queue vs)
  | queue [] => none
  | spare (some v) => some (v, spare none)
  | spare none => none

/-- Whether a template may end here. -/
def isSpent : PlaceSupply → Bool
  | queue vs => vs.isEmpty
  | spare _ => true

/-- The number in a place, and the values that wait after it. -/
def count? (s : PlaceSupply) : PlaceCount → Option (Int × PlaceSupply)
  | .written n => some (n, s)
  | .taken => s.take?.bind fun (v, s) => v.integer?.map fun n => (n, s)

end PlaceSupply

/-- The first precision that is too large. -/
def precisionLimit : Int := 2147483648

/-- How a place writes its value, and the values that wait after those that its
width and its precision take.  A negative width moves the value to the left, and a
negative precision counts as zero. -/
def Place.layout? (p : Place) (s : PlaceSupply) : Option (PlaceLayout × PlaceSupply) := do
  let (width, s) ← s.count? p.width
  let flags := if width < 0 then '-' :: p.flags else p.flags
  match p.precision with
  | none => return (⟨flags, width.natAbs, none, p.conversion⟩, s)
  | some count =>
    let (precision, s) ← s.count? count
    if -precisionLimit ≤ precision ∧ precision < precisionLimit then
      return (⟨flags, width.natAbs, some precision.toNat, p.conversion⟩, s)
    else none

/-- Write values at the places of a template: those that wait, or those that the
names of the places stand for. -/
def fillPieces? (named : String → Option PlaceValue) :
    PlaceSupply → List TemplatePiece → Option Chars
  | s, [] => if s.isSpent then some [] else none
  | s, .literal c :: ps => (fillPieces? named s ps).map (c :: ·)
  | s, .place p :: ps => do
    let s ← match p.name with
      | some name => (named name).map fun v => .spare (some v)
      | none => some s
    let (layout, s) ← p.layout? s
    let (v, s) ← s.take?
    let head ← layout.write? v
    let rest ← fillPieces? named s ps
    return head ++ rest

/-- A template with values written at its places. -/
def fillWith? (named : String → Option PlaceValue) (s : PlaceSupply) (template : String) :
    Option String :=
  (templatePieces? template).bind fun ps => (fillPieces? named s ps).map String.ofList

/-- A template with the values of an entry written.  Without values it is taken as
it is.  A table that is the only value lends its entries to the names, and
itself to the first place if that has no name. -/
def fillTemplate? (template : String) (vs : List ConfigValue) : Option String :=
  match vs with
  | [] => some template
  | [.table (e :: es)] =>
    fillWith? (fun name => (ConfigTable.get? (e :: es) name).map .one)
      (.spare (some (.one (.table (e :: es))))) template
  | vs => fillWith? (fun _ => none) (.queue (vs.map .one)) template

example : fillTemplate? "%-*d|%%" [.int 4, .int 7] = some "7   |%" := by decide +kernel
example : fillTemplate? "%(a)s %.1e" [.table [("a", .int 1)]] = none := by decide +kernel

/-! ### Templates that name a value -/

/-- A text without a number or an asterisk at its start; the digits may be of any
script. -/
def dropCount : Chars → Chars
  | '*' :: cs => cs
  | cs => cs.dropWhile Text.isDecimalDigit

/-- Whether a character is taken for the letter at the end of a place, in any case.
The long s and the dotted and the dotless i count as s and i. -/
def endsPlace (c : Char) : Bool :=
  "diouxefgcrsa%ſıİ".toList.contains c.toLower

/-- Whether a named place begins here, after its percent sign.  A point has to be
followed by a precision. -/
def opensNamedPlace : Chars → Bool
  | '(' :: cs =>
    match cs.span Text.isWordChar with
    | (_ :: _, ')' :: cs) =>
      let cs := dropCount (cs.dropWhile isPlaceFlag)
      let rest := match cs with
        | '.' :: ds => if dropCount ds = ds then cs else dropCount ds
        | cs => cs
      (rest.head?.map endsPlace).getD false
    | _ => false
  | _ => false

/-- Whether a template has a named place. -/
def hasNamedPlace : Chars → Bool
  | [] => false
  | '%' :: cs => opensNamedPlace cs || hasNamedPlace cs
  | _ :: cs => hasNamedPlace cs

end Recurrence
