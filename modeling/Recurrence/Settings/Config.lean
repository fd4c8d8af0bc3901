/-
Recurrence/Settings/Config.lean

Configuration values as they come from outside.

A configuration is a table of values that may be tables themselves.  Of two
tables laid over each other the upper one wins, key by key; where both have a
table under a key, these are laid over each other in turn.
-/
import Recurrence.Text.Number

namespace Recurrence

/-- A value of a configuration. -/
inductive ConfigValue where
  | null
  | bool (b : Bool)
  | int (n : Int)
  | text (s : String)
  /-- A scalar that no setting takes: a number with a fraction or a power of ten,
  or a text with half of a character. -/
  | other
  | list (items : List ConfigValue)
  | table (entries : List (String × ConfigValue))

/-- The entries of a configuration table, in order. -/
abbrev ConfigTable := List (String × ConfigValue)

namespace ConfigValue

/-- Whether a value counts as absent: null, false, the integer zero, or empty. -/
def isEmpty : ConfigValue → Bool
  | null => true
  | bool b => !b
  | int n => n == 0
  | text s => s.isEmpty
  | other => false
  | list items => items.isEmpty
  | table entries => entries.isEmpty

/-- The word for the kind of a value. -/
def kind : ConfigValue → String
  | null => "NoneType" | bool _ => "bool" | int _ => "int" | text _ => "str" | other => "float"
  | list _ => "list" | table _ => "dict"

/-! ### Scalars -/

/-- A text without a fraction of nothing but zeros. -/
def withoutZeroFraction (cs : Text.Chars) : Text.Chars :=
  match Text.cut '.' cs with
  | (whole, some zeros) => if zeros ≠ [] ∧ zeros.all fun c => c == '0' then whole else cs
  | _ => cs

/-- A text without the zeros and underscores at its start, if a zero is the first of
them; a text of nothing else is one zero. -/
def withoutLeadingZeros : Text.Chars → Text.Chars
  | '0' :: cs =>
    match cs.dropWhile fun c => c == '0' || c == '_' with
    | [] => ['0']
    | rest => rest
  | cs => cs

/-- The integer that a text writes in plain digits. -/
def intOfText? (s : String) : Option Int :=
  let (sign, rest) := Text.splitSign (Text.trimBy Text.isNumberBlank s.toList)
  let cs := withoutLeadingZeros (withoutZeroFraction rest)
  if cs.all fun c => c.toNat < 0x80 then
    match Text.groupedDigits? cs with
    | some ds => if Text.maxDigits < ds.length then none else some (sign * Text.digitsValue ds)
    | none => none
  else none

/-- The integer that a value stands for. -/
def int? : ConfigValue → Option Int
  | int n => some n
  | bool b => some (if b then 1 else 0)
  | text s => intOfText? s
  | _ => none

/-- The text that a value is. -/
def text? : ConfigValue → Option String
  | text s => some s
  | _ => none

/-- The table that a value is. -/
def table? : ConfigValue → Option ConfigTable
  | table entries => some entries
  | _ => none

end ConfigValue

/-! ### Tables -/

namespace ConfigTable

/-- The value under a key; the last of several counts. -/
def get? (t : ConfigTable) (key : String) : Option ConfigValue :=
  (t.reverse.find? fun e => e.1 == key).map Prod.snd

/-- The table with a value under a key. -/
def insert (t : ConfigTable) (key : String) (v : ConfigValue) : ConfigTable :=
  if t.any fun e => e.1 == key then t.map fun e => if e.1 == key then (key, v) else e
  else t ++ [(key, v)]

/-- Two values under one key, the upper laid over the lower; both have to be
tables for that, and go at most so many levels down. -/
def overlay : Nat → ConfigTable → ConfigTable → ConfigTable
  | 0, _, upper => upper
  | depth + 1, lower, upper =>
    upper.foldl (fun t (key, v) =>
      match v, get? t key with
      | .table us, some (.table ls) => insert t key (.table (overlay depth ls us))
      | v, _ => insert t key v) lower

/-- Put a value under a path of keys.  A value that stands in the way of the path
stays. -/
def insertAt : List String → ConfigValue → ConfigTable → ConfigTable
  | [], _, t => t
  | [key], v, t => insert t key v
  | key :: keys, v, t =>
    match get? t key with
    | none => insert t key (.table (insertAt keys v []))
    | some (.table inner) => insert t key (.table (insertAt keys v inner))
    | some _ => t

end ConfigTable

end Recurrence
