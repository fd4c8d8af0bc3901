/-
Recurrence/Settings/Json.lean

Configuration values written as JSON.

The readers follow the grammar: blanks, texts, numbers and words first, then
lists and tables of values.  Each takes its part from the front of a text and
leaves the rest.  Three words beyond the grammar stand for numbers that are
not finite.  Of several values under one key the last counts.
-/
import Recurrence.Settings.Config

namespace Recurrence.Json

open Text (Chars)

/-- Why a text is no configuration value. -/
inductive Fault where
  | malformed
  /-- Lists and tables lie too deep in each other. -/
  | tooDeep
deriving DecidableEq

/-- A text without the blanks at its start. -/
def skipBlanks (cs : Chars) : Chars := cs.dropWhile fun c => " \t\n\r".toList.contains c

/-! ### Texts -/

/-- The value of a hexadecimal digit. -/
def hexValue? (c : Char) : Option Nat :=
  if c.isDigit then some (c.toNat - '0'.toNat)
  else if 'a' ≤ c ∧ c ≤ 'f' then some (c.toNat - 'a'.toNat + 10)
  else if 'A' ≤ c ∧ c ≤ 'F' then some (c.toNat - 'A'.toNat + 10)
  else none

/-- The number that four hexadecimal digits write. -/
def codeUnit? (a b c d : Char) : Option Nat :=
  [a, b, c, d].foldlM (fun n c => (hexValue? c).map fun v => 16 * n + v) 0

/-- The character that a letter after a backslash stands for. -/
def escaped? : Char → Option Char
  | '"' => some '"' | '\\' => some '\\' | '/' => some '/' | 'b' => some '\x08' | 'f' => some '\x0c'
  | 'n' => some '\n' | 'r' => some '\r' | 't' => some '\t'
  | _ => none

/-- The code points of a text up to its closing quote, and what follows that. -/
def readCodePoints? : Chars → Option (List Nat × Chars)
  | [] => none
  | '"' :: cs => some ([], cs)
  | '\\' :: 'u' :: a :: b :: c :: d :: cs => do
    let n ← codeUnit? a b c d
    let (ns, rest) ← readCodePoints? cs
    return (n :: ns, rest)
  | '\\' :: e :: cs => do
    let c ← escaped? e
    let (ns, rest) ← readCodePoints? cs
    return (c.toNat :: ns, rest)
  | c :: cs => do
    if c.toNat < 0x20 then none
    let (ns, rest) ← readCodePoints? cs
    return (c.toNat :: ns, rest)

/-- Code points with the two halves of each character put together. -/
def joinHalves : List Nat → List Nat
  | high :: low :: ns =>
    if 0xd800 ≤ high ∧ high ≤ 0xdbff ∧ 0xdc00 ≤ low ∧ low ≤ 0xdfff then
      (0x10000 + (high - 0xd800) * 0x400 + (low - 0xdc00)) :: joinHalves ns
    else high :: joinHalves (low :: ns)
  | ns => ns

/-- The text of code points, a mark in the place of each that is half a character. -/
def textOf (ns : List Nat) : String :=
  String.ofList (ns.map fun n => if n.isValidChar then Char.ofNat n else '\ufffd')

/-- The text after its opening quote, and whether all of its characters are whole. -/
def readText (cs : Chars) : Except Fault ((String × Bool) × Chars) :=
  match readCodePoints? cs with
  | none => .error .malformed
  | some (ns, rest) =>
    let ns := joinHalves ns
    .ok ((textOf ns, decide (∀ n ∈ ns, n.isValidChar)), rest)

/-! ### Numbers and words -/

/-- The rest of a text after its digits, if it starts with one. -/
def afterDigits? : Chars → Option Chars
  | c :: cs => if c.isDigit then some (cs.dropWhile Char.isDigit) else none
  | [] => none

/-- The rest of a text after a fraction, if it starts with one. -/
def afterFraction? : Chars → Option Chars
  | '.' :: cs => afterDigits? cs
  | _ => none

/-- The rest of a text after a power of ten, if it starts with one. -/
def afterExponent? : Chars → Option Chars
  | c :: cs => if c = 'e' ∨ c = 'E' then afterDigits? (Text.splitSign cs).2 else none
  | [] => none

/-- The number at the start of a text.  A zero is the only digit of its number. -/
def readNumber (cs : Chars) : Except Fault (ConfigValue × Chars) :=
  let (sign, body) := match cs with
    | '-' :: cs => ((-1 : Int), cs)
    | cs => (1, cs)
  let ds := match body with
    | '0' :: _ => ['0']
    | cs => cs.takeWhile Char.isDigit
  let rest := body.drop ds.length
  if ds = [] then .error .malformed
  else match afterFraction? rest, afterExponent? ((afterFraction? rest).getD rest) with
    | _, some rest => .ok (.other, rest)
    | some rest, none => .ok (.other, rest)
    | none, none =>
      if Text.maxDigits < ds.length then .error .malformed
      else .ok (.int (sign * Text.digitsValue ds), rest)

/-- The words, and what they stand for. -/
def words : List (String × ConfigValue) :=
  [("null", .null), ("true", .bool true), ("false", .bool false), ("NaN", .other),
    ("Infinity", .other), ("-Infinity", .other)]

/-- The word or the number at the start of a text. -/
def readWord (cs : Chars) : Except Fault (ConfigValue × Chars) :=
  match words.findSome? fun w => (Text.afterStart? w.1.toList cs).map fun rest => (w.2, rest) with
  | some r => .ok r
  | none => readNumber cs

/-! ### Values -/

mutual

/-- The value at the start of a text; lists and tables may lie so deep in each
other. -/
def readValue : Nat → Nat → Chars → Except Fault (ConfigValue × Chars)
  | 0, _, _ => .error .malformed
  | fuel + 1, depth, cs =>
    match cs with
    | '"' :: cs => (readText cs).map fun (t, rest) => (if t.2 then .text t.1 else .other, rest)
    | '[' :: cs =>
      if depth = 0 then .error .tooDeep
      else match skipBlanks cs with
        | ']' :: rest => .ok (.list [], rest)
        | cs => (readItems fuel (depth - 1) cs []).map fun (vs, rest) => (.list vs, rest)
    | '\x7b' :: cs =>
      if depth = 0 then .error .tooDeep
      else match skipBlanks cs with
        | '\x7d' :: rest => .ok (.table [], rest)
        | cs => (readEntries fuel (depth - 1) cs []).map fun (es, rest) => (.table es, rest)
    | cs => readWord cs

/-- The items of a list, after those already read. -/
def readItems : Nat → Nat → Chars → List ConfigValue → Except Fault (List ConfigValue × Chars)
  | 0, _, _, _ => .error .malformed
  | fuel + 1, depth, cs, items => do
    let (v, cs) ← readValue fuel depth cs
    match skipBlanks cs with
    | ',' :: cs => readItems fuel depth (skipBlanks cs) (v :: items)
    | ']' :: cs => .ok ((v :: items).reverse, cs)
    | _ => .error .malformed

/-- The entries of a table, put into those already read. -/
def readEntries : Nat → Nat → Chars → ConfigTable → Except Fault (ConfigTable × Chars)
  | 0, _, _, _ => .error .malformed
  | fuel + 1, depth, cs, entries =>
    match cs with
    | '"' :: cs => do
      let (key, cs) ← readText cs
      match skipBlanks cs with
      | ':' :: cs =>
        let (v, cs) ← readValue fuel depth (skipBlanks cs)
        let entries := ConfigTable.insert entries key.1 v
        match skipBlanks cs with
        | ',' :: cs => readEntries fuel depth (skipBlanks cs) entries
        | '\x7d' :: cs => .ok (entries, cs)
        | _ => .error .malformed
      | _ => .error .malformed
    | _ => .error .malformed

end

/-- The most lists and tables that lie in each other. -/
def maxDepth : Nat := 980

/-- The value that a text writes. -/
def read (cs : Chars) : Except Fault ConfigValue := do
  let (v, rest) ← readValue (2 * cs.length + 2) maxDepth (skipBlanks cs)
  if skipBlanks rest = [] then return v else throw .malformed

example : (read "[".toList).toOption.isNone := by decide +kernel
example : (read " [1, -0, 2e3, \"\\u0041\"] ".toList).toOption.isSome := by decide +kernel

end Recurrence.Json
