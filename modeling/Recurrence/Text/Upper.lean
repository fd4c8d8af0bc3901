/-
Recurrence/Text/Upper.lean

Texts in capitals.

Names, codes and words of a rule may be written in any case.  They are put in
capitals before they are compared, by the full rule: a letter can become more
than one letter, and letters outside ASCII can become letters inside it.
-/
import Recurrence.Text.Blank
import Recurrence.Text.UpperTable

namespace Recurrence.Text

/-- The capital of a letter outside ASCII, or the character itself. -/
def upperBeyondAscii (c : Char) : Chars :=
  match capitalSequences.find? fun e => e.1 == c.toNat with
  | some e => e.2.map Char.ofNat
  | none =>
    match capitalRuns.find? fun r => r.covers c.toNat with
    | some r => [Char.ofNat (c.toNat + r.distance).toNat]
    | none => [c]

/-- The capital of a letter, and any other character as it is. -/
def upperChar (c : Char) : Chars :=
  if c.toNat < 0x80 then [c.toUpper] else upperBeyondAscii c

/-- A text in capitals. -/
def upper (cs : Chars) : Chars := cs.flatMap upperChar

example : upper "straße".toList = "STRASSE".toList := by decide +kernel
example : upper "ſu".toList = "SU".toList := by decide +kernel

end Recurrence.Text
