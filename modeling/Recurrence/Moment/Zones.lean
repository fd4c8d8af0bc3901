/-
Recurrence/Moment/Zones.lean

Zones by name.

UTC is known in any case and by the letter Z.  The database of zones has those
of whole hours, whose plus sign means west, and the names of universal time.
Any other name with a digit may tell its offset itself.  An empty name means
the zone of the machine, which is that of universal time.
-/
import Recurrence.Calendar.Zone
import Recurrence.Calendar.ZoneName
import Recurrence.Journal.Level
import Recurrence.Rule.Error
import Recurrence.Settings.Basic

namespace Recurrence

/-- A zone, or what names one. -/
inductive ZoneChoice where
  /-- The zone of the settings. -/
  | unspecified
  | named (name : String)
  | given (zone : Zone)

/-- The zones of whole hours in the database, with their offsets. -/
def hourZones : List (String × Int) :=
  ((List.range 13).map fun n : Nat => ("Etc/GMT+" ++ Text.integerString n, -3600 * (n : Int)))
    ++ (List.range 15).map fun n : Nat => ("Etc/GMT-" ++ Text.integerString n, 3600 * (n : Int))

/-- The names of universal time in the database. -/
def universalNames : List String :=
  ["Etc/GMT", "Etc/GMT0", "Etc/Greenwich", "Etc/UCT", "Etc/UTC", "Etc/Universal", "Etc/Zulu",
    "GMT", "GMT+0", "GMT-0", "GMT0", "Greenwich", "UCT", "UTC", "Universal", "Zulu"]

/-- The offset of a zone in the database. -/
def databaseOffset? (name : String) : Option Int :=
  if universalNames.contains name then some 0
  else (hourZones.find? fun e => e.1 == name).map Prod.snd

/-- A zone from a file of the database. -/
def Zone.ofFile (file : String) (offset : Int) : Zone :=
  .named ("tzfile(" ++ Text.quotedString file ++ ")") offset

/-- The zone of a name.  A colon before the name is dropped. -/
def Zone.ofName? (name : String) : Option Zone :=
  if upperString name = "UTC" ∨ upperString name = "Z" then some .utc
  else
    let name := match name.toList with
      | ':' :: cs => String.ofList cs
      | _ => name
    if name = "" then some (.ofFile "/etc/localtime" 0)
    else match databaseOffset? name with
      | some offset => some (.ofFile ("/usr/share/zoneinfo/" ++ name) offset)
      | none =>
        if name.toList.any Char.isDigit ∧ name.toList.head? ≠ some '/' then
          (ZoneName.offset? name).map fun offset =>
            .named ("tzstr(" ++ Text.quotedString name ++ ")") offset
        else none

/-- The zone that is chosen. -/
def ZoneChoice.resolve (c : ZoneChoice) (settings : Settings) : Except RuleError Zone :=
  let ofName (name : String) : Except RuleError Zone :=
    match Zone.ofName? name with
    | some z => .ok z
    | none => .error (.invalid (.unknownZone name) none)
  match c with
  | given z => .ok z
  | named name => ofName name
  | unspecified => ofName settings.defaultTimezone

end Recurrence
