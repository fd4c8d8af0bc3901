/-
Recurrence/Journal/Basic.lean

The journal: which entries it keeps, and how it writes them.

Journals have hierarchical names under one root.  Setting the journal up fixes
a level, a template for the console, and whether there is also a file.  An
entry is kept if its level is at least that of the journal, the lowest level
standing for warnings.  The file keeps every entry that is kept at all, and
begins with two entries about the set-up itself; an entry has one line there,
the first of its message.

An entry whose template does not fit its values is lost.
-/
import Recurrence.Journal.File
import Recurrence.Journal.Template
import Recurrence.Settings.Basic
import Recurrence.Text.Lines

namespace Recurrence

/-- The name at the root of all journals. -/
def rootJournal : String := "calrecur"

/-- The full name of a journal; names under the root stay as they are. -/
def journalName (name : String) : String :=
  if name = rootJournal
      ∨ (Text.afterStart? (rootJournal ++ ".").toList name.toList).isSome then name
  else rootJournal ++ "." ++ name

/-- An entry before it is written. -/
structure JournalRecord where
  journal : String
  level : JournalLevel
  template : String
  values : List ConfigValue

/-- A written entry. -/
structure JournalEntry where
  journal : String
  level : JournalLevel
  message : String
deriving DecidableEq

/-- Why the journal cannot be set up. -/
inductive JournalError where
  | unknownLevel
  | badFormat
  | file (why : FileError)
deriving DecidableEq

/-- A journal that has been set up. -/
structure Journal where
  level : Int
  /-- The name of the level as it was given, in capitals. -/
  levelName : String
  format : String
deriving DecidableEq

namespace Journal

/-- The template used where none is given. -/
def bareFormat : String := "%(message)s"

/-- The level below which entries are dropped. -/
def threshold (j : Journal) : Int := if j.level = 0 then 30 else j.level

/-- Set the journal up; the template for the console has to have a named place. -/
def setUp (level format : String) : Except JournalError Journal :=
  match levelNumber? level with
  | none => .error .unknownLevel
  | some n =>
    let format := if format = "" then bareFormat else format
    if hasNamedPlace format.toList then .ok ⟨n, upperString level, format⟩
    else .error .badFormat

/-- The levels of the console and the file. -/
def handlerLevels (j : Journal) : List Int := [j.level, JournalLevel.debug.number]

/-- The entry of a record, if it is kept and its template fits its values. -/
def entry? (j : Journal) (r : JournalRecord) : Option JournalEntry :=
  if r.level.number < j.threshold then none
  else (fillTemplate? r.template r.values).map fun message =>
    ⟨journalName r.journal, r.level, message⟩

/-- The records of the set-up itself. -/
def setUpRecords (j : Journal) (path : String) : List JournalRecord :=
  [⟨rootJournal, .info, "Logging to file: %s", [.text path]⟩,
    ⟨rootJournal, .info, "Logging initialized at %s level", [.text j.levelName]⟩]

/-- The entries in a file at a path. -/
def fileEntries (j : Journal) (path : String) (rs : List JournalRecord) : List JournalEntry :=
  (j.setUpRecords path ++ rs).filterMap j.entry?

/-- The line of an entry in a file. -/
def fileLine (e : JournalEntry) : String :=
  String.ofList ((Text.lines e.message.toList).head?.getD [])

/-! ### The console -/

/-- The values of a record, taken together. -/
def arguments (r : JournalRecord) : PlaceValue :=
  match r.values with
  | [.table (e :: es)] => .one (.table (e :: es))
  | vs => .several vs

/-- What the named places of the console's template stand for.  The time of an
entry is not kept, and midnight stands in for it. -/
def consoleValue (r : JournalRecord) (e : JournalEntry) : String → Option PlaceValue
  | "name" => some (.one (.text e.journal))
  | "msg" => some (.one (.text r.template))
  | "args" => some (arguments r)
  | "levelname" => some (.one (.text e.level.name))
  | "levelno" => some (.one (.int e.level.number))
  | "message" => some (.one (.text e.message))
  | "asctime" => some (.one (.text "00:00:00"))
  | "threadName" => some (.one (.text "MainThread"))
  | "processName" => some (.one (.text "MainProcess"))
  | "exc_info" | "exc_text" | "stack_info" => some (.one .null)
  | _ => none

/-- The whole record, for a place without a name.  Only its beginning is kept, which
such a place can be cut to. -/
def wholeRecord (r : JournalRecord) (e : JournalEntry) : PlaceValue :=
  .one (.table [("name", .text e.journal), ("msg", .text r.template)])

/-- What is written on the console for a record. -/
def consoleText? (j : Journal) (r : JournalRecord) : Option String :=
  (j.entry? r).bind fun e =>
    fillWith? (consoleValue r e) (.spare (some (wholeRecord r e))) j.format

/-- The lines of records on the console.  What is written for a record ends with a
line feed, and can have several lines. -/
def consoleLines (j : Journal) (rs : List JournalRecord) : List String :=
  let written := (rs.filterMap j.consoleText?).flatMap fun s => s.toList ++ ['\n']
  (Text.lines written).map String.ofList

end Journal

end Recurrence
