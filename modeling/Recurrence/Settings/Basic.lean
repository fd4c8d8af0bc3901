/-
Recurrence/Settings/Basic.lean

The settings of an expansion, and where they come from.

Settings given directly stand above the environment, and the environment above
the defaults; a configuration file stands below what is given directly and
above the environment.  Unknown names are ignored everywhere.  Nested settings
are laid over each other name by name.

Names given directly are read in any case; of those that name one setting the
first counts.  Names of environment variables begin with a common word and are
read in any case; nested names are joined by two underscores.  The variable of
a nested section holds the section as JSON.
-/
import Recurrence.Journal.Level
import Recurrence.Settings.Json

namespace Recurrence

/-- The settings of the journal. -/
structure JournalSettings where
  level : String := "WARNING"
  format : String := "%(asctime)s - %(name)s - %(levelname)s - %(message)s"
deriving DecidableEq

/-- The settings of an expansion. -/
structure Settings where
  /-- The years that may pass without an instance. -/
  maxUnproductiveYears : Int := 100
  /-- The most occurrences that a window is answered with. -/
  maxOccurrences : Int := 1000
  /-- The zone of date-times that have none. -/
  defaultTimezone : String := "UTC"
  journal : JournalSettings := {}
deriving DecidableEq

/-- Why settings cannot be had. -/
inductive SettingsError where
  /-- The named settings have no proper value. -/
  | invalid (names : List String)
  /-- A file holds something else than a table. -/
  | notATable (kind : String)
  /-- The section of a file is no table. -/
  | badSection
  /-- The variable of a section holds no readable value. -/
  | variable (why : Json.Fault)
  /-- A variable has the character zero, or an equals sign in its name. -/
  | badVariable
  /-- A variable has no name. -/
  | namelessVariable
deriving DecidableEq

/-- The wording of an error about a file. -/
def SettingsError.message? : SettingsError → Option String
  | notATable kind => some ("Expected a mapping in <path>, got " ++ kind)
  | _ => none

namespace Settings

/-! ### Checking -/

/-- A setting from a table: its default, its value, or its name if the value is
not proper. -/
def setting (t : ConfigTable) (key path : String) (initial : α) (read : ConfigValue → Option α) :
    Except String α :=
  match t.get? key with
  | none => .ok initial
  | some v =>
    match read v with
    | some a => .ok a
    | none => .error path

/-- A positive number. -/
def positive? (v : ConfigValue) : Option Int := v.int?.filter fun n => 1 ≤ n

/-- The name of a level, in capitals. -/
def levelName? (v : ConfigValue) : Option String :=
  v.text?.bind fun s => if (levelNumber? s).isSome then some (upperString s) else none

/-- The journal settings in a table, or the names of those that are not proper. -/
def journalOf (t : ConfigTable) : Except (List String) JournalSettings :=
  let initial : JournalSettings := {}
  let level := setting t "level" "logging.level" initial.level levelName?
  let format := setting t "format" "logging.format" initial.format ConfigValue.text?
  match level, format with
  | .ok level, .ok format => .ok { level, format }
  | .error a, .error b => .error [a, b]
  | .error a, _ => .error [a]
  | _, .error b => .error [b]

/-- The journal settings under their key. -/
def nestedJournal (t : ConfigTable) : Except (List String) JournalSettings :=
  match t.get? "logging" with
  | none => .ok {}
  | some (.table inner) => journalOf inner
  | some _ => .error ["logging"]

/-- The name in an error, if it is one. -/
def faulty : Except String α → List String
  | .error name => [name]
  | .ok _ => []

/-- The settings in a table, or the names of all that are not proper. -/
def ofTable (t : ConfigTable) : Except SettingsError Settings :=
  let initial : Settings := {}
  let years := setting t "max_unproductive_years" "max_unproductive_years"
    initial.maxUnproductiveYears positive?
  let most := setting t "max_occurrences" "max_occurrences" initial.maxOccurrences positive?
  let zone := setting t "default_timezone" "default_timezone" initial.defaultTimezone
    ConfigValue.text?
  match years, most, zone, nestedJournal t with
  | .ok maxUnproductiveYears, .ok maxOccurrences, .ok defaultTimezone, .ok journal =>
    .ok { maxUnproductiveYears, maxOccurrences, defaultTimezone, journal }
  | years, most, zone, journal =>
    .error (.invalid (faulty years ++ faulty most ++ faulty zone ++ match journal with
      | .error names => names
      | .ok _ => []))

/-! ### The environment -/

/-- Whether two names are the same in any case. -/
def sameName (a b : String) : Bool := a.toList.map Char.toLower == b.toList.map Char.toLower

/-- The names of the settings. -/
def keys : List String :=
  ["max_unproductive_years", "max_occurrences", "default_timezone", "logging"]

/-- The names of the settings of the journal. -/
def journalKeys : List String := ["level", "format"]

/-- The setting that an environment variable is about, in small letters. -/
def variableName? (name : String) : Option Text.Chars :=
  Text.afterStart? "calrecur_".toList (name.toList.map Char.toLower)

/-- The names between double underscores. -/
def nestedNames : Text.Chars → List Text.Chars
  | [] => [[]]
  | '_' :: '_' :: cs => [] :: nestedNames cs
  | c :: cs =>
    match nestedNames cs with
    | [] => [[c]]
    | p :: ps => (c :: p) :: ps

/-- Check that there can be an environment of such variables. -/
def checkEnvironment (environment : List (String × String)) : Except SettingsError Unit :=
  environment.forM fun (name, value) =>
    if '\x00' ∈ name.toList ∨ '\x00' ∈ value.toList ∨ '=' ∈ name.toList then
      .error .badVariable
    else if name = "" then .error .namelessVariable
    else .ok ()

/-- The values of the variables that are about a whole setting; of those with one
name the last counts. -/
def wholeVariables (environment : List (String × String)) : ConfigTable :=
  environment.foldl (fun t (name, value) =>
    match variableName? name with
    | some setting => ConfigTable.insert t (String.ofList setting) (.text value)
    | none => t) []

/-- The table of the variables that are about a part of the journal section. -/
def journalVariables (environment : List (String × String)) : ConfigTable :=
  environment.foldl (fun t (name, value) =>
    match (variableName? name).bind (Text.afterStart? "logging__".toList) with
    | some inner => ConfigTable.insertAt ((nestedNames inner).map String.ofList) (.text value) t
    | none => t) []

/-- How deep nested settings are laid over each other. -/
def nesting : Nat := 8

/-- A table with its names written as the settings of the journal are known; of
two that become one the last counts. -/
def withJournalKeys (t : ConfigTable) : ConfigTable :=
  t.foldl (fun t (name, v) =>
    ConfigTable.insert t ((journalKeys.find? (sameName name)).getD name) v) []

/-- The journal section of the environment, if there is one: the value of its
variable, with the nested variables laid over it. -/
def environmentJournal (environment : List (String × String)) :
    Except SettingsError (Option ConfigValue) :=
  let parts := journalVariables environment
  match (wholeVariables environment).get? "logging" with
  | some (.text written) =>
    match Json.read written.toList with
    | .error why => .error (.variable why)
    | .ok .null => .ok none
    | .ok (.table t) => .ok (some (.table (withJournalKeys (ConfigTable.overlay nesting t parts))))
    | .ok v => .ok (some v)
  | _ => .ok (if parts.isEmpty then none else some (.table (withJournalKeys parts)))

/-- The table of the settings in environment variables. -/
def environmentTable (environment : List (String × String)) : Except SettingsError ConfigTable := do
  let journal ← environmentJournal environment
  let others := (wholeVariables environment).filter fun e => e.1 != "logging"
  return others ++ (journal.map fun v => ("logging", v)).toList

/-! ### Sources -/

/-- The known settings in a table, under their own names: what stands first under
a name that is the same in any case. -/
def knownSettings (t : ConfigTable) : ConfigTable :=
  keys.filterMap fun key => (t.find? fun e => sameName e.1 key).map fun e => (key, e.2)

/-- The settings given directly, above those in the environment. -/
def load (given : ConfigTable) (environment : List (String × String)) :
    Except SettingsError Settings := do
  let lower ← environmentTable environment
  ofTable (ConfigTable.overlay nesting lower (knownSettings given))

/-- The settings section of a file: its own section or the whole file, and only
the known names of it. -/
def fileSection (file : ConfigValue) : Except SettingsError ConfigTable :=
  let file := if file.isEmpty then .table [] else file
  match file with
  | .table entries =>
    let inner := (ConfigTable.get? entries "recurrence").getD file
    let inner := if inner.isEmpty then .table [] else inner
    match inner with
    | .table entries => .ok (entries.filter fun e => keys.contains e.1)
    | _ => .error .badSection
  | file => .error (.notATable file.kind)

/-- The settings in a file, below those given directly. -/
def loadFile (file : ConfigValue) (given : ConfigTable) (environment : List (String × String)) :
    Except SettingsError Settings := do
  let entries ← fileSection file
  load (given.foldl (fun t (key, v) => ConfigTable.insert t key v) entries) environment

end Settings

end Recurrence
