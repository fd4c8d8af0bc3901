/-
Recurrence/Calendar/Zone.lean

Time zones and the way between wall-clock time and UTC.

A zone is UTC, a fixed offset, a named one, or a list of transitions.  At a UTC
instant the last transition that is not after it gives the offset.  At a wall-clock time
every transition applies in turn whose instant, read on the clock as it was
before it, is not after that time; so of an overlap the first reading is
taken, and in a gap the new offset holds.

Offsets are looked up on a date-time that a calendar with years 1 to 9999 can
hold with room for an offset on either side: other years are moved to the
nearest one, with a day that every month has.
-/
import Recurrence.Calendar.Carry

namespace Recurrence

/-- The reasons why fields cannot be turned into a date or date-time of the
years 1 to 9999. -/
inductive ConversionError where
  /-- No such date or time exists in those years. -/
  | notReal
  /-- A field or a converted instant is beyond what can be counted. -/
  | outOfRange
deriving DecidableEq

/-! ### Representable values -/

/-- Whether a field fits into 32 bits with a sign. -/
def fitsWord (n : Int) : Bool := -2147483648 ≤ n && n ≤ 2147483647

namespace Date

/-- A date of the years 1 to 9999, or why it is none. -/
def check (d : Date) : Except ConversionError Date :=
  if ¬ (fitsWord d.year ∧ fitsWord d.month ∧ fitsWord d.day) then .error .outOfRange
  else if 1 ≤ d.year ∧ d.year ≤ 9999 ∧ d.IsReal then .ok d
  else .error .notReal

end Date

/-- A date-time of the years 1 to 9999, or why it is none. -/
def checkDateTime (d : Date) (t : TimeOfDay) : Except ConversionError (Date × TimeOfDay) :=
  if ¬ (fitsWord t.hour ∧ fitsWord t.minute ∧ fitsWord t.second) then .error .outOfRange
  else do
    let d ← d.check
    if t.IsReal then .ok (d, t) else .error .notReal

/-- A value of the years 1 to 9999, or why it is none. -/
def Value.check (v : Value) : Except ConversionError Value :=
  match v.time with
  | none => do let d ← v.date.check; return .ofDate d
  | some t => do let (d, t) ← checkDateTime v.date t; return .ofDateTime d t

/-! ### Zones -/

/-- A change of a zone's offset at a UTC instant. -/
structure Transition where
  instant : Int
  offset : Int
deriving DecidableEq

/-- A time zone; offsets are seconds east of UTC. -/
inductive Zone where
  | utc
  | fixed (offset : Int)
  /-- A fixed offset that is known by a name, with the text that shows it. -/
  | named (shown : String) (offset : Int)
  | shifting (initial : Int) (transitions : List Transition)
deriving DecidableEq

namespace Zone

/-- The zone of a fixed offset; the offset zero is UTC itself. -/
def ofOffset (offset : Int) : Zone := if offset = 0 then .utc else .fixed offset

/-- An offset of less than a day, or why it cannot be shown on a clock.  Only the
offsets of zones by name can be longer. -/
def checkOffset (offset : Int) : Except ConversionError Int :=
  if -86400 < offset ∧ offset < 86400 then .ok offset else .error .notReal

/-- The offset at a UTC instant. -/
def offsetAtInstant : Zone → Int → Int
  | utc, _ => 0
  | fixed offset, _ | named _ offset, _ => offset
  | shifting initial ts, t =>
    ts.foldl (fun offset tr => if tr.instant ≤ t then tr.offset else offset) initial

/-- The offset that a list of transitions gives a wall-clock time, with the
offset before the list and the offset found so far. -/
def localOffset (t : Int) : List Transition → Int → Int → Int
  | [], _, found => found
  | tr :: ts, before, found =>
    localOffset t ts tr.offset (if tr.instant + before ≤ t then tr.offset else found)

/-- The offset at a wall-clock time. -/
def offsetAtLocal : Zone → Int → Int
  | utc, _ => 0
  | fixed offset, _ | named _ offset, _ => offset
  | shifting initial ts, t => localOffset t ts initial initial

/-- The date on which offsets are looked up. -/
def lookupDate (d : Date) : Date :=
  let year := min (max d.year 2) 9998
  if year = d.year then d else ⟨year, d.month, min d.day 28⟩

/-- The instant at which offsets are looked up for a date-time. -/
def lookupInstant (d : Date) (t : TimeOfDay) : Except ConversionError Int := do
  let (d, t) ← checkDateTime (lookupDate d) t
  return instantOf d t

/-- The offset as a text: hours and minutes, and seconds if there are any. -/
def offsetText (offset : Int) : String :=
  let two (n : Int) : String := if n < 10 then "0" ++ toString n else toString n
  let size := if offset < 0 then -offset else offset
  let seconds := if size % 60 = 0 then "" else ":" ++ two (size % 60)
  (if offset < 0 then "-" else "+") ++ two (size / 3600) ++ ":" ++ two (size / 60 % 60) ++ seconds

/-- The name of a zone. -/
def name : Zone → String
  | utc => "UTC"
  | fixed offset => if offset = 0 then "UTC" else "UTC" ++ offsetText offset
  | named shown _ => shown
  | shifting initial _ => "UTC" ++ offsetText initial

end Zone

/-! ### Conversion of values -/

namespace Value

/-- The UTC value of a wall-clock value.  Dates have no zone and stay as they
are. -/
def toUtc (v : Value) (z : Zone) : Except ConversionError Value :=
  match z, v.time with
  | .utc, _ => .ok v
  | _, none => .ok v
  | z, some t => do
    let offset := z.offsetAtLocal (← Zone.lookupInstant v.date t)
    return if offset = 0 then v else v.addSeconds (-offset)

/-- The wall-clock value of a UTC value.  Dates have no zone and stay as they
are. -/
def fromUtc (v : Value) (z : Zone) : Except ConversionError Value :=
  match z, v.time with
  | .utc, _ => .ok v
  | _, none => .ok v
  | z, some t => do
    let offset ← Zone.checkOffset (z.offsetAtInstant (← Zone.lookupInstant v.date t))
    return if offset = 0 then v else v.addSeconds offset

end Value

end Recurrence
