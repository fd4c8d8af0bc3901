/-
Recurrence/Moment/Occurrences.lean

The occurrences of a rule as moments, and those in a window of time.

A start with a zone is expanded in it, or in another zone if one is chosen; a
start without a zone is in the chosen zone or in that of the settings.
Date-times come out in UTC.

The zone and the start are settled before a rule that is given as a text is
read.

A window holds the occurrences from its beginning up to but not including its
end, and never more than the settings allow.  For a series of dates its bounds
are rounded up to whole dates.
-/
import Recurrence.Cursor.Basic
import Recurrence.Moment.Basic
import Recurrence.Moment.Zones
import Recurrence.Rule.Parser

namespace Recurrence

/-- Why occurrences cannot be had. -/
inductive OccurrenceError where
  | series (error : SeriesError)
  /-- A window ends before it begins. -/
  | reversedWindow (beginning ending : Moment)
deriving DecidableEq

/-- The wording of a reversed window. -/
def reversedMessage (beginning ending : Moment) : String :=
  "Window end " ++ ending.text ++ " is before its start " ++ beginning.text

/-- A forward cursor over occurrences. -/
structure Occurrences where
  series : Series
  zone : Zone

/-- The answer of an operation on occurrences. -/
abbrev OccurrenceAnswer (α : Type) := Option (Except SeriesError α × Occurrences)

namespace Occurrences

/-- The zone in which a start is expanded, and the start in that zone. -/
def place (start : Moment) (choice : ZoneChoice) (settings : Settings) :
    Except SeriesError (Moment × Zone) :=
  let resolved := (choice.resolve settings).mapError SeriesError.rule
  match start.zone?, choice with
  | some own, .unspecified => .ok (start, own)
  | some _, _ => do
    let zone ← resolved
    let start ← (start.inZone zone).mapError SeriesError.conversion
    return (start, zone)
  | none, _ => do return (start, ← resolved)

/-- The occurrences of a rule. -/
def create (bound : Nat) (source : RuleSource) (start : Moment) (choice : ZoneChoice)
    (settings : Settings) : Option (Except SeriesError Occurrences) :=
  match place start choice settings with
  | .error e => some (.error e)
  | .ok (start, zone) =>
    match source.read with
    | .error e => some (.error (.rule e))
    | .ok r =>
      (Series.create bound r start.toValue zone settings.maxUnproductiveYears).map fun s =>
        s.map fun series => ⟨series, zone⟩

/-- The next occurrence, or none if there is no more. -/
def next (bound : Nat) (o : Occurrences) : OccurrenceAnswer (Option Moment) :=
  match (Series.ops bound).head o.series with
  | none => none
  | some (.error e, series) => some (.error e, { o with series })
  | some (.ok none, series) => some (.ok none, { o with series })
  | some (.ok (some v), series) =>
    match v.toMoment with
    | .error e => some (.error (.conversion e), { o with series })
    | .ok m => some (.ok (some m), { o with series })

/-- At most so many occurrences. -/
def take (bound : Nat) : Nat → Occurrences → OccurrenceAnswer (List Moment)
  | 0, o => some (.ok [], o)
  | n + 1, o =>
    match o.next bound with
    | none => none
    | some (.error e, o) => some (.error e, o)
    | some (.ok none, o) => some (.ok [], o)
    | some (.ok (some m), o) =>
      match take bound n o with
      | none => none
      | some (.error e, o) => some (.error e, o)
      | some (.ok ms, o) => some (.ok (m :: ms), o)

/-- Skip the occurrences before a moment. -/
def advanceTo (bound : Nat) (o : Occurrences) (m : Moment) : OccurrenceAnswer Unit :=
  match m.toUtcValue o.zone with
  | .error e => some (.error (.conversion e), o)
  | .ok target => (o.series.advanceTo bound target).map fun (r, series) => (r, { o with series })

/-- Whether the series has another value. -/
def hasNext (bound : Nat) (o : Occurrences) : OccurrenceAnswer Bool :=
  (o.series.hasNext bound).map fun (r, series) => (r, { o with series })

/-- Occurrences as they are shown. -/
def text (o : Occurrences) : String :=
  "DateTimeIterator(" ++ o.series.rule.text ++ ", zone=" ++ o.zone.name ++ ")"

/-! ### Windows -/

/-- The bounds of a window as values. -/
def windowBounds (start : Moment) (zone : Zone) (beginning ending : Moment) :
    Except SeriesError (Value × Value) :=
  if start.hasTime then do
    let low ← (beginning.toUtcValue zone).mapError SeriesError.conversion
    let high ← (ending.toUtcValue zone).mapError SeriesError.conversion
    return (low, high)
  else return (.ofDate beginning.dateBound, .ofDate ending.dateBound)

/-- At most so many values of a series before an end. -/
def takeBefore (bound : Nat) (ending : Value) : Nat → Series → Answer Series (List Moment)
  | 0, s => some (.ok [], s)
  | n + 1, s =>
    match (Series.ops bound).head s with
    | none => none
    | some (.error e, s) => some (.error e, s)
    | some (.ok none, s) => some (.ok [], s)
    | some (.ok (some v), s) =>
      if ¬ v < ending then some (.ok [], s)
      else match v.toMoment with
        | .error e => some (.error (.conversion e), s)
        | .ok m =>
          match takeBefore bound ending n s with
          | none => none
          | some (.error e, s) => some (.error e, s)
          | some (.ok ms, s) => some (.ok (m :: ms), s)

/-- The most occurrences that a window is answered with. -/
def windowLimit (settings : Settings) (limit : Option Int) : Nat :=
  (match limit with
    | none => settings.maxOccurrences
    | some n => min n settings.maxOccurrences).toNat

/-- The occurrences of a rule in a window. -/
def between (bound : Nat) (source : RuleSource) (start beginning ending : Moment)
    (limit : Option Int) (choice : ZoneChoice) (settings : Settings) :
    Option (Except OccurrenceError (List Moment)) :=
  match create bound source start choice settings with
  | none => none
  | some (.error e) => some (.error (.series e))
  | some (.ok o) =>
    match windowBounds start o.zone beginning ending with
    | .error e => some (.error (.series e))
    | .ok (low, high) =>
      if high < low then some (.error (.reversedWindow beginning ending))
      else match o.series.advanceTo bound low with
        | none => none
        | some (.error e, _) => some (.error (.series e))
        | some (.ok (), s) =>
          (takeBefore bound high (windowLimit settings limit) s).map fun (r, _) =>
            r.mapError OccurrenceError.series

end Occurrences

end Recurrence
