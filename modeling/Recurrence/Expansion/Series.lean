/-
Recurrence/Expansion/Series.lean

The instances of one rule from a start on.

A series is a forward cursor.  It generates its instances in local wall-clock
time, turns them into UTC, drops those that do not come after the one before
(two local times in an overlap of a zone may be one instant), lets its ending
judge each of them once, and holds at most one instance that has been accepted
but not handed out.

Instances before the start are generated and dropped before the first is
judged.  Moving ahead to a target judges the instances that are skipped, so
they use up a count like any other.  Where nothing counts instances and no
period has to be seen in full, whole months before the target are passed over
without looking at their days.

A series whose start has no time of day consists of dates.

Every operation takes the bound of its loops first.  An error does not undo
what the operation has done so far: the new state is returned beside it.
-/
import Recurrence.Expansion.Candidates
import Recurrence.Expansion.Plan
import Recurrence.Expansion.Selection
import Recurrence.Rule.Printer

namespace Recurrence

/-- Why a series, a list of dates or a merged series has no answer. -/
inductive SeriesError where
  | rule (error : RuleError)
  | noMoreInstances (ruleText : Option String)
  | noMoreDates
  | conversion (error : ConversionError)
  | undefined (why : Undefined)
deriving DecidableEq

/-- The answer of an operation on a state: none if the bound was too small, else a
value or an error, and the new state. -/
abbrev Answer (σ α : Type) := Option (Except SeriesError α × σ)

/-- Where the instances of a series come from. -/
inductive InstanceSource where
  | plain (candidates : Candidates)
  | selected (selection : Selection Candidates Value)

/-- A forward cursor over the instances of a rule. -/
structure Series where
  rule : Rule
  start : Value
  zone : Zone
  source : InstanceSource
  ending : Ending
  /-- The key of the last instance that was generated. -/
  lastKey : Option (List Int) := none
  /-- An accepted instance, in UTC, that has not been handed out. -/
  pending : Option Value := none
  finished : Bool := false

namespace InstanceSource

/-- The next local instance, or none once generation stops. -/
def next (rule : Rule) (bound : Nat) (s : InstanceSource) :
    Option (Except Undefined (Option Value) × InstanceSource) :=
  match s with
  | plain c => (c.next bound).map fun (r, c) => (r, .plain c)
  | selected s =>
    let credit (c : Candidates) := c.credit 0
    (s.next (Candidates.next bound) credit (periodKey rule.freq rule.weekStart) bound).map
      fun (r, s) => (r, .selected s)

end InstanceSource

namespace Series

/-- Whether the instances have a time of day. -/
def hasTime (s : Series) : Bool := s.start.hasTime

/-- Whether months may be passed over unseen: nothing counts instances, and no
period has to be seen in full. -/
def skipsMonths (s : Series) : Bool := s.rule.count.isNone && s.rule.bySetPos.isEmpty

/-- A series as it is shown. -/
def text (s : Series) : String :=
  "RRuleIterator(" ++ s.rule.text ++ ", dtstart=" ++ s.start.text ++ ")"

/-! ### Generating -/

/-- One try for an instance after the last one. -/
def attempt (bound : Nat) (s : Series) :
    Option (Turn Series (Except SeriesError (Option (Value × Value)) × Series)) :=
  match s.source.next s.rule bound with
  | none => none
  | some (.error why, source) => some (.done (.error (.undefined why), { s with source }))
  | some (.ok none, source) => some (.done (.ok none, { s with source }))
  | some (.ok (some v), source) =>
    let s := { s with source }
    match v.toUtc s.zone with
    | .error e => some (.done (.error (.conversion e), s))
    | .ok utc =>
      match s.lastKey with
      | some last =>
        if last < utc.key then
          some (.done (.ok (some (v, utc)), { s with lastKey := some utc.key }))
        else some (.again s)
      | none => some (.done (.ok (some (v, utc)), { s with lastKey := some utc.key }))

/-- The next instance, local and in UTC, never at or before the last one. -/
def generate (bound : Nat) (s : Series) : Answer Series (Option (Value × Value)) :=
  loop (attempt bound) bound s

/-- Let the ending judge an instance: hold it if it passes, end the series
if not. -/
def judge (s : Series) (localValue utc : Value) : Bool × Series :=
  let (passes, ending) := s.ending.check localValue utc
  if passes then (true, { s with ending, pending := some utc })
  else (false, { s with ending, finished := true })

/-! ### Starting -/

/-- Drop one instance before the start, or judge the first one that is not. -/
def startTurn (bound : Nat) (startUtc : Value) (s : Series) :
    Option (Turn Series (Except SeriesError Unit × Series)) :=
  match s.generate bound with
  | none => none
  | some (.error e, s) => some (.done (.error e, s))
  | some (.ok none, s) => some (.done (.ok (), { s with finished := true }))
  | some (.ok (some (localValue, utc)), s) =>
    if utc < startUtc then some (.again s)
    else some (.done (.ok (), (s.judge localValue utc).2))

/-- Where the lists of a rule begin. -/
def listStart (r : Rule) (start : Value) : Value :=
  if r.bySetPos.isEmpty then start else periodStart r.freq start

/-- Whether all periods of a rule have equally many candidates. -/
def hasUniformPeriods (r : Rule) : Bool := r.freq == .daily || r.freq.isSubDaily

/-- The candidates of a plan.  A series of dates needs no time generators, and
where there is only one time of day it is set once and for all. -/
def candidates (r : Rule) (start : Value) (plan : Plan) : Candidates :=
  let fields := Fields.ofValue (listStart r start)
  let filter := Filter.ofAll plan.timeFilters
  let credited := if r.bySetPos.isEmpty then some 0 else none
  let dayChain := [plan.year, plan.month, plan.day]
  if !start.hasTime then ⟨dayChain, fields, filter, false, credited⟩
  else match plan.singleTime? with
    | some t =>
      let fields := { fields with hour := t.hour, minute := t.minute, second := t.second }
      ⟨dayChain, fields, filter, true, credited⟩
    | none => ⟨plan.chain, fields, filter, true, credited⟩

/-- Candidates as the source of a rule's instances. -/
def sourceOf (r : Rule) (c : Candidates) : InstanceSource :=
  if r.bySetPos.isEmpty then .plain c
  else .selected { source := c, positions := r.bySetPos, uniform := hasUniformPeriods r }

/-- A series before its first instance has been looked for. -/
def unstarted (r : Rule) (start : Value) (zone : Zone) (c : Candidates) : Series :=
  { rule := r, start, zone, source := sourceOf r c, ending := .ofRule r }

/-- The series of a rule over candidates that have not been asked yet: fill all
fields but the finest, and look for the first instance. -/
def ofCandidates (bound : Nat) (r : Rule) (start : Value) (zone : Zone) (c : Candidates) :
    Option (Except SeriesError Series) :=
  match c.run bound (c.chain.length - 1) 0 with
  | none => none
  | some (.undefined why, _) => some (.error (.undefined why))
  | some (.value, c) =>
    match start.toUtc zone with
    | .error e => some (.error (.conversion e))
    | .ok startUtc =>
      match loop (startTurn bound startUtc) bound (unstarted r start zone c) with
      | none => none
      | some (.error e, _) => some (.error e)
      | some (.ok (), s) => some (.ok s)
  | some (_, c) => some (.ok { unstarted r start zone c with finished := true })

/-- The series of a rule.  `budget` years may pass without an instance. -/
def create (bound : Nat) (r : Rule) (start : Value) (zone : Zone) (budget : Int) :
    Option (Except SeriesError Series) :=
  if !start.hasTime && r.freq.isSubDaily then
    some (.error (.rule (.invalid (.needsTimeOfDay r.freq) (some r.text))))
  else
    let plan := Plan.ofRule r start (listStart r start) budget
    let c := candidates r start plan
    if !plan.reachable then some (.ok { unstarted r start zone c with finished := true })
    else ofCandidates bound r start zone c

/-! ### Stepping -/

/-- Whether another instance is available. -/
def hasNext (bound : Nat) (s : Series) : Answer Series Bool :=
  if s.pending.isNone && !s.finished then
    match s.generate bound with
    | none => none
    | some (.error e, s) => some (.error e, s)
    | some (.ok none, s) => some (.ok s.pending.isSome, { s with finished := true })
    | some (.ok (some (localValue, utc)), s) =>
      let (_, s) := s.judge localValue utc
      some (.ok s.pending.isSome, s)
  else some (.ok s.pending.isSome, s)

/-- The next instance, in UTC. -/
def next (bound : Nat) (s : Series) : Answer Series Value :=
  match s.hasNext bound with
  | none => none
  | some (.error e, s) => some (.error e, s)
  | some (.ok _, s) =>
    match s.pending with
    | some v => some (.ok v, { s with pending := none })
    | none => some (.error (.noMoreInstances (some s.rule.text)), s)

/-! ### Moving ahead -/

/-- The target of a move: a series of dates takes a date-time for the first whole
date at or after it. -/
def roundTarget (s : Series) (target : Value) : Value :=
  match target.time with
  | some t =>
    if s.hasTime then target
    else if t = .midnight then target.withoutTime
    else target.withoutTime.addDays 1
  | none => target

/-- Whether the candidates stand in a month before that of a target. -/
def monthBefore (c : Candidates) (target : Value) : Bool :=
  decide (c.fields.year < target.date.year) ||
    (c.fields.year == target.date.year && decide (c.fields.month < target.date.month))

/-- Step to the next year; years that are passed over are not idle. -/
def skipYearTurn (bound : Nat) (target : Value) (s : Step × Candidates) :
    Option (Turn (Step × Candidates) (Step × Candidates)) :=
  if s.2.fields.year < target.date.year ∧ s.1 = .value then
    ((s.2.credit 0).run bound 1 0).map .again
  else some (.done s)

/-- Step to the next month. -/
def skipMonthTurn (bound : Nat) (target : Value) (s : Step × Candidates) :
    Option (Turn (Step × Candidates) (Step × Candidates)) :=
  if s.1 = .value ∧ monthBefore s.2 target then (s.2.run bound 2 1).map .again
  else some (.done s)

/-- Step through the years before that of a target, and on to a month. -/
def skipYears (bound : Nat) (c : Candidates) (target : Value) : Option (Step × Candidates) :=
  if c.fields.year < target.date.year then
    match loop (skipYearTurn bound target) bound (.value, c) with
    | none => none
    | some (.value, c) => c.run bound 2 1
    | some (step, c) => some (step, c)
  else some (.value, c)

/-- Move the generators to the month of a local target. -/
def skipMonths (bound : Nat) (c : Candidates) (target : Value) : Option (Step × Candidates) :=
  if !monthBefore c target then some (.value, c)
  else match skipYears bound c target with
    | none => none
    | some s =>
      match loop (skipMonthTurn bound target) bound s with
      | none => none
      | some (.value, c) => c.run bound (c.chain.length - 1) 2
      | some (step, c) => some (step, c)

/-- Pass over the months before a target, given in UTC. -/
def passOver (bound : Nat) (s : Series) (target : Value) : Answer Series Unit :=
  match s.source with
  | .selected _ => some (.ok (), s)
  | .plain c =>
    match target.fromUtc s.zone with
    | .error e => some (.error (.conversion e), s)
    | .ok localTarget =>
      match skipMonths bound c localTarget with
      | none => none
      | some (.undefined why, c) => some (.error (.undefined why), { s with source := .plain c })
      | some (.value, c) => some (.ok (), { s with source := .plain c })
      | some (_, c) => some (.ok (), { s with source := .plain c, finished := true })

/-- Judge one more instance, and drop it if it is before the target. -/
def skipTurn (bound : Nat) (target : Value) (s : Series) :
    Option (Turn Series (Except SeriesError Unit × Series)) :=
  match s.generate bound with
  | none => none
  | some (.error e, s) => some (.done (.error e, s))
  | some (.ok none, s) => some (.done (.ok (), { s with finished := true }))
  | some (.ok (some (localValue, utc)), s) =>
    let (passes, s) := s.judge localValue utc
    if passes ∧ utc < target then some (.again { s with pending := none })
    else some (.done (.ok (), s))

/-- Skip the instances before a target, given in UTC, that are not held already. -/
def skipTo (bound : Nat) (s : Series) (target : Value) : Answer Series Unit :=
  if s.finished then some (.ok (), s)
  else
    let passed := if s.skipsMonths then s.passOver bound target else some (.ok (), s)
    match passed with
    | none => none
    | some (.error e, s) => some (.error e, s)
    | some (.ok (), s) =>
      if s.finished then some (.ok (), s) else loop (skipTurn bound target) bound s

/-- Skip all instances before a target, given in UTC.  Never moves back. -/
def advanceTo (bound : Nat) (s : Series) (target : Value) : Answer Series Unit :=
  let target := s.roundTarget target
  match s.pending with
  | some v =>
    if v < target then { s with pending := none }.skipTo bound target else some (.ok (), s)
  | none => s.skipTo bound target

end Series

end Recurrence
