/-
Recurrence/Expansion/Plan.lean

Which generator fills which field of a rule, and what is left to filters.

Every part of a rule either drives the generator of its field or restricts
what another part drives there.  Fields that no part speaks of take the
start's value, or are stepped through if they are the rule's own unit or
coarser.  A rule with an interval below the year lets the generator of its own
unit pace the years.

Interval steps are counted from the start itself.  Lists may begin earlier,
where the positions of a period's instances matter and the whole period has to
be seen.
-/
import Recurrence.Expansion.Ending
import Recurrence.Expansion.Generator
import Recurrence.Expansion.Period

namespace Recurrence

/-! ### Days and months -/

/-- Whether ordinals of weekdays have a meaning in rules of a frequency. -/
def Frequency.takesOrdinals (f : Frequency) : Bool := f == .monthly || f == .yearly

/-- The weekday entries of a rule; ordinals without a meaning are dropped. -/
def Rule.plainByDay (r : Rule) : List WeekdayNum :=
  if !r.hasOrdinals || r.freq.takesOrdinals then r.byDay
  else r.byDay.map fun e => .every e.weekday

/-- Whether ordinals of weekdays count within the year and not the month. -/
def Rule.ordinalsInYear (r : Rule) : Bool := r.freq == .yearly && r.byMonth.isEmpty

/-- Whether no part of a rule names days. -/
def Rule.namesNoDays (r : Rule) : Bool :=
  r.byYearDay.isEmpty && r.byMonthDay.isEmpty && r.byWeekNo.isEmpty && r.byDay.isEmpty

/-- A generator that hands out listed values from a value on. -/
def listedFrom (listing : Listing) (start : Value) : Generator :=
  ⟨.listed (.start listing start), []⟩

/-- A generator that steps through a unit from a value on. -/
def steppedFrom (unit : StepUnit) (interval : Int) (start : Value) : Generator :=
  ⟨.slots (.start unit interval start), []⟩

/-- The generator of the month, and the filters that it leaves. -/
def monthGenerator (r : Rule) (start genStart : Value) : Generator × List Filter :=
  if !r.byMonth.isEmpty then
    if r.freq = .monthly ∧ 1 < r.interval then
      (steppedFrom .month r.interval genStart, [.months r.byMonth])
    else (listedFrom (.months r.byMonth) genStart, [])
  else if r.freq = .yearly ∧ r.namesNoDays then
    (listedFrom (.months [start.date.month]) genStart, [])
  else (steppedFrom .month (if r.freq = .monthly then r.interval else 1) genStart, [])

/-- The parts of a rule that name days. -/
inductive DayPart where
  | byDay | byMonthDay | byYearDay | byWeekNo
deriving DecidableEq

/-- Which part drives the day, if one does. -/
def drivingDayPart (r : Rule) : Option DayPart :=
  if r.freq = .weekly then (if r.byDay.isEmpty then none else some .byDay)
  else if r.freq = .daily ∧ 1 < r.interval then none
  else if !r.byYearDay.isEmpty then some .byYearDay
  else if !r.byMonthDay.isEmpty then some .byMonthDay
  else if !r.byWeekNo.isEmpty then some .byWeekNo
  else if !r.byDay.isEmpty then some .byDay
  else none

/-- The days that a part of a rule lists. -/
def dayListing (r : Rule) : DayPart → Listing
  | .byDay => .weekdays r.plainByDay r.ordinalsInYear
  | .byMonthDay => .monthDays r.byMonthDay
  | .byYearDay => .yearDays r.byYearDay
  | .byWeekNo => .weekNumbers r.byWeekNo r.weekStart

/-- The days of a rule whose parts do not drive them. -/
def defaultDayGenerator (r : Rule) (start genStart : Value) : Generator :=
  match r.freq with
  | .weekly => steppedFrom .day (7 * r.interval) start
  | .daily => steppedFrom .day r.interval start
  | .yearly | .monthly => listedFrom (.monthDays [start.date.day]) genStart
  | _ => steppedFrom .day 1 start

/-- The generator of the day, before filters. -/
def dayGenerator (r : Rule) (start genStart : Value) : Generator :=
  match drivingDayPart r with
  | some part => listedFrom (dayListing r part) genStart
  | none => defaultDayGenerator r start genStart

/-- The restriction that a part of a rule makes where it does not drive the day. -/
def dayFilter (r : Rule) : DayPart → Option Filter
  | .byDay =>
    if r.byDay.isEmpty then none else some (.weekdays r.plainByDay r.ordinalsInYear)
  | .byMonthDay => if r.byMonthDay.isEmpty then none else some (.monthDays r.byMonthDay)
  | .byYearDay => if r.byYearDay.isEmpty then none else some (.yearDays r.byYearDay)
  | .byWeekNo =>
    if r.byWeekNo.isEmpty then none else some (.weekNumbers r.byWeekNo r.weekStart)

/-- The weeks that an interval leaves to a weekly rule whose days are listed. -/
def weekFilter (r : Rule) (start : Value) : Option Filter :=
  if r.freq = .weekly ∧ drivingDayPart r = some .byDay ∧ 1 < r.interval then
    some (.ofWeekInterval r.interval r.weekStart start)
  else none

/-- The filters on the day. -/
def dayFilters (r : Rule) (start : Value) : List Filter :=
  (weekFilter r start).toList ++
    ([DayPart.byDay, .byMonthDay, .byYearDay, .byWeekNo].filter fun part =>
      drivingDayPart r ≠ some part).filterMap (dayFilter r)

/-! ### Times of day -/

namespace ClockField

/-- The frequency whose unit the field counts. -/
def frequency : ClockField → Frequency
  | hour => .hourly | minute => .minutely | second => .secondly

/-- The unit that the field counts. -/
def unit : ClockField → StepUnit
  | hour => .hour | minute => .minute | second => .second

end ClockField

/-- The values that a rule lists for a time field. -/
def Rule.clockValues (r : Rule) : ClockField → List Int
  | .hour => r.byHour | .minute => r.byMinute | .second => r.bySecond

/-- The generator of a time field, and the filters that it leaves. -/
def timeGenerator (r : Rule) (field : ClockField) (start genStart : Value) :
    Generator × List Filter :=
  let ns := r.clockValues field
  if r.freq = field.frequency then
    if ns.isEmpty then (steppedFrom field.unit r.interval start, [])
    else if r.interval = 1 then (listedFrom (.clock field ns) genStart, [])
    else (steppedFrom field.unit r.interval start, [.ofClock field ns])
  else if r.freq.isFinerThan field.frequency then
    if ns.isEmpty then (steppedFrom field.unit 1 start, [])
    else (listedFrom (.clock field ns) genStart, [])
  else
    (listedFrom (.clock field (if ns.isEmpty then [start.timeField field.field] else ns))
      genStart, [])

/-! ### Reachable times of day -/

/-- The time fields that a sub-daily frequency steps through, each with its size
and its weight in the unit of the frequency, and the units in a day. -/
def dayUnits : Frequency → Option (Int × List (ClockField × Int))
  | .hourly => some (24, [(.hour, 1)])
  | .minutely => some (1440, [(.hour, 60), (.minute, 1)])
  | .secondly => some (86400, [(.hour, 3600), (.minute, 60), (.second, 1)])
  | _ => none

/-- The values that a time field may take: the listed ones, or all if none is
listed. -/
def Rule.clockChoices (r : Rule) (field : ClockField) : List Int :=
  let ns := r.clockValues field
  if ns.isEmpty then (List.range (Filter.clockSize field)).map fun k : Nat => (k : Int) else ns

/-- Whether choices for the fields add up to a target, multiples of `step`
aside. -/
def Rule.meets (r : Rule) (step : Int) : Int → List (ClockField × Int) → Bool
  | target, [] => target % step == 0
  | target, (field, weight) :: fields =>
    (r.clockChoices field).any fun n => r.meets step (target - n * weight) fields

/-- A value's time of day in a unit: its fields, each times its weight. -/
def Value.timeIn (v : Value) : List (ClockField × Int) → Int
  | [] => 0
  | (field, weight) :: fields => v.timeField field.field * weight + v.timeIn fields

/-- Whether the steps of a sub-daily rule can meet its listed times of day.  Every
step lies a multiple of the interval after the start, so its time of day keeps
the remainder of the start's by the greatest common divisor of the interval
and the units in a day. -/
def Rule.reaches (r : Rule) (start : Value) : Bool :=
  match dayUnits r.freq with
  | none => true
  | some (perDay, fields) =>
    let step : Int := Int.gcd r.interval perDay
    if step = 1 ∨ fields.all fun (field, _) => (r.clockValues field).isEmpty then true
    else r.meets step (start.timeIn fields) fields

/-! ### Plans -/

/-- The generators of all fields, coarsest first, and the filters on the time of
day. -/
structure Plan where
  year : Generator
  month : Generator
  day : Generator
  hour : Generator
  minute : Generator
  second : Generator
  timeFilters : List Filter
  /-- Whether the steps of the rule can meet its listed times of day. -/
  reachable : Bool

namespace Plan

/-- What paces the years of a rule. -/
def pacerOf (r : Rule) (start : Value) (month day hour minute second : Generator) :
    Option Pacer :=
  if r.interval = 1 then none
  else match r.freq with
    | .yearly => none
    | .monthly => month.pacer?
    | .weekly =>
      if r.byDay.isEmpty then day.pacer?
      else some (.weeks (.start r.interval r.weekStart start))
    | .daily => day.pacer?
    | .hourly => hour.pacer?
    | .minutely => minute.pacer?
    | .secondly => second.pacer?

/-- The plan of a rule.  Lists begin at `genStart`; `budget` years may pass
without an instance. -/
def ofRule (r : Rule) (start genStart : Value) (budget : Int) : Plan :=
  let (month, monthFilters) := monthGenerator r start genStart
  let day := dayGenerator r start genStart
  let (hour, hourFilters) := timeGenerator r .hour start genStart
  let (minute, minuteFilters) := timeGenerator r .minute start genStart
  let (second, secondFilters) := timeGenerator r .second start genStart
  let years := YearStepper.start (if r.freq = .yearly then r.interval else 1) genStart budget
  let dateFilters := monthFilters ++ dayFilters r start
  { year := ⟨.years { years with pacer := pacerOf r start month day hour minute second }, []⟩
    month
    day := if dateFilters.isEmpty then day else day.filtered (.ofAll dateFilters)
    hour, minute, second
    timeFilters := hourFilters ++ minuteFilters ++ secondFilters
    reachable := r.reaches start }

/-- All generators, coarsest first. -/
def chain (p : Plan) : List Generator := [p.year, p.month, p.day, p.hour, p.minute, p.second]

/-- The only time of day of the plan, if there is only one. -/
def singleTime? (p : Plan) : Option TimeOfDay := do
  let hour ← p.hour.singleValue?
  let minute ← p.minute.singleValue?
  let second ← p.second.singleValue?
  return ⟨hour, minute, second⟩

end Plan

end Recurrence
