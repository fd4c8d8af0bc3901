/-
Recurrence/Proofs/Generators/Cycle.lean

Generators one cycle of the calendar later.

Generators keep years, day numbers, period keys and counts of units from a fixed origin.  Moved by
one cycle of 400 years, each of these numbers grows by the length of the cycle in its own unit.
A generator so moved, asked with fields so moved, does what it does without, and both are moved
again (`Generator.later_lockstep`).  So are the candidates of a rule whose start is moved: they
are the candidates of the start itself, moved (`Rule.candidates_later`).
-/
import Recurrence.Proofs.Calendar.Cycle
import Recurrence.Proofs.Generators.Lockstep
import Recurrence.Proofs.Meaning.Matches

namespace Recurrence

/-! ### Fields -/

namespace Fields

/-- The fields 400 years later. -/
def later (f : Fields) : Fields := { f with year := f.year + 400 }

@[simp] theorem ofValue_later (v : Value) : ofValue v.later = (ofValue v).later := rfl

@[simp] theorem date_later (f : Fields) : f.later.date = f.date.later := rfl

@[simp] theorem dayNumber_later (f : Fields) : f.later.dayNumber = f.dayNumber + cycleDays :=
  f.date.dayNumber_later

theorem toValue_later (f : Fields) (hasTime : Bool) :
    f.later.toValue hasTime = (f.toValue hasTime).later := by
  cases hasTime <;> rfl

theorem get_later (f : Fields) {field : Field} (h : field ≠ .year) :
    f.later.get field = f.get field := by
  cases field <;> first | rfl | exact absurd rfl h

theorem set_later (f : Fields) {field : Field} (h : field ≠ .year) (n : Int) :
    f.later.set field n = (f.set field n).later := by
  cases field <;> first | rfl | exact absurd rfl h

end Fields

theorem Value.timeField_later (v : Value) (unit : ClockField) :
    v.later.timeField unit.field = v.timeField unit.field :=
  Fields.get_later (Fields.ofValue v) (show unit.field ≠ .year by cases unit <;> decide)

/-- The key of a period 400 years later; keys begin with the year. -/
def laterKey : List Int → List Int
  | [] => []
  | year :: rest => (year + 400) :: rest

theorem laterKey_injective : Function.Injective laterKey := by
  intro a b h
  cases a <;> cases b <;> simp_all [laterKey]

/-! ### Listed values -/

theorem Listing.periodKey_later (l : Listing) (f : Fields) :
    l.periodKey f.later = laterKey (l.periodKey f) := by
  unfold Listing.periodKey
  split <;> rfl

theorem Listing.field_ne_year (l : Listing) : l.field ≠ .year := by
  cases l with
  | clock unit _ => cases unit <;> exact nofun
  | _ => exact nofun

/-- A period has the same listed values 400 years later. -/
theorem Listing.values_later (l : Listing) (f : Fields) : l.values f.later = l.values f := by
  cases l with
  | months _ | clock _ _ => rfl
  | monthDays ns =>
    simp only [values, Fields.later, monthDaysIn, Gregorian.monthLength_later]
  | yearDays ns =>
    simp only [values, Fields.later, yearDaysIn, Gregorian.monthLength_later,
      Gregorian.dayOfYear_later, Gregorian.yearLength_later]
  | weekNumbers ns weekStart =>
    simp only [values, Fields.later, weekDaysIn, daysOfMonth, weekListed,
      Gregorian.monthLength_later, Gregorian.weekNumber_later, Gregorian.weeksInYear_later]
  | weekdays es inYear =>
    have hdays : weekdayDaysIn inYear (f.year + 400) f.month =
        weekdayDaysIn inYear f.year f.month := by
      funext e
      simp only [weekdayDaysIn, Gregorian.monthLength_later, Gregorian.firstWeekdayOfMonth_later,
        Gregorian.weekdayNumber_later, Gregorian.yearLength_later, Gregorian.dayOfYear_later]
    simp only [values, Fields.later, hdays]

namespace Lister

/-- A generator of listed values 400 years later. -/
def later (g : Lister) : Lister :=
  { g with startPeriod := laterKey g.startPeriod, period := g.period.map laterKey }

theorem start_later (l : Listing) (v : Value) : start l v.later = (start l v).later := by
  simp only [start, later, Fields.ofValue_later, l.periodKey_later,
    Fields.get_later _ l.field_ne_year, Option.map_none]

theorem available_later (g : Lister) (f : Fields) : g.later.available f.later = g.available f := by
  have hcurrent : g.later.period = some (g.listing.periodKey f.later) ↔
      g.period = some (g.listing.periodKey f) := by
    rw [Listing.periodKey_later, ← Option.map_some (f := laterKey)]
    exact (Option.map_injective laterKey_injective).eq_iff
  have hfirst : g.listing.periodKey f.later = g.later.startPeriod ↔
      g.listing.periodKey f = g.startPeriod := by
    rw [Listing.periodKey_later]
    exact laterKey_injective.eq_iff
  unfold available
  simp only [show g.later.listing = g.listing from rfl, show g.later.rest = g.rest from rfl,
    show g.later.floor = g.floor from rfl, hcurrent, hfirst, Listing.values_later]

theorem generate_later (g : Lister) (f : Fields) :
    SameAnswer (fun g g' => g' = g.later) (fun f f' => f' = f.later) (g.generate f)
      (g.later.generate f.later) := by
  unfold generate
  rw [available_later]
  cases g.available f with
  | nil =>
    refine ⟨.rollover, ?_, rfl⟩
    simp only [later, Listing.periodKey_later, Option.map_some]
  | cons n rest =>
    refine ⟨.value, ?_, Fields.set_later f g.listing.field_ne_year n⟩
    simp only [later, Listing.periodKey_later, Option.map_some]

end Lister

/-! ### Steps -/

namespace StepUnit

/-- The units of 400 years. -/
def cycle : StepUnit → Int
  | month => 4800
  | u => cycleDays * u.perDay

theorem periodStart_later (u : StepUnit) (f : Fields) :
    u.periodStart f.later = u.periodStart f + u.cycle := by
  have hclock : f.later.hour = f.hour ∧ f.later.minute = f.minute := ⟨rfl, rfl⟩
  cases u with
  | month =>
    show (f.year + 400) * 12 = f.year * 12 + 4800
    omega
  | day =>
    show Gregorian.dayNumber (f.year + 400) f.month 1 = _ + cycleDays * 1
    rw [Gregorian.dayNumber_later, mul_one, periodStart]
  | _ =>
    simp only [periodStart, cycle, perDay, Fields.dayNumber_later, hclock]
    omega

theorem field_ne_year (u : StepUnit) : u.field ≠ .year := by cases u <;> decide

theorem offset_later (u : StepUnit) (f : Fields) : u.offset f.later = u.offset f := by
  rw [offset, offset, Fields.get_later _ u.field_ne_year]

theorem span_later (u : StepUnit) (f : Fields) : u.span f.later = u.span f := by
  cases u <;> simp only [span, Fields.later, Gregorian.monthLength_later]

theorem assign_later (u : StepUnit) (f : Fields) (slot : Int) :
    u.assign f.later slot = (u.assign f slot).later :=
  Fields.set_later f u.field_ne_year _

theorem yearStart_later (u : StepUnit) (year : Int) :
    u.yearStart (year + 400) = u.yearStart year + u.cycle := by
  cases u <;> simp only [yearStart, cycle, perDay, Gregorian.dayNumber_later] <;> omega

theorem yearOf_later (u : StepUnit) (n : Int) : u.yearOf (n + u.cycle) = u.yearOf n + 400 := by
  have hdays {perDay : Int} (h : 0 < perDay) :
      (n + cycleDays * perDay) / perDay = n / perDay + cycleDays :=
    Int.add_mul_ediv_right n cycleDays (by omega)
  cases u with
  | month =>
    simp only [yearOf, cycle]
    omega
  | _ => simp only [yearOf, cycle, perDay, hdays, Int.reduceLT, Gregorian.yearOfDayNumber_later]

end StepUnit

namespace Stepper

/-- A stepper 400 years later. -/
def later (g : Stepper) : Stepper :=
  { g with period := g.period + g.unit.cycle, last := g.last + g.unit.cycle }

theorem start_later (unit : StepUnit) (interval : Int) (v : Value) :
    start unit interval v.later = (start unit interval v).later := by
  simp only [start, later, Fields.ofValue_later, unit.periodStart_later, unit.offset_later, mk.injEq,
    true_and]
  omega

theorem nextSlot_later (g : Stepper) (period : Int) :
    g.later.nextSlot (period + g.unit.cycle) = g.nextSlot period := by
  simp only [nextSlot, later, add_left_inj, add_sub_add_right_eq_sub]

theorem generate_later (g : Stepper) (f : Fields) :
    SameAnswer (fun g g' => g' = g.later) (fun f f' => f' = f.later) (g.generate f)
      (g.later.generate f.later) := by
  have hslot := g.nextSlot_later (g.unit.periodStart f)
  unfold generate
  simp only [show g.later.unit = g.unit from rfl, show g.later.interval = g.interval from rfl,
    show g.later.period = g.period + g.unit.cycle from rfl, g.unit.periodStart_later,
    g.unit.span_later, hslot, ne_eq, add_left_inj]
  split_ifs
  · exact ⟨_, rfl, rfl⟩
  · exact ⟨_, rfl, rfl⟩
  · refine ⟨_, ?_, g.unit.assign_later f _⟩
    simp only [later, mk.injEq, true_and]
    omega

theorem firstYearFrom_later (g : Stepper) (year : Int) :
    g.later.firstYearFrom (year + 400) = g.firstYearFrom year + 400 := by
  simp only [firstYearFrom, show g.later.unit = g.unit from rfl,
    show g.later.interval = g.interval from rfl, show g.later.last = g.last + g.unit.cycle from rfl,
    g.unit.yearStart_later, add_sub_add_right_eq_sub, add_right_comm _ g.unit.cycle,
    g.unit.yearOf_later]

end Stepper

/-! ### Years -/

namespace WeekCycle

/-- Every n-th week, 400 years later. -/
def later (p : WeekCycle) : WeekCycle := { p with firstWeek := p.firstWeek + cycleDays }

theorem start_later (interval : Int) (weekStart : Weekday) (v : Value) :
    start interval weekStart v.later = (start interval weekStart v).later := by
  simp only [start, later, Value.later_date, Date.dayNumber_later, Gregorian.weekStart_later]

theorem firstYearFrom_later (p : WeekCycle) (year : Int) :
    p.later.firstYearFrom (year + 400) = p.firstYearFrom year + 400 := by
  simp only [firstYearFrom, later, Gregorian.dayNumber_later, add_sub_right_comm _ cycleDays 6,
    add_sub_add_right_eq_sub, add_right_comm _ cycleDays, Gregorian.yearOfDayNumber_later,
    max_add_add_right]

end WeekCycle

namespace Pacer

/-- A pacer 400 years later. -/
def later : Pacer → Pacer
  | slots g => slots g.later
  | weeks p => weeks p.later

theorem firstYearFrom?_later (p : Pacer) (year : Int) :
    p.later.firstYearFrom? (year + 400) = (p.firstYearFrom? year).map (· + 400) := by
  have hinterval : p.later.interval = p.interval := by cases p <;> rfl
  have hyear : p.later.firstYearFrom (year + 400) = p.firstYearFrom year + 400 := by
    cases p with
    | slots g => exact g.firstYearFrom_later year
    | weeks p => exact p.firstYearFrom_later year
  unfold firstYearFrom?
  rw [hinterval, hyear]
  split_ifs <;> rfl

end Pacer

namespace YearStepper

/-- A generator of years 400 years later. -/
def later (g : YearStepper) : YearStepper :=
  { g with year := g.year + 400, pacer := g.pacer.map Pacer.later }

theorem start_later (interval : Int) (v : Value) (budget : Int) :
    start interval v.later budget = (start interval v budget).later := by
  simp only [start, later, Value.later_date, Date.later_year, Option.map_none, add_sub_right_comm]

theorem generate_later (g : YearStepper) (f : Fields) :
    SameAnswer (fun g g' => g' = g.later) (fun f f' => f' = f.later) (g.generate f)
      (g.later.generate f.later) := by
  unfold generate
  simp only [show g.later.remaining = g.remaining from rfl]
  split_ifs
  · exact ⟨_, rfl, rfl⟩
  · have hnext : g.later.year + g.later.interval = g.year + g.interval + 400 := by
      simp only [later]
      omega
    rw [hnext]
    cases hp : g.pacer with
    | none =>
      simp only [later, hp, Option.map_none]
      exact ⟨_, rfl, rfl⟩
    | some p =>
      have hpaced : (p.later.firstYearFrom? (g.year + g.interval + 400)).map
            (max (g.year + g.interval + 400)) =
          ((p.firstYearFrom? (g.year + g.interval)).map (max (g.year + g.interval))).map
            (· + 400) := by
        rw [p.firstYearFrom?_later]
        cases p.firstYearFrom? (g.year + g.interval) with
        | error why => rfl
        | ok year => exact congrArg Except.ok (max_add_add_right ..)
      simp only [later, hp, Option.map_some, hpaced]
      cases (p.firstYearFrom? (g.year + g.interval)).map (max (g.year + g.interval)) with
      | error why => exact ⟨_, rfl, rfl⟩
      | ok year => exact ⟨_, rfl, rfl⟩

end YearStepper

/-! ### Filters -/

namespace Filter

mutual

/-- A filter 400 years later. -/
def later : Filter → Filter
  | weekInterval interval firstWeek => weekInterval interval (firstWeek + cycleDays)
  | all fs => all (laterAll fs)
  | p => p

/-- Filters 400 years later. -/
def laterAll : List Filter → List Filter
  | [] => []
  | p :: ps => p.later :: laterAll ps

end

theorem laterAll_eq_map (ps : List Filter) : laterAll ps = ps.map later := by
  induction ps with
  | nil => rfl
  | cons p ps ih => rw [laterAll, ih, List.map_cons]

mutual

/-- What a filter accepts, it accepts 400 years later. -/
theorem accepts_later : ∀ (p : Filter) (v : Value), p.later.accepts v.later = p.accepts v
  | always, v => rfl
  | weekdays es inYear, v => by
    have hentry : entryAccepts inYear v.date.later = entryAccepts inYear v.date := by
      funext e
      simp only [entryAccepts, ordinalPosition, weekdayPosition, Date.weekdayNumber_later,
        Date.dayOfYear_later, Date.later_day, Date.later_year, Date.later_month,
        Gregorian.weekdayNumber_later, Gregorian.yearLength_later,
        Gregorian.firstWeekdayOfMonth_later, Gregorian.monthLength_later]
    simp only [later, accepts, Value.later_date, hentry]
  | monthDays ns, v => by
    simp only [later, accepts, acceptsMonthDay, Value.later_date, Date.later_day, Date.later_year,
      Date.later_month, Gregorian.monthLength_later]
  | yearDays ns, v => by
    simp only [later, accepts, acceptsYearDay, Value.later_date, Date.dayOfYear_later,
      Date.later_year, Gregorian.yearLength_later]
  | weekNumbers ns weekStart, v => by
    simp only [later, accepts, Value.later_date, Date.weekNumber_later, weekListed,
      Gregorian.weeksInYear_later]
  | months ns, v => rfl
  | clock unit ns, v => by
    simp only [later, accepts, Value.hasTime_later, Value.timeField_later]
  | weekInterval interval firstWeek, v => by
    simp only [later, accepts, acceptsWeek, Value.later_date, Date.dayNumber_later,
      add_sub_add_right_eq_sub]
  | all ps, v => by
    simp only [later, accepts]
    exact acceptsAll_later ps v

theorem acceptsAll_later : ∀ (ps : List Filter) (v : Value),
    acceptsAll (laterAll ps) v.later = acceptsAll ps v
  | [], v => rfl
  | p :: ps, v => by
    simp only [laterAll, acceptsAll, accepts_later p v, acceptsAll_later ps v]

end

theorem isAlways_later (p : Filter) : p.later.isAlways = p.isAlways := by
  cases p <;> simp only [later, isAlways]

theorem ofAll_later (ps : List Filter) : ofAll (ps.map later) = (ofAll ps).later := by
  have hkept : (ps.map later).filter (fun p => !p.isAlways) =
      (ps.filter fun p => !p.isAlways).map later := by
    simp only [List.filter_map, Function.comp_def, isAlways_later]
  unfold ofAll
  rw [hkept]
  rcases ps.filter _ with _ | ⟨p, _ | ⟨q, qs⟩⟩
  · rfl
  · rfl
  · simp only [List.map_cons, later, laterAll, laterAll_eq_map]

theorem ofWeekInterval_later (interval : Int) (weekStart : Weekday) (v : Value) :
    ofWeekInterval interval weekStart v.later = (ofWeekInterval interval weekStart v).later := by
  simp only [ofWeekInterval, later, Value.later_date, Date.dayNumber_later,
    Gregorian.weekStart_later]

end Filter

/-! ### Generators -/

/-- The source of a field's values 400 years later. -/
def FieldSource.later : FieldSource → FieldSource
  | years g => years g.later
  | slots g => slots g.later
  | listed g => listed g.later

theorem FieldSource.generate_later (s : FieldSource) (f : Fields) :
    SameAnswer (fun s s' => s' = s.later) (fun f f' => f' = f.later) (s.generate f)
      (s.later.generate f.later) := by
  cases s with
  | years g => exact (g.generate_later f).map fun _ _ h => congrArg years h
  | slots g => exact (g.generate_later f).map fun _ _ h => congrArg slots h
  | listed g => exact (g.generate_later f).map fun _ _ h => congrArg listed h

namespace Generator

/-- A generator 400 years later. -/
def later (g : Generator) : Generator := ⟨g.source.later, g.filters.map Filter.later⟩

/-- **A generator 400 years later** does what it does now. -/
theorem generate_later (n : Nat) (g : Generator) (f : Fields) :
    Option.Rel (SameAnswer (fun g g' => g' = g.later) fun f f' => f' = f.later) (g.generate n f)
      (g.later.generate n f.later) := by
  refine generate_rel (S := fun s s' => s' = s.later) ?_ ?_ ?_ n rfl rfl
  · rintro s _ f _ rfl rfl
    exact s.generate_later f
  · rintro f _ rfl
    rw [later, ← Filter.laterAll_eq_map]
    exact (Filter.acceptsAll_later g.filters (.ofDate f.date)).symm
  · rintro s _ rfl
    rfl

theorem refill_later (g : Generator) : g.later.refill = g.refill.later := by
  obtain ⟨source, filters⟩ := g
  cases source <;> rfl

/-- **Generators go in step with themselves 400 years later.** -/
theorem later_lockstep : Generator.Lockstep (fun g g' => g' = g.later) (fun f f' => f' = f.later)
    fun v v' => v' = v.later where
  generate n g g' f f' hg hf := by
    subst hg hf
    exact g.generate_later n f
  refill g g' hg := by
    subst hg
    exact g.refill_later
  stands f f' l l' hf hl := by
    subst hf hl
    exact ⟨(add_lt_add_iff_right 400).symm, (add_left_inj 400).symm, .rfl⟩

theorem filtered_later (g : Generator) (p : Filter) :
    g.later.filtered p.later = (g.filtered p).later := by
  simp only [filtered, later, List.map_append, List.map_cons, List.map_nil]

theorem pacer?_later (g : Generator) : g.later.pacer? = g.pacer?.map Pacer.later := by
  obtain ⟨source, filters⟩ := g
  cases source <;> cases filters <;> rfl

theorem singleValue?_later (g : Generator) : g.later.singleValue? = g.singleValue? := by
  obtain ⟨source, filters⟩ := g
  cases source <;> cases filters <;> rfl

end Generator

/-! ### Plans -/

section Plans

variable (r : Rule) (start genStart : Value)

/-- A generator and its filters 400 years later. -/
def laterPair (x : Generator × List Filter) : Generator × List Filter :=
  (x.1.later, x.2.map Filter.later)

theorem listedFrom_later (l : Listing) (v : Value) : listedFrom l v.later = (listedFrom l v).later := by
  simp only [listedFrom, Lister.start_later]
  rfl

theorem steppedFrom_later (unit : StepUnit) (interval : Int) (v : Value) :
    steppedFrom unit interval v.later = (steppedFrom unit interval v).later := by
  simp only [steppedFrom, Stepper.start_later]
  rfl

theorem monthGenerator_later : monthGenerator r start.later genStart.later =
    laterPair (monthGenerator r start genStart) := by
  simp only [monthGenerator, listedFrom_later, steppedFrom_later, Value.later_date, Date.later_month]
  split_ifs <;> rfl

theorem dayGenerator_later :
    dayGenerator r start.later genStart.later = (dayGenerator r start genStart).later := by
  unfold dayGenerator defaultDayGenerator
  cases drivingDayPart r with
  | some part => exact listedFrom_later _ _
  | none =>
    cases r.freq <;>
      simp only [listedFrom_later, steppedFrom_later, Value.later_date, Date.later_day]

theorem dayFilters_later : dayFilters r start.later = (dayFilters r start).map Filter.later := by
  have hpart (part : DayPart) : (dayFilter r part).map Filter.later = dayFilter r part := by
    cases part <;> unfold dayFilter <;> split_ifs <;> rfl
  have hweek : weekFilter r start.later = (weekFilter r start).map Filter.later := by
    unfold weekFilter
    rw [Filter.ofWeekInterval_later]
    split_ifs <;> rfl
  unfold dayFilters
  rw [hweek, List.map_append, Option.toList_map, List.map_filterMap]
  simp only [hpart]

theorem timeGenerator_later (field : ClockField) :
    timeGenerator r field start.later genStart.later =
      laterPair (timeGenerator r field start genStart) := by
  have hclock (ns : List Int) : (Filter.ofClock field ns).later = Filter.ofClock field ns := by
    unfold Filter.ofClock
    split_ifs <;> rfl
  simp only [timeGenerator, listedFrom_later, steppedFrom_later, Value.timeField_later]
  split_ifs <;> simp only [laterPair, List.map_cons, List.map_nil, hclock]

theorem pacerOf_later (month day hour minute second : Generator) :
    Plan.pacerOf r start.later month.later day.later hour.later minute.later second.later =
      (Plan.pacerOf r start month day hour minute second).map Pacer.later := by
  unfold Plan.pacerOf
  simp only [Generator.pacer?_later, WeekCycle.start_later]
  split_ifs
  · rfl
  all_goals cases r.freq <;> rfl

theorem timeIn_later (fields : List (ClockField × Int)) :
    start.later.timeIn fields = start.timeIn fields := by
  induction fields with
  | nil => rfl
  | cons head _ ih => simp only [Value.timeIn, Value.timeField_later, ih]

theorem reaches_later : r.reaches start.later = r.reaches start := by
  simp only [Rule.reaches, timeIn_later]

/-- A plan 400 years later. -/
def Plan.later (p : Plan) : Plan :=
  { year := p.year.later, month := p.month.later, day := p.day.later, hour := p.hour.later,
    minute := p.minute.later, second := p.second.later,
    timeFilters := p.timeFilters.map Filter.later, reachable := p.reachable }

theorem Plan.ofRule_later (budget : Int) :
    Plan.ofRule r start.later genStart.later budget = (Plan.ofRule r start genStart budget).later := by
  have hday : ∀ (g : Generator) (ps : List Filter), (if (ps.map Filter.later).isEmpty then g.later
      else g.later.filtered (.ofAll (ps.map Filter.later))) =
        (if ps.isEmpty then g else g.filtered (.ofAll ps)).later := by
    intro g ps
    rw [Filter.ofAll_later, Generator.filtered_later, List.isEmpty_map]
    split_ifs <;> rfl
  simp only [Plan.ofRule, Plan.later, monthGenerator_later, dayGenerator_later, timeGenerator_later,
    dayFilters_later, laterPair, YearStepper.start_later, pacerOf_later, reaches_later,
    ← List.map_append, hday]
  rfl

theorem singleTime?_later (p : Plan) : p.later.singleTime? = p.singleTime? := by
  simp only [Plan.singleTime?, Plan.later, Generator.singleValue?_later]

end Plans

/-! ### Candidates -/

/-- Candidates 400 years later. -/
def Candidates.later (c : Candidates) : Candidates :=
  { c with chain := c.chain.map Generator.later, fields := c.fields.later, filter := c.filter.later }

/-- Candidates that go in step with others as these do 400 years later. -/
abbrev Candidates.InStepLater : Candidates → Candidates → Prop :=
  InStep (fun g g' => g' = g.later) (fun f f' => f' = f.later) fun v v' => v' = v.later

/-- Candidates are in step with themselves 400 years later. -/
theorem Candidates.inStep_later (c : Candidates) : InStepLater c c.later where
  chain := List.forall₂_map_right_iff.mpr (List.forall₂_same.mpr fun _ _ => rfl)
  fields := rfl
  credited := rfl
  value f f' hf := by
    subst hf
    exact f.toValue_later c.hasTime
  accepts v v' hv := by
    subst hv
    exact (c.filter.accepts_later v).symm

/-- **The candidates of a start 400 years later** are those of the start, 400 years later. -/
theorem Rule.candidates_later (r : Rule) (start : Value) (budget : Int) :
    r.candidates start.later budget = (r.candidates start budget).later := by
  have hlist : Series.listStart r start.later = (Series.listStart r start).later := by
    unfold Series.listStart
    rw [periodStart_later]
    split_ifs <;> rfl
  unfold Rule.candidates Rule.plan Rule.listStart
  rw [hlist, Plan.ofRule_later]
  generalize Plan.ofRule r start (Series.listStart r start) budget = p
  unfold Series.candidates
  rw [hlist, singleTime?_later, Value.hasTime_later]
  cases start.hasTime with
  | false =>
    simp only [Candidates.later, Plan.later, Filter.ofAll_later]
    rfl
  | true =>
    cases p.singleTime? <;> simp only [Candidates.later, Plan.later, Filter.ofAll_later] <;> rfl

end Recurrence
