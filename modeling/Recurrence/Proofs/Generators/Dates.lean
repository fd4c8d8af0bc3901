/-
Recurrence/Proofs/Generators/Dates.lean

Generators of years, months and days do not see the time of day.

They look at the fields of the date alone and change nothing else, so a time that stands in the
finer fields stays there.  Where a rule is not below the day and lists no times, a start with a
time of day leaves one time only.  Its candidates then come from the very generators that a start
without a time has, and both go in step (`Rule.candidates_inStep_atTime`).
-/
import Recurrence.Proofs.Generators.Lockstep
import Recurrence.Proofs.Meaning.Matches

namespace Recurrence

variable {t : TimeOfDay}

theorem Frequency.cases_of_days {f : Frequency} (h : f.isSubDaily = false) :
    f = .daily ∨ f = .weekly ∨ f = .monthly ∨ f = .yearly := by
  revert h
  cases f <;> decide

/-! ### Fields -/

namespace Fields

/-- The fields at another time of day. -/
def atTime (f : Fields) (t : TimeOfDay) : Fields :=
  { f with hour := t.hour, minute := t.minute, second := t.second }

theorem ofValue_withoutTime (v : Value) : ofValue v.withoutTime = (ofValue v).atTime .midnight := rfl

theorem get_atTime (f : Fields) {field : Field} (h : field.level < 3) :
    (f.atTime t).get field = f.get field := by
  cases field <;> first | rfl | exact absurd h (by decide)

theorem set_atTime (f : Fields) {field : Field} (h : field.level < 3) (n : Int) :
    (f.atTime t).set field n = (f.set field n).atTime t := by
  cases field <;> first | rfl | exact absurd h (by decide)

end Fields

/-! ### Generators -/

theorem ClockField.three_le_level (unit : ClockField) : 3 ≤ unit.field.level := by
  cases unit <;> decide

namespace Lister

variable {l : Listing}

theorem periodKey_atTime (h : l.field.level < 3) (f : Fields) :
    l.periodKey (f.atTime t) = l.periodKey f := by
  cases l with
  | clock unit _ => exact absurd h unit.three_le_level.not_gt
  | _ => rfl

theorem values_atTime (h : l.field.level < 3) (f : Fields) :
    l.values (f.atTime t) = l.values f := by
  cases l with
  | clock unit _ => exact absurd h unit.three_le_level.not_gt
  | _ => rfl

theorem start_withoutTime (h : l.field.level < 3) (v : Value) :
    start l v.withoutTime = start l v := by
  simp only [start, Fields.ofValue_withoutTime, periodKey_atTime h, Fields.get_atTime _ h]

theorem generate_atTime (g : Lister) (h : g.listing.field.level < 3) (f : Fields) :
    g.generate (f.atTime t) =
      ((g.generate f).1, (g.generate f).2.1, (g.generate f).2.2.atTime t) := by
  simp only [generate, available, periodKey_atTime h, values_atTime h]
  split
  · rfl
  · rw [Fields.set_atTime _ h]

end Lister

namespace Stepper

variable {unit : StepUnit}

theorem periodStart_atTime (h : unit.field.level < 3) (f : Fields) :
    unit.periodStart (f.atTime t) = unit.periodStart f := by
  cases unit <;> first | rfl | exact absurd h (by decide)

theorem span_atTime (f : Fields) : unit.span (f.atTime t) = unit.span f := by
  cases unit <;> rfl

theorem start_withoutTime (u : StepUnit) (h : u.field.level < 3) (interval : Int) (v : Value) :
    start u interval v.withoutTime = start u interval v := by
  simp only [start, StepUnit.offset, Fields.ofValue_withoutTime, periodStart_atTime h,
    Fields.get_atTime _ h]

theorem generate_atTime (g : Stepper) (h : g.unit.field.level < 3) (f : Fields) :
    g.generate (f.atTime t) =
      ((g.generate f).1, (g.generate f).2.1, (g.generate f).2.2.atTime t) := by
  simp only [generate, periodStart_atTime h, span_atTime]
  split_ifs
  · rfl
  · rfl
  · simp only [StepUnit.assign, Fields.set_atTime _ h]

end Stepper

theorem YearStepper.generate_atTime (g : YearStepper) (f : Fields) :
    g.generate (f.atTime t) =
      ((g.generate f).1, (g.generate f).2.1, (g.generate f).2.2.atTime t) := by
  simp only [generate]
  split_ifs
  · rfl
  · split <;> rfl

namespace FieldSource

theorem generate_atTime (s : FieldSource) (h : s.field.level < 3) (f : Fields) :
    s.generate (f.atTime t) =
      ((s.generate f).1, (s.generate f).2.1, (s.generate f).2.2.atTime t) := by
  cases s with
  | years g => simp only [generate, g.generate_atTime f]
  | slots g => simp only [generate, g.generate_atTime h f]
  | listed g => simp only [generate, g.generate_atTime h f]

/-- A generator stays one of its field. -/
theorem field_generate (s : FieldSource) (f : Fields) : (s.generate f).2.1.field = s.field := by
  cases s with
  | years g => rfl
  | slots g =>
    simp only [generate, Stepper.generate]
    split_ifs <;> rfl
  | listed g =>
    simp only [generate, Lister.generate]
    split <;> rfl

end FieldSource

namespace Generator

/-- The same generator, of a year, a month or a day. -/
def SameDate (g g' : Generator) : Prop := g = g' ∧ g'.source.field.level < 3

/-- **Generators of dates** do the same at any time of day, and leave the time as it is. -/
theorem generate_atTime (n : Nat) (g : Generator) (h : g.source.field.level < 3) (f : Fields) :
    Option.Rel (SameAnswer SameDate fun f f' => f = f'.atTime t) (g.generate n (f.atTime t))
      (g.generate n f) := by
  refine generate_rel (S := fun s s' => s = s' ∧ s'.field.level < 3) ?_ ?_ ?_ n ⟨rfl, h⟩ rfl
  · rintro s _ _ f ⟨rfl, h⟩ rfl
    have hfield : (s.generate f).2.1.field.level < 3 := by rwa [s.field_generate f]
    rw [s.generate_atTime h f]
    exact ⟨_, ⟨rfl, hfield⟩, rfl⟩
  · rintro _ f rfl
    rfl
  · rintro s _ ⟨rfl, h⟩
    exact ⟨rfl, h⟩

theorem field_refill (g : Generator) : g.refill.source.field = g.source.field := by
  obtain ⟨source, filters⟩ := g
  cases source <;> rfl

end Generator

/-- The same date, with and without a time of day. -/
def Value.AtTime (t : TimeOfDay) (v v' : Value) : Prop := v.time = some t ∧ v' = v.withoutTime

/-- **Generators of dates go in step** whether or not a time of day stands in the finer fields. -/
theorem Generator.lockstep_atTime (t : TimeOfDay) :
    Generator.Lockstep SameDate (fun f f' => f = f'.atTime t) (Value.AtTime t) where
  generate n g g' f f' hg hf := by
    obtain ⟨rfl, h⟩ := hg
    subst hf
    exact g.generate_atTime n h f'
  refill g g' hg := by
    obtain ⟨rfl, h⟩ := hg
    exact ⟨rfl, by rwa [g.field_refill]⟩
  stands f f' l l' hf hl := by
    obtain ⟨-, rfl⟩ := hl
    subst hf
    exact ⟨.rfl, .rfl, .rfl⟩

/-- Candidates that go in step with others, of the same dates without the time of day. -/
abbrev Candidates.InStepAtTime (t : TimeOfDay) : Candidates → Candidates → Prop :=
  InStep Generator.SameDate (fun f f' => f = f'.atTime t) (Value.AtTime t)

/-! ### Plans -/

/-- A rule without its times of day. -/
def Rule.withoutTimes (r : Rule) : Rule := { r with byHour := [], byMinute := [], bySecond := [] }

section Plans

variable (r : Rule) (start genStart : Value)

theorem monthGenerator_withoutTime :
    monthGenerator r start.withoutTime genStart.withoutTime = monthGenerator r start genStart := by
  simp only [monthGenerator, listedFrom, steppedFrom,
    Lister.start_withoutTime (l := .months _) (by decide : Field.month.level < 3),
    Stepper.start_withoutTime .month (by decide)]
  rfl

theorem dayGenerator_withoutTime :
    dayGenerator r start.withoutTime genStart.withoutTime = dayGenerator r start genStart := by
  unfold dayGenerator defaultDayGenerator
  cases drivingDayPart r with
  | some part =>
    have hday : (dayListing r part).field.level < 3 := by cases part <;> exact Nat.lt_succ_self 2
    simp only [listedFrom, Lister.start_withoutTime hday]
  | none =>
    simp only [listedFrom, steppedFrom,
      Lister.start_withoutTime (l := .monthDays _) (by decide : Field.day.level < 3),
      Stepper.start_withoutTime .day (by decide)]
    rfl

/-- What paces the years of a rule not below the day is told by its dates. -/
theorem pacerOf_withoutTime (hsub : r.freq.isSubDaily = false)
    (month day hour minute second hour' minute' second' : Generator) :
    Plan.pacerOf r start.withoutTime month day hour' minute' second' =
      Plan.pacerOf r start month day hour minute second := by
  have hweeks : WeekCycle.start r.interval r.weekStart start.withoutTime =
      .start r.interval r.weekStart start := rfl
  unfold Plan.pacerOf
  rw [hweeks]
  rcases Frequency.cases_of_days hsub with hf | hf | hf | hf <;> rw [hf]

end Plans

namespace Rule

variable {r : Rule}

theorem listStart_withoutTime (r : Rule) (start : Value) :
    r.listStart start.withoutTime = (r.listStart start).withoutTime :=
  (apply_ite Value.withoutTime (r.bySetPos.isEmpty = true) start (periodStart r.freq start)).symm

/-- Without a time of day, the generators of a plan's dates are the same. -/
theorem plan_withoutTime (hsub : r.freq.isSubDaily = false) (start : Value) (budget : Int) :
    (r.withoutTimes.plan start budget).year = (r.plan start.withoutTime budget).year ∧
      (r.withoutTimes.plan start budget).month = (r.plan start.withoutTime budget).month ∧
      (r.withoutTimes.plan start budget).day = (r.plan start.withoutTime budget).day := by
  have hlist := r.listStart_withoutTime start
  have hmonth := monthGenerator_withoutTime r start (r.listStart start)
  have hday := dayGenerator_withoutTime r start (r.listStart start)
  simp only [plan, Plan.ofRule, hlist, hmonth, hday]
  refine ⟨?_, rfl, rfl⟩
  rw [pacerOf_withoutTime r start hsub]
  rfl

/-- Where no times are listed, the start's are. -/
theorem timeGenerator_withoutTimes (hsub : r.freq.isSubDaily = false) (field : ClockField)
    (start genStart : Value) : timeGenerator r.withoutTimes field start genStart =
      (listedFrom (.clock field [start.timeField field.field]) genStart, []) := by
  have hnil : r.withoutTimes.clockValues field = [] := by cases field <;> rfl
  have hcoarser : r.freq ≠ field.frequency ∧ r.freq.isFinerThan field.frequency = false := by
    rcases Frequency.cases_of_days hsub with hf | hf | hf | hf <;> rw [hf] <;>
      cases field <;> exact ⟨nofun, rfl⟩
  unfold timeGenerator
  rw [hnil, if_neg (show r.withoutTimes.freq ≠ _ from hcoarser.1),
    show r.withoutTimes.freq.isFinerThan _ = false from hcoarser.2]
  rfl

/-- A start with a time of day leaves this time only. -/
theorem singleTime?_withoutTimes (hsub : r.freq.isSubDaily = false) (d : Date) (t : TimeOfDay)
    (budget : Int) : (r.withoutTimes.plan (.ofDateTime d t) budget).singleTime? = some t := by
  simp only [plan, Plan.ofRule, Plan.singleTime?, timeGenerator_withoutTimes hsub]
  rfl

/-- **The candidates of a start with a time of day go in step with those of its date.** -/
theorem candidates_inStep_atTime {d : Date} (h : r.Admits (.ofDate d))
    (hsub : r.freq.isSubDaily = false) (t : TimeOfDay) {budget : Int} :
    (r.withoutTimes.candidates (.ofDateTime d t) budget).InStepAtTime t
      (r.candidates (.ofDate d) budget) := by
  obtain ⟨hyear, hmonth, hday⟩ := plan_withoutTime hsub (.ofDateTime d t) budget
  have hfields : (Fields.ofValue (r.listStart (.ofDate d))).atTime t =
      (Fields.ofValue (r.listStart (.ofDateTime d t))).atTime t := by
    rw [show Value.ofDate d = (Value.ofDateTime d t).withoutTime from rfl, r.listStart_withoutTime,
      Fields.ofValue_withoutTime]
    rfl
  have htimed : r.withoutTimes.candidates (.ofDateTime d t) budget =
      ⟨[(r.plan (.ofDate d) budget).year, (r.plan (.ofDate d) budget).month,
        (r.plan (.ofDate d) budget).day], (Fields.ofValue (r.listStart (.ofDate d))).atTime t,
        .ofAll [], true, if r.bySetPos.isEmpty then some 0 else none⟩ := by
    unfold candidates Series.candidates
    rw [hfields, singleTime?_withoutTimes hsub, hyear, hmonth, hday,
      timeFilters_of_days (r := r.withoutTimes) hsub]
    rfl
  have hplain : r.candidates (.ofDate d) budget =
      ⟨[(r.plan (.ofDate d) budget).year, (r.plan (.ofDate d) budget).month,
        (r.plan (.ofDate d) budget).day], Fields.ofValue (r.listStart (.ofDate d)),
        .ofAll [], false, if r.bySetPos.isEmpty then some 0 else none⟩ := by
    unfold candidates Series.candidates
    rw [timeFilters_of_days hsub]
    rfl
  rw [htimed, hplain]
  refine ⟨.cons ⟨rfl, Nat.zero_lt_succ 2⟩ (.cons ⟨rfl, ?_⟩ (.cons ⟨rfl, ?_⟩ .nil)), rfl, rfl, ?_, ?_⟩
  · rw [(begins_dates h budget le_rfl (i := 0) rfl).2]
    decide
  · rw [(begins_dates h budget le_rfl (i := 1) rfl).2]
    decide
  · rintro f f' rfl
    exact ⟨rfl, rfl⟩
  · exact fun v v' _ => rfl

end Rule

end Recurrence
