/-
Recurrence/Proofs/ListedSets.lean

Only the set of listed values matters.

A rule keeps its lists as they were written.  In what order they name their values and how often
reaches the engine in many places: listings sort what they list, filters look it up, positions
are turned into indexes, the greatest of them says how many candidates to keep, listed times are
tried one by one for one that the steps can meet.  For each place one lemma says that it depends
on the elements of its list alone.  The generators of two rules with the same elements are then
alike, and no calls can tell their series apart (`order_and_repetition_do_not_matter`).
-/
import Recurrence.Proofs.DateTargets
import Recurrence.Proofs.Generators.Alike
import Recurrence.Proofs.Meaning.Matches
import Recurrence.Proofs.Positions

namespace Recurrence

/-! ### Listings -/

section Listings

variable {ns ns' : List Int}

namespace Listing

theorem alike_months (h : SameElements ns ns') : (months ns).Alike (months ns') :=
  ⟨rfl, fun _ => rfl, fun _ => h.ascendingInts, rfl⟩

theorem alike_monthDays (h : SameElements ns ns') : (monthDays ns).Alike (monthDays ns') :=
  ⟨rfl, fun _ => rfl, fun _ => ((h.map _).filter _).ascendingInts, rfl⟩

theorem alike_yearDays (h : SameElements ns ns') : (yearDays ns).Alike (yearDays ns') :=
  ⟨rfl, fun _ => rfl, fun _ => ((h.map _).filter _).ascendingInts, rfl⟩

theorem alike_weekNumbers (h : SameElements ns ns') (weekStart : Weekday) :
    (weekNumbers ns weekStart).Alike (weekNumbers ns' weekStart) := by
  refine ⟨rfl, fun _ => rfl, fun f => ?_, rfl⟩
  simp only [values, weekDaysIn, weekListed, h.contains]

theorem alike_weekdays {es es' : List WeekdayNum} (h : SameElements es es') (inYear : Bool) :
    (weekdays es inYear).Alike (weekdays es' inYear) :=
  ⟨rfl, fun _ => rfl, fun _ => (h.flatMap _).ascendingInts, rfl⟩

theorem alike_clock (h : SameElements ns ns') (unit : ClockField) :
    (clock unit ns).Alike (clock unit ns') := by
  refine ⟨rfl, fun f => ?_, fun _ => h.ascendingInts, ?_⟩
  · cases unit <;> rfl
  · simp only [singleValue?, h.ascendingInts]

end Listing

/-! ### Filters -/

namespace Filter

theorem alike_weekdays {es es' : List WeekdayNum} (h : SameElements es es') (inYear : Bool) :
    (weekdays es inYear).Alike (weekdays es' inYear) :=
  ⟨rfl, fun v => by simp only [accepts, h.any]⟩

theorem alike_monthDays (h : SameElements ns ns') : (monthDays ns).Alike (monthDays ns') :=
  ⟨rfl, fun v => by simp only [accepts, acceptsMonthDay, h.any]⟩

theorem alike_yearDays (h : SameElements ns ns') : (yearDays ns).Alike (yearDays ns') :=
  ⟨rfl, fun v => by simp only [accepts, acceptsYearDay, h.contains]⟩

theorem alike_weekNumbers (h : SameElements ns ns') (weekStart : Weekday) :
    (weekNumbers ns weekStart).Alike (weekNumbers ns' weekStart) :=
  ⟨rfl, fun v => by simp only [accepts, weekListed, h.contains]⟩

theorem alike_months (h : SameElements ns ns') : (months ns).Alike (months ns') :=
  ⟨rfl, fun v => by simp only [accepts, acceptsPosition, h.contains]⟩

theorem alike_ofClock (h : SameElements ns ns') (unit : ClockField) :
    (ofClock unit ns).Alike (ofClock unit ns') := by
  unfold ofClock
  rw [h.ascendingInts]
  split_ifs
  · exact .refl _
  · exact ⟨rfl, fun v => by simp only [accepts, acceptsPosition, h.contains]⟩

end Filter

end Listings

/-! ### Positions -/

theorem selectPositions_congr {α : Type} {ps ps' : List Int} (h : SameElements ps ps')
    (xs : List α) : selectPositions ps xs = selectPositions ps' xs := by
  simp only [selectPositions, (h.map _).ascendingInts]

/-- How many candidates to keep is a matter of the greatest position. -/
theorem keptOfPeriod_congr {ps ps' : List Int} (h : SameElements ps ps') :
    keptOfPeriod ps = keptOfPeriod ps' := by
  have hle {xs ys : List Int} (hsub : ∀ p ∈ xs, p ∈ ys) : xs.foldl max 0 ≤ ys.foldl max 0 := by
    obtain ⟨hzero, hall⟩ := foldl_max_spec ys 0
    generalize ys.foldl max 0 = m at hzero hall
    exact List.foldlRecOn xs max (motive := (· ≤ m)) hzero
      fun n hn p hp => max_le hn (hall p (hsub p hp))
  unfold keptOfPeriod
  rw [h.all, le_antisymm (hle h.1) (hle h.2)]

/-! ### Generators and plans -/

theorem listedFrom_alike {l l' : Listing} (h : l.Alike l') (v : Value) :
    (listedFrom l v).Alike (listedFrom l' v) := by
  refine ⟨.listed ?_, .nil⟩
  simp only [Lister.start, ← h.periodKey, ← h.field]
  exact ⟨h⟩

/-- Plans with alike generators and filters. -/
structure Plan.Alike (p p' : Plan) : Prop where
  year : p.year.Alike p'.year
  month : p.month.Alike p'.month
  day : p.day.Alike p'.day
  hour : p.hour.Alike p'.hour
  minute : p.minute.Alike p'.minute
  second : p.second.Alike p'.second
  timeFilters : List.Forall₂ Filter.Alike p.timeFilters p'.timeFilters

theorem Plan.Alike.singleTime? {p p' : Plan} (h : p.Alike p') : p.singleTime? = p'.singleTime? := by
  simp only [Plan.singleTime?, h.hour.singleValue?, h.minute.singleValue?, h.second.singleValue?]

/-- Two rules that differ at most in the order and repetition of what they list. -/
structure Rule.SameLists (r r' : Rule) : Prop where
  freq : r.freq = r'.freq
  interval : r.interval = r'.interval
  count : r.count = r'.count
  untilBound : r.untilBound = r'.untilBound
  weekStart : r.weekStart = r'.weekStart
  byDay : SameElements r.byDay r'.byDay
  values : ∀ part, SameElements (r.values part) (r'.values part)

namespace Rule.SameLists

variable {r r' : Rule} {start genStart : Value}

section

variable (h : r.SameLists r')

include h

theorem month : SameElements r.byMonth r'.byMonth := h.values .month

theorem monthDay : SameElements r.byMonthDay r'.byMonthDay := h.values .monthDay

theorem yearDay : SameElements r.byYearDay r'.byYearDay := h.values .yearDay

theorem weekNo : SameElements r.byWeekNo r'.byWeekNo := h.values .weekNo

theorem setPos : SameElements r.bySetPos r'.bySetPos := h.values .setPos

theorem clockValues (field : ClockField) :
    SameElements (r.clockValues field) (r'.clockValues field) := by
  cases field with
  | hour => exact h.values .hour
  | minute => exact h.values .minute
  | second => exact h.values .second

/-- Stripped of ordinals without a meaning, entries may coincide that did not before. -/
theorem plainByDay : SameElements r.plainByDay r'.plainByDay := by
  have hordinals : r.hasOrdinals = r'.hasOrdinals := h.byDay.any _
  unfold Rule.plainByDay
  rw [← hordinals, ← h.freq]
  split_ifs
  · exact h.byDay
  · exact h.byDay.map _

theorem namesNoDays : r.namesNoDays = r'.namesNoDays := by
  simp only [Rule.namesNoDays, h.yearDay.isEmpty, h.monthDay.isEmpty, h.weekNo.isEmpty,
    h.byDay.isEmpty]

theorem ordinalsInYear : r.ordinalsInYear = r'.ordinalsInYear := by
  simp only [Rule.ordinalsInYear, h.freq, h.month.isEmpty]

theorem drivingDayPart : drivingDayPart r = drivingDayPart r' := by
  simp only [Recurrence.drivingDayPart, h.freq, h.interval, h.yearDay.isEmpty, h.monthDay.isEmpty,
    h.weekNo.isEmpty, h.byDay.isEmpty]

theorem monthGenerator (start genStart : Value) :
    (monthGenerator r start genStart).1.Alike (monthGenerator r' start genStart).1 ∧
      List.Forall₂ Filter.Alike (Recurrence.monthGenerator r start genStart).2
        (Recurrence.monthGenerator r' start genStart).2 := by
  unfold Recurrence.monthGenerator
  rw [← h.month.isEmpty, ← h.freq, ← h.interval, ← h.namesNoDays]
  split_ifs
  · exact ⟨.refl _, .cons (Filter.alike_months h.month) .nil⟩
  · exact ⟨listedFrom_alike (Listing.alike_months h.month) genStart, .nil⟩
  all_goals exact ⟨.refl _, .nil⟩

theorem dayListing (part : DayPart) : (dayListing r part).Alike (dayListing r' part) := by
  cases part with
  | byDay =>
    simp only [Recurrence.dayListing, ← h.ordinalsInYear]
    exact Listing.alike_weekdays h.plainByDay _
  | byMonthDay => exact Listing.alike_monthDays h.monthDay
  | byYearDay => exact Listing.alike_yearDays h.yearDay
  | byWeekNo =>
    simp only [Recurrence.dayListing, ← h.weekStart]
    exact Listing.alike_weekNumbers h.weekNo _

theorem dayGenerator (start genStart : Value) :
    (dayGenerator r start genStart).Alike (dayGenerator r' start genStart) := by
  unfold Recurrence.dayGenerator
  rw [← h.drivingDayPart]
  cases Recurrence.drivingDayPart r with
  | some part => exact listedFrom_alike (h.dayListing part) genStart
  | none =>
    simp only [defaultDayGenerator, ← h.freq, ← h.interval]
    exact .refl _

theorem dayFilter (part : DayPart) :
    Option.Rel Filter.Alike (dayFilter r part) (dayFilter r' part) := by
  cases part with
  | byDay =>
    simp only [Recurrence.dayFilter, ← h.byDay.isEmpty, ← h.ordinalsInYear]
    split_ifs
    · exact .none
    · exact .some (Filter.alike_weekdays h.plainByDay _)
  | byMonthDay =>
    simp only [Recurrence.dayFilter, ← h.monthDay.isEmpty]
    split_ifs
    · exact .none
    · exact .some (Filter.alike_monthDays h.monthDay)
  | byYearDay =>
    simp only [Recurrence.dayFilter, ← h.yearDay.isEmpty]
    split_ifs
    · exact .none
    · exact .some (Filter.alike_yearDays h.yearDay)
  | byWeekNo =>
    simp only [Recurrence.dayFilter, ← h.weekNo.isEmpty, ← h.weekStart]
    split_ifs
    · exact .none
    · exact .some (Filter.alike_weekNumbers h.weekNo _)

theorem dayFilters (start : Value) :
    List.Forall₂ Filter.Alike (dayFilters r start) (dayFilters r' start) := by
  have hweek : weekFilter r start = weekFilter r' start := by
    simp only [weekFilter, h.freq, h.drivingDayPart, h.interval, h.weekStart]
  unfold Recurrence.dayFilters
  rw [← hweek, ← h.drivingDayPart]
  refine List.rel_append (List.forall₂_same.mpr fun p _ => .refl p) ?_
  refine List.rel_filterMap (R := Eq) ?_ (List.forall₂_same.mpr fun _ _ => rfl)
  rintro part _ rfl
  exact h.dayFilter part

theorem timeGenerator (field : ClockField) (start genStart : Value) :
    (timeGenerator r field start genStart).1.Alike (timeGenerator r' field start genStart).1 ∧
      List.Forall₂ Filter.Alike (Recurrence.timeGenerator r field start genStart).2
        (Recurrence.timeGenerator r' field start genStart).2 := by
  have hlisted := listedFrom_alike (Listing.alike_clock (h.clockValues field) field) genStart
  unfold Recurrence.timeGenerator
  simp only [← (h.clockValues field).isEmpty, ← h.freq, ← h.interval]
  split_ifs
  · exact ⟨.refl _, .nil⟩
  · exact ⟨hlisted, .nil⟩
  · exact ⟨.refl _, .cons (Filter.alike_ofClock (h.clockValues field) field) .nil⟩
  · exact ⟨.refl _, .nil⟩
  · exact ⟨hlisted, .nil⟩
  · exact ⟨.refl _, .nil⟩
  · exact ⟨hlisted, .nil⟩

/-! ### Plans -/

theorem listStart (start : Value) : Series.listStart r start = Series.listStart r' start := by
  simp only [Series.listStart, h.setPos.isEmpty, h.freq]

/-- **The plans of the two rules** have alike generators and filters. -/
theorem plan (start genStart : Value) (budget : Int) :
    (Plan.ofRule r start genStart budget).Alike (Plan.ofRule r' start genStart budget) := by
  obtain ⟨hmonth, hmonths⟩ := h.monthGenerator start genStart
  have hday := h.dayGenerator start genStart
  obtain ⟨hhour, hhours⟩ := h.timeGenerator .hour start genStart
  obtain ⟨hminute, hminutes⟩ := h.timeGenerator .minute start genStart
  obtain ⟨hsecond, hseconds⟩ := h.timeGenerator .second start genStart
  have hfilters := List.rel_append hmonths (h.dayFilters start)
  refine ⟨?_, hmonth, ?_, hhour, hminute, hsecond,
    List.rel_append (List.rel_append hhours hminutes) hseconds⟩
  · simp only [Plan.ofRule, Plan.pacerOf, ← h.freq, ← h.interval, ← h.byDay.isEmpty, ← h.weekStart,
      ← hmonth.pacer?, ← hday.pacer?, ← hhour.pacer?, ← hminute.pacer?, ← hsecond.pacer?]
    exact .refl _
  · have hempty : (Recurrence.monthGenerator r start genStart).2 ++ Recurrence.dayFilters r start = [] ↔
        (Recurrence.monthGenerator r' start genStart).2 ++ Recurrence.dayFilters r' start = [] := by
      rw [← List.length_eq_zero_iff, ← List.length_eq_zero_iff, hfilters.length_eq]
    simp only [Plan.ofRule, List.isEmpty_iff, hempty]
    split_ifs
    · exact hday
    · exact hday.filtered (Filter.ofAll_alike hfilters)

/-- **The candidates of the two rules are alike.** -/
theorem candidates (start : Value) (budget : Int) :
    (r.candidates start budget).Alike (r'.candidates start budget) := by
  have hplan := h.plan start (Series.listStart r start) budget
  unfold Rule.candidates Rule.plan Rule.listStart
  rw [← h.listStart]
  generalize Plan.ofRule r start _ budget = p at hplan ⊢
  generalize Plan.ofRule r' start _ budget = p' at hplan ⊢
  have hfilter := Filter.ofAll_alike hplan.timeFilters
  have hday : List.Forall₂ Generator.Alike [p.year, p.month, p.day] [p'.year, p'.month, p'.day] :=
    .cons hplan.year (.cons hplan.month (.cons hplan.day .nil))
  have hchain : List.Forall₂ Generator.Alike p.chain p'.chain :=
    List.rel_append hday (.cons hplan.hour (.cons hplan.minute (.cons hplan.second .nil)))
  unfold Series.candidates
  simp only [← h.listStart, ← h.setPos.isEmpty, ← hplan.singleTime?]
  cases start.hasTime with
  | false => exact ⟨hday, hfilter⟩
  | true =>
    cases p.singleTime? with
    | some t => exact ⟨hday, hfilter⟩
    | none => exact ⟨hchain, hfilter⟩

/-- The two rules do the same with the same candidates. -/
theorem actsLike : r.ActsLike (fun _ => True) r' where
  freq := h.freq
  count := h.count
  untilBound := h.untilBound
  bySetPos := h.setPos.isEmpty
  kept := keptOfPeriod_congr h.setPos
  chooses := selectPositions_congr h.setPos
  key _ v w _ _ := by rw [h.freq, h.weekStart]

end

end Rule.SameLists

/-- **Order and repetition do not matter.**  Take two valid rules with the same frequency, interval,
count, end and week start, whose lists name the same elements, any start with real fields, any zone
and any budget.  Either both rules need a time of day that the start does not have, or both make
a series, and whatever the two series are asked, call after call, all their answers are the same:
which values are returned, whether there are more, and where nothing is left.  The errors differ
at most in the text of the rule. -/
theorem order_and_repetition_do_not_matter {r r' : Rule} (hr : r.Valid) (hlists : r.SameLists r')
    {start : Value} (hreal : start.IsReal) (zone : Zone) (budget : Int) :
    r.AnswersLike r' start zone budget := by
  have hcandidates := hlists.candidates start budget
  refine hlists.actsLike.answersLike Candidates.alike_lockstep hr hreal zone
    (Rule.reaches_congr hlists.freq hlists.interval hlists.clockValues start) fun n => ?_
  rw [← hcandidates.chain_length]
  simpa using rel_map (f := id) (g := id) (fun _ _ h => h.sameStep) (hcandidates.run n _ 0)

/-- The first and the last of the Mondays' and Fridays' opening and closing hours of each month,
once written with repetitions and out of order.  What one series has been asked here the other
answers too. -/
theorem order_and_repetition_do_not_matter_closing_hours :
    let r : Rule := { freq := .monthly, byDay := [.every .fr, .every .mo, .every .fr],
                      byHour := [17, 9, 17], bySetPos := [-1, 1, 1] }
    let r' : Rule := { freq := .monthly, byDay := [.every .mo, .every .fr], byHour := [9, 17],
                       bySetPos := [1, -1] }
    let start : Value := .ofDateTime ⟨2024, 1, 10⟩ ⟨9, 0, 0⟩
    (r.Valid ∧ r.SameLists r' ∧ start.IsReal) ∧ r.AnswersLike r' start .utc 100 ∧
      Series.answersOf 60 [.next, .next, .advanceTo (.ofDateTime ⟨2024, 2, 20⟩ .midnight), .next]
          r start .utc 100 =
        some ([.value (.ofDateTime ⟨2024, 1, 29⟩ ⟨17, 0, 0⟩), .value (.ofDateTime ⟨2024, 2, 2⟩ ⟨9, 0, 0⟩),
          .moved, .value (.ofDateTime ⟨2024, 2, 26⟩ ⟨17, 0, 0⟩)], false) := by
  intro r r' start
  have hvalid : r.Valid := by decide
  have hlists : r.SameLists r' :=
    ⟨rfl, rfl, rfl, rfl, rfl, by decide, fun part => by cases part <;> decide⟩
  have hreal : start.IsReal := by decide
  exact ⟨⟨hvalid, hlists, hreal⟩, order_and_repetition_do_not_matter hvalid hlists hreal .utc 100,
    by decide +kernel⟩

end Recurrence
