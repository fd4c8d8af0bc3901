/-
Recurrence/Proofs/Meaning/Matches.lean

The members of a rule's course are its matches.

A rule's candidates are planned in one of three ways: as plain dates, as dates at the
only time of day that the rule leaves, or field by field.  In each of them the values
that the chain builds and the filter passes are, from the start of the lists on,
exactly those that match the rule (`Rule.member_iff`).
-/
import Recurrence.Proofs.Candidates
import Recurrence.Proofs.Meaning.Years

namespace Recurrence

namespace Rule

variable {r : Rule} {start v : Value} {budget : Int}

/-- The plan of a rule. -/
abbrev plan (r : Rule) (start : Value) (budget : Int) : Plan :=
  Plan.ofRule r start (r.listStart start) budget

/-- The candidates of a rule, as they are planned. -/
abbrev candidates (r : Rule) (start : Value) (budget : Int) : Candidates :=
  Series.candidates r start (r.plan start budget)

/-- The course of a rule. -/
def course (r : Rule) (start : Value) (budget : Int) : Course where
  blueprint := ⟨r.years start budget, (r.candidates start budget).chain.tail,
    (r.listStart start).path.take (r.candidates start budget).chain.length⟩
  filter := (r.candidates start budget).filter
  hasTime := (r.candidates start budget).hasTime
  credited := (r.candidates start budget).credited
  rest := (r.candidates start budget).fields.toList.drop (r.candidates start budget).chain.length

/-- How the candidates of a rule are planned: as dates, at one time of day, or field by
field. -/
theorem candidates_cases (r : Rule) (start : Value) (budget : Int) :
    (start.hasTime = false ∧ r.candidates start budget =
      ⟨[(r.plan start budget).year, (r.plan start budget).month, (r.plan start budget).day],
        .ofValue (r.listStart start), .ofAll (r.plan start budget).timeFilters, false,
        if r.bySetPos.isEmpty then some 0 else none⟩) ∨
      (∃ t, start.hasTime = true ∧ (r.plan start budget).singleTime? = some t ∧
        r.candidates start budget =
        ⟨[(r.plan start budget).year, (r.plan start budget).month, (r.plan start budget).day],
          { Fields.ofValue (r.listStart start) with
            hour := t.hour, minute := t.minute, second := t.second },
          .ofAll (r.plan start budget).timeFilters, true,
          if r.bySetPos.isEmpty then some 0 else none⟩) ∨
      (start.hasTime = true ∧ r.candidates start budget =
        ⟨(r.plan start budget).chain, .ofValue (r.listStart start),
          .ofAll (r.plan start budget).timeFilters, true,
          if r.bySetPos.isEmpty then some 0 else none⟩) := by
  unfold candidates Series.candidates
  cases ht : start.hasTime with
  | false => exact .inl ⟨rfl, rfl⟩
  | true =>
    cases hs : (r.plan start budget).singleTime? with
    | none => exact .inr (.inr ⟨rfl, rfl⟩)
    | some t => exact .inr (.inl ⟨t, rfl, rfl, rfl⟩)

/-! ### The generators of the plan -/

/-- The filters on the date. -/
def dateFilters (r : Rule) (start : Value) : List Filter :=
  (monthGenerator r start (r.listStart start)).2 ++ dayFilters r start

theorem plan_day (r : Rule) (start : Value) (budget : Int) : (r.plan start budget).day =
    if (r.dateFilters start).isEmpty then dayGenerator r start (r.listStart start)
    else (dayGenerator r start (r.listStart start)).filtered (.ofAll (r.dateFilters start)) := rfl

theorem dayGenerator_filters (r : Rule) (start gen : Value) :
    (dayGenerator r start gen).filters = [] := by
  unfold dayGenerator
  cases drivingDayPart r with
  | some part => rfl
  | none =>
    unfold defaultDayGenerator
    cases r.freq <;> rfl

/-- The generator of the day names what passes the filters on the date. -/
theorem names_plan_day_iff (r : Rule) (start v : Value) (budget : Int) :
    (r.plan start budget).day.Names (v.path.take 2) v.date.day ↔
    (dayGenerator r start (r.listStart start)).Names (v.path.take 2) v.date.day ∧
      ∀ p ∈ r.dateFilters start, p.Passes (.ofDate v.date) := by
  have hdate : (Fields.ofPath (v.path.take 2 ++ [v.date.day])).date = v.date := rfl
  rw [plan_day]
  split_ifs with h
  · have h : r.dateFilters start = [] := List.isEmpty_iff.mp h
    simp [h]
  · simp only [Generator.Names, Generator.filtered, dayGenerator_filters, List.nil_append,
      List.mem_singleton, forall_eq, Filter.passes_ofAll, hdate, List.not_mem_nil, false_implies,
      implies_true, and_true]

theorem begins_plan_day (h : r.Admits start) (budget : Int) (path : List Int)
    (hpath : path.take 3 = (r.listStart start).path.take 3) :
    (r.plan start budget).day.Begins path ∧ (r.plan start budget).day.source.field = .day := by
  obtain ⟨hbegins, hfield, hdecides⟩ := begins_day h hpath
  have hmonth := (begins_month h path (take_eq_of_take_eq hpath (by decide))).2.2
  rw [plan_day]
  split_ifs
  · exact ⟨hbegins, hfield⟩
  · refine ⟨⟨hbegins.source, hbegins.within, fun _ => hfield, ?_⟩, hfield⟩
    intro p hp
    simp only [Generator.filtered, dayGenerator_filters, List.nil_append, List.mem_singleton] at hp
    rw [hp]
    refine Filter.decides_ofAll fun q hq => ?_
    rcases List.mem_append.mp hq with hq | hq
    · exact hmonth q hq
    · exact hdecides q hq

theorem begins_years (h : r.Admits start) (hbudget : 0 ≤ budget) {path : List Int}
    (hpath : path.take 1 = (r.listStart start).path.take 1) :
    (r.years start budget).Begins path := by
  have hi := h.interval_pos
  refine ⟨?_, ?_, rfl, hbudget, ?_⟩
  · simp only [years, YearStepper.start]
    split_ifs
    · exact hi
    · exact le_rfl
  · intro s hs
    rw [getElem?_eq_of_take_eq hpath Nat.one_pos] at hs
    obtain rfl : (r.listStart start).date.year = s := Option.some.inj hs
    show (r.listStart start).date.year - _ + _ = _
    exact Int.sub_add_cancel _ _
  · intro p hp
    obtain ⟨hpaces, hf⟩ := paces_years h hp
    exact ⟨hpaces.interval_pos, by simp only [years, YearStepper.start, if_neg hf]⟩

/-! ### The course of a rule -/

theorem singleTime?_eq_some {t : TimeOfDay} (h : (r.plan start budget).singleTime? = some t) :
    (timeGenerator r .hour start (r.listStart start)).1.singleValue? = some t.hour ∧
      (timeGenerator r .minute start (r.listStart start)).1.singleValue? = some t.minute ∧
      (timeGenerator r .second start (r.listStart start)).1.singleValue? = some t.second := by
  simp only [Plan.singleTime?, Option.bind_eq_bind, Option.bind_eq_some_iff, Option.pure_def,
    Option.some.injEq] at h
  obtain ⟨a, ha, b, hb, c, hc, rfl⟩ := h
  exact ⟨ha, hb, hc⟩

theorem timeFilters_eq : (r.plan start budget).timeFilters =
    (timeGenerator r .hour start (r.listStart start)).2 ++
      (timeGenerator r .minute start (r.listStart start)).2 ++
      (timeGenerator r .second start (r.listStart start)).2 := rfl

theorem decides_timeFilters (h : r.Admits start) (budget : Int) :
    (Filter.ofAll (r.plan start budget).timeFilters).Decides := by
  refine Filter.decides_ofAll fun p hp => ?_
  rw [timeFilters_eq, List.mem_append, List.mem_append] at hp
  rcases hp with (hp | hp) | hp
  · exact (begins_clock h .hour rfl).2.2 p hp
  · exact (begins_clock h .minute rfl).2.2 p hp
  · exact (begins_clock h .second rfl).2.2 p hp

theorem drop_path_of_date {v : Value} (h : v.hasTime = false) :
    v.path.drop 3 = TimeOfDay.midnight.key := by
  obtain ⟨d, _ | t⟩ := v
  · rfl
  · simp [Value.hasTime] at h

theorem node_listStart (h : r.Admits start) (n : Nat) :
    calendarTree.Node ((r.listStart start).path.take n) :=
  (node_path (listStart_spec h.real).1).take n

/-- The generators of the month and of the day are the same in all plans. -/
theorem begins_dates (h : r.Admits start) (budget : Int) {n : Nat} (hn : 3 ≤ n) {i : Nat}
    {g : Generator} (hg : [(r.plan start budget).month, (r.plan start budget).day][i]? = some g) :
    g.Begins ((r.listStart start).path.take n) ∧ g.source.field.level = i + 1 := by
  match i, hg with
  | 0, rfl =>
    obtain ⟨hb, hf, -⟩ := begins_month h ((r.listStart start).path.take n) (by
      rw [List.take_take, Nat.min_eq_left (by omega)])
    exact ⟨hb, by rw [show (r.plan start budget).month.source.field = .month from hf]; rfl⟩
  | 1, rfl =>
    obtain ⟨hb, hf⟩ := begins_plan_day h budget ((r.listStart start).path.take n)
      (by rw [List.take_take, Nat.min_eq_left (by omega)])
    exact ⟨hb, by rw [hf]; rfl⟩

theorem begins_years_take (h : r.Admits start) (hbudget : 0 ≤ budget) {n : Nat} (hn : 1 ≤ n) :
    (r.years start budget).Begins ((r.listStart start).path.take n) :=
  begins_years h hbudget (by rw [List.take_take, Nat.min_eq_left hn])

theorem credited_eq_zero : ∀ i ∈ (if r.bySetPos.isEmpty then some 0 else none : Option Nat), i = 0 := by
  intro i hi
  split_ifs at hi
  · exact (Option.some.inj hi).symm
  · exact absurd hi (by simp)

/-- The course of a rule that is planned field by field. -/
def fieldwiseCourse (r : Rule) (start : Value) (budget : Int) : Course where
  blueprint := ⟨r.years start budget, (r.plan start budget).chain.tail,
    (r.listStart start).path.take 6⟩
  filter := .ofAll (r.plan start budget).timeFilters
  hasTime := true
  credited := if r.bySetPos.isEmpty then some 0 else none
  rest := []

theorem begins_fieldwiseCourse (h : r.Admits start) (hbudget : 0 ≤ budget) :
    (r.fieldwiseCourse start budget).Begins := by
  refine ⟨⟨node_listStart h 6, rfl, begins_years_take h hbudget (by omega), ?_⟩,
    .inl ⟨rfl, rfl, rfl⟩, decides_timeFilters h budget, credited_eq_zero⟩
  intro i g hg
  have hpath : ∀ n, ((r.listStart start).path.take 6).take n = (r.listStart start).path.take n := by
    intro n
    rw [List.take_of_length_le (l := (r.listStart start).path) (by rw [Value.length_path])]
  match i, hg with
  | 0, hg => exact begins_dates h budget (n := 6) (by omega) (i := 0) hg
  | 1, hg => exact begins_dates h budget (n := 6) (by omega) (i := 1) hg
  | 2, rfl =>
    obtain ⟨hb, hf, -⟩ := begins_clock h .hour (hpath 4)
    exact ⟨hb, by rw [show (r.plan start budget).hour.source.field = .hour from hf]; rfl⟩
  | 3, rfl =>
    obtain ⟨hb, hf, -⟩ := begins_clock h .minute (hpath 5)
    exact ⟨hb, by rw [show (r.plan start budget).minute.source.field = .minute from hf]; rfl⟩
  | 4, rfl =>
    obtain ⟨hb, hf, -⟩ := begins_clock h .second (hpath 6)
    exact ⟨hb, by rw [show (r.plan start budget).second.source.field = .second from hf]; rfl⟩

/-- **The course of a rule is one of the calendar.** -/
theorem begins_course (h : r.Admits start) (hbudget : 0 ≤ budget) :
    (r.course start budget).Begins := by
  obtain ⟨hreal, hkind, -, -⟩ := listStart_spec (r := r) h.real
  rcases candidates_cases r start budget with ⟨ht, hc⟩ | ⟨t, ht, hs, hc⟩ | ⟨ht, hc⟩
  · -- plain dates
    refine ⟨⟨?_, ?_, ?_, ?_⟩, ?_, ?_, ?_⟩ <;> simp only [course, hc]
    · exact node_listStart h 3
    · rfl
    · exact begins_years_take h hbudget (n := 3) (by omega)
    · exact fun i g hg => begins_dates h budget le_rfl hg
    · refine .inr ⟨rfl, .midnight, by decide, ?_⟩
      exact drop_path_of_date (hkind.trans ht)
    · exact decides_timeFilters h budget
    · exact credited_eq_zero
  · -- dates at the only time of day
    obtain ⟨hh, hm, hsec⟩ := singleTime?_eq_some hs
    have bh := (clock_single h hh).2.1
    have bm := (clock_single h hm).2.1
    have bs := (clock_single h hsec).2.1
    refine ⟨⟨?_, ?_, ?_, ?_⟩, ?_, ?_, ?_⟩ <;> simp only [course, hc]
    · exact node_listStart h 3
    · rfl
    · exact begins_years_take h hbudget (n := 3) (by omega)
    · exact fun i g hg => begins_dates h budget le_rfl hg
    · exact .inr ⟨rfl, t,
        ⟨bh.1, bh.2, bm.1, bm.2, bs.1, bs.2⟩, rfl⟩
    · exact decides_timeFilters h budget
    · exact credited_eq_zero
  · -- field by field
    have hcourse : r.course start budget = r.fieldwiseCourse start budget := by
      simp only [course, hc]
      rfl
    exact hcourse ▸ begins_fieldwiseCourse h hbudget

/-! ### Matches, field by field -/

/-- What a rule wants of the month of a value. -/
def MonthAgrees (r : Rule) (start v : Value) : Prop :=
  (r.byMonth = [] ∨ v.date.month ∈ r.byMonth) ∧ (r.freq = .monthly → r.Phased start v) ∧
    (r.freq = .yearly → r.LeavesDayOpen → r.byMonth = [] → v.date.month = start.date.month)

/-- What a rule wants of the time of day of a value. -/
def TimeAgrees (r : Rule) (start v : Value) : Prop :=
  ∀ field : ClockField,
    ClockAgrees r.freq field.frequency (r.clockValues field) (start.timeField field.field)
        (v.timeField field.field) ∧
      (r.freq = field.frequency → r.Phased start v)

/-- What a rule wants of the fields of a value, one by one. -/
def Agrees (r : Rule) (start : Value) (budget : Int) (v : Value) : Prop :=
  ((r.years start budget).Names v.date.year ∧ r.MonthAgrees start v ∧
    (∀ part, r.PartAccepts v.date part) ∧ r.KeepsDay start v) ∧
  (v.hasTime = true → r.TimeAgrees start v)

theorem forall_clockField {P : ClockField → Prop} :
    (∀ field, P field) ↔ P .hour ∧ P .minute ∧ P .second := by
  constructor
  · intro hall
    exact ⟨hall .hour, hall .minute, hall .second⟩
  · rintro ⟨hh, hm, hs⟩ field
    cases field with
    | hour => exact hh
    | minute => exact hm
    | second => exact hs

/-- A time of day is as a rule wants it if it is accepted and, where the rule counts periods
within days, in phase. -/
theorem timeAgrees_iff (ht : v.hasTime = true) : r.TimeAgrees start v ↔
    (∀ t ∈ v.time, r.AcceptsTime start.timeOrMidnight t) ∧
      (r.freq.isSubDaily = true → r.Phased start v) := by
  obtain ⟨d, _ | t⟩ := v
  · simp [Value.hasTime] at ht
  have hsub : r.freq.isSubDaily = true ↔
      r.freq = .hourly ∨ r.freq = .minutely ∨ r.freq = .secondly := by
    cases r.freq <;> decide
  rw [hsub, TimeAgrees, forall_clockField]
  constructor
  · rintro ⟨hh, hm, hs⟩
    refine ⟨?_, ?_⟩
    · rintro _ ⟨⟩
      exact ⟨hh.1, hm.1, hs.1⟩
    · rintro (hf | hf | hf)
      · exact hh.2 hf
      · exact hm.2 hf
      · exact hs.2 hf
  · rintro ⟨haccepts, hphase⟩
    obtain ⟨hh, hm, hs⟩ := haccepts t rfl
    exact ⟨⟨hh, fun hf => hphase (.inl hf)⟩, ⟨hm, fun hf => hphase (.inr (.inl hf))⟩,
      hs, fun hf => hphase (.inr (.inr hf))⟩

/-- A match is a value of the start's kind whose fields are each as the rule wants them. -/
theorem matches_iff (h : r.Admits start) (budget : Int) (hv : v.IsReal)
    (hkind : v.hasTime = start.hasTime) (hle : r.listStart start ≤ v) :
    r.Matches start v ↔ r.Agrees start budget v := by
  obtain ⟨hreal, hkind', -, hstart⟩ := listStart_spec (r := r) h.real
  have hmono : r.periodNumber start ≤ r.periodNumber v := by
    rw [← hstart]
    exact periodNumber_mono hreal hv (hkind'.trans hkind.symm) hle
  constructor
  · rintro ⟨-, -, ⟨-, hphase⟩, hdate, hkeeps, haccepts⟩
    obtain ⟨hmonth, hparts⟩ := acceptsDate_iff.mp hdate
    refine ⟨⟨names_years h hv hphase hkeeps.1, ⟨hmonth, fun _ => hphase, hkeeps.2.2⟩, hparts,
      fun _ => hphase, hkeeps.1, hkeeps.2.1⟩, fun ht => ?_⟩
    exact (timeAgrees_iff ht).mpr ⟨haccepts, fun _ => hphase⟩
  · rintro ⟨⟨hyears, ⟨hmonth, hmonthly, hkeepsMonth⟩, hparts, hdaily, hweekday, hkeepsDay⟩, ht⟩
    have htime : (∀ t ∈ v.time, r.AcceptsTime start.timeOrMidnight t) ∧
        (r.freq.isSubDaily = true → r.Phased start v) := by
      cases hvt : v.hasTime with
      | true => exact (timeAgrees_iff hvt).mp (ht hvt)
      | false =>
        refine ⟨?_, fun hsub => ?_⟩
        · intro t hmem
          simp [Value.hasTime, Option.mem_def.mp hmem] at hvt
        · rw [hkind, h.timed hsub] at hvt
          exact absurd hvt (by simp)
    -- whatever the frequency is, the field of its unit is in phase
    have hphase : r.Phased start v := by
      cases hf : r.freq with
      | yearly => exact phased_of_names_years hf hyears
      | monthly => exact hmonthly hf
      | weekly => exact hdaily (.inl hf)
      | daily => exact hdaily (.inr hf)
      | hourly => exact htime.2 (by rw [hf]; rfl)
      | minutely => exact htime.2 (by rw [hf]; rfl)
      | secondly => exact htime.2 (by rw [hf]; rfl)
    exact ⟨hv, hkind, ⟨hmono, hphase⟩, acceptsDate_iff.mpr ⟨hmonth, hparts⟩,
      ⟨hweekday, hkeepsDay, hkeepsMonth⟩, htime.1⟩

/-! ### Nodes and matches -/

/-- A date is a node of a rule's chain if its year, month and day are as the rule wants
them. -/
theorem core_date_iff (h : r.Admits start) (hv : v.IsReal) {B : Blueprint}
    (hyears : B.years = r.years start budget) {more : List Generator}
    (hbelow : B.below = (r.plan start budget).month :: (r.plan start budget).day :: more) :
    B.core.Node (v.path.take 3) ↔
      (r.years start budget).Names v.date.year ∧ r.MonthAgrees start v ∧
        (∀ part, r.PartAccepts v.date part) ∧ r.KeepsDay start v := by
  have hmonth := names_month_iff (v := v) h hv
  have hday := names_day_iff (v := v) h hv
  have hplan := names_plan_day_iff r start v budget
  show B.core.Node [v.date.year, v.date.month, v.date.day] ↔ _
  rw [Blueprint.core_node_date hbelow, hyears]
  refine and_congr_right fun _ => ?_
  rw [MonthAgrees, ← hmonth, ← hday]
  show _ ∧ (r.plan start budget).day.Names (v.path.take 2) v.date.day ↔ _
  rw [hplan, dateFilters, List.forall_mem_append]
  show (monthGenerator r start (r.listStart start)).1.Names (v.path.take 1) v.date.month ∧ _ ↔ _
  -- the day has the filters of the month as well, which go back to it
  constructor
  · rintro ⟨hm, hd, fm, fd⟩
    exact ⟨⟨hm, fm⟩, hd, fd⟩
  · rintro ⟨⟨hm, fm⟩, hd, fd⟩
    exact ⟨hm, hd, fm, fd⟩

/-- A date-time is a node of a rule's chain and passes its filter if its date is a node
and its time is as the rule wants it. -/
theorem core_dateTime_iff {d : Date} {t : TimeOfDay}
    (hv : (Value.ofDateTime d t).IsReal) {B : Blueprint}
    (hbelow : B.below = (r.plan start budget).chain.tail) :
    B.core.Node (Value.ofDateTime d t).path ∧
        (Filter.ofAll (r.plan start budget).timeFilters).Passes (.ofDateTime d t) ↔
      B.core.Node ((Value.ofDateTime d t).path.take 3) ∧ r.TimeAgrees start (.ofDateTime d t) := by
  have hh := names_clock_iff r start hv .hour
  have hm := names_clock_iff r start hv .minute
  have hs := names_clock_iff r start hv .second
  show B.core.Node [d.year, d.month, d.day, t.hour, t.minute, t.second] ∧ _ ↔
    B.core.Node [d.year, d.month, d.day] ∧ _
  rw [Blueprint.core_node_dateTime hbelow, Filter.passes_ofAll, timeFilters_eq,
    List.forall_mem_append, List.forall_mem_append, and_assoc]
  refine and_congr_right fun _ => ?_
  rw [TimeAgrees, forall_clockField, ← hh, ← hm, ← hs]
  -- each filter on the time belongs to the generator that has left it
  constructor
  · rintro ⟨⟨ha, hb, hc⟩, ⟨fa, fb⟩, fc⟩
    exact ⟨⟨ha, fa⟩, ⟨hb, fb⟩, hc, fc⟩
  · rintro ⟨⟨ha, fa⟩, ⟨hb, fb⟩, hc, fc⟩
    exact ⟨⟨ha, hb, hc⟩, ⟨fa, fb⟩, fc⟩

/-- Where there is only one time of day, a time is as the rule wants it if it is this one. -/
theorem timeAgrees_single_iff (h : r.Admits start) {d : Date} {t u : TimeOfDay}
    (hv : (Value.ofDateTime d t).IsReal) (hu : (r.plan start budget).singleTime? = some u) :
    r.TimeAgrees start (.ofDateTime d t) ↔ u = t := by
  obtain ⟨hh, hm, hs⟩ := singleTime?_eq_some hu
  have hfield : ∀ (field : ClockField) (n : Int),
      (timeGenerator r field start (r.listStart start)).1.singleValue? = some n →
      ((Value.ofDateTime d t).timeField field.field = n ↔
        ClockAgrees r.freq field.frequency (r.clockValues field) (start.timeField field.field)
            ((Value.ofDateTime d t).timeField field.field) ∧
          (r.freq = field.frequency → r.Phased start (.ofDateTime d t))) := by
    intro field n hn
    obtain ⟨hfilters, -, hnames⟩ := clock_single h hn
    rw [← names_clock_iff r start hv field, hfilters, hnames d t, and_iff_left (by simp)]
  rw [TimeAgrees, forall_clockField, ← hfield .hour _ hh, ← hfield .minute _ hm,
    ← hfield .second _ hs]
  constructor
  · rintro ⟨hhour, hminute, hsecond⟩
    exact TimeOfDay.ext hhour.symm hminute.symm hsecond.symm
  · rintro rfl
    exact ⟨rfl, rfl, rfl⟩

theorem timeFilters_of_single (h : r.Admits start) {u : TimeOfDay}
    (hu : (r.plan start budget).singleTime? = some u) :
    (r.plan start budget).timeFilters = [] := by
  obtain ⟨hh, hm, hs⟩ := singleTime?_eq_some hu
  rw [timeFilters_eq, (clock_single h hh).1, (clock_single h hm).1, (clock_single h hs).1,
    List.append_nil, List.append_nil]

theorem timeFilters_of_days (hsub : r.freq.isSubDaily = false) :
    (r.plan start budget).timeFilters = [] := by
  rw [timeFilters_eq, clock_filters_eq_nil hsub, clock_filters_eq_nil hsub,
    clock_filters_eq_nil hsub, List.append_nil, List.append_nil]

theorem timeFilters_of_date (h : r.Admits start) (ht : start.hasTime = false) :
    (r.plan start budget).timeFilters = [] := by
  refine timeFilters_of_days ?_
  by_contra hsub
  rw [h.timed (by simpa using hsub)] at ht
  exact absurd ht (by simp)

/-! ### Members -/

/-- The course of a rule, as dates, at one time of day, or field by field. -/
theorem course_cases (r : Rule) (start : Value) (budget : Int) :
    (start.hasTime = false ∧ r.course start budget =
      ⟨⟨r.years start budget, [(r.plan start budget).month, (r.plan start budget).day],
        (r.listStart start).path.take 3⟩, .ofAll (r.plan start budget).timeFilters, false,
        if r.bySetPos.isEmpty then some 0 else none, (r.listStart start).path.drop 3⟩) ∨
      (∃ t, start.hasTime = true ∧ (r.plan start budget).singleTime? = some t ∧
        r.course start budget =
        ⟨⟨r.years start budget, [(r.plan start budget).month, (r.plan start budget).day],
          (r.listStart start).path.take 3⟩, .ofAll (r.plan start budget).timeFilters, true,
          if r.bySetPos.isEmpty then some 0 else none, t.key⟩) ∨
      (start.hasTime = true ∧ r.course start budget =
        ⟨⟨r.years start budget, (r.plan start budget).chain.tail, (r.listStart start).path.take 6⟩,
          .ofAll (r.plan start budget).timeFilters, true,
          if r.bySetPos.isEmpty then some 0 else none, []⟩) := by
  rcases candidates_cases r start budget with ⟨ht, hc⟩ | ⟨t, ht, hs, hc⟩ | ⟨ht, hc⟩
  · exact .inl ⟨ht, by simp only [course, hc]; rfl⟩
  · exact .inr (.inl ⟨t, ht, hs, by simp only [course, hc]; rfl⟩)
  · exact .inr (.inr ⟨ht, by simp only [course, hc]; rfl⟩)

@[simp] theorem course_hasTime (r : Rule) (start : Value) (budget : Int) :
    (r.course start budget).hasTime = start.hasTime := by
  rcases course_cases r start budget with ⟨ht, hc⟩ | ⟨t, ht, -, hc⟩ | ⟨ht, hc⟩ <;> rw [hc, ht]

/-- A value is built by a course if its path is a node from the start on and gives the value
back. -/
theorem builds_iff {K : Course} (hK : K.Begins) (hkind : v.hasTime = K.hasTime) :
    K.Builds v ↔ K.blueprint.start ≤ v.path.take K.size ∧
      K.blueprint.core.Node (v.path.take K.size) ∧ K.value (v.path.take K.size) = v := by
  have hlen : (v.path.take K.size).length = K.size := by
    have := hK.blueprint.size_le
    rw [List.length_take, Value.length_path]
    unfold Course.size
    omega
  have hsize : K.blueprint.start.length = K.size := hK.blueprint.length_start
  have hnode : K.blueprint.tree.Node (v.path.take K.size) ↔
      K.blueprint.core.Node (v.path.take K.size) ∧ K.blueprint.start ≤ v.path.take K.size := by
    rw [Blueprint.node_iff (by rw [hlen, hsize]), hlen, ← hsize, List.take_length]
  constructor
  · rintro ⟨q, hn, hq, rfl⟩
    have hpath : (K.value q).path.take K.size = q := by
      refine Eq.trans ?_ (hK.take_key_value hq)
      generalize K.value q = v at hkind
      obtain ⟨d, t⟩ := v
      rcases hK.shape with ⟨-, -, ht⟩ | ⟨h3, -⟩
      · rw [ht] at hkind
        cases t with
        | none => simp [Value.hasTime] at hkind
        | some t => rfl
      · rw [h3]
        cases t <;> rfl
    rw [hpath] at hnode ⊢
    obtain ⟨hcore, hstart⟩ := hnode.mp hn
    exact ⟨hstart, hcore, rfl⟩
  · rintro ⟨hstart, hcore, hvalue⟩
    exact ⟨_, hnode.mpr ⟨hcore, hstart⟩, hlen, hvalue⟩

theorem member_isReal (h : r.Admits start) (hbudget : 0 ≤ budget)
    (hm : (r.course start budget).Member v) : v.IsReal ∧ v.hasTime = start.hasTime :=
  ⟨(begins_course h hbudget).isReal hm.1, hm.1.hasTime.trans (course_hasTime r start budget)⟩

/-- The members of a course that is planned field by field are the values from its start on whose
fields are each as the rule wants them. -/
theorem member_fieldwiseCourse_iff_agrees (h : r.Admits start) (hbudget : 0 ≤ budget)
    (hv : v.IsReal) (ht : v.hasTime = true) : (r.fieldwiseCourse start budget).Member v ↔
      (r.listStart start).path.take 6 ≤ v.path.take 6 ∧ r.Agrees start budget v := by
  have hbuilds := builds_iff (v := v) (begins_fieldwiseCourse h hbudget) ht
  obtain ⟨d, _ | t⟩ := v
  · exact absurd ht (by simp [Value.hasTime])
  have hnode := core_dateTime_iff (B := (r.fieldwiseCourse start budget).blueprint) hv rfl
  rw [Course.Member, hbuilds, and_assoc, Agrees, forall_prop_of_true ht]
  refine and_congr_right fun _ => ?_
  refine Iff.trans (and_congr_left' (and_iff_left ?_)) (hnode.trans (and_congr_left' ?_))
  · rfl
  · exact core_date_iff h hv rfl rfl

/-- **The members of a rule's course** are the values from its start on whose fields are each
as the rule wants them. -/
theorem member_iff_agrees (h : r.Admits start) (hbudget : 0 ≤ budget) (hv : v.IsReal)
    (hkind : v.hasTime = start.hasTime) : (r.course start budget).Member v ↔
      (r.course start budget).blueprint.start ≤ v.path.take (r.course start budget).size ∧
        r.Agrees start budget v := by
  have hbuilds := builds_iff (v := v) (begins_course h hbudget) (by rw [course_hasTime, hkind])
  have hall : ∀ w : Value, (Filter.ofAll []).Passes w := fun w =>
    Filter.passes_ofAll.mpr fun _ hf => absurd hf List.not_mem_nil
  rcases course_cases r start budget with ⟨ht, hc⟩ | ⟨u, ht, hu, hc⟩ | ⟨ht, hc⟩
  · -- plain dates
    rw [Course.Member]
    rw [hc] at hbuilds ⊢
    rw [timeFilters_of_date h ht] at hbuilds ⊢
    refine (and_iff_left (hall v)).trans (hbuilds.trans (and_congr_right fun _ => ?_))
    have hopen : v.hasTime = true → r.TimeAgrees start v := fun hvt =>
      absurd (hvt.symm.trans (hkind.trans ht)) (by simp)
    refine Iff.trans (and_iff_left ?_) ((core_date_iff h hv
      (B := ⟨r.years start budget, _, _⟩) rfl rfl).trans (and_iff_left hopen).symm)
    obtain ⟨d, _ | t⟩ := v
    · rfl
    · rw [ht] at hkind
      exact absurd hkind (by simp [Value.hasTime])
  · -- dates at the only time of day
    obtain ⟨d, _ | t⟩ := v
    · exact absurd (hkind.trans ht) (by simp [Value.hasTime])
    rw [Course.Member]
    rw [hc] at hbuilds ⊢
    rw [timeFilters_of_single h hu] at hbuilds ⊢
    refine (and_iff_left (hall _)).trans (hbuilds.trans (and_congr_right fun _ => ?_))
    refine and_congr (core_date_iff h hv (B := ⟨r.years start budget, _, _⟩) rfl rfl) ?_
    rw [forall_prop_of_true (show (Value.mk d (some t)).hasTime = true from rfl)]
    refine Iff.trans ?_ (timeAgrees_single_iff h hv hu).symm
    show Value.mk d (some u) = ⟨d, some t⟩ ↔ _
    simp
  · -- field by field
    rw [hc]
    exact member_fieldwiseCourse_iff_agrees h hbudget hv (hkind.trans ht)

/-- The chain of a rule begins at the start of its lists. -/
theorem start_course (r : Rule) (start : Value) (budget : Int) :
    (r.course start budget).blueprint.start =
      (r.listStart start).path.take (r.course start budget).size := by
  rcases course_cases r start budget with ⟨-, hc⟩ | ⟨t, -, -, hc⟩ | ⟨-, hc⟩ <;> rw [hc] <;> rfl

/-- **The members of a rule's course** are, from the start of its lists on, the matches of
the rule. -/
theorem member_iff (h : r.Admits start) (hbudget : 0 ≤ budget) (hle : r.listStart start ≤ v) :
    (r.course start budget).Member v ↔ r.Matches start v := by
  have hiff : v.IsReal → v.hasTime = start.hasTime →
      ((r.course start budget).Member v ↔ r.Matches start v) := by
    intro hv hkind
    rw [member_iff_agrees h hbudget hv hkind, matches_iff h budget hv hkind hle, start_course,
      and_iff_right]
    refine Value.take_path_le ?_ hle _
    rw [(listStart_spec (r := r) h.real).2.1, hkind]
  constructor
  · intro hm
    obtain ⟨hv, hkind⟩ := member_isReal h hbudget hm
    exact (hiff hv hkind).mp hm
  · intro hm
    exact (hiff hm.1 hm.2.1).mpr hm

end Rule

end Recurrence
