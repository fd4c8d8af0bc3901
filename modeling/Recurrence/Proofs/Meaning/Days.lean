/-
Recurrence/Proofs/Meaning/Days.lean

The parts of a rule that name days.

A part that names days either drives the day, as a list of days of each month, or
restricts the days that another part drives, as a filter.  Both read the same list
(`DayList`), and both ways accept the dates that it names: `DayList.mem_values` for the
listing, `DayList.passes` for the filter.  So a rule's part accepts the same dates
whether it drives or not (`Rule.PartAccepts`).

The one thing to prove is that all ways of counting weekdays agree: the day of the
month on which the n-th Monday falls, the place that an ordinal has among the
Mondays, and the count of days before or behind a date.
-/
import Recurrence.Expansion.Plan
import Recurrence.Proofs.Generators.Filters
import Recurrence.Proofs.Generators.Listers
import Recurrence.Rule.Meaning

namespace Recurrence

/-! ### Weekdays -/

theorem weekday_eq_iff (w : Weekday) (d : Date) : w = d.weekday ↔ w.number = d.weekdayNumber := by
  rw [Date.weekdayNumber, ← Weekday.number_ofNumber]
  constructor
  · rintro rfl
    rfl
  · intro h
    rw [← Weekday.ofNumber_number w, h, Weekday.ofNumber_number]
    rfl

/-- The n-th weekday of a period, as a day of a month in it: the one with that weekday
which has n - 1 of its kind before it, or behind it. -/
theorem nthWeekday_eq_iff {first length n weekday offset monthDays day : Int}
    (hweekday : 0 ≤ weekday ∧ weekday < 7) (hlength : length ≤ 366)
    (hday : 1 ≤ day ∧ day ≤ monthDays)
    (hoffset : 0 ≤ offset ∧ offset + monthDays ≤ length) :
    Gregorian.nthWeekday first length n weekday offset monthDays = day ↔
      weekday = (first + offset + (day - 1)) % 7 ∧
        (n = (offset + day - 1) / 7 + 1 ∨ n = -((length - 1 - (offset + day - 1)) / 7 + 1)) := by
  unfold Gregorian.nthWeekday
  simp only
  split_ifs <;> omega

/-- An ordinal's place from the start is that of a date if the ordinal names the date. -/
theorem weekdayPosition_eq_iff {first length n weekday day : Int}
    (hfirst : 0 ≤ first ∧ first < 7) (hweekday : weekday = (first + day) % 7)
    (hday : 0 ≤ day ∧ day < length) :
    (if 0 < n then n else Gregorian.weekdayPositionFromStart n weekday first length) = day / 7 + 1 ↔
      n = day / 7 + 1 ∨ n = -((length - 1 - day) / 7 + 1) := by
  unfold Gregorian.weekdayPositionFromStart Gregorian.weekdayCount
  split_ifs <;> omega

/-! ### Dates within their month and year -/

theorem Date.dayOfYear_eq (d : Date) :
    d.dayOfYear = Gregorian.dayOfYear d.year d.month 1 + (d.day - 1) := by
  simp only [Date.dayOfYear, Gregorian.dayOfYear, Gregorian.dayNumber_eq_add d.year d.month d.day]
  omega

/-- The days of a month lie within its year. -/
theorem dayOfYear_bounds (year : Int) {month : Int} (h1 : 1 ≤ month) (h12 : month ≤ 12) :
    0 ≤ Gregorian.dayOfYear year month 1 ∧
      Gregorian.dayOfYear year month 1 + Gregorian.monthLength year month ≤
        Gregorian.yearLength year := by
  have hstart : Gregorian.dayNumber year 1 1 ≤ Gregorian.dayNumber year month 1 :=
    Gregorian.dayNumber_month_mono (by omega)
  have hend : Gregorian.dayNumber year month 1 + Gregorian.monthLength year month ≤
      Gregorian.dayNumber year 13 1 := Gregorian.dayNumber_month_lt (by omega)
  rw [Gregorian.dayNumber_month_thirteen, Gregorian.dayNumber_succ_year] at hend
  simp only [Gregorian.dayOfYear]
  omega

/-! ### Weekday entries -/

/-- A date that an entry of weekdays names. -/
def WeekdayNum.Names (e : WeekdayNum) (inYear : Bool) (d : Date) : Prop :=
  e.weekday = d.weekday ∧ ∀ n ∈ e.ordinal, OrdinalNames inYear d n

variable {d : Date} {e : WeekdayNum} {inYear : Bool}

/-- The first of a month lies as many days after New Year's Day as the year has before it. -/
theorem dayNumber_first_of_month (year month : Int) : Gregorian.dayNumber year month 1 =
    Gregorian.dayNumber year 1 1 + Gregorian.dayOfYear year month 1 := by
  unfold Gregorian.dayOfYear
  omega

/-- Without an ordinal every seventh day is listed, from the first such weekday on. -/
theorem mem_weekdayDaysIn_every (hd : d.IsReal) (hn : e.ordinal = none) :
    d.day ∈ weekdayDaysIn inYear d.year d.month e ↔ e.weekday = d.weekday := by
  have hle := hd.day_le
  have hlen := Gregorian.monthLength_bounds d.year d.month
  have hd1 := hd.2.2.1
  have hw0 := e.weekday.number_nonneg
  have hw7 := e.weekday.number_lt
  rw [weekday_eq_iff, Date.weekdayNumber, Date.dayNumber_eq]
  simp only [weekdayDaysIn, hn, Gregorian.firstWeekdayOfMonth, Gregorian.weekdayNumber,
    List.mem_filter, List.mem_map, List.mem_range, decide_eq_true_eq]
  generalize Gregorian.dayNumber d.year d.month 1 = n
  constructor
  · rintro ⟨⟨k, hk, hday⟩, -⟩
    omega
  · intro hw
    refine ⟨⟨((d.day - 1) / 7).toNat, ?_, ?_⟩, hle⟩
    · omega
    · omega

/-- With an ordinal the n-th weekday is listed, counted within the month or, shifted by what lies
before the month, within the year. -/
theorem mem_weekdayDaysIn_ordinal (hd : d.IsReal) {n : Int} (hn : e.ordinal = some n) :
    d.day ∈ weekdayDaysIn inYear d.year d.month e ↔
      e.weekday = d.weekday ∧ OrdinalNames inYear d n := by
  have hday : 1 ≤ d.day ∧ d.day ≤ Gregorian.monthLength d.year d.month := ⟨hd.2.2.1, hd.day_le⟩
  have hweekday : 0 ≤ e.weekday.number ∧ e.weekday.number < 7 :=
    ⟨e.weekday.number_nonneg, e.weekday.number_lt⟩
  have hmem : ∀ day : Int, (d.day ∈ if day = 0 then [] else [day]) ↔ day = d.day := by
    intro day
    split_ifs with h
    · simp
      omega
    · simp [eq_comm]
  rw [weekday_eq_iff, Date.weekdayNumber, Date.dayNumber_eq]
  simp only [weekdayDaysIn, hn, hmem, OrdinalNames, Date.dayWithin]
  cases inYear with
  | false =>
    have hlen := Gregorian.monthLength_bounds d.year d.month
    simp only [Gregorian.firstWeekdayOfMonth, Gregorian.weekdayNumber, if_false,
      Bool.false_eq_true]
    rw [nthWeekday_eq_iff hweekday (by omega) hday (by omega)]
    generalize Gregorian.dayNumber d.year d.month 1 = k
    rw [zero_add, show (k % 7 + 0 + (d.day - 1)) % 7 = (k + (d.day - 1)) % 7 by omega]
  | true =>
    have hyear := dayOfYear_bounds d.year hd.1 hd.2.1
    simp only [Gregorian.weekdayNumber, if_true]
    rw [nthWeekday_eq_iff hweekday (Gregorian.yearLength_le d.year) hday hyear, Date.dayOfYear_eq,
      dayNumber_first_of_month d.year d.month,
      show Gregorian.dayOfYear d.year d.month 1 + d.day - 1 =
        Gregorian.dayOfYear d.year d.month 1 + (d.day - 1) by omega]
    generalize Gregorian.dayNumber d.year 1 1 = k
    generalize Gregorian.dayOfYear d.year d.month 1 = off
    rw [show (k % 7 + off + (d.day - 1)) % 7 = (k + off + (d.day - 1)) % 7 by omega]

/-- **Listed weekdays** are the days of the month that the entry names. -/
theorem mem_weekdayDaysIn (hd : d.IsReal) :
    d.day ∈ weekdayDaysIn inYear d.year d.month e ↔ e.Names inYear d := by
  cases hn : e.ordinal with
  | none => simp [mem_weekdayDaysIn_every hd hn, WeekdayNum.Names, hn]
  | some n => simp [mem_weekdayDaysIn_ordinal hd hn, WeekdayNum.Names, hn]

/-- **Filtered weekdays** are the dates that the entry names. -/
theorem entryAccepts_iff (hd : d.IsReal) :
    Filter.entryAccepts inYear d e = true ↔ e.Names inYear d := by
  have hle := hd.day_le
  have hyear := dayOfYear_bounds d.year hd.1 hd.2.1
  obtain ⟨h1, h12, hd1, -⟩ := hd
  rw [WeekdayNum.Names, weekday_eq_iff, Filter.entryAccepts, Bool.and_eq_true, beq_iff_eq]
  refine and_congr_right fun hw => ?_
  rw [Date.weekdayNumber, Date.dayNumber_eq] at hw
  cases hn : e.ordinal with
  | none => simp
  | some n =>
    simp only [beq_iff_eq, Option.mem_def, Option.some.injEq, forall_eq', OrdinalNames,
      Date.dayWithin, Filter.ordinalPosition, Filter.weekdayPosition]
    cases inYear with
    | false =>
      simp only [if_false, Bool.false_eq_true]
      exact weekdayPosition_eq_iff ⟨Int.emod_nonneg _ (by omega), Int.emod_lt_of_pos _ (by omega)⟩
        (by rw [hw, Gregorian.firstWeekdayOfMonth, Gregorian.weekdayNumber]; omega) (by omega)
    | true =>
      simp only [if_true, Date.dayOfYear_eq]
      exact weekdayPosition_eq_iff ⟨Int.emod_nonneg _ (by omega), Int.emod_lt_of_pos _ (by omega)⟩
        (by rw [hw, dayNumber_first_of_month, Gregorian.weekdayNumber]; omega) (by omega)

/-- The days that a weekday entry lists are days of the month. -/
theorem weekdayDaysIn_within {year month n : Int} (h : n ∈ weekdayDaysIn inYear year month e) :
    1 ≤ n ∧ n ≤ Gregorian.monthLength year month := by
  have hnth : ∀ a b c d o, Gregorian.nthWeekday a b c d o (Gregorian.monthLength year month) ≠ 0 →
      1 ≤ Gregorian.nthWeekday a b c d o (Gregorian.monthLength year month) ∧
        Gregorian.nthWeekday a b c d o (Gregorian.monthLength year month) ≤
          Gregorian.monthLength year month := by
    intro a b c d o
    unfold Gregorian.nthWeekday
    simp only
    split_ifs <;> omega
  cases hn : e.ordinal with
  | none =>
    simp only [weekdayDaysIn, hn, List.mem_filter, List.mem_map, List.mem_range,
      decide_eq_true_eq] at h
    obtain ⟨⟨k, hk, rfl⟩, hle⟩ := h
    exact ⟨by omega, hle⟩
  | some m =>
    simp only [weekdayDaysIn, hn] at h
    split_ifs at h with h0 h0 h0
    · exact absurd h (by simp)
    · obtain rfl := List.mem_singleton.mp h
      exact hnth _ _ _ _ _ h0
    · exact absurd h (by simp)
    · obtain rfl := List.mem_singleton.mp h
      exact hnth _ _ _ _ _ h0

/-! ### Lists of days -/

/-- A list of days: what a part of a rule that names days gives to the generator or to the
filter that it becomes. -/
inductive DayList where
  | weekdays (entries : List WeekdayNum) (inYear : Bool)
  | monthDays (ns : List Int)
  | yearDays (ns : List Int)
  | weekNumbers (ns : List Int) (weekStart : Weekday)

namespace DayList

/-- The listing that a list of days drives. -/
def listing : DayList → Listing
  | weekdays es inYear => .weekdays es inYear
  | monthDays ns => .monthDays ns
  | yearDays ns => .yearDays ns
  | weekNumbers ns weekStart => .weekNumbers ns weekStart

/-- The filter that a list of days makes. -/
def filter : DayList → Filter
  | weekdays es inYear => .weekdays es inYear
  | monthDays ns => .monthDays ns
  | yearDays ns => .yearDays ns
  | weekNumbers ns weekStart => .weekNumbers ns weekStart

/-- A date that a list of days names. -/
def Names (d : Date) : DayList → Prop
  | weekdays es inYear => ∃ e ∈ es, e.Names inYear d
  | monthDays ns => Named ns (Gregorian.monthLength d.year d.month) d.day
  | yearDays ns => Named ns (Gregorian.yearLength d.year) (d.dayOfYear + 1)
  | weekNumbers ns weekStart =>
    Named ns (Gregorian.weeksInYear (d.weekNumber weekStart.number).year weekStart.number)
      (d.weekNumber weekStart.number).week

variable {l : DayList} {f : Fields}

/-- A place is among the listed ones that lie within a range, if the list names it. -/
theorem mem_positions_iff (ns : List Int) {count before length day : Int}
    (hbefore : 0 ≤ before) (hcount : before + length ≤ count) (hday : 1 ≤ day ∧ day ≤ length) :
    day ∈ ascendingInts ((ns.map fun n => Gregorian.positionFromStart n count - before).filter
      fun d => 1 ≤ d && d ≤ length) ↔ Named ns count (before + day) := by
  simp only [mem_ascendingInts, List.mem_filter, List.mem_map, Gregorian.positionFromStart,
    Bool.and_eq_true, decide_eq_true_eq, Named]
  constructor
  · rintro ⟨⟨n, hn, hplace⟩, -⟩
    split_ifs at hplace with h
    · right
      rwa [show before + day - count - 1 = n by omega]
    · left
      rwa [show before + day = n by omega]
  · rintro (h | h)
    · exact ⟨⟨_, h, by rw [if_neg (by omega)]; omega⟩, hday⟩
    · exact ⟨⟨_, h, by rw [if_pos (by omega)]; omega⟩, hday⟩

/-- **As a listing**, a list of days gives the dates that it names. -/
theorem mem_values (hd : d.IsReal) (hyear : f.year = d.year) (hmonth : f.month = d.month) :
    d.day ∈ l.listing.values f ↔ l.Names d := by
  have hday : 1 ≤ d.day ∧ d.day ≤ Gregorian.monthLength d.year d.month := ⟨hd.2.2.1, hd.day_le⟩
  cases l with
  | weekdays es inYear =>
    simp only [listing, Names, Listing.values, mem_ascendingInts, List.mem_flatMap, hyear, hmonth,
      mem_weekdayDaysIn hd]
  | monthDays ns =>
    have hpositions := mem_positions_iff ns le_rfl (Int.zero_add _).le hday
    simpa only [Int.sub_zero, Int.zero_add, listing, Names, Listing.values, monthDaysIn, hyear,
      hmonth] using hpositions
  | yearDays ns =>
    obtain ⟨hbefore, hcount⟩ := dayOfYear_bounds d.year hd.1 hd.2.1
    have hpositions := mem_positions_iff ns hbefore hcount hday
    simp only [listing, Names, Listing.values, yearDaysIn, hyear, hmonth, hpositions,
      Date.dayOfYear_eq]
    rw [show Gregorian.dayOfYear d.year d.month 1 + (d.day - 1) + 1 =
      Gregorian.dayOfYear d.year d.month 1 + d.day by omega]
  | weekNumbers ns weekStart =>
    simp only [listing, Names, Listing.values, weekDaysIn, hyear, hmonth, List.mem_filter,
      mem_daysOfMonth, Filter.weekListed_iff]
    exact and_iff_right hday

/-- **As a filter**, a list of days passes the dates that it names. -/
theorem passes {v : Value} (hv : v.date.IsReal) : l.filter.Passes v ↔ l.Names v.date := by
  cases l with
  | weekdays es inYear =>
    refine Filter.passes_weekdays.trans (exists_congr fun e => and_congr_right fun _ => ?_)
    exact entryAccepts_iff hv
  | monthDays ns => exact Filter.passes_monthDays hv
  | yearDays ns => exact Filter.passes_yearDays
  | weekNumbers ns weekStart => exact Filter.passes_weekNumbers

theorem decides : l.filter.Decides := by
  cases l with
  | weekdays es inYear => exact Filter.decides_weekdays
  | monthDays ns => exact Filter.decides_monthDays
  | yearDays ns => exact Filter.decides_yearDays
  | weekNumbers ns weekStart => exact Filter.decides_weekNumbers

/-- The days that are listed are days of the month. -/
theorem values_within {n : Int} (h : n ∈ l.listing.values f) :
    1 ≤ n ∧ n ≤ Gregorian.monthLength f.year f.month := by
  cases l with
  | weekdays es inYear =>
    obtain ⟨e, -, he⟩ := List.mem_flatMap.mp (mem_ascendingInts.mp h)
    exact weekdayDaysIn_within he
  | monthDays ns | yearDays ns =>
    have := (List.mem_filter.mp (mem_ascendingInts.mp h)).2
    simpa using this
  | weekNumbers ns weekStart => exact mem_daysOfMonth.mp (List.mem_filter.mp h).1

end DayList

/-! ### Parts of a rule -/

namespace Rule

variable {r : Rule} {part : DayPart}

/-- Whether a rule has a part. -/
def HasPart (r : Rule) : DayPart → Prop
  | .byDay => r.byDay ≠ []
  | .byMonthDay => r.byMonthDay ≠ []
  | .byYearDay => r.byYearDay ≠ []
  | .byWeekNo => r.byWeekNo ≠ []

/-- Whether a date satisfies a part, if the rule has it. -/
def PartAccepts (r : Rule) (d : Date) : DayPart → Prop
  | .byDay => r.byDay = [] ∨ ∃ e ∈ r.byDay, r.EntryNames d e
  | .byMonthDay =>
    r.byMonthDay = [] ∨ Named r.byMonthDay (Gregorian.monthLength d.year d.month) d.day
  | .byYearDay => r.byYearDay = [] ∨ Named r.byYearDay (Gregorian.yearLength d.year) (d.dayOfYear + 1)
  | .byWeekNo => r.byWeekNo = [] ∨
    Named r.byWeekNo (Gregorian.weeksInYear (d.weekNumber r.weekStart.number).year r.weekStart.number)
      (d.weekNumber r.weekStart.number).week

theorem acceptsDate_iff : r.AcceptsDate d ↔
    (r.byMonth = [] ∨ d.month ∈ r.byMonth) ∧ ∀ part, r.PartAccepts d part := by
  constructor
  · rintro ⟨hmonth, hmonthDay, hyearDay, hweekNo, hday⟩
    refine ⟨hmonth, fun part => ?_⟩
    cases part with
    | byDay => exact hday
    | byMonthDay => exact hmonthDay
    | byYearDay => exact hyearDay
    | byWeekNo => exact hweekNo
  · rintro ⟨hmonth, h⟩
    exact ⟨hmonth, h .byMonthDay, h .byYearDay, h .byWeekNo, h .byDay⟩

/-- Without ordinals that have no meaning, the entries of a rule name the same dates. -/
theorem exists_plainByDay :
    (∃ e ∈ r.plainByDay, e.Names r.ordinalsInYear d) ↔ ∃ e ∈ r.byDay, r.EntryNames d e := by
  have hyear : r.ordinalsInYear = decide (r.freq = .yearly ∧ r.byMonth = []) := by
    rw [Bool.eq_iff_iff]
    simp [ordinalsInYear, List.isEmpty_iff]
  have htakes : r.freq.takesOrdinals = true ↔ r.freq = .monthly ∨ r.freq = .yearly := by
    simp [Frequency.takesOrdinals]
  unfold plainByDay
  split_ifs with h
  · refine exists_congr fun e => and_congr_right fun he => ?_
    rw [WeekdayNum.Names, EntryNames, hyear]
    refine and_congr_right fun _ => ?_
    by_cases ht : r.freq.takesOrdinals = true
    · simp only [htakes.mp ht, true_implies]
    · have hnone : e.ordinal = none := by
        simp only [RuleParts.hasOrdinals, ht, Bool.or_false, Bool.not_eq_true', List.any_eq_false,
          Option.not_isSome_iff_eq_none] at h
        exact h e he
      simp [hnone]
  · simp only [Bool.or_eq_true, not_or] at h
    have ht : ¬ (r.freq = .monthly ∨ r.freq = .yearly) := fun hf => h.2 (htakes.mpr hf)
    simp only [List.mem_map, exists_exists_and_eq_and, WeekdayNum.every, WeekdayNum.Names,
      EntryNames, ht, false_implies]
    simp

/-- The list of days of a part. -/
def dayList (r : Rule) : DayPart → DayList
  | .byDay => .weekdays r.plainByDay r.ordinalsInYear
  | .byMonthDay => .monthDays r.byMonthDay
  | .byYearDay => .yearDays r.byYearDay
  | .byWeekNo => .weekNumbers r.byWeekNo r.weekStart

theorem dayListing_eq (r : Rule) (part : DayPart) : dayListing r part = (r.dayList part).listing := by
  cases part <;> rfl

theorem dayFilter_eq_some_iff {p : Filter} :
    dayFilter r part = some p ↔ r.HasPart part ∧ (r.dayList part).filter = p := by
  cases part <;> simp [dayFilter, HasPart, dayList, DayList.filter, List.isEmpty_iff]

/-- A date satisfies a part if the list of the part names it. -/
theorem partAccepts_iff : r.PartAccepts d part ↔ (r.HasPart part → (r.dayList part).Names d) := by
  cases part with
  | byDay =>
    rw [PartAccepts, HasPart, dayList, DayList.Names, ← exists_plainByDay, ne_eq,
      ← or_iff_not_imp_left]
  | byMonthDay | byYearDay | byWeekNo =>
    rw [PartAccepts, HasPart, dayList, DayList.Names, ne_eq, ← or_iff_not_imp_left]

/-- **A part that drives the day** lists the dates that satisfy it. -/
theorem mem_dayListing (hd : d.IsReal) (hpart : r.HasPart part) {f : Fields}
    (hyear : f.year = d.year) (hmonth : f.month = d.month) :
    d.day ∈ (dayListing r part).values f ↔ r.PartAccepts d part := by
  rw [dayListing_eq, DayList.mem_values hd hyear hmonth, partAccepts_iff, forall_prop_of_true hpart]

/-- **A part that filters the day** passes the dates that satisfy it. -/
theorem passes_dayFilter (hd : d.IsReal) :
    (∀ p ∈ dayFilter r part, p.Passes (.ofDate d)) ↔ r.PartAccepts d part := by
  rw [partAccepts_iff]
  constructor
  · intro h hpart
    exact (DayList.passes (v := .ofDate d) hd).mp (h _ (dayFilter_eq_some_iff.mpr ⟨hpart, rfl⟩))
  · intro h p hp
    obtain ⟨hpart, rfl⟩ := dayFilter_eq_some_iff.mp hp
    exact (DayList.passes (v := .ofDate d) hd).mpr (h hpart)

theorem decides_dayFilter {p : Filter} (hp : p ∈ dayFilter r part) : p.Decides := by
  obtain ⟨-, rfl⟩ := dayFilter_eq_some_iff.mp hp
  exact DayList.decides

/-! ### The part that drives the day -/

theorem hasPart_of_driving (h : drivingDayPart r = some part) : r.HasPart part := by
  unfold drivingDayPart at h
  split_ifs at h <;> obtain rfl := Option.some.inj h <;> simp_all [HasPart, List.isEmpty_iff]

/-- In rules whose days are not stepped through, no part drives the day only if none
names days. -/
theorem leavesDayOpen_iff (h : r.freq = .monthly ∨ r.freq = .yearly) :
    drivingDayPart r = none ↔ r.LeavesDayOpen := by
  have hw : r.freq ≠ .weekly := by rcases h with h | h <;> simp [h]
  have hd : r.freq ≠ .daily := by rcases h with h | h <;> simp [h]
  simp only [drivingDayPart, hw, hd, false_and, if_false, LeavesDayOpen, Bool.not_eq_true']
  cases r.byDay <;> cases r.byMonthDay <;> cases r.byYearDay <;> cases r.byWeekNo <;> simp

end Rule

end Recurrence
