/-
Recurrence/Proofs/Meaning/Fields.lean

What each generator of a plan stands for.

A plan leaves every part of a rule to one generator or to one filter, and the choice
depends on the frequency, on the interval and on the other parts.  Here the choices
for one field are put together again: a generator and the filters that it leaves
accept exactly the values whose field is as the rule wants it
(`names_month_iff`, `names_day_iff`, `names_clock_iff`).
-/
import Recurrence.Expansion.Series
import Recurrence.Proofs.Meaning.Days
import Recurrence.Proofs.Meaning.Phase
import Recurrence.Proofs.Rule.Validity

namespace Recurrence

/-- A rule and a start that a series can be made of. -/
structure Rule.Admits (r : Rule) (start : Value) : Prop where
  valid : r.Valid
  real : start.IsReal
  timed : r.freq.isSubDaily = true → start.hasTime = true

/-- A value's period lies a multiple of the interval from the start's. -/
def Rule.Phased (r : Rule) (start v : Value) : Prop :=
  r.interval ∣ r.periodNumber v - r.periodNumber start

variable {r : Rule} {start v : Value}

theorem Rule.Admits.interval_pos (h : r.Admits start) : 1 ≤ r.interval := h.valid.1

theorem Rule.Admits.list (h : r.Admits start) (part : ListPart) {n : Int}
    (hn : n ∈ r.values part) : part.admits n = true :=
  h.valid.admits part n hn

theorem phased_of_interval_one (h : r.interval = 1) : r.Phased start v := by
  rw [Rule.Phased, h]
  exact Int.one_dvd _

/-! ### Where lists begin -/

/-- Where the lists of a rule begin. -/
abbrev Rule.listStart (r : Rule) (start : Value) : Value := Series.listStart r start

theorem listStart_spec (hr : start.IsReal) :
    (r.listStart start).IsReal ∧ (r.listStart start).hasTime = start.hasTime ∧
      r.listStart start ≤ start ∧
      r.periodNumber (r.listStart start) = r.periodNumber start := by
  unfold Rule.listStart Series.listStart
  split_ifs
  · exact ⟨hr, rfl, le_rfl, rfl⟩
  · exact periodStart_spec hr

/-- Down to the field of its own unit, lists begin at the start. -/
theorem take_path_listStart {n : Nat} (h : n = 1 ∨ (n ≤ 2 ∧ r.freq ≠ .yearly) ∨
    (n ≤ 3 ∧ r.freq ≠ .yearly ∧ r.freq ≠ .monthly) ∨
    (n ≤ 4 ∧ r.freq.isFinerThan .daily = true) ∨ (n ≤ 5 ∧ r.freq.isFinerThan .hourly = true) ∨
    (n ≤ 6 ∧ r.freq.isFinerThan .minutely = true)) :
    (r.listStart start).path.take n = start.path.take n := by
  have key : ∀ m, n ≤ m → (r.listStart start).path.take m = start.path.take m →
      (r.listStart start).path.take n = start.path.take n := by
    intro m hnm hm
    exact take_eq_of_take_eq hm hnm
  unfold Rule.listStart Series.listStart at key ⊢
  split_ifs at key ⊢ with hpos
  · rfl
  · obtain ⟨d, t⟩ := start
    rcases h with rfl | ⟨hn, h⟩ | ⟨hn, h⟩ | ⟨hn, h⟩ | ⟨hn, h⟩ | ⟨hn, h⟩
    · cases r.freq <;> rfl
    · refine key 2 hn ?_
      cases hf : r.freq <;> first | rfl | exact absurd hf h
    · refine key 3 hn ?_
      cases hf : r.freq <;> first | rfl | exact absurd hf h.1 | exact absurd hf h.2
    · refine key 4 hn ?_
      cases hf : r.freq <;> rw [hf] at h <;> cases t <;> first | rfl | exact absurd h (by decide)
    · refine key 5 hn ?_
      cases hf : r.freq <;> rw [hf] at h <;> cases t <;> first | rfl | exact absurd h (by decide)
    · refine key 6 hn ?_
      cases hf : r.freq <;> rw [hf] at h <;> cases t <;> first | rfl | exact absurd h (by decide)

/-! ### Months -/

/-- The listed months are months. -/
theorem listed_months_within {ns : List Int} (h : ∀ n ∈ ns, 1 ≤ n ∧ n ≤ 12) (p : List Int) (n : Int)
    (hp : p.length = 1) (hn : n ∈ (Listing.months ns).values (.ofPath p)) : calendarTree p n := by
  obtain ⟨y, rfl⟩ := List.length_eq_one_iff.mp hp
  exact h n (mem_ascendingInts.mp hn)

/-- A monthly rule counts the months from the start of its lists on. -/
theorem phased_iff_month (h : r.Admits start) (hf : r.freq = .monthly) :
    r.Phased start v ↔ r.interval ∣
      StepUnit.month.numberOf v - StepUnit.month.numberOf (r.listStart start) := by
  have hstart := (listStart_spec (r := r) h.real).2.2.2
  rw [Rule.Phased, ← hstart, StepUnit.numberOf_month, StepUnit.numberOf_month]
  simp only [Rule.periodNumber, periodNumber, hf]
  rw [show ∀ a b c d : Int, a * 12 + (b - 1) - (c * 12 + (d - 1)) = a * 12 + b - (c * 12 + d) by
    intros; omega]

/-- How a rule goes through the months: it steps through them, lists some of them, or keeps to the
month of the start. -/
inductive MonthCourse (r : Rule) (start genStart : Value) : Generator × List Filter → Prop
  | stepped (own : r.freq = .monthly) (nil : r.byMonth = []) :
    MonthCourse r start genStart (steppedFrom .month r.interval genStart, [])
  | filtered (own : r.freq = .monthly) (ne_nil : r.byMonth ≠ []) :
    MonthCourse r start genStart (steppedFrom .month r.interval genStart, [.months r.byMonth])
  | every (other : r.freq ≠ .monthly) (loose : ¬ (r.freq = .yearly ∧ r.LeavesDayOpen))
      (nil : r.byMonth = []) :
    MonthCourse r start genStart (steppedFrom .month 1 genStart, [])
  | listed (ne_nil : r.byMonth ≠ []) (interval_le : r.freq = .monthly → r.interval ≤ 1) :
    MonthCourse r start genStart (listedFrom (.months r.byMonth) genStart, [])
  | fixed (yearly : r.freq = .yearly) (no_days : r.LeavesDayOpen) (nil : r.byMonth = []) :
    MonthCourse r start genStart (listedFrom (.months [start.date.month]) genStart, [])

theorem monthCourse (r : Rule) (start genStart : Value) :
    MonthCourse r start genStart (monthGenerator r start genStart) := by
  have hempty : r.byMonth.isEmpty = true ↔ r.byMonth = [] := List.isEmpty_iff
  have hopen : r.namesNoDays = true ↔ r.LeavesDayOpen := by
    simp only [Rule.namesNoDays, Rule.LeavesDayOpen, Bool.and_eq_true, List.isEmpty_iff]
    tauto
  simp only [monthGenerator, Bool.not_eq_true', ← Bool.not_eq_true, hempty, hopen]
  split_ifs with hnil hkeep hown hstepped
  · exact .fixed hkeep.1 hkeep.2 hnil
  · exact .stepped hown hnil
  · exact .every hown hkeep hnil
  · exact .filtered hstepped.1 hnil
  · exact .listed hnil fun hown => not_lt.mp fun hlt => hstepped ⟨hown, hlt⟩

/-- **The month of a value** is as a rule wants it if the generator of the month names
it and the filters that it leaves pass. -/
theorem names_month_iff (h : r.Admits start) (hv : v.IsReal) :
    ((monthGenerator r start (r.listStart start)).1.Names (v.path.take 1) v.date.month ∧
        ∀ p ∈ (monthGenerator r start (r.listStart start)).2, p.Passes (.ofDate v.date)) ↔
      (r.byMonth = [] ∨ v.date.month ∈ r.byMonth) ∧ (r.freq = .monthly → r.Phased start v) ∧
        (r.freq = .yearly → r.LeavesDayOpen → r.byMonth = [] → v.date.month = start.date.month) := by
  have hstep : ∀ interval, (steppedFrom .month interval (r.listStart start)).Names (v.path.take 1)
      v.date.month ↔ interval ∣
        StepUnit.month.numberOf v - StepUnit.month.numberOf (r.listStart start) :=
    fun interval => names_steppedFrom (u := .month) hv
  have hlist : ∀ ns, (listedFrom (.months ns) (r.listStart start)).Names (v.path.take 1)
      v.date.month ↔ v.date.month ∈ ns := by
    intro ns
    refine (names_listedFrom (l := .months ns) _).trans ?_
    exact mem_ascendingInts
  have hi := h.interval_pos
  generalize hg : monthGenerator r start (r.listStart start) = g
  cases hg ▸ monthCourse r start (r.listStart start) with
  | stepped own nil =>
    rw [hstep, ← phased_iff_month h own]
    simp [nil, own]
  | filtered own ne_nil =>
    rw [hstep, ← phased_iff_month h own]
    simp only [List.mem_singleton, forall_eq, Filter.passes_months (v := .ofDate v.date) hv.1,
      ne_nil, false_or, own, true_implies, reduceCtorEq, false_implies, and_true]
    exact and_comm
  | every other loose nil =>
    rw [hstep]
    refine iff_of_true ⟨Int.one_dvd _, by simp⟩ ⟨.inl nil, fun own => absurd own other, ?_⟩
    exact fun yearly no_days _ => absurd ⟨yearly, no_days⟩ loose
  | listed ne_nil interval_le =>
    have hphased : r.freq = .monthly → r.Phased start v := by
      intro own
      have := interval_le own
      exact phased_of_interval_one (by omega)
    rw [hlist]
    simpa [ne_nil] using fun _ => hphased
  | fixed yearly no_days nil =>
    rw [hlist]
    simp [nil, yearly, no_days]

/-- The generator of the month begins at the start of the lists. -/
theorem begins_month (h : r.Admits start) (path : List Int)
    (hpath : path.take 2 = (r.listStart start).path.take 2) :
    (monthGenerator r start (r.listStart start)).1.Begins path ∧
      (monthGenerator r start (r.listStart start)).1.source.field = .month ∧
      ∀ p ∈ (monthGenerator r start (r.listStart start)).2, p.Decides := by
  have hi := h.interval_pos
  have hlist : ∀ ns : List Int, (∀ n ∈ ns, 1 ≤ n ∧ n ≤ 12) →
      (listedFrom (.months ns) (r.listStart start)).Begins path := by
    intro ns hns
    exact begins_listedFrom hpath fun p n hp _ hn => listed_months_within hns p n hp hn
  generalize hg : monthGenerator r start (r.listStart start) = g
  cases hg ▸ monthCourse r start (r.listStart start) with
  | stepped own nil => exact ⟨begins_steppedFrom hi hpath, rfl, by simp⟩
  | filtered own ne_nil =>
    refine ⟨begins_steppedFrom hi hpath, rfl, ?_⟩
    simp only [List.mem_singleton, forall_eq]
    exact Filter.decides_months
  | every other loose nil => exact ⟨begins_steppedFrom le_rfl hpath, rfl, by simp⟩
  | listed ne_nil interval_le =>
    refine ⟨hlist _ fun n hn => ?_, rfl, by simp⟩
    have := h.list .month (n := n) hn
    simpa [ListPart.admits, ListPart.isSigned, ListPart.low, ListPart.high] using this
  | fixed yearly no_days nil =>
    refine ⟨hlist _ ?_, rfl, by simp⟩
    simp only [List.mem_singleton, forall_eq]
    exact ⟨h.real.1.1, h.real.1.2.1⟩

/-! ### Days -/

/-- The days that a part lists are days of the month. -/
theorem dayListing_within {part : DayPart} {f : Fields} {n : Int}
    (h : n ∈ (dayListing r part).values f) : 1 ≤ n ∧ n ≤ Gregorian.monthLength f.year f.month := by
  rw [Rule.dayListing_eq] at h
  exact DayList.values_within h

theorem mem_monthDaysIn_singleton {day : Int} {d : Date} (hd : d.IsReal) (hday : 1 ≤ day) :
    d.day ∈ monthDaysIn [day] d.year d.month ↔ d.day = day := by
  have hle := hd.day_le
  have hd1 := hd.2.2.1
  simp only [monthDaysIn, mem_ascendingInts, List.mem_filter, List.mem_map, List.mem_singleton,
    exists_eq_left, Gregorian.positionFromStart, if_neg (show ¬ day < 0 by omega),
    Bool.and_eq_true, decide_eq_true_eq]
  constructor
  · rintro ⟨h, -⟩
    exact h.symm
  · intro h
    exact ⟨h.symm, hd1, hle⟩

/-- Every seventh day of every n-th week: the weeks in phase, and always the same
weekday. -/
theorem weekly_phase_iff {interval a b : Int} (weekStart : Int) :
    7 * interval ∣ a - b ↔
      interval ∣ (a - weekStart) / 7 - (b - weekStart) / 7 ∧ a % 7 = b % 7 := by
  constructor
  · rintro ⟨k, hk⟩
    have hk' : a = b + 7 * (interval * k) := by
      rw [← Int.mul_assoc]
      omega
    generalize hm : interval * k = m at hk'
    exact ⟨⟨k, by rw [hm]; omega⟩, by omega⟩
  · rintro ⟨⟨k, hk⟩, hmod⟩
    refine ⟨k, ?_⟩
    rw [Int.mul_assoc]
    generalize interval * k = m at hk ⊢
    omega

/-- The weeks that a filter passes are those in phase. -/
theorem week_filter_iff {interval a b weekStart : Int} :
    interval ∣ (a - Gregorian.weekStart b weekStart) / 7 ↔
      interval ∣ (a - weekStart) / 7 - (b - weekStart) / 7 := by
  unfold Gregorian.weekStart
  rw [show (a - (b - (b - weekStart) % 7)) / 7 = (a - weekStart) / 7 - (b - weekStart) / 7 by omega]

/-- A weekly rule counts the weeks from that of the start on. -/
theorem phased_iff_week (hf : r.freq = .weekly) : r.Phased start v ↔ r.interval ∣
    (v.date.dayNumber - Gregorian.weekStart start.date.dayNumber r.weekStart.number) / 7 := by
  rw [week_filter_iff]
  simp only [Rule.Phased, Rule.periodNumber, periodNumber, hf]

/-- What a rule wants of a date beyond its parts: the phase of weeks and days, and the
weekday or the day of the start where they are left open. -/
def Rule.KeepsDay (r : Rule) (start v : Value) : Prop :=
  (r.freq = .weekly ∨ r.freq = .daily → r.Phased start v) ∧
    (r.freq = .weekly → r.byDay = [] → v.date.weekday = start.date.weekday) ∧
      (r.freq = .monthly ∨ r.freq = .yearly → r.LeavesDayOpen → v.date.day = start.date.day)

theorem weekday_eq_weekday_iff {d e : Date} : d.weekday = e.weekday ↔
    d.dayNumber % 7 = e.dayNumber % 7 := by
  rw [weekday_eq_iff, Date.weekday, Weekday.number_ofNumber, Date.weekdayNumber]

/-- The days of a rule that no part drives. -/
theorem names_defaultDay_iff (h : r.Admits start) (hv : v.IsReal) (hd : drivingDayPart r = none) :
    (defaultDayGenerator r start (r.listStart start)).Names (v.path.take 2) v.date.day ↔
      r.KeepsDay start v := by
  have hi := h.interval_pos
  have hstep : ∀ interval, (steppedFrom .day interval start).Names (v.path.take 2) v.date.day ↔
      interval ∣ v.date.dayNumber - start.date.dayNumber := by
    intro interval
    rw [← StepUnit.numberOf_day, ← StepUnit.numberOf_day]
    exact names_steppedFrom (u := .day) hv
  unfold defaultDayGenerator Rule.KeepsDay Rule.Phased Rule.periodNumber periodNumber
  have hlisted : (r.freq = .monthly ∨ r.freq = .yearly) →
      ((listedFrom (.monthDays [start.date.day]) (r.listStart start)).Names (v.path.take 2)
        v.date.day ↔ (r.LeavesDayOpen → v.date.day = start.date.day)) := by
    intro hf
    rw [forall_prop_of_true ((Rule.leavesDayOpen_iff hf).mp hd)]
    refine Iff.trans (names_listedFrom (v := v) v.date.day) ?_
    exact mem_monthDaysIn_singleton hv.1 h.real.1.2.2.1
  cases hf : r.freq with
  | weekly =>
    have hnil : r.byDay = [] := by
      simp only [drivingDayPart, hf, if_true] at hd
      split_ifs at hd with hempty
      exact List.isEmpty_iff.mp hempty
    simp [hstep, hnil, weekday_eq_weekday_iff, weekly_phase_iff r.weekStart.number]
  | daily => simp [hstep]
  | monthly => simpa using hlisted (.inl hf)
  | yearly => simpa using hlisted (.inr hf)
  | hourly => simp [hstep]
  | minutely => simp [hstep]
  | secondly => simp [hstep]

/-- The filters on the day are that on the week and those of the parts that do not drive. -/
theorem passes_dayFilters_iff (hv : v.IsReal) :
    (∀ p ∈ dayFilters r start, p.Passes (.ofDate v.date)) ↔
      (∀ p ∈ weekFilter r start, p.Passes (.ofDate v.date)) ∧
        ∀ part, drivingDayPart r ≠ some part → r.PartAccepts v.date part := by
  have hall : ∀ part, part ∈ [DayPart.byDay, .byMonthDay, .byYearDay, .byWeekNo] := by
    intro part
    cases part <;> simp
  simp only [dayFilters, List.mem_append, or_imp, forall_and, Option.mem_toList,
    List.mem_filterMap, List.mem_filter, decide_eq_true_eq, hall, true_and]
  refine and_congr_right fun _ => ?_
  constructor
  · intro hp part hpart
    exact (Rule.passes_dayFilter hv.1).mp fun p hp' => hp p ⟨part, hpart, hp'⟩
  · rintro hp p ⟨part, hpart, hp'⟩
    exact (Rule.passes_dayFilter hv.1).mpr (hp part hpart) p hp'

/-- Where a part drives the days, the filter on the week keeps what a rule wants beyond parts. -/
theorem passes_weekFilter_iff (h : r.Admits start) {part : DayPart}
    (hd : drivingDayPart r = some part) :
    (∀ p ∈ weekFilter r start, p.Passes (.ofDate v.date)) ↔ r.KeepsDay start v := by
  have hi := h.interval_pos
  -- a part that drives leaves no day open, and a daily rule has one only without an interval
  have hopen : r.freq = .monthly ∨ r.freq = .yearly → ¬ r.LeavesDayOpen := by
    intro hf ho
    rw [(Rule.leavesDayOpen_iff hf).mpr ho] at hd
    exact absurd hd (by simp)
  have hbyDay : r.freq = .weekly → part = .byDay ∧ r.byDay ≠ [] := by
    intro hf
    simp only [drivingDayPart, hf, if_true] at hd
    split_ifs at hd with hempty
    exact ⟨(Option.some.inj hd).symm, fun hnil => hempty (by simp [hnil])⟩
  have hone : r.freq = .daily → r.interval = 1 := by
    intro hf
    by_contra hne
    simp only [drivingDayPart, hf, reduceCtorEq, if_false] at hd
    rw [if_pos ⟨trivial, by omega⟩] at hd
    exact absurd hd (by simp)
  unfold weekFilter Rule.KeepsDay
  split_ifs with hw
  · simp only [Option.mem_some_iff, forall_eq', Filter.ofWeekInterval, Filter.passes_weekInterval hi]
    refine (phased_iff_week (v := v) hw.1).symm.trans ?_
    constructor
    · intro hp
      exact ⟨fun _ => hp, fun hf hnil => absurd hnil (hbyDay hf).2, fun hf ho => absurd ho (hopen hf)⟩
    · rintro ⟨hp, -⟩
      exact hp (.inl hw.1)
  · rw [iff_true_left (by simp)]
    refine ⟨?_, fun hf hnil => absurd hnil (hbyDay hf).2, fun hf ho => absurd ho (hopen hf)⟩
    rintro (hf | hf)
    · refine phased_of_interval_one ?_
      by_contra hne
      refine hw ⟨hf, ?_, by omega⟩
      rw [hd, (hbyDay hf).1]
    · exact phased_of_interval_one (hone hf)

/-- **The day of a value** is as a rule wants it if the generator of the day names it and
the filters on the day pass. -/
theorem names_day_iff (h : r.Admits start) (hv : v.IsReal) :
    ((dayGenerator r start (r.listStart start)).Names (v.path.take 2) v.date.day ∧
        ∀ p ∈ dayFilters r start, p.Passes (.ofDate v.date)) ↔
      (∀ part, r.PartAccepts v.date part) ∧ r.KeepsDay start v := by
  rw [passes_dayFilters_iff hv]
  unfold dayGenerator
  cases hd : drivingDayPart r with
  | none =>
    have hweek : weekFilter r start = none := by simp [weekFilter, hd]
    simp only [names_defaultDay_iff h hv hd, hweek, Option.mem_def, reduceCtorEq, false_implies,
      implies_true, true_and, ne_eq, not_false_eq_true, true_implies]
    exact and_comm
  | some part =>
    have hlisted : (listedFrom (dayListing r part) (r.listStart start)).Names (v.path.take 2)
        v.date.day ↔ r.PartAccepts v.date part := by
      rw [← Rule.mem_dayListing hv.1 (Rule.hasPart_of_driving hd) (f := .ofValue v) rfl rfl]
      have hlevel : (dayListing r part).field.level = 2 := by cases part <;> rfl
      rw [← hlevel]
      exact names_listedFrom _
    -- the part that drives is checked by the list of days, all others by their filters
    rw [hlisted, passes_weekFilter_iff h hd]
    constructor
    · rintro ⟨hpart, hkeep, hothers⟩
      refine ⟨fun part' => ?_, hkeep⟩
      by_cases heq : part = part'
      · exact heq ▸ hpart
      · exact hothers part' (by simpa using heq)
    · rintro ⟨hall, hkeep⟩
      exact ⟨hall part, hkeep, fun part' _ => hall part'⟩

/-- The filters of the day decide about every date. -/
theorem decides_dayFilters (h : r.Admits start) {p : Filter} (hp : p ∈ dayFilters r start) :
    p.Decides := by
  rcases List.mem_append.mp hp with hp | hp
  · unfold weekFilter at hp
    split_ifs at hp
    · obtain rfl := List.mem_singleton.mp hp
      exact Filter.decides_weekInterval h.interval_pos
    · exact absurd hp (by simp)
  · obtain ⟨part, -, hp⟩ := List.mem_filterMap.mp hp
    exact Rule.decides_dayFilter hp

/-- A list of days of the month begins with the lists. -/
theorem begins_listedDays {path : List Int} {l : Listing}
    (hpath : path.take 3 = (r.listStart start).path.take 3) (hl : l.field = .day)
    (hwithin : ∀ p : List Int, ∀ n ∈ l.values (.ofPath p),
      1 ≤ n ∧ n ≤ Gregorian.monthLength (p.getD 0 0) (p.getD 1 1)) :
    (listedFrom l (r.listStart start)).Begins path := by
  refine begins_listedFrom (by rw [hl]; exact hpath) ?_
  intro p n hp _ hn
  rw [hl] at hp
  obtain ⟨y, m, rfl⟩ := List.length_eq_two.mp hp
  exact hwithin _ n hn

/-- Days are stepped through from the start itself, which agrees with the lists' start so far. -/
theorem begins_steppedDays {path : List Int}
    (hpath : path.take 3 = (r.listStart start).path.take 3) {interval : Int}
    (hi : 1 ≤ interval) (hy : r.freq ≠ .yearly) (hm : r.freq ≠ .monthly) :
    (steppedFrom .day interval start).Begins path :=
  begins_steppedFrom hi (hpath.trans (take_path_listStart (.inr (.inr (.inl ⟨le_rfl, hy, hm⟩)))))

/-- The generator of the day begins at the start of the lists, or at the start itself if it
steps through days. -/
theorem begins_day (h : r.Admits start) {path : List Int}
    (hpath : path.take 3 = (r.listStart start).path.take 3) :
    (dayGenerator r start (r.listStart start)).Begins path ∧
      (dayGenerator r start (r.listStart start)).source.field = .day ∧
      ∀ p ∈ dayFilters r start, p.Decides := by
  have hfilters : ∀ p ∈ dayFilters r start, p.Decides := fun p hp => decides_dayFilters h hp
  unfold dayGenerator
  cases drivingDayPart r with
  | some part =>
    have hfield : (dayListing r part).field = .day := by cases part <;> rfl
    exact ⟨begins_listedDays hpath hfield fun p n hn => dayListing_within hn, hfield, hfilters⟩
  | none =>
    unfold defaultDayGenerator
    have hlist : (listedFrom (.monthDays [start.date.day]) (r.listStart start)).Begins path := by
      refine begins_listedDays hpath rfl fun p n hn => ?_
      have hn : n ∈ monthDaysIn [start.date.day] (p.getD 0 0) (p.getD 1 1) := hn
      have := (List.mem_filter.mp (mem_ascendingInts.mp hn)).2
      simpa using this
    have hstep : ∀ interval, 1 ≤ interval → r.freq ≠ .yearly → r.freq ≠ .monthly →
        (steppedFrom .day interval start).Begins path :=
      fun interval hi => begins_steppedDays hpath hi
    have hi := h.interval_pos
    cases hf : r.freq with
    | weekly => exact ⟨hstep _ (by omega) (by simp [hf]) (by simp [hf]), rfl, hfilters⟩
    | daily => exact ⟨hstep _ hi (by simp [hf]) (by simp [hf]), rfl, hfilters⟩
    | monthly | yearly => exact ⟨hlist, rfl, hfilters⟩
    | hourly | minutely | secondly =>
      exact ⟨hstep _ le_rfl (by simp [hf]) (by simp [hf]), rfl, hfilters⟩

/-! ### Times of day -/

@[simp] theorem field_unit (field : ClockField) : field.unit.field = field.field := by
  cases field <;> rfl

/-- The part that lists the values of a time field. -/
def ClockField.part : ClockField → ListPart
  | hour => .hour
  | minute => .minute
  | second => .second

/-- The listed values of a time field are in the range of the field. -/
theorem clockSize_of_listed (hr : r.Valid) {field : ClockField} {n : Int}
    (hn : n ∈ r.clockValues field) : 0 ≤ n ∧ n < Filter.clockSize field := by
  have hmem : n ∈ r.values field.part := by
    cases field <;> exact hn
  have hrange := hr.admits field.part n hmem
  cases field <;>
    simp only [ClockField.part, ListPart.admits, ListPart.isSigned, ListPart.low, ListPart.high,
      Bool.false_eq_true, if_false, Bool.false_and, Bool.not_false, Bool.and_true, Bool.and_eq_true,
      decide_eq_true_eq] at hrange <;>
    simp only [Filter.clockSize] <;>
    omega

/-- The values that a time field can be given: the listed ones, or the start's own. -/
theorem clockValues_within (h : r.Admits start) (field : ClockField) {n : Int}
    (hn : n ∈ r.clockValues field ∨ n = start.timeField field.field) :
    0 ≤ n ∧ n < Filter.clockSize field := by
  rcases hn with hn | rfl
  · exact clockSize_of_listed h.valid hn
  · obtain ⟨h1, h2, h3, h4, h5, h6⟩ := Value.timeOrMidnight_isReal h.real
    cases field with
    | hour => exact ⟨h1, h2⟩
    | minute => exact ⟨h3, h4⟩
    | second => exact ⟨h5, h6⟩

/-- The frequency of a field's own unit counts its periods in that unit. -/
theorem phased_iff_clock {field : ClockField} (hf : r.freq = field.frequency) :
    r.Phased start v ↔ r.interval ∣ field.unit.numberOf v - field.unit.numberOf start := by
  cases field <;>
    simp only [Rule.Phased, Rule.periodNumber, periodNumber, hf, ClockField.frequency,
      ClockField.unit, StepUnit.numberOf_hour, StepUnit.numberOf_minute, StepUnit.numberOf_second]

/-- How a rule goes through a time field: it steps through the field in its own unit or because the
field is coarser, or it lists values of the field. -/
inductive ClockCourse (r : Rule) (field : ClockField) (start genStart : Value) :
    Generator × List Filter → Prop
  | stepped (own : r.freq = field.frequency) (nil : r.clockValues field = []) :
    ClockCourse r field start genStart (steppedFrom field.unit r.interval start, [])
  | filtered (own : r.freq = field.frequency) (ne_nil : r.clockValues field ≠ []) :
    ClockCourse r field start genStart
      (steppedFrom field.unit r.interval start, [.ofClock field (r.clockValues field)])
  | every (coarser : r.freq.isFinerThan field.frequency = true) (nil : r.clockValues field = []) :
    ClockCourse r field start genStart (steppedFrom field.unit 1 start, [])
  | listed (ne_nil : r.clockValues field ≠ [])
      (interval_one : r.freq = field.frequency → r.interval = 1) :
    ClockCourse r field start genStart
      (listedFrom (.clock field (r.clockValues field)) genStart, [])
  | fixed (finer : field.frequency.isFinerThan r.freq = true) (nil : r.clockValues field = []) :
    ClockCourse r field start genStart
      (listedFrom (.clock field [start.timeField field.field]) genStart, [])

theorem clockCourse (r : Rule) (field : ClockField) (start genStart : Value) :
    ClockCourse r field start genStart (timeGenerator r field start genStart) := by
  have hempty : (r.clockValues field).isEmpty = true ↔ r.clockValues field = [] :=
    List.isEmpty_iff
  simp only [timeGenerator, hempty]
  split_ifs with hown hnil hone hcoarser hnil hnil
  · exact .stepped hown hnil
  · exact .listed hnil fun _ => hone
  · exact .filtered hown hnil
  · exact .every hcoarser hnil
  · exact .listed hnil fun hown' => absurd hown' hown
  · refine .fixed ?_ hnil
    -- neither unit is the other one, and frequencies of the same rank are the same
    have hinj : r.freq.rank = field.frequency.rank → r.freq = field.frequency := by
      cases r.freq <;> cases field <;> simp [Frequency.rank, ClockField.frequency]
    simp only [Frequency.isFinerThan, decide_eq_true_eq] at hcoarser ⊢
    by_contra hge
    exact hown (hinj (by omega))
  · exact .listed hnil fun hown' => absurd hown' hown

theorem ne_of_isFinerThan {f g : Frequency} (h : f.isFinerThan g = true) : f ≠ g := by
  rintro rfl
  simp [Frequency.isFinerThan] at h

theorem not_isFinerThan {f g : Frequency} (h : f.isFinerThan g = true) : ¬ g.isFinerThan f = true := by
  simp only [Frequency.isFinerThan, decide_eq_true_eq] at h ⊢
  omega

/-- **A time field of a value** is as a rule wants it if the generator of the field names
it and the filters that it leaves pass. -/
theorem names_clock_iff (r : Rule) (start : Value) {d : Date} {t : TimeOfDay}
    (hv : (Value.ofDateTime d t).IsReal) (field : ClockField) :
    ((timeGenerator r field start (r.listStart start)).1.Names
        ((Value.ofDateTime d t).path.take field.field.level)
        ((Value.ofDateTime d t).timeField field.field) ∧
        ∀ p ∈ (timeGenerator r field start (r.listStart start)).2, p.Passes (.ofDateTime d t)) ↔
      ClockAgrees r.freq field.frequency (r.clockValues field) (start.timeField field.field)
          ((Value.ofDateTime d t).timeField field.field) ∧
        (r.freq = field.frequency → r.Phased start (.ofDateTime d t)) := by
  have hstep : ∀ interval, (steppedFrom field.unit interval start).Names
      ((Value.ofDateTime d t).path.take field.field.level)
      ((Value.ofDateTime d t).timeField field.field) ↔
        interval ∣ field.unit.numberOf (.ofDateTime d t) - field.unit.numberOf start := by
    intro interval
    rw [← names_steppedFrom (u := field.unit) hv, field_unit]
    rfl
  have hlist : ∀ ns, (listedFrom (.clock field ns) (r.listStart start)).Names
      ((Value.ofDateTime d t).path.take field.field.level)
      ((Value.ofDateTime d t).timeField field.field) ↔
        (Value.ofDateTime d t).timeField field.field ∈ ns := by
    intro ns
    refine (names_listedFrom (l := .clock field ns) _).trans ?_
    exact mem_ascendingInts
  generalize hg : timeGenerator r field start (r.listStart start) = g
  cases hg ▸ clockCourse r field start (r.listStart start) with
  | stepped own nil =>
    rw [hstep, ← phased_iff_clock own]
    simp [ClockAgrees, nil, own, Frequency.isFinerThan]
  | filtered own ne_nil =>
    rw [hstep, ← phased_iff_clock own]
    simp only [List.mem_singleton, forall_eq, Filter.passes_ofClock (hv.2 t rfl), ClockAgrees,
      ne_eq, ne_nil, not_false_eq_true, if_true, own, true_implies]
    exact and_comm
  | every coarser nil =>
    rw [hstep]
    simp [ClockAgrees, nil, ne_of_isFinerThan coarser, not_isFinerThan coarser]
  | listed ne_nil interval_one =>
    rw [hlist]
    simp only [ClockAgrees, ne_eq, ne_nil, not_false_eq_true, if_true, List.not_mem_nil,
      false_implies, implies_true, and_true]
    exact (and_iff_left fun own => phased_of_interval_one (interval_one own)).symm
  | fixed finer nil =>
    rw [hlist]
    simp [ClockAgrees, nil, finer, (ne_of_isFinerThan finer).symm]

/-- Listed values of a time field are children of the nodes of its level. -/
theorem listed_clock_within {field : ClockField} {ns : List Int}
    (hns : ∀ n ∈ ns, 0 ≤ n ∧ n < Filter.clockSize field) (p : List Int) (n : Int)
    (hp : p.length = field.field.level) (hn : n ∈ (Listing.clock field ns).values (.ofPath p)) :
    calendarTree p n := by
  have hbounds := hns n (mem_ascendingInts.mp hn)
  cases field with
  | hour =>
    obtain ⟨y, m, d, rfl⟩ := List.length_eq_three.mp hp
    exact hbounds
  | minute =>
    obtain ⟨y, m, d, a, rfl⟩ := List.length_eq_four.mp hp
    exact hbounds
  | second =>
    obtain ⟨y, m, d, a, b, rfl⟩ := exists_of_length_five hp
    exact hbounds

/-- The lists begin where the start does down to a unit that the rule steps through. -/
theorem take_path_listStart_clock (field : ClockField)
    (hf : r.freq = field.frequency ∨ r.freq.isFinerThan field.frequency = true) :
    (r.listStart start).path.take (field.field.level + 1) =
      start.path.take (field.field.level + 1) := by
  have hfiner : ∀ g, field.frequency.isFinerThan g = true → r.freq.isFinerThan g = true := by
    intro g hg
    rcases hf with hf | hf
    · rwa [hf]
    · simp only [Frequency.isFinerThan, decide_eq_true_eq] at hf hg ⊢
      omega
  apply take_path_listStart
  cases field with
  | hour => exact .inr (.inr (.inr (.inl ⟨le_rfl, hfiner .daily rfl⟩)))
  | minute => exact .inr (.inr (.inr (.inr (.inl ⟨le_rfl, hfiner .hourly rfl⟩))))
  | second => exact .inr (.inr (.inr (.inr (.inr ⟨le_rfl, hfiner .minutely rfl⟩))))

/-- The generator of a time field begins at the start of the lists, or at the start itself
if it steps. -/
theorem begins_clock (h : r.Admits start) (field : ClockField) {path : List Int}
    (hpath : path.take (field.field.level + 1) =
      (r.listStart start).path.take (field.field.level + 1)) :
    (timeGenerator r field start (r.listStart start)).1.Begins path ∧
      (timeGenerator r field start (r.listStart start)).1.source.field = field.field ∧
      ∀ p ∈ (timeGenerator r field start (r.listStart start)).2, p.Decides := by
  have hi := h.interval_pos
  have hlist : ∀ ns : List Int, (∀ n ∈ ns, n ∈ r.clockValues field ∨
      n = start.timeField field.field) →
      (listedFrom (.clock field ns) (r.listStart start)).Begins path := by
    intro ns hns
    exact begins_listedFrom hpath fun p n hp _ hn =>
      listed_clock_within (fun n hn => clockValues_within h field (hns n hn)) p n hp hn
  have hstep : ∀ interval, 1 ≤ interval →
      r.freq = field.frequency ∨ r.freq.isFinerThan field.frequency = true →
      (steppedFrom field.unit interval start).Begins path := by
    intro interval hi hf
    refine begins_steppedFrom hi ?_
    rw [field_unit, hpath]
    exact take_path_listStart_clock field hf
  generalize hg : timeGenerator r field start (r.listStart start) = g
  cases hg ▸ clockCourse r field start (r.listStart start) with
  | stepped own nil => exact ⟨hstep _ hi (.inl own), field_unit field, by simp⟩
  | filtered own ne_nil =>
    refine ⟨hstep _ hi (.inl own), field_unit field, fun p hp => ?_⟩
    obtain rfl := List.mem_singleton.mp hp
    exact Filter.decides_ofClock
  | every coarser nil => exact ⟨hstep _ le_rfl (.inr coarser), field_unit field, by simp⟩
  | listed ne_nil interval_one => exact ⟨hlist _ fun n hn => .inl hn, rfl, by simp⟩
  | fixed finer nil =>
    exact ⟨hlist _ fun n hn => .inr (List.mem_singleton.mp hn), rfl, by simp⟩

/-- A generator with a single value is a list of that value and leaves no filter. -/
theorem clock_single (h : r.Admits start) {field : ClockField} {n : Int}
    (hn : (timeGenerator r field start (r.listStart start)).1.singleValue? = some n) :
    (timeGenerator r field start (r.listStart start)).2 = [] ∧
      (0 ≤ n ∧ n < Filter.clockSize field) ∧
      ∀ d t, (timeGenerator r field start (r.listStart start)).1.Names
        ((Value.ofDateTime d t).path.take field.field.level)
        ((Value.ofDateTime d t).timeField field.field) ↔
          (Value.ofDateTime d t).timeField field.field = n := by
  have hlist : ∀ ns : List Int, (∀ m ∈ ns, m ∈ r.clockValues field ∨
      m = start.timeField field.field) →
      (listedFrom (.clock field ns) (r.listStart start)).singleValue? = some n →
      (0 ≤ n ∧ n < Filter.clockSize field) ∧
        ∀ d t, (listedFrom (.clock field ns) (r.listStart start)).Names
          ((Value.ofDateTime d t).path.take field.field.level)
          ((Value.ofDateTime d t).timeField field.field) ↔
            (Value.ofDateTime d t).timeField field.field = n := by
    intro ns hns hsingle
    have hsingle : ascendingInts ns = [n] := by
      simp only [listedFrom, Generator.singleValue?, Lister.start, Listing.singleValue?] at hsingle
      split at hsingle
      · rename_i m hm
        rw [hm, Option.some.inj hsingle]
      · exact absurd hsingle (by simp)
    refine ⟨clockValues_within h field (hns n ?_), fun d t => ?_⟩
    · rw [← mem_ascendingInts, hsingle]
      exact List.mem_singleton_self n
    · refine (names_listedFrom (l := .clock field ns) _).trans ?_
      show _ ∈ ascendingInts ns ↔ _
      rw [hsingle, List.mem_singleton]
  -- a stepper has no single value, so only the lists are left
  generalize hg : timeGenerator r field start (r.listStart start) = g at hn
  cases hg ▸ clockCourse r field start (r.listStart start) with
  | stepped own nil => exact absurd hn (by simp [steppedFrom, Generator.singleValue?])
  | filtered own ne_nil => exact absurd hn (by simp [steppedFrom, Generator.singleValue?])
  | every coarser nil => exact absurd hn (by simp [steppedFrom, Generator.singleValue?])
  | listed ne_nil interval_one => exact ⟨rfl, hlist _ (fun m hm => .inl hm) hn⟩
  | fixed finer nil => exact ⟨rfl, hlist _ (fun m hm => .inr (List.mem_singleton.mp hm)) hn⟩

/-- A frequency of whole days leaves no filter on the time of day. -/
theorem clock_filters_eq_nil (h : r.freq.isSubDaily = false) (field : ClockField) :
    (timeGenerator r field start (r.listStart start)).2 = [] := by
  have hown : r.freq ≠ field.frequency := by
    rintro hf
    rw [hf] at h
    cases field <;> exact absurd h (by decide)
  simp only [timeGenerator, if_neg hown]
  split_ifs <;> rfl

end Recurrence
