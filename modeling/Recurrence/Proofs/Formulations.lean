/-
Recurrence/Proofs/Formulations.lean

Rules that say the same in different words.

Every other week is every fourteenth day, every day is every twenty-fourth hour, every second year
is every twenty-fourth month.  Each of these rules is run by other generators, with steppers of
other units, filters and pacers.  What they have in common is a stride: the values at the start's
time of day, so many days or years apart (`Stride.Meets`).  A rule that formulates a stride matches
these values and no others (`Rule.Formulates.matches_iff`).

That is not all that counts, since the budget is spent on years and the rules need not visit the
same ones.  Two formulations in years do (`Rule.Formulates.visits_iff`).  One in days visits,
between two values that follow one another, at most the year after the first, the year of the
second and the one before that (`Rule.Formulates.lasts_days`), so three idle years are enough for
all of them.
-/
import Mathlib.Tactic.Ring
import Recurrence.Proofs.CursorSemantics
import Recurrence.Proofs.Reachability
import Recurrence.Proofs.Resuming

namespace Recurrence

variable {r r' : Rule} {start v w x z : Value} {n budget : Int} {count : Option Int}
  {last : Option Value}

/-! ### Strides -/

/-- How far apart values are, in days or in years. -/
inductive Stride where
  | days (n : Int)
  | years (n : Int)
deriving DecidableEq

namespace Stride

/-- The number of days or years. -/
def size : Stride → Int
  | days n => n
  | years n => n

/-- A value lies a whole number of strides after a start, at the same time of day. -/
def Meets (start v : Value) : Stride → Prop
  | days n => v.IsReal ∧ v.time = start.time ∧ start.date.dayNumber ≤ v.date.dayNumber ∧
      n ∣ v.date.dayNumber - start.date.dayNumber
  | years n => v.IsReal ∧ v.time = start.time ∧ v.date.month = start.date.month ∧
      v.date.day = start.date.day ∧ start.date.year ≤ v.date.year ∧
      n ∣ v.date.year - start.date.year

theorem meets_start (hreal : start.IsReal) (stride : Stride) : stride.Meets start start := by
  cases stride <;> simp [Meets, hreal]

end Stride

/-- The rules that put values a stride apart, with a count or a bound or without an end.  The day on
which weeks start makes no difference to them. -/
inductive Rule.Formulates (start : Value) (count : Option Int) (last : Option Value) :
    Stride → Rule → Prop where
  | daily (n : Int) (weekStart : Weekday) : Formulates start count last (.days n)
      { count, untilBound := last, freq := .daily, interval := n, weekStart }
  | hourly (n : Int) (weekStart : Weekday) (htime : start.hasTime = true) :
      Formulates start count last (.days n)
        { count, untilBound := last, freq := .hourly, interval := 24 * n, weekStart }
  | minutely (n : Int) (weekStart : Weekday) (htime : start.hasTime = true) :
      Formulates start count last (.days n)
        { count, untilBound := last, freq := .minutely, interval := 1440 * n, weekStart }
  | secondly (n : Int) (weekStart : Weekday) (htime : start.hasTime = true) :
      Formulates start count last (.days n)
        { count, untilBound := last, freq := .secondly, interval := 86400 * n, weekStart }
  | weekly (k : Int) (weekStart : Weekday) : Formulates start count last (.days (7 * k))
      { count, untilBound := last, freq := .weekly, interval := k, weekStart }
  | weeklyOn (k : Int) (weekStart : Weekday) : Formulates start count last (.days (7 * k))
      { count, untilBound := last, freq := .weekly, interval := k,
        byDay := [.every start.date.weekday], weekStart }
  | yearly (n : Int) (weekStart : Weekday) : Formulates start count last (.years n)
      { count, untilBound := last, freq := .yearly, interval := n, weekStart }
  | monthly (n : Int) (weekStart : Weekday) : Formulates start count last (.years n)
      { count, untilBound := last, freq := .monthly, interval := 12 * n, weekStart }

/-! ### Numbers of periods -/

/-- Where numbers are made up of large units and what is left of one, a whole number of large units
apart means that what is left is the same. -/
theorem dvd_units_iff {unit a b d e : Int} (ha : 0 ≤ a ∧ a < unit) (hb : 0 ≤ b ∧ b < unit) :
    (e * unit + b ≤ d * unit + a ∧ unit * n ∣ d * unit + a - (e * unit + b)) ↔
      (e ≤ d ∧ n ∣ d - e) ∧ a = b := by
  have hpos : 0 < unit := ha.1.trans_lt ha.2
  constructor
  · rintro ⟨hle, hdvd⟩
    have hsplit : d * unit + a - (e * unit + b) = unit * (d - e) + (a - b) := by ring
    rw [hsplit] at hdvd
    have hleft : unit ∣ a - b :=
      (Int.dvd_add_right (Int.dvd_mul_right _ _)).mp ((Int.dvd_mul_right _ _).trans hdvd)
    obtain rfl : a = b := by
      have := Int.eq_zero_of_abs_lt_dvd hleft (abs_lt.mpr ⟨by omega, by omega⟩)
      omega
    rw [sub_self, add_zero] at hdvd
    have hle : e * unit ≤ d * unit := by omega
    exact ⟨⟨le_of_mul_le_mul_right hle hpos, Int.dvd_of_mul_dvd_mul_left hpos.ne' hdvd⟩, rfl⟩
  · rintro ⟨⟨hle, hdvd⟩, rfl⟩
    have hsplit : d * unit + a - (e * unit + a) = unit * (d - e) := by ring
    have := Int.mul_le_mul_of_nonneg_right hle hpos.le
    exact ⟨by omega, hsplit ▸ Int.mul_dvd_mul_left _ hdvd⟩

/-- Months in phase, whole years apart, have the same name. -/
theorem monthly_phase_iff {y m y' m' : Int} (hm : 1 ≤ m ∧ m ≤ 12) (hm' : 1 ≤ m' ∧ m' ≤ 12) :
    (y * 12 + m ≤ y' * 12 + m' ∧ 12 * n ∣ y' * 12 + m' - (y * 12 + m)) ↔
      (y ≤ y' ∧ n ∣ y' - y) ∧ m' = m := by
  have h : (y * 12 + (m - 1) ≤ y' * 12 + (m' - 1) ∧
      12 * n ∣ y' * 12 + (m' - 1) - (y * 12 + (m - 1))) ↔ (y ≤ y' ∧ n ∣ y' - y) ∧ m' - 1 = m - 1 :=
    dvd_units_iff (by omega) (by omega)
  have hdiff : y' * 12 + (m' - 1) - (y * 12 + (m - 1)) = y' * 12 + m' - (y * 12 + m) := by omega
  rw [hdiff, sub_left_inj] at h
  rw [← h]
  exact and_congr_left fun _ => by omega

/-- Weeks in phase hold days in phase, which are the days of the same weekday. -/
theorem weeks_phase_iff {a b : Int} (weekStart : Int) (n : Int) :
    (b ≤ a ∧ 7 * n ∣ a - b) ↔ ((b - weekStart) / 7 ≤ (a - weekStart) / 7 ∧
      n ∣ (a - weekStart) / 7 - (b - weekStart) / 7) ∧ a % 7 = b % 7 := by
  rw [weekly_phase_iff weekStart]
  constructor
  · rintro ⟨hle, hdvd, hmod⟩
    exact ⟨⟨by omega, hdvd⟩, hmod⟩
  · rintro ⟨⟨hle, hdvd⟩, hmod⟩
    exact ⟨by omega, hdvd, hmod⟩

/-! ### What the rules match -/

namespace Stride

/-- What a stride in days meets, with the time of day apart. -/
theorem meets_days_iff : (days n).Meets start v ↔ v.IsReal ∧ v.hasTime = start.hasTime ∧
    (start.date.dayNumber ≤ v.date.dayNumber ∧ n ∣ v.date.dayNumber - start.date.dayNumber) ∧
      ∀ t ∈ v.time, t = start.timeOrMidnight := by
  obtain ⟨d, t⟩ := v
  obtain ⟨e, u⟩ := start
  cases t <;> cases u <;> simp [Meets, Value.hasTime, Value.timeOrMidnight, and_comm]

/-- What a stride in years meets, with the time of day apart. -/
theorem meets_years_iff : (years n).Meets start v ↔ v.IsReal ∧ v.hasTime = start.hasTime ∧
    (start.date.year ≤ v.date.year ∧ n ∣ v.date.year - start.date.year) ∧
      (v.date.month = start.date.month ∧ v.date.day = start.date.day) ∧
        ∀ t ∈ v.time, t = start.timeOrMidnight := by
  obtain ⟨d, t⟩ := v
  obtain ⟨e, u⟩ := start
  cases t <;> cases u <;> simp [Meets, Value.hasTime, Value.timeOrMidnight] <;> tauto

end Stride

namespace Rule

/-- Without lists of times, a rule of whole days keeps the time of day. -/
theorem matches_iff_of_days (hsub : r.freq.isSubDaily = false) (hhour : r.byHour = [])
    (hminute : r.byMinute = []) (hsecond : r.bySecond = []) : r.Matches start v ↔
      v.IsReal ∧ v.hasTime = start.hasTime ∧ r.InPhase start v ∧ r.AcceptsDate v.date ∧
        r.KeepsDate start.date v.date ∧ ∀ t ∈ v.time, t = start.timeOrMidnight := by
  have htimes : ∀ s t, r.AcceptsTime s t ↔ t = s := by
    rintro ⟨h, m, k⟩ ⟨h', m', k'⟩
    cases hf : r.freq <;>
      simp_all [AcceptsTime, ClockAgrees, Frequency.isSubDaily, Frequency.isFinerThan,
        Frequency.rank]
  simp only [Matches, htimes]

/-- A rule of whole days steps over the hours of the day. -/
theorem inPhase_iff_of_units {perDay : Int} {fields : List (ClockField × Int)}
    (hunits : dayUnits r.freq = some (perDay, fields)) (hinterval : r.interval = perDay * n)
    (hreal : start.IsReal) (htime : start.hasTime = true) (hv : v.IsReal)
    (hkind : v.hasTime = start.hasTime) : r.InPhase start v ↔
      (start.date.dayNumber ≤ v.date.dayNumber ∧ n ∣ v.date.dayNumber - start.date.dayNumber) ∧
        v.timeIn fields = start.timeIn fields := by
  have hbounds : ∀ {w : Value}, w.IsReal → w.hasTime = true →
      0 ≤ w.timeIn fields ∧ w.timeIn fields < perDay := by
    rintro ⟨d, _ | t⟩ hw ht
    · exact absurd ht (by simp [Value.hasTime])
    · exact timeIn_bounds hunits (hw.2 t rfl)
  rw [InPhase, hinterval, periodNumber_eq_timeIn hunits, periodNumber_eq_timeIn hunits]
  exact dvd_units_iff (hbounds hv (hkind.trans htime)) (hbounds hreal htime)

/-- Without lists, a rule below the day keeps the fields that are finer than its frequency. -/
theorem acceptsTime_iff_of_units {perDay : Int} {fields : List (ClockField × Int)} {s t : TimeOfDay}
    {d e : Date} (hunits : dayUnits r.freq = some (perDay, fields)) (hs : s.IsReal) (ht : t.IsReal)
    (hhour : r.byHour = []) (hminute : r.byMinute = []) (hsecond : r.bySecond = []) :
    (Value.ofDateTime d t).timeIn fields = (Value.ofDateTime e s).timeIn fields ∧
      r.AcceptsTime s t ↔ t = s := by
  obtain ⟨h1, h2, h3, h4, h5, h6⟩ := hs
  obtain ⟨k1, k2, k3, k4, k5, k6⟩ := ht
  obtain ⟨h, m, k⟩ := s
  obtain ⟨h', m', k'⟩ := t
  simp only [AcceptsTime, ClockAgrees, hhour, hminute, hsecond, ne_eq, not_true_eq_false, if_false,
    TimeOfDay.mk.injEq] at *
  obtain ⟨hf, rfl, rfl⟩ | ⟨hf, rfl, rfl⟩ | ⟨hf, rfl, rfl⟩ := units_cases hunits
  all_goals
    simp only [Value.timeIn, Value.timeField, Fields.get, ClockField.field, Fields.ofValue,
      Value.ofDateTime, Value.timeOrMidnight, Option.getD_some, hf, Frequency.isFinerThan,
      Frequency.rank, Nat.reduceLT, decide_true, decide_false, forall_const, Bool.false_eq_true,
      false_implies, true_and, and_true]
    omega

/-- A rule below the day without lists, whose interval is made up of whole days, keeps the time of
day and steps over the days. -/
theorem matches_iff_of_units {perDay : Int} {fields : List (ClockField × Int)}
    (hunits : dayUnits r.freq = some (perDay, fields)) (hinterval : r.interval = perDay * n)
    (hmonth : r.byMonth = []) (hopen : r.LeavesDayOpen) (hhour : r.byHour = [])
    (hminute : r.byMinute = []) (hsecond : r.bySecond = []) (hreal : start.IsReal)
    (htime : start.hasTime = true) : r.Matches start v ↔ (Stride.days n).Meets start v := by
  obtain ⟨hdays, hmonthDays, hyearDays, hweeks⟩ := hopen
  have haccepts : r.AcceptsDate v.date := by
    simp [AcceptsDate, hmonth, hdays, hmonthDays, hyearDays, hweeks]
  have hkeeps : r.KeepsDate start.date v.date := by
    cases hf : r.freq <;> simp_all [KeepsDate, dayUnits]
  rw [Stride.meets_days_iff]
  refine and_congr_right fun hv => and_congr_right fun hkind => ?_
  rw [inPhase_iff_of_units hunits hinterval hreal htime hv hkind, and_assoc, and_iff_right haccepts,
    and_iff_right hkeeps]
  refine and_congr_right fun _ => ?_
  obtain ⟨d, _ | t⟩ := v
  · exact absurd (hkind.trans htime) (by simp [Value.hasTime])
  obtain ⟨e, _ | u⟩ := start
  · exact absurd htime (by simp [Value.hasTime])
  have hclock := acceptsTime_iff_of_units (d := d) (e := e) hunits (hreal.2 u rfl) (hv.2 t rfl)
    hhour hminute hsecond
  simpa [Value.ofDateTime, Value.timeOrMidnight] using hclock

namespace Formulates

variable {stride : Stride}

/-- **A rule that formulates a stride** matches the values that the stride meets. -/
theorem matches_iff (h : Formulates start count last stride r) (hreal : start.IsReal) :
    r.Matches start v ↔ stride.Meets start v := by
  cases h with
  | daily n weekStart =>
    rw [Stride.meets_days_iff, matches_iff_of_days rfl rfl rfl rfl]
    simp [InPhase, periodNumber, Recurrence.periodNumber, AcceptsDate, KeepsDate]
  | hourly n weekStart htime =>
    exact matches_iff_of_units rfl rfl rfl ⟨rfl, rfl, rfl, rfl⟩ rfl rfl rfl hreal htime
  | minutely n weekStart htime =>
    exact matches_iff_of_units rfl rfl rfl ⟨rfl, rfl, rfl, rfl⟩ rfl rfl rfl hreal htime
  | secondly n weekStart htime =>
    exact matches_iff_of_units rfl rfl rfl ⟨rfl, rfl, rfl, rfl⟩ rfl rfl rfl hreal htime
  | weekly k weekStart =>
    rw [Stride.meets_days_iff, weeks_phase_iff weekStart.number, ← weekday_eq_weekday_iff,
      matches_iff_of_days rfl rfl rfl rfl]
    simp [InPhase, periodNumber, Recurrence.periodNumber, AcceptsDate, KeepsDate, and_assoc]
  | weeklyOn k weekStart =>
    rw [Stride.meets_days_iff, weeks_phase_iff weekStart.number, ← weekday_eq_weekday_iff,
      matches_iff_of_days rfl rfl rfl rfl]
    simp [InPhase, periodNumber, Recurrence.periodNumber, AcceptsDate, KeepsDate, EntryNames,
      WeekdayNum.every, and_assoc, eq_comm]
  | yearly n weekStart =>
    rw [Stride.meets_years_iff, matches_iff_of_days rfl rfl rfl rfl]
    simp [InPhase, periodNumber, Recurrence.periodNumber, AcceptsDate, KeepsDate, LeavesDayOpen,
      and_assoc, and_left_comm]
  | monthly n weekStart =>
    rw [Stride.meets_years_iff, matches_iff_of_days rfl rfl rfl rfl]
    refine and_congr_right fun hv => ?_
    have hphase := @monthly_phase_iff n start.date.year start.date.month v.date.year v.date.month
      ⟨hreal.1.1, hreal.1.2.1⟩ ⟨hv.1.1, hv.1.2.1⟩
    simp [InPhase, periodNumber, Recurrence.periodNumber, AcceptsDate, KeepsDate, LeavesDayOpen,
      hphase, and_assoc]

theorem ends (h : Formulates start count last stride r) :
    r.count = count ∧ r.untilBound = last := by
  cases h <;> exact ⟨rfl, rfl⟩

theorem bySetPos_eq (h : Formulates start count last stride r) : r.bySetPos = [] := by
  cases h <;> rfl

theorem ofRule_eq (h : Formulates start count last stride r)
    (h' : Formulates start count last stride r') : Ending.ofRule r = Ending.ofRule r' := by
  simp only [Ending.ofRule, h.ends.1, h.ends.2, h'.ends.1, h'.ends.2]

theorem uncounted (h : Formulates start count last stride r) :
    Formulates start none last stride r.uncounted := by
  cases h <;> constructor <;> assumption

theorem admits (h : Formulates start count last stride r) (hsize : 1 ≤ stride.size)
    (hcount : ∀ n ∈ count, 1 ≤ n) (hend : count = none ∨ last = none) (hreal : start.IsReal) :
    r.Admits start := by
  have hinterval : 1 ≤ r.interval := by
    cases h <;> dsimp only [Stride.size] at hsize ⊢ <;> omega
  have hvalues : ∀ p, r.values p = [] := by
    cases h <;> (intro p; cases p <;> rfl)
  have hdays : ∀ e ∈ r.byDay, e.Valid := by
    cases h <;> simp [WeekdayNum.every, WeekdayNum.Valid]
  refine ⟨⟨hinterval, ?_, ?_, fun p _ n hn => ?_, hdays⟩, hreal, ?_⟩
  · rw [h.ends.1]
    exact hcount
  · rw [h.ends.1, h.ends.2]
    exact hend
  · rw [hvalues p] at hn
    exact absurd hn List.not_mem_nil
  · intro hsub
    cases h <;> first | assumption | (dsimp only at hsub; exact absurd hsub (by decide))

/-! ### Years -/

/-- Near every value in phase, less than a week away, is one that the stride meets. -/
theorem exists_near (h : Formulates start count last (.days n) r) (hreal : start.IsReal)
    (hz : z.IsReal) (hkind : z.hasTime = start.hasTime) (hphase : r.InPhase start z) :
    ∃ v, (Stride.days n).Meets start v ∧ v.date.dayNumber ≤ z.date.dayNumber + 6 ∧
      z.date.dayNumber ≤ v.date.dayNumber + 6 := by
  suffices hday : ∃ d, (start.date.dayNumber ≤ d ∧ n ∣ d - start.date.dayNumber) ∧
      d ≤ z.date.dayNumber + 6 ∧ z.date.dayNumber ≤ d + 6 by
    obtain ⟨d, hmet, hnear⟩ := hday
    refine ⟨⟨.ofDayNumber d, start.time⟩, ⟨⟨Date.isReal_ofDayNumber d, hreal.2⟩, rfl, ?_⟩, ?_⟩
    · simpa using hmet
    · simpa using hnear
  have hsame : ∀ {n : Int}, start.date.dayNumber ≤ z.date.dayNumber ∧
      n ∣ z.date.dayNumber - start.date.dayNumber →
      ∃ d, (start.date.dayNumber ≤ d ∧ n ∣ d - start.date.dayNumber) ∧
        d ≤ z.date.dayNumber + 6 ∧ z.date.dayNumber ≤ d + 6 :=
    fun h => ⟨z.date.dayNumber, h, by omega, by omega⟩
  -- a week in phase holds the weekday of the start
  have hweekly : ∀ {k : Int} {weekStart : Weekday},
      InPhase { freq := .weekly, interval := k, weekStart } start z →
      ∃ d, (start.date.dayNumber ≤ d ∧ 7 * k ∣ d - start.date.dayNumber) ∧
        d ≤ z.date.dayNumber + 6 ∧ z.date.dayNumber ≤ d + 6 := by
    rintro k weekStart ⟨hle, i, hi⟩
    dsimp only [periodNumber, Recurrence.periodNumber] at hle hi
    refine ⟨start.date.dayNumber + 7 * (k * i), ⟨by omega, i, ?_⟩, by omega, by omega⟩
    rw [Int.mul_assoc]
    omega
  cases h with
  | daily n weekStart => exact hsame hphase
  | hourly n weekStart htime =>
    exact hsame ((inPhase_iff_of_units (by rfl) rfl hreal htime hz hkind).mp hphase).1
  | minutely n weekStart htime =>
    exact hsame ((inPhase_iff_of_units (by rfl) rfl hreal htime hz hkind).mp hphase).1
  | secondly n weekStart htime =>
    exact hsame ((inPhase_iff_of_units (by rfl) rfl hreal htime hz hkind).mp hphase).1
  | weekly k weekStart => exact hweekly hphase
  | weeklyOn k weekStart => exact hweekly hphase

/-- **A formulation in years visits** the years that are whole strides behind the start's. -/
theorem visits_iff (h : Formulates start count last (.years n) r) (hadmits : r.Admits start)
    {y : Int} : r.Visits start budget y ↔ start.date.year ≤ y ∧ n ∣ y - start.date.year := by
  have hmonth : ∀ {v : Value}, v.IsReal → 1 ≤ v.date.month ∧ v.date.month ≤ 12 :=
    fun hv => ⟨hv.1.1, hv.1.2.1⟩
  refine and_congr_right fun hle => ?_
  constructor
  · intro hnames
    obtain ⟨z, hz, -, rfl, hphase⟩ := exists_inPhase_of_names hadmits hnames hle
    cases h with
    | yearly n weekStart => exact hphase.2
    | monthly n weekStart =>
      exact ((monthly_phase_iff (hmonth hadmits.real) (hmonth hz)).mp hphase).1.2
  · intro hdvd
    -- the first day of the start's month is in phase
    have hfirst : (⟨⟨y, start.date.month, 1⟩, start.time⟩ : Value).IsReal :=
      ⟨Date.isReal_first hadmits.real.1.1 hadmits.real.1.2.1, hadmits.real.2⟩
    refine names_years (v := ⟨⟨y, start.date.month, 1⟩, start.time⟩) hadmits hfirst ?_ ?_
    · cases h with
      | yearly n weekStart => exact hdvd
      | monthly n weekStart =>
        exact ((monthly_phase_iff (hmonth hadmits.real) (hmonth hfirst)).mpr ⟨⟨hle, hdvd⟩, rfl⟩).2
    · cases h <;> exact fun hweekly => nomatch hweekly

/-! ### What follows on a value -/

/-- The members from the start on are the values that the stride meets. -/
theorem member_iff (h : Formulates start count last stride r) (hadmits : r.Admits start)
    (hbudget : 0 ≤ budget) (hle : start ≤ v) :
    (r.course start budget).Member v ↔ stride.Meets start v := by
  rw [Rule.member_iff hadmits hbudget ((listStart_spec hadmits.real).2.2.1.trans hle),
    h.matches_iff hadmits.real]

/-- **A budget of three years lasts** from any value to the next one that a stride in days meets. -/
theorem lasts_days (h : Formulates start count last (.days n) r) (hadmits : r.Admits start)
    (hbudget : 3 ≤ budget) (hx : start ≤ x)
    (hleast : IsLeast {w | (r.course start budget).Member w ∧ x < w} w) :
    (r.course start budget).Lasts x.date.year w := by
  have hyears : (r.course start budget).passedYears x.date.year w.date.year ⊆
      {x.date.year + 1, w.date.year - 1, w.date.year} := by
    intro y hy
    obtain ⟨⟨hlt, hle⟩, hwants⟩ := Course.mem_passedYears.mp hy
    have hfrom := Value.year_le_of_le hx
    obtain ⟨hstart, hnames⟩ := wants_iff_visits.mp hwants
    obtain ⟨z, hz, hkind, rfl, hphase⟩ := exists_inPhase_of_names hadmits hnames hstart
    obtain ⟨v, hmeets, hnear, hnear'⟩ := h.exists_near hadmits.real hz hkind hphase
    have hahead := Date.IsReal.year_le_succ hz.1 hmeets.1.1 (by omega)
    have hbehind := Date.IsReal.year_le_succ hmeets.1.1 hz.1 (by omega)
    simp only [Finset.mem_insert, Finset.mem_singleton]
    rcases lt_or_ge x v with hxv | hvx
    · -- what is met behind `x` is not before the next value
      have hwv := hleast.2 ⟨(h.member_iff hadmits (by omega) (hx.trans hxv.le)).mpr hmeets, hxv⟩
      have := Value.year_le_of_le hwv
      omega
    · have := Value.year_le_of_le hvx
      omega
  have hcard := (Finset.card_le_card hyears).trans Finset.card_le_three
  show ((Finset.card _ : Nat) : Int) ≤ budget
  omega

/-- **What follows on a value** is the same for two formulations. -/
theorem leadsTo_iff {e : Ending} (h : Formulates start count last stride r)
    (h' : Formulates start count last stride r') (hadmits : r.Admits start)
    (hadmits' : r'.Admits start) (hbudget : 3 ≤ budget) (hx : start ≤ x) :
    (r.course start budget).LeadsTo e x w ↔ (r'.course start budget).LeadsTo e x w := by
  have hset : {w | (r.course start budget).Member w ∧ x < w} =
      {w | (r'.course start budget).Member w ∧ x < w} := by
    ext w
    refine and_congr_left fun hxw => ?_
    rw [h.member_iff hadmits (by omega) (hx.trans hxw.le),
      h'.member_iff hadmits' (by omega) (hx.trans hxw.le)]
  unfold Course.LeadsTo Course.Due
  rw [hset]
  refine and_congr_right fun hleast => and_congr_left fun _ => ?_
  cases stride with
  | days n =>
    exact iff_of_true (h.lasts_days hadmits hbudget hx (hset ▸ hleast))
      (h'.lasts_days hadmits' hbudget hx hleast)
  | years n =>
    have hpassed : (r.course start budget).passedYears x.date.year w.date.year =
        (r'.course start budget).passedYears x.date.year w.date.year := by
      ext y
      rw [Course.mem_passedYears, Course.mem_passedYears, wants_iff_visits, wants_iff_visits,
        h.visits_iff hadmits, h'.visits_iff hadmits']
    unfold Course.Lasts
    rw [hpassed]
    rfl

end Formulates

/-! ### Series -/

/-- What an ending without a count lets pass, it lets what comes before pass. -/
theorem passes_of_le (hcount : r.count = none) (hkind : v.hasTime = w.hasTime) (hle : v ≤ w)
    (hpass : (Ending.ofRule r).passes (w, w) = true) : (Ending.ofRule r).passes (v, v) = true := by
  cases hlast : r.untilBound with
  | none => simp [Ending.ofRule, hcount, hlast, Ending.passes, Ending.check]
  | some last =>
    have hending : Ending.ofRule r = .untilBound last := by simp [Ending.ofRule, hcount, hlast]
    rw [hending] at hpass ⊢
    have hadmits : (Ending.untilBound last).Admits w w := by
      rintro _ ⟨⟩
      exact hpass
    exact hadmits.anti (Value.date_key_le hkind hle) hkind hle last rfl

/-- A series whose start does not pass returns nothing. -/
theorem exists_plays_nil (h : r.Admits start) (hpos : r.bySetPos = []) (hcount : r.count = none)
    (hbudget : 1 ≤ budget) (hpass : (Ending.ofRule r).passes (start, start) = false) :
    ∃ s, Settles (fun n => Series.create n r start .utc budget) (.ok s) ∧ s.Plays .nil := by
  obtain ⟨S, s, hcreate, -, hlive, -⟩ := exists_live h .utc budget
  obtain ⟨vs, hplays⟩ := hlive.exists_plays
  cases vs using Stream'.Seq.recOn with
  | nil => exact ⟨s, hcreate, hplays⟩
  | cons v vs =>
    obtain ⟨m, hm⟩ := hcreate.exists_bound
    obtain ⟨base, R, hfrom, hiff⟩ := canReturn_create h hpos hcount hbudget hm
    obtain ⟨⟨hleast, -, hpasses⟩, -⟩ := (hiff v []).mp (hplays.canReturn_iff.mpr ⟨1, rfl⟩)
    have hkind : start.hasTime = v.hasTime :=
      (hleast.1.1.1.hasTime.trans (course_hasTime r start budget)).symm
    exact absurd (passes_of_le hcount hkind (hfrom v hleast) hpasses) (by simp [hpass])

/-- **Series of rules without positions** play the same if the start matches both rules, they end
alike, and the same follows on every value from the start on. -/
theorem exists_plays_of_leadsTo (h : r.Admits start) (h' : r'.Admits start) (hpos : r.bySetPos = [])
    (hpos' : r'.bySetPos = []) (hcount : r.count = none) (hcount' : r'.count = none)
    (hending : Ending.ofRule r = Ending.ofRule r') (hbudget : 1 ≤ budget)
    (hstart : r.Matches start start) (hstart' : r'.Matches start start)
    (hleads : ∀ x w, start ≤ x → ((r.course start budget).LeadsTo (.ofRule r) x w ↔
      (r'.course start budget).LeadsTo (.ofRule r) x w)) :
    ∃ s s' vs, Settles (fun n => Series.create n r start .utc budget) (.ok s) ∧
      Settles (fun n => Series.create n r' start .utc budget) (.ok s') ∧
        s.Plays vs ∧ s'.Plays vs := by
  cases hpass : (Ending.ofRule r).passes (start, start) with
  | false =>
    obtain ⟨s, hcreate, hplays⟩ := exists_plays_nil h hpos hcount hbudget hpass
    obtain ⟨s', hcreate', hplays'⟩ := exists_plays_nil h' hpos' hcount' hbudget (hending ▸ hpass)
    exact ⟨s, s', .nil, hcreate, hcreate', hplays, hplays'⟩
  | true =>
    have hlive : ∀ {r : Rule} {s t : Series}, r.Admits start →
        Settles (fun n => Series.create n r start .utc budget) (.ok s) →
        Settles (fun n => s.next n) (.ok start, t) → ∃ vs, t.Plays vs := by
      intro r s t h hcreate hnext
      obtain ⟨k, hk⟩ := hcreate.exists_bound
      obtain ⟨j, hj⟩ := hnext.exists_bound
      obtain ⟨S, -, hlive, -⟩ := ((Series.Reachable.create hk).next hj).live h.valid h.real
      exact hlive.exists_plays
    obtain ⟨s, t, hcreate, hnext, hreturns⟩ := exists_resumed h hpos hcount hbudget hstart hpass
    obtain ⟨s', t', hcreate', hnext', hreturns'⟩ :=
      exists_resumed h' hpos' hcount' hbudget hstart' (hending ▸ hpass)
    obtain ⟨vs, hplays⟩ := hlive h hcreate hnext
    obtain ⟨vs', hplays'⟩ := hlive h' hcreate' hnext'
    -- behind the start, both series return what follows on it
    obtain rfl : vs = vs' := hplays.eq_of_canReturn hplays' fun ws => by
      rw [hreturns, hreturns', ← hending]
      exact Course.isChain_congr le_rfl hleads
    exact ⟨s, s', .cons start vs, hcreate, hcreate', Series.plays_cons_iff.mpr ⟨t, hnext, hplays⟩,
      Series.plays_cons_iff.mpr ⟨t', hnext', hplays'⟩⟩

end Rule

/-- **Equivalent formulations give equal series.**  Take any stride of at least one day or year, two
rules that formulate it, with the same count or bound or without either, and a real start.  In UTC
and with a budget of at least three years, the series of both rules can be created and return the
same sequence of values, and one ends where the other does. -/
theorem equivalent_formulations_agree {stride : Stride}
    (h : Rule.Formulates start count last stride r)
    (h' : Rule.Formulates start count last stride r')
    (hsize : 1 ≤ stride.size) (hcount : ∀ n ∈ count, 1 ≤ n) (hend : count = none ∨ last = none)
    (hreal : start.IsReal) (hbudget : 3 ≤ budget) :
    ∃ s s' vs, Settles (fun n => Series.create n r start .utc budget) (.ok s) ∧
      Settles (fun n => Series.create n r' start .utc budget) (.ok s') ∧
        s.Plays vs ∧ s'.Plays vs := by
  have hadmits := h.admits hsize hcount hend hreal
  have hadmits' := h'.admits hsize hcount hend hreal
  have hbudget' : 0 ≤ budget := by omega
  -- without the count, both series play the same
  have huncounted := h.uncounted.admits hsize (by simp) (.inl rfl) hreal
  have huncounted' := h'.uncounted.admits hsize (by simp) (.inl rfl) hreal
  obtain ⟨t, t', vs, ht, ht', hplays, hplays'⟩ := Rule.exists_plays_of_leadsTo huncounted
    huncounted' h.uncounted.bySetPos_eq h'.uncounted.bySetPos_eq h.uncounted.ends.1
    h'.uncounted.ends.1 (h.uncounted.ofRule_eq h'.uncounted) (by omega)
    ((h.uncounted.matches_iff hreal).mpr (stride.meets_start hreal))
    ((h'.uncounted.matches_iff hreal).mpr (stride.meets_start hreal))
    fun x w hx => h.uncounted.leadsTo_iff h'.uncounted huncounted huncounted' hbudget hx
  -- and the count leaves the same of it
  obtain ⟨s, hs⟩ := Rule.exists_create hadmits hbudget' .utc
  obtain ⟨s', hs'⟩ := Rule.exists_create hadmits' hbudget' .utc
  have hcut : ∀ {r : Rule} {s t : Series}, r.Valid →
      Settles (fun n => Series.create n r.uncounted start .utc budget) (.ok t) →
      Settles (fun n => Series.create n r start .utc budget) (.ok s) → t.Plays vs →
      s.Plays (r.cut vs) := by
    intro r s t hr ht hs hplays
    obtain ⟨n, hn⟩ := ht.exists_bound
    obtain ⟨m, hm⟩ := hs.exists_bound
    exact Rule.plays_cut hr hreal hbudget' hn hm hplays
  have hsame : r'.cut vs = r.cut vs := by
    rw [Rule.cut, Rule.cut, h.ends.1, h'.ends.1]
  exact ⟨s, s', r.cut vs, hs, hs', hcut hadmits.valid ht hs hplays,
    hsame ▸ hcut hadmits'.valid ht' hs' hplays'⟩

/-- Every other week and every 336th hour, from a Tuesday evening to the end of January. -/
theorem equivalent_formulations_agree_every_other_week :
    let r : Rule := { untilBound := some (.ofDate ⟨2024, 1, 31⟩), freq := .weekly, interval := 2,
                      byDay := [.every .tu], weekStart := .su }
    let r' : Rule := { untilBound := some (.ofDate ⟨2024, 1, 31⟩), freq := .hourly,
                       interval := 336 }
    let start : Value := .ofDateTime ⟨2024, 1, 2⟩ ⟨20, 0, 0⟩
    let values : List Value := [start, .ofDateTime ⟨2024, 1, 16⟩ ⟨20, 0, 0⟩,
      .ofDateTime ⟨2024, 1, 30⟩ ⟨20, 0, 0⟩]
    ∃ s s' vs, Settles (fun n => Series.create n r start .utc 3) (.ok s) ∧
      Settles (fun n => Series.create n r' start .utc 3) (.ok s') ∧ s.Plays vs ∧ s'.Plays vs ∧
      vs.take 3 = values := by
  intro r r' start values
  let last : Value := .ofDate ⟨2024, 1, 31⟩
  obtain ⟨s, s', vs, hcreate, hcreate', hplays, hplays'⟩ := equivalent_formulations_agree
    (show Rule.Formulates start none last (.days (7 * 2)) r from .weeklyOn 2 .su)
    (show Rule.Formulates start none last (.days (7 * 2)) r' from .hourly 14 .mo rfl)
    (by decide) (by simp) (.inl rfl) (by decide) (show (3 : Int) ≤ 3 by decide)
  -- what one of them plays is computed
  obtain ⟨s₁, t, t', hcreate₁, hrun, -⟩ := Series.returns_of_wholeRunOf
    (show Series.wholeRunOf 50 9 r start .utc 3 = some values by decide +kernel)
  obtain rfl := Series.create_unique hcreate hcreate₁
  exact ⟨_, s', vs, hcreate, hcreate', hplays, hplays', (hplays.returns hrun).1⟩

end Recurrence
