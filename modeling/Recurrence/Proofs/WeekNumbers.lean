/-
Recurrence/Proofs/WeekNumbers.lean

Numbered weeks tile the calendar.

A week counts among the weeks of the year that has most of its days, which is the year of its
fourth day.  Week one of a year starts three days before the year at the earliest and three days
after the first of January at the latest.  So a week starts there or later exactly if its fourth
day is not before the year (`weekOneStart_le_iff`), the weeks of a year reach from its week one up
to the next year's, and a date's number says which of them it lies in (`Date.weekNumber_spec`).
Where the leap years are does not matter, only that a year has 365 or 366 days.
-/
import Recurrence.Proofs.Calendar.Gregorian

namespace Recurrence

namespace Gregorian

variable {n s weekday : Int}

/-! ### Weeks -/

/-- Whether the week of a day, for weeks that start on a weekday, starts on another day. -/
def WeekStartsOn (weekday n s : Int) : Prop := s % 7 = weekday % 7 ∧ s ≤ n ∧ n < s + 7

instance (weekday n s : Int) : Decidable (WeekStartsOn weekday n s) := by
  unfold WeekStartsOn
  infer_instance

/-- **Every day lies in one week**, the one that starts on its `weekStart`. -/
theorem weekStartsOn_iff : WeekStartsOn weekday n s ↔ s = weekStart n weekday := by
  unfold WeekStartsOn weekStart
  omega

/-! ### Week one -/

/-- Week one of a year has its fourth day among the first seven of the year. -/
theorem weekOneStart_spec (year weekday : Int) :
    weekOneStart year weekday % 7 = weekday % 7 ∧
      dayNumber year 1 1 ≤ weekOneStart year weekday + 3 ∧
      weekOneStart year weekday + 3 < dayNumber year 1 1 + 7 := by
  simp only [weekOneStart, weekStart]
  split_ifs <;> omega

/-- **A week starts with week one of a year or later** if its fourth day is not before the year. -/
theorem weekOneStart_le_iff {year : Int} (hs : s % 7 = weekday % 7) :
    weekOneStart year weekday ≤ s ↔ dayNumber year 1 1 ≤ s + 3 := by
  obtain ⟨hone, hlow, hhigh⟩ := weekOneStart_spec year weekday
  omega

/-- So a day lies in such a week if the fourth day of its own week does. -/
theorem WeekStartsOn.weekOneStart_le_iff (h : WeekStartsOn weekday n s) (year : Int) :
    weekOneStart year weekday ≤ n ↔ dayNumber year 1 1 ≤ s + 3 := by
  obtain ⟨hmod, hle, hlt⟩ := h
  rw [← Gregorian.weekOneStart_le_iff hmod]
  have hone := (weekOneStart_spec year weekday).1
  omega

/-- Counting the whole weeks up to a day counts those up to its week. -/
theorem WeekStartsOn.eq_weekOneStart_add (h : WeekStartsOn weekday n s) (year : Int) :
    s = weekOneStart year weekday + 7 * ((n - weekOneStart year weekday) / 7 + 1 - 1) := by
  obtain ⟨hmod, hle, hlt⟩ := h
  have hone := (weekOneStart_spec year weekday).1
  omega

/-! ### The weeks of a year -/

/-- The weeks of a year reach up to week one of the next. -/
theorem weekOneStart_succ (year weekday : Int) :
    weekOneStart (year + 1) weekday = weekOneStart year weekday + 7 * weeksInYear year weekday := by
  obtain ⟨hone, -, -⟩ := weekOneStart_spec year weekday
  obtain ⟨hnext, -, -⟩ := weekOneStart_spec (year + 1) weekday
  unfold weeksInYear
  omega

/-- A year has 52 or 53 numbered weeks. -/
theorem weeksInYear_eq_or (year weekday : Int) :
    weeksInYear year weekday = 52 ∨ weeksInYear year weekday = 53 := by
  obtain ⟨-, hlow, hhigh⟩ := weekOneStart_spec year weekday
  obtain ⟨-, hlow', hhigh'⟩ := weekOneStart_spec (year + 1) weekday
  have hsucc := weekOneStart_succ year weekday
  have hyear := dayNumber_succ_year year
  have hlength := yearLength_pos year
  have hlength' := yearLength_le year
  omega

/-- A week lies in a year, counted from one, if its fourth day does. -/
theorem week_bounds {year week : Int} (hs : s = weekOneStart year weekday + 7 * (week - 1)) :
    dayNumber year 1 1 ≤ s + 3 ∧ s + 3 < dayNumber (year + 1) 1 1 ↔
      1 ≤ week ∧ week ≤ weeksInYear year weekday := by
  have hone := (weekOneStart_spec year weekday).1
  have hsucc := weekOneStart_succ year weekday
  have hmod : s % 7 = weekday % 7 := by omega
  rw [← weekOneStart_le_iff hmod, ← not_le, ← weekOneStart_le_iff hmod]
  omega

end Gregorian

namespace Date

open Gregorian

variable {d e : Date}

/-- The number of a date's week, counted from week one of the year that has the fourth day of
the week. -/
theorem weekNumber_spec (hd : d.IsReal) (weekday : Int) :
    let w := d.weekNumber weekday
    let s := weekStart d.dayNumber weekday
    s = weekOneStart w.year weekday + 7 * (w.week - 1) ∧
      Gregorian.dayNumber w.year 1 1 ≤ s + 3 ∧ s + 3 < Gregorian.dayNumber (w.year + 1) 1 1 := by
  intro w s
  have hweek : WeekStartsOn weekday d.dayNumber s := weekStartsOn_iff.mpr rfl
  obtain ⟨hlow, hhigh⟩ := hd.year_bounds
  have ⟨_, hle, hlt⟩ := hweek
  have hhere := hweek.weekOneStart_le_iff d.year
  have hthere := hweek.weekOneStart_le_iff (d.year + 1)
  have hw : w = if d.dayNumber < weekOneStart d.year weekday then
        ⟨d.year - 1, (d.dayNumber - weekOneStart (d.year - 1) weekday) / 7 + 1⟩
      else if weekOneStart (d.year + 1) weekday ≤ d.dayNumber then
        ⟨d.year + 1, (d.dayNumber - weekOneStart (d.year + 1) weekday) / 7 + 1⟩
      else ⟨d.year, (d.dayNumber - weekOneStart d.year weekday) / 7 + 1⟩ := rfl
  split_ifs at hw with hbefore hafter
  · -- in the last week of the year before
    have hprev := dayNumber_first_lt (show d.year - 1 < d.year by omega)
    have hlength := yearLength_pos (d.year - 1)
    rw [hw]
    refine ⟨hweek.eq_weekOneStart_add _, by dsimp only; omega, ?_⟩
    dsimp only
    rw [sub_add_cancel]
    omega
  · -- in the first week of the year after
    have hnext := dayNumber_first_lt (show d.year + 1 < d.year + 1 + 1 by omega)
    have hlength := yearLength_pos (d.year + 1)
    rw [hw]
    exact ⟨hweek.eq_weekOneStart_add _, hthere.mp hafter, by dsimp only; omega⟩
  · rw [hw]
    exact ⟨hweek.eq_weekOneStart_add _, by dsimp only; omega, by dsimp only; omega⟩

/-- Dates have the same number exactly if their weeks start on the same day. -/
theorem weekNumber_eq_iff (hd : d.IsReal) (he : e.IsReal) (weekday : Int) :
    e.weekNumber weekday = d.weekNumber weekday ↔
      weekStart e.dayNumber weekday = weekStart d.dayNumber weekday := by
  obtain ⟨hs, hlow, hhigh⟩ := weekNumber_spec hd weekday
  obtain ⟨hs', hlow', hhigh'⟩ := weekNumber_spec he weekday
  constructor
  · intro h
    rw [hs, hs', h]
  · intro h
    -- the fourth day of the week lies in one year only
    have hyear : (e.weekNumber weekday).year = (d.weekNumber weekday).year := by
      rw [h] at hlow' hhigh'
      exact (yearOfDayNumber_eq_iff.mpr ⟨hlow', hhigh'⟩).symm.trans
        (yearOfDayNumber_eq_iff.mpr ⟨hlow, hhigh⟩)
    have hweek : (e.weekNumber weekday).week = (d.weekNumber weekday).week := by
      rw [h, hyear] at hs'
      omega
    exact (Gregorian.WeekOfYear.mk.injEq _ _ _ _).mpr ⟨hyear, hweek⟩

end Date

open Gregorian

/-- **Numbered weeks tile the calendar.**  Take a real date and weeks that start on any weekday.
The date lies in one week.  The year of its week is the one that has the fourth day of the week, and
the week is one of the 52 or 53 of that year: it starts as many weeks after week one of the year
as its number says.  Two real dates have the same year and number exactly if they lie in the same
week. -/
theorem weeks_tile_calendar {d : Date} (hd : d.IsReal) (weekday : Int) :
    let w := d.weekNumber weekday
    let s := weekStart d.dayNumber weekday
    WeekStartsOn weekday d.dayNumber s ∧
      (dayNumber w.year 1 1 ≤ s + 3 ∧ s + 3 < dayNumber (w.year + 1) 1 1) ∧
      (1 ≤ w.week ∧ w.week ≤ weeksInYear w.year weekday) ∧
      (weeksInYear w.year weekday = 52 ∨ weeksInYear w.year weekday = 53) ∧
      s = weekOneStart w.year weekday + 7 * (w.week - 1) ∧
      ∀ e : Date, e.IsReal → (e.weekNumber weekday = w ↔ WeekStartsOn weekday e.dayNumber s) := by
  intro w s
  obtain ⟨hs, hyear⟩ := Date.weekNumber_spec hd weekday
  refine ⟨weekStartsOn_iff.mpr rfl, hyear, (week_bounds hs).mp hyear, weeksInYear_eq_or _ _, hs, ?_⟩
  intro e he
  rw [Date.weekNumber_eq_iff hd he, weekStartsOn_iff]
  exact eq_comm

/-- The last day of 2007 begins a week, if weeks begin on Mondays.  The other six days of it are in
2008, so it is week one of that year, and the first of January lies in it. -/
theorem weeks_tile_calendar_new_years_eve :
    let eve : Date := ⟨2007, 12, 31⟩
    let newYear : Date := ⟨2008, 1, 1⟩
    eve.IsReal ∧ newYear.IsReal ∧ eve.weekNumber 1 = ⟨2008, 1⟩ ∧
      eve.dayNumber = weekOneStart 2008 1 ∧ newYear.weekNumber 1 = eve.weekNumber 1 := by
  intro eve newYear
  have hreal : eve.IsReal := by decide
  obtain ⟨hweek, -, -, -, hs, hsame⟩ := weeks_tile_calendar hreal 1
  have hnumber : eve.weekNumber 1 = ⟨2008, 1⟩ := by decide
  refine ⟨hreal, by decide, hnumber, ?_, (hsame newYear (by decide)).mpr (by decide)⟩
  rw [hnumber] at hs
  have hstart : weekStart eve.dayNumber 1 = eve.dayNumber := by decide
  rw [hstart] at hs
  simpa using hs

end Recurrence
