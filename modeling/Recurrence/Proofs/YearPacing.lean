/-
Recurrence/Proofs/YearPacing.lean

Pacing skips exactly the empty years.

A pacer names the first year from a given one on that has anything to offer.  What that is can be
said without the pacer: a stepper has something in a year if a real value of the year has a unit
that lies a whole number of intervals from the start's, and a week cycle if a real date of the
year has a week that does.

A stepper may have been asked before, and in any period.  What it remembers is then another unit
that is in phase with the start's (`Stepper.answerAll_phase`), which is all that naming years
depends on.
-/
import Recurrence.Proofs.Meaning.Years
import Recurrence.Proofs.PhaseKeeping
import Recurrence.Proofs.WeekNumbers

namespace Recurrence

variable {u : StepUnit} {interval : Int} {s : Value}

/-! ### Years with something in phase -/

/-- The years that have a unit in phase with the start's, units being months, days and so on. -/
def StepUnit.yearsInPhase (u : StepUnit) (interval : Int) (s : Value) : Set Int :=
  {y | ∃ v : Value, v.IsReal ∧ v.date.year = y ∧
    interval ∣ u.ordinal (.ofValue v) - u.ordinal (.ofValue s)}

/-- The years that have a day of a week in phase with the start's, weeks being told apart by the
days on which they start. -/
def Weekday.yearsInPhase (weekStart : Weekday) (interval : Int) (s : Value) : Set Int :=
  {y | ∃ d : Date, d.IsReal ∧ d.year = y ∧
    7 * interval ∣ Gregorian.weekStart d.dayNumber weekStart.number -
      Gregorian.weekStart s.date.dayNumber weekStart.number}

theorem StepUnit.ordinal_ofValue (u : StepUnit) (v : Value) :
    u.ordinal (.ofValue v) = u.numberOf v :=
  u.ordinal_eq (.ofValue v)

/-- A stepper holds a slot in the years that have a unit in phase with the one it remembers. -/
theorem holdsSlot_slots_iff {g : Stepper} {year : Int}
    (hlast : g.interval ∣ g.last - g.unit.ordinal (.ofValue s)) :
    (Pacer.slots g).HoldsSlot year ↔ year ∈ g.unit.yearsInPhase g.interval s := by
  have hphase : ∀ n, g.interval ∣ n - g.last ↔ g.interval ∣ n - g.unit.ordinal (.ofValue s) := by
    intro n
    rw [← sub_add_sub_cancel n g.last (g.unit.ordinal _), Int.dvd_add_left hlast]
  constructor
  · rintro ⟨n, hn, rfl⟩
    obtain ⟨v, hv, -, rfl⟩ := g.unit.exists_numberOf n true (by simp)
    refine ⟨v, hv, (g.unit.yearOf_numberOf hv).symm, ?_⟩
    rw [g.unit.ordinal_ofValue v]
    exact (hphase _).mp hn
  · rintro ⟨v, hv, rfl, hdvd⟩
    refine ⟨g.unit.numberOf v, ?_, g.unit.yearOf_numberOf hv⟩
    rw [← g.unit.ordinal_ofValue v]
    exact (hphase _).mpr hdvd

/-- A week cycle holds a slot in the years that have a day of a week in phase. -/
theorem holdsSlot_weeks_iff {weekStart : Weekday} {year : Int} :
    (Pacer.weeks (.start interval weekStart s)).HoldsSlot year ↔
      year ∈ weekStart.yearsInPhase interval s := by
  constructor
  · rintro ⟨week, hweek, n, hle, hlt, rfl⟩
    refine ⟨Date.ofDayNumber n, Date.isReal_ofDayNumber n, rfl, ?_⟩
    rw [Date.dayNumber_ofDayNumber]
    -- a week that lies whole weeks from the start's begins on the same weekday
    obtain ⟨hstart, -, -⟩ : Gregorian.WeekStartsOn weekStart.number s.date.dayNumber _ :=
      Gregorian.weekStartsOn_iff.mpr rfl
    have hwhole : 7 ∣ week - Gregorian.weekStart s.date.dayNumber weekStart.number :=
      (Int.dvd_mul_right 7 interval).trans hweek
    have hown : Gregorian.WeekStartsOn weekStart.number n week :=
      ⟨by omega, hle, hlt⟩
    rwa [← Gregorian.weekStartsOn_iff.mp hown]
  · rintro ⟨d, hd, rfl, hdvd⟩
    obtain ⟨-, hle, hlt⟩ := Gregorian.weekStartsOn_iff.mpr
      (rfl : Gregorian.weekStart d.dayNumber weekStart.number = _)
    exact ⟨_, hdvd, d.dayNumber, hle, hlt, Date.yearOfDayNumber_dayNumber hd⟩

/-! ### What a stepper remembers -/

namespace Stepper

variable {g : Stepper}

/-- A call leaves the last unit in phase, whatever the fields are. -/
theorem generate_phase (hi : 1 ≤ g.interval) (f : Fields) :
    (g.generate f).2.1.unit = g.unit ∧ (g.generate f).2.1.interval = g.interval ∧
      g.interval ∣ (g.generate f).2.1.last - g.last := by
  have hne : g.interval ≠ 0 := by omega
  simp only [generate, hne, and_false, if_false]
  split
  · exact ⟨rfl, rfl, by simp⟩
  · refine ⟨rfl, rfl, ?_⟩
    by_cases hperiod : g.unit.periodStart f = g.period
    · rw [hperiod, nextSlot_self]
      exact ⟨1, by dsimp only; omega⟩
    · exact (nextSlot_of_ne hi hperiod).2.1

/-- So do any calls. -/
theorem answerAll_phase (hi : 1 ≤ g.interval) (calls : List Fields) :
    (g.answerAll calls).2.unit = g.unit ∧ (g.answerAll calls).2.interval = g.interval ∧
      g.interval ∣ (g.answerAll calls).2.last - g.last := by
  induction calls generalizing g with
  | nil => exact ⟨rfl, rfl, by simp [answerAll]⟩
  | cons f calls ih =>
    obtain ⟨hunit, hinterval, hlast⟩ := generate_phase hi f
    obtain ⟨hunit', hinterval', hlast'⟩ := ih (g := (g.generate f).2.1) (hinterval ▸ hi)
    refine ⟨hunit'.trans hunit, hinterval'.trans hinterval, ?_⟩
    rw [hinterval] at hlast'
    have := Int.dvd_add hlast' hlast
    rwa [sub_add_sub_cancel] at this

/-- A stepper that has not been asked remembers the unit one interval before the start's. -/
theorem start_phase : interval ∣ (start u interval s).last - u.ordinal (.ofValue s) := by
  refine ⟨-1, ?_⟩
  rw [u.ordinal_eq]
  simp only [start]
  omega

end Stepper

/-- **Pacing skips exactly the empty years.**  Take any interval, any start and any year.  A stepper
through months, days, hours, minutes or seconds that has been asked any number of times, with
whatever fields, names the least year from that one on that has a unit in phase with the start's.
So does the week cycle, for weeks that begin on any weekday, with the least year that has a day of a
week in phase. -/
theorem pacing_skips_empty_years (hi : 1 ≤ interval) (s : Value) (year : Int) :
    (∀ (u : StepUnit) (calls : List Fields),
      IsLeast {y | year ≤ y ∧ y ∈ u.yearsInPhase interval s}
        (((Stepper.start u interval s).answerAll calls).2.firstYearFrom year)) ∧
    ∀ weekStart : Weekday,
      IsLeast {y | year ≤ y ∧ y ∈ weekStart.yearsInPhase interval s}
        ((WeekCycle.start interval weekStart s).firstYearFrom year) := by
  constructor
  · intro u calls
    obtain ⟨hunit, hinterval, hlast⟩ :=
      Stepper.answerAll_phase (g := .start u interval s) hi calls
    set g := ((Stepper.start u interval s).answerAll calls).2
    have hinterval : g.interval = interval := hinterval
    have hunit : g.unit = u := hunit
    have hphase : g.interval ∣ g.last - g.unit.ordinal (.ofValue s) := by
      rw [hinterval, hunit, ← sub_add_sub_cancel _ (Stepper.start u interval s).last]
      exact Int.dvd_add hlast Stepper.start_phase
    have hleast := (Pacer.slots g).isLeast_firstYearFrom (hi.trans_eq hinterval.symm) year
    simp only [holdsSlot_slots_iff hphase, hunit, hinterval] at hleast
    exact hleast
  · intro weekStart
    have hleast := (Pacer.weeks (.start interval weekStart s)).isLeast_firstYearFrom hi year
    simp only [holdsSlot_weeks_iff] at hleast
    exact hleast

/-- After a day in 1997 the next of every fifty thousand days is in 2134, and the stepper says so
after any months that it has been asked for.  After the week that reaches into 2008 the next of
every thousand weeks is in 2027. -/
theorem pacing_skips_empty_years_long_intervals :
    let days := Stepper.start .day 50000 (.ofDate ⟨1997, 9, 2⟩)
    let calls : List Fields :=
      [⟨1997, 9, 1, 0, 0, 0⟩, ⟨1997, 9, 2, 0, 0, 0⟩, ⟨1997, 10, 1, 0, 0, 0⟩]
    let weeks := WeekCycle.start 1000 .mo (.ofDate ⟨2007, 12, 31⟩)
    (days.answerAll calls).2 ≠ days ∧ (days.answerAll calls).2.firstYearFrom 1998 = 2134 ∧
      IsLeast {y | 1998 ≤ y ∧ y ∈ StepUnit.day.yearsInPhase 50000 (.ofDate ⟨1997, 9, 2⟩)} 2134 ∧
      weeks.firstYearFrom 2008 = 2008 ∧ weeks.firstYearFrom 2009 = 2027 ∧
      IsLeast {y | 2009 ≤ y ∧ y ∈ Weekday.mo.yearsInPhase 1000 (.ofDate ⟨2007, 12, 31⟩)} 2027 := by
  intro days calls weeks
  have hdays : (days.answerAll calls).2.firstYearFrom 1998 = 2134 := by decide +kernel
  have hweeks : weeks.firstYearFrom 2009 = 2027 := by decide +kernel
  obtain ⟨hunits, -⟩ := pacing_skips_empty_years (by decide : (1 : Int) ≤ 50000)
    (.ofDate ⟨1997, 9, 2⟩) 1998
  obtain ⟨-, hcycle⟩ := pacing_skips_empty_years (by decide : (1 : Int) ≤ 1000)
    (.ofDate ⟨2007, 12, 31⟩) 2009
  refine ⟨by decide +kernel, hdays, ?_, by decide +kernel, hweeks, ?_⟩
  · rw [← hdays]
    exact hunits .day calls
  · rw [← hweeks]
    exact hcycle .mo

end Recurrence
