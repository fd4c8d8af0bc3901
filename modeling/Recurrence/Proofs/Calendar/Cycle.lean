/-
Recurrence/Proofs/Calendar/Cycle.lean

The cycle of the calendar.

The calendar repeats itself after 400 years, which are 146097 days and whole weeks.  Whatever is
computed of a year does not change when 400 is added to it, day numbers grow by the length of the
cycle, and weeks keep their numbers.  This holds of all years, months and days, whether or not
they are those of a real date.

A value is moved by one cycle by its year alone (`Value.later`), and the order of values is kept.
-/
import Recurrence.Expansion.Fields
import Recurrence.Expansion.Period
import Recurrence.Proofs.Calendar.ValueOrder

namespace Recurrence

/-- The days of 400 years. -/
def cycleDays : Int := 146097

namespace Gregorian

/-! ### Years, months and days -/

@[simp] theorem isLeap_later (y : Int) : isLeap (y + 400) = isLeap y := by
  rw [Bool.eq_iff_iff, isLeap_iff, isLeap_iff]
  omega

@[simp] theorem yearLength_later (y : Int) : yearLength (y + 400) = yearLength y := by
  simp only [yearLength, isLeap_later]

@[simp] theorem monthLengthWithin_later (y m : Int) :
    monthLengthWithin (y + 400) m = monthLengthWithin y m := by
  simp only [monthLengthWithin, isLeap_later]

theorem carryMonth_later (y m : Int) :
    carryMonth (y + 400) m = ((carryMonth y m).1 + 400, (carryMonth y m).2) := by
  simp only [carryMonth, Prod.mk.injEq, and_true]
  omega

@[simp] theorem monthLength_later (y m : Int) : monthLength (y + 400) m = monthLength y m := by
  simp only [monthLength, carryMonth_later, monthLengthWithin_later]

theorem daysBeforeYear_later (y : Int) :
    daysBeforeYear (y + 400) = daysBeforeYear y + cycleDays := by
  simp only [daysBeforeYear, cycleDays]
  omega

@[simp] theorem dayNumber_later (y m d : Int) :
    dayNumber (y + 400) m d = dayNumber y m d + cycleDays := by
  simp only [dayNumber, dayNumberWithin, carryMonth_later, daysBeforeYear_later, isLeap_later]
  split_ifs <;> omega

@[simp] theorem dayOfYear_later (y m d : Int) : dayOfYear (y + 400) m d = dayOfYear y m d := by
  simp only [dayOfYear, dayNumber_later]
  omega

@[simp] theorem yearOfDayNumber_later (n : Int) :
    yearOfDayNumber (n + cycleDays) = yearOfDayNumber n + 400 := by
  obtain ⟨hlow, hhigh⟩ := yearOfDayNumber_eq_iff.mp (rfl : yearOfDayNumber n = yearOfDayNumber n)
  rw [yearOfDayNumber_eq_iff, add_right_comm, dayNumber_later, dayNumber_later]
  omega

@[simp] theorem monthOfDayNumber_later (n : Int) :
    monthOfDayNumber (n + cycleDays) = monthOfDayNumber n := by
  have hgap : februaryGap (yearOfDayNumber n + 400) (n + cycleDays) =
      februaryGap (yearOfDayNumber n) n := by
    simp only [februaryGap, dayNumber_later, isLeap_later, add_lt_add_iff_right]
  simp only [monthOfDayNumber, yearOfDayNumber_later, dayNumber_later, hgap, add_sub_add_right_eq_sub]

@[simp] theorem dayOfDayNumber_later (n : Int) :
    dayOfDayNumber (n + cycleDays) = dayOfDayNumber n := by
  simp only [dayOfDayNumber, yearOfDayNumber_later, monthOfDayNumber_later, dayNumber_later,
    add_sub_add_right_eq_sub]

/-! ### Weeks -/

@[simp] theorem weekdayNumber_later (y m d : Int) :
    weekdayNumber (y + 400) m d = weekdayNumber y m d := by
  simp only [weekdayNumber, dayNumber_later, cycleDays]
  omega

@[simp] theorem firstWeekdayOfMonth_later (y m : Int) :
    firstWeekdayOfMonth (y + 400) m = firstWeekdayOfMonth y m :=
  weekdayNumber_later y m 1

@[simp] theorem weekStart_later (n s : Int) :
    weekStart (n + cycleDays) s = weekStart n s + cycleDays := by
  simp only [weekStart, cycleDays]
  omega

@[simp] theorem weekOneStart_later (y s : Int) :
    weekOneStart (y + 400) s = weekOneStart y s + cycleDays := by
  simp only [weekOneStart, dayNumber_later, weekStart_later, add_sub_add_right_eq_sub]
  split_ifs <;> omega

@[simp] theorem weeksInYear_later (y s : Int) : weeksInYear (y + 400) s = weeksInYear y s := by
  simp only [weeksInYear, add_right_comm y 400 1, weekOneStart_later, add_sub_add_right_eq_sub]

/-- The numbered week of a date a cycle later has the same number, in the year a cycle later. -/
theorem weekNumber_later (y m d s : Int) : weekNumber (y + 400) m d s =
    ⟨(weekNumber y m d s).year + 400, (weekNumber y m d s).week⟩ := by
  simp only [weekNumber, dayNumber_later, add_right_comm y 400 1, add_sub_right_comm y 400 1,
    weekOneStart_later, add_sub_add_right_eq_sub, add_lt_add_iff_right, add_le_add_iff_right]
  split_ifs
  · rfl
  · rfl
  · rfl

end Gregorian

/-! ### Dates -/

namespace Date

/-- The date 400 years later. -/
def later (d : Date) : Date := { d with year := d.year + 400 }

@[simp] theorem later_year (d : Date) : d.later.year = d.year + 400 := rfl

@[simp] theorem later_month (d : Date) : d.later.month = d.month := rfl

@[simp] theorem later_day (d : Date) : d.later.day = d.day := rfl

@[simp] theorem dayNumber_later (d : Date) : d.later.dayNumber = d.dayNumber + cycleDays :=
  Gregorian.dayNumber_later d.year d.month d.day

theorem ofDayNumber_later (n : Int) : ofDayNumber (n + cycleDays) = (ofDayNumber n).later := by
  simp only [ofDayNumber, Gregorian.yearOfDayNumber_later, Gregorian.monthOfDayNumber_later,
    Gregorian.dayOfDayNumber_later, later]

theorem addDays_later (d : Date) (days : Int) : d.later.addDays days = (d.addDays days).later := by
  simp only [addDays, dayNumber_later, add_right_comm _ cycleDays, ofDayNumber_later]

@[simp] theorem dayOfYear_later (d : Date) : d.later.dayOfYear = d.dayOfYear :=
  Gregorian.dayOfYear_later d.year d.month d.day

@[simp] theorem weekdayNumber_later (d : Date) : d.later.weekdayNumber = d.weekdayNumber := by
  simp only [weekdayNumber, dayNumber_later, cycleDays]
  omega

theorem weekNumber_later (d : Date) (weekStart : Int) : d.later.weekNumber weekStart =
    ⟨(d.weekNumber weekStart).year + 400, (d.weekNumber weekStart).week⟩ :=
  Gregorian.weekNumber_later d.year d.month d.day weekStart

end Date

/-! ### Values -/

namespace Value

variable {v w : Value}

/-- The value 400 years later, at the same time of day. -/
def later (v : Value) : Value := { v with date := v.date.later }

@[simp] theorem later_date (v : Value) : v.later.date = v.date.later := rfl

@[simp] theorem later_time (v : Value) : v.later.time = v.time := rfl

@[simp] theorem hasTime_later (v : Value) : v.later.hasTime = v.hasTime := rfl

theorem withoutTime_later (v : Value) : v.later.withoutTime = v.withoutTime.later := rfl

theorem addDays_later (v : Value) (days : Int) : v.later.addDays days = (v.addDays days).later := by
  simp only [addDays, later_date, Date.addDays_later]
  rfl

/-- Keys begin with the year. -/
theorem key_eq_cons (v : Value) : v.key = v.date.year :: v.key.tail := rfl

theorem key_later (v : Value) : v.later.key = (v.date.year + 400) :: v.key.tail := rfl

theorem key_later_lt_iff : v.later.key < w.later.key ↔ v.key < w.key := by
  rw [key_later, key_later, key_eq_cons v, key_eq_cons w, List.tail_cons, List.tail_cons,
    List.cons_lt_cons_iff, List.cons_lt_cons_iff, add_lt_add_iff_right, add_left_inj]

theorem key_later_eq_iff : v.later.key = w.later.key ↔ v.key = w.key := by
  rw [key_later, key_later, key_eq_cons v, key_eq_cons w, List.tail_cons, List.tail_cons,
    List.cons_eq_cons, List.cons_eq_cons, add_left_inj]

/-- Values are ordered as they are a cycle later. -/
theorem later_lt_iff : v.later < w.later ↔ v < w :=
  or_congr key_later_lt_iff (and_congr_left' key_later_eq_iff)

end Value

/-! ### Periods -/

theorem periodStart_later (freq : Frequency) (v : Value) :
    periodStart freq v.later = (periodStart freq v).later := by
  cases freq <;> rfl

/-- Values are in the same period if and only if they are so a cycle later. -/
theorem periodKey_later_eq_iff (freq : Frequency) (weekStart : Weekday) (v w : Value) :
    periodKey freq weekStart v.later = periodKey freq weekStart w.later ↔
      periodKey freq weekStart v = periodKey freq weekStart w := by
  cases freq <;>
    simp only [periodKey, Value.later_date, Value.later_time, Date.key, Date.later_year,
      Date.later_month, Date.later_day, Date.dayNumber_later, Gregorian.weekStart_later,
      List.cons_append, List.cons_eq_cons,
      add_left_inj]

end Recurrence
