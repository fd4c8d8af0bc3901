/-
Recurrence/Proofs/CalendarArithmetic.lean

Days and seconds are counted on one scale.

A real date is a day number written in another way: each determines the other, and the later date
has the larger number.  In the same way a real date and a real time of day are a number of
seconds.  Fields that are out of range still have such a number, and carrying looks for the real
fields with the same one (`carryFields_eq_iff`).  That is all that moving a date-time by seconds
depends on, so moving by one number and then by another is moving by their sum, and what is
earlier stays earlier.
-/
import Recurrence.Proofs.Calendar.Steady

namespace Recurrence

open Gregorian

/-! ### Days -/

/-- Months out of range are months of another year, counted through. -/
theorem carryMonth_spec (year month : Int) :
    let c := carryMonth year month
    (1 ≤ c.2 ∧ c.2 ≤ 12) ∧ 12 * c.1 + c.2 = 12 * year + month := by
  simp only [carryMonth]
  omega

/-- The first of a month has one number, whichever year the month is counted from. -/
theorem dayNumber_carryMonth (year month : Int) :
    dayNumber (carryMonth year month).1 (carryMonth year month).2 1 = dayNumber year month 1 := by
  rw [dayNumber_eq_of_index, (carryMonth_spec year month).2, ← dayNumber_eq_of_index]

/-- **Day numbers are the calendar.**  Every number is that of one real date, every real date is the
date of its number, and the numbers grow as the dates do, field by field.  Months and days out of
range roll over: the days are counted from the first of the month that is meant, which stands as
many days before the first of the next one as the month has days, and new year as many before the
next as the year has days. -/
theorem day_numbers_are_calendar :
    (∀ n, (Date.ofDayNumber n).IsReal ∧ (Date.ofDayNumber n).dayNumber = n) ∧
    (∀ d : Date, d.IsReal ↔
      (1 ≤ d.month ∧ d.month ≤ 12) ∧ 1 ≤ d.day ∧ d.day ≤ monthLength d.year d.month) ∧
    (∀ d : Date, d.IsReal → Date.ofDayNumber d.dayNumber = d) ∧
    (∀ d e : Date, d.IsReal → e.IsReal → (d.key < e.key ↔ d.dayNumber < e.dayNumber)) ∧
    (∀ year month day, ∃ y m, carryMonth year month = (y, m) ∧ (1 ≤ m ∧ m ≤ 12) ∧
      12 * y + m = 12 * year + month ∧ dayNumber year month day = dayNumber y m 1 + (day - 1)) ∧
    (∀ year month, dayNumber year (month + 1) 1 = dayNumber year month 1 + monthLength year month) ∧
    (∀ year, dayNumber (year + 1) 1 1 = dayNumber year 1 1 + yearLength year) ∧
    dayNumber 1 1 1 = 1 := by
  refine ⟨fun n => ⟨Date.isReal_ofDayNumber n, Date.dayNumber_ofDayNumber n⟩, ?_,
    fun d => Date.ofDayNumber_dayNumber, fun d e => Date.key_lt_iff, ?_, dayNumber_succ_month,
    dayNumber_succ_year, by decide⟩
  · intro d
    rw [Date.isReal_iff, and_assoc]
  · intro year month day
    obtain ⟨hmonth, hindex⟩ := carryMonth_spec year month
    refine ⟨(carryMonth year month).1, (carryMonth year month).2, rfl, hmonth, hindex, ?_⟩
    rw [dayNumber_carryMonth, dayNumber_eq_add]

/-- The year 0 is a leap year at the end of four centuries.  Its last day has the number 0, and so
has the day before the first in the thirteenth month of that year. -/
theorem day_numbers_are_calendar_year_zero :
    let eve : Date := ⟨0, 12, 31⟩
    eve.IsReal ∧ eve.dayNumber = 0 ∧ Date.ofDayNumber 0 = eve ∧
      eve.key < (Date.ofDayNumber 1).key ∧ dayNumber 0 13 0 = 0 := by
  intro eve
  obtain ⟨hnumber, -, hdate, hkey, hroll, -⟩ := day_numbers_are_calendar
  have hreal : eve.IsReal := by decide
  have hzero : eve.dayNumber = 0 := by decide
  refine ⟨hreal, hzero, ?_, ?_, ?_⟩
  · rw [← hzero]
    exact hdate eve hreal
  · rw [hkey eve _ hreal (hnumber 1).1, (hnumber 1).2, hzero]
    decide
  · obtain ⟨y, m, hcarry, -, -, hday⟩ := hroll 0 13 0
    obtain ⟨rfl, rfl⟩ := Prod.mk.inj hcarry
    rw [hday]
    decide

/-! ### Seconds -/

variable {d e : Date} {t u : TimeOfDay}

theorem instantOf_injective (hd : d.IsReal) (ht : t.IsReal) (he : e.IsReal) (hu : u.IsReal)
    (h : instantOf d t = instantOf e u) : (d, t) = (e, u) := by
  have hreal : ∀ {d : Date} {t : TimeOfDay}, d.IsReal → t.IsReal →
      (Value.ofDateTime d t).IsReal := by
    rintro d t hd ht
    refine ⟨hd, ?_⟩
    rintro _ ⟨⟩
    exact ht
  have heq := Value.eq_of_instant (hreal hd ht) (hreal he hu) rfl h
  simp only [Value.ofDateTime, Value.mk.injEq, Option.some.injEq] at heq
  rw [heq.1, heq.2]

/-- **Carrying finds the real fields** of the same number of seconds. -/
theorem carryFields_eq_iff :
    carryFields d t = (e, u) ↔ e.IsReal ∧ u.IsReal ∧ instantOf e u = instantOf d t := by
  obtain ⟨hdate, htime, hinstant⟩ := carryFields_spec d t
  constructor
  · intro h
    rw [h] at hdate htime hinstant
    exact ⟨hdate, htime, hinstant⟩
  · rintro ⟨he, hu, h⟩
    exact instantOf_injective hdate htime he hu (hinstant.trans h.symm)

/-- So what is carried depends on the number alone. -/
theorem carryFields_congr (h : instantOf d t = instantOf e u) :
    carryFields d t = carryFields e u := by
  obtain ⟨hdate, htime, hinstant⟩ := carryFields_spec e u
  exact carryFields_eq_iff.mpr ⟨hdate, htime, hinstant.trans h.symm⟩

namespace Value

/-- Moving twice is moving by the sum. -/
theorem addSeconds_addSeconds (v : Value) (a b : Int) :
    (v.addSeconds a).addSeconds b = v.addSeconds (a + b) := by
  obtain ⟨d, _ | t⟩ := v
  · rfl
  · obtain ⟨-, -, hinstant⟩ := carryFields_spec d { t with second := t.second + a }
    have hcarry : carryFields (carryFields d { t with second := t.second + a }).1
          { (carryFields d { t with second := t.second + a }).2 with
            second := (carryFields d { t with second := t.second + a }).2.second + b } =
        carryFields d { t with second := t.second + (a + b) } := by
      apply carryFields_congr
      rw [instantOf_add_second, hinstant, instantOf_add_second, instantOf_add_second, add_assoc]
    simp only [addSeconds, ofDateTime, hcarry]

/-- Date-times stay in order when they are moved. -/
theorem addSeconds_lt_addSeconds_iff {v w : Value} (hv : v.IsReal) (hw : w.IsReal)
    (hvt : v.hasTime = true) (hwt : w.hasTime = true) (n : Int) :
    v.addSeconds n < w.addSeconds n ↔ v < w := by
  obtain ⟨hvr, hvk, hvi⟩ := addSeconds_spec hv hvt n
  obtain ⟨hwr, hwk, hwi⟩ := addSeconds_spec hw hwt n
  rw [lt_iff_instant hvr hwr (hvk.trans hwk.symm), lt_iff_instant hv hw (hvt.trans hwt.symm), hvi,
    hwi]
  omega

end Value

/-- **Carrying finds the one real date-time of an instant.**  Take any six fields.  The fields that
they are carried to are real, come to the same number of seconds, and are the only real ones that
do; real fields stay as they are.  So date-times are moved by a sum of seconds as by one number
after the other, and real ones keep their order when they are moved. -/
theorem carried_fields_are_the_instant :
    (∀ (d : Date) (t : TimeOfDay),
      let total := fun (d : Date) (t : TimeOfDay) =>
        dayNumber d.year d.month d.day * 86400 + 3600 * t.hour + 60 * t.minute + t.second
      ∃ e u, carryFields d t = (e, u) ∧ e.IsReal ∧ u.IsReal ∧ total e u = total d t ∧
        ∀ e' u', e'.IsReal → u'.IsReal → total e' u' = total d t → e' = e ∧ u' = u) ∧
    (∀ (d : Date) (t : TimeOfDay), d.IsReal → t.IsReal → carryFields d t = (d, t)) ∧
    (∀ (v : Value) (a b : Int), (v.addSeconds a).addSeconds b = v.addSeconds (a + b)) ∧
    (∀ (v w : Value) (a : Int), v.IsReal → w.IsReal → v.hasTime = true → w.hasTime = true →
      v < w → v.addSeconds a < w.addSeconds a) := by
  refine ⟨?_, ?_, Value.addSeconds_addSeconds, ?_⟩
  · intro d t total
    have htotal : ∀ d t, total d t = instantOf d t := by
      intro d t
      simp only [total, instantOf, Date.dayNumber, secondsPerDay, TimeOfDay.seconds]
      omega
    obtain ⟨he, hu, hinstant⟩ := carryFields_spec d t
    refine ⟨(carryFields d t).1, (carryFields d t).2, rfl, he, hu, ?_, ?_⟩
    · rw [htotal, htotal, hinstant]
    · intro e' u' he' hu' h
      rw [htotal, htotal, ← hinstant] at h
      exact Prod.mk.inj (instantOf_injective he' hu' he hu h)
  · intro d t hd ht
    exact carryFields_eq_iff.mpr ⟨hd, ht, rfl⟩
  · intro v w a hv hw hvt hwt h
    exact (Value.addSeconds_lt_addSeconds_iff hv hw hvt hwt a).mpr h

/-- The fourteenth month of the year 0 is February of the next, its day 0 is the last of January,
and the hour -1 with 61 minutes is a minute past midnight.  The last second of the year 0 and the
first of the year 1 keep their order when both are moved by one. -/
theorem carried_fields_are_the_instant_new_year :
    carryFields ⟨0, 14, 0⟩ ⟨-1, 61, 0⟩ = (⟨1, 1, 31⟩, ⟨0, 1, 0⟩) ∧
      carryFields ⟨1, 1, 31⟩ ⟨0, 1, 0⟩ = (⟨1, 1, 31⟩, ⟨0, 1, 0⟩) ∧
      (Value.ofDateTime ⟨0, 12, 31⟩ ⟨23, 59, 59⟩).addSeconds 1 <
        (Value.ofDateTime ⟨1, 1, 1⟩ ⟨0, 0, 0⟩).addSeconds 1 := by
  obtain ⟨hcarry, hsame, -, hmove⟩ := carried_fields_are_the_instant
  refine ⟨?_, hsame _ _ (by decide) (by decide),
    hmove _ _ 1 (by decide) (by decide) (by decide) (by decide) (by decide)⟩
  obtain ⟨e, u, hfields, -, -, -, honly⟩ := hcarry ⟨0, 14, 0⟩ ⟨-1, 61, 0⟩
  obtain ⟨hdate, htime⟩ := honly ⟨1, 1, 31⟩ ⟨0, 1, 0⟩ (by decide) (by decide) (by decide)
  rw [hfields, hdate, htime]

end Recurrence
