/-
Recurrence/Proofs/Calendar/Gregorian.lean

Day numbers are a picture of the calendar.

Months are laid end to end: the first of a month stands as many days before the
first of the next as the month has days (`dayNumber_succ_month`), and twelve
months make a year (`dayNumber_succ_year`).  From that everything else follows:
day numbers grow with the date, the year of a day number is the one whose days
surround it (`yearOfDayNumber_eq_iff`), and real dates and day numbers correspond
one to one (`dayNumber_ofDayNumber`, `ofDayNumber_dayNumber`).
-/
import Mathlib.Data.Int.LeastGreatest
import Mathlib.Tactic.IntervalCases
import Mathlib.Tactic.Ring
import Recurrence.Calendar.Date

namespace Recurrence

namespace Gregorian

/-! ### Years -/

theorem isLeap_iff (year : Int) :
    isLeap year = true ↔ year % 4 = 0 ∧ (year % 100 ≠ 0 ∨ year % 400 = 0) := by
  simp [isLeap]

theorem isLeap_eq_false_iff (year : Int) :
    isLeap year = false ↔ year % 4 ≠ 0 ∨ year % 100 = 0 ∧ year % 400 ≠ 0 := by
  rw [← Bool.not_eq_true, isLeap_iff]
  omega

theorem daysBeforeYear_eq (year : Int) : daysBeforeYear year =
    365 * (year - 1) + (year - 1) / 4 - (year - 1) / 100 + (year - 1) / 400 := rfl

/-- Every fourth year adds a day, but only every fourth century. -/
theorem daysBeforeYear_succ (year : Int) :
    daysBeforeYear (year + 1) = daysBeforeYear year + yearLength year := by
  rw [daysBeforeYear_eq, daysBeforeYear_eq]
  unfold yearLength
  cases h : isLeap year with
  | true => rw [isLeap_iff] at h; simp only [if_true]; omega
  | false => rw [isLeap_eq_false_iff] at h; simp only [Bool.false_eq_true, if_false]; omega

theorem yearLength_pos (year : Int) : 365 ≤ yearLength year := by
  unfold yearLength; split <;> omega

theorem yearLength_le (year : Int) : yearLength year ≤ 366 := by
  unfold yearLength; split <;> omega

theorem dayNumber_first (year : Int) : dayNumber year 1 1 = daysBeforeYear year + 1 := by
  simp [dayNumber, carryMonth, dayNumberWithin]

theorem dayNumber_succ_year (year : Int) :
    dayNumber (year + 1) 1 1 = dayNumber year 1 1 + yearLength year := by
  rw [dayNumber_first, dayNumber_first, daysBeforeYear_succ]
  omega

theorem daysBeforeYear_lt {y z : Int} (h : y < z) :
    daysBeforeYear y + yearLength y ≤ daysBeforeYear z := by
  rw [← daysBeforeYear_succ, daysBeforeYear_eq, daysBeforeYear_eq]
  omega

theorem dayNumber_first_lt {y z : Int} (h : y < z) :
    dayNumber y 1 1 + yearLength y ≤ dayNumber z 1 1 := by
  rw [dayNumber_first, dayNumber_first]
  have := daysBeforeYear_lt h
  omega

theorem dayNumber_first_le {y z : Int} (h : y ≤ z) : dayNumber y 1 1 ≤ dayNumber z 1 1 := by
  rcases h.lt_or_eq with hlt | rfl
  · have hnext := dayNumber_first_lt hlt
    have hlength := yearLength_pos y
    omega
  · exact le_rfl

/-! ### The year of a day number -/

/-- The days before the year that follows so many whole centuries and years. -/
theorem daysBeforeYear_cycles {a b c d : Int} (hb : 0 ≤ b ∧ b ≤ 3) (hc : 0 ≤ c ∧ c ≤ 24)
    (hd : 0 ≤ d ∧ d ≤ 3) : daysBeforeYear (400 * a + 100 * b + 4 * c + d + 1) =
      146097 * a + 36524 * b + 1461 * c + 365 * d := by
  rw [daysBeforeYear_eq]
  have h4 : (400 * a + 100 * b + 4 * c + d + 1 - 1) / 4 = 100 * a + 25 * b + c := by omega
  have h100 : (400 * a + 100 * b + 4 * c + d + 1 - 1) / 100 = 4 * a + b := by omega
  have h400 : (400 * a + 100 * b + 4 * c + d + 1 - 1) / 400 = a := by omega
  rw [h4, h100, h400]
  ring

/-- The last day of a leap year lies 366 days after the last one before it. -/
theorem daysBeforeYear_leap {year : Int} (h : isLeap year = true) :
    daysBeforeYear (year + 1) = daysBeforeYear year + 366 := by
  rw [daysBeforeYear_succ, yearLength, if_pos h]

theorem yearOfDayNumber_bounds (n : Int) :
    daysBeforeYear (yearOfDayNumber n) < n ∧ n ≤ daysBeforeYear (yearOfDayNumber n + 1) := by
  -- the whole cycles before the day, and what is left of each
  have h400 := Int.mul_ediv_add_emod (n - 1) 146097
  have h100 := Int.mul_ediv_add_emod ((n - 1) % 146097) 36524
  have h4 := Int.mul_ediv_add_emod ((n - 1) % 146097 % 36524) 1461
  have h1 := Int.mul_ediv_add_emod ((n - 1) % 146097 % 36524 % 1461) 365
  have b400 := Int.emod_nonneg (n - 1) (show (146097 : Int) ≠ 0 by decide)
  have c400 := Int.emod_lt_of_pos (n - 1) (show (0 : Int) < 146097 by decide)
  have b100 := Int.emod_nonneg ((n - 1) % 146097) (show (36524 : Int) ≠ 0 by decide)
  have c100 := Int.emod_lt_of_pos ((n - 1) % 146097) (show (0 : Int) < 36524 by decide)
  have b4 := Int.emod_nonneg ((n - 1) % 146097 % 36524) (show (1461 : Int) ≠ 0 by decide)
  have c4 := Int.emod_lt_of_pos ((n - 1) % 146097 % 36524) (show (0 : Int) < 1461 by decide)
  have b1 := Int.emod_nonneg ((n - 1) % 146097 % 36524 % 1461) (show (365 : Int) ≠ 0 by decide)
  have c1 := Int.emod_lt_of_pos ((n - 1) % 146097 % 36524 % 1461) (show (0 : Int) < 365 by decide)
  unfold yearOfDayNumber
  simp only
  generalize (n - 1) / 146097 = a at *
  generalize (n - 1) % 146097 = r400 at *
  generalize r400 / 36524 = b at *
  generalize r400 % 36524 = r100 at *
  generalize r100 / 1461 = c at *
  generalize r100 % 1461 = r4 at *
  generalize r4 / 365 = d at *
  generalize r4 % 365 = r1 at *
  split
  · -- the day is the last one of a leap year
    rename_i hlast
    have hyear : ∃ b' c', 0 ≤ b' ∧ b' ≤ 3 ∧ 0 ≤ c' ∧ c' ≤ 24 ∧ (c' = 24 → b' = 3) ∧
        400 * a + 100 * b + 4 * c + d = 400 * a + 100 * b' + 4 * c' + 3 + 1 ∧
        n = 146097 * a + 36524 * b' + 1461 * c' + 365 * 3 + 366 := by
      rcases hlast with rfl | rfl
      · exact ⟨3, 24, by omega, by omega, by omega, by omega, by omega, by omega, by omega⟩
      · exact ⟨b, c, by omega, by omega, by omega, by omega, by omega, by omega, by omega⟩
    obtain ⟨b', c', hb0, hb3, hc0, hc24, hbc, hyear, hn⟩ := hyear
    have hleap : isLeap (400 * a + 100 * b + 4 * c + d) = true := by
      rw [isLeap_iff]
      omega
    rw [daysBeforeYear_leap hleap, hyear,
      daysBeforeYear_cycles ⟨hb0, hb3⟩ ⟨hc0, hc24⟩ ⟨by omega, by omega⟩]
    omega
  · rename_i hlast
    have hpos := yearLength_pos (400 * a + 100 * b + 4 * c + d + 1)
    have hb : 0 ≤ b ∧ b ≤ 3 := by omega
    have hc : 0 ≤ c ∧ c ≤ 24 := by omega
    have hd : 0 ≤ d ∧ d ≤ 3 := by omega
    rw [daysBeforeYear_succ (_ + 1), daysBeforeYear_cycles hb hc hd]
    omega

theorem yearOfDayNumber_eq_iff {n year : Int} :
    yearOfDayNumber n = year ↔ dayNumber year 1 1 ≤ n ∧ n < dayNumber (year + 1) 1 1 := by
  rw [dayNumber_first, dayNumber_first]
  have hb := yearOfDayNumber_bounds n
  constructor
  · rintro rfl
    omega
  · rintro ⟨hlo, hhi⟩
    have hpos := yearLength_pos
    rcases lt_trichotomy (yearOfDayNumber n) year with h | h | h
    · have h1 := daysBeforeYear_succ (yearOfDayNumber n)
      have h2 := daysBeforeYear_lt h
      omega
    · exact h
    · rcases eq_or_lt_of_le (show year + 1 ≤ yearOfDayNumber n by omega) with h' | h'
      · rw [← h'] at hb
        omega
      · have h2 := daysBeforeYear_lt h'
        have h3 := hpos (year + 1)
        omega

/-! ### Months -/

theorem carryMonth_of_real {year month : Int} (h1 : 1 ≤ month) (h12 : month ≤ 12) :
    carryMonth year month = (year, month) := by
  unfold carryMonth
  ext <;> simp <;> omega

/-- Months are counted through from the year 0. -/
theorem carryMonth_eq (year month : Int) :
    carryMonth year month = carryMonth 0 (12 * year + month) := by
  unfold carryMonth
  ext <;> simp <;> omega

theorem carryMonth_of_index {year month : Int} (h1 : 1 ≤ month) (h12 : month ≤ 12) :
    carryMonth 0 (12 * year + month) = (year, month) := by
  rw [← carryMonth_eq, carryMonth_of_real h1 h12]

theorem dayNumber_eq_of_index (year month day : Int) :
    dayNumber year month day = dayNumber 0 (12 * year + month) day := by
  unfold dayNumber
  rw [carryMonth_eq year month]

theorem monthLength_eq_of_index (year month : Int) :
    monthLength year month = monthLength 0 (12 * year + month) := by
  unfold monthLength
  rw [carryMonth_eq year month]

theorem monthLength_of_real {year month : Int} (h1 : 1 ≤ month) (h12 : month ≤ 12) :
    monthLength year month = monthLengthWithin year month := by
  simp only [monthLength, carryMonth_of_real h1 h12]

theorem monthLengthWithin_bounds (year month : Int) :
    28 ≤ monthLengthWithin year month ∧ monthLengthWithin year month ≤ 31 := by
  unfold monthLengthWithin
  split_ifs <;> omega

theorem monthLength_bounds (year month : Int) :
    28 ≤ monthLength year month ∧ monthLength year month ≤ 31 :=
  monthLengthWithin_bounds _ _

theorem dayNumber_eq_add (year month day : Int) :
    dayNumber year month day = dayNumber year month 1 + (day - 1) := by
  unfold dayNumber dayNumberWithin
  simp only
  split <;> omega

theorem dayNumberWithin_succ_month {year month : Int} (h1 : 1 ≤ month) (h11 : month ≤ 11) :
    dayNumberWithin year (month + 1) 1 =
      dayNumberWithin year month 1 + monthLengthWithin year month := by
  unfold dayNumberWithin monthLengthWithin
  cases isLeap year <;> interval_cases month <;> simp <;> omega

theorem dayNumberWithin_january (year : Int) :
    dayNumberWithin (year + 1) 1 1 = dayNumberWithin year 12 1 + monthLengthWithin year 12 := by
  have h := daysBeforeYear_succ year
  unfold yearLength at h
  unfold dayNumberWithin monthLengthWithin
  cases hl : isLeap year
  · simp [hl] at h ⊢
    omega
  · simp [hl] at h ⊢
    omega

/-- **Months are laid end to end**, also those whose number is out of range. -/
theorem dayNumber_succ_month (year month : Int) :
    dayNumber year (month + 1) 1 = dayNumber year month 1 + monthLength year month := by
  unfold dayNumber monthLength
  obtain ⟨y, m, hy, h1, h12⟩ : ∃ y m, carryMonth year month = (y, m) ∧ 1 ≤ m ∧ m ≤ 12 :=
    ⟨_, _, rfl, by omega, by omega⟩
  have hidx : 12 * y + m = 12 * year + month := by
    have h := congrArg Prod.fst hy
    have h' := congrArg Prod.snd hy
    simp only [carryMonth] at h h'
    omega
  rcases eq_or_lt_of_le h12 with rfl | hlt
  · have hnext : carryMonth year (month + 1) = (y + 1, 1) := by
      rw [carryMonth_eq, show 12 * year + (month + 1) = 12 * (y + 1) + 1 by omega]
      exact carryMonth_of_index (by decide) (by decide)
    rw [hy, hnext]
    exact dayNumberWithin_january y
  · have hnext : carryMonth year (month + 1) = (y, m + 1) := by
      rw [carryMonth_eq, show 12 * year + (month + 1) = 12 * y + (m + 1) by omega]
      exact carryMonth_of_index (by omega) (by omega)
    rw [hy, hnext]
    exact dayNumberWithin_succ_month h1 (by omega)

/-- The first of a month lies at least 28 days after that of any month before. -/
theorem dayNumber_index_add (k : Int) (n : Nat) :
    dayNumber 0 k 1 + 28 * n ≤ dayNumber 0 (k + n) 1 := by
  induction n with
  | zero => simp
  | succ n ih =>
    have hs := dayNumber_succ_month 0 (k + n)
    have hb := monthLength_bounds 0 (k + n)
    push_cast
    rw [← add_assoc]
    omega

theorem dayNumber_month_mono {y m y' m' : Int} (h : 12 * y + m ≤ 12 * y' + m') :
    dayNumber y m 1 ≤ dayNumber y' m' 1 := by
  rw [dayNumber_eq_of_index y, dayNumber_eq_of_index y']
  obtain ⟨n, hn⟩ := Int.eq_ofNat_of_zero_le (sub_nonneg.mpr h)
  have := dayNumber_index_add (12 * y + m) n
  rw [show 12 * y + m + n = 12 * y' + m' by omega] at this
  omega

/-- All of a month lies before the first of any later one. -/
theorem dayNumber_month_lt {y m y' m' : Int} (h : 12 * y + m < 12 * y' + m') :
    dayNumber y m 1 + monthLength y m ≤ dayNumber y' m' 1 := by
  rw [← dayNumber_succ_month]
  exact dayNumber_month_mono (by omega)

/-- Twelve months make a year. -/
theorem dayNumber_month_thirteen (year : Int) : dayNumber year 13 1 = dayNumber (year + 1) 1 1 := by
  rw [dayNumber_eq_of_index, dayNumber_eq_of_index (year + 1)]
  congr 1
  omega

/-! ### The month of a day number -/

/-- Every day number falls into one month. -/
theorem exists_month (n : Int) : ∃ k, dayNumber 0 k 1 ≤ n ∧ n < dayNumber 0 (k + 1) 1 := by
  have hup : ∀ k, dayNumber 0 k 1 ≤ n → k ≤ max 0 (n - dayNumber 0 0 1) := by
    intro k hk
    by_contra hgt
    obtain ⟨j, hj⟩ := Int.eq_ofNat_of_zero_le (show 0 ≤ k by omega)
    have := dayNumber_index_add 0 j
    rw [zero_add, ← hj] at this
    omega
  have hlow : ∃ k, dayNumber 0 k 1 ≤ n := by
    obtain ⟨j, hj⟩ := Int.eq_ofNat_of_zero_le (show 0 ≤ max 0 (dayNumber 0 0 1 - n) by omega)
    refine ⟨-j, ?_⟩
    have := dayNumber_index_add (-j) j
    rw [neg_add_cancel] at this
    omega
  obtain ⟨k, hk, hmax⟩ := Int.exists_greatest_of_bdd ⟨_, hup⟩ hlow
  refine ⟨k, hk, ?_⟩
  by_contra hge
  have := hmax (k + 1) (by omega)
  omega

end Gregorian

namespace Date

open Gregorian

theorem IsReal.day_le {d : Date} (h : d.IsReal) : d.day ≤ monthLength d.year d.month := by
  rw [monthLength_of_real h.1 h.2.1]
  exact h.2.2.2

theorem isReal_iff {d : Date} : d.IsReal ↔
    1 ≤ d.month ∧ d.month ≤ 12 ∧ 1 ≤ d.day ∧ d.day ≤ monthLength d.year d.month := by
  constructor
  · intro h
    exact ⟨h.1, h.2.1, h.2.2.1, h.day_le⟩
  · rintro ⟨h1, h12, hd, hl⟩
    rw [monthLength_of_real h1 h12] at hl
    exact ⟨h1, h12, hd, hl⟩

/-- Every month has a first day. -/
theorem isReal_first {year month : Int} (h : 1 ≤ month) (h12 : month ≤ 12) :
    (⟨year, month, 1⟩ : Date).IsReal := by
  refine isReal_iff.mpr ⟨h, h12, le_rfl, ?_⟩
  have := (monthLength_bounds year month).1
  dsimp only
  omega

theorem dayNumber_eq (d : Date) : d.dayNumber = Gregorian.dayNumber d.year d.month 1 + (d.day - 1) :=
  dayNumber_eq_add _ _ _

/-- Every day number is that of a real date. -/
theorem exists_dayNumber (n : Int) : ∃ d : Date, d.IsReal ∧ d.dayNumber = n := by
  obtain ⟨k, hlo, hhi⟩ := exists_month n
  have hidx : 12 * ((k - 1) / 12) + ((k - 1) % 12 + 1) = k := by omega
  have hstart := dayNumber_eq_of_index ((k - 1) / 12) ((k - 1) % 12 + 1) 1
  have hlen := monthLength_eq_of_index ((k - 1) / 12) ((k - 1) % 12 + 1)
  rw [hidx] at hstart hlen
  rw [dayNumber_succ_month] at hhi
  refine ⟨⟨(k - 1) / 12, (k - 1) % 12 + 1, n - Gregorian.dayNumber 0 k 1 + 1⟩, ?_, ?_⟩
  · rw [isReal_iff]
    exact ⟨by simp only; omega, by simp only; omega, by simp only; omega,
      by simp only [hlen]; omega⟩
  · rw [dayNumber_eq]
    simp only [hstart]
    omega

/-- A real date lies within its year. -/
theorem IsReal.year_bounds {d : Date} (h : d.IsReal) :
    Gregorian.dayNumber d.year 1 1 ≤ d.dayNumber ∧
      d.dayNumber < Gregorian.dayNumber (d.year + 1) 1 1 := by
  have hd := h.day_le
  rw [dayNumber_eq]
  have h1 : Gregorian.dayNumber d.year 1 1 ≤ Gregorian.dayNumber d.year d.month 1 :=
    dayNumber_month_mono (by have := h.1; omega)
  have h2 : Gregorian.dayNumber d.year d.month 1 + monthLength d.year d.month ≤
      Gregorian.dayNumber d.year 13 1 := dayNumber_month_lt (by have := h.2.1; omega)
  rw [dayNumber_month_thirteen] at h2
  have := h.2.2.1
  omega

/-- Dates less than a year apart lie in the same year or in neighbouring ones. -/
theorem IsReal.year_le_succ {d e : Date} (hd : d.IsReal) (he : e.IsReal)
    (h : e.dayNumber < d.dayNumber + 365) : e.year ≤ d.year + 1 := by
  by_contra hlt
  have hdyear := hd.year_bounds
  have heyear := he.year_bounds
  have hyears := dayNumber_first_lt (not_le.mp hlt)
  have hlength := yearLength_pos (d.year + 1)
  omega

theorem yearOfDayNumber_dayNumber {d : Date} (h : d.IsReal) :
    yearOfDayNumber d.dayNumber = d.year :=
  yearOfDayNumber_eq_iff.mpr h.year_bounds

theorem monthOfDayNumber_dayNumber {d : Date} (h : d.IsReal) :
    monthOfDayNumber d.dayNumber = d.month := by
  have hy := yearOfDayNumber_dayNumber h
  obtain ⟨h1, h12, hd, hl⟩ := h
  obtain ⟨y, m, d⟩ := d
  simp only at h1 h12 hd hl hy
  unfold monthOfDayNumber februaryGap
  simp only [hy]
  have hnum : (⟨y, m, d⟩ : Date).dayNumber = dayNumberWithin y m d := by
    simp only [Date.dayNumber, Gregorian.dayNumber, carryMonth_of_real h1 h12]
  have hjan : Gregorian.dayNumber y 1 1 = daysBeforeYear y + 1 := dayNumber_first y
  have hmar : Gregorian.dayNumber y 3 1 = dayNumberWithin y 3 1 := by
    simp only [Gregorian.dayNumber, carryMonth_of_real (show (1 : Int) ≤ 3 by decide)
      (show (3 : Int) ≤ 12 by decide)]
  rw [hnum, hjan, hmar]
  unfold dayNumberWithin monthLengthWithin at *
  cases hleap : isLeap y <;> simp only [hleap] at * <;> interval_cases m <;>
    simp only [Bool.false_eq_true, if_true, if_false] at * <;> norm_num at * <;>
    split_ifs <;> omega

theorem dayOfDayNumber_dayNumber {d : Date} (h : d.IsReal) :
    dayOfDayNumber d.dayNumber = d.day := by
  unfold dayOfDayNumber
  rw [yearOfDayNumber_dayNumber h, monthOfDayNumber_dayNumber h, dayNumber_eq]
  omega

/-- **A real date is the date of its day number.** -/
theorem ofDayNumber_dayNumber {d : Date} (h : d.IsReal) : ofDayNumber d.dayNumber = d := by
  unfold ofDayNumber
  rw [yearOfDayNumber_dayNumber h, monthOfDayNumber_dayNumber h, dayOfDayNumber_dayNumber h]

theorem isReal_ofDayNumber (n : Int) : (ofDayNumber n).IsReal := by
  obtain ⟨d, hd, rfl⟩ := exists_dayNumber n
  rwa [ofDayNumber_dayNumber hd]

/-- **Every day number is that of its date.** -/
@[simp] theorem dayNumber_ofDayNumber (n : Int) : (ofDayNumber n).dayNumber = n := by
  obtain ⟨d, hd, rfl⟩ := exists_dayNumber n
  rw [ofDayNumber_dayNumber hd]

end Date

end Recurrence
