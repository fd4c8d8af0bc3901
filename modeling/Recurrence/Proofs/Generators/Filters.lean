/-
Recurrence/Proofs/Generators/Filters.lean

What filters accept.

Filters look positions up in tables, and a position that no table has is an error.
On real values none occurs: every filter of a valid rule has an answer there
(`Filter.Decides`).  What it accepts (`Filter.Passes`) is said here for each kind
of filter without the detour through a table.
-/
import Recurrence.Expansion.Filter
import Recurrence.Proofs.Calendar.Ascending
import Recurrence.Proofs.Calendar.ValueOrder
import Recurrence.Proofs.Generators.Listers
import Recurrence.Rule.Meaning

namespace Recurrence.Filter

/-- A filter accepts a value. -/
def Passes (p : Filter) (v : Value) : Prop := p.accepts v = .ok true

/-- A filter has an answer for every real value. -/
def Decides (p : Filter) : Prop := ∀ v : Value, v.IsReal → ∃ b, p.accepts v = .ok b

variable {p : Filter} {ps : List Filter} {ns : List Int} {v : Value}

/-! ### Several filters -/

theorem acceptsAll_eq_ok_true : acceptsAll ps v = .ok true ↔ ∀ p ∈ ps, p.Passes v := by
  induction ps with
  | nil => simp [acceptsAll]
  | cons p ps ih =>
    rw [List.forall_mem_cons, ← ih, Passes, acceptsAll]
    split
    · rename_i h
      simp [h]
    · rename_i h
      constructor
      · intro hp
        exact absurd hp h
      · rintro ⟨hp, -⟩
        exact absurd hp h

theorem acceptsAll_decides (h : ∀ p ∈ ps, p.Decides) (hv : v.IsReal) :
    ∃ b, acceptsAll ps v = .ok b := by
  induction ps with
  | nil => exact ⟨true, by rw [acceptsAll]⟩
  | cons p ps ih =>
    rw [List.forall_mem_cons] at h
    obtain ⟨b, hb⟩ := h.1 v hv
    cases b with
    | true =>
      simp only [acceptsAll, hb]
      exact ih h.2
    | false => exact ⟨false, by simp only [acceptsAll, hb]⟩

@[simp] theorem passes_all : (all ps).Passes v ↔ ∀ p ∈ ps, p.Passes v := by
  rw [← acceptsAll_eq_ok_true, Passes, accepts]

theorem decides_all (h : ∀ p ∈ ps, p.Decides) : (all ps).Decides := by
  intro v hv
  rw [accepts]
  exact acceptsAll_decides h hv

@[simp] theorem passes_always : always.Passes v := by
  rw [Passes, accepts]

theorem decides_always : always.Decides := fun v _ => ⟨true, by rw [accepts]⟩

theorem passes_of_isAlways (h : p.isAlways = true) : p.Passes v := by
  cases p <;> first | exact passes_always | simp [isAlways] at h

/-- Several filters taken together accept what all of them accept. -/
@[simp] theorem passes_ofAll : (ofAll ps).Passes v ↔ ∀ p ∈ ps, p.Passes v := by
  have hfilter : (∀ p ∈ ps.filter fun p => !p.isAlways, p.Passes v) ↔ ∀ p ∈ ps, p.Passes v := by
    constructor
    · intro h p hp
      cases ha : p.isAlways with
      | true => exact passes_of_isAlways ha
      | false => exact h p (by simp [hp, ha])
    · intro h p hp
      exact h p (List.mem_filter.mp hp).1
  rw [← hfilter, ofAll]
  split
  · rename_i h
    simp [h]
  · rename_i h
    simp [h]
  · rw [passes_all]

theorem decides_ofAll (h : ∀ p ∈ ps, p.Decides) : (ofAll ps).Decides := by
  have hfilter : ∀ p ∈ ps.filter fun p => !p.isAlways, p.Decides :=
    fun p hp => h p (List.mem_filter.mp hp).1
  rw [ofAll]
  split
  · exact decides_always
  · rename_i p' heq
    exact hfilter p' (by rw [heq]; exact List.mem_singleton_self p')
  · exact decides_all hfilter

/-! ### Positions -/

/-- Positions that a calendar or a clock has are in every table. -/
theorem checkPosition_ok {n : Int} (h0 : 0 ≤ n) (h : n < Undefined.distant) :
    Undefined.checkPosition n = .ok () := by
  unfold Undefined.distant at h
  unfold Undefined.checkPosition Undefined.uncountable Undefined.distant
  rw [if_neg (by omega), if_neg (by omega), if_neg (by omega)]

theorem acceptsPosition_eq {n : Int} (h0 : 0 ≤ n) (h : n < Undefined.distant) :
    acceptsPosition ns n = .ok (ns.contains n) := by
  rw [acceptsPosition, checkPosition_ok h0 h]
  rfl

theorem acceptsMonthDay_eq {d : Date} (hd : d.IsReal) : acceptsMonthDay ns d =
    .ok (decide (Named ns (Gregorian.monthLength d.year d.month) d.day)) := by
  have hle := hd.day_le
  have hlen := (Gregorian.monthLength_bounds d.year d.month).2
  obtain ⟨-, -, h1, -⟩ := hd
  have hday : Undefined.checkPosition d.day = .ok () :=
    checkPosition_ok (by omega) (by unfold Undefined.distant; omega)
  have hend : Undefined.checkPosition (Gregorian.monthLength d.year d.month - d.day + 1) = .ok () :=
    checkPosition_ok (by omega) (by unfold Undefined.distant; omega)
  have hstart : (ns.any fun n => decide (0 < n) && n == d.day) = decide (d.day ∈ ns) := by
    rw [Bool.eq_iff_iff]
    simp only [List.any_eq_true, Bool.and_eq_true, decide_eq_true_eq, beq_iff_eq]
    constructor
    · rintro ⟨n, hn, -, rfl⟩
      exact hn
    · intro h
      exact ⟨_, h, by omega, rfl⟩
  have hback : (ns.any fun n => decide (n ≤ 0) &&
      -n == Gregorian.monthLength d.year d.month - d.day + 1) =
        decide (d.day - Gregorian.monthLength d.year d.month - 1 ∈ ns) := by
    rw [Bool.eq_iff_iff]
    simp only [List.any_eq_true, Bool.and_eq_true, decide_eq_true_eq, beq_iff_eq]
    constructor
    · rintro ⟨n, hn, -, h⟩
      rwa [show d.day - Gregorian.monthLength d.year d.month - 1 = n by omega]
    · intro h
      exact ⟨_, h, by omega, by omega⟩
  simp only [acceptsMonthDay, hday, hend, hstart, hback, Named]
  by_cases h : d.day ∈ ns
  · simp [h, bind, Except.bind, pure, Except.pure]
  · simp [h, bind, Except.bind, pure, Except.pure]

/-! ### Each kind of filter -/

theorem passes_monthDays (hv : v.date.IsReal) : (monthDays ns).Passes v ↔
    Named ns (Gregorian.monthLength v.date.year v.date.month) v.date.day := by
  rw [Passes, accepts, acceptsMonthDay_eq hv]
  simp

theorem decides_monthDays : (monthDays ns).Decides :=
  fun v hv => ⟨_, by rw [accepts, acceptsMonthDay_eq hv.1]⟩

theorem passes_yearDays : (yearDays ns).Passes v ↔
    Named ns (Gregorian.yearLength v.date.year) (v.date.dayOfYear + 1) := by
  rw [Passes, accepts]
  simp [acceptsYearDay, Named]

theorem decides_yearDays : (yearDays ns).Decides := fun v _ => ⟨_, by rw [accepts]⟩

theorem weekListed_iff {w : Gregorian.WeekOfYear} {weekStart : Int} :
    weekListed ns w weekStart = true ↔ Named ns (Gregorian.weeksInYear w.year weekStart) w.week := by
  simp [weekListed, Named]

theorem passes_weekNumbers {weekStart : Weekday} : (weekNumbers ns weekStart).Passes v ↔
    Named ns (Gregorian.weeksInYear (v.date.weekNumber weekStart.number).year weekStart.number)
      (v.date.weekNumber weekStart.number).week := by
  rw [Passes, accepts, ← weekListed_iff]
  simp

theorem decides_weekNumbers {weekStart : Weekday} : (weekNumbers ns weekStart).Decides :=
  fun v _ => ⟨_, by rw [accepts]⟩

theorem passes_weekdays {es : List WeekdayNum} {inYear : Bool} : (weekdays es inYear).Passes v ↔
    ∃ e ∈ es, entryAccepts inYear v.date e = true := by
  rw [Passes, accepts]
  simp

theorem decides_weekdays {es : List WeekdayNum} {inYear : Bool} : (weekdays es inYear).Decides :=
  fun v _ => ⟨_, by rw [accepts]⟩

theorem accepts_months (hv : v.date.IsReal) :
    (months ns).accepts v = .ok (ns.contains v.date.month) := by
  obtain ⟨h1, h12, -⟩ := hv
  rw [accepts, acceptsPosition_eq (by omega) (by unfold Undefined.distant; omega)]

theorem passes_months (hv : v.date.IsReal) : (months ns).Passes v ↔ v.date.month ∈ ns := by
  rw [Passes, accepts_months hv]
  simp

theorem decides_months : (months ns).Decides := fun _ hv => ⟨_, accepts_months hv.1⟩

theorem passes_weekInterval {interval firstWeek : Int} (hi : 1 ≤ interval) :
    (weekInterval interval firstWeek).Passes v ↔
      interval ∣ (v.date.dayNumber - firstWeek) / 7 := by
  rw [Passes, accepts, acceptsWeek, if_neg (by omega), Int.fmod_eq_emod_of_nonneg _ (by omega),
    Int.dvd_iff_emod_eq_zero, Except.ok.injEq, beq_iff_eq]

theorem decides_weekInterval {interval firstWeek : Int} (hi : 1 ≤ interval) :
    (weekInterval interval firstWeek).Decides :=
  fun v _ => ⟨_, by rw [accepts, acceptsWeek, if_neg (by omega)]⟩

/-! ### Times of day -/

/-- The fields of a real time of day are in their ranges. -/
theorem clock_bounds {t : TimeOfDay} {d : Date} (ht : t.IsReal) (unit : ClockField) :
    0 ≤ (Value.ofDateTime d t).timeField unit.field ∧
      (Value.ofDateTime d t).timeField unit.field < clockSize unit := by
  obtain ⟨h1, h2, h3, h4, h5, h6⟩ := ht
  cases unit with
  | hour => exact ⟨h1, h2⟩
  | minute => exact ⟨h3, h4⟩
  | second => exact ⟨h5, h6⟩

theorem accepts_clock {d : Date} {t : TimeOfDay} (ht : t.IsReal) {unit : ClockField} :
    (clock unit ns).accepts (.ofDateTime d t) =
      .ok (ns.contains ((Value.ofDateTime d t).timeField unit.field)) := by
  obtain ⟨h0, hlt⟩ := clock_bounds (d := d) ht unit
  have : clockSize unit ≤ 60 := by cases unit <;> decide
  have htime : (Value.ofDateTime d t).hasTime = true := rfl
  rw [accepts, if_pos htime, acceptsPosition_eq h0 (by unfold Undefined.distant; omega)]

theorem passes_clock {d : Date} {t : TimeOfDay} (ht : t.IsReal) {unit : ClockField} :
    (clock unit ns).Passes (.ofDateTime d t) ↔ (Value.ofDateTime d t).timeField unit.field ∈ ns := by
  rw [Passes, accepts_clock ht]
  simp

theorem decides_clock {unit : ClockField} : (clock unit ns).Decides := by
  rintro ⟨d, _ | t⟩ hv
  · exact ⟨true, by rw [accepts, if_neg (by simp [Value.hasTime])]⟩
  · exact ⟨_, accepts_clock (hv.2 t rfl)⟩

/-- A restriction that lists all values of a field accepts all real times of day, as it
should. -/
theorem passes_ofClock {d : Date} {t : TimeOfDay} (ht : t.IsReal) {unit : ClockField} :
    (ofClock unit ns).Passes (.ofDateTime d t) ↔
      (Value.ofDateTime d t).timeField unit.field ∈ ns := by
  rw [ofClock]
  split_ifs with h
  · obtain ⟨h0, hlt⟩ := clock_bounds (d := d) ht unit
    rw [iff_true_left passes_always, ← mem_ascendingInts, h, List.mem_map]
    exact ⟨((Value.ofDateTime d t).timeField unit.field).toNat, by rw [List.mem_range]; omega,
      by omega⟩
  · exact passes_clock ht

theorem decides_ofClock {unit : ClockField} : (ofClock unit ns).Decides := by
  rw [ofClock]
  split_ifs
  · exact decides_always
  · exact decides_clock

end Recurrence.Filter
