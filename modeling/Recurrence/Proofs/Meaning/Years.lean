/-
Recurrence/Proofs/Meaning/Years.lean

The years of a plan.

A plan steps through the years of a yearly rule itself, and lets the generator of its
own unit pace the years of any other rule with an interval.  Either way the years
that it steps through are those that hold a value in phase: no year with a match is
passed over, and none that is counted against the budget is out of phase.
-/
import Recurrence.Proofs.Meaning.Fields

namespace Recurrence

variable {r : Rule} {start v : Value} {budget : Int}

/-- A weekly rule without weekdays keeps the start's. -/
def Rule.KeepsWeekday (r : Rule) (start v : Value) : Prop :=
  r.freq = .weekly → r.byDay = [] → v.date.weekday = start.date.weekday

/-! ### Pacers -/

/-- A pacer that names the years that hold a value in phase. -/
structure Paces (r : Rule) (start : Value) (p : Pacer) : Prop where
  interval_pos : 1 ≤ p.interval
  holds : ∀ v : Value, v.IsReal → r.Phased start v → r.KeepsWeekday start v →
    p.HoldsSlot v.date.year
  reached : ∀ year, p.HoldsSlot year → ∃ v : Value, v.IsReal ∧ v.hasTime = start.hasTime ∧
    v.date.year = year ∧ r.Phased start v ∧ r.KeepsWeekday start v

/-- A stepper paces a rule if it is in phase with the rule. -/
theorem paces_slots {u : StepUnit} {interval : Int} {s : Value} (hi : 1 ≤ interval)
    (htimed : start.hasTime = false → u = .month ∨ u = .day)
    (hphase : ∀ v, interval ∣ u.numberOf v - u.numberOf s ↔
      r.Phased start v ∧ r.KeepsWeekday start v) :
    Paces r start (.slots (.start u interval s)) := by
  have hlast : ∀ n, interval ∣ n - (Stepper.start u interval s).last ↔
      interval ∣ n - u.numberOf s := by
    intro n
    have : n - (Stepper.start u interval s).last = (n - u.numberOf s) + interval := by
      simp only [Stepper.start, StepUnit.numberOf]
      omega
    rw [this]
    exact Int.dvd_add_left (Int.dvd_refl _)
  refine ⟨hi, ?_, ?_⟩
  · intro v hv hp hw
    exact ⟨u.numberOf v, (hlast _).mpr ((hphase v).mpr ⟨hp, hw⟩), u.yearOf_numberOf hv⟩
  · rintro year ⟨n, hn, rfl⟩
    obtain ⟨v, hv, ht, rfl⟩ := u.exists_numberOf n start.hasTime htimed
    exact ⟨v, hv, ht, (u.yearOf_numberOf hv).symm, (hphase v).mp ((hlast _).mp hn)⟩

/-- The weeks of a rule pace it. -/
theorem paces_weeks (hi : 1 ≤ r.interval) (hf : r.freq = .weekly) (hdays : r.byDay ≠ []) :
    Paces r start (.weeks (.start r.interval r.weekStart start)) := by
  refine ⟨hi, ?_, ?_⟩
  · intro v hv hp _
    obtain ⟨k, hk⟩ := (phased_iff_week hf).mp hp
    refine ⟨Gregorian.weekStart v.date.dayNumber r.weekStart.number, ⟨k, ?_⟩, v.date.dayNumber, ?_,
      ?_, Date.yearOfDayNumber_dayNumber hv.1⟩
    · show _ - Gregorian.weekStart start.date.dayNumber r.weekStart.number = 7 * r.interval * k
      rw [Int.mul_assoc, ← hk]
      simp only [Gregorian.weekStart]
      omega
    · simp only [Gregorian.weekStart]
      omega
    · simp only [Gregorian.weekStart]
      omega
  · rintro year ⟨week, ⟨k, hk⟩, n, hn, hn', rfl⟩
    obtain ⟨v, hv, ht, rfl⟩ := StepUnit.day.exists_numberOf n start.hasTime
      fun _ => .inr rfl
    rw [StepUnit.numberOf_day] at hn hn' ⊢
    refine ⟨v, hv, ht, (Date.yearOfDayNumber_dayNumber hv.1).symm, (phased_iff_week hf).mpr ⟨k, ?_⟩,
      fun _ hnil => absurd hnil hdays⟩
    have hk : week - Gregorian.weekStart start.date.dayNumber r.weekStart.number =
        7 * r.interval * k := hk
    rw [Int.mul_assoc] at hk
    omega

/-! ### The years of a rule -/

/-- The generator of the years of a rule. -/
def Rule.years (r : Rule) (start : Value) (budget : Int) : YearStepper :=
  { YearStepper.start (if r.freq = .yearly then r.interval else 1) (r.listStart start) budget with
    pacer := Plan.pacerOf r start (monthGenerator r start (r.listStart start)).1
      (dayGenerator r start (r.listStart start)) (timeGenerator r .hour start (r.listStart start)).1
      (timeGenerator r .minute start (r.listStart start)).1
      (timeGenerator r .second start (r.listStart start)).1 }

theorem pacer?_steppedFrom (u : StepUnit) (interval : Int) (s : Value) :
    (steppedFrom u interval s).pacer? = some (.slots (.start u interval s)) := rfl

/-- The generator of a rule's own time field is what paces it. -/
theorem pacer?_clock (field : ClockField) (hf : r.freq = field.frequency) (hi : r.interval ≠ 1) :
    (timeGenerator r field start (r.listStart start)).1.pacer? =
      some (.slots (.start field.unit r.interval start)) := by
  simp only [timeGenerator, if_pos hf, if_neg hi]
  split_ifs <;> rfl

/-- What paces the years of a rule whose interval is not one: the generator of its own unit. -/
def Rule.unitPacer (r : Rule) (start : Value) : Option Pacer :=
  match r.freq with
  | .yearly => none
  | .monthly => some (.slots (.start .month r.interval (r.listStart start)))
  | .weekly =>
    if r.byDay = [] then some (.slots (.start .day (7 * r.interval) start))
    else some (.weeks (.start r.interval r.weekStart start))
  | .daily => some (.slots (.start .day r.interval start))
  | .hourly => some (.slots (.start .hour r.interval start))
  | .minutely => some (.slots (.start .minute r.interval start))
  | .secondly => some (.slots (.start .second r.interval start))

theorem Rule.unitPacer_eq_none_iff : r.unitPacer start = none ↔ r.freq = .yearly := by
  unfold Rule.unitPacer
  cases r.freq <;> simp [ite_eq_iff]

theorem pacer_years_of_interval_one (hi : r.interval = 1) : (r.years start budget).pacer = none :=
  if_pos hi

theorem pacer_years (h : r.Admits start) (hi : r.interval ≠ 1) :
    (r.years start budget).pacer = r.unitPacer start := by
  have hlt : 1 < r.interval := by
    have := h.interval_pos
    omega
  refine (if_neg hi).trans ?_
  unfold Rule.unitPacer
  cases hf : r.freq with
  | yearly => rfl
  | monthly =>
    simp only [monthGenerator, hf, hlt, and_self, if_true, reduceCtorEq, false_and, if_false]
    split_ifs <;> rfl
  | weekly =>
    simp only [List.isEmpty_iff]
    split_ifs with hnil
    · simp [dayGenerator, drivingDayPart, hf, hnil, defaultDayGenerator, pacer?_steppedFrom]
    · rfl
  | daily => simp [dayGenerator, drivingDayPart, hf, hlt, defaultDayGenerator, pacer?_steppedFrom]
  | hourly => exact pacer?_clock .hour hf hi
  | minutely => exact pacer?_clock .minute hf hi
  | secondly => exact pacer?_clock .second hf hi

/-- The slots of a time field pace a rule of its unit. -/
theorem paces_clock (h : r.Admits start) (field : ClockField) (hf : r.freq = field.frequency) :
    Paces r start (.slots (.start field.unit r.interval start)) := by
  -- they need a start with a time, which rules below days have
  have hsub : r.freq.isSubDaily = true := by
    rw [hf]
    cases field <;> rfl
  refine paces_slots h.interval_pos (fun ht => ?_) fun v => ?_
  · rw [h.timed hsub] at ht
    exact absurd ht (by simp)
  · rw [← phased_iff_clock hf, Rule.KeepsWeekday, hf]
    cases field <;> simp [ClockField.frequency]

theorem paces_unitPacer (h : r.Admits start) {p : Pacer} (hp : p ∈ r.unitPacer start) :
    Paces r start p := by
  have hi := h.interval_pos
  unfold Rule.unitPacer at hp
  cases hf : r.freq with
  | yearly => simp [hf] at hp
  | monthly =>
    simp only [hf] at hp
    obtain rfl := Option.some.inj hp
    refine paces_slots hi (fun _ => .inl rfl) fun v => ?_
    simp only [Rule.KeepsWeekday, hf, reduceCtorEq, false_implies, and_true]
    exact (phased_iff_month h hf).symm
  | weekly =>
    simp only [hf] at hp
    split_ifs at hp with hnil
    · obtain rfl := Option.some.inj hp
      refine paces_slots (by omega) (fun _ => .inr rfl) fun v => ?_
      rw [StepUnit.numberOf_day, StepUnit.numberOf_day, weekly_phase_iff r.weekStart.number,
        ← weekday_eq_weekday_iff]
      simp [Rule.Phased, Rule.periodNumber, periodNumber, Rule.KeepsWeekday, hf, hnil]
    · obtain rfl := Option.some.inj hp
      exact paces_weeks hi hf hnil
  | daily =>
    simp only [hf] at hp
    obtain rfl := Option.some.inj hp
    refine paces_slots hi (fun _ => .inr rfl) fun v => ?_
    rw [StepUnit.numberOf_day, StepUnit.numberOf_day]
    simp [Rule.Phased, Rule.periodNumber, periodNumber, Rule.KeepsWeekday, hf]
  | hourly =>
    simp only [hf] at hp
    exact Option.some.inj hp ▸ paces_clock h .hour hf
  | minutely =>
    simp only [hf] at hp
    exact Option.some.inj hp ▸ paces_clock h .minute hf
  | secondly =>
    simp only [hf] at hp
    exact Option.some.inj hp ▸ paces_clock h .second hf

/-- **The pacer of a rule** names the years that hold a value in phase; only rules that
step through all years have one. -/
theorem paces_years (h : r.Admits start) {p : Pacer} (hp : p ∈ (r.years start budget).pacer) :
    Paces r start p ∧ r.freq ≠ .yearly := by
  by_cases hi : r.interval = 1
  · rw [pacer_years_of_interval_one hi] at hp
    exact absurd hp (by simp)
  · rw [pacer_years h hi] at hp
    refine ⟨paces_unitPacer h hp, fun hf => ?_⟩
    rw [Rule.unitPacer_eq_none_iff.mpr hf] at hp
    exact absurd hp (by simp)

/-- The phase of the years is that of a yearly rule. -/
theorem years_phase_iff {year : Int} (hf : r.freq = .yearly) :
    (r.years start budget).interval ∣ year - (r.years start budget).year ↔
      r.interval ∣ year - start.date.year := by
  have hstart : (r.listStart start).date.year = start.date.year := by
    unfold Rule.listStart Series.listStart
    split_ifs
    · rfl
    · cases r.freq <;> rfl
  have : year - (r.years start budget).year = (year - start.date.year) + r.interval := by
    simp only [Rule.years, YearStepper.start, hf, if_true, hstart]
    omega
  rw [this]
  simp only [Rule.years, YearStepper.start, hf, if_true]
  exact Int.dvd_add_left (Int.dvd_refl _)

/-- **No year with a value in phase is passed over.** -/
theorem names_years (h : r.Admits start) (hv : v.IsReal) (hp : r.Phased start v)
    (hw : r.KeepsWeekday start v) : (r.years start budget).Names v.date.year := by
  refine ⟨?_, fun p hmem => (paces_years h hmem).1.holds v hv hp hw⟩
  by_cases hf : r.freq = .yearly
  · rw [years_phase_iff hf]
    simpa only [Rule.Phased, Rule.periodNumber, periodNumber, hf] using hp
  · have : (r.years start budget).interval = 1 := by
      simp only [Rule.years, YearStepper.start, if_neg hf]
    rw [this]
    exact Int.one_dvd _

/-- A yearly rule keeps its phase by the years alone. -/
theorem phased_of_names_years (hf : r.freq = .yearly)
    (h : (r.years start budget).Names v.date.year) : r.Phased start v := by
  simp only [Rule.Phased, Rule.periodNumber, periodNumber, hf]
  exact (years_phase_iff hf).mp h.1

/-- A rule that steps through all years has a pacer unless all periods count. -/
theorem interval_one_of_pacer (h : r.Admits start) (hp : (r.years start budget).pacer = none)
    (hf : r.freq ≠ .yearly) : r.interval = 1 := by
  by_contra hi
  rw [pacer_years h hi] at hp
  exact hf (Rule.unitPacer_eq_none_iff.mp hp)

/-- **No year is counted that holds no value in phase.** -/
theorem exists_inPhase_of_names (h : r.Admits start) {year : Int}
    (hy : (r.years start budget).Names year) (hle : start.date.year ≤ year) :
    ∃ v : Value, v.IsReal ∧ v.hasTime = start.hasTime ∧ v.date.year = year ∧ r.InPhase start v := by
  rcases hle.lt_or_eq with hlt | rfl
  · -- a later year: whatever in it is in phase comes after the start
    suffices hex : ∃ v : Value, v.IsReal ∧ v.hasTime = start.hasTime ∧ v.date.year = year ∧
        r.Phased start v by
      obtain ⟨v, hv, ht, rfl, hp⟩ := hex
      refine ⟨v, hv, ht, rfl, ?_, hp⟩
      refine periodNumber_mono h.real hv ht.symm (le_of_lt ?_)
      rw [Value.lt_iff_key ht.symm]
      exact List.cons_lt_cons_iff.mpr (.inl hlt)
    -- where every value is in phase, one on the first of January is
    have hfirst : (⟨year, 1, 1⟩ : Date).IsReal := Date.isReal_first le_rfl (by decide)
    have hfree : r.Phased start ⟨⟨year, 1, 1⟩, start.time⟩ → ∃ v : Value, v.IsReal ∧
        v.hasTime = start.hasTime ∧ v.date.year = year ∧ r.Phased start v :=
      fun hp => ⟨⟨⟨year, 1, 1⟩, start.time⟩, ⟨hfirst, h.real.2⟩, rfl, rfl, hp⟩
    cases hp : (r.years start budget).pacer with
    | some p =>
      obtain ⟨v, hv, ht, hyear, hphase, -⟩ :=
        (paces_years h (by rw [hp]; rfl)).1.reached year (hy.2 p (by rw [hp]; rfl))
      exact ⟨v, hv, ht, hyear, hphase⟩
    | none =>
      by_cases hf : r.freq = .yearly
      · exact hfree (phased_of_names_years hf hy)
      · exact hfree (phased_of_interval_one (interval_one_of_pacer h hp hf))
  · exact ⟨start, h.real, rfl, rfl, le_rfl, by simp⟩

end Recurrence
