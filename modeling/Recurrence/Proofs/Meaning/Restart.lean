/-
Recurrence/Proofs/Meaning/Restart.lean

A match can take the place of the start.

The start of a series sets the phase of its periods and the fields that the rule leaves open.
A match has the same phase and the same fields, so from there on it makes no difference which of
the two is called the start: the same values match (`Rule.Matches.congr_start`), and the years
that are stepped through are the same (`names_years_congr`).
-/
import Recurrence.Proofs.Meaning.Matches

namespace Recurrence

variable {r : Rule} {a b w : Value} {budget : Int}

/-! ### Fields that are left open -/

theorem ClockAgrees.congr_start {freq unit : Frequency} {ns : List Int} {x y z : Int}
    (h : ClockAgrees freq unit ns x y) :
    ClockAgrees freq unit ns x z ↔ ClockAgrees freq unit ns y z := by
  unfold ClockAgrees at h ⊢
  split_ifs at h ⊢ with hlisted
  · exact Iff.rfl
  · exact forall_congr' fun hfiner => by rw [h hfiner]

theorem Rule.AcceptsTime.congr_start {s t u : TimeOfDay} (h : r.AcceptsTime s t) :
    r.AcceptsTime s u ↔ r.AcceptsTime t u :=
  and_congr h.1.congr_start (and_congr h.2.1.congr_start h.2.2.congr_start)

theorem Rule.KeepsDate.congr_start {c d e : Date} (h : r.KeepsDate c d) :
    r.KeepsDate c e ↔ r.KeepsDate d e := by
  obtain ⟨hweekday, hday, hmonth⟩ := h
  refine and_congr ?_ (and_congr ?_ ?_)
  · exact forall_congr' fun hf => forall_congr' fun hnil => by rw [hweekday hf hnil]
  · exact forall_congr' fun hf => forall_congr' fun hopen => by rw [hday hf hopen]
  · exact forall_congr' fun hf => forall_congr' fun hopen => forall_congr' fun hnil => by
      rw [hmonth hf hopen hnil]

/-! ### Phases -/

theorem Rule.Phased.congr_start (h : r.Phased a b) : r.Phased a w ↔ r.Phased b w := by
  have hsplit : r.periodNumber w - r.periodNumber a =
      (r.periodNumber w - r.periodNumber b) + (r.periodNumber b - r.periodNumber a) := by omega
  rw [Rule.Phased, Rule.Phased, hsplit]
  exact Int.dvd_add_left h

theorem Rule.Phased.symm (h : r.Phased a b) : r.Phased b a :=
  h.congr_start.mp (by simp [Rule.Phased])

/-- Of two starts in phase with each other, both are in phase with what comes after them. -/
theorem Rule.InPhase.congr_start (h : r.InPhase a b) (hle : r.periodNumber b ≤ r.periodNumber w) :
    r.InPhase a w ↔ r.InPhase b w :=
  and_congr (iff_of_true (h.1.trans hle) hle) (Rule.Phased.congr_start h.2)

/-! ### Matches -/

/-- **A match can take the place of the start**: the same values from there on match. -/
theorem Rule.Matches.congr_start (h : r.Matches a b) (hle : b ≤ w) :
    r.Matches a w ↔ r.Matches b w := by
  obtain ⟨hreal, hkind, hphase, -, hkeeps, htime⟩ := h
  unfold Rule.Matches
  refine and_congr_right fun hw => ?_
  rw [hkind]
  refine and_congr_right fun hwkind => ?_
  have hmono : r.periodNumber b ≤ r.periodNumber w :=
    periodNumber_mono hreal hw (hkind.trans hwkind.symm) hle
  refine and_congr (hphase.congr_start hmono) (and_congr_right fun _ =>
    and_congr hkeeps.congr_start (forall_congr' fun t => forall_congr' fun ht => ?_))
  -- where one value has a time of day, the other has one too
  obtain ⟨u, hu⟩ : ∃ u, b.time = some u := by
    refine Option.isSome_iff_exists.mp (hkind.trans (hwkind.symm.trans ?_))
    rw [Value.hasTime, Option.mem_def.mp ht]
    rfl
  have hclock : b.timeOrMidnight = u := by rw [Value.timeOrMidnight, hu, Option.getD_some]
  rw [hclock]
  exact (htime u hu).congr_start

theorem Rule.Matches.admits (h : r.Matches a b) (ha : r.Admits a) : r.Admits b where
  valid := ha.valid
  real := h.1
  timed hsub := h.2.1.trans (ha.timed hsub)

/-! ### Years -/

theorem Rule.KeepsWeekday.congr_start (h : r.KeepsWeekday a b) :
    r.KeepsWeekday a w ↔ r.KeepsWeekday b w :=
  forall_congr' fun hf => forall_congr' fun hnil => by rw [h hf hnil]

theorem pacer_years_of_yearly (hf : r.freq = .yearly) : (r.years a budget).pacer = none := by
  show Plan.pacerOf r a _ _ _ _ _ = none
  unfold Plan.pacerOf
  simp only [hf, ite_self]

/-- Where a generator of years has no pacer, it steps through the years that a yearly rule has in
phase, or through all of them. -/
theorem names_iff_of_pacer_eq_none {y : Int} (h : (r.years a budget).pacer = none) :
    (r.years a budget).Names y ↔ (r.years a budget).interval ∣ y - (r.years a budget).year :=
  and_iff_left (by simp [h])

/-- The years of one start are those of another one in phase with it. -/
theorem names_years_of_names {y : Int} (ha : r.Admits a) (hb : r.Admits b) (hp : r.Phased a b)
    (hw : r.KeepsWeekday a b) (hy : (r.years a budget).Names y) : (r.years b budget).Names y := by
  cases hpacer : (r.years a budget).pacer with
  | some p =>
    -- a value of the year that is in phase with one start is in phase with the other
    obtain ⟨x, hx, -, rfl, hphase, hweekday⟩ :=
      (paces_years ha (by rw [hpacer]; rfl)).1.reached y (hy.2 p (by rw [hpacer]; rfl))
    exact names_years hb hx (hp.congr_start.mp hphase) (hw.congr_start.mp hweekday)
  | none =>
    by_cases hf : r.freq = .yearly
    · rw [names_iff_of_pacer_eq_none (pacer_years_of_yearly hf), years_phase_iff hf] at hy ⊢
      have hyears : r.interval ∣ b.date.year - a.date.year := by
        simpa only [Rule.Phased, Rule.periodNumber, periodNumber, hf] using hp
      have hsplit : y - b.date.year = (y - a.date.year) - (b.date.year - a.date.year) := by omega
      exact hsplit ▸ Int.dvd_sub hy hyears
    · have hone := interval_one_of_pacer ha hpacer hf
      rw [names_iff_of_pacer_eq_none (pacer_years_of_interval_one hone)]
      have hstep : (r.years b budget).interval = 1 := by
        simp only [Rule.years, YearStepper.start, if_neg hf]
      rw [hstep]
      exact Int.one_dvd _

theorem Rule.KeepsWeekday.symm (h : r.KeepsWeekday a b) : r.KeepsWeekday b a :=
  h.congr_start.mp fun _ _ => rfl

/-- **The years that are stepped through** are the same from either start. -/
theorem names_years_congr {y : Int} (ha : r.Admits a) (h : r.Matches a b) :
    (r.years a budget).Names y ↔ (r.years b budget).Names y := by
  obtain ⟨-, -, ⟨-, hp⟩, -, ⟨hw, -⟩, -⟩ := id h
  have hb := h.admits ha
  exact ⟨names_years_of_names ha hb hp hw, names_years_of_names hb ha (.symm hp) (.symm hw)⟩

end Recurrence
