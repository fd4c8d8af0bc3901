/-
Recurrence/Proofs/Moment/Instants.lean

When a moment is.

Moments are told in microseconds: as instants of UTC, or by what a clock shows beside them, a date
being its midnight.  Instances have whole seconds, so a bound has to become a value before it is
compared with them.  Turning it into UTC cuts its microseconds off (`Moment.toUtcValue_spec`), and
for a series of dates it is rounded up to a whole date (`Moment.dateBound_le_iff`).
-/
import Recurrence.Moment.Occurrences
import Recurrence.Proofs.Calendar.Shifts
import Recurrence.Proofs.Series.Targets

namespace Recurrence

namespace Moment

variable {m : Moment} {zone : Zone} {u : Value}

/-- The microseconds of a moment beside its whole second. -/
def micros : Moment → Int
  | date _ => 0
  | dateTime _ _ micros _ => micros

/-- Whether a moment is one of a calendar with the years 1 to 9999. -/
def Representable (m : Moment) : Prop :=
  m.toValue.Representable ∧ 0 ≤ m.micros ∧ m.micros < 1000000

instance (m : Moment) : Decidable m.Representable := by unfold Representable; infer_instance

/-- What a clock shows at a moment, in microseconds; a date is its midnight. -/
def shown (m : Moment) : Int := m.toValue.instant * 1000000 + m.micros

/-- The UTC instant of a moment in microseconds, if it is in a zone where it has none of its own; a
date is its midnight in any zone. -/
def instantIn (m : Moment) (zone : Zone) : Int :=
  match m with
  | date _ => m.shown
  | dateTime d t _ own => m.shown - (own.getD zone).offsetAtLocal (instantOf d t) * 1000000

/-- Where a moment lies among the instances of a series: date-times are compared as instants, but
for dates only the clock counts. -/
def position (timed : Bool) (zone : Zone) (m : Moment) : Int :=
  if timed then m.instantIn zone else m.shown

/-- Whether a moment lies in a window from its beginning up to but not including its end. -/
def InWindow (m : Moment) (timed : Bool) (zone : Zone) (beginning ending : Moment) : Prop :=
  beginning.position timed zone ≤ m.position timed zone ∧
    m.position timed zone < ending.position timed zone

instance (m : Moment) (timed : Bool) (zone : Zone) (beginning ending : Moment) :
    Decidable (m.InWindow timed zone beginning ending) := by unfold InWindow; infer_instance

@[simp] theorem hasTime_toValue (m : Moment) : m.toValue.hasTime = m.hasTime := by
  cases m <;> rfl

/-- Only a date-time has a zone. -/
theorem eq_dateTime_of_zone? {own : Zone} (h : m.zone? = some own) :
    ∃ d t micros, m = dateTime d t micros (some own) := by
  cases m with
  | date d => exact absurd h (by simp [zone?])
  | dateTime d t micros z => exact ⟨d, t, micros, congrArg _ h⟩

/-- Zones are ahead by whole seconds, so an instant has the microseconds that the clock shows. -/
theorem exists_instantIn_eq (m : Moment) (zone : Zone) :
    ∃ t, m.instantIn zone = t * 1000000 + m.micros := by
  cases m with
  | date d => exact ⟨_, rfl⟩
  | dateTime d t micros own =>
    refine ⟨instantOf d t - (own.getD zone).offsetAtLocal (instantOf d t), ?_⟩
    show instantOf d t * 1000000 + micros - _ * 1000000 = _ * 1000000 + micros
    rw [Int.sub_mul]
    omega

/-- In its own zone, or where it has none, a date-time is behind its clock by the offset there. -/
theorem instantIn_of_zone (ht : m.hasTime = true) (hown : ∀ own, m.zone? = some own → own = zone) :
    m.instantIn zone = m.shown - zone.offsetAtLocal m.toValue.instant * 1000000 := by
  cases m with
  | date d => exact absurd ht (by simp [hasTime])
  | dateTime d t micros own =>
    have hzone : own.getD zone = zone := by
      cases own with
      | none => rfl
      | some own => exact hown own rfl
    show _ - (own.getD zone).offsetAtLocal _ * 1000000 = _
    rw [hzone]
    rfl

end Moment

/-! ### Values as moments -/

namespace Value

variable {v : Value} {m : Moment} {timed : Bool}

/-- A value as a moment, its time of day in UTC. -/
def moment (v : Value) : Moment :=
  match v.time with
  | none => .date v.date
  | some t => .dateTime v.date t 0 (some .utc)

@[simp] theorem micros_moment (v : Value) : v.moment.micros = 0 := by
  unfold moment
  cases v.time <;> rfl

theorem toMoment_eq_ok_iff : v.toMoment = .ok m ↔ v.Representable ∧ m = v.moment := by
  unfold toMoment
  rw [bind_eq_ok_iff]
  constructor
  · rintro ⟨w, hw, hm⟩
    obtain ⟨rfl, hv⟩ := check_eq_ok_iff.mp hw
    exact ⟨hv, (Except.ok.inj hm).symm⟩
  · rintro ⟨hv, rfl⟩
    exact ⟨v, check_eq_ok_iff.mpr ⟨rfl, hv⟩, rfl⟩

theorem instant_of_untimed (h : v.hasTime = false) : v.instant = v.date.dayNumber * 86400 := by
  obtain ⟨d, _ | t⟩ := v
  · exact instant_ofDate d
  · exact absurd h (by simp [hasTime])

/-- The date of a value is less than a day before it. -/
theorem instant_withoutTime (hv : v.IsReal) :
    v.withoutTime.instant ≤ v.instant ∧ v.instant < v.withoutTime.instant + 86400 := by
  have hbounds : 0 ≤ v.timeOrMidnight.seconds ∧ v.timeOrMidnight.seconds < 86400 :=
    (timeOrMidnight_isReal hv).seconds_bounds
  have hdate : v.withoutTime.instant = v.date.dayNumber * 86400 := instant_ofDate v.date
  have hinstant : v.instant = v.date.dayNumber * 86400 + v.timeOrMidnight.seconds := rfl
  omega

/-- An instance lies at its instant among the others, wherever the series is expanded. -/
theorem position_moment (h : v.hasTime = timed) (zone : Zone) :
    v.moment.position timed zone = v.instant * 1000000 := by
  obtain ⟨d, _ | t⟩ := v
  · subst h
    show (Moment.date d).shown = _
    exact Int.add_zero _
  · subst h
    show (Moment.dateTime d t 0 (some .utc)).shown - 0 * 1000000 = _
    rw [Int.zero_mul, Int.sub_zero]
    exact Int.add_zero _

end Value

/-! ### Fields in another zone -/

section Fields

variable {d d' : Date} {t t' : TimeOfDay} {n : Int} {z : Zone}

/-- Fields that have been moved by some seconds are those of a value in the years 1 to 9999. -/
theorem shiftWithinYears_spec (hreal : (Value.ofDateTime d t).IsReal)
    (h : shiftWithinYears d t n = .ok (d', t')) : (Value.ofDateTime d' t').Representable ∧
      instantOf d' t' = instantOf d t + n := by
  unfold shiftWithinYears at h
  dsimp only at h
  split_ifs at h with hyears
  obtain ⟨rfl, rfl⟩ := Prod.mk.inj (Except.ok.inj h)
  obtain ⟨hreal', -, hinstant⟩ := Value.addSeconds_spec hreal rfl n
  exact ⟨⟨hreal', hyears⟩, hinstant⟩

theorem Zone.toUtcFields_spec (hreal : (Value.ofDateTime d t).IsReal)
    (h : z.toUtcFields d t = .ok (d', t')) : (Value.ofDateTime d' t').Representable ∧
      instantOf d' t' = instantOf d t - z.offsetAtLocal (instantOf d t) := by
  obtain ⟨offset, hoffset, hshift⟩ := bind_eq_ok_iff.mp h
  unfold checkOffset at hoffset
  split_ifs at hoffset
  obtain rfl := Except.ok.inj hoffset
  exact shiftWithinYears_spec hreal hshift

/-- Fields are not turned into UTC by a day or more. -/
theorem Zone.offset_bounds_of_toUtcFields (h : z.toUtcFields d t = .ok (d', t')) :
    -86400 < z.offsetAtLocal (instantOf d t) ∧ z.offsetAtLocal (instantOf d t) < 86400 := by
  obtain ⟨offset, hoffset, -⟩ := bind_eq_ok_iff.mp h
  unfold checkOffset at hoffset
  split_ifs at hoffset with hbounds
  exact hbounds

theorem Zone.fromUtcFields_spec (hreal : (Value.ofDateTime d t).IsReal)
    (h : z.fromUtcFields d t = .ok (d', t')) : (Value.ofDateTime d' t').Representable ∧
      instantOf d' t' = instantOf d t + z.offsetAtInstant (instantOf d t) :=
  shiftWithinYears_spec hreal h

end Fields

namespace Moment

variable {m : Moment} {zone : Zone} {u : Value}

/-- **A bound in UTC** is what its moment is without the microseconds. -/
theorem toUtcValue_spec (h : m.Representable) (hu : m.toUtcValue zone = .ok u) : u.Representable ∧
    u.hasTime = m.hasTime ∧ m.instantIn zone = u.instant * 1000000 + m.micros := by
  cases m with
  | date d =>
    obtain rfl := Except.ok.inj hu
    exact ⟨h.1, rfl, rfl⟩
  | dateTime d t micros own =>
    obtain ⟨⟨d', t'⟩, hfields, hu⟩ := bind_eq_ok_iff.mp hu
    obtain rfl := Except.ok.inj hu
    obtain ⟨hreal, hinstant⟩ := Zone.toUtcFields_spec h.1.1 hfields
    refine ⟨hreal, rfl, ?_⟩
    show instantOf d t * 1000000 + micros - (own.getD zone).offsetAtLocal (instantOf d t) * 1000000 =
      instantOf d' t' * 1000000 + micros
    rw [hinstant, Int.sub_mul]
    omega

/-- Whether a moment has a UTC value in the years 1 to 9999. -/
def InUtc (m : Moment) (zone : Zone) : Prop := ∃ u, m.toUtcValue zone = .ok u

/-- A date-time that has a zone already is moved to it, or to another zone by way of UTC. -/
theorem inZone_cases {d : Date} {t : TimeOfDay} {micros : Int} {own : Zone}
    (h : (dateTime d t micros (some own)).inZone zone = .ok m) :
    (m = dateTime d t micros (some own) ∧ own = zone) ∨ ∃ du tu d' t',
      own.toUtcFields d t = .ok (du, tu) ∧ zone.fromUtcFields du tu = .ok (d', t') ∧
        m = dateTime d' t' micros (some zone) := by
  unfold inZone at h
  dsimp only at h
  split_ifs at h with hutc
  · exact .inl ⟨(Except.ok.inj h).symm, hutc.1.trans hutc.2.symm⟩
  · obtain ⟨⟨du, tu⟩, hto, h⟩ := bind_eq_ok_iff.mp h
    obtain ⟨⟨d', t'⟩, hfrom, h⟩ := bind_eq_ok_iff.mp h
    exact .inr ⟨du, tu, d', t', hto, hfrom, (Except.ok.inj h).symm⟩

/-! ### Whole dates -/

theorem isReal_dateBound (h : m.Representable) : m.dateBound.IsReal := by
  cases m with
  | date d => exact h.1.1.1
  | dateTime d t micros own =>
    simp only [dateBound]
    split_ifs
    · exact h.1.1.1
    · exact Date.isReal_ofDayNumber _

/-- The whole date of a bound is the first whose midnight is not before it. -/
theorem dateBound_le_iff (h : m.Representable) (n : Int) :
    m.dateBound.dayNumber ≤ n ↔ m.shown ≤ n * 86400 * 1000000 := by
  cases m with
  | date d =>
    have hshown : (date d).shown = d.dayNumber * 86400 * 1000000 := by
      show (Value.ofDate d).instant * 1000000 + 0 = _
      rw [Value.instant_ofDate, Int.add_zero]
    rw [hshown]
    show d.dayNumber ≤ n ↔ _
    omega
  | dateTime d t micros own =>
    obtain ⟨⟨⟨-, ht⟩, -⟩, hlow, hhigh⟩ := h
    have ht : t.IsReal := ht t rfl
    have hshown : (dateTime d t micros own).shown =
        (d.dayNumber * 86400 + t.seconds) * 1000000 + micros := rfl
    have hbounds : 0 ≤ t.seconds ∧ t.seconds < 86400 := ht.seconds_bounds
    change 0 ≤ micros at hlow
    change micros < 1000000 at hhigh
    rw [hshown]
    simp only [dateBound]
    split_ifs with hmidnight
    · obtain ⟨rfl, rfl⟩ := hmidnight
      have hzero : TimeOfDay.midnight.seconds = 0 := rfl
      rw [hzero]
      omega
    · -- past midnight, so the next one is the first
      have hpast : 0 < t.seconds ∨ 0 < micros := by
        rcases eq_or_ne t .midnight with heq | hne
        · have : micros ≠ 0 := fun hzero => hmidnight ⟨heq, hzero⟩
          omega
        · exact .inl (ht.seconds_pos hne)
      have hnext : (d.addDays 1).dayNumber = d.dayNumber + 1 := Date.dayNumber_ofDayNumber _
      omega

end Moment

end Recurrence
