/-
Recurrence/Proofs/Series/Targets.lean

The targets that a series moves to.

A series of date-times takes every target as it is.  A series of dates takes a date-time for the
first whole date that is not before it (`Series.roundsTo_roundTarget`).
-/
import Recurrence.Proofs.Calendar.Gregorian
import Recurrence.Proofs.Calendar.ValueOrder
import Recurrence.Proofs.Series.Steps

namespace Recurrence

variable {s s' : Series} {target u : Value}

/-- What a target stands for: for date-times the target itself, and for dates the first whole
date that is not before it. -/
def Value.RoundsTo (timed : Bool) (target u : Value) : Prop :=
  if timed then u = target
  else IsLeast {d | d.IsReal ∧ d.hasTime = false ∧ target.instant ≤ d.instant} u

theorem Value.RoundsTo.isReal {timed : Bool} (h : target.RoundsTo timed u) (ht : target.IsReal) :
    u.IsReal := by
  cases timed with
  | true => exact (show u = target from h) ▸ ht
  | false => exact h.1.1

/-! ### Whole dates -/

theorem TimeOfDay.IsReal.seconds_pos {t : TimeOfDay} (ht : t.IsReal) (h : t ≠ .midnight) :
    0 < t.seconds := by
  by_contra hle
  obtain ⟨h1, -, h3, -, h5, -⟩ := ht
  obtain ⟨hour, minute, second⟩ := t
  simp only [seconds] at hle h1 h3 h5
  obtain ⟨rfl, rfl, rfl⟩ : hour = 0 ∧ minute = 0 ∧ second = 0 := by omega
  exact h rfl

namespace Value

theorem instant_ofDate (d : Date) : (ofDate d).instant = d.dayNumber * 86400 := Int.add_zero _

/-- A date is the least one at an instant or later if the midnight of no other lies between. -/
theorem isLeast_ofDate {d : Date} {m : Int} (hd : d.IsReal) (hlow : m ≤ d.dayNumber * 86400)
    (hleast : ∀ e : Date, m ≤ e.dayNumber * 86400 → d.dayNumber ≤ e.dayNumber) :
    IsLeast {u : Value | u.IsReal ∧ u.hasTime = false ∧ m ≤ u.instant} (ofDate d) := by
  have hreal : (ofDate d).IsReal := ⟨hd, by simp [ofDate]⟩
  refine ⟨⟨hreal, rfl, (instant_ofDate d).symm ▸ hlow⟩, ?_⟩
  rintro ⟨e, _ | t⟩ ⟨he, het, hle⟩
  · have hday := hleast e (instant_ofDate e ▸ hle)
    show ofDate d ≤ ofDate e
    rw [← not_lt]
    refine mt (lt_iff_instant he hreal rfl).mp ?_
    have hinstant := instant_ofDate d
    have hinstant' : (⟨e, none⟩ : Value).instant = e.dayNumber * 86400 := instant_ofDate e
    omega
  · exact absurd het (by simp [hasTime])

end Value

/-! ### Rounding -/

namespace Series

/-- A series that may move to a target at all takes one of its own kind. -/
theorem hasTime_roundTarget (hkind : s.hasTime = true → target.hasTime = true) :
    (s.roundTarget target).hasTime = s.hasTime := by
  obtain ⟨d, _ | t⟩ := target
  · cases ht : s.hasTime with
    | false => rfl
    | true => exact absurd (hkind ht) (by simp [Value.hasTime])
  · cases ht : s.hasTime with
    | true => simp [roundTarget, ht, Value.hasTime]
    | false =>
      unfold roundTarget
      dsimp only
      rw [ht, if_neg (by simp)]
      split_ifs <;> rfl

theorem roundTarget_of_timed (ht : s.hasTime = true) : s.roundTarget target = target := by
  obtain ⟨d, _ | t⟩ := target
  · rfl
  · simp [roundTarget, ht]

/-- A date is taken as it is, and so is a date-time if the series has times of day. -/
theorem roundTarget_of_kind (hkind : target.hasTime = true → s.hasTime = true) :
    s.roundTarget target = target := by
  obtain ⟨d, _ | t⟩ := target
  · rfl
  · exact roundTarget_of_timed (hkind rfl)

theorem SameRule.roundTarget (h : s.SameRule s') : s'.roundTarget = s.roundTarget := by
  funext target
  rw [Series.roundTarget, Series.roundTarget, h.hasTime]

/-- **A series rounds its targets** to what they stand for. -/
theorem roundsTo_roundTarget (s : Series) (ht : target.IsReal) :
    target.RoundsTo s.hasTime (s.roundTarget target) := by
  cases hs : s.hasTime with
  | true => exact roundTarget_of_timed hs
  | false =>
    show IsLeast _ _
    obtain ⟨d, _ | t⟩ := target
    · have hinstant : (⟨d, none⟩ : Value).instant = d.dayNumber * 86400 := Value.instant_ofDate d
      exact Value.isLeast_ofDate ht.1 hinstant.le fun e he => by omega
    · have hreal := ht.2 t rfl
      have hinstant : (⟨d, some t⟩ : Value).instant = d.dayNumber * 86400 + t.seconds := rfl
      have hbounds : 0 ≤ t.seconds ∧ t.seconds < 86400 := hreal.seconds_bounds
      unfold Series.roundTarget
      dsimp only
      rw [hs, if_neg (by simp)]
      split_ifs with hmidnight
      · have hzero : t.seconds = 0 := by rw [hmidnight]; rfl
        exact Value.isLeast_ofDate (d := d) ht.1 (by omega) fun e he => by omega
      · -- the next midnight is the first one at or after the target
        have hpos := hreal.seconds_pos hmidnight
        have hnext : (d.addDays 1).dayNumber = d.dayNumber + 1 := Date.dayNumber_ofDayNumber _
        exact Value.isLeast_ofDate (d := d.addDays 1) (Date.isReal_ofDayNumber _) (by omega)
          fun e he => by omega

end Series

end Recurrence
