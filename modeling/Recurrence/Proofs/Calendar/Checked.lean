/-
Recurrence/Proofs/Calendar/Checked.lean

Values of the years 1 to 9999.

Checking fields is refusing them, never changing them: what passes is real, lies in those years, and
is given back as it is.
-/
import Recurrence.Calendar.Zone
import Recurrence.Proofs.Calendar.Gregorian
import Recurrence.Proofs.Outcomes

namespace Recurrence

/-- Whether a value is a date or date-time of the years 1 to 9999. -/
def Value.Representable (v : Value) : Prop := v.IsReal ∧ 1 ≤ v.date.year ∧ v.date.year ≤ 9999

instance (v : Value) : Decidable v.Representable := by unfold Value.Representable; infer_instance

theorem Date.check_eq_ok_iff {d d' : Date} :
    d.check = .ok d' ↔ d' = d ∧ d.IsReal ∧ 1 ≤ d.year ∧ d.year ≤ 9999 := by
  unfold Date.check
  have hword : d.IsReal ∧ 1 ≤ d.year ∧ d.year ≤ 9999 →
      fitsWord d.year ∧ fitsWord d.month ∧ fitsWord d.day := by
    rintro ⟨⟨h1, h12, h1d, hd⟩, hlow, hhigh⟩
    have hmonth := Gregorian.monthLengthWithin_bounds d.year d.month
    simp only [fitsWord, Bool.and_eq_true, decide_eq_true_eq]
    omega
  by_cases hfits : fitsWord d.year ∧ fitsWord d.month ∧ fitsWord d.day
  swap
  · rw [if_pos hfits]
    exact iff_of_false (by simp) fun h => hfits (hword h.2)
  rw [if_neg (not_not.mpr hfits)]
  split_ifs with hreal
  · exact ⟨fun h => ⟨(Except.ok.inj h).symm, hreal.2.2, hreal.1, hreal.2.1⟩, fun h => h.1 ▸ rfl⟩
  · exact iff_of_false (by simp) fun h => hreal ⟨h.2.2.1, h.2.2.2, h.2.1⟩

theorem checkDateTime_eq_ok_iff {d : Date} {t : TimeOfDay} {dt : Date × TimeOfDay} :
    checkDateTime d t = .ok dt ↔ dt = (d, t) ∧ d.IsReal ∧ 1 ≤ d.year ∧ d.year ≤ 9999 ∧ t.IsReal := by
  unfold checkDateTime
  have hword : t.IsReal → fitsWord t.hour ∧ fitsWord t.minute ∧ fitsWord t.second := by
    rintro ⟨h1, h2, h3, h4, h5, h6⟩
    simp only [fitsWord, Bool.and_eq_true, decide_eq_true_eq]
    omega
  by_cases hfits : fitsWord t.hour ∧ fitsWord t.minute ∧ fitsWord t.second
  swap
  · rw [if_pos hfits]
    exact iff_of_false (by simp) fun h => hfits (hword h.2.2.2.2)
  rw [if_neg (not_not.mpr hfits), bind_eq_ok_iff]
  simp only [Date.check_eq_ok_iff]
  constructor
  · rintro ⟨_, ⟨rfl, hreal, hlow, hhigh⟩, h⟩
    split_ifs at h with ht
    exact ⟨(Except.ok.inj h).symm, hreal, hlow, hhigh, ht⟩
  · rintro ⟨rfl, hreal, hlow, hhigh, ht⟩
    exact ⟨d, ⟨rfl, hreal, hlow, hhigh⟩, if_pos ht⟩

/-- **What passes the check** is representable, and is not changed. -/
theorem Value.check_eq_ok_iff {v w : Value} : v.check = .ok w ↔ w = v ∧ v.Representable := by
  obtain ⟨d, _ | t⟩ := v
  · show d.check >>= (fun d => pure (Value.ofDate d)) = .ok w ↔ _
    simp only [bind_eq_ok_iff, Date.check_eq_ok_iff]
    constructor
    · rintro ⟨_, ⟨rfl, hreal, hlow, hhigh⟩, h⟩
      exact ⟨(Except.ok.inj h).symm, ⟨hreal, by rintro _ ⟨⟩⟩, hlow, hhigh⟩
    · rintro ⟨rfl, ⟨hreal, -⟩, hlow, hhigh⟩
      exact ⟨d, ⟨rfl, hreal, hlow, hhigh⟩, rfl⟩
  · show checkDateTime d t >>= (fun dt => pure (Value.ofDateTime dt.1 dt.2)) = .ok w ↔ _
    simp only [bind_eq_ok_iff, checkDateTime_eq_ok_iff]
    constructor
    · rintro ⟨_, ⟨rfl, hreal, hlow, hhigh, ht⟩, h⟩
      exact ⟨(Except.ok.inj h).symm, ⟨hreal, by rintro _ ⟨⟩; exact ht⟩, hlow, hhigh⟩
    · rintro ⟨rfl, ⟨hreal, ht⟩, hlow, hhigh⟩
      exact ⟨(d, t), ⟨rfl, hreal, hlow, hhigh, ht t rfl⟩, rfl⟩

end Recurrence
