/-
Recurrence/Proofs/Meaning/Phase.lean

Units and periods in phase.

Every value has a number in each unit, and a stepper that starts with a value names
the values whose number differs from it by a multiple of the interval.  The periods
of a frequency are numbered in the same way, so a stepper of the frequency's own unit
keeps the phase of the rule.  Numbers of periods grow with the values
(`periodNumber_mono`).
-/
import Recurrence.Expansion.Plan
import Recurrence.Proofs.Generators.Filtered
import Recurrence.Rule.Meaning

namespace Recurrence

/-- The fields of a value, with midnight for a plain date. -/
def Value.path (v : Value) : List Int := (Fields.ofValue v).toList

theorem Value.length_path (v : Value) : v.path.length = 6 := rfl

theorem Value.take_path_le {v w : Value} (h : v.hasTime = w.hasTime) (hle : v ≤ w) (n : Nat) :
    v.path.take n ≤ w.path.take n := by
  rw [Value.le_iff_key h] at hle
  obtain ⟨d, t⟩ := v
  obtain ⟨e, u⟩ := w
  apply take_le_take
  rcases t with - | t <;> rcases u with - | u
  · -- the keys of dates end in the hour -1 where their paths end in midnight
    have hdate : d.key ≤ e.key := take_le_take hle 3
    show d.key ++ [0, 0, 0] ≤ e.key ++ [0, 0, 0]
    rw [le_iff_lt_or_eq, append_lt_append_iff (show d.key.length = e.key.length from rfl)]
    rcases hdate.lt_or_eq with hlt | heq
    · exact .inl (.inl hlt)
    · exact .inr (by rw [heq])
  · simp [Value.hasTime] at h
  · simp [Value.hasTime] at h
  · exact hle

/-! ### Numbers of units -/

namespace StepUnit

/-- The number of the unit that holds a value. -/
def numberOf (u : StepUnit) (v : Value) : Int :=
  u.periodStart (.ofValue v) + u.offset (.ofValue v)

theorem numberOf_month (v : Value) : month.numberOf v = v.date.year * 12 + (v.date.month - 1) := rfl

theorem numberOf_day (v : Value) : day.numberOf v = v.date.dayNumber := by
  rw [Date.dayNumber_eq]
  rfl

theorem numberOf_hour (v : Value) :
    hour.numberOf v = v.date.dayNumber * 24 + v.timeOrMidnight.hour := by
  show v.date.dayNumber * 24 + (v.timeOrMidnight.hour - 0) = _
  omega

theorem numberOf_minute (v : Value) : minute.numberOf v =
    (v.date.dayNumber * 24 + v.timeOrMidnight.hour) * 60 + v.timeOrMidnight.minute := by
  show (v.date.dayNumber * 24 + v.timeOrMidnight.hour) * 60 + (v.timeOrMidnight.minute - 0) = _
  omega

theorem numberOf_second (v : Value) : second.numberOf v =
    ((v.date.dayNumber * 24 + v.timeOrMidnight.hour) * 60 + v.timeOrMidnight.minute) * 60 +
      v.timeOrMidnight.second := by
  show ((v.date.dayNumber * 24 + v.timeOrMidnight.hour) * 60 + v.timeOrMidnight.minute) * 60 +
    (v.timeOrMidnight.second - 0) = _
  omega

/-- A unit of a real value lies in the year of the value. -/
theorem yearOf_numberOf (u : StepUnit) {v : Value} (hv : v.IsReal) :
    u.yearOf (u.numberOf v) = v.date.year := by
  have hbounds := hv.field_bounds
  have hyear := Date.yearOfDayNumber_dayNumber hv.1
  cases u with
  | month =>
    rw [numberOf_month]
    show _ / 12 = _
    omega
  | day =>
    rw [numberOf_day]
    simpa [yearOf, perDay] using hyear
  | hour | minute | second =>
    -- what is left without the time of day is the number of the day
    simp only [yearOf, perDay, numberOf_hour, numberOf_minute, numberOf_second]
    rw [← hyear]
    congr 1
    omega

/-- Every unit holds a real value, for units of time one with a time of day. -/
theorem exists_numberOf (u : StepUnit) (n : Int) (timed : Bool)
    (h : timed = false → u = month ∨ u = day) :
    ∃ v : Value, v.IsReal ∧ v.hasTime = timed ∧ u.numberOf v = n := by
  have hdate : ∀ d : Date, d.IsReal → ∃ v : Value,
      v.IsReal ∧ v.hasTime = timed ∧ v.date = d := by
    intro d hd
    cases timed with
    | false => exact ⟨.ofDate d, ⟨hd, nofun⟩, rfl, rfl⟩
    | true => exact ⟨.ofDateTime d .midnight, ⟨hd, by rintro _ ⟨⟩; decide⟩, rfl, rfl⟩
  have hclock : ∀ m : Int, ∀ t : TimeOfDay, t.IsReal → timed = true → ∃ v : Value,
      v.IsReal ∧ v.hasTime = timed ∧ v.date.dayNumber = m ∧ v.timeOrMidnight = t := by
    intro m t ht htimed
    exact ⟨.ofDateTime (.ofDayNumber m) t, ⟨Date.isReal_ofDayNumber m, by rintro _ ⟨⟩; exact ht⟩,
      htimed.symm, Date.dayNumber_ofDayNumber m, rfl⟩
  have htimed : u ≠ month → u ≠ day → timed = true := by
    intro hm hd
    by_contra hf
    rcases h (by simpa using hf) with h | h
    · exact hm h
    · exact hd h
  cases u with
  | month =>
    obtain ⟨v, hv, ht, hd⟩ := hdate ⟨n / 12, n % 12 + 1, 1⟩
      (Date.isReal_first (by omega) (by omega))
    refine ⟨v, hv, ht, ?_⟩
    rw [numberOf_month, hd]
    dsimp only
    omega
  | day =>
    obtain ⟨v, hv, ht, hd⟩ := hdate _ (Date.isReal_ofDayNumber n)
    exact ⟨v, hv, ht, by rw [numberOf_day, hd, Date.dayNumber_ofDayNumber]⟩
  | hour =>
    obtain ⟨v, hv, ht, hd, hc⟩ := hclock (n / 24) ⟨n % 24, 0, 0⟩
      (by unfold TimeOfDay.IsReal; dsimp only; omega) (htimed nofun nofun)
    refine ⟨v, hv, ht, ?_⟩
    rw [numberOf_hour, hd, hc]
    dsimp only
    omega
  | minute =>
    obtain ⟨v, hv, ht, hd, hc⟩ := hclock (n / 1440) ⟨n / 60 % 24, n % 60, 0⟩
      (by unfold TimeOfDay.IsReal; dsimp only; omega) (htimed nofun nofun)
    refine ⟨v, hv, ht, ?_⟩
    rw [numberOf_minute, hd, hc]
    dsimp only
    omega
  | second =>
    obtain ⟨v, hv, ht, hd, hc⟩ := hclock (n / 86400) ⟨n / 3600 % 24, n / 60 % 60, n % 60⟩
      (by unfold TimeOfDay.IsReal; dsimp only; omega) (htimed nofun nofun)
    refine ⟨v, hv, ht, ?_⟩
    rw [numberOf_second, hd, hc]
    dsimp only
    omega

end StepUnit

/-! ### Steppers and listers of a plan -/

theorem node_path {v : Value} (hv : v.IsReal) : calendarTree.Node v.path :=
  node_second.mpr ⟨hv.1, Value.timeOrMidnight_isReal hv⟩

/-- The children of the nodes on the way to a real value are its fields. -/
theorem calendarTree_path {v : Value} (hv : v.IsReal) (field : Field) :
    calendarTree (v.path.take field.level) ((Fields.ofValue v).get field) := by
  obtain ⟨hl, hget⟩ := List.getElem?_eq_some_iff.mp ((Fields.ofValue v).getElem_toList field)
  rw [← hget]
  exact (node_path hv).child hl

/-- **A stepper names the values in phase with the one that it starts with.** -/
theorem names_steppedFrom {u : StepUnit} {interval : Int} {s v : Value} (hv : v.IsReal) :
    (steppedFrom u interval s).Names (v.path.take u.field.level) ((Fields.ofValue v).get u.field) ↔
      interval ∣ u.numberOf v - u.numberOf s := by
  have hunit : (Stepper.start u interval s).unitAt (v.path.take u.field.level)
      ((Fields.ofValue v).get u.field) - (Stepper.start u interval s).last =
      (u.numberOf v - u.numberOf s) + interval := by
    have hperiod : u.periodStart (.ofPath (v.path.take u.field.level)) =
        u.periodStart (.ofValue v) := u.periodStart_ofPath (.ofValue v)
    simp only [Stepper.unitAt, Stepper.start, hperiod, StepUnit.numberOf, StepUnit.offset]
    omega
  show (calendarTree _ _ ∧ (Stepper.start u interval s).interval ∣ _) ∧ (∀ q ∈ [], _) ↔ _
  rw [hunit, and_iff_right (calendarTree_path hv u.field), and_iff_left (by simp)]
  exact Int.dvd_add_left (Int.dvd_refl _)

theorem begins_steppedFrom {u : StepUnit} {interval : Int} {s : Value} {start : List Int}
    (hi : 1 ≤ interval) (hstart : start.take (u.field.level + 1) = s.path.take (u.field.level + 1)) :
    (steppedFrom u interval s).Begins start := by
  refine ⟨⟨hi, ?_, ?_⟩, fun p n _ _ h => h.1, fun h => absurd rfl h,
    fun q hq => absurd hq (by simp [steppedFrom])⟩
  · show _ = u.periodStart (.ofPath (start.take u.field.level))
    rw [take_eq_of_take_eq hstart (Nat.le_succ _)]
    exact (u.periodStart_ofPath (.ofValue s)).symm
  · intro x hx
    have hx : start[u.field.level]? = some x := hx
    rw [getElem?_eq_of_take_eq hstart (Nat.lt_succ_self _)] at hx
    have hfield : some ((Fields.ofValue s).get u.field) = some x :=
      ((Fields.ofValue s).getElem_toList u.field).symm.trans hx
    obtain rfl := Option.some.inj hfield
    show u.periodStart (.ofValue s) + u.offset (.ofValue s) - interval + interval = _
    simp only [StepUnit.offset, Stepper.start]
    omega

theorem names_listedFrom {l : Listing} {s v : Value} (n : Int) :
    (listedFrom l s).Names (v.path.take l.field.level) n ↔ n ∈ l.values (.ofValue v) := by
  have hvalues : l.values (.ofPath (v.path.take l.field.level)) = l.values (.ofValue v) :=
    l.values_ofPath (.ofValue v)
  show n ∈ l.values (.ofPath (v.path.take l.field.level)) ∧ (∀ q ∈ [], _) ↔ _
  rw [hvalues, and_iff_left (by simp)]

theorem begins_listedFrom {l : Listing} {s : Value} {start : List Int}
    (hstart : start.take (l.field.level + 1) = s.path.take (l.field.level + 1))
    (hwithin : ∀ p n, p.length = l.field.level → calendarTree.Node p → n ∈ l.values (.ofPath p) →
      calendarTree p n) : (listedFrom l s).Begins start := by
  refine ⟨⟨?_, ?_, rfl⟩, hwithin, fun h => absurd rfl h, fun q hq => absurd hq (by simp [listedFrom])⟩
  · show l.periodKey (.ofValue s) = start.take l.field.level
    rw [take_eq_of_take_eq hstart (Nat.le_succ _), Listing.periodKey_eq_take]
    rfl
  · intro x hx
    have hx : start[l.field.level]? = some x := hx
    rw [getElem?_eq_of_take_eq hstart (Nat.lt_succ_self _)] at hx
    exact Option.some.inj (((Fields.ofValue s).getElem_toList l.field).symm.trans hx)

/-! ### Numbers of periods -/

/-- The numbers of periods grow with the values. -/
theorem periodNumber_mono {freq : Frequency} {weekStart : Weekday} {v w : Value} (hv : v.IsReal)
    (hw : w.IsReal) (hkind : v.hasTime = w.hasTime) (h : v ≤ w) :
    periodNumber freq weekStart v ≤ periodNumber freq weekStart w := by
  have hinstant : v.instant ≤ w.instant := by
    rw [← not_lt, ← Value.lt_iff_instant hw hv hkind.symm, not_lt]
    exact h
  have hvbounds := hv.field_bounds
  have hwbounds := hw.field_bounds
  simp only [Value.instant, instantOf, TimeOfDay.seconds, secondsPerDay] at hinstant
  have hmonth : [v.date.year, v.date.month] ≤ [w.date.year, w.date.month] :=
    take_le_take ((Value.le_iff_key hkind).mp h) 2
  simp only [le_iff_lt_or_eq, List.cons_lt_cons_iff, List.cons.injEq, List.not_lt_nil,
    and_false, or_false, and_true] at hmonth
  cases freq <;> simp only [periodNumber] <;> omega

/-- The start of a period lies in the period, and not after the value. -/
theorem periodStart_spec {freq : Frequency} {weekStart : Weekday} {v : Value} (hv : v.IsReal) :
    (periodStart freq v).IsReal ∧ (periodStart freq v).hasTime = v.hasTime ∧
      periodStart freq v ≤ v ∧
      periodNumber freq weekStart (periodStart freq v) = periodNumber freq weekStart v := by
  have hkind : (periodStart freq v).hasTime = v.hasTime := by
    simp [periodStart, Value.hasTime]
  rw [and_iff_right hkind, Value.le_iff_key hkind]
  have hdate := Date.isReal_iff.mp hv.1
  have hlen1 := Gregorian.monthLength_bounds v.date.year 1
  have hlen := Gregorian.monthLength_bounds v.date.year v.date.month
  obtain ⟨⟨y, m, d⟩, t⟩ := v
  dsimp only at hdate hlen1 hlen
  -- a period starts where its finer fields have their least values, so field by field
  rcases t with - | ⟨a, b, c⟩
  · refine ⟨⟨?_, by rintro _ ⟨⟩⟩, ?_, ?_⟩
    · rw [Date.isReal_iff]
      cases freq <;> simp only [periodStart] <;> omega
    · rw [le_iff_lt_or_eq]
      cases freq <;>
        simp [periodStart, Value.key, Date.key, List.cons_lt_cons_iff] <;> omega
    · cases freq <;> simp [periodStart, periodNumber, Value.timeOrMidnight]
  · obtain ⟨h1, h2, h3, h4, h5, h6⟩ := hv.2 _ rfl
    dsimp only at h1 h2 h3 h4 h5 h6
    refine ⟨⟨?_, ?_⟩, ?_, ?_⟩
    · rw [Date.isReal_iff]
      cases freq <;> simp only [periodStart] <;> omega
    · rintro _ ⟨⟩
      cases freq <;> simp [TimeOfDay.IsReal, Frequency.isFinerThan, Frequency.rank] <;> omega
    · rw [le_iff_lt_or_eq]
      cases freq <;>
        simp [periodStart, Value.key, Date.key, TimeOfDay.key, List.cons_lt_cons_iff,
          Frequency.isFinerThan, Frequency.rank] <;> omega
    · cases freq <;>
        simp [periodStart, periodNumber, Value.timeOrMidnight, Frequency.isFinerThan, Frequency.rank]

end Recurrence
