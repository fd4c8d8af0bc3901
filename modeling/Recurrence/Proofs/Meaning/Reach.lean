/-
Recurrence/Proofs/Meaning/Reach.lean

A rule whose steps never meet its listed times of day has no match.

A match lies a whole number of intervals after the start, so its time of day differs
from the start's by a multiple of every common divisor of the interval and the day.
The search through the listed times finds the fields of any such match
(`Rule.meets_of_dvd`), so where it finds nothing there is none.
-/
import Recurrence.Proofs.Meaning.Fields

namespace Recurrence

namespace Rule

variable {r : Rule} {start v : Value}

/-- **Which times of day can be met** depends on the frequency, on the interval, and on the elements
of the lists of times. -/
theorem reaches_congr {r r' : Rule} (hfreq : r.freq = r'.freq) (hinterval : r.interval = r'.interval)
    (hclock : ∀ field, SameElements (r.clockValues field) (r'.clockValues field)) (start : Value) :
    r.reaches start = r'.reaches start := by
  have hchoices (field : ClockField) :
      SameElements (r.clockChoices field) (r'.clockChoices field) := by
    simp only [clockChoices, ← (hclock field).isEmpty]
    split_ifs
    · exact .refl _
    · exact hclock field
  have hmeets (step target : Int) (fields : List (ClockField × Int)) :
      r.meets step target fields = r'.meets step target fields := by
    induction fields generalizing target with
    | nil => rfl
    | cons field fields ih =>
      obtain ⟨field, weight⟩ := field
      simp only [meets, ih, (hchoices field).any]
  simp only [reaches, hfreq, hinterval, hmeets, fun field => (hclock field).isEmpty]

/-- Choices that add up to the target, multiples of `step` aside, are found. -/
theorem meets_of_dvd {step : Int} {fields : List (ClockField × Int)} {target : Int}
    (hchoices : ∀ e ∈ fields, v.timeField e.1.field ∈ r.clockChoices e.1)
    (hdvd : step ∣ target - v.timeIn fields) : r.meets step target fields = true := by
  induction fields generalizing target with
  | nil =>
    rw [meets, beq_iff_eq]
    exact Int.emod_eq_zero_of_dvd (by simpa [Value.timeIn] using hdvd)
  | cons e fields ih =>
    obtain ⟨field, weight⟩ := e
    rw [meets, List.any_eq_true]
    refine ⟨_, hchoices _ List.mem_cons_self, ih (fun e he => hchoices e (.tail _ he)) ?_⟩
    rwa [Int.sub_sub]

/-- The number of a period within a day is the time of day in the unit of the
frequency. -/
theorem periodNumber_eq_timeIn {perDay : Int} {fields : List (ClockField × Int)}
    (h : dayUnits r.freq = some (perDay, fields)) (v : Value) :
    r.periodNumber v = v.date.dayNumber * perDay + v.timeIn fields := by
  cases hf : r.freq <;> simp only [hf, dayUnits, Option.some.injEq, Prod.mk.injEq, reduceCtorEq] at h
  all_goals
    obtain ⟨rfl, rfl⟩ := h
    simp only [periodNumber, Recurrence.periodNumber, hf, Value.timeIn, Value.timeField,
      Fields.get, ClockField.field, Fields.ofValue]
    omega

/-- A field of a real time of day is among the choices if it is listed, or if nothing is. -/
theorem mem_clockChoices_iff {d : Date} {t : TimeOfDay} (ht : t.IsReal) {field : ClockField} :
    (Value.ofDateTime d t).timeField field.field ∈ r.clockChoices field ↔
      (r.clockValues field ≠ [] →
        (Value.ofDateTime d t).timeField field.field ∈ r.clockValues field) := by
  unfold clockChoices
  dsimp only
  split_ifs with hns
  · -- no list: any value of the field will do
    obtain ⟨h0, hlt⟩ := Filter.clock_bounds (d := d) ht field
    refine iff_of_true (List.mem_map.mpr ⟨_, List.mem_range.mpr ?_, Int.toNat_of_nonneg h0⟩) ?_
    · omega
    · exact fun hne => absurd (List.isEmpty_iff.mp hns) hne
  · have hne : r.clockValues field ≠ [] := by simpa [List.isEmpty_iff] using hns
    exact ⟨fun h _ => h, fun h => h hne⟩

/-- The time fields of a match are among the choices that the rule leaves. -/
theorem timeField_mem_clockChoices (hstart : start.hasTime = true)
    (h : r.Matches start v) (field : ClockField) :
    v.timeField field.field ∈ r.clockChoices field := by
  obtain ⟨hv, hkind, -, -, -, htime⟩ := h
  obtain ⟨d, t, rfl⟩ : ∃ d t, v = ⟨d, some t⟩ := by
    rw [hstart] at hkind
    obtain ⟨d, _ | t⟩ := v
    · exact absurd hkind (by simp [Value.hasTime])
    · exact ⟨d, t, rfl⟩
  refine (mem_clockChoices_iff (hv.2 t rfl)).mpr fun hne => ?_
  have hlisted : ∀ {unit : Frequency} {ns : List Int} {a b : Int},
      ClockAgrees r.freq unit ns a b → ns ≠ [] → b ∈ ns := by
    intro unit ns a b hagrees hns
    rwa [ClockAgrees, if_pos hns] at hagrees
  obtain ⟨hh, hm, hs⟩ := htime t rfl
  cases field with
  | hour => exact hlisted hh hne
  | minute => exact hlisted hm hne
  | second => exact hlisted hs hne

/-- **Where the steps of a rule cannot meet its listed times, nothing matches.** -/
theorem reaches_of_matches (h : r.Admits start) (hm : r.Matches start v) :
    r.reaches start = true := by
  unfold reaches
  cases hunits : dayUnits r.freq with
  | none => rfl
  | some units =>
    obtain ⟨perDay, fields⟩ := units
    have hsub : r.freq.isSubDaily = true := by
      cases hf : r.freq <;> first | rfl | simp [hf, dayUnits] at hunits
    dsimp only
    split_ifs with heasy
    · rfl
    apply meets_of_dvd (v := v)
    · intro e _
      exact timeField_mem_clockChoices (h.timed hsub) hm e.1
    · have hphase := hm.2.2.1.2
      rw [periodNumber_eq_timeIn hunits, periodNumber_eq_timeIn hunits] at hphase
      have hstep : (Int.gcd r.interval perDay : Int) ∣
          (v.date.dayNumber - start.date.dayNumber) * perDay :=
        (Int.gcd_dvd_right ..).mul_left _
      have := Int.dvd_sub ((Int.gcd_dvd_left r.interval perDay).trans hphase) hstep
      rw [← Int.dvd_neg]
      convert this using 1
      rw [Int.sub_mul]
      omega

end Rule

end Recurrence
