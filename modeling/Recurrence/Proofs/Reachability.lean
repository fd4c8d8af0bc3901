/-
Recurrence/Proofs/Reachability.lean

Which times of day the steps of a rule come to.

A rule below the day steps over the clock and, at midnight, on to the next day.  Whether it
ever comes to its listed times is decided by remainders alone, without taking any step
(`Rule.reaches`).  The answer is exact: it is yes if and only if some step comes to a time of
day that satisfies the lists (`reaches_iff_exists_step`).  In one direction, every step keeps
the remainder of the start by the greatest common divisor of the interval and the units of a
day.  In the other, each time of day with this remainder is reached after finitely many steps,
by Bézout's identity.
-/
import Mathlib.Data.Int.GCD
import Mathlib.Tactic.LinearCombination
import Recurrence.Proofs.Meaning.Reach

namespace Recurrence

variable {r : Rule} {d : Date} {t t' : TimeOfDay} {perDay : Int} {fields : List (ClockField × Int)}

/-! ### Steps over the clock -/

/-- The time of day so many seconds after midnight; after a day it is midnight again. -/
def TimeOfDay.ofSeconds (n : Int) : TimeOfDay := ⟨n / 3600 % 24, n / 60 % 60, n % 60⟩

theorem TimeOfDay.isReal_ofSeconds (n : Int) : (ofSeconds n).IsReal := by
  simp only [ofSeconds, IsReal]
  omega

/-- The time of day with the given fields. -/
def TimeOfDay.ofFields (f : ClockField → Int) : TimeOfDay := ⟨f .hour, f .minute, f .second⟩

@[simp] theorem timeField_ofFields (f : ClockField → Int) (field : ClockField) :
    (Value.ofDateTime d (.ofFields f)).timeField field.field = f field := by
  cases field <;> rfl

/-- The time in a unit depends on the fields that make it up. -/
theorem timeIn_congr {v w : Value}
    (h : ∀ e ∈ fields, v.timeField e.1.field = w.timeField e.1.field) :
    v.timeIn fields = w.timeIn fields := by
  induction fields with
  | nil => rfl
  | cons e fields ih =>
    obtain ⟨hhead, htail⟩ := List.forall_mem_cons.mp h
    simp only [Value.timeIn, hhead, ih htail]

/-- The seconds in the unit of a frequency below the day. -/
def Frequency.clockSeconds : Frequency → Int
  | hourly => 3600
  | minutely => 60
  | _ => 1

namespace Rule

/-- The time of day after so many steps of a rule. -/
def timeAfter (r : Rule) (t : TimeOfDay) (n : Nat) : TimeOfDay :=
  .ofSeconds (t.seconds + n * r.interval * r.freq.clockSeconds)

/-- Whether a time of day satisfies the lists of a rule, those of fields finer than its frequency
aside. -/
def TimeListed (r : Rule) (t : TimeOfDay) : Prop :=
  (r.byHour ≠ [] → Frequency.hourly.isFinerThan r.freq = false → t.hour ∈ r.byHour) ∧
  (r.byMinute ≠ [] → Frequency.minutely.isFinerThan r.freq = false → t.minute ∈ r.byMinute) ∧
  (r.bySecond ≠ [] → Frequency.secondly.isFinerThan r.freq = false → t.second ∈ r.bySecond)

theorem exists_units (hsub : r.freq.isSubDaily = true) :
    ∃ perDay fields, dayUnits r.freq = some (perDay, fields) := by
  cases hf : r.freq <;> first | exact ⟨_, _, rfl⟩ | (rw [hf] at hsub; exact absurd hsub (by decide))

/-- The units of the day are those of the hour, the minute or the second. -/
theorem units_cases (hunits : dayUnits r.freq = some (perDay, fields)) :
    (r.freq = .hourly ∧ perDay = 24 ∧ fields = [(.hour, 1)]) ∨
    (r.freq = .minutely ∧ perDay = 1440 ∧ fields = [(.hour, 60), (.minute, 1)]) ∨
    (r.freq = .secondly ∧ perDay = 86400 ∧
      fields = [(.hour, 3600), (.minute, 60), (.second, 1)]) := by
  cases hf : r.freq <;> simp_all [dayUnits]

/-- The time in a unit lies within the day. -/
theorem timeIn_bounds (hunits : dayUnits r.freq = some (perDay, fields)) (ht : t.IsReal) :
    0 ≤ (Value.ofDateTime d t).timeIn fields ∧ (Value.ofDateTime d t).timeIn fields < perDay := by
  obtain ⟨h1, h2, h3, h4, h5, h6⟩ := ht
  obtain ⟨hf, rfl, rfl⟩ | ⟨hf, rfl, rfl⟩ | ⟨hf, rfl, rfl⟩ := units_cases hunits
  all_goals
    simp only [Value.timeIn, Value.timeField, Fields.get, ClockField.field, Fields.ofValue,
      Value.ofDateTime, Value.timeOrMidnight, Option.getD_some]
    omega

/-- **A step adds the interval** to the time in the unit of the frequency. -/
theorem timeIn_timeAfter (hunits : dayUnits r.freq = some (perDay, fields)) (ht : t.IsReal)
    (n : Nat) : (Value.ofDateTime d (r.timeAfter t n)).timeIn fields =
      ((Value.ofDateTime d t).timeIn fields + n * r.interval) % perDay := by
  obtain ⟨h1, h2, h3, h4, h5, h6⟩ := ht
  unfold timeAfter
  generalize (n : Int) * r.interval = k
  obtain ⟨hf, rfl, rfl⟩ | ⟨hf, rfl, rfl⟩ | ⟨hf, rfl, rfl⟩ := units_cases hunits
  all_goals
    simp only [Value.timeIn, Value.timeField, Fields.get, ClockField.field, Fields.ofValue,
      Value.ofDateTime, Value.timeOrMidnight, Option.getD_some, TimeOfDay.ofSeconds,
      TimeOfDay.seconds, hf, Frequency.clockSeconds]
    omega

/-! ### Listed times -/

/-- The lists look at the fields that make up the time in the unit of the frequency. -/
theorem timeListed_iff (hunits : dayUnits r.freq = some (perDay, fields)) (ht : t.IsReal) :
    r.TimeListed t ↔
      ∀ e ∈ fields, (Value.ofDateTime d t).timeField e.1.field ∈ r.clockChoices e.1 := by
  simp only [mem_clockChoices_iff ht, TimeListed]
  obtain ⟨hf, rfl, rfl⟩ | ⟨hf, rfl, rfl⟩ | ⟨hf, rfl, rfl⟩ := units_cases hunits
  all_goals
    simp [clockValues, Value.timeField, Fields.get, ClockField.field, Fields.ofValue,
      Value.ofDateTime, Value.timeOrMidnight, hf, Frequency.isFinerThan, Frequency.rank]

/-- Times of day that are the same in the unit of the frequency are listed alike. -/
theorem timeListed_congr (hunits : dayUnits r.freq = some (perDay, fields)) (ht : t.IsReal)
    (ht' : t'.IsReal)
    (h : (Value.ofDateTime d t).timeIn fields = (Value.ofDateTime d t').timeIn fields) :
    r.TimeListed t ↔ r.TimeListed t' := by
  obtain ⟨h1, h2, h3, h4, h5, h6⟩ := ht
  obtain ⟨k1, k2, k3, k4, k5, k6⟩ := ht'
  obtain ⟨hf, rfl, rfl⟩ | ⟨hf, rfl, rfl⟩ | ⟨hf, rfl, rfl⟩ := units_cases hunits
  all_goals
    simp only [Value.timeIn, Value.timeField, Fields.get, ClockField.field, Fields.ofValue,
      Value.ofDateTime, Value.timeOrMidnight, Option.getD_some] at h
    unfold TimeListed
    rw [hf]
  · rw [show t.hour = t'.hour by omega]
    simp [Frequency.isFinerThan, Frequency.rank]
  · rw [show t.hour = t'.hour by omega, show t.minute = t'.minute by omega]
    simp [Frequency.isFinerThan, Frequency.rank]
  · rw [show t.hour = t'.hour by omega, show t.minute = t'.minute by omega,
      show t.second = t'.second by omega]

/-! ### Choices of listed times -/

/-- The choices for a field of a valid rule are values of the field. -/
theorem clockChoices_within (hr : r.Valid) {field : ClockField} {n : Int}
    (hn : n ∈ r.clockChoices field) : 0 ≤ n ∧ n < Filter.clockSize field := by
  unfold clockChoices at hn
  dsimp only at hn
  split_ifs at hn
  · obtain ⟨k, hk, rfl⟩ := List.mem_map.mp hn
    have := List.mem_range.mp hk
    omega
  · exact clockSize_of_listed hr hn

/-- There is a choice for every field. -/
theorem exists_mem_clockChoices (r : Rule) (field : ClockField) :
    ∃ n, n ∈ r.clockChoices field := by
  unfold clockChoices
  dsimp only
  split_ifs with hns
  · exact ⟨0, List.mem_map.mpr ⟨0, by cases field <;> decide, rfl⟩⟩
  · exact List.exists_mem_of_ne_nil _ (by simpa [List.isEmpty_iff] using hns)

/-- Choices for all fields make up a time of day. -/
theorem isReal_ofFields (hr : r.Valid) {f : ClockField → Int}
    (hf : ∀ field, f field ∈ r.clockChoices field) : (TimeOfDay.ofFields f).IsReal := by
  have hh := clockChoices_within hr (hf .hour)
  have hm := clockChoices_within hr (hf .minute)
  have hs := clockChoices_within hr (hf .second)
  exact ⟨hh.1, hh.2, hm.1, hm.2, hs.1, hs.2⟩

/-- What the search through the listed times finds are choices that add up to the target,
multiples of `step` aside. -/
theorem exists_of_meets {step target : Int} (hnodup : (fields.map Prod.fst).Nodup)
    (h : r.meets step target fields = true) :
    ∃ f : ClockField → Int, (∀ field, f field ∈ r.clockChoices field) ∧
      step ∣ target - (Value.ofDateTime d (.ofFields f)).timeIn fields := by
  induction fields generalizing target with
  | nil =>
    choose f hf using r.exists_mem_clockChoices
    rw [meets, beq_iff_eq] at h
    exact ⟨f, hf, Int.dvd_of_emod_eq_zero (by simpa [Value.timeIn] using h)⟩
  | cons e fields ih =>
    obtain ⟨field, weight⟩ := e
    rw [meets, List.any_eq_true] at h
    obtain ⟨n, hn, h⟩ := h
    obtain ⟨hfield, hnodup⟩ := List.nodup_cons.mp hnodup
    obtain ⟨f, hf, hdvd⟩ := ih hnodup h
    -- the choice for this field does not touch the others
    have hrest : (Value.ofDateTime d (.ofFields (Function.update f field n))).timeIn fields =
        (Value.ofDateTime d (.ofFields f)).timeIn fields := by
      refine timeIn_congr fun e he => ?_
      have hmem := List.mem_map_of_mem (f := Prod.fst) he
      have hne : e.1 ≠ field := fun heq => hfield (heq ▸ hmem)
      rw [timeField_ofFields, timeField_ofFields, Function.update_of_ne hne]
    refine ⟨Function.update f field n, fun other => ?_, ?_⟩
    · by_cases hother : other = field
      · subst hother
        rwa [Function.update_self]
      · rw [Function.update_of_ne hother]
        exact hf other
    · rw [Value.timeIn, timeField_ofFields, Function.update_self, hrest, ← Int.sub_sub]
      exact hdvd

theorem nodup_units (hunits : dayUnits r.freq = some (perDay, fields)) :
    (fields.map Prod.fst).Nodup := by
  obtain ⟨-, -, rfl⟩ | ⟨-, -, rfl⟩ | ⟨-, -, rfl⟩ := units_cases hunits <;> decide

/-- The search comes to a listed time of day, whether it has to be made or not. -/
theorem exists_of_reaches (hr : r.Valid) (hunits : dayUnits r.freq = some (perDay, fields))
    (ht : t.IsReal) (h : r.reaches (.ofDateTime d t) = true) :
    ∃ t' : TimeOfDay, t'.IsReal ∧ r.TimeListed t' ∧ (Int.gcd r.interval perDay : Int) ∣
      (Value.ofDateTime d t).timeIn fields - (Value.ofDateTime d t').timeIn fields := by
  simp only [reaches, hunits] at h
  split_ifs at h with heasy
  · rcases heasy with hone | hempty
    · -- every time of day has the remainder, so any listed one will do
      choose f hf using r.exists_mem_clockChoices
      have hreal := isReal_ofFields hr hf
      refine ⟨_, hreal, (timeListed_iff (d := d) hunits hreal).mpr fun e _ => ?_, ?_⟩
      · rw [timeField_ofFields]
        exact hf e.1
      · rw [hone]
        exact Int.one_dvd _
    · -- nothing is listed, so the start's own time of day will do
      refine ⟨t, ht, (timeListed_iff (d := d) hunits ht).mpr fun e he => ?_, by simp⟩
      rw [mem_clockChoices_iff ht]
      have hnil := List.all_eq_true.mp hempty e he
      exact fun hne => absurd (List.isEmpty_iff.mp hnil) hne
  · obtain ⟨f, hf, hdvd⟩ := exists_of_meets (d := d) (nodup_units hunits) h
    have hreal := isReal_ofFields hr hf
    refine ⟨_, hreal, (timeListed_iff (d := d) hunits hreal).mpr fun e _ => ?_, hdvd⟩
    rw [timeField_ofFields]
    exact hf e.1

end Rule

/-! ### Exactness -/

/-- **Steps of a fixed length** come to all numbers that differ by a multiple of the greatest
common divisor of the length and the modulus. -/
theorem exists_steps {a b k m : Int} (hm : 0 < m) (h : (Int.gcd k m : Int) ∣ b - a) :
    ∃ n : Nat, (a + n * k) % m = b % m := by
  obtain ⟨c, hc⟩ := h
  rw [Int.gcd_eq_gcd_ab] at hc
  -- the coefficient of `k` may be negative; its remainder by `m` serves as well
  set x := Int.gcdA k m * c with hx
  have hnonneg := Int.emod_nonneg x hm.ne'
  refine ⟨(x % m).toNat, ?_⟩
  rw [Int.toNat_of_nonneg hnonneg]
  refine Int.emod_eq_emod_iff_emod_sub_eq_zero.mpr (Int.emod_eq_zero_of_dvd ?_)
  have hdiv := Int.mul_ediv_add_emod x m
  refine ⟨-(Int.gcdB k m * c + x / m * k), ?_⟩
  linear_combination hdiv * k - hc

/-- **Reachability is exact.**  Take a valid rule whose frequency is below the day, and a start
with a real time of day.  The rule reaches its listed times if and only if there are some steps
after which the time of day of the start, wrapping at midnight, has its hour, its minute and its
second in the lists of the rule.  Empty lists and those of fields finer than the frequency do not
count. -/
theorem reaches_iff_exists_step (hr : r.Valid) (hsub : r.freq.isSubDaily = true) (ht : t.IsReal) :
    r.reaches (.ofDateTime d t) = true ↔ ∃ n : Nat, r.TimeListed (r.timeAfter t n) := by
  obtain ⟨perDay, fields, hunits⟩ := Rule.exists_units hsub
  have hbounds := Rule.timeIn_bounds (d := d) hunits ht
  constructor
  · intro h
    obtain ⟨t', ht', hlisted, hdvd⟩ := Rule.exists_of_reaches hr hunits ht h
    have hbounds' := Rule.timeIn_bounds (d := d) hunits ht'
    obtain ⟨n, hn⟩ := exists_steps (by omega) ((Int.dvd_neg.mpr hdvd).trans (by rw [Int.neg_sub]))
    refine ⟨n, (Rule.timeListed_congr (d := d) hunits (TimeOfDay.isReal_ofSeconds _) ht' ?_).mpr
      hlisted⟩
    change (Value.ofDateTime d (r.timeAfter t n)).timeIn fields = _
    rw [Rule.timeIn_timeAfter hunits ht, hn, Int.emod_eq_of_lt hbounds'.1 hbounds'.2]
  · rintro ⟨n, hlisted⟩
    have hreal : (r.timeAfter t n).IsReal := TimeOfDay.isReal_ofSeconds _
    simp only [Rule.reaches, hunits]
    split_ifs
    · rfl
    refine Rule.meets_of_dvd (v := .ofDateTime d (r.timeAfter t n))
      ((Rule.timeListed_iff hunits hreal).mp hlisted) ?_
    -- the interval and the day are both multiples of the divisor
    rw [Rule.timeIn_timeAfter hunits ht, ← Int.dvd_neg, Int.neg_sub]
    set passed := (Value.ofDateTime d t).timeIn fields + n * r.interval with hpassed
    have hday := Int.mul_ediv_add_emod passed perDay
    have hdvd := Int.dvd_sub ((Int.gcd_dvd_left r.interval perDay).mul_left (n : Int))
      ((Int.gcd_dvd_right r.interval perDay).mul_right (passed / perDay))
    convert hdvd using 1
    omega

/-- Steps of 36 hours come to 21 o'clock from 9 o'clock on, but those of 24 hours do not. -/
theorem reaches_iff_exists_step_evenings :
    let r : Int → Rule := fun interval => { freq := .hourly, interval, byHour := [21] }
    let t : TimeOfDay := ⟨9, 0, 0⟩
    let start : Value := .ofDateTime ⟨2024, 1, 1⟩ t
    ((r 36).Valid ∧ (r 24).Valid ∧ t.IsReal) ∧
      ((r 36).reaches start = true ∧ ∃ n : Nat, (r 36).TimeListed ((r 36).timeAfter t n)) ∧
      ((r 24).reaches start = false ∧ ¬ ∃ n : Nat, (r 24).TimeListed ((r 24).timeAfter t n)) := by
  intro r t start
  have hvalid : (r 36).Valid ∧ (r 24).Valid := by decide
  have ht : t.IsReal := by decide
  have hyes : (r 36).reaches start = true := by decide
  have hno : (r 24).reaches start = false := by decide
  refine ⟨⟨hvalid.1, hvalid.2, ht⟩, ⟨hyes, (reaches_iff_exists_step hvalid.1 rfl ht).mp hyes⟩, hno,
    fun h => ?_⟩
  have hyes' : (r 24).reaches start = true := (reaches_iff_exists_step hvalid.2 rfl ht).mpr h
  exact absurd (hno.symm.trans hyes') (by decide)

end Recurrence
