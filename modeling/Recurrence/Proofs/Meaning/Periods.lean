/-
Recurrence/Proofs/Meaning/Periods.lean

The periods that a selection goes through.

Values have the same key if they lie in the period of the same number
(`periodKey_eq_iff`).  What a chain that sees whole periods hands out before the start of
its lists lies in earlier periods (`Rule.listStart_le_of_member`).  And where the periods
of a rule are days or shorter, all of them have equally many members, because the fields
below the period do not depend on those above it (`Rule.even_course`).
-/
import Recurrence.Proofs.Groups
import Recurrence.Proofs.Meaning.Matches

namespace Recurrence

variable {f : Frequency} {weekStart : Weekday} {u v w : Value}

/-! ### Keys and numbers -/

theorem Date.eq_iff_dayNumber {d e : Date} (hd : d.IsReal) (he : e.IsReal) :
    d.key = e.key ↔ d.dayNumber = e.dayNumber := by
  constructor
  · intro h
    simp only [Date.key, List.cons.injEq, and_true] at h
    rw [Date.dayNumber, Date.dayNumber, h.1, h.2.1, h.2.2]
  · intro h
    rw [Date.dayNumber_injective hd he h]

/-- **Values have the same key** if their periods have the same number. -/
theorem periodKey_eq_iff (hv : v.IsReal) (hw : w.IsReal) (hkind : v.hasTime = w.hasTime)
    (htimed : f.isSubDaily = true → v.hasTime = true) :
    periodKey f weekStart v = periodKey f weekStart w ↔
      periodNumber f weekStart v = periodNumber f weekStart w := by
  have hdate := Date.eq_iff_dayNumber hv.1 hw.1
  have hvbounds := hv.field_bounds
  have hwbounds := hw.field_bounds
  obtain ⟨d, t⟩ := v
  obtain ⟨e, x⟩ := w
  -- a key is a number, or the date with the fields of the time down to the unit
  have happend : ∀ xs ys : List Int, d.key ++ xs = e.key ++ ys ↔ d.key = e.key ∧ xs = ys := by
    intro xs ys
    refine ⟨fun h => List.append_inj h rfl, ?_⟩
    rintro ⟨hd, rfl⟩
    rw [hd]
  dsimp only at hdate hvbounds hwbounds
  cases f with
  | yearly => simp [periodKey, periodNumber]
  | monthly =>
    simp only [periodKey, periodNumber, List.cons.injEq, and_true]
    omega
  | weekly =>
    simp only [periodKey, periodNumber, Gregorian.weekStart, List.cons.injEq, and_true]
    omega
  | daily => exact hdate
  | hourly | minutely | secondly =>
    cases t with
    | none => exact absurd (htimed rfl) (by simp [Value.hasTime])
    | some t => cases x with
      | none => simp [Value.hasTime] at hkind
      | some x =>
        simp only [Value.timeOrMidnight, Option.getD_some] at hvbounds hwbounds
        simp only [periodKey, periodNumber, TimeOfDay.key, List.take_succ_cons, List.take_zero,
          Value.timeOrMidnight, Option.getD_some, happend, hdate, List.cons.injEq, and_true]
        omega

/-- No period is longer than a year. -/
theorem instant_lt_of_periodNumber (hv : v.IsReal) (hw : w.IsReal)
    (h : periodNumber f weekStart v = periodNumber f weekStart w) :
    w.instant < v.instant + 367 * 86400 := by
  have hvbounds := hv.field_bounds
  have hwbounds := hw.field_bounds
  have hvyear := hv.1.year_bounds
  have hwyear := hw.1.year_bounds
  have hlen := Gregorian.yearLength_le v.date.year
  rw [Gregorian.dayNumber_succ_year] at hvyear hwyear
  simp only [Value.instant, instantOf, TimeOfDay.seconds, secondsPerDay]
  have hyear : f = .yearly ∨ f = .monthly → v.date.year = w.date.year := by
    rintro (rfl | rfl) <;> simp only [periodNumber] at h <;> omega
  cases f with
  | yearly | monthly =>
    rw [← hyear (by simp)] at hwyear
    omega
  | weekly | daily | hourly | minutely | secondly =>
    simp only [periodNumber] at h
    omega

/-- A week is the only period that may lie in two years. -/
theorem weekly_of_periodNumber (hv : v.IsReal) (hw : w.IsReal)
    (h : periodNumber f weekStart v = periodNumber f weekStart w)
    (hyear : v.date.year < w.date.year) : f = .weekly := by
  have hvbounds := hv.field_bounds
  have hwbounds := hw.field_bounds
  have hday : v.date.dayNumber ≠ w.date.dayNumber := fun hday => by
    rw [Date.dayNumber_injective hv.1 hw.1 hday] at hyear
    exact lt_irrefl _ hyear
  cases f with
  | weekly => rfl
  | yearly | monthly | daily | hourly | minutely | secondly =>
    simp only [periodNumber] at h
    omega

/-! ### Parts of a value above and below a period -/

/-- A value with the fields of another down to the unit of a frequency. -/
def Value.graft (f : Frequency) (v w : Value) : Value :=
  ⟨v.date, w.time.map fun t =>
    ⟨if f.isFinerThan .daily then v.timeOrMidnight.hour else t.hour,
      if f.isFinerThan .hourly then v.timeOrMidnight.minute else t.minute,
      if f.isFinerThan .minutely then v.timeOrMidnight.second else t.second⟩⟩

namespace Value

@[simp] theorem graft_hasTime (f : Frequency) (v w : Value) : (graft f v w).hasTime = w.hasTime := by
  simp [graft, hasTime]

theorem graft_isReal (hv : v.IsReal) (hw : w.IsReal) : (graft f v w).IsReal := by
  obtain ⟨h1, h2, h3, h4, h5, h6⟩ := Value.timeOrMidnight_isReal hv
  refine ⟨hv.1, fun t ht => ?_⟩
  obtain ⟨x, hx, rfl⟩ := Option.map_eq_some_iff.mp ht
  obtain ⟨k1, k2, k3, k4, k5, k6⟩ := hw.2 x hx
  cases f <;> simp [TimeOfDay.IsReal, Frequency.isFinerThan, Frequency.rank] <;> omega

end Value

/-- Whether the periods of a frequency are days or parts of days. -/
def Frequency.WithinDay (f : Frequency) : Prop :=
  f = .daily ∨ f = .hourly ∨ f = .minutely ∨ f = .secondly

theorem Frequency.longer_of_not_withinDay (hf : ¬ f.WithinDay) :
    f = .yearly ∨ f = .monthly ∨ f = .weekly := by
  cases f <;> simp [WithinDay] at hf ⊢

theorem periodNumber_graft (hf : f.WithinDay) (htimed : f.isSubDaily = true → w.hasTime = true) :
    periodNumber f weekStart (v.graft f w) = periodNumber f weekStart v := by
  obtain ⟨e, x⟩ := w
  rcases hf with rfl | hf
  · rfl
  · cases x with
    | none => rcases hf with rfl | rfl | rfl <;> exact absurd (htimed rfl) (by simp [Value.hasTime])
    | some x =>
      rcases hf with rfl | rfl | rfl <;>
        simp [Value.graft, periodNumber, Value.timeOrMidnight, Frequency.isFinerThan, Frequency.rank]

/-- Within a day, values of one period have the same date. -/
theorem date_eq_of_periodNumber (hf : f.WithinDay) (hv : v.IsReal) (hw : w.IsReal)
    (h : periodNumber f weekStart v = periodNumber f weekStart w) : v.date = w.date := by
  have hvbounds := hv.field_bounds
  have hwbounds := hw.field_bounds
  apply Date.dayNumber_injective hv.1 hw.1
  rcases hf with rfl | rfl | rfl | rfl <;> simp only [periodNumber] at h <;> omega

/-- Within a day, values of one period have the same fields down to it. -/
theorem graft_congr (hf : f.WithinDay) (hv : v.IsReal) (hw : w.IsReal)
    (h : periodNumber f weekStart v = periodNumber f weekStart w) (u : Value) :
    v.graft f u = w.graft f u := by
  have hvbounds := hv.field_bounds
  have hwbounds := hw.field_bounds
  have hdate := date_eq_of_periodNumber hf hv hw h
  unfold Value.graft
  rw [hdate]
  congr 2
  funext t
  rcases hf with rfl | rfl | rfl | rfl
  · rfl
  all_goals
    simp only [periodNumber] at h
    simp [Frequency.isFinerThan, Frequency.rank]
    omega

/-- Grafted twice, a value has its own fields again. -/
theorem graft_graft (f : Frequency) (v w : Value) : w.graft f (v.graft f w) = w := by
  obtain ⟨e, x⟩ := w
  cases x with
  | none => rfl
  | some x =>
    cases f <;> simp [Value.graft, Value.timeOrMidnight, Frequency.isFinerThan, Frequency.rank]

theorem graft_self (f : Frequency) (v : Value) : v.graft f v = v := by
  obtain ⟨e, x⟩ := v
  cases x with
  | none => rfl
  | some x => cases f <;> simp [Value.graft, Value.timeOrMidnight]

/-! ### Where periods start -/

/-- Date-times are in the order of their fields. -/
theorem le_of_path_le (hv : v.hasTime = true) (hw : w.hasTime = true)
    (h : v.path.take 6 ≤ w.path.take 6) : v ≤ w := by
  rw [Value.le_iff_key (hv.trans hw.symm)]
  obtain ⟨d, _ | t⟩ := v
  · exact absurd hv (by simp [Value.hasTime])
  · obtain ⟨e, _ | x⟩ := w
    · exact absurd hw (by simp [Value.hasTime])
    · exact h

/-- Within a day, whatever lies in the period of a value or in a later one comes after the start
of the period. -/
theorem periodStart_le (hf : f.WithinDay) (hv : v.IsReal) (hw : w.IsReal)
    (hkind : v.hasTime = w.hasTime)
    (h : periodNumber f weekStart v ≤ periodNumber f weekStart w) : periodStart f v ≤ w := by
  obtain ⟨hreal, hkind', -, hnumber⟩ := @periodStart_spec f weekStart v hv
  rcases h.lt_or_eq with hlt | heq
  · rw [← not_lt]
    intro hwv
    have := @periodNumber_mono f weekStart _ _ hw hreal (hkind.symm.trans hkind'.symm) hwv.le
    omega
  · -- the value has the fields of the period, and no field below it is less than zero
    have hfields : v.graft f w = w := by rw [graft_congr hf hv hw heq, graft_self]
    obtain ⟨k1, k2, k3, k4, k5, k6⟩ := Value.timeOrMidnight_isReal hw
    rw [Value.le_iff_key (hkind'.trans hkind), ← hfields, le_iff_lt_or_eq]
    obtain ⟨d, t⟩ := v
    obtain ⟨e, x⟩ := w
    cases x with
    | none =>
      cases t with
      | none => rcases hf with rfl | rfl | rfl | rfl <;> exact .inr rfl
      | some t => simp [Value.hasTime] at hkind
    | some x =>
      cases t with
      | none => simp [Value.hasTime] at hkind
      | some t =>
        simp only [Value.timeOrMidnight, Option.getD_some] at k1 k2 k3 k4 k5 k6
        rcases hf with rfl | rfl | rfl | rfl <;>
          simp [periodStart, Value.graft, Value.key, Date.key, TimeOfDay.key, Value.timeOrMidnight,
            List.cons_lt_cons_iff, Frequency.isFinerThan, Frequency.rank] <;> omega

namespace Rule

variable {r : Rule} {start : Value} {budget : Int}

/-- With positions, lists begin where the period of the start does. -/
theorem listStart_eq_periodStart (hpos : r.bySetPos ≠ []) :
    r.listStart start = periodStart r.freq start := by
  unfold Rule.listStart Series.listStart
  rw [if_neg (by simpa using hpos)]

/-- The members of a rule lie on the date of the start of its lists or later. -/
theorem date_le_of_member (h : r.Admits start) (hbudget : 0 ≤ budget)
    (hm : (r.course start budget).Member v) : (r.listStart start).date.key ≤ v.date.key := by
  obtain ⟨hv, hkind⟩ := member_isReal h hbudget hm
  have hstart := ((member_iff_agrees h hbudget hv hkind).mp hm).1
  have hsize := (begins_course h hbudget).three_le_size
  rw [start_course] at hstart
  have hdate := take_le_take hstart 3
  rwa [List.take_take, List.take_take, Nat.min_eq_left hsize] at hdate

/-- Periods longer than a day start at midnight, so only the date counts. -/
theorem listStart_le_of_date (hreal : start.IsReal) (hpos : r.bySetPos ≠ [])
    (hday : ¬ r.freq.WithinDay) (hv : v.IsReal) (hkind : v.hasTime = start.hasTime)
    (hdate : (r.listStart start).date.key ≤ v.date.key) : r.listStart start ≤ v := by
  have hsame : (r.listStart start).hasTime = v.hasTime :=
    (listStart_spec (r := r) hreal).2.1.trans hkind.symm
  obtain ⟨k1, k2, k3, k4, k5, k6⟩ := Value.timeOrMidnight_isReal hv
  rw [listStart_eq_periodStart hpos] at hdate hsame ⊢
  rw [Value.le_iff_key hsame]
  obtain ⟨e, x⟩ := v
  obtain ⟨d, t⟩ := start
  have hlen : (periodStart r.freq ⟨d, t⟩).date.key.length = e.key.length := rfl
  -- the dates compare already, and no time of day is before midnight
  have htimes : ∀ xs ys : List Int, xs ≤ ys →
      (periodStart r.freq ⟨d, t⟩).date.key ++ xs ≤ e.key ++ ys := by
    intro xs ys hxs
    rw [← not_lt] at hxs ⊢
    rw [append_lt_append_iff hlen.symm]
    rintro (hlt | ⟨-, hlt⟩)
    · exact hdate.not_gt hlt
    · exact hxs hlt
  cases x with
  | none =>
    cases t with
    | none => exact htimes _ _ le_rfl
    | some t => simp [Value.hasTime, periodStart] at hsame
  | some x =>
    cases t with
    | none => simp [Value.hasTime, periodStart] at hsame
    | some t =>
      simp only [Value.timeOrMidnight, Option.getD_some] at k1 k2 k3 k4 k5 k6
      apply htimes
      have hmidnight : [0, 0, 0] ≤ x.key := by
        rw [le_iff_lt_or_eq]
        simp [TimeOfDay.key, List.cons_lt_cons_iff]
        omega
      rcases Frequency.longer_of_not_withinDay hday with hf | hf | hf <;> rw [hf] <;>
        exact hmidnight

/-- **Members of the start's period and of later ones** lie behind the start of the lists. -/
theorem listStart_le_of_member (h : r.Admits start) (hbudget : 0 ≤ budget) (hpos : r.bySetPos ≠ [])
    (hm : (r.course start budget).Member v) (hnumber : r.periodNumber start ≤ r.periodNumber v) :
    r.listStart start ≤ v := by
  obtain ⟨hv, hkind⟩ := member_isReal h hbudget hm
  by_cases hday : r.freq.WithinDay
  · rw [listStart_eq_periodStart hpos]
    exact periodStart_le hday h.real hv hkind.symm hnumber
  · exact listStart_le_of_date h.real hpos hday hv hkind (date_le_of_member h hbudget hm)

/-- **Whatever lies in the start's period or in a later one** lies behind the start of the lists;
only the first week begins no earlier than the start. -/
theorem listStart_le_of_periodNumber (hreal : start.IsReal) (hpos : r.bySetPos ≠ []) (hv : v.IsReal)
    (hkind : v.hasTime = start.hasTime) (hnumber : r.periodNumber start ≤ r.periodNumber v)
    (hweek : r.freq = .weekly → start.date.key ≤ v.date.key) : r.listStart start ≤ v := by
  by_cases hday : r.freq.WithinDay
  · rw [listStart_eq_periodStart hpos]
    exact periodStart_le hday hreal hv hkind.symm hnumber
  · refine listStart_le_of_date hreal hpos hday hv hkind ?_
    rw [listStart_eq_periodStart hpos]
    obtain ⟨hm, hm12, hd, -⟩ := hv.1
    rcases Frequency.longer_of_not_withinDay hday with hf | hf | hf
    all_goals simp only [Rule.periodNumber, Recurrence.periodNumber, hf] at hnumber hweek ⊢
    · rw [← not_lt]
      simp only [periodStart, Date.key, key_lt_iff_three]
      omega
    · have hsm := hreal.1.1
      have hsm12 := hreal.1.2.1
      rw [← not_lt]
      simp only [periodStart, Date.key, key_lt_iff_three]
      omega
    · exact hweek trivial

/-- **The periods of a rule** divide the members of a course, and their keys tell them apart. -/
theorem divides_members {K : Course} (hK : K.Begins)
    (htimed : r.freq.isSubDaily = true → K.hasTime = true) :
    K.Divides r.periodNumber (periodKey r.freq r.weekStart) where
  mono _ _ hv hw hle :=
    periodNumber_mono (hK.isReal hv.1) (hK.isReal hw.1) (hv.1.hasTime.trans hw.1.hasTime.symm) hle
  key_iff _ _ hv hw :=
    periodKey_eq_iff (hK.isReal hv.1) (hK.isReal hw.1) (hv.1.hasTime.trans hw.1.hasTime.symm)
      fun hs => hv.1.hasTime.trans (htimed hs)
  short _ _ hv hw hn := instant_lt_of_periodNumber (hK.isReal hv.1) (hK.isReal hw.1) hn

theorem divides (h : r.Admits start) (hbudget : 0 ≤ budget) :
    (r.course start budget).Divides r.periodNumber (periodKey r.freq r.weekStart) :=
  divides_members (begins_course h hbudget) fun hs =>
    (course_hasTime r start budget).trans (h.timed hs)

/-! ### Periods with equally many members -/

/-- A field of a grafted value is that of one of the two. -/
theorem timeField_graft (f : Frequency) (hkind : v.hasTime = w.hasTime) (field : ClockField) :
    (v.graft f w).timeField field.field = v.timeField field.field ∨
      (v.graft f w).timeField field.field = w.timeField field.field := by
  obtain ⟨d, t⟩ := v
  obtain ⟨e, x⟩ := w
  cases x with
  | none =>
    cases t with
    | none => exact .inl rfl
    | some t => simp [Value.hasTime] at hkind
  | some x =>
    cases t with
    | none => simp [Value.hasTime] at hkind
    | some t =>
      cases f <;> cases field <;>
        first
        | exact .inl rfl
        | exact .inr rfl

theorem agrees_graft (hday : r.freq.WithinDay) (hkind : v.hasTime = w.hasTime)
    (htimed : r.freq.isSubDaily = true → w.hasTime = true) (hv : r.Agrees start budget v)
    (hw : r.Agrees start budget w) : r.Agrees start budget (v.graft r.freq w) := by
  have hphase : r.Phased start (v.graft r.freq w) ↔ r.Phased start v := by
    unfold Phased Rule.periodNumber
    rw [periodNumber_graft hday htimed]
  obtain ⟨⟨hyear, ⟨hmonth, -, hkeepsMonth⟩, hparts, hphased, hweekday, hkeepsDay⟩, hvt⟩ := hv
  refine ⟨⟨hyear, ⟨hmonth, ?_, hkeepsMonth⟩, hparts, ?_, hweekday, hkeepsDay⟩, ?_⟩
  · intro hf
    rw [hf] at hday
    exact absurd hday (by simp [Frequency.WithinDay])
  · exact fun hf => hphase.mpr (hphased hf)
  · intro ht field
    rw [Value.graft_hasTime] at ht
    obtain ⟨hvf, hvp⟩ := hvt (hkind.trans ht) field
    obtain ⟨hwf, -⟩ := hw.2 ht field
    refine ⟨?_, fun hf => hphase.mpr (hvp hf)⟩
    rcases timeField_graft r.freq hkind field with heq | heq <;> rw [heq]
    · exact hvf
    · exact hwf

/-- **The fields below a period** do not depend on those above it. -/
theorem member_graft (h : r.Admits start) (hbudget : 0 ≤ budget) (hpos : r.bySetPos ≠ [])
    (hday : r.freq.WithinDay) (hv : (r.course start budget).Member v)
    (hw : (r.course start budget).Member w) :
    (r.course start budget).Member (v.graft r.freq w) := by
  obtain ⟨hvr, hvk⟩ := member_isReal h hbudget hv
  obtain ⟨hwr, hwk⟩ := member_isReal h hbudget hw
  have hkind : v.hasTime = w.hasTime := hvk.trans hwk.symm
  have htimed : r.freq.isSubDaily = true → w.hasTime = true := fun hs => hwk.trans (h.timed hs)
  obtain ⟨hstart, hva⟩ := (member_iff_agrees h hbudget hvr hvk).mp hv
  obtain ⟨-, hwa⟩ := (member_iff_agrees h hbudget hwr hwk).mp hw
  refine (member_iff_agrees h hbudget (Value.graft_isReal hvr hwr)
    ((Value.graft_hasTime _ _ _).trans hwk)).mpr ⟨?_, agrees_graft hday hkind htimed hva hwa⟩
  rw [start_course] at hstart ⊢
  rcases course_cases r start budget with ⟨-, hc⟩ | ⟨t, -, -, hc⟩ | ⟨htime, hc⟩
  · rw [hc] at hstart ⊢
    exact hstart
  · rw [hc] at hstart ⊢
    exact hstart
  · -- the chain fills all fields, so the member lies behind the start of the lists itself
    have hsize : (r.course start budget).size = 6 := by rw [hc]; rfl
    rw [hsize] at hstart ⊢
    have hlist := listStart_spec (r := r) h.real
    have hnumber : r.periodNumber start ≤ r.periodNumber v := by
      rw [← hlist.2.2.2]
      refine periodNumber_mono hlist.1 hvr (hlist.2.1.trans hvk.symm) ?_
      exact le_of_path_le (hlist.2.1.trans htime) (hvk.trans htime) hstart
    refine Value.take_path_le (hlist.2.1.trans (hwk.symm.trans (Value.graft_hasTime _ _ _).symm)) ?_ 6
    rw [listStart_eq_periodStart hpos]
    have hgraft : r.periodNumber start ≤ r.periodNumber (v.graft r.freq w) :=
      hnumber.trans_eq (periodNumber_graft hday htimed).symm
    exact periodStart_le hday h.real (Value.graft_isReal hvr hwr)
      (hwk.symm.trans (Value.graft_hasTime _ _ _).symm) hgraft

/-- The group of one period maps into that of another, one to one. -/
theorem length_group_le (h : r.Admits start) (hbudget : 0 ≤ budget) (hpos : r.bySetPos ≠ [])
    (hday : r.freq.WithinDay) {n m : Int}
    (hn : (r.course start budget).group r.periodNumber n ≠ []) :
    ((r.course start budget).group r.periodNumber m).length ≤
      ((r.course start budget).group r.periodNumber n).length := by
  have hd := divides h hbudget
  have hK := begins_course h hbudget
  obtain ⟨v, hv⟩ := List.exists_mem_of_ne_nil _ hn
  obtain ⟨hvm, rfl⟩ := (hd.mem_group hK).mp hv
  have hmaps : ∀ x ∈ ((r.course start budget).group r.periodNumber m).map (v.graft r.freq),
      x ∈ (r.course start budget).group r.periodNumber (r.periodNumber v) := by
    intro x hx
    obtain ⟨w, hw, rfl⟩ := List.mem_map.mp hx
    obtain ⟨hwm, -⟩ := (hd.mem_group hK).mp hw
    have hwk := (member_isReal h hbudget hwm).2
    exact (hd.mem_group hK).mpr ⟨member_graft h hbudget hpos hday hvm hwm,
      periodNumber_graft hday fun hs => hwk.trans (h.timed hs)⟩
  have hnodup : (((r.course start budget).group r.periodNumber m).map (v.graft r.freq)).Nodup := by
    refine List.Nodup.map_on ?_ ((Course.pairwise_group _ _ _).imp fun h => h.ne)
    intro x hx y hy hxy
    obtain ⟨hxm, hxn⟩ := (hd.mem_group hK).mp hx
    obtain ⟨hym, hyn⟩ := (hd.mem_group hK).mp hy
    -- grafted back on a value of their own period, both are as they were
    have hback : ∀ u : Value, x.graft r.freq u = y.graft r.freq u :=
      graft_congr hday (member_isReal h hbudget hxm).1 (member_isReal h hbudget hym).1
        (show r.periodNumber x = r.periodNumber y from hxn.trans hyn.symm)
    rw [← graft_graft r.freq v x, hxy, hback, graft_graft]
  have := (List.Nodup.subperm hnodup hmaps).length_le
  rwa [List.length_map] at this

/-- **Within a day** all periods that have members have equally many. -/
theorem even_course (h : r.Admits start) (hbudget : 0 ≤ budget) (hpos : r.bySetPos ≠ [])
    (hday : r.freq.WithinDay) : (r.course start budget).Even r.periodNumber := fun _ _ hn hm =>
  le_antisymm (length_group_le h hbudget hpos hday hm) (length_group_le h hbudget hpos hday hn)

/-- The periods that a selection takes for equally long are those within a day. -/
theorem withinDay_of_uniform (h : Series.hasUniformPeriods r = true) : r.freq.WithinDay := by
  unfold Series.hasUniformPeriods at h
  cases hf : r.freq <;> simp [hf, Frequency.isSubDaily, Frequency.isFinerThan, Frequency.rank,
    Frequency.WithinDay] at h ⊢

end Rule

end Recurrence
