/-
Recurrence/Proofs/DateSeries.lean

Series of dates are the dates of series with a time of day.

A rule whose frequency is not below the day and that lists no times has all instances at the
start's time of day.  So the time adds nothing to the dates: periods and positions, the bound if it
is a date, and the order of the instances are told by the dates alone.  The series from the date
goes in step with the one from the date and time, and returns what this one returns without the
time (`date_series_drops_times`).
-/
import Recurrence.Proofs.Generators.Dates
import Recurrence.Proofs.Series.Likeness

namespace Recurrence

variable {r : Rule} {d : Date} {t : TimeOfDay} {budget : Int}

/-! ### Values at one time of day -/

namespace Value.AtTime

variable {u u' v v' : Value}

theorem key_lt_iff (hu : u.AtTime t u') (hv : v.AtTime t v') : u.key < v.key ↔ u'.key < v'.key := by
  obtain ⟨hu, rfl⟩ := hu
  obtain ⟨hv, rfl⟩ := hv
  have hlength : u.date.key.length = v.date.key.length := rfl
  simp only [key, withoutTime, hu, hv, append_lt_append_iff hlength, lt_irrefl, and_false, or_false]

/-- Values at one time of day are ordered as their dates. -/
theorem lt_iff (hu : u.AtTime t u') (hv : v.AtTime t v') : u < v ↔ u' < v' := by
  have hkind : u.hasTime = v.hasTime := by rw [hasTime, hasTime, hu.1, hv.1]
  have hkind' : u'.hasTime = v'.hasTime := by rw [hu.2, hv.2]; rfl
  rw [lt_iff_key hkind, lt_iff_key hkind', hu.key_lt_iff hv]

/-- The period of a frequency not below the day is told by the date. -/
theorem periodKey_eq {freq : Frequency} (hsub : freq.isSubDaily = false) (weekStart : Weekday)
    (hu : u.AtTime t u') : periodKey freq weekStart u' = periodKey freq weekStart u := by
  obtain ⟨-, rfl⟩ := hu
  rcases Frequency.cases_of_days hsub with rfl | rfl | rfl | rfl <;> rfl

end Value.AtTime

/-! ### The two series -/

theorem Rule.valid_withoutTimes (h : r.Valid) : r.withoutTimes.Valid := by
  obtain ⟨hinterval, hcount, hends, hlists, hdays⟩ := h
  refine ⟨hinterval, hcount, hends, fun p hp n hn => ?_, hdays⟩
  cases p with
  | second | minute | hour => exact absurd hn List.not_mem_nil
  | _ => exact hlists _ hp n hn

/-- A rule with a date as its bound goes in step with itself without its times, from a date alone
and from the date at some time. -/
theorem Series.parallel_atTime (hsub : r.freq.isSubDaily = false)
    (hbound : ∀ last ∈ r.untilBound, last.hasTime = false) (d : Date) (t : TimeOfDay) :
    Parallel (Value.AtTime t) (Value.AtTime t) (Candidates.InStepAtTime t)
      ⟨r.withoutTimes, .ofDateTime d t, .utc⟩ ⟨r, .ofDate d, .utc⟩ where
  candidates := Candidates.InStep.lockstep (Generator.lockstep_atTime t)
  freq := rfl
  counts := rfl
  bySetPos := rfl
  positions := samePositions_refl _
  key _ v v' w w' hv hw := by
    rw [hv.periodKey_eq hsub, hw.periodKey_eq hsub]
    rfl
  ending := by
    refine ⟨rfl, fun last hlast v v' u u' hv hu => ?_⟩
    have hdate : last.hasTime = false := hbound last (Ending.untilBound_of_ofRule hlast)
    obtain ⟨-, rfl⟩ := hv
    simp only [Ending.withinBound, hdate]
    rfl
  startUtc := .ok ⟨rfl, rfl⟩
  toUtc _ _ hv := .ok hv
  fromUtc _ _ hu := .ok hu
  lt_iff _ _ _ _ hu hw := hu.lt_iff hw
  key_lt_iff _ _ _ _ hu hw := hu.key_lt_iff hw

/-- Both series can be created, and are in step. -/
theorem Rule.exists_inStep_atTime (hr : r.Valid) (hsub : r.freq.isSubDaily = false)
    (hbound : ∀ last ∈ r.untilBound, last.hasTime = false) (hd : d.IsReal) (ht : t.IsReal)
    (budget : Int) :
    ∃ s s', Settles (fun n => Series.create n r.withoutTimes (.ofDateTime d t) .utc budget) (.ok s) ∧
      Settles (fun n => Series.create n r (.ofDate d) .utc budget) (.ok s') ∧
      Series.InStep (Value.AtTime t) (Value.AtTime t) (Candidates.InStepAtTime t)
        ⟨r.withoutTimes, .ofDateTime d t, .utc⟩ ⟨r, .ofDate d, .utc⟩ s s' := by
  have hreal : (Value.ofDateTime d t).IsReal := ⟨hd, by rintro _ ⟨⟩; exact ht⟩
  have hadmits : r.withoutTimes.Admits (.ofDateTime d t) := ⟨valid_withoutTimes hr, hreal, fun _ => rfl⟩
  have hplain : r.Admits (.ofDate d) := ⟨hr, ⟨hd, nofun⟩, by simp [hsub]⟩
  have hreach : r.withoutTimes.reaches (.ofDateTime d t) = r.reaches (.ofDate d) := by
    have hdays : dayUnits r.freq = none := by
      rcases Frequency.cases_of_days hsub with hf | hf | hf | hf <;> rw [hf] <;> rfl
    simp only [Rule.reaches, show r.withoutTimes.freq = r.freq from rfl, hdays]
  rcases (Series.parallel_atTime hsub hbound d t).settles hadmits.valid hreal (.inr hsub) hreach
    fun n => (candidates_inStep_atTime hplain hsub t).runFirst (Generator.lockstep_atTime t) n with
    ⟨e, -, he, -, -⟩ | h
  · obtain ⟨-, s, hs, -⟩ := Rule.exists_live hadmits .utc budget
    obtain ⟨n, hn⟩ := hs.exists_bound
    exact absurd (Patient.eq_of_settles (Series.patient_create _ _ .utc budget) he hn) (by simp)
  · exact h

/-- **Series of dates are the dates of series with a time of day.**  Take any valid rule with a
frequency not below the day whose bound, if it has one, is a date, any real date and time of day,
and any budget.  In UTC, the rule without its times has a series from the date and time.  Every
valid rule that differs at most in its times, so the rule itself, has a series from the date alone,
and this one returns the dates of what the other returns, up to its end. -/
theorem date_series_drops_times (hr : r.Valid) (hsub : r.freq.isSubDaily = false)
    (hbound : ∀ last ∈ r.untilBound, last.hasTime = false) (hd : d.IsReal) (ht : t.IsReal)
    (budget : Int) :
    ∃ s vs, Settles (fun n => Series.create n r.withoutTimes (.ofDateTime d t) .utc budget) (.ok s) ∧
      s.Plays vs ∧ ∀ r' : Rule, r'.Valid → r'.withoutTimes = r.withoutTimes →
        ∃ s', Settles (fun n => Series.create n r' (.ofDate d) .utc budget) (.ok s') ∧
          s'.Plays (vs.map Value.withoutTime) := by
  obtain ⟨s, -, hs, -, -⟩ := Rule.exists_inStep_atTime hr hsub hbound hd ht budget
  obtain ⟨n, hn⟩ := hs.exists_bound
  obtain ⟨S, -, hlive, -⟩ := (Series.Reachable.create hn).live (Rule.valid_withoutTimes hr)
    (show (Value.ofDateTime d t).IsReal from ⟨hd, by rintro _ ⟨⟩; exact ht⟩)
  obtain ⟨vs, hplays⟩ := hlive.exists_plays
  refine ⟨s, vs, hs, hplays, fun r' hr' hsame => ?_⟩
  have hfreq : r'.freq = r.freq :=
    show r'.withoutTimes.freq = r.withoutTimes.freq by rw [hsame]
  have huntil : r'.untilBound = r.untilBound :=
    show r'.withoutTimes.untilBound = r.withoutTimes.untilBound by rw [hsame]
  obtain ⟨s₁, s', hs₁, hs', h⟩ := Rule.exists_inStep_atTime hr' (hfreq ▸ hsub) (huntil ▸ hbound) hd ht
    budget
  rw [hsame] at hs₁
  obtain rfl := Series.create_unique hs₁ hn
  exact ⟨s', hs', h.plays (Series.parallel_atTime (hfreq ▸ hsub) (huntil ▸ hbound) d t)
    (fun _ _ hu => hu.2) hplays⟩

/-- The last workday of each month up to a bound, from an evening on: the bound is the date of the
last evening.  The hour that the rule lists has no meaning for dates. -/
theorem date_series_drops_times_workdays :
    let r : Rule := { freq := .monthly, untilBound := some (.ofDate ⟨2024, 2, 29⟩), byHour := [9],
                      byDay := [.every .mo, .every .tu, .every .we, .every .th, .every .fr],
                      bySetPos := [-1] }
    let evening : TimeOfDay := ⟨17, 30, 0⟩
    let values : List Value :=
      [.ofDateTime ⟨2024, 1, 31⟩ evening, .ofDateTime ⟨2024, 2, 29⟩ evening]
    r.Valid ∧ ∃ s s' vs,
      Settles (fun n => Series.create n r.withoutTimes (.ofDateTime ⟨2024, 1, 10⟩ evening) .utc 10)
        (.ok s) ∧
      Settles (fun n => Series.create n r (.ofDate ⟨2024, 1, 10⟩) .utc 10) (.ok s') ∧
      s.Plays vs ∧ s'.Plays (vs.map Value.withoutTime) ∧ vs.take 2 = values := by
  intro r evening values
  have hvalid : r.Valid := by decide
  have hbound : ∀ last ∈ r.untilBound, last.hasTime = false := by
    rintro _ ⟨⟩
    rfl
  obtain ⟨s, vs, hs, hplays, hdates⟩ := date_series_drops_times hvalid rfl hbound
    (show (⟨2024, 1, 10⟩ : Date).IsReal by decide) (show evening.IsReal by decide) 10
  obtain ⟨s', hs', hplays'⟩ := hdates r hvalid rfl
  -- what the series with the time of day returns is computed
  obtain ⟨s₁, t, t', hcreate₁, hrun, -⟩ := Series.returns_of_wholeRunOf
    (show Series.wholeRunOf 50 9 r.withoutTimes (.ofDateTime ⟨2024, 1, 10⟩ evening) .utc 10 =
      some values by decide +kernel)
  obtain rfl := Series.create_unique hs hcreate₁
  exact ⟨hvalid, _, s', vs, hs, hs', hplays, hplays', (hplays.returns hrun).1⟩

end Recurrence
