/-
Recurrence/Proofs/GregorianCycle.lean

The cycle of the calendar is a symmetry of series.

A series that starts 400 years later goes in step with the series that starts now: its generators
are those of the other one, moved by a cycle, and periods, positions and counts do not see the
difference.  So what is known of the years of one cycle is known of all years, also of those before
the year 1 and beyond the year 9999 (`gregorian_cycle_is_symmetry`).
-/
import Recurrence.Proofs.Generators.Cycle
import Recurrence.Proofs.Series.Likeness

namespace Recurrence

variable {r : Rule} {start : Value} {budget : Int}

/-- A call with its target 400 years later. -/
def CursorCall.later : CursorCall → CursorCall
  | advanceTo target => advanceTo target.later
  | call => call

/-- An answer with its value 400 years later. -/
def CursorAnswer.later : CursorAnswer → CursorAnswer
  | value v => value v.later
  | answer => answer

namespace Series

theorem roundTarget_later {s t : Series} (h : t.start = s.start.later) (target : Value) :
    t.roundTarget target.later = (s.roundTarget target).later := by
  unfold roundTarget hasTime
  rw [h, Value.later_time, Value.hasTime_later, Value.withoutTime_later, Value.addDays_later]
  cases target.time with
  | none => rfl
  | some t =>
    dsimp only
    split_ifs <;> rfl

/-- A rule without a bound goes in step with itself 400 years later. -/
theorem parallel_later (r : Rule) (huntil : r.untilBound = none) (start : Value) :
    Parallel (fun v v' => v' = v.later) (fun v v' => v' = v.later) Candidates.InStepLater
      ⟨r, start, .utc⟩ ⟨r, start.later, .utc⟩ where
  candidates := Candidates.InStep.lockstep Generator.later_lockstep
  freq := rfl
  counts := rfl
  bySetPos := rfl
  positions := samePositions_refl _
  key _ v v' w w' hv hw := by
    subst hv hw
    exact (periodKey_later_eq_iff r.freq r.weekStart v w).symm
  ending := by
    refine ⟨rfl, fun last hlast => ?_⟩
    exact absurd (huntil.symm.trans (Ending.untilBound_of_ofRule hlast)) (by simp)
  startUtc := .ok rfl
  toUtc _ _ hv := .ok hv
  fromUtc _ _ hu := .ok hu
  lt_iff u u' w w' hu hw := by
    subst hu hw
    exact Value.later_lt_iff.symm
  key_lt_iff u u' w w' hu hw := by
    subst hu hw
    exact Value.key_later_lt_iff.symm

/-- The same call and the same target, 400 years later. -/
theorem sameCall_later (r : Rule) (start : Value) (call : CursorCall) :
    SameCall (fun v v' => v' = v.later) ⟨r, start, .utc⟩ ⟨r, start.later, .utc⟩ call call.later := by
  cases call with
  | hasNext => exact .hasNext
  | next => exact .next
  | advanceTo target =>
    exact .advanceTo fun s t hs ht => roundTarget_later (ht.trans (congrArg Value.later hs.symm)) target

theorem SameReply.eq_later {a a' : CursorAnswer}
    (h : SameReply (fun v v' => v' = v.later) ⟨r, start, .utc⟩ ⟨r, start.later, .utc⟩ a a') :
    a' = a.later := by
  cases h with
  | more _ | moved => rfl
  | value hu => exact congrArg CursorAnswer.value hu
  | failed he => cases he <;> rfl

end Series

/-- **The cycle of the calendar is a symmetry of series.**  Take any valid rule without a bound, any
start with real fields and in any year, and any budget.  In UTC, either both the start and the
one 400 years later are refused for the same reason, or both have a series, and what the later
series returns, up to its end, is what the other returns with 400 added to every year.  The same
holds of all calls in any order, with targets moved by 400 years. -/
theorem gregorian_cycle_is_symmetry (hr : r.Valid) (huntil : r.untilBound = none)
    (hreal : start.IsReal) (budget : Int) :
    (∃ e, Settles (fun n => Series.create n r start .utc budget) (.error e) ∧
      Settles (fun n => Series.create n r start.later .utc budget) (.error e)) ∨
    ∃ s s' vs, Settles (fun n => Series.create n r start .utc budget) (.ok s) ∧
      Settles (fun n => Series.create n r start.later .utc budget) (.ok s') ∧
      s.Plays vs ∧ s'.Plays (vs.map Value.later) ∧
      ∀ calls, ∃ answers t t', Settles (fun n => (Series.ops n).askAll calls s) (answers, t) ∧
        Settles (fun n => (Series.ops n).askAll (calls.map CursorCall.later) s')
          (answers.map CursorAnswer.later, t') := by
  have hab := Series.parallel_later r huntil start
  have hrun : ∀ n, Option.Rel (SameStep Candidates.InStepLater)
      ((r.candidates start budget).run n ((r.candidates start budget).chain.length - 1) 0)
      ((r.candidates start.later budget).run n
        ((r.candidates start.later budget).chain.length - 1) 0) := by
    rw [r.candidates_later]
    exact fun n => (Candidates.inStep_later _).runFirst Generator.later_lockstep n
  rcases hab.settles hr hreal (.inl rfl) (reaches_later r start).symm hrun with
    ⟨e, e', he, he', hsame⟩ | ⟨s, s', hs, hs', h⟩
  · refine .inl ⟨e, he, ?_⟩
    obtain rfl : e = e' := by cases hsame <;> rfl
    exact he'
  · obtain ⟨n, hn⟩ := hs.exists_bound
    have hreach : Series.Reachable r start .utc budget s := .create hn
    obtain ⟨vs, hplays, hplays'⟩ := h.exists_plays hab (fun _ _ hu => hu) hr hreal hreach
    refine .inr ⟨s, s', vs, hs, hs', hplays, hplays', fun calls => ?_⟩
    obtain ⟨answers, answers', t, t', hanswers, hanswers', hsame⟩ := h.exists_askAll hab hr hreal
      hreach (List.forall₂_map_right_iff.mpr
        (List.forall₂_same.mpr fun call _ => Series.sameCall_later r start call))
    obtain rfl : answers' = answers.map CursorAnswer.later :=
      eq_map_of_rel (fun _ _ h => h.eq_later) hsame
    exact ⟨answers, t, t', hanswers, hanswers'⟩

/-- Two leap days with a century between them that has none, from the year -104 and from the year
296 on. -/
theorem gregorian_cycle_is_symmetry_leap_days :
    let r : Rule := { freq := .yearly, count := some 2, byMonth := [2], byMonthDay := [29] }
    let start : Value := .ofDate ⟨-104, 2, 29⟩
    let values : List Value := [start, .ofDate ⟨-96, 2, 29⟩]
    (r.Valid ∧ r.untilBound = none ∧ start.IsReal) ∧
      ∃ s s' vs, Settles (fun n => Series.create n r start .utc 10) (.ok s) ∧
        Settles (fun n => Series.create n r (.ofDate ⟨296, 2, 29⟩) .utc 10) (.ok s') ∧
        s.Plays vs ∧ s'.Plays (vs.map Value.later) ∧ vs.take 2 = values := by
  intro r start values
  have hvalid : r.Valid := by decide
  have hreal : start.IsReal := by decide
  refine ⟨⟨hvalid, rfl, hreal⟩, ?_⟩
  -- what the earlier series returns is computed
  obtain ⟨s₁, t, t', hcreate₁, hrun, -⟩ := Series.returns_of_wholeRunOf
    (show Series.wholeRunOf 50 9 r start .utc 10 = some values by decide +kernel)
  rcases gregorian_cycle_is_symmetry hvalid rfl hreal 10 with
    ⟨e, he, -⟩ | ⟨s, s', vs, hs, hs', hplays, hplays', -⟩
  · exact absurd (Patient.eq_of_settles (Series.patient_create r start .utc 10) he hcreate₁) (by simp)
  · obtain rfl := Series.create_unique hs hcreate₁
    exact ⟨_, s', vs, hs, hs', hplays, hplays', (hplays.returns hrun).1⟩

end Recurrence
