/-
Recurrence/Proofs/Series/Picks.lean

What the positions have picked, wherever calls have led a series.

The instance that a series with positions holds has been picked from a whole period, or from
the beginning of the last one.  Which of its instances it has come to can be told from its last
key alone, so what its selection still awaits is known in every state (`Series.Picks`).  From
this follows on which years the budget has been spent where the years have given up
(`Series.Picks.spent`).
-/
import Recurrence.Proofs.Series.Selected
import Recurrence.Proofs.Series.States

namespace Recurrence

variable {r : Rule} {start : Value} {budget : Int}

/-! ### Sources -/

/-- A value has been picked from its period; or from the part of it that lies before some later
year, if the years have given up. -/
def Rule.Hands (r : Rule) (start : Value) (budget : Int) (v : Value) (src : InstanceSource) : Prop :=
  (r.course start budget).Selected r.periodNumber r.bySetPos v ∨ src.halted = true ∧
    Selection.SelectedInPart (r.course start budget) r.periodNumber r.bySetPos v

/-- As many years as the budget holds have been spent on one period, while some values were
awaited. -/
def Rule.Spent (r : Rule) (start : Value) (budget : Int) (R : Value → Prop) : Prop :=
  ∃ years n, (r.course start budget).SpentOn r.periodNumber r.bySetPos R years n

variable {R : Value → Prop} {src src' : InstanceSource} {n : Nat}

section Sources

variable (h : r.Admits start) (hbudget : 1 ≤ budget)

include h hbudget

/-- What is spent depends on the members that are awaited alone. -/
theorem Rule.Spent.congr {R' : Value → Prop} (hspent : r.Spent start budget R)
    (hR : ∀ w, (r.course start budget).Member w → (R w ↔ R' w)) : r.Spent start budget R' := by
  obtain ⟨years, n, hspent⟩ := hspent
  refine ⟨years, n, { hspent with aside := fun w hw => ?_ }⟩
  have hm := hw.member (Rule.divides h (show 0 ≤ budget by omega))
    (Rule.begins_course h (show 0 ≤ budget by omega))
  rw [← hR w hm]
  exact hspent.aside w hw

/-- **The years have not given up** on a selection unless they have spent their budget. -/
theorem spent_of_awaits (hawaits : (r.selectedSupply start budget).Awaits src R)
    (hhalted : src.halted = true) : r.Spent start budget R := by
  obtain ⟨s, rfl, ⟨base, U, hs⟩ | hs⟩ := hawaits
  · have hrunning := hs.not_halted (Rule.begins_course h (show 0 ≤ budget by omega))
    exact absurd (hrunning.symm.trans hhalted) (by simp)
  · obtain ⟨years, n, hspent, -⟩ := hs.spent hbudget
    exact ⟨years, n, hspent⟩

/-- **The next value** of a selection has been picked. -/
theorem selectedSupply_next (hpos : r.bySetPos ≠ [])
    (hawaits : (r.selectedSupply start budget).Awaits src R) :
    ∃ a src', Settles (fun n => src.next r n) (a, src') ∧
      ((∃ v, a = .ok (some v) ∧ (r.course start budget).Member v ∧ R v ∧
          (r.selectedSupply start budget).Awaits src' (v < ·) ∧ r.Hands start budget v src') ∨
        a = .ok none ∧ (src'.halted = true → r.Spent start budget R)) := by
  have hK := Rule.begins_course h (show 0 ≤ budget by omega)
  have hd := Rule.divides h (show 0 ≤ budget by omega)
  obtain ⟨s, rfl, hs⟩ := hawaits
  obtain ⟨⟨a, s'⟩, hsettles, hnext⟩ : ∃ b, Settles (fun n => s.next (Candidates.next n)
      (fun c => c.credit 0) (periodKey r.freq r.weekStart) n) b ∧
        Selection.NextIs (r.course start budget) r.periodNumber r.bySetPos R b := by
    rcases hs with ⟨base, U, hs⟩ | hs
    · exact hs.next hK (Rule.credited_course_eq_none hpos) hd hpos
    · obtain ⟨b, hturn, -, hb⟩ := hs.turn hK hd
      exact ⟨b, hturn.finish, hb⟩
  refine ⟨a, .selected s', hsettles.map fun b => (b.1, InstanceSource.selected b.2), ?_⟩
  rcases hnext with ⟨v, hv, hm, hR, ⟨hs', hleast⟩ | ⟨hs', hpart⟩⟩ | ⟨hnone, hs' | hidle⟩
  · exact .inl ⟨v, hv, hm, hR, ⟨s', rfl, .inl hs'⟩, .inl hleast.1.1⟩
  · exact .inl ⟨v, hv, hm, hR, ⟨s', rfl, .inr hs'⟩, .inr ⟨hs'.halted, hpart hbudget⟩⟩
  · exact .inr ⟨hnone, spent_of_awaits h hbudget ⟨s', rfl, .inr hs'⟩⟩
  · exact .inr ⟨hnone, fun hhalted => absurd (hidle.halted.symm.trans hhalted) (by simp)⟩

end Sources

/-! ### Series -/

namespace Series

variable {s s' : Series} {v w : Value}

/-- A series has come to a value: its last instance does not lie before it. -/
def HasComeTo (s : Series) (w : Value) : Prop := ∃ k ∈ s.lastKey, w.key ≤ k

/-- The source of a series awaits the values that the series has not come to. -/
def AwaitsRest (r : Rule) (start : Value) (budget : Int) (s : Series) : Prop :=
  ∃ R, (r.selectedSupply start budget).Awaits s.source R ∧
    ∀ w, (r.course start budget).Member w → (R w ↔ ¬ s.HasComeTo w)

/-- What holds of a series with positions in UTC, wherever calls have led it. -/
structure Picks (r : Rule) (start : Value) (budget : Int) (s : Series) : Prop where
  rule : s.rule = r
  zone : s.zone = .utc
  pending : ∀ v ∈ s.pending, r.Hands start budget v s.source
  source : s.AwaitsRest r start budget ∨
    s.finished = true ∧ (s.source.halted = true → r.Spent start budget fun w => ¬ s.HasComeTo w)

theorem hasComeTo_iff (hlast : s.lastKey = some v.key) (hkind : v.hasTime = w.hasTime) :
    s.HasComeTo w ↔ w ≤ v := by
  rw [HasComeTo, hlast, Value.le_iff_key hkind.symm]
  simp

section

variable (h : r.Admits start) (hbudget : 1 ≤ budget)

include h hbudget

/-- **The years have not given up** on a series unless they have spent their budget. -/
theorem Picks.spent (hs : s.Picks r start budget) (hhalted : s.source.halted = true) :
    r.Spent start budget fun w => ¬ s.HasComeTo w := by
  rcases hs.source with ⟨R, hawaits, hR⟩ | ⟨-, hspent⟩
  · exact Rule.Spent.congr h hbudget (spent_of_awaits h hbudget hawaits hhalted) hR
  · exact hspent hhalted

variable (hpos : r.bySetPos ≠ [])

include hpos

/-- **What is generated** has been picked, and the series comes to it. -/
theorem picks_generate (hrule : s.rule = r) (hzone : s.zone = .utc)
    (hsource : s.AwaitsRest r start budget) {a : Except SeriesError (Option (Value × Value))}
    (hg : s.generate n = some (a, s')) :
    (∃ v, a = .ok (some (v, v)) ∧ s'.AwaitsRest r start budget ∧ r.Hands start budget v s'.source) ∨
      a = .ok none ∧
        (s'.source.halted = true → r.Spent start budget fun w => ¬ s'.HasComeTo w) := by
  have hbudget' : 0 ≤ budget := by omega
  obtain ⟨R, hawaits, hR⟩ := hsource
  obtain ⟨answer, src, hnext, hout⟩ := selectedSupply_next h hbudget hpos hawaits
  rw [← hrule] at hnext
  rcases hout with ⟨v, rfl, hm, hRv, hawaits', hhands⟩ | ⟨rfl, hspent⟩
  · -- the series has not come to the value before, so it is not dropped
    have hnew : ∀ k ∈ s.lastKey, k < v.key := fun k hk =>
      not_le.mp fun hle => (hR v hm).mp hRv ⟨k, hk, hle⟩
    have hutc : v.toUtc s.zone = .ok v := by rw [hzone]; rfl
    obtain ⟨rfl, rfl⟩ := Prod.mk.inj (Patient.eq_of_settles (patient_generate s)
      (settles_attempt_new hnext hutc hnew).finish hg)
    refine .inl ⟨v, rfl, ⟨(v < ·), hawaits', fun w hw => ?_⟩, hhands⟩
    have hkind := (Rule.member_isReal h hbudget' hm).2.trans (Rule.member_isReal h hbudget' hw).2.symm
    rw [hasComeTo_iff rfl hkind, not_le]
  · obtain ⟨rfl, rfl⟩ := Prod.mk.inj (Patient.eq_of_settles (patient_generate s)
      (settles_attempt_none hnext).finish hg)
    exact .inr ⟨rfl, fun hhalted => Rule.Spent.congr h hbudget (hspent hhalted) hR⟩

omit h hbudget hpos in
theorem AwaitsRest.congr (hs : s.AwaitsRest r start budget) (hsource : s'.source = s.source)
    (hlast : s'.lastKey = s.lastKey) : s'.AwaitsRest r start budget := by
  obtain ⟨R, hawaits, hR⟩ := hs
  refine ⟨R, hsource ▸ hawaits, fun w hw => ?_⟩
  rw [hR w hw, HasComeTo, HasComeTo, hlast]

omit h hbudget hpos in
/-- A picked instance is held, or it ends the series. -/
theorem Picks.judge (hrule : s.rule = r) (hzone : s.zone = .utc) (hpending : s.pending = none)
    (hsource : s.AwaitsRest r start budget) (hv : r.Hands start budget v s.source) :
    (s.judge v v).2.Picks r start budget where
  rule := (sameRule_judge s v v).rule.trans hrule
  zone := (sameRule_judge s v v).zone.trans hzone
  pending := by
    rw [judge_source, judge_eq]
    split_ifs
    · rintro _ ⟨⟩
      exact hv
    · simp [hpending]
  source := .inl (hsource.congr (judge_source s v v) (judge_lastKey s v v))

theorem Picks.hasNext (hs : s.Picks r start budget) {a : Except SeriesError Bool}
    (hn : s.hasNext n = some (a, s')) : s'.Picks r start budget := by
  rcases hasNext_cases hn with ⟨-, rfl⟩ | ⟨hpending, hfinished, answer, s₁, hg, hout⟩
  · exact hs
  have hdraws := draws_of_generate hg
  have hrule := hdraws.rule.trans hs.rule
  have hzone := hdraws.zone.trans hs.zone
  have hnone := hdraws.pending.trans hpending
  rcases picks_generate h hbudget hpos hs.rule hs.zone
    (hs.source.resolve_right (by simp [hfinished])) hg with ⟨v, rfl, hsource, hhands⟩ | ⟨rfl, hspent⟩
  · rcases hout with ⟨e, he, -⟩ | ⟨he, -⟩ | ⟨w, u, hw, rfl⟩
    · exact absurd he (by simp)
    · exact absurd he (by simp)
    · obtain ⟨rfl, rfl⟩ : v = w ∧ v = u := by simpa using hw
      exact .judge hrule hzone hnone hsource hhands
  · rcases hout with ⟨e, he, -⟩ | ⟨-, rfl⟩ | ⟨v, u, hv, -⟩
    · exact absurd he (by simp)
    · exact ⟨hrule, hzone, by simp [hnone], .inr ⟨rfl, hspent⟩⟩
    · exact absurd hv (by simp)

omit h hbudget hpos in
/-- A selection does not pass over months. -/
theorem Picks.passOver (hs : s.Picks r start budget) (hfinished : s.finished = false) {target : Value}
    {a : Except SeriesError Unit} (hn : s.passOver n target = some (a, s')) :
    s'.Picks r start budget := by
  obtain ⟨R, ⟨sel, hsource, -⟩, -⟩ := hs.source.resolve_right (by simp [hfinished])
  rcases passOver_cases hn with rfl | ⟨c, l, step, c', hplain, -⟩
  · exact hs
  · exact absurd (hsource.symm.trans hplain) (by simp)

/-- Dropping the instances before the start leads to a picked one, or ends the series. -/
theorem picks_start (hrule : s.rule = r) (hzone : s.zone = .utc) (hpending : s.pending = none)
    (hsource : s.AwaitsRest r start budget) {startUtc : Value}
    (hn : loop (startTurn n startUtc) n s = some (.ok (), s')) : s'.Picks r start budget := by
  refine loop_invariant
    (P := fun s => s.rule = r ∧ s.zone = .utc ∧ s.pending = none ∧ s.AwaitsRest r start budget)
    (Q := fun b => b.1 = .ok () → b.2.Picks r start budget) ?_ ?_
    ⟨hrule, hzone, hpending, hsource⟩ hn rfl
  · rintro s s' ⟨hrule, hzone, hpending, hsource⟩ ht
    obtain ⟨answer, s₁, hg, ⟨e, ht⟩ | ⟨-, ht⟩ | ⟨v, u, rfl, ⟨-, ht⟩ | ⟨-, ht⟩⟩⟩ :=
      startTurn_cases ht <;> simp only [reduceCtorEq, Turn.again.injEq] at ht
    have hdraws := draws_of_generate hg
    obtain ⟨w, -, hsource', -⟩ :=
      (picks_generate h hbudget hpos hrule hzone hsource hg).resolve_right (by simp)
    rw [ht]
    exact ⟨hdraws.rule.trans hrule, hdraws.zone.trans hzone, hdraws.pending.trans hpending, hsource'⟩
  · rintro s b ⟨hrule, hzone, hpending, hsource⟩ ht hb
    obtain ⟨answer, s₁, hg, hout⟩ := startTurn_cases ht
    have hdraws := draws_of_generate hg
    have hrule' := hdraws.rule.trans hrule
    have hzone' := hdraws.zone.trans hzone
    have hnone := hdraws.pending.trans hpending
    have hgenerated := picks_generate h hbudget hpos hrule hzone hsource hg
    rcases hout with ⟨e, ht⟩ | ⟨rfl, ht⟩ | ⟨v, u, rfl, ⟨-, ht⟩ | ⟨-, ht⟩⟩ <;>
      simp only [reduceCtorEq, Turn.done.injEq] at ht <;> subst ht
    · exact absurd hb (by simp)
    · obtain ⟨-, hspent⟩ := hgenerated.resolve_left (by simp)
      exact ⟨hrule', hzone', by simp [hnone], .inr ⟨rfl, hspent⟩⟩
    · obtain ⟨w, hw, hsource', hhands⟩ := hgenerated.resolve_right (by simp)
      obtain ⟨rfl, rfl⟩ : v = w ∧ u = w := by simpa using hw
      exact .judge hrule' hzone' hnone hsource' hhands

/-- **A new series** has given up only if the years have spent their budget. -/
theorem picks_create (hc : create n r start .utc budget = some (.ok s)) : s.Picks r start budget := by
  have hbudget' : 0 ≤ budget := by omega
  have hK := Rule.begins_course h hbudget'
  have hd := Rule.divides h hbudget'
  have hyear : ∀ w, (r.course start budget).Member w → start.date.year ≤ w.date.year := fun w hw =>
    Rule.year_le_of_builds h hbudget' hw.1
  have hnew : ∀ c w, ¬ (unstarted r start .utc c).HasComeTo w := by simp [HasComeTo, unstarted]
  -- a series that has stopped at once holds nothing
  have hstop : ∀ c, (c.gaveUp = true → r.Spent start budget fun _ => True) →
      { unstarted r start .utc c with finished := true }.Picks r start budget := by
    intro c hspent
    refine ⟨rfl, rfl, by simp [unstarted], .inr ⟨rfl, fun hhalted => ?_⟩⟩
    refine Rule.Spent.congr h hbudget (hspent ?_) fun w _ => (iff_of_true trivial (hnew c w))
    simpa [unstarted, Rule.sourceOf_selection hpos, InstanceSource.halted] using hhalted
  by_cases hreach : r.reaches start = true
  · rcases Rule.run_candidates h hbudget' with ⟨c, hrun, hawaits⟩ | ⟨c, hrun, -, hex⟩
    · rcases create_cases hc with ⟨-, hnever⟩ | ⟨c', startUtc, hfills, -, hloop⟩
      · obtain ⟨m, hm⟩ := hrun.exists_bound
        exact absurd ⟨hreach, hm⟩ (hnever m c)
      · obtain ⟨-, rfl⟩ := Prod.mk.inj
          (Patient.eq_of_settles (patient_candidatesRun _ _ _) hrun hfills.2)
        refine picks_start h hbudget hpos rfl rfl rfl
          ⟨fun w => start.date.year ≤ w.date.year, ?_, fun w hw => iff_of_true (hyear w hw) (hnew _ w)⟩
          hloop
        exact ⟨_, Rule.sourceOf_selection hpos _, .inl
          ⟨_, _, Rule.onCourse_of_awaits h hbudget' hpos hawaits⟩⟩
    · obtain rfl := create_unique (Rule.create_of_halt h .utc hreach hrun) hc
      refine hstop c fun _ => ?_
      obtain ⟨years, hspent, -⟩ := hex.spentOn hK hbudget (fun v _ hnot => absurd trivial hnot)
        fun v hv _ hnot => absurd (hv.member hd hK).1 hnot
      exact ⟨years, 0, hspent⟩
  · obtain rfl := create_unique
      (Rule.create_of_not_reaches h .utc budget (by simpa using hreach)) hc
    refine hstop _ fun hgave => absurd hgave ?_
    simp [Rule.not_gaveUp_candidates r start hbudget']

end

end Series

/-- **Wherever calls have led a series** with positions in UTC, what it holds has been picked. -/
theorem Rule.picks_of_reachable (hr : r.Valid) (hreal : start.IsReal) (hbudget : 1 ≤ budget)
    (hpos : r.bySetPos ≠ []) {s : Series} (hs : Series.Reachable r start .utc budget s) :
    s.Picks r start budget := by
  have h := hs.admits hr hreal
  refine hs.invariant (fun n s a s' hs hn => hs.hasNext h hbudget hpos hn)
    (fun s hs => ⟨hs.rule, hs.zone, by simp, hs.source⟩)
    (fun n target s a s' hs _ hfinished hn => hs.passOver hfinished hn)
    fun n s hc => Series.picks_create h hbudget hpos hc

end Recurrence
