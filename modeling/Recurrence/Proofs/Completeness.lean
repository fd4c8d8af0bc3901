/-
Recurrence/Proofs/Completeness.lean

A rule without positions leaves no match out.

The instances that a series returns go through the matches of its rule in ascending
order and without a gap.  A series that has ended has returned every match within its
bound, unless its count is used up or as many years have passed without a match as it
was told to wait (`expansion_complete`).
-/
import Recurrence.Proofs.Series.Allowance
import Recurrence.Proofs.Series.Chain
import Recurrence.Proofs.Series.States

namespace Recurrence

variable {r : Rule} {start : Value} {budget : Int}

/-- As many years as the budget holds, each with a period in phase, lie one after another
behind all values and before `w`. -/
def Rule.IdleBefore (r : Rule) (start : Value) (budget : Int) (vs : List Value) (w : Value) :
    Prop :=
  ∃ years : List Int, (years.length : Int) = budget ∧ years.Pairwise (· < ·) ∧
    ∀ y ∈ years, start.date.year ≤ y ∧ (∀ v ∈ vs, v.date.year < y) ∧ y < w.date.year ∧
      ∃ x : Value, x.IsReal ∧ x.hasTime = start.hasTime ∧ x.date.year = y ∧ r.InPhase start x

/-- A rule without positions counts every candidate as an instance. -/
theorem Rule.isSome_credited_course (hpos : r.bySetPos = []) :
    (r.course start budget).credited.isSome = true := by
  rcases Rule.course_cases r start budget with ⟨-, hc⟩ | ⟨t, -, -, hc⟩ | ⟨-, hc⟩ <;> rw [hc, hpos] <;>
    rfl

/-- The supply of a rule without positions, with the year of its last instance. -/
def Rule.chainSupply (r : Rule) (start : Value) (budget : Int) : Supply :=
  (r.course start budget).supply ((r.course start budget).TiedToYear start)

theorem Rule.begins_chainSupply (h : r.Admits start) (hbudget : 0 ≤ budget)
    (hpos : r.bySetPos = []) : (r.chainSupply start budget).Begins r start budget :=
  Rule.begins_chain h hbudget hpos
    (Course.ties_toYear (Rule.isSome_credited_course hpos))

/-- What a new series without positions tracks: the matches from the start on within the
bound of the rule. -/
theorem left_chainSupply_iff (h : r.Admits start) (hbudget : 0 ≤ budget) (e : Ending) (u : Value) :
    (r.chainSupply start budget).Left e .utc (start ≤ ·) u ↔
      r.Matches start u ∧ start ≤ u ∧ e.Admits u u := by
  have hlist := (listStart_spec (r := r) h.real).2.2.1
  constructor
  · rintro ⟨w, hw, hle, hadm, rfl⟩
    exact ⟨(Rule.member_iff h hbudget (hlist.trans hle)).mp hw, hle, hadm⟩
  · rintro ⟨hm, hle, hadm⟩
    exact ⟨u, (Rule.member_iff h hbudget (hlist.trans hle)).mpr hm, hle, hadm, rfl⟩

/-- The years in which a series gave up were idle. -/
theorem Rule.idleBefore_of_exhausted (h : r.Admits start) {base : Int} {left : Value → Prop}
    (hex : (r.course start budget).Exhausted base left) {vs : List Value} {w : Value}
    (hvs : ∀ v ∈ vs, v.date.year ≤ base) (hw : left w) : r.IdleBefore start budget vs w := by
  obtain ⟨years, hlen, hasc, hyears, hleft⟩ := hex
  refine ⟨years, hlen, hasc, fun y hy => ?_⟩
  obtain ⟨⟨hnames, hfrom⟩, hbase, -⟩ := hyears y hy
  have hstart : start.date.year ≤ y := hfrom rfl _ (Rule.first_start r start budget)
  exact ⟨hstart, fun v hv => (hvs v hv).trans_lt hbase, hleft w hw y hy,
    exists_inPhase_of_names h hnames hstart⟩

/-- **Expansion is complete.**  A series of a valid rule without positions can be created
wherever the rule can use the start.  It always has an answer.  Once it has returned a
value it has returned every match from the start up to it.  And once it has ended, each
match that it has not returned lies beyond the end of the rule, or so many idle years
after the last instance as it was told to wait. -/
theorem expansion_complete (hr : r.Valid) (hreal : start.IsReal) (hpos : r.bySetPos = [])
    (hbudget : 1 ≤ budget) :
    ((r.freq.isSubDaily = true → start.hasTime = true) →
      ∃ s₀, Settles (fun n => Series.create n r start .utc budget) (.ok s₀)) ∧
    ∀ (bound : Nat) (s₀ s : Series) (vs : List Value),
      Series.create bound r start .utc budget = some (.ok s₀) → s₀.Returns vs s →
        s.Proceeds ∧
        (∀ v ∈ vs, ∀ w, r.Matches start w → start ≤ w → w ≤ v → w ∈ vs) ∧
        ∀ s', s.Ends s' → ∀ w, r.Matches start w → start ≤ w → w ∉ vs →
          r.count = some (vs.length : Int) ∨
          (∃ last, r.untilBound = some last ∧ Ending.withinBound last w w = false) ∨
          r.IdleBefore start budget vs w := by
  have hbudget' : 0 ≤ budget := by omega
  refine ⟨fun hsub => ?_, fun bound s₀ s vs hcreate hrun => ?_⟩
  · have hadmits : r.Admits start := ⟨hr, hreal, hsub⟩
    obtain ⟨s₀, F, hsettles, -⟩ :=
      (Rule.begins_chainSupply hadmits hbudget' hpos).create hadmits
        (show Zone.Steady .utc from trivial)
    exact ⟨s₀, hsettles⟩
  have hadmits := Series.admits_of_create hr hreal hcreate
  obtain ⟨s₁, F, hsettles, hfits, -, hstart, hzone, htracks, hF⟩ :=
    (Rule.begins_chainSupply hadmits hbudget' hpos).create hadmits
        (show Zone.Steady .utc from trivial)
  obtain rfl : s₀ = s₁ :=
    Except.ok.inj (Patient.eq_of_settles (Series.patient_create r start .utc budget) hsettles hcreate)
  have hF : ∀ u, F u ↔ r.Matches start u ∧ start ≤ u ∧ (Ending.ofRule r).Admits u u := fun u =>
    (hF.resolve_left id u).trans (left_chainSupply_iff hadmits hbudget' _ u)
  obtain ⟨hrule, -, F', htracks', hsegment⟩ := htracks.returns hfits hrun
  obtain ⟨hsegment, hF'⟩ := hsegment.resolve_left id
  have hfits' := hfits.of_sameRule hrule
  have hkind : ∀ {v w}, r.Matches start v → r.Matches start w → v.hasTime = w.hasTime :=
    fun hv hw => hv.2.1.trans hw.2.1.symm
  have hclosed : ∀ v ∈ vs, ∀ w, r.Matches start w → start ≤ w → w ≤ v → w ∈ vs := by
    intro v hv w hw hle hwv
    obtain ⟨hmv, -, hadm⟩ := (hF v).mp (hsegment.mem v hv)
    refine hsegment.closed v hv w ((hF w).mpr ⟨hw, hle, ?_⟩) hwv
    exact hadm.anti (Value.date_key_le (hkind hw hmv) hwv) (hkind hw hmv) hwv
  refine ⟨htracks'.proceeds hfits', hclosed, fun s' hend w hw hle hnot => ?_⟩
  by_cases hadm : (Ending.ofRule r).Admits w w
  · -- within the bound, so it is still tracked when the series ends
    have hFw : F w := (hF w).mpr ⟨hw, hle, hadm⟩
    have hafter : ∀ v ∈ vs, v < w := fun v hv =>
      lt_of_not_ge fun hwv => hnot (hsegment.closed v hv w hFw hwv)
    obtain ⟨hrule', -, F'', R, htracks'', hpending, hstopped, hsame⟩ := htracks'.ends hfits' hend
    have hF'' : ∀ u, F'' u ↔ F u ∧ ∀ v ∈ vs, v < u := fun u =>
      (hsame.resolve_left id u).trans (hF' u)
    have hrules := hrule.trans hrule'
    have hzone' : s'.zone = .utc := hrules.zone.trans hzone
    have hFw'' : F'' w := (hF'' w).mpr ⟨hFw, hafter⟩
    rcases hstopped with ⟨-, base, htied, hex⟩ | hnone | ⟨m, hm, hcount⟩
    · refine .inr (.inr (Rule.idleBefore_of_exhausted hadmits hex (fun v hv => ?_) ?_))
      · obtain ⟨hmv, hlev, -⟩ := (hF v).mp (hsegment.mem v hv)
        have hmember := (Rule.member_iff hadmits hbudget'
          ((listStart_spec hreal).2.2.1.trans hlev)).mpr hmv
        refine htied v (hmv.2.1.trans (Rule.course_hasTime r start budget).symm) hlev ?_
        apply htracks''.not_awaited (hfits.of_sameRule hrules) hpending hFw'' hmember <;> rw [hzone']
        · exact (hafter v hv).le
        · exact fun hv' => lt_irrefl v (((hF'' v).mp hv').2 v hv)
      · obtain ⟨w', hmember, hR, -, hww'⟩ := (htracks''.left_iff hpending w).mp hFw''
        rw [hzone'] at hww'
        obtain rfl : w = w' := hww'
        exact ⟨hmember, hR⟩
    · exact absurd ((htracks''.left_iff hpending w).mp hFw'') (hnone w)
    · refine .inl ?_
      have hallowance := Series.allowance_create hr hcreate
      rw [Series.allowance_returns hrun, Series.allowance_ends hend hpending hm hcount] at hallowance
      rw [← hallowance, Option.map_some, Int.zero_add]
  · exact .inr (.inl (Ending.of_not_admits hadm))

/-- Every other day, twice, from a date on: both days are returned, nothing between them is
left out, and what is missing is what the count forbids. -/
theorem expansion_complete_every_other_day :
    let r : Rule := { interval := 2, count := some 2, freq := .daily }
    let start : Value := .ofDate ⟨2024, 1, 30⟩
    let vs : List Value := [.ofDate ⟨2024, 1, 30⟩, .ofDate ⟨2024, 2, 1⟩]
    ∃ s₀ s s', Series.create 50 r start .utc 100 = some (.ok s₀) ∧ s₀.Returns vs s ∧ s.Ends s' ∧
      (∀ w, r.Matches start w → start ≤ w → w ≤ .ofDate ⟨2024, 2, 1⟩ → w ∈ vs) ∧
      ∀ w, r.Matches start w → start ≤ w → w ∉ vs →
        r.count = some 2 ∨
        (∃ last, r.untilBound = some last ∧ Ending.withinBound last w w = false) ∨
        r.IdleBefore start 100 vs w := by
  intro r start vs
  obtain ⟨s₀, s, s', hcreate, hrun, hend⟩ := Series.returns_of_wholeRunOf
    (show Series.wholeRunOf 50 5 r start .utc 100 = some vs by decide +kernel)
  obtain ⟨-, hclosed, hleft⟩ := (expansion_complete (show r.Valid by decide)
    (show start.IsReal by decide) rfl (show (1 : Int) ≤ 100 by decide)).2 50 s₀ s vs hcreate hrun
  exact ⟨s₀, s, s', hcreate, hrun, hend, fun w hw hle hwv => hclosed _ (by decide) w hw hle hwv,
    hleft s' hend⟩

end Recurrence
