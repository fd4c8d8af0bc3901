/-
Recurrence/Proofs/DateTargets.lean

Moving a series of date-times ahead to a plain date.

A plain date stands before all date-times of its day, so nothing of that day should be lost.
The month to move to, however, is looked up with the date as it is, while instances are
compared with it in UTC.  A series whose wall clocks are behind UTC may have instances that
are in the month before on the clock and on the first of the month in UTC.  These are
passed over with their month (`advanceTo_date_loses_first`).  No other date has this
problem, and neither has any zone that is not behind UTC (`advanceTo_date_first`).
-/
import Recurrence.Proofs.Cursor.Calls
import Recurrence.Proofs.Skipping

namespace Recurrence

variable {r : Rule} {start : Value} {zone : Zone} {budget : Int} {s s' : Series} {vs : List Value}
  {d : Date} {v w : Value}

/-! ### Dates to aim at -/

theorem Zone.Steady.lead_bounds (hz : zone.Steady) (timed : Bool) :
    -86400 < zone.lead timed ∧ zone.lead timed < 86400 := by
  unfold Zone.lead
  cases timed with
  | false => simp
  | true =>
    cases zone with
    | utc => simp [Zone.offsetAtInstant]
    | fixed offset => exact hz
    | named shown offset => exact hz
    | shifting initial ts => exact hz.elim

namespace Value

theorem lt_of_date_key_lt (h : v.date.key < w.date.key) : v < w := by
  rw [lt_iff_rank]
  exact lt_of_take_lt_take (n := 3) h

/-- What is in a month before a day of the calendar lies before the first of that month. -/
theorem MonthBefore.dayNumber_lt (hv : v.IsReal) (hmonth : 1 ≤ d.month ∧ d.month ≤ 12)
    (h : v.MonthBefore (ofDate d)) : v.date.dayNumber < (⟨d.year, d.month, 1⟩ : Date).dayNumber := by
  rw [← Date.key_lt_iff hv.1 (Date.isReal_first hmonth.1 hmonth.2)]
  apply lt_of_take_lt_take (n := 2)
  show [v.date.year, v.date.month] < [d.year, d.month]
  exact Course.month_lt_iff.mpr h

/-- **A date will do** as a target, unless it is the first of a month and wall clocks are behind
UTC. -/
theorem aims_of_date (hz : zone.Steady)
    (hsafe : 0 ≤ zone.lead true ∨ 1 ≤ d.month ∧ d.month ≤ 12 ∧ 1 < d.day) :
    (ofDate d).Aims zone true := by
  refine ⟨ofDate d, by cases zone <;> rfl, fun w hw ht hmonth => ?_⟩
  obtain ⟨-, hur, hut, hui⟩ := toUtc_of_steady (fun _ => hz) hw
  rw [ht] at hui
  rcases hsafe with hahead | ⟨h1, h12, hday⟩
  · -- in UTC the value is not later than on the clock
    have hle : w.inUtc zone ≤ w := by
      rw [← not_lt, lt_iff_instant hw hur hut.symm]
      omega
    exact hle.trans_lt hmonth.lt
  · -- in UTC the value is less than a day later, so at most on the first of the month
    have hfirst : (⟨d.year, d.month, 1⟩ : Date).IsReal := Date.isReal_first h1 h12
    have hbefore := hmonth.dayNumber_lt hw ⟨h1, h12⟩
    have hlead := hz.lead_bounds true
    have hwday : w.instant < (w.date.dayNumber + 1) * 86400 ∧
        (w.inUtc zone).date.dayNumber * 86400 ≤ (w.inUtc zone).instant := by
      obtain ⟨h1, h2, h3, h4, h5, h6⟩ := Value.timeOrMidnight_isReal hw
      obtain ⟨k1, k2, k3, k4, k5, k6⟩ := Value.timeOrMidnight_isReal hur
      simp only [instant, instantOf, TimeOfDay.seconds, secondsPerDay]
      omega
    have hle : (w.inUtc zone).date.key ≤ [d.year, d.month, 1] := by
      rw [← not_lt]
      intro hlt
      have := (Date.key_lt_iff hfirst hur.1).mp hlt
      omega
    apply lt_of_date_key_lt
    refine hle.trans_lt ?_
    show [d.year, d.month, 1] < [d.year, d.month, d.day]
    rw [key_lt_iff_three]
    omega

end Value

/-! ### Runs that are computed -/

/-- What a new series answers to one call after another, and whether the years have given up
then. -/
def Series.answersOf (bound : Nat) (calls : List CursorCall) (r : Rule) (start : Value) (zone : Zone)
    (budget : Int) : Option (List CursorAnswer × Bool) :=
  match create bound r start zone budget with
  | some (.ok s) =>
    ((Series.ops bound).askAll calls s).map fun (answers, s) => (answers, s.source.halted)
  | _ => none

theorem Series.askAll_of_answersOf {bound : Nat} {calls : List CursorCall}
    {answers : List CursorAnswer} {halted : Bool}
    (h : answersOf bound calls r start zone budget = some (answers, halted)) :
    ∃ s₀ s, create bound r start zone budget = some (.ok s₀) ∧
      (Series.ops bound).askAll calls s₀ = some (answers, s) := by
  unfold answersOf at h
  split at h
  · next s₀ hcreate =>
    obtain ⟨⟨answers', s⟩, hrun, heq⟩ := Option.map_eq_some_iff.mp h
    obtain ⟨rfl, -⟩ := Prod.mk.inj heq
    exact ⟨s₀, s, hcreate, hrun⟩
  · exact absurd h (by simp)

/-! ### The first instance -/

/-- The first value of a run that is not before a target is the least of what was tracked that
is not. -/
theorem Segment.isLeast_of_find? {F : Value → Prop} {target : Value} (h : Segment F vs)
    (hfind : vs.find? (fun u => ¬ u < target) = some v) : IsLeast {u | F u ∧ ¬ u < target} v := by
  obtain ⟨hv, front, back, hsplit, hfront⟩ := List.find?_eq_some_iff_append.mp hfind
  have hmem : v ∈ vs := hsplit ▸ List.mem_append_right _ List.mem_cons_self
  refine ⟨⟨h.mem v hmem, by simpa using hv⟩, fun u hu => ?_⟩
  by_contra hlt
  have hu' := h.closed v hmem u hu.1 (not_le.mp hlt).le
  rw [hsplit, List.mem_append] at hu'
  rcases hu' with hu' | hu'
  · exact hu.2 (by simpa using hfront u hu')
  · -- what comes behind the value is not before it
    have hasc := (List.pairwise_append.mp (hsplit ▸ h.ascending)).2.1
    rcases List.mem_cons.mp hu' with rfl | hu'
    · exact hlt le_rfl
    · exact hlt ((List.pairwise_cons.mp hasc).1 u hu').le

/-- A series that still tracks a value hands one out, unless the years give up. -/
theorem Course.first_of_tracks {K : Course} {F : Value → Prop} (hS : K.freeSupply.Fits s)
    (h : K.freeSupply.Tracks s F) (hleast : IsLeast {u | F u} v)
    (hcount : ∀ s', s.Ends s' → ∀ m, s'.ending ≠ .count m) :
    (∃ s', Settles (fun n => s.next n) (.ok v, s')) ∨
      ∃ s', s.Ends s' ∧ s'.source.halted = true := by
  obtain ⟨a, s', F', hsettles, -, htracks, -, ⟨w, rfl, hw⟩ | ⟨rfl, -⟩⟩ := h.next hS
  · obtain ⟨hw, -⟩ := hw.resolve_left id
    exact .inl ⟨s', hw.unique hleast ▸ hsettles⟩
  · obtain ⟨n, hn⟩ := hsettles.exists_bound
    have hend : s.Ends s' := ⟨n, hn⟩
    obtain ⟨-, -, F'', R, htracks', hpending, hstopped, hsame⟩ := h.ends hS hend
    refine .inr ⟨s', hend, ?_⟩
    rcases hstopped with hover | hnone | ⟨m, -, hm⟩
    · exact hover.1
    · have hv : F'' v := (hsame.resolve_left id v).mpr hleast.1
      exact absurd ((htracks'.left_iff hpending v).mp hv) (hnone v)
    · exact absurd hm (hcount s' hend m)

/-- **A plain date does not lose instances**, if it is not the first of a month or wall clocks
are not behind UTC.  Take a series of date-times of a valid rule without a count and without
positions, in UTC or at a fixed offset, wherever calls have led it.  Moving it ahead to the
date succeeds.  The first instance that stepping alone returns and that is not before the
date is the first one that the series returns after the move, unless the years give up. -/
theorem advanceTo_date_first (hr : r.Valid) (hreal : start.IsReal) (htimed : start.hasTime = true)
    (hpos : r.bySetPos = []) (hcount : r.count = none) (hbudget : 0 ≤ budget) (hz : zone.Steady)
    (hs : Series.Reachable r start zone budget s)
    (hsafe : 0 ≤ zone.lead true ∨ 1 ≤ d.month ∧ d.month ≤ 12 ∧ 1 < d.day) :
    ∃ s', Settles (fun n => s.advanceTo n (.ofDate d)) (.ok (), s') ∧
      ∀ vs s₁ v, s.Returns vs s₁ → vs.find? (fun u => ¬ u < .ofDate d) = some v →
        (∃ s₂, Settles (fun n => s'.next n) (.ok v, s₂)) ∨
          ∃ s₂, s'.Ends s₂ ∧ s₂.source.halted = true := by
  have hK := Rule.begins_course (hs.admits hr hreal) hbudget
  obtain ⟨hfits, hstart, hzone, F, htracks⟩ := Rule.tracks_of_reachable hr hreal hpos hbudget hz hs
  obtain ⟨a, s', F', hsettles, hrule, htracks', hexact⟩ :=
    Course.advanceTo hK hfits htracks (.ofDate d)
  have hhasTime : s.hasTime = true := by rw [Series.hasTime, hstart, htimed]
  have haims : (s.roundTarget (.ofDate d)).Aims s.zone s.hasTime := by
    rw [Series.roundTarget_of_timed hhasTime, hzone, hhasTime]
    exact Value.aims_of_date hz hsafe
  obtain ⟨rfl, hF'⟩ := hexact haims
  rw [Series.roundTarget_of_timed hhasTime] at hF'
  refine ⟨s', hsettles, fun vs s₁ v hvs hfind => ?_⟩
  have hs' : Series.Reachable r start zone budget s' := by
    obtain ⟨n, hn⟩ := hsettles.exists_bound
    exact hs.advanceTo hn
  obtain ⟨-, -, F₁, -, hsegment⟩ := htracks.returns hfits hvs
  have hleast := (hsegment.resolve_left id).1.isLeast_of_find? hfind
  refine Course.first_of_tracks (hfits.of_sameRule hrule) htracks' ?_
    fun s₂ hend => (hs'.ends hend).not_count hr hcount
  exact ⟨(hF' v).mpr hleast.1, fun u hu => hleast.2 ((hF' u).mp hu)⟩

/-- Every evening in a zone five hours behind UTC: moved ahead to the second of February, the
series does not lose the instance in the night before, which is on that day in UTC. -/
theorem advanceTo_date_first_evenings :
    let r : Rule := { freq := .daily, untilBound := some (.ofDate ⟨2024, 2, 2⟩) }
    let start : Value := .ofDateTime ⟨2024, 1, 30⟩ ⟨21, 0, 0⟩
    let zone : Zone := .fixed (-18000)
    ∃ s s', Series.Reachable r start zone 100 s ∧
      Settles (fun n => s.advanceTo n (.ofDate ⟨2024, 2, 2⟩)) (.ok (), s') ∧
      ((∃ s₂, Settles (fun n => s'.next n) (.ok (.ofDateTime ⟨2024, 2, 2⟩ ⟨2, 0, 0⟩), s₂)) ∨
        ∃ s₂, s'.Ends s₂ ∧ s₂.source.halted = true) := by
  intro r start zone
  obtain ⟨s₀, s, s', hcreate, hrun, -⟩ := Series.returns_of_wholeRunOf
    (show Series.wholeRunOf 50 6 r start zone 100 = some [.ofDateTime ⟨2024, 1, 31⟩ ⟨2, 0, 0⟩,
      .ofDateTime ⟨2024, 2, 1⟩ ⟨2, 0, 0⟩, .ofDateTime ⟨2024, 2, 2⟩ ⟨2, 0, 0⟩,
      .ofDateTime ⟨2024, 2, 3⟩ ⟨2, 0, 0⟩] by decide +kernel)
  obtain ⟨s₁, hsettles, hfirst⟩ := advanceTo_date_first (d := ⟨2024, 2, 2⟩) (show r.Valid by decide)
    (show start.IsReal by decide) (show start.hasTime = true from rfl) rfl rfl
    (show (0 : Int) ≤ 100 by decide) (show zone.Steady from ⟨by decide, by decide⟩) (.create hcreate)
    (.inr (show _ by decide))
  exact ⟨s₀, s₁, .create hcreate, hsettles, hfirst _ s _ hrun (show _ by decide)⟩

/-- **The first of a month loses an instance** where wall clocks are behind UTC.  An evening
series five hours behind UTC, asked twice, returns an instance of the first of February.  Moved
ahead to the first of February, it returns that of the second, although the former is not
before the target, and the years have not given up in either run. -/
theorem advanceTo_date_loses_first :
    let r : Rule := { freq := .daily }
    let start : Value := .ofDateTime ⟨2024, 1, 30⟩ ⟨21, 0, 0⟩
    let zone : Zone := .fixed (-18000)
    let target : Value := .ofDate ⟨2024, 2, 1⟩
    Value.ofDateTime ⟨2024, 1, 31⟩ ⟨2, 0, 0⟩ < target ∧
      ¬ Value.ofDateTime ⟨2024, 2, 1⟩ ⟨2, 0, 0⟩ < target ∧
      Series.answersOf 50 [.next, .next] r start zone 100 =
        some ([.value (.ofDateTime ⟨2024, 1, 31⟩ ⟨2, 0, 0⟩),
          .value (.ofDateTime ⟨2024, 2, 1⟩ ⟨2, 0, 0⟩)], false) ∧
      Series.answersOf 50 [.advanceTo target, .next] r start zone 100 =
        some ([.moved, .value (.ofDateTime ⟨2024, 2, 2⟩ ⟨2, 0, 0⟩)], false) := by
  decide +kernel

end Recurrence
