/-
Recurrence/Proofs/SelectionBudget.lean

How far a rule with positions gets on its budget.

A period is complete only when the first candidate of the next one has turned up, and it fills
the budget up only then.  So the years in which a series gives up need not be idle: one period
may have instances in them, the one that the selection was about to complete.  What has been
picked from it is still returned, and it is what the whole period would have given, unless this
is a week that goes on in a later year (`selects_within_budget`).
-/
import Recurrence.Proofs.SelectedInstances
import Recurrence.Proofs.Series.Picks
import Recurrence.Proofs.Soundness

namespace Recurrence

variable {r : Rule} {start v w : Value} {budget y : Int} {s : Series}

/-! ### The years that are spent -/

/-- A series has spent its budget on one period: on as many years as the budget holds, which the
generator of the years comes to one after another.  What is picked from any other period lies before
these years and the series has come to it, or it lies behind them and the series has not. -/
structure Series.SpendsOn (r : Rule) (start : Value) (budget : Int) (s : Series) (years : List Int)
    (n : Int) : Prop where
  length_eq : (years.length : Int) = budget
  ascending : years.Pairwise (· < ·)
  visited : ∀ y ∈ years, r.Visits start budget y
  unbroken : ∀ x ∈ years, ∀ y ∈ years, ∀ z, r.Visits start budget z → x ≤ z → z ≤ y → z ∈ years
  aside : ∀ i : Nat,
    ∀ w ∈ picked r.bySetPos (r.matchesIn start (r.periodNumber start + i * r.interval)),
      r.periodNumber w = n ∨ (s.HasComeTo w ∧ ∀ y ∈ years, w.date.year < y) ∨
        ¬ s.HasComeTo w ∧ ∀ y ∈ years, y < w.date.year

theorem Series.exists_spendsOn (h : r.Admits start) (hbudget : 0 ≤ budget) (hpos : r.bySetPos ≠ [])
    (hspent : r.Spent start budget fun w => ¬ s.HasComeTo w) :
    ∃ years n, s.SpendsOn r start budget years n := by
  obtain ⟨years, n, hspent⟩ := hspent
  refine ⟨years, n, hspent.length_eq, hspent.ascending,
    fun y hy => Rule.wants_iff_visits.mp (hspent.wanted y hy),
    fun x hx y hy z hz => hspent.unbroken x hx y hy z (Rule.wants_iff_visits.mpr hz),
    fun i w hw => ?_⟩
  simpa only [not_not] using
    hspent.aside w ((Rule.mem_picked_matchesIn h hbudget hpos i).mp hw).1

/-! ### Selection -/

/-- **Selecting within a budget.**  Take a series of a valid rule with positions, in UTC, wherever
calls have led it.  Each value that it returns stands at one of the positions among all matches of
its period.  There is one exception: the years have given up, and the value lies in a week that has
more matches in a later year.  Where the years have given up, the series has spent its budget on
years without any instances, but for those of one period. -/
theorem selects_within_budget (hr : r.Valid) (hreal : start.IsReal) (hpos : r.bySetPos ≠ [])
    (hbudget : 1 ≤ budget) (hs : Series.Reachable r start .utc budget s) :
    (∀ (n : Nat) (v : Value) (s' : Series), s.next n = some (.ok v, s') →
      v ∈ picked r.bySetPos (r.matchesIn start (r.periodNumber v)) ∨
        r.freq = .weekly ∧ s'.source.halted = true ∧
          ∃ w ∈ r.matchesIn start (r.periodNumber v), v.date.year < w.date.year) ∧
    (s.source.halted = true → ∃ years n, s.SpendsOn r start budget years n) := by
  have h := hs.admits hr hreal
  have hbudget' : 0 ≤ budget := by omega
  have hK := Rule.begins_course h hbudget'
  have hd := Rule.divides h hbudget'
  have hpicks := Rule.picks_of_reachable hr hreal hbudget hpos hs
  refine ⟨fun n v s' hn => ?_, fun hhalted =>
    Series.exists_spendsOn h hbudget' hpos (hpicks.spent h hbudget hhalted)⟩
  -- the value was held before it was returned
  obtain ⟨b, s₁, hlook, ⟨e, he, -⟩ | ⟨u, hu, hp, rfl⟩⟩ := Series.next_cases hn
  · exact absurd he (by simp)
  obtain rfl : v = u := Except.ok.inj hu
  have hmatch := ((hs.sound hr hreal hbudget').hasNext h hbudget' hlook).pending v hp
  rw [Rule.matchesIn_eq_group h hbudget' hpos hmatch.2.2.1.1]
  rcases (hpicks.hasNext h hbudget hpos hlook).pending v hp with
    hselected | ⟨hhalted, hselected | ⟨w, hw, hperiod, hyear⟩⟩
  · exact .inl hselected
  · exact .inl hselected
  · exact .inr ⟨weekly_of_periodNumber hmatch.1 (hK.isReal hw.1) hperiod.symm hyear, hhalted, w,
      (hd.mem_group hK).mpr ⟨hw, hperiod⟩, hyear⟩

/-- Leap days that are the only ones of their year, with a budget of four years: the first one is
picked from its whole year, and by then the years have given up. -/
theorem selects_within_budget_leap_day :
    let r : Rule := { bySetPos := [1], freq := .yearly, byMonth := [2], byMonthDay := [29] }
    let start : Value := .ofDate ⟨2000, 2, 29⟩
    ∃ s n s', Series.Reachable r start .utc 4 s ∧ s.next n = some (.ok start, s') ∧
      start ∈ picked r.bySetPos (r.matchesIn start (r.periodNumber start)) ∧
      s'.source.halted = true ∧ ∃ years n, s'.SpendsOn r start 4 years n := by
  intro r start
  obtain ⟨s₀, s, hcreate, hrun, hhalted⟩ := Series.returns_of_firstRunOf
    (show Series.firstRunOf 50 1 r start .utc 4 = some ([start], true) by decide +kernel)
  cases hrun with
  | cons head tail =>
    cases tail
    have hs₀ := Series.Reachable.create hcreate
    have hvalid : r.Valid := by decide
    have hreal : start.IsReal := by decide
    have hpos : r.bySetPos ≠ [] := by decide
    have hbudget : (1 : Int) ≤ 4 := by decide
    obtain ⟨hvalues, -⟩ := selects_within_budget hvalid hreal hpos hbudget hs₀
    obtain ⟨-, hspends⟩ := selects_within_budget hvalid hreal hpos hbudget (hs₀.next head)
    have hpicked := (hvalues _ start s head).resolve_right fun hweekly => absurd hweekly.1 (by decide)
    exact ⟨s₀, _, s, hs₀, head, hpicked, hhalted, hspends hhalted⟩

/-- **Neither exception is idle.**  Of the leap days that are the only ones of their year, with a
budget of four years, only the first one is returned, although no more than three years without one
lie before the next, and all of them are found without positions.  And of the last working days of
each week, with a budget of one year, the first one is the last day of a year in the middle of a
week; with a budget of two it is the Friday of this week. -/
theorem selection_gives_up_early :
    let leap : Rule := { freq := .yearly, byMonth := [2], byMonthDay := [29] }
    let week : Rule := { bySetPos := [-1], freq := .weekly,
                         byDay := [.every .mo, .every .tu, .every .we, .every .th, .every .fr] }
    Series.wholeRunOf 50 5 { leap with bySetPos := [1] } (.ofDate ⟨2000, 2, 29⟩) .utc 4 =
        some [.ofDate ⟨2000, 2, 29⟩] ∧
      Series.firstRunOf 50 2 leap (.ofDate ⟨2000, 2, 29⟩) .utc 4 =
        some ([.ofDate ⟨2000, 2, 29⟩, .ofDate ⟨2004, 2, 29⟩], false) ∧
      Series.wholeRunOf 50 5 week (.ofDate ⟨2024, 12, 30⟩) .utc 1 =
        some [.ofDate ⟨2024, 12, 31⟩] ∧
      Series.firstRunOf 50 1 week (.ofDate ⟨2024, 12, 30⟩) .utc 2 =
        some ([.ofDate ⟨2025, 1, 3⟩], false) := by
  decide +kernel

end Recurrence
