/-
Recurrence/Proofs/Series/Endless.lean

Series with positions that never end.

The years give up on a series with positions only when it has spent its budget on years of which
no more than one period has instances.  So they never give up if each year has instances of two
periods (`Rule.FillsYears`), and if the rule has no end either, the series goes on for ever
(`Series.Plays.endless`).
-/
import Recurrence.Proofs.SelectedInstances
import Recurrence.Proofs.Series.Agreement
import Recurrence.Proofs.Series.Picks
import Recurrence.Proofs.Series.Plays

namespace Recurrence

variable {r : Rule} {start : Value} {budget : Int} {s : Series} {vs : Values}

/-- What the positions of a rule pick from the period so many intervals after the start's own. -/
noncomputable def Rule.pickedAfter (r : Rule) (start : Value) (i : Nat) : List Value :=
  picked r.bySetPos (r.matchesIn start (r.periodNumber start + i * r.interval))

/-- Each year from that of the start on has instances of two periods. -/
def Rule.FillsYears (r : Rule) (start : Value) : Prop :=
  ∀ y, start.date.year ≤ y → ∃ i j : Nat, i ≠ j ∧ (∃ v ∈ r.pickedAfter start i, v.date.year = y) ∧
    ∃ w ∈ r.pickedAfter start j, w.date.year = y

/-! ### Going on -/

/-- **The years never give up** where each of them has instances of two periods. -/
theorem Rule.FillsYears.not_halted (hfill : r.FillsYears start) (hr : r.Valid)
    (hreal : start.IsReal) (hbudget : 1 ≤ budget) (hpos : r.bySetPos ≠ [])
    (hs : Series.Reachable r start .utc budget s) : s.source.halted = false := by
  have h := hs.admits hr hreal
  have hbudget' : 0 ≤ budget := by omega
  by_contra hhalted
  obtain ⟨years, n, hspent⟩ :=
    (Rule.picks_of_reachable hr hreal hbudget hpos hs).spent h hbudget (by simpa using hhalted)
  have hlen : (years.length : Int) = budget := hspent.length_eq
  obtain ⟨y, hy⟩ := List.exists_mem_of_length_pos (l := years) (by omega)
  -- whatever is picked in a year that was spent belongs to the one period
  have hone : ∀ i : Nat, (∃ v ∈ r.pickedAfter start i, v.date.year = y) →
      r.periodNumber start + i * r.interval = n := by
    rintro i ⟨v, hv, hyear⟩
    obtain ⟨hselected, hperiod⟩ := (Rule.mem_picked_matchesIn h hbudget' hpos i).mp hv
    rcases hspent.aside v hselected with hn | ⟨-, hall⟩ | ⟨-, hall⟩
    · exact hperiod.symm.trans hn
    · exact absurd (hall y hy) (by omega)
    · exact absurd (hall y hy) (by omega)
  obtain ⟨i, j, hij, hi, hj⟩ := hfill y (Rule.wants_iff_visits.mp (hspent.wanted y hy)).1
  have hinterval := h.interval_pos
  have heq : (i : Int) * r.interval = j * r.interval := by
    have := (hone i hi).trans (hone j hj).symm
    omega
  exact hij (by exact_mod_cast Int.eq_of_mul_eq_mul_right (by omega) heq)

/-- **A series without an end** plays for ever if each year has instances of two periods. -/
theorem Series.Plays.endless (h : s.Plays vs) (hfill : r.FillsYears start) (hr : r.Valid)
    (hreal : start.IsReal) (hbudget : 1 ≤ budget) (hpos : r.bySetPos ≠ []) (hcount : r.count = none)
    (huntil : r.untilBound = none) {n : Nat}
    (hcreate : Series.create n r start .utc budget = some (.ok s)) : ¬ vs.Terminates := by
  rintro ⟨k, hk⟩
  have hbudget' : 0 ≤ budget := by omega
  have hadmits := Series.admits_of_create hr hreal hcreate
  have hsteady : Zone.Steady .utc := trivial
  obtain ⟨s₁, hsettles, htakes⟩ := (Rule.begins_selection hadmits hbudget' hpos).exists_takesFrom
    (Course.honest_selectedSupply _ _ _) hadmits hsteady
  obtain rfl := Series.create_unique hsettles hcreate
  have hreach := Series.Reachable.create hcreate
  obtain ⟨s', hrun, hend⟩ := h k
  obtain ⟨s'', hend⟩ := hend hk
  have hrunning := hfill.not_halted hr hreal hbudget hpos ((hreach.returns hrun).ends hend)
  -- a year behind those of all instances has an instance too
  obtain ⟨last, hlast⟩ := ((vs.take k).finite_toSet.image fun v => v.date.year).bddAbove
  obtain ⟨i, -, -, ⟨v, hv, hyear⟩, -⟩ := hfill (max last start.date.year + 1) (by omega)
  have hle : start ≤ v := le_of_not_gt fun hlt => by
    have hyear' := Value.year_le_of_le hlt.le
    omega
  have hmem : v ∈ vs.take k :=
    (htakes.complete hrun hend hrunning).2.resolve_right (by simp [hcount]) v
      ((left_selectedSupply_iff hcount huntil v).mpr
        ⟨((Rule.mem_picked_matchesIn hadmits hbudget' hpos i).mp hv).1, hle⟩)
  have hyear' : v.date.year ≤ last := hlast ⟨v, hmem, rfl⟩
  omega

/-! ### The only day of each day -/

/-- Picked from days one by one, every day comes. -/
theorem Rule.pickedAfter_daily {d e : Date} (he : e.IsReal) {i : Nat}
    (hi : e.dayNumber = d.dayNumber + i) :
    Value.ofDate e ∈ Rule.pickedAfter { bySetPos := [1], freq := .daily } (.ofDate d) i := by
  have hmatches : Rule.matchesIn { bySetPos := [1], freq := .daily } (.ofDate d)
      (d.dayNumber + i * 1) = [.ofDate e] := by
    refine listing_eq ⟨List.pairwise_singleton _ _, fun v => ?_⟩
    rw [List.mem_singleton]
    constructor
    · rintro rfl
      refine ⟨⟨⟨he, by simp [Value.ofDate]⟩, rfl, ⟨?_, one_dvd _⟩, by simp [Rule.AcceptsDate],
        by simp [Rule.KeepsDate], by simp [Value.ofDate]⟩, ?_, by simp⟩
      · show d.dayNumber ≤ e.dayNumber
        omega
      · show e.dayNumber = _
        omega
    · rintro ⟨⟨hreal, hkind, -⟩, hperiod, -⟩
      obtain ⟨x, _ | t⟩ := v
      · have hx : x.dayNumber = d.dayNumber + i * 1 := hperiod
        obtain rfl : x = e := Date.dayNumber_injective hreal.1 he (by omega)
        rfl
      · exact absurd hkind (by simp [Value.hasTime, Value.ofDate])
  show Value.ofDate e ∈ picked [1] _
  rw [show Rule.periodNumber _ (.ofDate d) = d.dayNumber from rfl, hmatches]
  exact List.mem_singleton_self _

/-- The days of a year are instances of as many periods. -/
theorem Rule.fillsYears_daily (y : Int) :
    Rule.FillsYears { bySetPos := [1], freq := .daily } (.ofDate ⟨y, 1, 1⟩) := by
  intro z hz
  have hfirst : (⟨y, 1, 1⟩ : Date).dayNumber ≤ (⟨z, 1, 1⟩ : Date).dayNumber :=
    Gregorian.dayNumber_first_le hz
  have hsecond : (⟨z, 1, 2⟩ : Date).dayNumber = (⟨z, 1, 1⟩ : Date).dayNumber + 1 :=
    Gregorian.dayNumber_eq_add z 1 2
  have hlength := (Gregorian.monthLengthWithin_bounds z 1).1
  have hjanuary : ∀ n : Int, 1 ≤ n → n ≤ 2 → (⟨z, 1, n⟩ : Date).IsReal := fun n h1 h2 =>
    ⟨by simp, by simp, h1, by simpa using h2.trans (by omega)⟩
  refine ⟨((⟨z, 1, 1⟩ : Date).dayNumber - (⟨y, 1, 1⟩ : Date).dayNumber).toNat,
    ((⟨z, 1, 2⟩ : Date).dayNumber - (⟨y, 1, 1⟩ : Date).dayNumber).toNat, by omega,
    ⟨_, pickedAfter_daily (hjanuary 1 le_rfl (by omega)) (by omega), rfl⟩,
    _, pickedAfter_daily (hjanuary 2 (by omega) le_rfl) (by omega), rfl⟩

end Recurrence
