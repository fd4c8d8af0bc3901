/-
Recurrence/Proofs/CursorSemantics.lean

Series with a count or with positions are cursors.

Such a series looks at every instance, so it never matters for what it returns later how it came
to where it stands.  Whatever it is asked, it answers like the plain cursor over the instances
that the rule without its count returns by stepping alone, cut to as many as the count allows
(`series_is_cursor`).  An instance that is skipped uses up the count like one that is returned,
and one that is held and then dropped uses it up only once.
-/
import Recurrence.Proofs.DateTargets
import Recurrence.Proofs.Series.Counted

namespace Recurrence

variable {r : Rule} {start : Value} {budget : Int}

/-- What the count of a rule leaves of a sequence. -/
def Rule.cut (r : Rule) (vs : Values) : Values :=
  match r.count with
  | some k => .ofList (vs.take k.toNat)
  | none => vs

/-- A new series plays what the count leaves of what the series without the count plays. -/
theorem Rule.plays_cut (hr : r.Valid) (hreal : start.IsReal) (hbudget : 0 ≤ budget) {zone : Zone}
    {bound bound' : Nat} {t₀ s₀ : Series} {vs : Values}
    (ht : Series.create bound r.uncounted start zone budget = some (.ok t₀))
    (hs : Series.create bound' r start zone budget = some (.ok s₀)) (h : t₀.Plays vs) :
    s₀.Plays (r.cut vs) := by
  have hsettles := Patient.settles (Series.patient_create r start zone budget) hs
  have hadmits := Series.admits_of_create (Rule.valid_uncounted hr) hreal ht
  unfold cut
  cases hcount : r.count with
  | none =>
    rw [uncounted_of_count_none hcount] at ht
    exact Series.create_unique hsettles ht ▸ h
  | some k =>
    obtain ⟨S, -, hlive, -⟩ := live_of_create hadmits hbudget ht
    -- nothing that a new series holds exceeds the count, which is at least one
    have hk : 1 ≤ k := hr.2.1 k hcount
    have hplays := h.counted hlive (Series.uncounted_create hr hcount ht) k.toNat fun _ => by omega
    rw [Int.toNat_of_nonneg (by omega)] at hplays
    exact Series.create_unique hsettles (Series.create_counted hr hcount ht) ▸ hplays

/-- **Series are cursors.**  Take a valid rule with a count or with positions, in any zone.  The
series of the rule and that of the rule without its count can be created wherever the rule can
use the start, and stepping alone makes the latter return one sequence of values.  Whatever the
former is asked, with any targets, it answers like the cursor over the beginning of this sequence
that the count allows.  Targets are rounded to whole dates in a series of dates. -/
theorem series_is_cursor (hr : r.Valid) (hreal : start.IsReal) (hbudget : 0 ≤ budget) (zone : Zone)
    (hcursor : r.count.isSome ∨ r.bySetPos ≠ []) :
    ((r.freq.isSubDaily = true → start.hasTime = true) → ∃ t₀ s₀,
      Settles (fun n => Series.create n r.uncounted start zone budget) (.ok t₀) ∧
        Settles (fun n => Series.create n r start zone budget) (.ok s₀)) ∧
    (∀ (bound : Nat) (t₀ : Series),
      Series.create bound r.uncounted start zone budget = some (.ok t₀) → ∃! vs, t₀.Plays vs) ∧
    ∀ (bound bound' : Nat) (t₀ s₀ : Series) (vs : Values),
      Series.create bound r.uncounted start zone budget = some (.ok t₀) →
      Series.create bound' r start zone budget = some (.ok s₀) → t₀.Plays vs →
        (∀ target : Value, target.IsReal → target.RoundsTo start.hasTime (s₀.roundTarget target)) ∧
        ∀ calls : List CursorCall, ∃ answers rest s,
          FollowsAll (.noMoreInstances (some r.text)) s₀.roundTarget (r.cut vs) calls answers rest ∧
            Settles (fun n => (Series.ops n).askAll calls s₀) (answers, s) := by
  refine ⟨fun hsub => ?_, fun bound t₀ ht => ?_, fun bound bound' t₀ s₀ vs ht hs h => ?_⟩
  · obtain ⟨t₀, ht⟩ := Rule.exists_create ⟨Rule.valid_uncounted hr, hreal, hsub⟩ hbudget zone
    obtain ⟨s₀, hs⟩ := Rule.exists_create ⟨hr, hreal, hsub⟩ hbudget zone
    exact ⟨t₀, s₀, ht, hs⟩
  · have hadmits := Series.admits_of_create (Rule.valid_uncounted hr) hreal ht
    obtain ⟨S, -, hlive, -⟩ := Rule.live_of_create hadmits hbudget ht
    obtain ⟨vs, hvs⟩ := hlive.exists_plays
    exact ⟨vs, hvs, fun vs' hvs' => hvs'.unique hvs⟩
  · have hadmits := Series.admits_of_create hr hreal hs
    obtain ⟨S, hS, hlive, hrule, hstart, -⟩ := Rule.live_of_create hadmits hbudget hs
    -- counts and positions are what keeps a series from passing over months
    have hskips : s₀.skipsMonths = false := by
      rw [Series.skipsMonths, hrule]
      rcases hcursor with hcount | hpos
      · simp [Option.isSome_iff_ne_none.mp hcount]
      · simp [hpos]
    refine ⟨fun target ht => hstart ▸ s₀.roundsTo_roundTarget ht, fun calls => ?_⟩
    obtain ⟨answers, rest, s, hfollows, hrun⟩ := hlive.followsAll hS hskips
      (Rule.plays_cut hr hreal hbudget ht hs h) calls
    rw [hrule] at hfollows
    exact ⟨answers, rest, s, hfollows, hrun⟩

/-- Three days in a zone behind UTC: the first is held when the series is made and dropped by the
first move, and the second move drops nothing.  So the count ends the series after the third. -/
theorem series_is_cursor_three_days :
    let r : Rule := { count := some 3, freq := .daily }
    let start : Value := .ofDateTime ⟨2024, 1, 30⟩ ⟨21, 0, 0⟩
    let zone : Zone := .fixed (-18000)
    let calls : List CursorCall := [.hasNext, .advanceTo (.ofDateTime ⟨2024, 2, 1⟩ ⟨0, 0, 0⟩),
      .hasNext, .advanceTo (.ofDate ⟨2024, 1, 1⟩), .next, .next, .hasNext, .next]
    let answers : List CursorAnswer := [.more true, .moved, .more true, .moved,
      .value (.ofDateTime ⟨2024, 2, 1⟩ ⟨2, 0, 0⟩), .value (.ofDateTime ⟨2024, 2, 2⟩ ⟨2, 0, 0⟩),
      .more false, .failed (.noMoreInstances (some r.text))]
    ∃ t₀ s₀ vs rest s, Settles (fun n => Series.create n r.uncounted start zone 100) (.ok t₀) ∧
      t₀.Plays vs ∧ Settles (fun n => Series.create n r start zone 100) (.ok s₀) ∧
      Settles (fun n => (Series.ops n).askAll calls s₀) (answers, s) ∧
      FollowsAll (.noMoreInstances (some r.text)) s₀.roundTarget (r.cut vs) calls answers rest := by
  intro r start zone calls answers
  obtain ⟨hcreate, hplays, h⟩ := series_is_cursor (show r.Valid by decide) (show start.IsReal by decide)
    (show (0 : Int) ≤ 100 by decide) zone (.inl rfl)
  obtain ⟨t₀, s₀, ht, hs⟩ := hcreate fun _ => rfl
  obtain ⟨bound, hbound⟩ := ht.exists_bound
  obtain ⟨vs, hvs, -⟩ := hplays bound t₀ hbound
  obtain ⟨s₁, s, hs₁, hrun⟩ := Series.askAll_of_answersOf
    (show Series.answersOf 50 calls r start zone 100 = some (answers, false) by decide +kernel)
  obtain rfl := Series.create_unique hs hs₁
  obtain ⟨answers', rest, s', hfollows, hsettles⟩ := (h bound 50 t₀ s₁ vs hbound hs₁ hvs).2 calls
  obtain ⟨rfl, rfl⟩ := Prod.mk.inj
    (Patient.eq_of_settles (Series.patient_askAll calls s₁) hsettles hrun)
  exact ⟨t₀, s₁, vs, rest, s, ht, hvs, hs, hsettles, hfollows⟩

end Recurrence
