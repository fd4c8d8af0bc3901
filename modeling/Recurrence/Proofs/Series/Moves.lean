/-
Recurrence/Proofs/Series/Moves.lean

Moves that drop what is before the target, and nothing else.

A move to any target comes to an end, and the series plays on from where it is then
(`Series.Reachable.exists_moved`).  Whether what it plays is what it would have played without the
instances before the target is another question.  A series that passes over months looks at a
target on the wall clock and spends its budget in another way than by stepping.  A series with a
count or with positions looks at every instance, so its moves are exact (`Rule.movesTo`).  Any other
series moves exactly where the wall clock never changes (`Rule.movesTo_of_steady`).
-/
import Mathlib.Data.Finite.Prod
import Recurrence.Proofs.Series.Passage
import Recurrence.Proofs.Termination

namespace Recurrence

variable {r : Rule} {start target v : Value} {zone : Zone} {budget : Int} {s : Series}
  {vs vs' : Values}

/-! ### What series play -/

/-- Finitely many real values lie between two years. -/
theorem Value.finite_years (y z : Int) :
    {w : Value | w.IsReal ∧ y ≤ w.date.year ∧ w.date.year ≤ z}.Finite := by
  refine Set.Finite.of_injOn (f := fun w : Value => (w.hasTime, w.instant))
    (t := Set.univ ×ˢ Set.Icc (Gregorian.dayNumber y 1 1 * 86400)
      (Gregorian.dayNumber z 1 1 * 86400 + Course.yearSeconds)) ?_ ?_
    (Set.finite_univ.prod (Set.finite_Icc _ _))
  · rintro w ⟨hw, hyw, hwz⟩
    have hbounds := Course.instant_bounds hw
    have hfrom := Gregorian.dayNumber_first_le hyw
    have hto := Gregorian.dayNumber_first_le hwz
    refine ⟨Set.mem_univ _, ?_, ?_⟩
    · show _ ≤ w.instant
      omega
    · show w.instant ≤ _
      omega
  · rintro v ⟨hv, -⟩ w ⟨hw, -⟩ h
    obtain ⟨hkind, hinstant⟩ := Prod.mk.inj h
    exact eq_of_instant hv hw hkind hinstant

namespace Series

/-- In every state a series guards what it may still return. -/
theorem Reachable.exists_guarded (hr : r.Valid) (hreal : start.IsReal)
    (hs : Reachable r start zone budget s) :
    ∃ (K : Course) (e : Ending) (P : Value → Prop), K.Begins ∧ s.Guarded K e P := by
  have h := hs.admits hr hreal
  rcases lt_or_ge budget 0 with hneg | hbudget
  · -- without a budget a series has stopped from the beginning
    have hK := Rule.begins_course h (le_refl (0 : Int))
    refine ⟨_, .ofRule r, fun _ => True, hK, hs.invariant (fun _ _ _ _ hs hn => hs.hasNext hK hn)
      (fun _ hs => hs.take) (fun _ _ _ _ _ hs _ hfinished hn => hs.passOver hK hfinished hn)
      fun n s hc => ?_⟩
    rcases create_cases hc with ⟨⟨c, rfl⟩, -⟩ | ⟨c, startUtc, ⟨-, hrun⟩, -⟩
    · exact ⟨Rule.course_hasTime r start 0, fun _ _ => Iff.rfl,
        fun v hv => absurd hv (by simp [unstarted]), .inl rfl⟩
    · obtain ⟨c', hhalt⟩ := Rule.run_candidates_of_lt_one r start (show budget < 1 by omega)
      exact absurd (Patient.eq_of_settles (patient_candidatesRun _ _ _) hhalt hrun) (by simp)
  · obtain ⟨startUtc, hutc, -⟩ := Value.toUtc_spec zone hreal
    exact ⟨_, _, _, Rule.begins_course h hbudget, hs.guarded h hbudget hutc⟩

/-- A series of a valid rule plays an ascending sequence of real values. -/
theorem Reachable.plays (hr : r.Valid) (hreal : start.IsReal)
    (hs : Reachable r start zone budget s) (hplays : s.Plays vs) :
    vs.Pairwise (· < ·) ∧ ∀ v ∈ vs, v.IsReal := by
  obtain ⟨K, e, P, hK, hguarded⟩ := hs.exists_guarded hr hreal
  exact (hguarded.plays hK hplays).imp_right fun h v hv => (h v hv).1

/-- Finitely many instances come before any value. -/
theorem Reachable.finite_before (hr : r.Valid) (hreal : start.IsReal)
    (hs : Reachable r start zone budget s) (hplays : s.Plays vs) (v : Value) :
    {u | u ∈ vs ∧ u < v}.Finite := by
  obtain ⟨hasc, hall⟩ := hs.plays hr hreal hplays
  cases vs using Stream'.Seq.recOn with
  | nil => exact Set.finite_empty.subset fun u hu => Stream'.Seq.notMem_nil u hu.1
  | cons w vs =>
    refine (Value.finite_years w.date.year v.date.year).subset fun u hu => ⟨hall u hu.1, ?_, ?_⟩
    · exact Value.year_le_of_le (Ascending.head_le hasc hu.1)
    · exact Value.year_le_of_le hu.2.le

/-- Each value that a series plays is returned in some state. -/
theorem Plays.exists_next (h : s.Plays vs) (hs : Reachable r start zone budget s) {v : Value}
    (hv : v ∈ vs) : ∃ t t', Reachable r start zone budget t ∧
      Settles (fun n => t.next n) (.ok v, t') := by
  obtain ⟨k, hk⟩ := Stream'.Seq.mem_iff_exists_get?.mp hv
  induction k generalizing s vs with
  | zero =>
    cases vs using Stream'.Seq.recOn with
    | nil => simp at hk
    | cons u vs =>
      obtain ⟨s', hsettles, -⟩ := plays_cons_iff.mp h
      obtain rfl : v = u := by simpa using hk
      exact ⟨s, s', hs, hsettles⟩
  | succ k ih =>
    cases vs using Stream'.Seq.recOn with
    | nil => simp at hk
    | cons u vs =>
      obtain ⟨s', hsettles, h'⟩ := plays_cons_iff.mp h
      obtain ⟨n, hn⟩ := hsettles.exists_bound
      rw [Stream'.Seq.get?_cons_succ] at hk
      exact ih h' (hs.next hn) (Stream'.Seq.mem_iff_exists_get?.mpr ⟨k, hk⟩) hk

/-- **What a series goes through** it plays in the end, unless the years give up. -/
theorem GoesThrough.mem_iff {F : Value → Prop} (h : s.GoesThrough F) (hplays : s.Plays vs)
    (hasc : vs.Pairwise (· < ·)) (hfinite : {u | u ∈ vs ∧ u < v}.Finite)
    (hgoes : ∀ {us s' s''}, s.Returns us s' → s'.Ends s'' → s''.source.halted = false) :
    v ∈ vs ↔ F v := by
  have hsegment : ∀ n, Segment F (vs.take n) := by
    intro n
    obtain ⟨s', hrun, -⟩ := hplays n
    exact h.segment hrun
  have htake : ∀ {u : Value}, u ∈ vs → ∃ n, u ∈ vs.take n := by
    intro u hu
    obtain ⟨k, hk⟩ := Stream'.Seq.mem_iff_exists_get?.mp hu
    exact ⟨k + 1, Stream'.Seq.get?_mem_take (Nat.lt_succ_self k) hk.symm⟩
  have hmem : ∀ {n : Nat} {u : Value}, u ∈ vs.take n → u ∈ vs := fun hu =>
    Stream'.Seq.take_all (fun _ hx => hx) hu
  constructor
  · intro hv
    obtain ⟨n, hn⟩ := htake hv
    exact (hsegment n).mem v hn
  · intro hv
    by_contra hnot
    have hlt : ∀ u ∈ vs, u < v := by
      intro u hu
      obtain ⟨n, hn⟩ := htake hu
      exact not_le.mp fun hle => hnot (hmem ((hsegment n).closed u hn v hv hle))
    by_cases hend : ∃ n, vs.get? n = none
    · obtain ⟨n, hn⟩ := hend
      obtain ⟨s', hrun, hends⟩ := hplays n
      obtain ⟨s'', hends⟩ := hends hn
      exact hnot (hmem (h.complete hrun hends (hgoes hrun hends) v hv))
    · -- all of the infinitely many instances would come before the value
      push Not at hend
      choose f hf using fun n => Option.ne_none_iff_exists'.mp (hend n)
      have hinj : Function.Injective f := fun i j hij =>
        Ascending.injective hasc (hf i) (hij ▸ hf j)
      refine Set.infinite_range_of_injective hinj (hfinite.subset ?_)
      rintro _ ⟨n, rfl⟩
      have hn : f n ∈ vs := Stream'.Seq.get?_mem (hf n)
      exact ⟨hn, hlt _ hn⟩

end Series

/-! ### Moves -/

/-- A series can be moved to any target, and plays on.  The move fails at most because the target
has no wall-clock value. -/
theorem Series.Reachable.exists_moved (hr : r.Valid) (hreal : start.IsReal)
    (hs : Series.Reachable r start zone budget s) (target : Value) :
    ∃ a s', Settles (fun n => s.advanceTo n target) (a, s') ∧
      Series.Reachable r start zone budget s' ∧ (∃ vs, s'.Plays vs) ∧
      FailsOnlyAt zone (s.roundTarget target) a := by
  obtain ⟨B, hB, hlive, -, -, rfl⟩ := hs.live hr hreal
  obtain ⟨a, s', hsettles, -, hlive', hfails⟩ := hlive.settles_advanceTo hB target
  obtain ⟨n, hn⟩ := hsettles.exists_bound
  exact ⟨a, s', hsettles, hs.advanceTo hn, hlive'.exists_plays, hfails⟩

/-- Whatever has been asked before, a move to the target drops what is before it, and nothing
else. -/
def Rule.MovesTo (r : Rule) (start : Value) (zone : Zone) (budget : Int) (target : Value) : Prop :=
  ∀ s vs, Series.Reachable r start zone budget s → s.Plays vs →
    ∃ s' vs', Settles (fun n => s.advanceTo n target) (.ok (), s') ∧ s'.Plays vs' ∧
      DropsTo target vs vs'

/-- **Series with a count or with positions** move exactly, to dates and, if they have times of day,
to all targets. -/
theorem Rule.movesTo (hr : r.Valid) (hreal : start.IsReal)
    (hcursor : r.count.isSome ∨ r.bySetPos ≠ [])
    (htarget : target.hasTime = true → start.hasTime = true) :
    r.MovesTo start zone budget target := by
  intro s vs hs hvs
  obtain ⟨B, hB, hlive, hrule, hstart, -⟩ := hs.live hr hreal
  have hskips : s.skipsMonths = false := by
    rw [Series.skipsMonths, hrule]
    rcases hcursor with hcount | hpos
    · simp [Option.isSome_iff_ne_none.mp hcount]
    · simp [hpos]
  have hround : s.roundTarget target = target :=
    Series.roundTarget_of_kind (by rw [Series.hasTime, hstart]; exact htarget)
  obtain ⟨s', hsettles, -⟩ : ∃ s', Settles (fun n => s.advanceTo n target) (.ok (), s') ∧
      s.SameRule s' ∧ B.Live s' :=
    hlive.advanceTo hB fun hmay => absurd (hskips.symm.trans hmay) (by simp)
  obtain ⟨n, hn⟩ := hsettles.exists_bound
  obtain ⟨vs', hdrops, hvs'⟩ := hvs.advanceTo hskips hn
  exact ⟨s', vs', hsettles, hvs', hround ▸ hdrops⟩

/-- **Series that pass over months** move exactly in UTC and at a fixed offset, if the years never
give up and what lies in a month before the target is before it. -/
theorem Rule.movesTo_of_steady (hr : r.Valid) (hreal : start.IsReal) (hpos : r.bySetPos = [])
    (hcount : r.count = none) (hbudget : 0 ≤ budget) (hz : zone.Steady)
    (hgoes : ∀ s, Series.Reachable r start zone budget s → s.source.halted = false)
    (haims : target.Aims zone start.hasTime) (htarget : target.hasTime = true → start.hasTime = true) :
    r.MovesTo start zone budget target := by
  intro s vs hs hvs
  obtain ⟨hfits, hstart, hzone, F, htracks⟩ := Rule.tracks_of_reachable hr hreal hpos hbudget hz hs
  obtain ⟨a, s', F', hsettles, hrule, htracks', hexact⟩ :=
    Course.advanceTo (Rule.begins_course (hs.admits hr hreal) hbudget) hfits htracks target
  have hround : s.roundTarget target = target :=
    Series.roundTarget_of_kind (by rw [Series.hasTime, hstart]; exact htarget)
  rw [hround, hzone, Series.hasTime, hstart] at hexact
  obtain ⟨rfl, hF'⟩ := hexact haims
  obtain ⟨a, s₁, hmoved, hs', ⟨vs', hvs'⟩, -⟩ := hs.exists_moved hr hreal target
  obtain ⟨-, rfl⟩ := Prod.mk.inj (hmoved.unique hsettles)
  have hmem : ∀ {s vs F} (v : Value), Series.Reachable r start zone budget s → s.Plays vs →
      (r.course start budget).freeSupply.Fits s → (r.course start budget).freeSupply.Tracks s F →
      (v ∈ vs ↔ F v) := by
    intro s vs F v hs hvs hfits htracks
    obtain ⟨K, e, P, hK, hguarded⟩ := hs.exists_guarded hr hreal
    have hthrough : s.GoesThrough F := Course.goesThrough hfits htracks
      (fun hrun hend => ((hs.returns hrun).ends hend).not_count hr hcount) (hguarded.isReal hK)
    exact hthrough.mem_iff hvs (hs.plays hr hreal hvs).1 (hs.finite_before hr hreal hvs v)
      fun hrun hend => hgoes _ ((hs.returns hrun).ends hend)
  -- what is left of the one sequence and the other sequence have the same elements
  have hasc := (hs.plays hr hreal hvs).1
  obtain ⟨ws, hdrops⟩ := DropsTo.exists_of_finite hasc (hs.finite_before hr hreal hvs target)
  obtain rfl : ws = vs' := Ascending.eq_of_mem_iff (hdrops.ascending hasc)
    (hs'.plays hr hreal hvs').1 fun u => by
      rw [hdrops.mem_iff hasc, hmem u hs hvs hfits htracks,
        hmem u hs' hvs' (hfits.of_sameRule hrule) htracks', hF']
  exact ⟨_, _, hsettles, hvs', hdrops⟩

end Recurrence
