/-
Recurrence/Proofs/ZoneConversions.lean

Where the two conversions of a zone undo each other.

The clocks of a zone are moved at its transitions.  Where they are put forward, they skip some
times, and where they are put back, they show some times twice (`Shift.Skips`, `Shift.Repeats`).
Outside of these, turning a wall-clock time into UTC and turning a UTC time into wall-clock time
are inverse to each other.  A skipped time comes back earlier by as much as the clocks were put
forward, and an instant at which a time is shown again comes back as the one at which it was shown
first (`conversions_are_inverse`).

The two conversions look their offsets up in different ways, yet they keep an order: what the
clocks show before some instant is turned into an earlier instant.
-/
import Recurrence.Proofs.Calendar.Overlaps

namespace Recurrence

/-! ### How the clocks of a zone are moved -/

/-- One move of the clocks of a zone: when it takes place, and the offsets before and after it. -/
structure Shift where
  instant : Int
  before : Int
  after : Int

namespace Shift

/-- Whether the clocks, put forward, never show this time. -/
def Skips (c : Shift) (L : Int) : Prop := c.instant + c.before ≤ L ∧ L < c.instant + c.after

/-- Whether the clocks, put back, show at this instant what they have already shown. -/
def Repeats (c : Shift) (t : Int) : Prop :=
  c.instant ≤ t ∧ t < c.instant + (c.before - c.after)

instance (c : Shift) (L : Int) : Decidable (c.Skips L) := by unfold Skips; infer_instance

instance (c : Shift) (t : Int) : Decidable (c.Repeats t) := by unfold Repeats; infer_instance

/-- The moves of the clocks at a list of transitions, with the offset before the list. -/
def ofTransitions : Int → List Transition → List Shift
  | _, [] => []
  | before, tr :: ts => ⟨tr.instant, before, tr.offset⟩ :: ofTransitions tr.offset ts

theorem mem_ofTransitions {before : Int} {ts : List Transition} {c : Shift}
    (h : c ∈ ofTransitions before ts) : c.before ∈ before :: ts.map (·.offset) ∧
      ∃ tr ∈ ts, c.instant = tr.instant ∧ c.after = tr.offset := by
  induction ts generalizing before with
  | nil => exact absurd h List.not_mem_nil
  | cons tr ts ih =>
    rcases List.mem_cons.mp h with rfl | h
    · exact ⟨List.mem_cons_self, tr, List.mem_cons_self, rfl, rfl⟩
    · obtain ⟨hbefore, tr', hmem, hinstant, hafter⟩ := ih h
      exact ⟨.tail _ hbefore, tr', .tail _ hmem, hinstant, hafter⟩

end Shift

namespace Zone

variable {z : Zone} {before L t : Int} {tr : Transition} {ts : List Transition}

/-- All moves of the clocks of a zone. -/
def shifts : Zone → List Shift
  | shifting initial ts => Shift.ofTransitions initial ts
  | _ => []

/-- The instant that a wall-clock time is taken for. -/
def instantAt (z : Zone) (L : Int) : Int := L - z.offsetAtLocal L

/-- The first offset of a short zone, and the zone from its first transition on. -/
theorem Short.cons_iff : (shifting before (tr :: ts)).Short ↔
    (-86400 < before ∧ before < 86400) ∧ (shifting tr.offset ts).Short :=
  List.forall_mem_cons

theorem Short.first (h : (shifting before ts).Short) : -86400 < before ∧ before < 86400 :=
  h before List.mem_cons_self

theorem Spaced.tail (h : (shifting before (tr :: ts)).Spaced) : (shifting tr.offset ts).Spaced :=
  (List.pairwise_cons.mp h).2

/-- Later moves of the clocks lie two days or more after the first one, and their offsets are
shorter than a day. -/
theorem shifts_spaced (hshort : (shifting before (tr :: ts)).Short)
    (hspaced : (shifting before (tr :: ts)).Spaced) {c : Shift}
    (hc : c ∈ (shifting tr.offset ts).shifts) : tr.instant + 172800 ≤ c.instant ∧
      -86400 < c.before ∧ c.before < 86400 := by
  obtain ⟨hbefore, tr', hmem, hinstant, -⟩ := Shift.mem_ofTransitions hc
  have hgap := (List.pairwise_cons.mp hspaced).1 tr' hmem
  exact ⟨by omega, (Short.cons_iff.mp hshort).2 _ hbefore⟩

/-- The instant for a time at which the clocks have been moved at the first transition is that of
the rest of the zone. -/
theorem instantAt_cons (hshort : (shifting before (tr :: ts)).Short)
    (hspaced : (shifting before (tr :: ts)).Spaced) : (shifting before (tr :: ts)).instantAt L =
      if tr.instant + before ≤ L then (shifting tr.offset ts).instantAt L else L - before := by
  unfold instantAt
  rw [offsetAtLocal_cons hshort hspaced]
  split_ifs <;> rfl

theorem instantAt_bounds (hshort : z.Short) (L : Int) :
    L - 86400 < z.instantAt L ∧ z.instantAt L < L + 86400 := by
  have := hshort _ (z.offsetAtLocal_mem L)
  unfold instantAt
  omega

/-! ### From wall-clock time to UTC and back -/

/-- **A time that the clocks skip** comes back earlier by as much as they were put forward. -/
theorem shownAt_instantAt_of_skips (hshort : z.Short) (hspaced : z.Spaced) {c : Shift}
    (hc : c ∈ z.shifts) (hskips : c.Skips L) :
    z.shownAt (z.instantAt L) = L - (c.after - c.before) := by
  cases z with
  | utc | fixed _ | named _ _ => exact absurd hc List.not_mem_nil
  | shifting before ts =>
    induction ts generalizing before with
    | nil => exact absurd hc List.not_mem_nil
    | cons tr ts ih =>
      obtain ⟨hold, hrest⟩ := Short.cons_iff.mp hshort
      have hoffset := hrest.first
      obtain ⟨hlow, hhigh⟩ := hskips
      rcases List.mem_cons.mp hc with rfl | hc
      · -- the time is skipped here: the new offset leads to an instant before the transition
        have hlocal : (shifting tr.offset ts).instantAt L = L - tr.offset := by
          refine congrArg (L - ·) (localOffset_of_lt hrest fun tr' hmem => ?_)
          have := (List.pairwise_cons.mp hspaced).1 tr' hmem
          simp only at hhigh
          omega
        rw [instantAt_cons hshort hspaced, if_pos hlow, hlocal, shownAt_cons hspaced,
          if_neg (by simp only at hhigh; omega)]
        simp only
        omega
      · -- the time is skipped later, and its instant lies after this transition
        obtain ⟨hfar, hbefore⟩ := shifts_spaced hshort hspaced hc
        have hbounds := instantAt_bounds hrest L
        rw [instantAt_cons hshort hspaced, if_pos (by omega), shownAt_cons hspaced,
          if_pos (by omega)]
        exact ih tr.offset hrest hspaced.tail hc

/-- **A time that the clocks show** comes back as it is. -/
theorem shownAt_instantAt (hshort : z.Short) (hspaced : z.Spaced)
    (hshown : ∀ c ∈ z.shifts, ¬ c.Skips L) : z.shownAt (z.instantAt L) = L := by
  cases z with
  | utc | fixed _ | named _ _ => exact Int.sub_add_cancel ..
  | shifting before ts =>
    induction ts generalizing before with
    | nil => exact Int.sub_add_cancel ..
    | cons tr ts ih =>
      obtain ⟨hold, hrest⟩ := Short.cons_iff.mp hshort
      obtain ⟨hhere, hlater⟩ := List.forall_mem_cons.mp hshown
      rw [instantAt_cons hshort hspaced]
      split_ifs with hpast
      · have hpassed : tr.instant + tr.offset ≤ L := by
          by_contra hlt
          exact hhere ⟨hpast, not_le.mp hlt⟩
        -- the clocks show it after this transition, so its instant is no earlier
        have hback := ih tr.offset hrest hspaced.tail hlater
        rw [shownAt_cons hspaced, if_pos]
        · exact hback
        · by_contra hlt
          rw [shownAt_near hspaced (by omega)] at hback
          omega
      · rw [shownAt_cons hspaced, if_neg (by omega)]
        omega

/-- A time comes back as it is if and only if the clocks do not skip it. -/
theorem shownAt_instantAt_eq_iff (hshort : z.Short) (hspaced : z.Spaced) :
    z.shownAt (z.instantAt L) = L ↔ ∀ c ∈ z.shifts, ¬ c.Skips L := by
  refine ⟨fun h c hc hskips => ?_, shownAt_instantAt hshort hspaced⟩
  rw [shownAt_instantAt_of_skips hshort hspaced hc hskips] at h
  obtain ⟨hlow, hhigh⟩ := hskips
  omega

/-- The clocks skip the times that they never show. -/
theorem exists_shownAt_iff (hshort : z.Short) (hspaced : z.Spaced) :
    (∃ t, z.shownAt t = L) ↔ ∀ c ∈ z.shifts, ¬ c.Skips L := by
  rw [← shownAt_instantAt_eq_iff hshort hspaced]
  refine ⟨?_, fun h => ⟨_, h⟩⟩
  rintro ⟨t, rfl⟩
  exact (isLeast_shownAt hshort hspaced t).1

/-! ### From UTC to wall-clock time and back -/

/-- **An instant at which the clocks show a time again** comes back earlier by as much as they were
put back. -/
theorem instantAt_shownAt_of_repeats (hshort : z.Short) (hspaced : z.Spaced) {c : Shift}
    (hc : c ∈ z.shifts) (hrepeats : c.Repeats t) :
    z.instantAt (z.shownAt t) = t - (c.before - c.after) := by
  cases z with
  | utc | fixed _ | named _ _ => exact absurd hc List.not_mem_nil
  | shifting before ts =>
    induction ts generalizing before with
    | nil => exact absurd hc List.not_mem_nil
    | cons tr ts ih =>
      obtain ⟨hold, hrest⟩ := Short.cons_iff.mp hshort
      have hoffset := hrest.first
      obtain ⟨hlow, hhigh⟩ := hrepeats
      rcases List.mem_cons.mp hc with rfl | hc
      · -- the clocks show what they showed before this transition
        simp only at hlow hhigh
        rw [shownAt_cons hspaced, if_pos hlow, shownAt_near hspaced (by omega),
          instantAt_cons hshort hspaced, if_neg (by omega)]
        simp only
        omega
      · -- the clocks show a time that lies after this transition
        obtain ⟨hfar, -⟩ := shifts_spaced hshort hspaced hc
        have hbounds := shownAt_bounds hrest t
        rw [shownAt_cons hspaced, if_pos (by omega), instantAt_cons hshort hspaced,
          if_pos (by omega)]
        exact ih tr.offset hrest hspaced.tail hc

/-- **An instant at which the clocks show a time first** comes back as it is. -/
theorem instantAt_shownAt (hshort : z.Short) (hspaced : z.Spaced)
    (hfirst : ∀ c ∈ z.shifts, ¬ c.Repeats t) : z.instantAt (z.shownAt t) = t := by
  cases z with
  | utc | fixed _ | named _ _ => exact Int.add_sub_cancel ..
  | shifting before ts =>
    induction ts generalizing before with
    | nil => exact Int.add_sub_cancel ..
    | cons tr ts ih =>
      obtain ⟨hold, hrest⟩ := Short.cons_iff.mp hshort
      obtain ⟨hhere, hlater⟩ := List.forall_mem_cons.mp hfirst
      rw [shownAt_cons hspaced]
      split_ifs with hpast
      · have hbounds := shownAt_bounds hrest t
        -- the clocks do not show what they showed before this transition
        rw [instantAt_cons hshort hspaced, if_pos]
        · exact ih tr.offset hrest hspaced.tail hlater
        · by_contra hlt
          rw [shownAt_near hspaced (by omega)] at hlt
          refine hhere ⟨hpast, ?_⟩
          simp only
          omega
      · rw [instantAt_cons hshort hspaced, if_neg (by omega)]
        omega

/-- An instant comes back as it is if and only if the clocks do not repeat themselves then. -/
theorem instantAt_shownAt_eq_iff (hshort : z.Short) (hspaced : z.Spaced) :
    z.instantAt (z.shownAt t) = t ↔ ∀ c ∈ z.shifts, ¬ c.Repeats t := by
  refine ⟨fun h c hc hrepeats => ?_, instantAt_shownAt hshort hspaced⟩
  rw [instantAt_shownAt_of_repeats hshort hspaced hc hrepeats] at h
  obtain ⟨hlow, hhigh⟩ := hrepeats
  omega

/-- **The conversions keep the order**: what the clocks show before an instant is taken for an
earlier one. -/
theorem instantAt_lt (hshort : z.Short) (hspaced : z.Spaced) (h : L < z.shownAt t) :
    z.instantAt L < t := by
  cases z with
  | utc | fixed _ | named _ _ => exact sub_lt_iff_lt_add.mpr h
  | shifting before ts =>
    induction ts generalizing before with
    | nil => exact sub_lt_iff_lt_add.mpr h
    | cons tr ts ih =>
      rw [shownAt_cons hspaced] at h
      rw [instantAt_cons hshort hspaced]
      -- a time from the transition on is only shown before an instant that is after it
      split_ifs at h ⊢ with hpast hshown
      · exact ih tr.offset (Short.cons_iff.mp hshort).2 hspaced.tail h
      all_goals omega

end Zone

/-! ### Values -/

namespace Value

variable {v w : Value} {z : Zone}

/-- Date-times are the same if and only if their instants are. -/
theorem eq_iff_instant (hv : v.IsReal) (hw : w.IsReal) (hvt : v.hasTime = true)
    (hwt : w.hasTime = true) : v = w ↔ v.instant = w.instant :=
  ⟨congrArg instant, eq_of_instant hv hw (hvt.trans hwt.symm)⟩

/-- A date-time is another one moved by some seconds if its instant is. -/
theorem eq_addSeconds (hv : v.IsReal) (hw : w.IsReal) (hvt : v.hasTime = true)
    (hwt : w.hasTime = true) {n : Int} (h : v.instant = w.instant + n) : v = w.addSeconds n := by
  obtain ⟨hreal, ht, hinstant⟩ := addSeconds_spec hw hwt n
  exact (eq_iff_instant hv hreal hvt ht).mpr (h.trans hinstant.symm)

/-- **Turning a wall-clock value into UTC and back** leads to what the clocks of the zone show at the
instant that it is taken for. -/
theorem fromUtc_of_toUtc (hshort : z.Short) (hv : v.IsReal) (ht : v.hasTime = true)
    (hlow : 3 ≤ v.date.year) (hhigh : v.date.year ≤ 9997) : ∃ u l, v.toUtc z = .ok u ∧
      u.fromUtc z = .ok l ∧ l.IsReal ∧ l.hasTime = true ∧
        l.instant = z.shownAt (z.instantAt v.instant) := by
  obtain ⟨u, hto, hu, hut, hutc⟩ := toUtc_eq_ok (z := z) hv ht (by omega) (by omega)
  -- the offset may lead into the next year or back into the last one
  have hoffset := hshort _ (z.offsetAtLocal_mem v.instant)
  have hbehind := year_le_succ_of_near hu hv (by omega)
  have hahead := year_le_succ_of_near hv hu (by omega)
  obtain ⟨l, hfrom, hl, hlt, hlocal⟩ := fromUtc_spec hshort hu hut (by omega) (by omega)
  exact ⟨u, l, hto, hfrom, hl, hlt, hlocal.trans (congrArg z.shownAt hutc)⟩

end Value

/-- **The conversions of a zone are inverse to each other** outside of the times that its clocks
skip and repeat, and they keep the order.  Take any zone with offsets shorter than a day and with
transitions at least two days apart, and real date-times of the years 3 to 9997.

A wall-clock time can be turned into UTC and back.  It comes back as it is if and only if the
clocks do not skip it, and otherwise earlier by as much as they were put forward.  A UTC time can be
turned into wall-clock time and back.  It comes back as it is if and only if the clocks do not
repeat themselves then, and otherwise earlier by as much as they were put back, which is the first
instant at which they show the same.  And a wall-clock time before the one that is shown at a UTC
time is turned into an earlier UTC time. -/
theorem conversions_are_inverse {z : Zone} (hshort : z.Short) (hspaced : z.Spaced) :
    (∀ l : Value, l.IsReal → l.hasTime = true → 3 ≤ l.date.year → l.date.year ≤ 9997 →
      ∃ u l', l.toUtc z = .ok u ∧ u.fromUtc z = .ok l' ∧
        (l' = l ↔ ∀ c ∈ z.shifts, ¬ c.Skips l.instant) ∧
        ∀ c ∈ z.shifts, c.Skips l.instant → l' = l.addSeconds (-(c.after - c.before))) ∧
    (∀ u : Value, u.IsReal → u.hasTime = true → 3 ≤ u.date.year → u.date.year ≤ 9997 →
      ∃ l u', u.fromUtc z = .ok l ∧ l.toUtc z = .ok u' ∧
        (u' = u ↔ ∀ c ∈ z.shifts, ¬ c.Repeats u.instant) ∧
        (∀ c ∈ z.shifts, c.Repeats u.instant → u' = u.addSeconds (-(c.before - c.after))) ∧
        IsLeast {t | z.shownAt t = z.shownAt u.instant} u'.instant) ∧
    ∀ l u : Value, l.IsReal → l.hasTime = true → 3 ≤ l.date.year → l.date.year ≤ 9997 →
      u.IsReal → u.hasTime = true → 3 ≤ u.date.year → u.date.year ≤ 9997 →
      ∃ shown taken, u.fromUtc z = .ok shown ∧ l.toUtc z = .ok taken ∧
        (l < shown → taken < u) := by
  refine ⟨fun l hl hlt hlow hhigh => ?_, fun u hu hut hlow hhigh => ?_,
    fun l u hl hlt hlow hhigh hu hut hlow' hhigh' => ?_⟩
  · obtain ⟨u, l', hto, hfrom, hl', hlt', hback⟩ := Value.fromUtc_of_toUtc hshort hl hlt hlow hhigh
    refine ⟨u, l', hto, hfrom, ?_, fun c hc hskips => Value.eq_addSeconds hl' hl hlt' hlt ?_⟩
    · rw [Value.eq_iff_instant hl' hl hlt' hlt, hback,
        Zone.shownAt_instantAt_eq_iff hshort hspaced]
    · rw [hback, Zone.shownAt_instantAt_of_skips hshort hspaced hc hskips]
      rfl
  · obtain ⟨l, u', hfrom, -, hto, hu', hut', hleast⟩ :=
      Value.toUtc_of_fromUtc hshort hspaced hu hut hlow hhigh
    have hback : u'.instant = z.instantAt (z.shownAt u.instant) :=
      hleast.unique (Zone.isLeast_shownAt hshort hspaced u.instant)
    refine ⟨l, u', hfrom, hto, ?_,
      fun c hc hrepeats => Value.eq_addSeconds hu' hu hut' hut ?_, hleast⟩
    · rw [Value.eq_iff_instant hu' hu hut' hut, hback,
        Zone.instantAt_shownAt_eq_iff hshort hspaced]
    · rw [hback, Zone.instantAt_shownAt_of_repeats hshort hspaced hc hrepeats]
      rfl
  · obtain ⟨shown, hfrom, hshown, hshownt, hlocal⟩ :=
      Value.fromUtc_spec hshort hu hut (by omega) (by omega)
    obtain ⟨taken, hto, htaken, htakent, hutc⟩ :=
      Value.toUtc_eq_ok (z := z) hl hlt (by omega) (by omega)
    refine ⟨shown, taken, hfrom, hto, fun hlt' => ?_⟩
    rw [Value.lt_iff_instant hl hshown (hlt.trans hshownt.symm), hlocal] at hlt'
    rw [Value.lt_iff_instant htaken hu (htakent.trans hut.symm), hutc]
    exact Zone.instantAt_lt hshort hspaced hlt'

/-- Where clocks are put forward from two to three o'clock one night of March and back from two to
one o'clock one night of November, half past two comes back as half past one in March.  In November
the second half past one comes back as the first, and ten past one is before both. -/
theorem conversions_are_inverse_march_november :
    let zone : Zone := .shifting (-18000) [⟨738955 * 86400 + 25200, -14400⟩,
      ⟨739193 * 86400 + 21600, -18000⟩]
    let march (hour minute : Int) : Value := .ofDateTime ⟨2024, 3, 10⟩ ⟨hour, minute, 0⟩
    let november (hour minute : Int) : Value := .ofDateTime ⟨2024, 11, 3⟩ ⟨hour, minute, 0⟩
    zone.Short ∧ zone.Spaced ∧
      (∃ u, (march 2 30).toUtc zone = .ok u ∧ u.fromUtc zone = .ok (march 1 30)) ∧
      (∃ l, (november 6 30).fromUtc zone = .ok l ∧ l.toUtc zone = .ok (november 5 30)) ∧
      ∃ taken, (november 1 10).toUtc zone = .ok taken ∧ taken < november 5 30 := by
  intro zone march november
  have hshort : zone.Short := by decide
  have hspaced : zone.Spaced := by decide
  obtain ⟨hlocal, hutc, horder⟩ := conversions_are_inverse hshort hspaced
  refine ⟨hshort, hspaced, ?_, ?_, ?_⟩
  · obtain ⟨u, l, hto, hfrom, -, hskips⟩ := hlocal (march 2 30) (by decide) rfl (by decide)
      (by decide)
    have hback : (march 2 30).addSeconds (-(-14400 - -18000)) = march 1 30 := by decide +kernel
    rw [hskips _ List.mem_cons_self (by decide), hback] at hfrom
    exact ⟨u, hto, hfrom⟩
  · obtain ⟨l, u, hfrom, hto, -, hrepeats, -⟩ := hutc (november 6 30) (by decide) rfl (by decide)
      (by decide)
    have hback : (november 6 30).addSeconds (-(-14400 - -18000)) = november 5 30 := by
      decide +kernel
    rw [hrepeats _ (.tail _ List.mem_cons_self) (by decide), hback] at hto
    exact ⟨l, hfrom, hto⟩
  · obtain ⟨shown, taken, hfrom, hto, hlt⟩ := horder (november 1 10) (november 5 30) (by decide) rfl
      (by decide) (by decide) (by decide) rfl (by decide) (by decide)
    have hshown : (november 5 30).fromUtc zone = .ok (november 1 30) := by decide +kernel
    obtain rfl : november 1 30 = shown := Except.ok.inj (hshown.symm.trans hfrom)
    exact ⟨taken, hto, hlt (by decide)⟩

end Recurrence
