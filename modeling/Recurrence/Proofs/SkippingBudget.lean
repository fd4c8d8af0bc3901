/-
Recurrence/Proofs/SkippingBudget.lean

Where skipping gives up and stepping does not.

While a series is stepped through, every instance fills the budget of idle years up.  While months
are passed over, every year that is passed over does, but in the year of the target nothing does:
an instance that lies there before the target's month is passed over unseen, and the year counts as
idle.  So moving ahead finds an instance where stepping comes to one, unless the budget does not
last from the beginning of that year to the next instance (`advanceTo_keeps_next`).
-/
import Recurrence.Proofs.DateTargets
import Recurrence.Proofs.Series.Credit
import Recurrence.Proofs.Termination

namespace Recurrence

variable {r : Rule} {start : Value} {budget base : Int} {K : Course} {s s' s₁ : Series}
  {u v w p target : Value} {vs : List Value} {n : Nat}

namespace Series

/-! ### Dropping what is returned -/

/-- A turn that skips drops the next instance, or holds it. -/
theorem Open.skipTurn_eq (h : s.Open) (hn : s.next n = some (.ok u, s')) (target : Value) :
    s.skipTurn n target =
      some (if u < target then .again s' else .done (.ok (), { s' with pending := some u })) := by
  obtain ⟨v, hg, hpass⟩ := h.next_iff.mp hn
  have hdraws := draws_of_generate hg
  have h' := h.draws hdraws
  rw [← hdraws.ending] at hpass
  have hjudge : s'.judge v u = (true, { s' with pending := some u }) :=
    Prod.ext (by rw [judge_eq, if_pos (by exact hpass)]) (h'.judge_of_passes hpass)
  simp only [skipTurn, hg, hjudge, true_and]
  split_ifs
  · simp only [← h'.pending]
  · rfl

/-- **Dropping instances** one by one comes to the first one that is not before a target, if
stepping does. -/
theorem Open.settles_skip (h : s.Open) (hvs : s.Returns vs s₁) (hv : v ∈ vs) (hle : ¬ v < target) :
    ∃ s' u, Settles (fun n => loop (skipTurn n target) n s) (.ok (), s') ∧ s'.pending = some u := by
  induction hvs with
  | nil s => exact absurd hv List.not_mem_nil
  | @cons s s' s'' u vs bound head _ ih =>
    have hturn : Settles (fun n => s.skipTurn n target) _ :=
      Patient.settles (patient_skipTurn target s) (h.skipTurn_eq head target)
    by_cases hlt : u < target
    · rw [if_pos hlt] at hturn
      obtain ⟨w, hg, -⟩ := h.next_iff.mp head
      have hmem : v ∈ vs := (List.mem_cons.mp hv).resolve_left fun heq => hle (heq ▸ hlt)
      obtain ⟨s₂, x, hloop, hx⟩ := ih (h.draws (draws_of_generate hg)) hmem
      exact ⟨s₂, x, hturn.again (patient_skipTurn target) hloop, hx⟩
    · rw [if_neg hlt] at hturn
      exact ⟨_, u, hturn.finish, rfl⟩

end Series

namespace Course

/-! ### The budget behind the target -/

/-- Where the budget does not last to a value, as many years as it holds have passed before the
year of the value. -/
theorem exists_years_of_not_lasts (hbudget : 0 ≤ K.blueprint.years.budget)
    (hlasts : ¬ K.Lasts base v) : ∃ years : List Int,
      (years.length : Int) = K.blueprint.years.budget ∧ years.Pairwise (· < ·) ∧
        ∀ y ∈ years, K.blueprint.years.Wants K.blueprint.start y ∧ base < y ∧ y < v.date.year := by
  obtain ⟨k, hk⟩ := Int.eq_ofNat_of_zero_le hbudget
  unfold Lasts at hlasts
  -- the first years of those that have passed: the year of the value itself is the last one
  let all := ((K.passedYears base v.date.year).erase v.date.year).sort
  have hlong : k ≤ all.length := by
    rw [Finset.length_sort]
    have := Finset.pred_card_le_card_erase (s := K.passedYears base v.date.year) (a := v.date.year)
    omega
  refine ⟨all.take k, ?_, ?_, fun y hy => ?_⟩
  · rw [List.length_take, Nat.min_eq_left hlong, hk]
  · exact (Finset.sortedLT_sort _).pairwise.sublist (List.take_sublist k all)
  · have hy := Finset.mem_erase.mp ((Finset.mem_sort _).mp (List.mem_of_mem_take hy))
    obtain ⟨⟨hbase, hle⟩, hwants⟩ := mem_passedYears.mp hy.2
    exact ⟨hwants, hbase, lt_of_le_of_ne hle hy.1⟩

theorem lasts_of_forall {base' : Int} (h : K.Lasts base w)
    (hsub : ∀ y, K.blueprint.years.Wants K.blueprint.start y → base' < y → base < y) :
    K.Lasts base' w := by
  have hcard : (K.passedYears base' w.date.year).card ≤ (K.passedYears base w.date.year).card := by
    refine Finset.card_le_card fun y hy => ?_
    rw [mem_passedYears] at hy ⊢
    exact ⟨⟨hsub y hy.2 hy.1.1, hy.1.2⟩, hy.2⟩
  unfold Lasts at h ⊢
  omega

/-- When months have been passed over, the budget lasts to the next instance, if it lasts that long
from the instance before it on; and if that one lies in the year of the target, from the beginning
of that year on. -/
theorem lasts_of_passOver (hbudget : 1 ≤ K.blueprint.years.budget) (hlasts : K.Lasts p.date.year w)
    (hvp : v.date.year ≤ p.date.year)
    (hp : p = v ∨ p.MonthBefore target ∧
      (p.date.year = target.date.year → K.Lasts (target.date.year - 1) w))
    (hbase : target.date.year ≤ v.date.year ∧ base = v.date.year ∨
      v.date.year < target.date.year ∧ K.Refilled target base) : K.Lasts base w := by
  have hpt : p = v ∨ p.date.year ≤ target.date.year :=
    hp.imp_right fun hp => hp.1.elim (·.le) (·.1.le)
  rcases hbase with ⟨hle, rfl⟩ | ⟨hlt, hrefilled⟩
  · -- no year has been passed over, so the instance before lies in the same year
    have hyear : v.date.year = p.date.year := by
      rcases hpt with rfl | hpt
      · rfl
      · omega
    rwa [hyear]
  · rcases lt_or_ge p.date.year target.date.year with hbefore | hge
    · exact lasts_of_forall hlasts fun y hy hbase =>
        hbefore.trans_le (hrefilled hbudget y hy hbase)
    · have hpv : p ≠ v := by
        rintro rfl
        omega
      have hsame : p.date.year = target.date.year := le_antisymm (hpt.resolve_left hpv) hge
      refine lasts_of_forall ((hp.resolve_left hpv).2 hsame) fun y hy hbase => ?_
      have := hrefilled hbudget y hy hbase
      omega

/-! ### Moving ahead -/

/-- The first value of a list that does not lie in a month before a target. -/
theorem exists_split_monthBefore (hv : v ∈ vs) (hlate : ¬ v.MonthBefore target) : ∃ a w b,
    vs = a ++ w :: b ∧ (∀ x ∈ a, x.MonthBefore target) ∧ ¬ w.MonthBefore target := by
  induction vs with
  | nil => exact absurd hv List.not_mem_nil
  | cons x vs ih =>
    by_cases hx : x.MonthBefore target
    · obtain ⟨a, w, b, rfl, ha, hw⟩ :=
        ih ((List.mem_cons.mp hv).resolve_left fun heq => hlate (heq ▸ hx))
      exact ⟨x :: a, w, b, rfl, List.forall_mem_cons.mpr ⟨hx, ha⟩, hw⟩
    · exact ⟨[], x, vs, rfl, by simp, hx⟩

/-- **Skipping** comes to an instance where stepping does. -/
theorem Rests.settles_skipTo (hK : K.Begins) (hcredited : K.credited.isSome = true)
    (hbudget : 1 ≤ K.blueprint.years.budget) (h : K.Rests v s) (hopen : s.Open)
    (hskips : s.skipsMonths = true) (hvs : s.CanReturn vs) (hu : u ∈ vs) (hle : ¬ u < target)
    (hgap : ∀ p w, [p, w] <:+: vs → p.date.year = target.date.year → p.MonthBefore target →
      ¬ w.MonthBefore target → K.Lasts (target.date.year - 1) w) :
    ∃ s' x, Settles (fun n => s.skipTo n target) (.ok (), s') ∧ s'.pending = some x := by
  have hchain := (h.canReturn_iff hK hcredited hbudget hopen).mp hvs
  obtain ⟨a, w, b, rfl, ha, hw⟩ := exists_split_monthBefore hu fun hmonth => hle hmonth.lt
  have hu : u ∈ w :: b := (List.mem_append.mp hu).resolve_left fun hmem => hle (ha u hmem).lt
  -- `p` is the instance before `w`
  obtain ⟨front, p, hfront⟩ : ∃ front p, v :: a = front ++ [p] :=
    ⟨_, _, (List.dropLast_append_getLast (List.cons_ne_nil v a)).symm⟩
  have hsplit : v :: (a ++ w :: b) = front ++ p :: w :: b := by
    rw [← List.cons_append, hfront, List.append_assoc, List.singleton_append]
  rw [hsplit, List.isChain_append_cons_cons] at hchain
  obtain ⟨hbefore, ⟨hleast, hlasts, hpass⟩, hafter⟩ := hchain
  have hasc : (v :: a).Pairwise (· < ·) := by
    rw [hfront]
    exact List.isChain_iff_pairwise.mp (hbefore.imp fun x y hxy => hxy.1.1.2)
  have hp : p = v ∨ p ∈ a ∧ [p, w] <:+: a ++ w :: b := by
    rcases front with _ | ⟨x, front⟩
    · exact .inl (List.cons.inj hfront).1.symm
    · obtain ⟨-, rfl⟩ := List.cons.inj hfront
      exact .inr ⟨by simp, front, b, by simp⟩
  have hvp : v ≤ p := hp.elim (·.ge) fun hp => ((List.pairwise_cons.mp hasc).1 p hp.1).le
  obtain ⟨base, c, hbase, hover⟩ := h.passOver hK target
  have hlasts : K.Lasts base w :=
    lasts_of_passOver hbudget hlasts (Value.year_le_of_le hvp) (hp.imp_right fun ⟨hmem, hinfix⟩ =>
      ⟨ha p hmem, fun hyear => hgap p w hinfix hyear (ha p hmem) hw⟩) hbase
  rcases hover with ⟨hover, hfed⟩ | ⟨-, hex⟩
  · have hopen₁ : { s with source := .plain c }.Open := ⟨hopen.pending, hopen.finished, hopen.steady⟩
    have hdue : K.Due s.ending base (fun x => v < x ∧ ¬ x.MonthBefore target) w := by
      refine ⟨⟨⟨hleast.1.1, hvp.trans_lt hleast.1.2, hw⟩, fun x hx => hleast.2 ⟨hx.1, ?_⟩⟩, hlasts,
        hpass⟩
      rcases hp with rfl | ⟨hp, -⟩
      · exact hx.2.1
      · refine lt_of_not_ge fun hxp => hx.2.2 ?_
        rcases hxp.lt_or_eq with hlt | rfl
        · exact (ha p hp).anti hlt
        · exact ha x hp
    obtain ⟨s₂, hrun⟩ := (hfed.canReturn_cons_iff hK hcredited hbudget hopen₁).mpr ⟨hdue, hafter⟩
    obtain ⟨s', x, hloop, hx⟩ := hopen₁.settles_skip hrun hu hle
    exact ⟨s', x,
      Series.settles_skipTo_of_passOver hopen.finished hskips hover hopen₁.finished hloop, hx⟩
  · exact absurd hlasts (hex.not_lasts hK hbudget hleast.1.1.1 ⟨hleast.1.1.1, hw⟩)

end Course

/-- As many years as the budget holds, each with a period in phase, lie one after another from one
year on and before another. -/
def Rule.SpendsBudget (r : Rule) (start : Value) (budget first last : Int) : Prop :=
  ∃ years : List Int, (years.length : Int) = budget ∧ years.Pairwise (· < ·) ∧
    ∀ y ∈ years, first ≤ y ∧ y < last ∧
      ∃ x : Value, x.IsReal ∧ x.hasTime = start.hasTime ∧ x.date.year = y ∧ r.InPhase start x

/-- A budget is not spent within fewer years than it holds. -/
theorem Rule.SpendsBudget.le {first last : Int} (h : r.SpendsBudget start budget first last)
    (hle : first ≤ last) : budget ≤ last - first := by
  obtain ⟨years, rfl, hasc, hyears⟩ := h
  have hsub : years.toFinset ⊆ Finset.Ico first last := fun y hy =>
    Finset.mem_Ico.mpr ⟨(hyears y (List.mem_toFinset.mp hy)).1, (hyears y (List.mem_toFinset.mp hy)).2.1⟩
  have hcard := Finset.card_le_card hsub
  rw [List.toFinset_card_of_nodup (hasc.imp fun h => h.ne), Int.card_Ico] at hcard
  omega

theorem Rule.lasts_of_not_spendsBudget (h : r.Admits start) (hbudget : 0 ≤ budget) {first : Int}
    (hspends : ¬ r.SpendsBudget start budget first w.date.year) :
    (r.course start budget).Lasts (first - 1) w := by
  by_contra hlasts
  obtain ⟨years, hlen, hasc, hyears⟩ :=
    Course.exists_years_of_not_lasts (K := r.course start budget) hbudget hlasts
  refine hspends ⟨years, hlen, hasc, fun y hy => ?_⟩
  obtain ⟨⟨hnames, hfrom⟩, hbase, hlt⟩ := hyears y hy
  have hstart : start.date.year ≤ y := hfrom rfl _ (Rule.first_start r start budget)
  exact ⟨by omega, hlt, exists_inPhase_of_names h hnames hstart⟩

/-- **Moving ahead keeps the next instance.**  Take a series of a valid rule without a count and
without positions, in UTC, wherever calls have led it, and a target of its own kind.  If stepping
comes to an instance that is not before the target, then moving to the target succeeds and an
instance is available there.  One gap is left out.  Where an instance lies in the year of the
target, in a month before the target's, and the next one does not, the budget has to last from the
beginning of that year to the next instance: the years from there on that have a period in phase
are not to be as many as it holds. -/
theorem advanceTo_keeps_next (hr : r.Valid) (hreal : start.IsReal) (hpos : r.bySetPos = [])
    (hcount : r.count = none) (hbudget : 1 ≤ budget)
    (hs : Series.Reachable r start .utc budget s) (hkind : target.hasTime = start.hasTime)
    (hvs : s.Returns vs s₁) (hu : u ∈ vs) (hle : ¬ u < target)
    (hgap : ∀ p w, [p, w] <:+: vs → p.date.year = target.date.year → p.MonthBefore target →
      ¬ w.MonthBefore target → ¬ r.SpendsBudget start budget target.date.year w.date.year) :
    ∃ s', Settles (fun n => s.advanceTo n target) (.ok (), s') ∧
      Settles (fun n => s'.hasNext n) (.ok true, s') := by
  have hadmits := hs.admits hr hreal
  have hbudget' : 0 ≤ budget := by omega
  have hK := Rule.begins_course hadmits hbudget'
  have hcredited : (r.course start budget).credited.isSome = true :=
    Rule.isSome_credited_course hpos
  obtain ⟨-, -, -, hrule, hstart, -⟩ := hs.live hr hreal
  have hround : s.roundTarget target = target :=
    Series.roundTarget_of_kind (by rw [Series.hasTime, hstart, hkind]; exact id)
  have hskips : s.skipsMonths = true := by
    simp [Series.skipsMonths, hrule, hcount, hpos]
  have hheld : ∀ s' : Series, (∃ x, s'.pending = some x) →
      Settles (fun n => s'.hasNext n) (.ok true, s') := by
    rintro s' ⟨x, hx⟩
    filter_upwards with n
    simp [Series.hasNext, hx]
  -- an instance that is held already is the first of those that are returned
  have hmove : ∀ ws, { s with pending := none }.CanReturn ws → u ∈ ws → ws <:+: vs → ∃ s',
      Settles (fun n => { s with pending := none }.skipTo n target) (.ok (), s') ∧
        Settles (fun n => s'.hasNext n) (.ok true, s') := by
    intro ws hws hu hinfix
    have hfinished : s.finished = false := by
      by_contra hfinished
      have hnil := (Series.canReturn_iff_of_finished rfl (by simpa using hfinished)).mp hws
      simp [hnil] at hu
    obtain ⟨v, hrests⟩ := (Rule.rests_of_reachable hr hreal hpos hbudget' hs).resolve_left (by simp [hfinished])
    have hsteady : s.ending.Steady := Ending.steady_of_ne_count fun m => hs.not_count hr hcount m
    have hrests : (r.course start budget).Rests v { s with pending := none } := hrests.congr rfl rfl rfl
    obtain ⟨s', x, hsettles, hx⟩ := hrests.settles_skipTo hK hcredited hbudget
      ⟨rfl, hfinished, hsteady⟩ hskips hws hu hle fun p w hpw hyear hbefore hlate =>
        Rule.lasts_of_not_spendsBudget hadmits hbudget'
          (hgap p w (hpw.trans hinfix) hyear hbefore hlate)
    exact ⟨s', hsettles, hheld s' ⟨x, hx⟩⟩
  unfold Series.advanceTo
  simp only [hround]
  cases hp : s.pending with
  | none =>
    rw [Series.take_of_pending_none hp] at hmove
    exact hmove vs ⟨s₁, hvs⟩ hu (List.infix_refl vs)
  | some x =>
    obtain rfl | ⟨ws, rfl, hws⟩ := (Series.canReturn_held hp).mp ⟨s₁, hvs⟩
    · exact absurd hu List.not_mem_nil
    by_cases hlt : x < target
    · simp only [hlt, if_true]
      have hmem : u ∈ ws := (List.mem_cons.mp hu).resolve_left fun heq => hle (heq ▸ hlt)
      exact hmove ws hws hmem (List.suffix_cons x ws).isInfix
    · simp only [hlt, if_false]
      exact ⟨s, settles_const _, hheld s ⟨x, hp⟩⟩

/-- Leap days with a budget of eight years, moved to the day after one of them: the next one is four
years later, and it is kept. -/
theorem advanceTo_keeps_next_leap_day :
    let r : Rule := { untilBound := some (.ofDate ⟨1892, 12, 31⟩), freq := .yearly,
                      byMonth := [2], byMonthDay := [29] }
    let start : Value := .ofDate ⟨1880, 2, 29⟩
    let target : Value := .ofDate ⟨1888, 3, 1⟩
    ∃ s s', Series.Reachable r start .utc 8 s ∧
      Settles (fun n => s.advanceTo n target) (.ok (), s') ∧
      Settles (fun n => s'.hasNext n) (.ok true, s') := by
  intro r start target
  let vs : List Value := [.ofDate ⟨1880, 2, 29⟩, .ofDate ⟨1884, 2, 29⟩, .ofDate ⟨1888, 2, 29⟩,
    .ofDate ⟨1892, 2, 29⟩]
  obtain ⟨s, s₁, -, hcreate, hrun, -⟩ := Series.returns_of_wholeRunOf
    (show Series.wholeRunOf 50 5 r start .utc 8 = some vs by decide +kernel)
  have hlast : ∀ w ∈ vs, w.date.year ≤ 1892 := by decide
  -- from 1888 to 1892 there are not eight years
  have hgap : ∀ p w, [p, w] <:+: vs → p.date.year = target.date.year → p.MonthBefore target →
      ¬ w.MonthBefore target → ¬ r.SpendsBudget start 8 target.date.year w.date.year := by
    intro p w hpw _ _ hlate hspends
    have hw := hlast w (hpw.subset (by simp))
    have hfrom : target.date.year ≤ w.date.year := not_lt.mp fun hlt => hlate (.inl hlt)
    have hbudget := hspends.le hfrom
    change (8 : Int) ≤ w.date.year - 1888 at hbudget
    omega
  obtain ⟨s', hmove, hlook⟩ := advanceTo_keeps_next (show r.Valid by decide)
    (show start.IsReal by decide) rfl rfl (show (1 : Int) ≤ 8 by decide) (.create hcreate)
    (show target.hasTime = start.hasTime by decide) hrun
    (show Value.ofDate ⟨1892, 2, 29⟩ ∈ vs by decide) (by decide) hgap
  exact ⟨s, s', .create hcreate, hmove, hlook⟩

/-- **The gap is real.**  Leap days with a budget of eight years: stepping comes to that of 1904.
Moved to the day after the leap day of 1896, the series gives up.  It has passed over that leap day
unseen, so the year 1896 counts as idle, and with the seven years behind it the budget is spent. -/
theorem advanceTo_loses_leap_day :
    let r : Rule := { freq := .yearly, byMonth := [2], byMonthDay := [29] }
    let start : Value := .ofDate ⟨1880, 2, 29⟩
    let target : Value := .ofDate ⟨1896, 3, 1⟩
    ¬ Value.ofDate ⟨1904, 2, 29⟩ < target ∧
      Series.answersOf 50 [.next, .next, .next, .next, .next, .next] r start .utc 8 =
        some ([.value (.ofDate ⟨1880, 2, 29⟩), .value (.ofDate ⟨1884, 2, 29⟩),
          .value (.ofDate ⟨1888, 2, 29⟩), .value (.ofDate ⟨1892, 2, 29⟩),
          .value (.ofDate ⟨1896, 2, 29⟩), .value (.ofDate ⟨1904, 2, 29⟩)], false) ∧
      Series.answersOf 50 [.advanceTo target, .hasNext] r start .utc 8 =
        some ([.moved, .more false], true) := by
  decide +kernel

end Recurrence
