/-
Recurrence/Proofs/UntilRestriction.lean

A bound restricts a rule.

A series with a bound stops at the first instance beyond it and never looks at those behind.
Nothing is lost by this: along a run both the local values and the UTC values grow, so whichever
of the two the bound is for, all instances behind one that is beyond the bound are beyond it too
(`Rule.Generates.takeWhile_eq_filter`).  The series thus returns exactly those instances of the
rule without the bound that keep to it (`until_restricts`).
-/
import Mathlib.Data.List.TakeWhile
import Recurrence.Proofs.Series.Instances
import Recurrence.Proofs.Termination

namespace Recurrence

variable {r : Rule} {start last v : Value} {zone : Zone} {budget : Int} {i j : Value × Value}
  {is : List (Value × Value)}

/-! ### Keeping to a bound -/

/-- What it is for an instance, local and in UTC, to keep to a bound.  A date bounds the local
date.  A date-time bounds the value in UTC, or in a series of dates its date alone. -/
def KeepsTo (last : Value) (timed : Bool) (i : Value × Value) : Prop :=
  if last.hasTime = false then i.1.date.key ≤ last.date.key
  else if timed = true then i.2.key ≤ last.key
  else i.2.date.key ≤ last.date.key

instance (last : Value) (timed : Bool) (i : Value × Value) : Decidable (KeepsTo last timed i) := by
  unfold KeepsTo
  infer_instance

/-- A bound lets those instances pass that keep to it. -/
theorem passes_untilBound (last : Value) (i : Value × Value) :
    (Ending.untilBound last).passes i = true ↔ KeepsTo last i.2.hasTime i := by
  show Ending.withinBound last i.1 i.2 = true ↔ _
  unfold Ending.withinBound KeepsTo
  by_cases hlast : last.hasTime = true <;> by_cases hutc : i.2.hasTime = true <;>
    simp [hlast, hutc]

/-! ### The instances of a rule -/

/-- **The instances of a rule** grow, both local and in UTC. -/
theorem Rule.Generates.ascends (h : r.Admits start) (his : r.Generates start zone budget is) :
    is.Pairwise (fun i j => i.1 < j.1 ∧ i.2 < j.2) ∧
      ∀ i ∈ is, i.1.hasTime = start.hasTime ∧ i.2.hasTime = start.hasTime ∧
        i.1.toUtc zone = .ok i.2 := by
  obtain rfl | ⟨n, c, startUtc, js, hfills, -, hjs, rfl⟩ := his
  · exact ⟨.nil, by simp⟩
  rcases lt_or_ge budget 0 with hbudget | hbudget
  · -- without any budget no chain can be filled
    obtain ⟨c', hhalt⟩ := run_candidates_of_lt_one r start (show budget < 1 by omega)
    exact absurd (Patient.eq_of_settles (Series.patient_candidatesRun _ _ _) hhalt hfills.2) (by simp)
  · obtain ⟨S, -, hbegins⟩ := exists_supply h hbudget
    obtain ⟨R, hstocked⟩ := hbegins.stocked hfills zone
    have hsub : (Series.fromStart startUtc js).Sublist js := List.dropWhile_sublist _
    refine ⟨(hstocked.ascends hjs).sublist hsub, fun i hi => ?_⟩
    have hi := hstocked.forall_awaited hjs i (hsub.subset hi)
    exact ⟨hi.hasTime.1, hi.hasTime.2, hi.utc⟩

/-- Of a list in which whatever stands before an element that passes does so too, the beginning
that passes is all that passes. -/
theorem takeWhile_eq_filter_of_pairwise {α : Type} {p : α → Bool} {l : List α}
    (h : l.Pairwise fun a b => p b = true → p a = true) : l.takeWhile p = l.filter p := by
  induction l with
  | nil => rfl
  | cons a l ih =>
    obtain ⟨ha, hl⟩ := List.pairwise_cons.mp h
    cases hp : p a with
    | true => rw [List.takeWhile_cons_of_pos hp, List.filter_cons_of_pos hp, ih hl]
    | false =>
      have hnone : ∀ b ∈ l, ¬ p b = true := fun b hb hpb => by simp [ha b hb hpb] at hp
      rw [List.takeWhile_cons_of_neg (by simp [hp]), List.filter_cons_of_neg (by simp [hp]),
        List.filter_eq_nil_iff.mpr hnone]

/-- **Nothing is lost** behind the first instance that does not keep to a bound. -/
theorem Rule.Generates.takeWhile_eq_filter (h : r.Admits start)
    (his : r.Generates start zone budget is) (last : Value) :
    is.takeWhile (Ending.untilBound last).passes =
      is.filter fun i => decide (KeepsTo last start.hasTime i) := by
  obtain ⟨hgrow, hkinds⟩ := his.ascends h
  have hpasses : ∀ i ∈ is, (Ending.untilBound last).passes i = true ↔
      (Ending.untilBound last).Admits i.1 i.2 := by
    intro i _
    exact ⟨by rintro hi _ ⟨⟩; exact hi, fun hi => hi last rfl⟩
  rw [takeWhile_eq_filter_of_pairwise]
  · refine List.filter_congr fun i hi => ?_
    rw [Bool.eq_iff_iff, passes_untilBound, (hkinds i hi).2.1, decide_eq_true_iff]
  · refine hgrow.imp_of_mem fun {i j} hi hj hlt hpass => ?_
    rw [hpasses j hj] at hpass
    rw [hpasses i hi]
    have hlocal := (hkinds i hi).1.trans (hkinds j hj).1.symm
    have hutc := (hkinds i hi).2.1.trans (hkinds j hj).2.1.symm
    exact hpass.anti (Value.date_key_le hlocal hlt.1.le) hutc hlt.2.le

/-! ### With a bound and without -/

/-- A rule without its bound. -/
def Rule.unbounded (r : Rule) : Rule := { r with untilBound := none }

theorem Rule.valid_unbounded (h : r.Valid) : r.unbounded.Valid :=
  ⟨h.1, h.2.1, .inr rfl, h.2.2.2⟩

/-- The instances of a rule are those of the rule without its bound. -/
theorem Rule.generates_unbounded :
    r.unbounded.Generates start zone budget is ↔ r.Generates start zone budget is :=
  ⟨fun h => h.withEnd r.count r.untilBound, fun h => h.withEnd r.count none⟩

/-- **A bound is a restriction.**  Take a valid rule with a bound and a start that the rule can
use, in any zone and with any budget.  The series of the rule with the bound and without it can
be created.  Without it, the series returns the UTC values of the instances that it generates;
these grow on the clock and in UTC, and each is its local value turned into UTC.  With the bound,
it returns exactly those of them that keep to the bound, in the same order: it is able to return
some values if and only if these are all that are left of a beginning of the other run.  After
each of them it returns another or says that there is none. -/
theorem until_restricts {r : Rule} {start last : Value} (hr : r.Valid) (hreal : start.IsReal)
    (hsub : r.freq.isSubDaily = true → start.hasTime = true) (hlast : r.untilBound = some last)
    (zone : Zone) (budget : Int) :
    ∃ s₀ t₀, Settles (fun n => Series.create n r start zone budget) (.ok s₀) ∧
      Settles (fun n => Series.create n r.unbounded start zone budget) (.ok t₀) ∧
      (∀ is, r.unbounded.Generates start zone budget is →
        is.Pairwise (fun i j => i.1 < j.1 ∧ i.2 < j.2) ∧ ∀ i ∈ is, i.1.toUtc zone = .ok i.2) ∧
      (∀ vs, t₀.CanReturn vs ↔
        ∃ is, r.unbounded.Generates start zone budget is ∧ vs = is.map Prod.snd) ∧
      (∀ vs, s₀.CanReturn vs ↔ ∃ is, r.unbounded.Generates start zone budget is ∧
        vs = (is.filter fun i => decide (KeepsTo last start.hasTime i)).map Prod.snd) ∧
      ∀ vs s, s₀.Returns vs s → s.Proceeds := by
  have hcount : r.count = none := hr.2.2.1.resolve_right (by simp [hlast])
  have hbound : Ending.ofRule r = .untilBound last := by simp only [Ending.ofRule, hcount, hlast]
  have hnever : Ending.ofRule r.unbounded = .never := by
    simp only [Ending.ofRule, Rule.unbounded, hcount]
  have hfree : r.unbounded.Admits start := ⟨Rule.valid_unbounded hr, hreal, hsub⟩
  obtain ⟨-, s₀, hs₀, -⟩ := Rule.exists_live ⟨hr, hreal, hsub⟩ zone budget
  obtain ⟨-, t₀, ht₀, -⟩ := Rule.exists_live hfree zone budget
  obtain ⟨n, hn⟩ := hs₀.exists_bound
  obtain ⟨m, hm⟩ := ht₀.exists_bound
  refine ⟨s₀, t₀, hs₀, ht₀, fun is his => ?_, fun vs => ?_, fun vs => ?_, fun vs s hrun => ?_⟩
  · obtain ⟨hgrow, hkinds⟩ := his.ascends hfree
    exact ⟨hgrow, fun i hi => (hkinds i hi).2.2⟩
  · rw [Series.create_canReturn_iff hm (by rw [hnever]; exact Ending.steady_never), hnever]
    have hall : ∀ is : List (Value × Value), is.takeWhile Ending.never.passes = is :=
      fun is => List.takeWhile_eq_self_iff.mpr fun _ _ => rfl
    simp only [hall]
  · rw [Series.create_canReturn_iff hn (by rw [hbound]; exact Ending.steady_untilBound last),
      hbound]
    refine exists_congr fun is => ?_
    rw [Rule.generates_unbounded]
    refine and_congr_right fun his => ?_
    rw [his.takeWhile_eq_filter ⟨hr, hreal, hsub⟩]
  · obtain ⟨S, -, hlive, hrule, -⟩ := ((Series.Reachable.create hn).returns hrun).live hr hreal
    obtain ⟨a, s', hsettles, -, -, ⟨v, rfl⟩ | rfl⟩ := hlive.next
    · exact .inl ⟨v, s', hsettles⟩
    · exact .inr ⟨s', hsettles.exists_bound⟩

/-- Daily evenings five hours behind UTC, up to a date.  The last of them is on that date on the
clock, and on the day after it in UTC. -/
theorem until_restricts_evenings :
    let r : Rule := { untilBound := some (.ofDate ⟨2024, 2, 1⟩), freq := .daily }
    let start : Value := .ofDateTime ⟨2024, 1, 30⟩ ⟨21, 0, 0⟩
    let zone : Zone := .fixed (-18000)
    let vs : List Value := [.ofDateTime ⟨2024, 1, 31⟩ ⟨2, 0, 0⟩, .ofDateTime ⟨2024, 2, 1⟩ ⟨2, 0, 0⟩,
      .ofDateTime ⟨2024, 2, 2⟩ ⟨2, 0, 0⟩]
    ∃ s₀ s s' is, Settles (fun n => Series.create n r start zone 100) (.ok s₀) ∧
      s₀.Returns vs s ∧ s.Ends s' ∧ r.unbounded.Generates start zone 100 is ∧
      vs = (is.filter fun i => decide (KeepsTo (.ofDate ⟨2024, 2, 1⟩) true i)).map Prod.snd := by
  intro r start zone vs
  obtain ⟨s₁, s, s', hcreate, hrun, hend⟩ := Series.returns_of_wholeRunOf
    (show Series.wholeRunOf 50 5 r start zone 100 = some vs by decide +kernel)
  obtain ⟨s₀, t₀, hs₀, -, -, -, hbounded, -⟩ := until_restricts (show r.Valid by decide)
    (show start.IsReal by decide) (show r.freq.isSubDaily = true → start.hasTime = true by decide)
    (show r.untilBound = some (.ofDate ⟨2024, 2, 1⟩) from rfl) zone 100
  obtain rfl := Series.create_unique hs₀ hcreate
  obtain ⟨is, his, hvs⟩ := (hbounded vs).mp ⟨s, hrun⟩
  exact ⟨_, s, s', is, hs₀, hrun, hend, his, hvs⟩

end Recurrence
