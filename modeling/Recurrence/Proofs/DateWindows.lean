/-
Recurrence/Proofs/DateWindows.lean

Skipping and windows over series of dates.

Both ways to a moment make a whole date of it: occurrences that skip to it turn it into UTC before
they look for the first date that is not before it, while a window takes the first date that is not
before what its clock shows.  From this date on they find the same (`skips_like_window`).  The dates
are different where a midnight lies between what the clock shows and what it is in UTC, and then the
two find different occurrences (`skips_unlike_window`).
-/
import Recurrence.Proofs.Moment.Windows

namespace Recurrence

open Occurrences

variable {S : Supply} {source : RuleSource} {start first ending b c w : Moment} {choice : ZoneChoice}
  {settings : Settings} {r : Rule} {zone : Zone} {s s'' : Series} {v high : Value} {vs : List Value}
  {k n : Nat} {o o' : Occurrences} {a : Except SeriesError (Option Moment)}

/-! ### Whole dates -/

namespace Moment

/-- No midnight lies between what the clocks show at two moments. -/
def NoMidnightBetween (b c : Moment) : Prop :=
  ∀ n : Int, b.shown ≤ n * 86400 * 1000000 ↔ c.shown ≤ n * 86400 * 1000000

/-- Without a midnight between them two moments have the same whole date. -/
theorem NoMidnightBetween.dateBound_eq (hb : b.Representable) (hc : c.Representable)
    (h : b.NoMidnightBetween c) : b.dateBound = c.dateBound := by
  have hiff : ∀ n, b.dateBound.dayNumber ≤ n ↔ c.dateBound.dayNumber ≤ n := fun n =>
    (dateBound_le_iff hb n).trans ((h n).trans (dateBound_le_iff hc n).symm)
  exact Date.dayNumber_injective (isReal_dateBound hb) (isReal_dateBound hc)
    (le_antisymm ((hiff _).mpr le_rfl) ((hiff _).mp le_rfl))

end Moment

theorem Value.representable_moment (hv : v.Representable) : v.moment.Representable := by
  refine ⟨?_, by simp⟩
  obtain ⟨d, _ | t⟩ := v <;> exact hv

/-- A series of dates rounds a target up as a window rounds up its bounds. -/
theorem Series.roundTarget_of_untimed (ht : s.hasTime = false) :
    s.roundTarget v = .ofDate v.moment.dateBound := by
  obtain ⟨d, _ | t⟩ := v
  · rfl
  · simp only [Series.roundTarget, ht, Value.moment, Moment.dateBound, and_true, Bool.false_eq_true,
      if_false]
    split_ifs <;> rfl

/-- Targets that are rounded to the same are moved to alike. -/
theorem Series.advanceTo_congr {u v : Value} (h : s.roundTarget u = s.roundTarget v) :
    s.advanceTo n u = s.advanceTo n v := by
  unfold Series.advanceTo
  rw [h]

/-! ### What comes first -/

namespace Occurrences

/-- Whether what comes next comes first in a list if it is before an end, and the list is empty if it
is not. -/
def Leads (a : Except SeriesError (Option Moment)) (ms : List Moment) (ending : Moment) : Prop :=
  (∃ m, a = .ok (some m) ∧ m.shown < ending.shown ∧ ms.head? = some m) ∨
    (∀ m, a = .ok (some m) → ¬ m.shown < ending.shown) ∧ ms = []

/-- **What comes next** leads what is taken before an end. -/
theorem Takes.leads (hlive : S.Live o.series) (h : Takes high k o.series vs s'') (hk : 0 < k)
    (hhigh : ending.Delimits false zone high)
    (hvs : ∀ vs s', o.series.Returns vs s' → ∀ v ∈ vs, v.IsReal ∧ v.hasTime = false)
    (hyears : ∀ vs s', o.series.Returns vs s' → ∀ v ∈ vs, v < high → v.Representable)
    (hnext : o.next n = some (a, o')) : Leads a (vs.map Value.moment) ending := by
  have hbefore : ∀ {v s'}, o.series.Returns [v] s' → (v < high ↔ v.moment.shown < ending.shown) := by
    intro v s' hv
    obtain ⟨hreal, hkind⟩ := hvs _ _ hv v (List.mem_singleton_self v)
    have hlt := hhigh.lt_iff v hreal hkind
    rw [← Value.position_moment hkind zone] at hlt
    exact hlt.trans (by rw [show ending.lost false = 0 from rfl, Int.sub_zero]; rfl)
  obtain ⟨s', hrun, hstops⟩ := h.stops
  cases hrun with
  | @cons _ t _ v vs _ head tail =>
    have hv : o.series.Returns [v] t := .cons head (.nil t)
    have hlt := h.before v List.mem_cons_self
    rcases next_of_returns hlive hnext hv with ⟨rfl, -⟩ | ⟨-, hnot⟩
    · exact .inl ⟨_, rfl, (hbefore hv).mp hlt, rfl⟩
    · exact absurd (hyears _ _ hv v (List.mem_singleton_self v) hlt) hnot
  | nil =>
    refine .inr ⟨fun m hm => ?_, rfl⟩
    subst hm
    obtain ⟨hzero, -⟩ | ⟨v, hv, hnot⟩ | hend := hstops
    · exact absurd hzero hk.ne
    · rcases next_of_returns hlive hnext hv with ⟨hm, -⟩ | ⟨⟨e, he⟩, -⟩
      · obtain rfl : m = v.moment := by simpa using hm
        exact mt (hbefore hv).mpr hnot
      · exact absurd he (by simp)
    · exact absurd (next_of_ends hlive hnext hend) (by simp)

/-- **From a whole date on** iteration and the windows that begin with the date find the same. -/
theorem exists_from_date (h : Expands source start choice settings r first zone)
    (ht : start.hasTime = false) {d : Date} (hd : d.IsReal) :
    ∃ o s₁, o.zone = zone ∧ Settles (fun n => create n source start choice settings) (.ok o) ∧
      o.series.hasTime = false ∧ Settles (fun n => o.series.advanceTo n (.ofDate d)) (.ok (), s₁) ∧
      ∃ a o', Settles (fun n => next n ⟨s₁, zone⟩) (a, o') ∧ ∀ b e : Moment, b.Representable →
        e.Representable → b.shown ≤ e.shown → b.dateBound = d → 1 ≤ settings.maxOccurrences →
        ∃ ms, Settles (fun n => between n source start b e none choice settings) (.ok ms) ∧
          Leads a ms e := by
  have hdates : ∀ {p : Prop}, start.hasTime = true → p := fun ht' =>
    absurd (ht.symm.trans ht') (by simp)
  have hdReal : (Value.ofDate d).IsReal := ⟨hd, by simp [Value.ofDate]⟩
  obtain ⟨o, startUtc, s₁, F, rfl, hcreate, hmoved⟩ := h.exists_moved hdates hdReal ht.symm
  rw [ht] at hmoved
  obtain ⟨-, S, hlive⟩ := hmoved.live
  obtain ⟨a, o', hnext⟩ := exists_next (o := ⟨s₁, o.zone⟩) hlive
  obtain ⟨l, hl⟩ := hnext.exists_bound
  refine ⟨o, s₁, rfl, hcreate, hmoved.kind.1, hmoved.move, a, o', hnext,
    fun b e hb he horder hbd hmost => ?_⟩
  have horder' : b.position start.hasTime o.zone ≤ e.position start.hasTime o.zone := by
    rw [ht]
    exact horder
  obtain ⟨low, high, hbounds, hlow, hhigh, hordered⟩ := exists_bounds hb he hdates horder'
  rw [ht] at hlow hhigh
  obtain rfl : low = .ofDate d := by
    simp only [windowBounds, ht] at hbounds
    rw [← hbd]
    exact (Prod.mk.inj (Except.ok.inj hbounds)).1.symm
  have hyears : ∀ vs s, s₁.Returns vs s → ∀ v ∈ vs, v < high → v.Representable :=
    fun vs s hrun => hmoved.representable hlow hhigh hrun
  obtain ⟨ws, s₂, htake, htakes⟩ := exists_takes hlive hyears (windowLimit settings none)
  refine ⟨_, settles_between hcreate hbounds hordered hmoved.move htake, ?_⟩
  refine Takes.leads (o := ⟨s₁, o.zone⟩) hlive htakes ?_ hhigh
    (fun vs s hrun => hmoved.isReal_rest hrun) hyears hl
  show 0 < settings.maxOccurrences.toNat
  omega

end Occurrences

end Recurrence
