/-
Recurrence/Proofs/AwareStarts.lean

Starts that tell their zone.

A start in a zone of its own is an instant.  If another zone is chosen for it, it becomes what the
clocks of that zone show at this instant, and the series turns this back into UTC to know where it
begins.  So it begins with the first instant at which the clocks of the chosen zone show the same
(`Expands.exists_startUtc_of_aware`), and nothing that it ever yields is before that instant
(`aware_start_bounds`).  This is the start itself, unless the start lies in the second pass of an
overlap: then the series begins before it (`aware_start_precedes`).
-/
import Recurrence.Proofs.Calendar.Overlaps
import Recurrence.Proofs.Moment.Iteration
import Recurrence.Proofs.Series.Guarded
import Recurrence.Proofs.Termination

namespace Recurrence

open Occurrences

variable {source : RuleSource} {start first : Moment} {choice : ZoneChoice} {settings : Settings}
  {r : Rule} {zone own : Zone} {d : Date} {t : TimeOfDay} {micros : Int}

/-- **The start in UTC** is the instant of the start, or, if it is moved to a zone that is chosen for
it, the first instant at which the clocks of that zone show what they show then. -/
theorem Occurrences.Expands.exists_startUtc_of_aware
    (h : Expands source (.dateTime d t micros (some own)) choice settings r first zone)
    (hlow : 3 ≤ d.year) (hhigh : d.year ≤ 9997) (hshort : zone.Short) (hspaced : zone.Spaced) {T : Int}
    (hT : T = instantOf d t - own.offsetAtLocal (instantOf d t)) :
    ∃ v, first.toValue.toUtc zone = .ok v ∧ v.IsReal ∧ v.hasTime = true ∧
      (v.instant = T ∨ choice ≠ .unspecified ∧ IsLeast {u | zone.shownAt u = zone.shownAt T} v.instant) := by
  have hreal : (Value.ofDateTime d t).IsReal := h.real.1.1
  rcases place_cases h.placed with ⟨rfl, hown⟩ | ⟨hchosen, _, _, _, _, du, tu, d', t', ⟨⟩, hto, hfrom, rfl⟩
  · obtain rfl := hown own rfl
    obtain ⟨v, hutc, hv, hvt, hinstant⟩ := Value.toUtc_eq_ok (z := own) hreal rfl
      (show 2 ≤ d.year by omega) (show d.year ≤ 9998 by omega)
    exact ⟨v, hutc, hv, hvt, .inl (hinstant.trans hT.symm)⟩
  · obtain ⟨hrealUtc, hinUtc⟩ := Zone.toUtcFields_spec hreal hto
    obtain ⟨⟨hrealLocal, -⟩, hlocal⟩ := Zone.fromUtcFields_spec hrealUtc.1 hfrom
    rw [hinUtc, ← hT] at hlocal
    -- two offsets lead into the next year at most, or back into the last one
    have hbounds := Zone.offset_bounds_of_toUtcFields hto
    have hoffset := hshort _ (zone.offsetAtInstant_mem T)
    have hahead : d'.year ≤ d.year + 1 := Value.year_le_succ_of_near hreal hrealLocal
      (show instantOf d' t' < instantOf d t + 172800 by omega)
    have hbehind : d.year ≤ d'.year + 1 := Value.year_le_succ_of_near hrealLocal hreal
      (show instantOf d t < instantOf d' t' + 172800 by omega)
    obtain ⟨v, hutc, hv, hvt, hinstant⟩ := Value.toUtc_eq_ok (z := zone) hrealLocal rfl
      (show 2 ≤ d'.year by omega) (show d'.year ≤ 9998 by omega)
    have hshown : (Value.ofDateTime d' t').instant = zone.shownAt T := hlocal
    refine ⟨v, hutc, hv, hvt, .inr ⟨hchosen, ?_⟩⟩
    rw [hinstant, hshown]
    exact Zone.isLeast_shownAt hshort hspaced T

/-- Nothing that occurrences yield, wherever calls have led them, is before the start in UTC. -/
theorem Occurrences.Expands.instant_le_of_next
    (h : Expands source start choice settings r first zone) (ht : start.hasTime = true) {v : Value}
    (hutc : first.toValue.toUtc zone = .ok v) (hv : v.IsReal) (hvt : v.hasTime = true)
    {o o' : Occurrences} (ho : Occurrences.Reachable source start choice settings o) {n : Nat} {m : Moment}
    (hnext : o.next n = some (.ok (some m), o')) : v.instant * 1000000 ≤ m.instantIn zone := by
  have hK := Rule.begins_course h.admits h.years
  obtain ⟨-, hreach⟩ := h.reachable ho
  obtain ⟨S, -, hlive, -, hstart, -⟩ := hreach.live h.valid h.admits.real
  obtain ⟨hm, -⟩ | ⟨w, hreturns, ⟨hm, -⟩ | ⟨⟨e, he⟩, -⟩⟩ := next_cases_of_live hlive hnext
  · exact absurd hm (by simp)
  · obtain rfl : m = w.moment := by simpa using hm
    have hguarded := hreach.guarded h.admits h.years hutc
    obtain ⟨hle, haccounts⟩ := (hguarded.returns hK hreturns).2 w (List.mem_singleton_self w)
    obtain ⟨hw, hwt⟩ := haccounts.isReal hK
    have hwt : w.hasTime = true := by
      rw [hwt, hguarded.kind, Series.hasTime, hstart, h.hasTime, ht]
    have hinstant := Value.position_moment hwt zone
    rw [Value.lt_iff_instant hw hv (hwt.trans hvt.symm)] at hle
    have hposition : w.moment.instantIn zone = w.instant * 1000000 := hinstant
    omega
  · exact absurd he (by simp)

end Recurrence
