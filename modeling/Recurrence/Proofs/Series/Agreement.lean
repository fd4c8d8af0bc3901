/-
Recurrence/Proofs/Series/Agreement.lean

Series that take their instances from one set.

A set and the most that may be taken from it say all that there is to say about what a series
returns, as long as the years do not give up (`Series.TakesFrom`).  A new series takes from the
members that are left from its start on (`Supply.Begins.exists_takesFrom`).  So two series agree if
they take from one set, whatever chains they are driven by: they return the same values, and none
of them ends before the other (`Series.TakesFrom.prefix_or`, `Series.TakesFrom.prefix_of_ends`).
-/
import Recurrence.Proofs.Series.Allowance
import Recurrence.Proofs.Series.Start

namespace Recurrence

variable {s s' t t' : Series} {F F' : Value → Prop} {vs ws : List Value} {most : Option Int}

/-- Until the years give up, a series returns one value after another from a set, leaving none out
on the way, and it ends only if it has returned all of them, or as many as it may. -/
structure Series.TakesFrom (s : Series) (F : Value → Prop) (most : Option Int) : Prop where
  proceeds : ∀ {vs s'}, s.Returns vs s' → s'.Proceeds
  segment : ∀ {vs s'}, s.Returns vs s' → s'.source.halted = false → Segment F vs
  length_le : ∀ {vs s'}, s.Returns vs s' → ∀ n ∈ most, (vs.length : Int) ≤ n
  complete : ∀ {vs s' s''}, s.Returns vs s' → s'.Ends s'' → s''.source.halted = false →
    Segment F vs ∧ ((∀ u, F u → u ∈ vs) ∨ most = some (vs.length : Int))

namespace Series.TakesFrom

/-- **Series that take from one set** return the same values. -/
theorem prefix_or (hs : s.TakesFrom F most) (ht : t.TakesFrom F most) (hvs : s.Returns vs s')
    (hws : t.Returns ws t') (hgoes : s'.source.halted = false) (hgoes' : t'.source.halted = false) :
    vs <+: ws ∨ ws <+: vs :=
  (hs.segment hvs hgoes).prefix_or (ht.segment hws hgoes')

/-- **None of them ends** before the other. -/
theorem prefix_of_ends (hs : s.TakesFrom F most) (ht : t.TakesFrom F most) (hvs : s.Returns vs s')
    (hws : t.Returns ws t') {s'' : Series} (hend : s'.Ends s'') (hgoes : s''.source.halted = false)
    (hgoes' : t'.source.halted = false) : ws <+: vs := by
  obtain ⟨hsegment, hall | hused⟩ := hs.complete hvs hend hgoes
  · exact (ht.segment hws hgoes').prefix_of_all hsegment hall
  · rcases hsegment.prefix_or (ht.segment hws hgoes') with hle | hle
    · -- the other series may return no more than this one has
      have hlen := ht.length_le hws _ hused
      rw [hle.eq_of_length_le (by omega)]
    · exact hle

end Series.TakesFrom

namespace Supply

variable {S S' : Supply} {r : Rule} {start : Value} {zone : Zone} {budget : Int} {R : Value → Prop}

/-- **A series that tracks a set** takes its instances from it. -/
theorem Tracks.takesFrom (hS : S.Fits s) (hhonest : S.Honest) (h : S.Tracks s F)
    (hF : S.Astray s.source ∨ ∀ u, F' u ↔ F u) : s.TakesFrom F' s.allowance where
  proceeds hvs := by
    obtain ⟨hrule, -, F₁, htracks, -⟩ := h.returns hS hvs
    exact htracks.proceeds (hS.of_sameRule hrule)
  segment hvs hgoes := by
    obtain ⟨-, hastray, F₁, -, hsegment⟩ := h.returns hS hvs
    have hstraight := hhonest.straight hgoes
    exact (hsegment.resolve_left hstraight).1.congr (hF.resolve_left (hstraight ∘ hastray))
  length_le {vs s'} hvs n hn := by
    rw [Series.allowance_returns hvs, Option.mem_def, Option.map_eq_some_iff] at hn
    obtain ⟨k, hk, rfl⟩ := hn
    have := s'.allowance_nonneg k hk
    omega
  complete {vs s' s''} hvs hend hgoes := by
    obtain ⟨hrule, hastray, F₁, htracks, hsegment⟩ := h.returns hS hvs
    -- a source that has not gone astray at the end never has
    have hstraight := hhonest.straight hgoes ∘ (htracks.ends (hS.of_sameRule hrule) hend).2.1
    have hsame := hF.resolve_left (hstraight ∘ hastray)
    refine ⟨(hsegment.resolve_left hstraight).1.congr hsame, ?_⟩
    have hover : ∀ R u, S.Over s''.source R → ¬ S.Left s''.ending s''.zone R u := by
      rintro R u hover ⟨w, hw, hR, -⟩
      exact hhonest.none_left hgoes hover w hw hR
    rcases h.all_returned_or hS hvs hend (hhonest.straight hgoes) hover with
      hall | ⟨hpending, m, hm, hcount⟩
    · exact .inl fun u hu => hall u ((hsame u).mp hu)
    · refine .inr ?_
      rw [Series.allowance_returns hvs, Series.allowance_ends hend hpending hm hcount]
      simp

/-- What is left depends on the members alone. -/
theorem left_congr (hS : S.Lawful r start) (hS' : S'.Lawful r start)
    (h : ∀ w, w.IsReal → w.hasTime = start.hasTime → R w → (S.Member w ↔ S'.Member w))
    (e : Ending) (z : Zone) (u : Value) : S.Left e z R u ↔ S'.Left e z R u := by
  constructor
  · rintro ⟨w, hw, hR, hleft⟩
    obtain ⟨hreal, hkind⟩ := hS.member w hw
    exact ⟨w, (h w hreal hkind hR).mp hw, hR, hleft⟩
  · rintro ⟨w, hw, hR, hleft⟩
    obtain ⟨hreal, hkind⟩ := hS'.member w hw
    exact ⟨w, (h w hreal hkind hR).mpr hw, hR, hleft⟩

/-- **A new series** takes its instances from the members that are left, as many as its rule
counts. -/
theorem Begins.exists_takesFrom (h : S.Begins r start budget) (hhonest : S.Honest)
    (hr : r.Admits start) (hz : zone.Steady) :
    ∃ s, Settles (fun n => Series.create n r start zone budget) (.ok s) ∧
      s.TakesFrom (S.Left (.ofRule r) zone (start ≤ ·)) r.count := by
  obtain ⟨s, F, hsettles, hfits, -, -, -, htracks, hF⟩ := h.create hr hz
  obtain ⟨n, hn⟩ := hsettles.exists_bound
  exact ⟨s, hsettles, Series.allowance_create hr.valid hn ▸
    htracks.takesFrom hfits hhonest (hF.imp_right fun hF u => (hF u).symm)⟩

end Supply

end Recurrence
