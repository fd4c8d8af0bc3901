/-
Recurrence/Proofs/Calendar/Shifts.lean

Zones whose offset changes.

Whatever the transitions of a zone are, an offset that it gives is one of finitely many
(`Zone.offsets`).  So every real wall-clock value has a UTC value, and this is not far from it
(`Zone.exists_reach`), although later values need not be later in UTC.  Where all offsets are
shorter than a day, every real UTC value has a wall-clock value too.
-/
import Mathlib.Data.Int.Order.Basic
import Mathlib.Data.Set.Finite.Lattice
import Recurrence.Proofs.Calendar.Steady

namespace Recurrence

namespace Zone

variable {z : Zone} {t : Int}

/-- The offsets that a zone can give. -/
def offsets : Zone → List Int
  | utc => [0]
  | fixed offset | named _ offset => [offset]
  | shifting initial ts => initial :: ts.map (·.offset)

/-- Whether all offsets of a zone are shorter than a day. -/
def Short (z : Zone) : Prop := ∀ offset ∈ z.offsets, -86400 < offset ∧ offset < 86400

instance (z : Zone) : Decidable z.Short := by unfold Short; infer_instance

theorem localOffset_mem (t : Int) (ts : List Transition) (before found : Int) :
    localOffset t ts before found ∈ found :: ts.map (·.offset) := by
  induction ts generalizing before found with
  | nil => exact List.mem_cons_self
  | cons tr ts ih =>
    rw [localOffset]
    -- either the offset found so far stays, or that of this transition takes its place
    rcases List.mem_cons.mp (ih tr.offset (if tr.instant + before ≤ t then tr.offset else found)) with
      heq | hmem
    · rw [heq]
      split_ifs
      · exact .tail _ List.mem_cons_self
      · exact List.mem_cons_self
    · exact .tail _ (.tail _ hmem)

theorem offsetAtLocal_mem (z : Zone) (t : Int) : z.offsetAtLocal t ∈ z.offsets := by
  cases z with
  | shifting initial ts => exact localOffset_mem t ts initial initial
  | _ => exact List.mem_cons_self

theorem offsetAtInstant_mem (z : Zone) (t : Int) : z.offsetAtInstant t ∈ z.offsets := by
  cases z with
  | shifting initial ts =>
    show ts.foldl _ initial ∈ initial :: ts.map (·.offset)
    induction ts generalizing initial with
    | nil => exact List.mem_cons_self
    | cons tr ts ih =>
      rw [List.foldl_cons]
      rcases List.mem_cons.mp (ih (if tr.instant ≤ t then tr.offset else initial)) with heq | hmem
      · rw [heq]
        split_ifs
        · exact .tail _ List.mem_cons_self
        · exact List.mem_cons_self
      · exact .tail _ (.tail _ hmem)
  | _ => exact List.mem_cons_self

end Zone

namespace Value

variable {v : Value} {z : Zone}

/-- A value of a zone is ahead of its UTC value by one of the zone's offsets; dates have none. -/
theorem toUtc_spec (z : Zone) (hv : v.IsReal) : ∃ u, v.toUtc z = .ok u ∧ u.IsReal ∧
    u.hasTime = v.hasTime ∧ (u.instant = v.instant ∨ ∃ o ∈ z.offsets, u.instant = v.instant - o) := by
  obtain ⟨d, _ | t⟩ := v
  · exact ⟨_, by cases z <;> rfl, hv, rfl, .inl rfl⟩
  · obtain ⟨n, hn⟩ := exists_lookupInstant hv.1 (hv.2 t rfl)
    have hlookup : z ≠ .utc → (⟨d, some t⟩ : Value).toUtc z = .ok
        (if z.offsetAtLocal n = 0 then ⟨d, some t⟩
          else (⟨d, some t⟩ : Value).addSeconds (-z.offsetAtLocal n)) := by
      intro hz
      cases z with
      | utc => exact absurd rfl hz
      | _ => simp only [toUtc, hn]; rfl
    by_cases hz : z = .utc
    · subst hz
      exact ⟨_, rfl, hv, rfl, .inl rfl⟩
    · rw [hlookup hz]
      refine ⟨_, rfl, ?_⟩
      split_ifs with hzero
      · exact ⟨hv, rfl, .inl rfl⟩
      · obtain ⟨hreal, hkind, hinstant⟩ := addSeconds_spec hv rfl (-z.offsetAtLocal n)
        exact ⟨hreal, hkind, .inr ⟨_, z.offsetAtLocal_mem n, by omega⟩⟩

/-- **Every real value has a UTC value**, and there is a bound on how far behind it this is. -/
theorem exists_reach (z : Zone) : ∃ M : Int, ∀ v : Value, v.IsReal → ∃ u, v.toUtc z = .ok u ∧
    u.IsReal ∧ u.hasTime = v.hasTime ∧ v.instant ≤ u.instant + M := by
  -- a zone has finitely many offsets
  obtain ⟨M, hM⟩ := z.offsets.finite_toSet.bddAbove
  refine ⟨max M 0, fun v hv => ?_⟩
  obtain ⟨u, hu, hreal, hkind, hnear⟩ := toUtc_spec z hv
  refine ⟨u, hu, hreal, hkind, ?_⟩
  rcases hnear with heq | ⟨o, ho, heq⟩
  · have := le_max_right M 0
    omega
  · have := hM ho
    have := le_max_left M 0
    omega

/-- **Every real UTC value has a wall-clock value** where the offsets are shorter than a day. -/
theorem exists_fromUtc (hz : z.Short) (hv : v.IsReal) : ∃ l, v.fromUtc z = .ok l := by
  obtain ⟨d, _ | t⟩ := v
  · exact ⟨_, by cases z <;> rfl⟩
  · obtain ⟨n, hn⟩ := exists_lookupInstant hv.1 (hv.2 t rfl)
    have hoffset := Zone.checkOffset.eq_1 (z.offsetAtInstant n)
    rw [if_pos (hz _ (z.offsetAtInstant_mem n))] at hoffset
    cases z with
    | utc => exact ⟨_, rfl⟩
    | _ => simp only [fromUtc, hn, bind, Except.bind, hoffset]; exact ⟨_, rfl⟩

end Value

end Recurrence
