/-
Recurrence/Proofs/Calendar/Steady.lean

Zones with one offset.

In UTC, and in a zone whose offset never changes, every real wall-clock value has a
UTC value, the two differ by the offset, and later values are later in UTC
(`Value.inUtc_lt_iff`).  Dates have no zone and stay as they are.
-/
import Recurrence.Proofs.Calendar.Checked
import Recurrence.Proofs.Calendar.ValueOrder

namespace Recurrence

/-- Whether a zone has one offset, of less than a day, at all times. -/
def Zone.Steady : Zone → Prop
  | .utc => True
  | .fixed offset | .named _ offset => -86400 < offset ∧ offset < 86400
  | .shifting _ _ => False

/-- The seconds by which a wall-clock value of a steady zone is ahead of UTC. -/
def Zone.lead (z : Zone) (timed : Bool) : Int := if timed then z.offsetAtInstant 0 else 0

/-- The one offset of a steady zone is its lead, also at a wall-clock time. -/
theorem Zone.Steady.offset_eq {z : Zone} (hz : z.Steady) (t : Int) :
    z.offsetAtInstant t = z.lead true ∧ z.offsetAtLocal t = z.lead true := by
  cases z with
  | shifting initial ts => exact hz.elim
  | _ => exact ⟨rfl, rfl⟩

namespace Value

variable {v w : Value} {z : Zone}

/-! ### Moving by seconds -/

theorem addSeconds_spec (hv : v.IsReal) (ht : v.hasTime = true) (n : Int) :
    (v.addSeconds n).IsReal ∧ (v.addSeconds n).hasTime = true ∧
      (v.addSeconds n).instant = v.instant + n := by
  obtain ⟨d, _ | t⟩ := v
  · exact absurd ht (by simp [hasTime])
  · obtain ⟨hdate, htime, hinstant⟩ := carryFields_spec d { t with second := t.second + n }
    refine ⟨⟨hdate, ?_⟩, rfl, ?_⟩
    · rintro _ ⟨⟩
      exact htime
    · rw [instantOf_add_second] at hinstant
      exact hinstant

/-! ### Looking up an offset -/

theorem lookupDate_isReal {d : Date} (hd : d.IsReal) :
    (Zone.lookupDate d).IsReal ∧ 2 ≤ (Zone.lookupDate d).year ∧ (Zone.lookupDate d).year ≤ 9998 := by
  obtain ⟨h1, h12, h1d, hd'⟩ := hd
  unfold Zone.lookupDate
  dsimp only
  split_ifs with h
  · exact ⟨⟨h1, h12, h1d, hd'⟩, by omega, by omega⟩
  · have := Gregorian.monthLengthWithin_bounds (min (max d.year 2) 9998) d.month
    exact ⟨⟨h1, h12, by show 1 ≤ min d.day 28; omega, (min_le_right _ _).trans this.1⟩,
      by show 2 ≤ min (max d.year 2) 9998; omega, min_le_right _ _⟩

theorem checkDateTime_of_real {d : Date} {t : TimeOfDay} (hd : d.IsReal) (hlow : 2 ≤ d.year)
    (hhigh : d.year ≤ 9998) (ht : t.IsReal) : checkDateTime d t = .ok (d, t) :=
  checkDateTime_eq_ok_iff.mpr ⟨rfl, hd, by omega, by omega, ht⟩

/-- Every real value has an instant at which its offset is looked up. -/
theorem exists_lookupInstant {d : Date} {t : TimeOfDay} (hd : d.IsReal) (ht : t.IsReal) :
    ∃ n, Zone.lookupInstant d t = .ok n := by
  obtain ⟨hreal, hlow, hhigh⟩ := lookupDate_isReal hd
  refine ⟨instantOf (Zone.lookupDate d) t, ?_⟩
  rw [Zone.lookupInstant, checkDateTime_of_real hreal hlow hhigh ht]
  rfl

/-! ### To UTC and back -/

/-- The UTC value of a wall-clock value, where there is one. -/
def inUtc (v : Value) (z : Zone) : Value :=
  match v.toUtc z with
  | .ok u => u
  | .error _ => v

/-- **Real values have a UTC value** in a steady zone, as far from them as the zone is.  Dates have
one in any zone. -/
theorem toUtc_of_steady (hz : v.hasTime = true → z.Steady) (hv : v.IsReal) :
    v.toUtc z = .ok (v.inUtc z) ∧ (v.inUtc z).IsReal ∧ (v.inUtc z).hasTime = v.hasTime ∧
      (v.inUtc z).instant = v.instant - z.lead v.hasTime := by
  suffices h : ∃ u, v.toUtc z = .ok u ∧ u.IsReal ∧ u.hasTime = v.hasTime ∧
      u.instant = v.instant - z.lead v.hasTime by
    obtain ⟨u, hu, h⟩ := h
    rw [inUtc, hu]
    exact ⟨rfl, h⟩
  have hoffset : ∀ {d : Date} {t : TimeOfDay}, (Value.mk d (some t)).IsReal → ∀ offset : Int,
      ∃ u, (do let _ ← Zone.lookupInstant d t
               return if offset = 0 then ⟨d, some t⟩ else (⟨d, some t⟩ : Value).addSeconds (-offset))
          = (Except.ok u : Except ConversionError Value) ∧ u.IsReal ∧ u.hasTime = true ∧
        u.instant = (Value.mk d (some t)).instant - offset := by
    intro d t hreal offset
    obtain ⟨n, hn⟩ := exists_lookupInstant hreal.1 (hreal.2 t rfl)
    rw [hn]
    refine ⟨_, rfl, ?_⟩
    split_ifs with h
    · exact ⟨hreal, rfl, by omega⟩
    · exact addSeconds_spec hreal rfl _
  obtain ⟨d, _ | t⟩ := v
  · refine ⟨⟨d, none⟩, by cases z <;> rfl, hv, rfl, ?_⟩
    simp [Zone.lead, hasTime]
  · cases z with
    | utc => exact ⟨_, rfl, hv, rfl, by simp [Zone.lead, hasTime, Zone.offsetAtInstant]⟩
    | fixed offset => exact hoffset hv offset
    | named shown offset => exact hoffset hv offset
    | shifting initial ts => exact (hz rfl).elim

/-- **Later values are later in UTC.** -/
theorem inUtc_lt_iff (hz : v.hasTime = true → z.Steady) (hv : v.IsReal) (hw : w.IsReal)
    (h : v.hasTime = w.hasTime) : v.inUtc z < w.inUtc z ↔ v < w := by
  obtain ⟨-, hvr, hvt, hvi⟩ := toUtc_of_steady hz hv
  obtain ⟨-, hwr, hwt, hwi⟩ := toUtc_of_steady (h ▸ hz) hw
  rw [lt_iff_instant hvr hwr (by rw [hvt, hwt, h]), lt_iff_instant hv hw h, hvi, hwi, h]
  omega

/-- **Real UTC values have a wall-clock value** in a steady zone; it is the one that they
are the UTC value of. -/
theorem fromUtc_of_steady (hz : z.Steady) (hv : v.IsReal) :
    ∃ l, v.fromUtc z = .ok l ∧ l.IsReal ∧ l.hasTime = v.hasTime ∧ l.inUtc z = v := by
  suffices h : ∃ l, v.fromUtc z = .ok l ∧ l.IsReal ∧ l.hasTime = v.hasTime ∧
      l.instant = v.instant + z.lead v.hasTime by
    obtain ⟨l, hl, hreal, hkind, hinstant⟩ := h
    refine ⟨l, hl, hreal, hkind, ?_⟩
    obtain ⟨-, hur, hut, hui⟩ := toUtc_of_steady (fun _ => hz) hreal
    have hk : (l.inUtc z).hasTime = v.hasTime := hut.trans hkind
    rw [hkind, hinstant] at hui
    exact eq_of_instant hur hv hk (by omega)
  -- the one offset of the zone is added, and it is shorter than a day
  have hoffset : ∀ {d : Date} {t : TimeOfDay}, (Value.mk d (some t)).IsReal → ∀ offset : Int,
      -86400 < offset ∧ offset < 86400 →
      ∃ l, (do let _ ← Zone.lookupInstant d t
               let offset ← Zone.checkOffset offset
               return if offset = 0 then ⟨d, some t⟩ else (⟨d, some t⟩ : Value).addSeconds offset)
          = (Except.ok l : Except ConversionError Value) ∧ l.IsReal ∧ l.hasTime = true ∧
        l.instant = (Value.mk d (some t)).instant + offset := by
    intro d t hreal offset hbounds
    obtain ⟨n, hn⟩ := exists_lookupInstant hreal.1 (hreal.2 t rfl)
    rw [hn, Zone.checkOffset, if_pos hbounds]
    refine ⟨_, rfl, ?_⟩
    split_ifs with h
    · exact ⟨hreal, rfl, by omega⟩
    · exact addSeconds_spec hreal rfl _
  obtain ⟨d, _ | t⟩ := v
  · refine ⟨⟨d, none⟩, by cases z <;> rfl, hv, rfl, ?_⟩
    simp [Zone.lead, hasTime]
  · cases z with
    | utc => exact ⟨_, rfl, hv, rfl, by simp [Zone.lead, hasTime, Zone.offsetAtInstant]⟩
    | fixed offset => exact hoffset hv offset hz
    | named shown offset => exact hoffset hv offset hz
    | shifting initial ts => exact hz.elim

end Value

end Recurrence
