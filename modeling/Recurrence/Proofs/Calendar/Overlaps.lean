/-
Recurrence/Proofs/Calendar/Overlaps.lean

From UTC to the clocks of a zone and back.

Where clocks are put back, they show some times twice, and a wall-clock time alone does not tell
which of the two instants is meant.  Turning it into UTC takes the first of them.  So on the way
from UTC to a zone and back an instant becomes the first one at which the clocks show the same
(`Zone.isLeast_shownAt`): the instant itself, unless it lies in the second pass of an overlap.
The transitions of the zone are far apart here compared with its offsets, so that its clocks run
through at most one transition at a time.
-/
import Recurrence.Proofs.Calendar.Shifts

namespace Recurrence

namespace Zone

variable {z : Zone} {t L : Int}

/-- Whether the transitions of a zone are in order and at least two days apart. -/
def Spaced : Zone → Prop
  | shifting _ ts => ts.Pairwise fun a b => a.instant + 172800 ≤ b.instant
  | _ => True

instance (z : Zone) : Decidable z.Spaced := by
  unfold Spaced
  cases z <;> infer_instance

/-- What the clocks of a zone show at an instant, as an instant of UTC would be shown. -/
def shownAt (z : Zone) (t : Int) : Int := t + z.offsetAtInstant t

/-- Before all its transitions a zone has its first offset. -/
theorem offsetAtInstant_of_lt {before : Int} {ts : List Transition}
    (h : ∀ tr ∈ ts, t < tr.instant) : (shifting before ts).offsetAtInstant t = before := by
  show ts.foldl _ before = before
  induction ts with
  | nil => rfl
  | cons tr ts ih =>
    obtain ⟨htr, hts⟩ := List.forall_mem_cons.mp h
    rw [List.foldl_cons, if_neg (not_le.mpr htr)]
    exact ih hts

/-- The first transition of a zone parts the instants before it, which have the first offset, from
those after it, for which the rest of the zone counts. -/
theorem offsetAtInstant_cons {before : Int} {tr : Transition} {ts : List Transition}
    (h : ∀ tr' ∈ ts, tr.instant ≤ tr'.instant) : (shifting before (tr :: ts)).offsetAtInstant t =
      if tr.instant ≤ t then (shifting tr.offset ts).offsetAtInstant t else before := by
  split_ifs with hle
  · show List.foldl _ (if tr.instant ≤ t then tr.offset else before) ts = List.foldl _ tr.offset ts
    rw [if_pos hle]
  · refine offsetAtInstant_of_lt (List.forall_mem_cons.mpr ⟨not_le.mp hle, fun tr' hmem => ?_⟩)
    exact (not_le.mp hle).trans_le (h tr' hmem)

/-- A wall-clock time a day or more before all transitions takes no offset from them. -/
theorem localOffset_of_lt {before found : Int} {ts : List Transition}
    (hshort : (shifting before ts).Short) (h : ∀ tr ∈ ts, L + 86400 ≤ tr.instant) :
    localOffset L ts before found = found := by
  induction ts generalizing before with
  | nil => rfl
  | cons tr ts ih =>
    obtain ⟨hbefore, hts⟩ := List.forall_mem_cons.mp hshort
    obtain ⟨htr, hlater⟩ := List.forall_mem_cons.mp h
    rw [localOffset, if_neg (by omega)]
    exact ih hts hlater

/-- Where transitions are days apart, the first of them decides alone whether a wall-clock time has
the first offset. -/
theorem offsetAtLocal_cons {before : Int} {tr : Transition} {ts : List Transition}
    (hshort : (shifting before (tr :: ts)).Short) (hspaced : (shifting before (tr :: ts)).Spaced) :
    (shifting before (tr :: ts)).offsetAtLocal L =
      if tr.instant + before ≤ L then (shifting tr.offset ts).offsetAtLocal L else before := by
  obtain ⟨hbefore, hshort'⟩ := List.forall_mem_cons.mp hshort
  obtain ⟨hgap, -⟩ := List.pairwise_cons.mp hspaced
  show localOffset L (tr :: ts) before before =
    if tr.instant + before ≤ L then localOffset L ts tr.offset tr.offset else before
  rw [localOffset]
  split_ifs with hpast
  · rfl
  · refine localOffset_of_lt hshort' fun tr' hmem => ?_
    have := hgap tr' hmem
    omega

/-- The clocks are less than a day ahead or behind. -/
theorem shownAt_bounds (hshort : z.Short) (t : Int) :
    t - 86400 < z.shownAt t ∧ z.shownAt t < t + 86400 := by
  have := hshort _ (z.offsetAtInstant_mem t)
  unfold shownAt
  omega

section FirstTransition

variable {before : Int} {tr : Transition} {ts : List Transition}

/-- What the clocks show from the first transition on is what they show in the rest of the zone. -/
theorem shownAt_cons (hspaced : (shifting before (tr :: ts)).Spaced) :
    (shifting before (tr :: ts)).shownAt t =
      if tr.instant ≤ t then (shifting tr.offset ts).shownAt t else t + before := by
  have hgap := (List.pairwise_cons.mp hspaced).1
  unfold shownAt
  rw [offsetAtInstant_cons fun tr' hmem => by have := hgap tr' hmem; omega]
  split_ifs <;> rfl

/-- Until two days after the first transition the clocks show its offset. -/
theorem shownAt_near (hspaced : (shifting before (tr :: ts)).Spaced) (ht : t < tr.instant + 172800) :
    (shifting tr.offset ts).shownAt t = t + tr.offset := by
  have hgap := (List.pairwise_cons.mp hspaced).1
  exact congrArg (t + ·) (offsetAtInstant_of_lt fun tr' hmem => ht.trans_le (hgap tr' hmem))

/-- What the clocks show at some instant from the first transition on, the rest of the zone shows at
no instant before it. -/
theorem instant_le_of_shownAt_eq {u : Int} (hshort : (shifting before (tr :: ts)).Short)
    (hspaced : (shifting before (tr :: ts)).Spaced) (hu : tr.instant ≤ u)
    (heq : (shifting tr.offset ts).shownAt t = (shifting tr.offset ts).shownAt u) :
    tr.instant ≤ t := by
  have hshort' : (shifting tr.offset ts).Short := (List.forall_mem_cons.mp hshort).2
  have hoffset : -86400 < tr.offset ∧ tr.offset < 86400 := (List.forall_mem_cons.mp hshort').1
  by_contra hlt
  rw [shownAt_near hspaced (by omega)] at heq
  rcases lt_or_ge u (tr.instant + 172800) with hclose | hfar
  · rw [shownAt_near hspaced hclose] at heq
    omega
  · have := shownAt_bounds hshort' u
    omega

end FirstTransition

/-- **From a zone to UTC**: of the instants at which the clocks show a time, the offset at this
wall-clock time gives the first one. -/
theorem isLeast_shownAt_shifting {before : Int} {ts : List Transition}
    (hshort : (shifting before ts).Short) (hspaced : (shifting before ts).Spaced)
    (hshown : ∃ t, (shifting before ts).shownAt t = L) :
    IsLeast {t | (shifting before ts).shownAt t = L} (L - (shifting before ts).offsetAtLocal L) := by
  induction ts generalizing before with
  | nil =>
    refine ⟨?_, fun t ht => ?_⟩
    · show L - before + before = L
      omega
    · have ht : t + before = L := ht
      show L - before ≤ t
      omega
  | cons tr ts ih =>
    rw [offsetAtLocal_cons hshort hspaced]
    split_ifs with hpast
    · -- the clocks show this only from the first transition on
      have hiff : ∀ t, (shifting before (tr :: ts)).shownAt t = L ↔
          tr.instant ≤ t ∧ (shifting tr.offset ts).shownAt t = L := by
        intro t
        rw [shownAt_cons hspaced]
        split_ifs with hle
        · exact (and_iff_right hle).symm
        · omega
      obtain ⟨u, hu⟩ := hshown
      obtain ⟨hule, hu⟩ := (hiff u).mp hu
      have hfirst := ih (List.forall_mem_cons.mp hshort).2 (List.pairwise_cons.mp hspaced).2 ⟨u, hu⟩
      have hle := instant_le_of_shownAt_eq hshort hspaced hule (hfirst.1.trans hu.symm)
      exact ⟨(hiff _).mpr ⟨hle, hfirst.1⟩, fun t ht => hfirst.2 ((hiff t).mp ht).2⟩
    · -- the clocks show this before the first transition
      refine ⟨?_, fun t ht => ?_⟩
      · show (shifting before (tr :: ts)).shownAt (L - before) = L
        rw [shownAt_cons hspaced, if_neg (by omega)]
        omega
      · have ht : (shifting before (tr :: ts)).shownAt t = L := ht
        rw [shownAt_cons hspaced] at ht
        split_ifs at ht <;> omega

/-- **From UTC to a zone and back** an instant becomes the first one at which the clocks of the zone
show the same. -/
theorem isLeast_shownAt (hshort : z.Short) (hspaced : z.Spaced) (t : Int) :
    IsLeast {u | z.shownAt u = z.shownAt t} (z.shownAt t - z.offsetAtLocal (z.shownAt t)) := by
  -- where there is one offset, no two instants are shown alike
  have hsteady : ∀ o, (∀ u, z.shownAt u = u + o) → z.offsetAtLocal (z.shownAt t) = o →
      IsLeast {u | z.shownAt u = z.shownAt t} (z.shownAt t - z.offsetAtLocal (z.shownAt t)) := by
    intro o hshown hlocal
    rw [hlocal, hshown t]
    refine ⟨?_, fun u hu => ?_⟩
    · show z.shownAt (t + o - o) = t + o
      rw [hshown]
      omega
    · have hu : z.shownAt u = t + o := hu
      rw [hshown] at hu
      omega
  cases z with
  | shifting initial ts => exact isLeast_shownAt_shifting hshort hspaced ⟨t, rfl⟩
  | utc => exact hsteady 0 (fun _ => rfl) rfl
  | fixed offset | named _ offset => exact hsteady offset (fun _ => rfl) rfl

end Zone

namespace Value

variable {v w : Value} {z : Zone}

/-- Values less than two days apart lie in the same year or in neighbouring ones. -/
theorem year_le_succ_of_near (hv : v.IsReal) (hw : w.IsReal) (h : w.instant < v.instant + 172800) :
    w.date.year ≤ v.date.year + 1 := by
  refine Date.IsReal.year_le_succ hv.1 hw.1 ?_
  have hvtime := (timeOrMidnight_isReal hv).seconds_bounds
  have hwtime := (timeOrMidnight_isReal hw).seconds_bounds
  simp only [instant, instantOf, secondsPerDay] at h hvtime hwtime
  omega

/-- Within the years 2 to 9998 offsets are looked up on a date-time itself. -/
theorem lookupInstant_of_real {d : Date} {t : TimeOfDay} (hv : (Value.mk d (some t)).IsReal)
    (hlow : 2 ≤ d.year) (hhigh : d.year ≤ 9998) :
    Zone.lookupInstant d t = .ok (Value.mk d (some t)).instant := by
  have hdate : Zone.lookupDate d = d := by
    unfold Zone.lookupDate
    exact if_pos (by omega)
  rw [Zone.lookupInstant, hdate, checkDateTime_of_real hv.1 hlow hhigh (hv.2 t rfl)]
  rfl

/-- A value moved by an offset, which may be none. -/
theorem moved_spec (hv : v.IsReal) (ht : v.hasTime = true) (n : Int) {u : Value}
    (hu : u = if n = 0 then v else v.addSeconds n) :
    u.IsReal ∧ u.hasTime = true ∧ u.instant = v.instant + n := by
  subst hu
  split_ifs with h
  · exact ⟨hv, ht, by omega⟩
  · exact addSeconds_spec hv ht n

/-- A UTC value of the years 2 to 9998 is turned into what the clocks of the zone show. -/
theorem fromUtc_spec (hshort : z.Short) (hv : v.IsReal) (ht : v.hasTime = true)
    (hlow : 2 ≤ v.date.year) (hhigh : v.date.year ≤ 9998) : ∃ l, v.fromUtc z = .ok l ∧ l.IsReal ∧
      l.hasTime = true ∧ l.instant = z.shownAt v.instant := by
  obtain ⟨d, _ | t⟩ := v
  · exact absurd ht (by simp [hasTime])
  have hlookup := lookupInstant_of_real hv hlow hhigh
  have hcheck : Zone.checkOffset (z.offsetAtInstant (Value.mk d (some t)).instant) = .ok _ :=
    if_pos (hshort _ (z.offsetAtInstant_mem _))
  cases z with
  | utc => exact ⟨_, rfl, hv, rfl, (Int.add_zero _).symm⟩
  | _ =>
    simp only [fromUtc, hlookup, bind, Except.bind, hcheck]
    exact ⟨_, rfl, moved_spec hv rfl _ rfl⟩

/-- A wall-clock value of the years 2 to 9998 is behind by the offset at it when it is turned into
UTC. -/
theorem toUtc_eq_ok (hv : v.IsReal) (ht : v.hasTime = true) (hlow : 2 ≤ v.date.year)
    (hhigh : v.date.year ≤ 9998) : ∃ u, v.toUtc z = .ok u ∧ u.IsReal ∧ u.hasTime = true ∧
      u.instant = v.instant - z.offsetAtLocal v.instant := by
  obtain ⟨d, _ | t⟩ := v
  · exact absurd ht (by simp [hasTime])
  have hlookup := lookupInstant_of_real hv hlow hhigh
  cases z with
  | utc => exact ⟨_, rfl, hv, rfl, (Int.sub_zero _).symm⟩
  | _ =>
    simp only [toUtc, hlookup, bind, Except.bind]
    refine ⟨_, rfl, moved_spec hv rfl _ ?_⟩
    simp only [neg_eq_zero]

/-- **Turning a UTC value into wall-clock time and back** leads to the first UTC value at which the
clocks of the zone show the same. -/
theorem toUtc_of_fromUtc (hshort : z.Short) (hspaced : z.Spaced) (hv : v.IsReal)
    (ht : v.hasTime = true) (hlow : 3 ≤ v.date.year) (hhigh : v.date.year ≤ 9997) :
    ∃ l u, v.fromUtc z = .ok l ∧ l.IsReal ∧ l.toUtc z = .ok u ∧ u.IsReal ∧ u.hasTime = true ∧
      IsLeast {t | z.shownAt t = z.shownAt v.instant} u.instant := by
  obtain ⟨l, hfrom, hl, hlt, hlocal⟩ := fromUtc_spec hshort hv ht (by omega) (by omega)
  -- the offset may lead into the next year or back into the last one
  have hoffset := hshort _ (z.offsetAtInstant_mem v.instant)
  have hnear : l.instant = v.instant + z.offsetAtInstant v.instant := hlocal
  have hbehind := year_le_succ_of_near hl hv (by omega)
  have hahead := year_le_succ_of_near hv hl (by omega)
  obtain ⟨u, hto, hu, hut, hutc⟩ := toUtc_eq_ok (z := z) hl hlt (by omega) (by omega)
  refine ⟨l, u, hfrom, hl, hto, hu, hut, ?_⟩
  rw [hutc, hlocal]
  exact Zone.isLeast_shownAt hshort hspaced v.instant

end Value

end Recurrence
