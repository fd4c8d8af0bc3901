/-
Recurrence/Proofs/Groups.lean

The members of a course, period by period.

A number that grows with the members divides them into periods (`Course.Divides`).  No
period is longer than a year and a day, so it has finitely many members; in ascending
order they are the group of its number (`Course.group`).  A member is selected if the
positions pick it from its own group.  Where all groups are equally long, a group from
which nothing is picked says that nothing is picked from any (`Course.Even.not_selected`).
-/
import Mathlib.Data.Int.Interval
import Recurrence.Proofs.Course
import Recurrence.Proofs.Positions
import Recurrence.Proofs.Segment

namespace Recurrence

namespace Course

variable {K : Course} {N : Value → Int} {κ : Type} {key : Value → κ} {ps : List Int} {n : Int}
  {v w : Value}

/-- A number that grows with the members of a course divides them into periods.  The key
tells the periods apart, and none of them is longer than a year and a day. -/
structure Divides (K : Course) (N : Value → Int) (key : Value → κ) : Prop where
  mono : ∀ v w, K.Member v → K.Member w → v ≤ w → N v ≤ N w
  key_iff : ∀ v w, K.Member v → K.Member w → (key v = key w ↔ N v = N w)
  short : ∀ v w, K.Member v → K.Member w → N v = N w → w.instant < v.instant + 367 * 86400

/-- The members of a period in ascending order. -/
noncomputable def group (K : Course) (N : Value → Int) (n : Int) : List Value :=
  listing {v | K.Member v ∧ N v = n}

/-- A value that the positions pick from its period. -/
def Selected (K : Course) (N : Value → Int) (ps : List Int) (v : Value) : Prop :=
  v ∈ picked ps (K.group N (N v))

theorem Divides.finite (hd : K.Divides N key) (hK : K.Begins) (n : Int) :
    {v | K.Member v ∧ N v = n}.Finite := by
  rcases {v | K.Member v ∧ N v = n}.eq_empty_or_nonempty with hnone | ⟨v, hv, hn⟩
  · rw [hnone]
    exact Set.finite_empty
  · refine Set.Finite.of_injOn (f := Value.instant)
      (t := Set.Ioo (v.instant - 367 * 86400) (v.instant + 367 * 86400)) ?_ ?_ (Set.finite_Ioo _ _)
    · rintro w ⟨hw, hwn⟩
      have hvw := hd.short v w hv hw (hn.trans hwn.symm)
      have hwv := hd.short w v hw hv (hwn.trans hn.symm)
      exact ⟨by omega, hvw⟩
    · rintro u ⟨hu, -⟩ w ⟨hw, -⟩ h
      exact Value.eq_of_instant (hK.isReal hu.1) (hK.isReal hw.1)
        (hu.1.hasTime.trans hw.1.hasTime.symm) h

theorem Divides.mem_group (hd : K.Divides N key) (hK : K.Begins) :
    v ∈ K.group N n ↔ K.Member v ∧ N v = n :=
  mem_listing (hd.finite hK n)

theorem pairwise_group (K : Course) (N : Value → Int) (n : Int) :
    (K.group N n).Pairwise (· < ·) :=
  pairwise_listing _

theorem Selected.member (hd : K.Divides N key) (hK : K.Begins) (h : K.Selected N ps v) :
    K.Member v :=
  ((hd.mem_group hK).mp (mem_of_mem_picked h)).1

/-- What is picked from the group of a period is selected. -/
theorem Divides.selected_of_mem (hd : K.Divides N key) (hK : K.Begins)
    (h : v ∈ picked ps (K.group N n)) : K.Selected N ps v := by
  obtain ⟨-, rfl⟩ := (hd.mem_group hK).mp (mem_of_mem_picked h)
  exact h

/-! ### Periods of equal length -/

/-- All periods that have members have equally many. -/
def Even (K : Course) (N : Value → Int) : Prop :=
  ∀ n m, K.group N n ≠ [] → K.group N m ≠ [] → (K.group N n).length = (K.group N m).length

/-- **Where all groups are equally long**, one from which nothing is picked speaks for all. -/
theorem Even.not_selected (h : K.Even N) (hne : K.group N n ≠ [])
    (hnil : picked ps (K.group N n) = []) (v : Value) : ¬ K.Selected N ps v := by
  intro hv
  have hother : K.group N (N v) ≠ [] := List.ne_nil_of_mem (mem_of_mem_picked hv)
  have hpicked := picked_eq_nil_of_length (h n (N v) hne hother) hnil
  rw [Selected, hpicked] at hv
  exact absurd hv List.not_mem_nil

end Course

end Recurrence
