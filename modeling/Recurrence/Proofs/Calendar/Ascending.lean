/-
Recurrence/Proofs/Calendar/Ascending.lean

Lists in ascending order.

The lists that `ascending` makes are ascending, and an ascending list is known by
its elements alone.  So lists with the same elements, in whatever order and number, are
the same once they have been sorted.
-/
import Mathlib.Data.Int.Order.Basic
import Mathlib.Data.List.Sort
import Recurrence.Calendar.Ascending

namespace Recurrence

variable {α : Type*} [LinearOrder α]

theorem pairwise_insertAscending {x : α} {ys : List α} (h : ys.Pairwise (· < ·)) :
    (insertAscending (fun a b => decide (a < b)) x ys).Pairwise (· < ·) := by
  induction ys with
  | nil => simp [insertAscending]
  | cons y ys ih =>
    obtain ⟨hy, hys⟩ := List.pairwise_cons.mp h
    unfold insertAscending
    split_ifs with heq hlt
    · exact h
    · have hlt : x < y := of_decide_eq_true hlt
      refine List.pairwise_cons.mpr ⟨?_, h⟩
      intro z hz
      rcases List.mem_cons.mp hz with rfl | hz
      · exact hlt
      · exact hlt.trans (hy z hz)
    · have hlt : y < x := lt_of_le_of_ne (not_lt.mp (by simpa using hlt)) (Ne.symm heq)
      refine List.pairwise_cons.mpr ⟨?_, ih hys⟩
      intro z hz
      rcases mem_insertAscending.mp hz with rfl | hz
      · exact hlt
      · exact hy z hz

/-- **The lists that `ascending` makes are ascending.** -/
theorem pairwise_ascending (xs : List α) :
    (ascending (fun a b => decide (a < b)) xs).Pairwise (· < ·) := by
  suffices h : ∀ acc : List α, acc.Pairwise (· < ·) →
      (xs.foldl (fun acc x => insertAscending (fun a b => decide (a < b)) x acc) acc).Pairwise
        (· < ·) from h [] List.Pairwise.nil
  induction xs with
  | nil => exact fun _ h => h
  | cons x xs ih => exact fun _ h => ih _ (pairwise_insertAscending h)

theorem pairwise_ascendingInts (xs : List Int) : (ascendingInts xs).Pairwise (· < ·) :=
  pairwise_ascending xs

@[simp] theorem mem_ascendingInts {n : Int} {xs : List Int} : n ∈ ascendingInts xs ↔ n ∈ xs :=
  mem_ascending

/-- Ascending lists with the same elements are the same. -/
theorem eq_of_mem_iff {xs ys : List α} (hx : xs.Pairwise (· < ·)) (hy : ys.Pairwise (· < ·))
    (h : ∀ a, a ∈ xs ↔ a ∈ ys) : xs = ys :=
  List.Perm.eq_of_pairwise (fun _ _ _ _ hab hba => absurd hba hab.asymm) hx hy
    ((List.perm_ext_iff_of_nodup (hx.imp fun h => h.ne) (hy.imp fun h => h.ne)).mpr h)

/-! ### Lists with the same elements -/

/-- Two lists have the same elements, in any order and any number. -/
def SameElements {α : Type} (xs ys : List α) : Prop := (∀ a ∈ xs, a ∈ ys) ∧ ∀ a ∈ ys, a ∈ xs

instance {α : Type} [DecidableEq α] (xs ys : List α) : Decidable (SameElements xs ys) := by
  unfold SameElements
  infer_instance

namespace SameElements

variable {α β : Type} {xs ys : List α}

theorem refl (xs : List α) : SameElements xs xs := ⟨fun _ h => h, fun _ h => h⟩

theorem mem_iff (h : SameElements xs ys) (a : α) : a ∈ xs ↔ a ∈ ys := ⟨h.1 a, h.2 a⟩

theorem of_mem_iff (h : ∀ a, a ∈ xs ↔ a ∈ ys) : SameElements xs ys :=
  ⟨fun a => (h a).mp, fun a => (h a).mpr⟩

theorem isEmpty (h : SameElements xs ys) : xs.isEmpty = ys.isEmpty := by
  rw [Bool.eq_iff_iff, List.isEmpty_iff, List.isEmpty_iff, List.eq_nil_iff_forall_not_mem,
    List.eq_nil_iff_forall_not_mem]
  exact forall_congr' fun a => not_congr (h.mem_iff a)

theorem any (h : SameElements xs ys) (p : α → Bool) : xs.any p = ys.any p := by
  rw [Bool.eq_iff_iff, List.any_eq_true, List.any_eq_true]
  exact exists_congr fun a => and_congr_left fun _ => h.mem_iff a

theorem all (h : SameElements xs ys) (p : α → Bool) : xs.all p = ys.all p := by
  rw [Bool.eq_iff_iff, List.all_eq_true, List.all_eq_true]
  exact forall_congr' fun a => imp_congr_left (h.mem_iff a)

theorem map (h : SameElements xs ys) (f : α → β) : SameElements (xs.map f) (ys.map f) :=
  of_mem_iff fun b => by simp only [List.mem_map, h.mem_iff]

theorem flatMap (h : SameElements xs ys) (f : α → List β) :
    SameElements (xs.flatMap f) (ys.flatMap f) :=
  of_mem_iff fun b => by simp only [List.mem_flatMap, h.mem_iff]

theorem filter (h : SameElements xs ys) (p : α → Bool) : SameElements (xs.filter p) (ys.filter p) :=
  of_mem_iff fun a => by simp only [List.mem_filter, h.mem_iff]

theorem contains {ns ns' : List Int} (h : SameElements ns ns') (n : Int) :
    ns.contains n = ns'.contains n := by
  rw [Bool.eq_iff_iff, List.contains_iff_mem, List.contains_iff_mem, h.mem_iff]

/-- Sorted and without repetitions they are the same list. -/
theorem ascendingInts {ns ns' : List Int} (h : SameElements ns ns') :
    Recurrence.ascendingInts ns = Recurrence.ascendingInts ns' :=
  eq_of_mem_iff (pairwise_ascendingInts ns) (pairwise_ascendingInts ns') fun n => by
    simp only [mem_ascendingInts, h.mem_iff]

end SameElements

end Recurrence
