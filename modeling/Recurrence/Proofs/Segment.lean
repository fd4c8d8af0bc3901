/-
Recurrence/Proofs/Segment.lean

Lists that go through a set from its beginning.

What a cursor has handed out so far is an ascending list of elements of a set, and no
element of the set that comes before one of them is missing.  Two such lists of one
set never disagree: one is the beginning of the other (`Segment.prefix_or`).  A list of
all elements is gone through from its least one on (`Lists`), and a finite set has one
(`listing`).
-/
import Mathlib.Data.Finset.Sort
import Mathlib.Data.List.Infix
import Mathlib.Data.List.Perm.Subperm
import Mathlib.Data.Set.Finite.Basic
import Mathlib.Order.Bounds.Basic
import Recurrence.Proofs.Calendar.Ascending

namespace Recurrence

variable {α : Type*} [LinearOrder α] {F F' : α → Prop} {x : α} {xs ys : List α}

/-- The elements of a set in ascending order, from the least one on and without a gap. -/
structure Segment (F : α → Prop) (xs : List α) : Prop where
  ascending : xs.Pairwise (· < ·)
  mem : ∀ x ∈ xs, F x
  closed : ∀ x ∈ xs, ∀ w, F w → w ≤ x → w ∈ xs

namespace Segment

theorem nil : Segment F [] where
  ascending := List.Pairwise.nil
  mem _ h := absurd h List.not_mem_nil
  closed _ h := absurd h List.not_mem_nil

theorem congr (h : Segment F xs) (hF : ∀ w, F' w ↔ F w) : Segment F' xs where
  ascending := h.ascending
  mem w hw := (hF w).mpr (h.mem w hw)
  closed w hw u hu := h.closed w hw u ((hF u).mp hu)

theorem cons (hx : IsLeast {w | F w} x) (h : Segment (fun w => F w ∧ x < w) xs) :
    Segment F (x :: xs) where
  ascending := List.pairwise_cons.mpr ⟨fun w hw => (h.mem w hw).2, h.ascending⟩
  mem := by
    rintro w (_ | ⟨_, hw⟩)
    · exact hx.1
    · exact (h.mem w hw).1
  closed := by
    intro w hw u hu hle
    rcases (hx.2 hu).lt_or_eq with hlt | rfl
    · cases hw with
      | head => exact absurd hle hlt.not_ge
      | tail _ hw => exact .tail _ (h.closed w hw u ⟨hu, hlt⟩ hle)
    · exact List.mem_cons_self

/-- The least element behind a segment continues it. -/
theorem snoc (h : Segment F xs) (hx : IsLeast {w | F w ∧ ∀ y ∈ xs, y < w} x) :
    Segment F (xs ++ [x]) where
  ascending := by
    rw [List.pairwise_append]
    refine ⟨h.ascending, List.pairwise_singleton _ _, fun y hy w hw => ?_⟩
    rw [List.mem_singleton.mp hw]
    exact hx.1.2 y hy
  mem w hw := by
    rcases List.mem_append.mp hw with hw | hw
    · exact h.mem w hw
    · rw [List.mem_singleton.mp hw]
      exact hx.1.1
  closed w hw u hu hle := by
    by_contra hnot
    rw [List.mem_append, List.mem_singleton, not_or] at hnot
    -- an element that is missing lies behind the segment, so it comes after `x`
    have hbehind : ∀ y ∈ xs, y < u := fun y hy => not_le.mp fun hle => hnot.1 (h.closed y hy u hu hle)
    have hxu : x < u := (hx.2 ⟨hu, hbehind⟩).lt_of_ne' hnot.2
    rcases List.mem_append.mp hw with hw | hw
    · exact (hbehind w hw).not_ge hle
    · exact hxu.not_ge (hle.trans_eq (List.mem_singleton.mp hw))

theorem isLeast (h : Segment F (x :: xs)) : IsLeast {w | F w} x := by
  refine ⟨h.mem x List.mem_cons_self, fun w hw => ?_⟩
  rcases le_total w x with hle | hle
  · cases h.closed x List.mem_cons_self w hw hle with
    | head => exact le_rfl
    | tail _ hmem => exact ((List.pairwise_cons.mp h.ascending).1 w hmem).le
  · exact hle

theorem tail (h : Segment F (x :: xs)) : Segment (fun w => F w ∧ x < w) xs where
  ascending := (List.pairwise_cons.mp h.ascending).2
  mem w hw := ⟨h.mem w (.tail _ hw), (List.pairwise_cons.mp h.ascending).1 w hw⟩
  closed := by
    rintro w hw u ⟨hu, hlt⟩ hle
    cases h.closed w (.tail _ hw) u hu hle with
    | head => exact absurd hlt (lt_irrefl _)
    | tail _ hmem => exact hmem

/-- A condition on the elements leaves a segment of those that satisfy it. -/
theorem filter (h : Segment F xs) (p : α → Prop) [DecidablePred p] :
    Segment (fun w => F w ∧ p w) (xs.filter p) where
  ascending := h.ascending.filter _
  mem w hw := by
    rw [List.mem_filter, decide_eq_true_eq] at hw
    exact ⟨h.mem w hw.1, hw.2⟩
  closed w hw u hu hle := by
    rw [List.mem_filter, decide_eq_true_eq] at hw ⊢
    exact ⟨h.closed w hw.1 u hu.1 hle, hu.2⟩

/-- **Two segments of one set agree** as far as both of them go. -/
theorem prefix_or (hx : Segment F xs) (hy : Segment F ys) : xs <+: ys ∨ ys <+: xs := by
  induction xs generalizing F ys with
  | nil => exact .inl List.nil_prefix
  | cons x xs ih =>
    cases ys with
    | nil => exact .inr List.nil_prefix
    | cons y ys =>
      obtain rfl : x = y := hx.isLeast.unique hy.isLeast
      rcases ih hx.tail hy.tail with h | h
      · exact .inl (List.cons_prefix_cons.mpr ⟨rfl, h⟩)
      · exact .inr (List.cons_prefix_cons.mpr ⟨rfl, h⟩)

/-- A segment is a beginning of any other that has all its elements. -/
theorem prefix_of_subset (hx : Segment F xs) (hy : Segment F ys) (hsub : ∀ w ∈ xs, w ∈ ys) :
    xs <+: ys := by
  rcases hx.prefix_or hy with h | h
  · exact h
  · have hnodup : xs.Nodup := hx.ascending.imp fun hlt => hlt.ne
    have hlen := (List.Nodup.subperm hnodup hsub).length_le
    rw [h.eq_of_length_le hlen]

/-- No segment goes on after one that leaves nothing out. -/
theorem prefix_of_all (hx : Segment F xs) (hy : Segment F ys) (hall : ∀ w, F w → w ∈ ys) :
    xs <+: ys :=
  hx.prefix_of_subset hy fun w hw => hall w (hx.mem w hw)

end Segment

/-! ### Lists of all elements -/

/-- All elements of a set, in ascending order. -/
structure Lists (F : α → Prop) (xs : List α) : Prop where
  ascending : xs.Pairwise (· < ·)
  mem_iff : ∀ w, w ∈ xs ↔ F w

namespace Lists

theorem congr (h : Lists F xs) (hF : ∀ w, F' w ↔ F w) : Lists F' xs where
  ascending := h.ascending
  mem_iff w := (h.mem_iff w).trans (hF w).symm

theorem segment (h : Lists F xs) : Segment F xs where
  ascending := h.ascending
  mem w := (h.mem_iff w).mp
  closed _ _ w hw _ := (h.mem_iff w).mpr hw

theorem unique (hx : Lists F xs) (hy : Lists F ys) : xs = ys :=
  eq_of_mem_iff hx.ascending hy.ascending fun w => (hx.mem_iff w).trans (hy.mem_iff w).symm

theorem not_holds (h : Lists F []) {w : α} : ¬ F w :=
  fun hw => List.not_mem_nil ((h.mem_iff w).mpr hw)

theorem isLeast (h : Lists F (x :: xs)) : IsLeast {w | F w} x := h.segment.isLeast

/-- Behind its least element the others are listed. -/
theorem tail (h : Lists F (x :: xs)) : Lists (fun w => F w ∧ x < w) xs where
  ascending := h.segment.tail.ascending
  mem_iff w := by
    refine ⟨h.segment.tail.mem w, ?_⟩
    rintro ⟨hw, hlt⟩
    exact (List.mem_cons.mp ((h.mem_iff w).mpr hw)).resolve_left hlt.ne'

end Lists

/-! ### Finite sets -/

open Classical in
/-- The elements of a finite set in ascending order. -/
noncomputable def listing (s : Set α) : List α :=
  if h : s.Finite then h.toFinset.sort else []

variable {s : Set α}

theorem mem_listing (h : s.Finite) : x ∈ listing s ↔ x ∈ s := by
  rw [listing, dif_pos h, Finset.mem_sort, Set.Finite.mem_toFinset]

theorem pairwise_listing (s : Set α) : (listing s).Pairwise (· < ·) := by
  unfold listing
  split_ifs
  · exact (Finset.sortedLT_sort _).pairwise
  · exact List.Pairwise.nil

/-- An ascending list of all elements of a set is its listing. -/
theorem listing_eq (h : Lists (· ∈ s) xs) : listing s = xs := by
  have hs : s.Finite := xs.finite_toSet.subset fun x hx => (h.mem_iff x).mpr hx
  exact Lists.unique ⟨pairwise_listing s, fun _ => mem_listing hs⟩ h

end Recurrence
