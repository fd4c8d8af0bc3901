/-
Recurrence/Proofs/Positions.lean

The elements at listed positions.

A selection turns its positions into ascending indexes and looks these up.  What it finds
are the elements whose place is named by a position, in the order of the list
(`selectPositions_eq`).  Where all positions count from the start, no element behind the
greatest of them plays a part (`picked_take`).
-/
import Mathlib.Data.List.Nodup
import Recurrence.Expansion.Selection
import Recurrence.Proofs.Calendar.Ascending
import Recurrence.Rule.Meaning

namespace Recurrence

variable {α : Type} {ps : List Int} {xs ys : List α} {x : α} {m : Nat}

/-- The elements of a list whose places are named. -/
def picked (ps : List Int) (xs : List α) : List α :=
  ((List.range xs.length).filter fun k : Nat => Named ps xs.length (k + 1)).filterMap fun k => xs[k]?

theorem mem_picked : x ∈ picked ps xs ↔ ∃ k : Nat, xs[k]? = some x ∧ Named ps xs.length (k + 1) := by
  unfold picked
  simp only [List.mem_filterMap, List.mem_filter, List.mem_range, decide_eq_true_eq]
  constructor
  · rintro ⟨k, ⟨-, hk⟩, hx⟩
    exact ⟨k, hx, hk⟩
  · rintro ⟨k, hx, hk⟩
    obtain ⟨hlt, -⟩ := List.getElem?_eq_some_iff.mp hx
    exact ⟨k, ⟨hlt, hk⟩, hx⟩

theorem mem_of_mem_picked (h : x ∈ picked ps xs) : x ∈ xs := by
  obtain ⟨k, hk, -⟩ := mem_picked.mp h
  exact List.mem_of_getElem? hk

/-- Lists of one length have elements at the same positions. -/
theorem picked_eq_nil_of_length {β : Type} {ys : List β} (hlen : xs.length = ys.length)
    (h : picked ps xs = []) : picked ps ys = [] := by
  rw [List.eq_nil_iff_forall_not_mem] at h ⊢
  intro y hy
  obtain ⟨k, hk, hnamed⟩ := mem_picked.mp hy
  obtain ⟨hlt, -⟩ := List.getElem?_eq_some_iff.mp hk
  have hlt : k < xs.length := hlen ▸ hlt
  exact h xs[k] (mem_picked.mpr ⟨k, List.getElem?_eq_getElem hlt, hlen ▸ hnamed⟩)

theorem pairwise_picked [LinearOrder α] (h : xs.Pairwise (· < ·)) :
    (picked ps xs).Pairwise (· < ·) := by
  unfold picked
  rw [List.pairwise_filterMap]
  refine (List.pairwise_lt_range.filter _).imp ?_
  intro i j hij x hx y hy
  obtain ⟨hi, rfl⟩ := List.getElem?_eq_some_iff.mp hx
  obtain ⟨hj, rfl⟩ := List.getElem?_eq_some_iff.mp hy
  exact List.pairwise_iff_getElem.mp h i j hi hj hij

/-- **A selection finds the elements at the named places.** -/
theorem selectPositions_eq (ps : List Int) (xs : List α) : selectPositions ps xs = picked ps xs := by
  have hindexes : (ascendingInts (ps.map fun p => Gregorian.positionFromStart p xs.length)).filter
        (fun i => 1 ≤ i && i ≤ (xs.length : Int)) =
      ((List.range xs.length).filter fun k : Nat => Named ps xs.length (k + 1)).map
        fun k : Nat => (k : Int) + 1 := by
    apply eq_of_mem_iff
    · exact (pairwise_ascendingInts _).filter _
    · rw [List.pairwise_map]
      exact (List.pairwise_lt_range.filter _).imp fun h => by omega
    · intro i
      simp only [List.mem_filter, mem_ascendingInts, List.mem_map, List.mem_range,
        Bool.and_eq_true, decide_eq_true_eq, Gregorian.positionFromStart]
      constructor
      · rintro ⟨⟨p, hp, hi⟩, h1, hle⟩
        refine ⟨(i - 1).toNat, ⟨by omega, ?_⟩, by omega⟩
        have hplace : ((i - 1).toNat : Int) + 1 = i := by omega
        rw [hplace]
        split_ifs at hi with hneg
        · exact Or.inr ((show i - xs.length - 1 = p by omega) ▸ hp)
        · exact Or.inl (hi ▸ hp)
      · rintro ⟨k, ⟨hk, hp | hp⟩, rfl⟩
        · exact ⟨⟨_, hp, by rw [if_neg (by omega)]⟩, by omega, by omega⟩
        · exact ⟨⟨_, hp, by rw [if_pos (by omega)]; omega⟩, by omega, by omega⟩
  unfold selectPositions picked
  dsimp only
  rw [List.size_toArray, hindexes, List.filterMap_map]
  congr 1
  funext k
  show xs.toArray[((k : Int) + 1 - 1).toNat]? = xs[k]?
  rw [List.getElem?_toArray]
  congr 1
  omega

/-! ### Keeping the beginning of a list -/

/-- The part of a list that is kept. -/
def kept (room : Option Nat) (xs : List α) : List α :=
  match room with
  | none => xs
  | some m => xs.take m

theorem foldl_max_spec (ps : List Int) (n : Int) :
    n ≤ ps.foldl max n ∧ ∀ p ∈ ps, p ≤ ps.foldl max n := by
  induction ps generalizing n with
  | nil => simp
  | cons q ps ih =>
    obtain ⟨hn, hps⟩ := ih (max n q)
    refine ⟨(le_max_left n q).trans hn, ?_⟩
    rintro p (_ | ⟨_, hp⟩)
    · exact (le_max_right n _).trans hn
    · exact hps p hp

theorem keptOfPeriod_spec (h : keptOfPeriod ps = some m) : ∀ p ∈ ps, 0 < p ∧ p ≤ (m : Int) := by
  unfold keptOfPeriod at h
  split_ifs at h with hall
  obtain rfl := Option.some.inj h
  intro p hp
  have hpos : 0 < p := by simpa using List.all_eq_true.mp hall p hp
  have hle := (foldl_max_spec ps 0).2 p hp
  omega

theorem keptOfPeriod_pos (h : keptOfPeriod ps = some m) (hps : ps ≠ []) : 0 < m := by
  obtain ⟨p, hp⟩ := List.exists_mem_of_ne_nil ps hps
  have := keptOfPeriod_spec h p hp
  omega

/-- Something is kept of every period. -/
theorem kept_ne_nil (hps : ps ≠ []) (hxs : xs ≠ []) : kept (keptOfPeriod ps) xs ≠ [] := by
  cases hk : keptOfPeriod ps with
  | none => exact hxs
  | some m =>
    have := keptOfPeriod_pos hk hps
    simp only [kept, ne_eq, List.take_eq_nil_iff, hxs, or_false]
    omega

/-- **What is not kept** is at no position. -/
theorem picked_kept (ps : List Int) (xs : List α) :
    picked ps (kept (keptOfPeriod ps) xs) = picked ps xs := by
  cases hk : keptOfPeriod ps with
  | none => rfl
  | some m =>
    have hps := keptOfPeriod_spec hk
    -- something is cut off only where all positions count from the start
    have hnamed : ∀ n k : Nat, k < n → (Named ps n (k + 1) ↔ (k : Int) + 1 ∈ ps) := by
      intro n k hlt
      refine or_iff_left fun hp => ?_
      have := hps _ hp
      omega
    have hindexes : (List.range (xs.take m).length).filter
          (fun k : Nat => Named ps (xs.take m).length (k + 1)) =
        (List.range xs.length).filter fun k : Nat => Named ps xs.length (k + 1) := by
      apply eq_of_mem_iff
      · exact List.pairwise_lt_range.filter _
      · exact List.pairwise_lt_range.filter _
      · intro k
        simp only [List.mem_filter, List.mem_range, decide_eq_true_eq, List.length_take]
        constructor
        · rintro ⟨hlt, hk⟩
          rw [hnamed _ k hlt] at hk
          exact ⟨by omega, (hnamed _ k (by omega)).mpr hk⟩
        · rintro ⟨hlt, hk⟩
          rw [hnamed _ k hlt] at hk
          have := hps _ hk
          exact ⟨by omega, (hnamed _ k (by omega)).mpr hk⟩
    show picked ps (xs.take m) = picked ps xs
    unfold picked
    rw [hindexes]
    apply List.filterMap_congr
    intro k hk
    rw [List.mem_filter, List.mem_range, decide_eq_true_eq] at hk
    have := hps _ ((hnamed _ k hk.1).mp hk.2)
    rw [List.getElem?_take_of_lt (by omega)]

end Recurrence
