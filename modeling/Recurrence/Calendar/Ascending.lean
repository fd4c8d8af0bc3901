/-
Recurrence/Calendar/Ascending.lean

Ascending lists without repetition.

Lists of hours, of days and of whole values are all kept in this form: the
order in which a rule names them and how often does not matter, only which
elements it names.
-/

namespace Recurrence

/-- Insert an element into an ascending list, unless it is there already. -/
def insertAscending [DecidableEq α] (before : α → α → Bool) (x : α) : List α → List α
  | [] => [x]
  | y :: ys =>
    if x = y then y :: ys
    else if before x y then x :: y :: ys
    else y :: insertAscending before x ys

/-- The distinct elements of a list in ascending order. -/
def ascending [DecidableEq α] (before : α → α → Bool) (xs : List α) : List α :=
  xs.foldl (fun acc x => insertAscending before x acc) []

/-- The distinct integers of a list in ascending order. -/
def ascendingInts (xs : List Int) : List Int := ascending (fun a b => decide (a < b)) xs

/-! ### Nothing is lost and nothing is added -/

theorem mem_insertAscending [DecidableEq α] {before : α → α → Bool} {x a : α} {ys : List α} :
    a ∈ insertAscending before x ys ↔ a = x ∨ a ∈ ys := by
  induction ys with
  | nil => simp [insertAscending]
  | cons y ys ih =>
    unfold insertAscending
    split
    · rename_i h; subst h; simp
    · split
      · simp
      · simp only [List.mem_cons, ih]
        constructor
        · rintro (h | h | h) <;> simp [h]
        · rintro (h | h | h) <;> simp [h]

theorem mem_ascending [DecidableEq α] {before : α → α → Bool} {a : α} {xs : List α} :
    a ∈ ascending before xs ↔ a ∈ xs := by
  suffices h : ∀ acc : List α,
      a ∈ xs.foldl (fun acc x => insertAscending before x acc) acc ↔ a ∈ acc ∨ a ∈ xs by
    simpa [ascending] using h []
  induction xs with
  | nil => simp
  | cons x xs ih =>
    intro acc
    rw [List.foldl_cons, ih, mem_insertAscending, List.mem_cons]
    constructor
    · rintro ((h | h) | h) <;> simp [h]
    · rintro (h | h | h) <;> simp [h]

end Recurrence
