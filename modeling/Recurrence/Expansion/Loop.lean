/-
Recurrence/Expansion/Loop.lean

Loops with a bound.

The search for the next instance of a rule is made of loops whose length is not
known beforehand: a rule may name the 30th of February, or exclude all that it
includes.  Each of them is an instance of the one loop below.  It takes the
number of turns that it may make; `none` says that it was not done by then,
and nothing else does.  A larger bound never changes an answer, so it is only
a matter of patience and not of meaning.

No loop looks at how much of its bound is left.
-/

namespace Recurrence

/-- What one turn of a loop comes to: a state to go on with, or the result. -/
inductive Turn (σ : Type u) (β : Type v) where
  | again (state : σ)
  | done (result : β)

/-- Take turns until one is done, at most so many. -/
def loop (turn : σ → Option (Turn σ β)) : Nat → σ → Option β
  | 0, _ => none
  | bound + 1, state =>
    match turn state with
    | none => none
    | some (.done result) => some result
    | some (.again state) => loop turn bound state

/-! ### More turns keep an answer -/

/-- A loop whose turns answer whenever those of another do, and in the same way,
keeps the other's answer under any larger bound. -/
theorem loop_mono {turn turn' : σ → Option (Turn σ β)}
    (h : ∀ s t, turn s = some t → turn' s = some t) {m n : Nat} (hmn : m ≤ n) {s : σ} {b : β}
    (hs : loop turn m s = some b) : loop turn' n s = some b := by
  induction m generalizing n s with
  | zero => simp [loop] at hs
  | succ m ih =>
    obtain ⟨n, rfl⟩ : ∃ k, n = k + 1 := ⟨n - 1, by omega⟩
    unfold loop at hs ⊢
    cases ht : turn s with
    | none => simp [ht] at hs
    | some t =>
      rw [h s t ht]
      cases t with
      | done r => simpa [ht] using hs
      | again s' =>
        simp only [ht] at hs
        exact ih (by omega) hs

end Recurrence
