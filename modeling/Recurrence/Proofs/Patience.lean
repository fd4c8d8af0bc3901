/-
Recurrence/Proofs/Patience.lean

Bounds, once and for all.

Every operation that searches takes the bound of its loops first and answers
`none` if the bound was too small.  Two facts about such an operation are all
that the rest of the theory needs:

* it is *patient*: a larger bound never changes an answer;
* it *settles* on an answer: all bounds from some size on give this one.

A patient operation has at most one answer, so once it is known on which one it
settles, every bound that answers at all gives that answer.  Both facts pass
through loops, although the turns of a loop may themselves depend on the bound:
`Settles.again` and `Settles.finish` follow a loop turn by turn, and
`loop_settles` follows it to its end along a measure, as long as each turn
makes progress (`Progresses`).
-/
import Mathlib.Order.Filter.AtTopBot.Basic
import Recurrence.Expansion.Loop

namespace Recurrence

open Filter

variable {α β σ : Type*}

/-! ### Patient operations -/

/-- A larger bound keeps an answer. -/
def Patient (op : Nat → Option α) : Prop :=
  ∀ {m n : Nat} {a : α}, m ≤ n → op m = some a → op n = some a

/-- All bounds from some size on give the answer. -/
def Settles (op : Nat → Option α) (a : α) : Prop := ∀ᶠ n in atTop, op n = some a

theorem Settles.exists_bound {op : Nat → Option α} {a : α} (h : Settles op a) :
    ∃ n, op n = some a := by
  obtain ⟨n, hn⟩ := eventually_atTop.mp h
  exact ⟨n, hn n (le_refl n)⟩

theorem Settles.unique {op : Nat → Option α} {a b : α} (ha : Settles op a) (hb : Settles op b) :
    a = b := by
  obtain ⟨n, hn⟩ := (ha.and hb).exists
  exact Option.some.inj (hn.1.symm.trans hn.2)

theorem Patient.settles {op : Nat → Option α} (h : Patient op) {n : Nat} {a : α}
    (hn : op n = some a) : Settles op a := by
  filter_upwards [eventually_ge_atTop n] with m hm
  exact h hm hn

/-- Whatever bound answers, it answers what the operation settles on. -/
theorem Patient.eq_of_settles {op : Nat → Option α} (h : Patient op) {n : Nat} {a b : α}
    (ha : Settles op a) (hn : op n = some b) : b = a :=
  (h.settles hn).unique ha

/-- Whatever bounds answer, they answer the same. -/
theorem Patient.unique {op : Nat → Option α} (h : Patient op) {m n : Nat} {a b : α}
    (hm : op m = some a) (hn : op n = some b) : a = b :=
  (h.settles hm).unique (h.settles hn)

theorem settles_const (a : α) : Settles (fun _ => some a) a :=
  Eventually.of_forall fun _ => rfl

theorem Settles.map {op : Nat → Option α} {a : α} (h : Settles op a) (f : α → β) :
    Settles (fun n => (op n).map f) (f a) := by
  filter_upwards [h] with n hn
  rw [hn, Option.map_some]

theorem patient_const (a : Option α) : Patient fun _ => a := fun _ h => h

/-- An operation that asks a patient one first is patient, if it keeps its answer whenever that one
does. -/
theorem Patient.after {op : Nat → Option α} {op' : Nat → Option β} (h : Patient op)
    (hnone : ∀ n, op n = none → op' n = none)
    (hsome : ∀ {m n a b}, m ≤ n → op m = some a → op n = some a → op' m = some b → op' n = some b) :
    Patient op' := by
  intro m n b hmn hb
  cases hm : op m with
  | none => exact absurd (hb.symm.trans (hnone m hm)) (by simp)
  | some a => exact hsome hmn hm (h hmn hm) hb

theorem Patient.map {op : Nat → Option α} (h : Patient op) (f : α → β) :
    Patient fun n => (op n).map f := by
  intro m n b hmn hb
  obtain ⟨a, ha, rfl⟩ := Option.map_eq_some_iff.mp hb
  exact Option.map_eq_some_iff.mpr ⟨a, h hmn ha, rfl⟩

/-! ### Loops -/

/-- Loops whose turns are patient are patient, also if the turns see the bound of the
loop. -/
theorem patient_loop {turn : Nat → σ → Option (Turn σ β)} (h : ∀ s, Patient fun n => turn n s)
    (s : σ) : Patient fun n => loop (turn n) n s := by
  intro m n b hmn hb
  exact loop_mono (fun s t ht => h s hmn ht) hmn hb

/-- A turn that ends a loop gives the loop's answer. -/
theorem Settles.finish {turn : Nat → σ → Option (Turn σ β)} {s : σ} {b : β}
    (h : Settles (fun n => turn n s) (.done b)) : Settles (fun n => loop (turn n) n s) b := by
  filter_upwards [h, eventually_ge_atTop 1] with n hn hpos
  obtain ⟨n, rfl⟩ : ∃ k, n = k + 1 := ⟨n - 1, by omega⟩
  rw [loop, hn]

/-- A turn that does not end a loop leaves the answer to the rest of the loop. -/
theorem Settles.again {turn : Nat → σ → Option (Turn σ β)} (hp : ∀ s, Patient fun n => turn n s)
    {s s' : σ} {b : β} (h : Settles (fun n => turn n s) (.again s'))
    (h' : Settles (fun n => loop (turn n) n s') b) : Settles (fun n => loop (turn n) n s) b := by
  obtain ⟨k, hk⟩ := h'.exists_bound
  filter_upwards [h, eventually_ge_atTop (k + 1)] with n hn hpos
  obtain ⟨n, rfl⟩ : ∃ k, n = k + 1 := ⟨n - 1, by omega⟩
  rw [loop, hn]
  -- one turn is spent, but the turns keep the larger bound
  exact loop_mono (fun s t ht => hp s (by omega) ht) (by omega) hk

/-- What every turn keeps holds when a loop ends, under whatever bound it does. -/
theorem loop_invariant {turn : σ → Option (Turn σ β)} {P : σ → Prop} {Q : β → Prop}
    (hagain : ∀ s s', P s → turn s = some (.again s') → P s')
    (hdone : ∀ s b, P s → turn s = some (.done b) → Q b) {n : Nat} {s : σ} {b : β} (hs : P s)
    (h : loop turn n s = some b) : Q b := by
  induction n generalizing s with
  | zero => exact absurd h (by simp [loop])
  | succ n ih =>
    rw [loop] at h
    cases ht : turn s with
    | none => simp [ht] at h
    | some t =>
      cases t with
      | done b' =>
        obtain rfl : b' = b := by simpa [ht] using h
        exact hdone s _ hs ht
      | again s' => exact ih (hagain s s' hs ht) (by simpa [ht] using h)

/-- What a turn comes to, with states and results of another kind. -/
def Turn.map {τ γ : Type*} (f : σ → τ) (g : β → γ) : Turn σ β → Turn τ γ
  | .again s => .again (f s)
  | .done b => .done (g b)

/-- A loop that takes the turns of another, on states of another kind, has its answer. -/
theorem loop_map {τ γ : Type*} {turn : σ → Option (Turn σ β)} {turn' : τ → Option (Turn τ γ)}
    {f : σ → τ} {g : β → γ} {P : σ → Prop}
    (hturn : ∀ s, P s → turn' (f s) = (turn s).map (Turn.map f g))
    (hagain : ∀ s s', P s → turn s = some (.again s') → P s') (n : Nat) {s : σ} (hs : P s) :
    loop turn' n (f s) = (loop turn n s).map g := by
  induction n generalizing s with
  | zero => rfl
  | succ n ih =>
    rw [loop, loop, hturn s hs]
    cases ht : turn s with
    | none => rfl
    | some t =>
      cases t with
      | done b => rfl
      | again s' => exact ih (hagain s s' hs ht)

/-- A loop whose turns, where they answer, are those of another on states of another kind. -/
theorem loop_of_turns {τ γ : Type*} {turn : σ → Option (Turn σ β)} {turn' : τ → Option (Turn τ γ)}
    {f : σ → τ} {g : β → γ}
    (h : ∀ s t, turn s = some t → turn' (f s) = some (t.map f g)) {n : Nat} {s : σ} {b : β}
    (hb : loop turn n s = some b) : loop turn' n (f s) = some (g b) := by
  induction n generalizing s with
  | zero => exact absurd hb (by simp [loop])
  | succ n ih =>
    rw [loop] at hb ⊢
    cases ht : turn s with
    | none => simp [ht] at hb
    | some t =>
      rw [h s t ht]
      cases t with
      | done b' =>
        obtain rfl : b' = b := by simpa [ht] using hb
        rfl
      | again s' => exact ih (by simpa [ht] using hb)

/-- A turn makes progress if it ends the loop with an answer that satisfies `Q`, or leads to a state
at which `P` holds for a smaller number. -/
def Progresses (turn : Nat → σ → Option (Turn σ β)) (P : Nat → σ → Prop) (Q : β → Prop) (k : Nat)
    (s : σ) : Prop :=
  (∃ b, Settles (fun n => turn n s) (.done b) ∧ Q b) ∨
    ∃ s' k', Settles (fun n => turn n s) (.again s') ∧ k' < k ∧ P k' s'

/-- A loop that keeps an invariant settles if every turn makes progress. -/
theorem loop_settles {turn : Nat → σ → Option (Turn σ β)} (hp : ∀ s, Patient fun n => turn n s)
    (P : Nat → σ → Prop) (Q : β → Prop) (hturn : ∀ k s, P k s → Progresses turn P Q k s) {k : Nat}
    {s : σ} (hs : P k s) : ∃ b, Settles (fun n => loop (turn n) n s) b ∧ Q b := by
  induction k using Nat.strong_induction_on generalizing s with
  | _ k ih =>
    rcases hturn k s hs with ⟨b, hb, hQ⟩ | ⟨s', k', hs', hk, hP⟩
    · exact ⟨b, hb.finish, hQ⟩
    · obtain ⟨b, hb, hQ⟩ := ih k' hk hP
      exact ⟨b, hs'.again hp hb, hQ⟩

/-! ### Loops whose turns need not be patient -/

/-- Some number of turns ends a loop with an answer, under all bounds from some size on for the
turns themselves. -/
def LoopEnds (turn : Nat → σ → Option (Turn σ β)) (s : σ) (b : β) : Prop :=
  ∃ k, ∀ᶠ n in atTop, loop (turn n) k s = some b

namespace LoopEnds

variable {turn : Nat → σ → Option (Turn σ β)} {s s' : σ} {b : β}

theorem finish (h : Settles (fun n => turn n s) (.done b)) : LoopEnds turn s b := by
  refine ⟨1, ?_⟩
  filter_upwards [h] with n hn
  rw [loop, hn]

theorem again (h : Settles (fun n => turn n s) (.again s')) (h' : LoopEnds turn s' b) :
    LoopEnds turn s b := by
  obtain ⟨k, hk⟩ := h'
  refine ⟨k + 1, ?_⟩
  filter_upwards [h, hk] with n hn hn'
  rw [loop, hn]
  exact hn'

theorem settles (h : LoopEnds turn s b) : Settles (fun n => loop (turn n) n s) b := by
  obtain ⟨k, hk⟩ := h
  filter_upwards [hk, eventually_ge_atTop k] with n hn hle
  exact loop_mono (fun _ _ ht => ht) hle hn

end LoopEnds

end Recurrence
