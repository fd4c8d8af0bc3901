/-
Recurrence/Proofs/Cursor/KeepingUp.lean

Merged cursors that keep up with one another.

Two merged cursors may take the same values out of their queues in another order, and one of them
may need many turns for what the other does in one.  Calls cannot tell them apart as long as each
turn of the first can be followed by some turns of the second (`KeepsUp`): whatever calls the first
one answers, the second one answers alike (`KeepsUp.ask`).
-/
import Recurrence.Proofs.Cursor.Search

namespace Recurrence

variable {ι : Type} {ops : Nat → CursorOps ι} {Target : Value → Prop} {m m' m₁ m₂ : Merged ι}
  {n : Nat}

/-- An answer that is no failure, but for that of a step where no value is left. -/
def CursorCall.Returns (call : CursorCall) (a : CursorAnswer) : Prop :=
  ∀ e, a = .failed e → call = .next ∧ e = .noMoreInstances none

namespace Merged

/-! ### Following turn by turn -/

/-- What a search ends with in the second state it ends with in the first. -/
def Leads (ops : Nat → CursorOps ι) (m m₁ : Merged ι) : Prop :=
  ∀ b, LoopEnds (fun n => Merged.turn (ops n)) m₁ b → LoopEnds (fun n => Merged.turn (ops n)) m b

namespace Leads

theorem refl (m : Merged ι) : Leads ops m m := fun _ h => h

theorem trans (h : Leads ops m m₁) (h' : Leads ops m₁ m₂) : Leads ops m m₂ :=
  fun b hb => h b (h' b hb)

theorem of_turn (h : Settles (fun n => m.turn (ops n)) (.again m₁)) : Leads ops m m₁ :=
  fun _ hb => hb.again h

end Leads

/-- What the second of two related cursors does about a turn of the first: it goes on to a related
state, or its search ends alike.  A turn may also fail, but not like a step behind the last value. -/
def FollowsTurn (ops : Nat → CursorOps ι) (R : Merged ι → Merged ι → Prop) (m m' : Merged ι)
    (t : Turn (Merged ι) (Except SeriesError Bool × Merged ι)) : Prop :=
  (∃ m₁ m₁', t = .again m₁ ∧ Leads ops m' m₁' ∧ R m₁ m₁') ∨
    (∃ b m₁', t = .done (.ok b, m) ∧
      LoopEnds (fun n => Merged.turn (ops n)) m' (.ok b, m₁') ∧ R m m₁') ∨
    ∃ e m₁, t = .done (.error e, m₁) ∧ ∃ why, e = .conversion why

/-- The second of two related cursors follows each turn of the first with some turns of its own, and
each move with a move. -/
structure KeepsUp (ops : Nat → CursorOps ι) (Target : Value → Prop)
    (R : Merged ι → Merged ι → Prop) : Prop where
  pending : ∀ {m m'}, R m m' → m'.pending = m.pending
  take : ∀ {m m'}, R m m' → R { m with pending := none } { m' with pending := none }
  turn : ∀ {m m' n t}, R m m' → m.turn (ops n) = some t → FollowsTurn ops R m m' t
  advanceTo : ∀ {m m' n target m₁}, R m m' → Target target →
    m.advanceTo (ops n) target = some (.ok (), m₁) →
      ∃ m₁', Settles (fun n => m'.advanceTo (ops n) target) (.ok (), m₁') ∧ R m₁ m₁'

variable {R : Merged ι → Merged ι → Prop}

theorem FollowsTurn.again (h : FollowsTurn ops R m m' (.again m₁)) :
    ∃ m₁', Leads ops m' m₁' ∧ R m₁ m₁' := by
  obtain ⟨m₂, m₁', heq, h₁⟩ | ⟨b, m₁', heq, -⟩ | ⟨e, m₂, heq, -⟩ := h
  · obtain rfl : m₁ = m₂ := by simpa using heq
    exact ⟨m₁', h₁⟩
  · exact absurd heq (by simp)
  · exact absurd heq (by simp)

theorem FollowsTurn.done {b : Bool} (h : FollowsTurn ops R m m' (.done (.ok b, m₁))) :
    ∃ m₁', LoopEnds (fun n => Merged.turn (ops n)) m' (.ok b, m₁') ∧ R m₁ m₁' := by
  obtain ⟨m₂, m₁', heq, -⟩ | ⟨b', m₁', heq, h₁⟩ | ⟨e, m₂, heq, -⟩ := h
  · exact absurd heq (by simp)
  · obtain ⟨rfl, rfl⟩ : b = b' ∧ m₁ = m := by simpa using heq
    exact ⟨m₁', h₁⟩
  · exact absurd heq (by simp)

theorem FollowsTurn.fails {e : SeriesError} (h : FollowsTurn ops R m m' (.done (.error e, m₁))) :
    ∃ why, e = .conversion why := by
  obtain ⟨m₂, m₁', heq, -⟩ | ⟨b, m₁', heq, -⟩ | ⟨e', m₂, heq, hwhy⟩ := h
  · exact absurd heq (by simp)
  · exact absurd heq (by simp)
  · obtain ⟨rfl, -⟩ : e = e' ∧ m₁ = m₂ := by simpa using heq
    exact hwhy

namespace KeepsUp

/-- **A search** is followed to its end. -/
theorem search (hR : KeepsUp ops Target R) (h : R m m') {k : Nat} {b : Bool}
    (hk : loop (Merged.turn (ops n)) k m = some (.ok b, m₁)) :
    ∃ m₁', LoopEnds (fun n => Merged.turn (ops n)) m' (.ok b, m₁') ∧ R m₁ m₁' := by
  induction k generalizing m m' with
  | zero => exact absurd hk (by simp [loop])
  | succ k ih =>
    rw [loop] at hk
    cases ht : m.turn (ops n) with
    | none => simp [ht] at hk
    | some t =>
      rw [ht] at hk
      cases t with
      | done r =>
        obtain rfl : r = (.ok b, m₁) := Option.some.inj hk
        exact (hR.turn h ht).done
      | again m₂ =>
        obtain ⟨m₂', hleads, h₂⟩ := (hR.turn h ht).again
        obtain ⟨m₁', hends, h₁⟩ := ih h₂ hk
        exact ⟨m₁', hleads _ hends, h₁⟩

theorem hasNext (hR : KeepsUp ops Target R) (h : R m m') {b : Bool}
    (hn : m.hasNext (ops n) n = some (.ok b, m₁)) :
    ∃ m₁', Settles (fun n => m'.hasNext (ops n) n) (.ok b, m₁') ∧ R m₁ m₁' := by
  obtain ⟨m₁', hends, h₁⟩ := hR.search h hn
  exact ⟨m₁', hends.settles, h₁⟩

/-- Where a search fails, it fails to convert a target. -/
theorem hasNext_fails (hR : KeepsUp ops Target R) (h : R m m') {e : SeriesError}
    (hn : m.hasNext (ops n) n = some (.error e, m₁)) : ∃ why, e = .conversion why := by
  refine loop_invariant (P := fun m => ∃ m', R m m')
    (Q := fun b => ∀ e, b.1 = .error e → ∃ why, e = .conversion why) ?_ ?_ ⟨m', h⟩ hn e rfl
  · rintro m₁ m₂ ⟨m₁', h₁⟩ ht
    obtain ⟨m₂', -, h₂⟩ := (hR.turn h₁ ht).again
    exact ⟨m₂', h₂⟩
  · rintro m₁ ⟨_, m₂⟩ ⟨m₁', h₁⟩ ht e rfl
    exact (hR.turn h₁ ht).fails

/-- **One call** that returns is answered alike. -/
theorem ask (hR : KeepsUp ops Target R) (h : R m m') {call : CursorCall} {a : CursorAnswer}
    (haims : call.Aims Target) (hreturns : call.Returns a)
    (hn : (Merged.ops ops n).ask call m = some (a, m₁)) :
    ∃ m₁', Settles (fun n => (Merged.ops ops n).ask call m') (a, m₁') ∧ R m₁ m₁' := by
  cases call with
  | hasNext =>
    obtain ⟨⟨r, m₂⟩, hlook, heq⟩ := Option.map_eq_some_iff.mp hn
    obtain ⟨rfl, rfl⟩ := Prod.mk.inj heq
    cases r with
    | error e => exact absurd (hreturns e rfl).1 (by simp)
    | ok b =>
      obtain ⟨m₁', hsettles, h₁⟩ := hR.hasNext h hlook
      exact ⟨m₁', hsettles.map _, h₁⟩
  | next =>
    obtain ⟨⟨r, m₂⟩, hstep, heq⟩ := Option.map_eq_some_iff.mp hn
    obtain ⟨rfl, rfl⟩ := Prod.mk.inj heq
    have hstep : m.next (ops n) n = some (r, m₂) := hstep
    unfold Merged.next at hstep
    cases hlook : m.hasNext (ops n) n with
    | none => simp [hlook] at hstep
    | some b =>
      obtain ⟨b, m₃⟩ := b
      rw [hlook] at hstep
      cases b with
      | error e =>
        obtain ⟨rfl, -⟩ := Prod.mk.inj (Option.some.inj hstep)
        -- a search does not fail like a step behind the last value
        obtain ⟨why, rfl⟩ := hR.hasNext_fails h hlook
        exact absurd (hreturns _ rfl).2 (by simp)
      | ok b =>
        obtain ⟨m₃', hsettles, h₃⟩ := hR.hasNext h hlook
        have hpending := hR.pending h₃
        dsimp only at hstep
        cases hp : m₃.pending with
        | none =>
          rw [hp] at hstep hpending
          obtain ⟨rfl, rfl⟩ := Prod.mk.inj (Option.some.inj hstep)
          exact ⟨m₃', settles_next_of_none hsettles hpending, h₃⟩
        | some u =>
          rw [hp] at hstep hpending
          obtain ⟨rfl, rfl⟩ := Prod.mk.inj (Option.some.inj hstep)
          exact ⟨_, settles_next_of_pending hsettles hpending, hR.take h₃⟩
  | advanceTo target =>
    obtain ⟨⟨r, m₂⟩, hmove, heq⟩ := Option.map_eq_some_iff.mp hn
    obtain ⟨rfl, rfl⟩ := Prod.mk.inj heq
    cases r with
    | error e => exact absurd (hreturns e rfl).1 (by simp)
    | ok u =>
      obtain ⟨m₁', hsettles, h₁⟩ := hR.advanceTo h (haims target rfl) hmove
      exact ⟨m₁', hsettles.map _, h₁⟩

end KeepsUp

/-! ### One turn -/

variable {o : CursorOps ι} {w : Waiting} {queue : List Waiting} {i : Nat}

/-- **All that a turn does** with the first of the queue: its cursor fails to hand out the next
value, the value is not new and is dropped, or the excluded cursors are asked. -/
theorem turn_cases (hpending : m.pending = none) (hqueue : m.queue = w :: queue)
    {t : Turn (Merged ι) (Except SeriesError Bool × Merged ι)} (ht : m.turn o = some t) :
    ∃ a m₁, { m with queue }.refill o w.index = some (a, m₁) ∧
      ((∃ e, a = .error e ∧ t = .done (.error e, m₁)) ∨ a = .ok () ∧
        (¬ m₁.IsNew w.value ∧ t = .again m₁ ∨ m₁.IsNew w.value ∧ ∃ r xs,
          Merged.excludes o w.value m₁.excluded = some (r, xs) ∧
            ((∃ e m₂, r = .error e ∧ t = .done (.error e, m₂)) ∨ ∃ found, r = .ok found ∧
              t = .again { m₁ with
                excluded := xs
                lastKey := some w.value.key
                pending := if found then m₁.pending else some w.value }))) := by
  have hsame : ({ m with queue, pending := none } : Merged ι) = { m with queue } := by rw [hpending]
  unfold Merged.turn at ht
  rw [hpending, hqueue] at ht
  dsimp only at ht
  rw [hsame] at ht
  cases hfetch : { m with queue }.refill o w.index with
  | none => simp [hfetch] at ht
  | some a =>
    obtain ⟨a, m₁⟩ := a
    rw [hfetch] at ht
    refine ⟨a, m₁, rfl, ?_⟩
    cases a with
    | error e => exact .inl ⟨e, rfl, (Option.some.inj ht).symm⟩
    | ok _ =>
      refine .inr ⟨rfl, ?_⟩
      dsimp only at ht
      by_cases hnew : m₁.IsNew w.value
      · rw [if_neg (by cases hlast : m₁.lastKey with
          | none => simp
          | some k => simp [hnew k hlast])] at ht
        refine .inr ⟨hnew, ?_⟩
        cases hasked : Merged.excludes o w.value m₁.excluded with
        | none => simp [hasked] at ht
        | some r =>
          obtain ⟨r, xs⟩ := r
          rw [hasked] at ht
          refine ⟨r, xs, rfl, ?_⟩
          cases r with
          | error e => exact .inl ⟨e, _, rfl, (Option.some.inj ht).symm⟩
          | ok found =>
            refine .inr ⟨found, rfl, ?_⟩
            cases found <;> exact (Option.some.inj ht).symm
      · refine .inl ⟨hnew, ?_⟩
        obtain ⟨k, hlast, hle⟩ : ∃ k, m₁.lastKey = some k ∧ w.value.key ≤ k := by
          simpa [IsNew] using hnew
        rw [if_pos (by simp [hlast, hle])] at ht
        exact (Option.some.inj ht).symm

end Merged

end Recurrence
