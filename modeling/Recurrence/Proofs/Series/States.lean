/-
Recurrence/Proofs/Series/States.lean

The states that calls lead to.

Calls may come in any order, with any bounds and targets, and go on after an error.
All that they do to a series is to look for an instance, to take one away that is held,
and to pass over months.  So what these three keep, all states that calls lead to have
(`Series.Reachable.invariant`).
-/
import Recurrence.Proofs.Meaning.Fields
import Recurrence.Proofs.Series.Steps

namespace Recurrence

namespace Series

variable {r : Rule} {start : Value} {zone : Zone} {budget : Int} {s s' : Series} {n : Nat}

/-- The states of the series of a rule, whatever it has been asked before. -/
inductive Reachable (r : Rule) (start : Value) (zone : Zone) (budget : Int) : Series → Prop where
  | create {s : Series} {bound : Nat} (h : create bound r start zone budget = some (.ok s)) :
      Reachable r start zone budget s
  | hasNext {s s' : Series} {bound : Nat} {a : Except SeriesError Bool}
      (hs : Reachable r start zone budget s) (h : s.hasNext bound = some (a, s')) :
      Reachable r start zone budget s'
  | next {s s' : Series} {bound : Nat} {a : Except SeriesError Value}
      (hs : Reachable r start zone budget s) (h : s.next bound = some (a, s')) :
      Reachable r start zone budget s'
  | advanceTo {s s' : Series} {bound : Nat} {target : Value} {a : Except SeriesError Unit}
      (hs : Reachable r start zone budget s) (h : s.advanceTo bound target = some (a, s')) :
      Reachable r start zone budget s'

theorem Reachable.returns {vs : List Value} (hs : Reachable r start zone budget s)
    (h : s.Returns vs s') : Reachable r start zone budget s' := by
  induction h with
  | nil s => exact hs
  | cons head _ ih => exact ih (hs.next head)

theorem Reachable.ends (hs : Reachable r start zone budget s) (h : s.Ends s') :
    Reachable r start zone budget s' := by
  obtain ⟨bound, h⟩ := h
  exact hs.next h

/-- A series is made of a rule and a start only where the rule can use the start. -/
theorem admits_of_create (hr : r.Valid) (hreal : start.IsReal)
    (h : Series.create n r start zone budget = some (.ok s)) : r.Admits start where
  valid := hr
  real := hreal
  timed hsub := by
    unfold Series.create at h
    cases ht : start.hasTime with
    | true => rfl
    | false => simp [ht, hsub] at h

theorem Reachable.admits (hr : r.Valid) (hreal : start.IsReal)
    (hs : Reachable r start zone budget s) : r.Admits start := by
  induction hs with
  | create h => exact admits_of_create hr hreal h
  | hasNext _ _ ih => exact ih
  | next _ _ ih => exact ih
  | advanceTo _ _ ih => exact ih

/-! ### Dropping is looking -/

/-- Where an instance is held after looking for one, the series has not stopped meanwhile. -/
theorem finished_of_hasNext {a : Except SeriesError Bool} {p : Value}
    (h : s.hasNext n = some (a, s')) (hp : s'.pending = some p) : s'.finished = s.finished := by
  rcases hasNext_cases h with ⟨-, rfl⟩ | ⟨hpending, -, answer, s₁, hg, hout⟩
  · rfl
  have hs₁ := draws_of_generate hg
  have hnone : s₁.pending = none := hs₁.pending.trans hpending
  rcases hout with ⟨e, -, rfl⟩ | ⟨-, rfl⟩ | ⟨v, u, -, rfl⟩
  · exact hs₁.finished
  · exact absurd (hnone.symm.trans hp) (by simp)
  · rw [judge_eq] at hp ⊢
    split_ifs at hp ⊢
    · exact hs₁.finished
    · exact absurd (hnone.symm.trans hp) (by simp)

/-- What follows on looking for an instance: it is dropped if it is before the target. -/
def dropTurn (target : Value) (looked : Except SeriesError Bool × Series) :
    Turn Series (Except SeriesError Unit × Series) :=
  match looked.1, looked.2.pending with
  | .error e, _ => .done (.error e, looked.2)
  | .ok _, none => .done (.ok (), looked.2)
  | .ok _, some u =>
    if u < target then .again { looked.2 with pending := none } else .done (.ok (), looked.2)

/-- A turn that skips looks for the next instance, and drops it if it is before the target. -/
theorem skipTurn_eq (hpending : s.pending = none) (hfinished : s.finished = false) (n : Nat)
    (target : Value) : s.skipTurn n target = (s.hasNext n).map (dropTurn target) := by
  have hcond : (s.pending.isNone && !s.finished) = true := by rw [hpending, hfinished]; rfl
  unfold skipTurn hasNext
  rw [if_pos hcond]
  cases hg : s.generate n with
  | none => rfl
  | some b =>
    obtain ⟨answer, s₁⟩ := b
    have hnone : s₁.pending = none := (draws_of_generate hg).pending.trans hpending
    cases answer with
    | error e => rfl
    | ok found =>
      cases found with
      | none => simp only [Option.map_some, dropTurn, hnone]
      | some vu =>
        obtain ⟨v, u⟩ := vu
        by_cases hpass : (s₁.ending.check v u).1 = true
        · by_cases hlt : u < target <;> simp [dropTurn, judge_eq, hpass, hlt]
        · simp [dropTurn, judge_eq, hpass, hnone]

/-- Where nothing is held after looking for an instance, the series has stopped. -/
theorem finished_of_pending_none {b : Bool} (h : s.hasNext n = some (.ok b, s'))
    (hpending : s'.pending = none) : s'.finished = true := by
  rcases hasNext_cases h with ⟨hstop, rfl⟩ |
    ⟨hnone, hfinished, answer, s₁, hg, ⟨err, rfl, -⟩ | ⟨-, rfl⟩ | ⟨v, u, -, rfl⟩⟩
  · exact hstop.resolve_left (by simp [hpending])
  · exact absurd h (by simp [hasNext, hnone, hfinished, hg])
  · rfl
  · rw [judge_eq] at hpending ⊢
    split_ifs at hpending ⊢
    rfl

/-- **Skipping is looking again and again**: what dropping an instance before the target keeps
holds when an instance is found that is not before it, when there is none, or when looking
fails. -/
theorem skip_induction {target : Value} {P : Series → Prop}
    {Q : Except SeriesError Unit → Series → Prop}
    (hdrop : ∀ s b s₁ u, P s → s.hasNext n = some (.ok b, s₁) → s₁.pending = some u → u < target →
      P { s₁ with pending := none })
    (hfound : ∀ s b s₁, P s → s.hasNext n = some (.ok b, s₁) →
      (∀ u ∈ s₁.pending, ¬ u < target) → Q (.ok ()) s₁)
    (hfails : ∀ s e s₁, P s → s.hasNext n = some (.error e, s₁) → Q (.error e) s₁)
    (hs : P s) (hpending : s.pending = none) (hfinished : s.finished = false)
    {a : Except SeriesError Unit} (h : loop (skipTurn n target) n s = some (a, s')) : Q a s' := by
  -- that nothing is held and the series has not stopped is what lets `skipTurn_eq` apply again
  refine loop_invariant (P := fun s => P s ∧ s.pending = none ∧ s.finished = false)
    (Q := fun b => Q b.1 b.2) ?_ ?_ ⟨hs, hpending, hfinished⟩ h
  · rintro s s' ⟨hs, hpending, hfinished⟩ ht
    rw [skipTurn_eq hpending hfinished] at ht
    obtain ⟨⟨b, s₁⟩, hn, ht⟩ := Option.map_eq_some_iff.mp ht
    cases b with
    | error e => simp [dropTurn] at ht
    | ok b =>
      cases hp : s₁.pending with
      | none => simp [dropTurn, hp] at ht
      | some u =>
        simp only [dropTurn, hp] at ht
        split_ifs at ht with hlt
        obtain rfl := Turn.again.inj ht
        exact ⟨hdrop s b s₁ u hs hn hp hlt, rfl, (finished_of_hasNext hn hp).trans hfinished⟩
  · rintro s b ⟨hs, hpending, hfinished⟩ ht
    rw [skipTurn_eq hpending hfinished] at ht
    obtain ⟨⟨b', s₁⟩, hn, ht⟩ := Option.map_eq_some_iff.mp ht
    cases b' with
    | error e =>
      obtain rfl := Turn.done.inj ht
      exact hfails s e s₁ hs hn
    | ok b' =>
      cases hp : s₁.pending with
      | none =>
        simp only [dropTurn, hp] at ht
        obtain rfl := Turn.done.inj ht
        exact hfound s b' s₁ hs hn (by simp [hp])
      | some u =>
        simp only [dropTurn, hp] at ht
        split_ifs at ht with hlt
        obtain rfl := Turn.done.inj ht
        exact hfound s b' s₁ hs hn (by simpa [hp] using hlt)

/-! ### Passing over months -/

theorem passOver_cases {target : Value} {a : Except SeriesError Unit}
    (h : s.passOver n target = some (a, s')) :
    s' = s ∨ ∃ c l step c', s.source = .plain c ∧ target.fromUtc s.zone = .ok l ∧
      skipMonths n c l = some (step, c') ∧
      ((step = .value ∨ ∃ why, step = .undefined why) ∧ s' = { s with source := .plain c' } ∨
        s' = { s with source := .plain c', finished := true }) := by
  unfold passOver at h
  cases hsource : s.source with
  | selected sel =>
    rw [hsource] at h
    exact .inl (Prod.mk.inj (Option.some.inj h)).2.symm
  | plain c =>
    rw [hsource] at h
    dsimp only at h
    cases hl : target.fromUtc s.zone with
    | error e =>
      rw [hl] at h
      exact .inl (Prod.mk.inj (Option.some.inj h)).2.symm
    | ok l =>
      rw [hl] at h
      dsimp only at h
      cases hskip : skipMonths n c l with
      | none => simp [hskip] at h
      | some b =>
        obtain ⟨step, c'⟩ := b
        rw [hskip] at h
        refine .inr ⟨c, l, step, c', rfl, rfl, hskip, ?_⟩
        cases step with
        | value => exact .inl ⟨.inl rfl, (Prod.mk.inj (Option.some.inj h)).2.symm⟩
        | undefined why => exact .inl ⟨.inr ⟨why, rfl⟩, (Prod.mk.inj (Option.some.inj h)).2.symm⟩
        | rollover => exact .inr (Prod.mk.inj (Option.some.inj h)).2.symm
        | halt => exact .inr (Prod.mk.inj (Option.some.inj h)).2.symm

/-- Passing over months changes the source alone, and may end the series. -/
theorem frame_of_passOver {target : Value} {a : Except SeriesError Unit}
    (h : s.passOver n target = some (a, s')) : s.SameRule s' ∧ s'.lastKey = s.lastKey ∧
      s'.pending = s.pending ∧ s'.ending = s.ending := by
  rcases passOver_cases h with rfl | ⟨c, l, step, c', -, -, -, ⟨-, rfl⟩ | rfl⟩ <;>
    exact ⟨⟨rfl, rfl, rfl⟩, rfl, rfl, rfl⟩

/-! ### Moving ahead -/

/-- Skipping leaves a series alone that has stopped.  It passes over months first where it may,
and goes on unless this fails or ends the series. -/
theorem skipTo_cases {target : Value} {a : Except SeriesError Unit}
    (h : s.skipTo n target = some (a, s')) :
    (s.finished = true ∧ a = .ok () ∧ s' = s) ∨
      s.finished = false ∧
        ((s.skipsMonths = false ∧ loop (skipTurn n target) n s = some (a, s')) ∨
          s.skipsMonths = true ∧ ∃ b s₁, s.passOver n target = some (b, s₁) ∧
            ((∃ e, b = .error e ∧ a = .error e ∧ s' = s₁) ∨
              b = .ok () ∧ (s₁.finished = true ∧ a = .ok () ∧ s' = s₁ ∨
                s₁.finished = false ∧ loop (skipTurn n target) n s₁ = some (a, s')))) := by
  unfold skipTo at h
  cases hfinished : s.finished with
  | true =>
    rw [hfinished] at h
    obtain ⟨rfl, rfl⟩ := Prod.mk.inj (Option.some.inj h)
    exact .inl ⟨rfl, rfl, rfl⟩
  | false =>
    rw [hfinished, if_neg (by simp)] at h
    dsimp only at h
    refine .inr ⟨rfl, ?_⟩
    cases hskips : s.skipsMonths with
    | false =>
      rw [hskips, if_neg (by simp)] at h
      dsimp only at h
      rw [hfinished, if_neg (by simp)] at h
      exact .inl ⟨rfl, h⟩
    | true =>
      rw [hskips, if_pos rfl] at h
      cases hover : s.passOver n target with
      | none => simp [hover] at h
      | some b =>
        obtain ⟨b, s₁⟩ := b
        rw [hover] at h
        refine .inr ⟨rfl, b, s₁, rfl, ?_⟩
        cases b with
        | error e =>
          obtain ⟨rfl, rfl⟩ := Prod.mk.inj (Option.some.inj h)
          exact .inl ⟨e, rfl, rfl, rfl⟩
        | ok b =>
          dsimp only at h
          refine .inr ⟨rfl, ?_⟩
          split_ifs at h with hfinished₁
          · obtain ⟨rfl, rfl⟩ := Prod.mk.inj (Option.some.inj h)
            exact .inl ⟨hfinished₁, rfl, rfl⟩
          · exact .inr ⟨by simpa using hfinished₁, h⟩

/-- Moving ahead leaves a series alone that holds an instance not before the target.  Otherwise
it skips, without the instance that is held. -/
theorem advanceTo_cases {target : Value} {a : Except SeriesError Unit}
    (h : s.advanceTo n target = some (a, s')) :
    (∃ v, s.pending = some v ∧ ¬ v < s.roundTarget target ∧ a = .ok () ∧ s' = s) ∨
      (∀ v ∈ s.pending, v < s.roundTarget target) ∧
        { s with pending := none }.skipTo n (s.roundTarget target) = some (a, s') := by
  unfold advanceTo at h
  dsimp only at h
  cases hp : s.pending with
  | none =>
    rw [hp] at h
    exact .inr ⟨by simp, take_of_pending_none hp ▸ h⟩
  | some v =>
    rw [hp] at h
    dsimp only at h
    split_ifs at h with hlt
    · exact .inr ⟨by simpa using hlt, h⟩
    · obtain ⟨rfl, rfl⟩ := Prod.mk.inj (Option.some.inj h)
      exact .inl ⟨v, rfl, hlt, rfl, rfl⟩

/-! ### What all states have -/

section Invariants

variable {P : Series → Prop}
  (hlook : ∀ n s a s', P s → s.hasNext n = some (a, s') → P s')
  (htake : ∀ s, P s → P { s with pending := none })
  (hpass : ∀ n target s a s', P s → s.pending = none → s.finished = false →
    s.passOver n target = some (a, s') → P s')

include hlook htake

theorem next_invariant {a : Except SeriesError Value} (hs : P s) (h : s.next n = some (a, s')) :
    P s' := by
  obtain ⟨b, s₁, hn, ⟨e, -, rfl⟩ | ⟨v, -, -, rfl⟩⟩ := next_cases h
  · exact hlook n s b _ hs hn
  · exact htake s₁ (hlook n s b s₁ hs hn)

theorem skip_invariant {target : Value} {a : Except SeriesError Unit} (hs : P s)
    (hpending : s.pending = none) (hfinished : s.finished = false)
    (h : loop (skipTurn n target) n s = some (a, s')) : P s' :=
  skip_induction (Q := fun _ s' => P s')
    (fun s b s₁ _ hs hn _ _ => htake s₁ (hlook n s (.ok b) s₁ hs hn))
    (fun s b s₁ hs hn _ => hlook n s (.ok b) s₁ hs hn)
    (fun s e s₁ hs hn => hlook n s (.error e) s₁ hs hn) hs hpending hfinished h

include hpass

theorem skipTo_invariant {target : Value} {a : Except SeriesError Unit} (hs : P s)
    (hpending : s.pending = none) (h : s.skipTo n target = some (a, s')) : P s' := by
  rcases skipTo_cases h with ⟨-, -, rfl⟩ | ⟨hfinished, ⟨-, h⟩ | ⟨-, b, s₁, hover, hout⟩⟩
  · exact hs
  · exact skip_invariant hlook htake hs hpending hfinished h
  · have hs₁ := hpass n target s b s₁ hs hpending hfinished hover
    have hpending₁ := (frame_of_passOver hover).2.2.1.trans hpending
    rcases hout with ⟨e, -, -, rfl⟩ | ⟨-, ⟨-, -, rfl⟩ | ⟨hfinished₁, h⟩⟩
    · exact hs₁
    · exact hs₁
    · exact skip_invariant hlook htake hs₁ hpending₁ hfinished₁ h

theorem advanceTo_invariant {target : Value} {a : Except SeriesError Unit} (hs : P s)
    (h : s.advanceTo n target = some (a, s')) : P s' := by
  rcases advanceTo_cases h with ⟨v, -, -, -, rfl⟩ | ⟨-, h⟩
  · exact hs
  · exact skipTo_invariant hlook htake hpass (htake s hs) rfl h

/-- **What looking, taking and passing over keep**, all states have. -/
theorem Reachable.invariant
    (hcreate : ∀ n s, Series.create n r start zone budget = some (.ok s) → P s)
    (hs : Reachable r start zone budget s) : P s := by
  induction hs with
  | create h => exact hcreate _ _ h
  | hasNext _ h ih => exact hlook _ _ _ _ ih h
  | next _ h ih => exact next_invariant hlook htake ih h
  | advanceTo _ h ih => exact advanceTo_invariant hlook htake hpass ih h

end Invariants

end Series

end Recurrence
