/-
Recurrence/Proofs/Series/Instances.lean

The instances of a series, apart from its ending.

What a series generates does not hang on its ending: that one only judges the instances, each of
them once.  So a series is two things one after the other, a run of instances
(`Series.Generates`) and a test that ends it.  An ending that never changes, like a bound, lets
the first of them pass up to one that it refuses, and these are what the series returns
(`Series.create_returns_iff`).  Along a run the local values and the UTC values both grow
(`Supply.Stocked.ascends`), whatever the offsets of the zone do.
-/
import Recurrence.Proofs.Series.Live

namespace Recurrence

/-! ### Endings that never change -/

namespace Ending

/-- Whether an ending lets an instance pass, given local and in UTC. -/
def passes (e : Ending) (i : Value × Value) : Bool := (e.check i.1 i.2).1

/-- An ending that judging leaves as it is. -/
def Steady (e : Ending) : Prop := ∀ v u, (e.check v u).2 = e

theorem steady_never : never.Steady := fun _ _ => rfl

theorem steady_untilBound (last : Value) : (untilBound last).Steady := fun _ _ => rfl

/-- Only a count changes when it judges. -/
theorem steady_of_ne_count {e : Ending} (h : ∀ m, e ≠ .count m) : e.Steady := by
  cases e with
  | never => exact steady_never
  | count m => exact absurd rfl (h m)
  | untilBound last => exact steady_untilBound last

end Ending

/-! ### Rules that differ in their ending -/

namespace Rule

/-- A rule with another count and another bound. -/
def withEnd (r : Rule) (count : Option Int) (last : Option Value) : Rule :=
  { r with count, untilBound := last }

/-- The ending has no part in the plan of a rule. -/
theorem plan_withEnd (r : Rule) (count : Option Int) (last : Option Value) (start : Value)
    (budget : Int) :
    Plan.ofRule (r.withEnd count last) start (Series.listStart (r.withEnd count last) start) budget =
      Plan.ofRule r start (Series.listStart r start) budget := by
  have hreaches : (r.withEnd count last).reaches start = r.reaches start := by
    refine reaches_congr ?_ ?_ (fun field => ?_) start
    exacts [rfl, rfl, .refl (r.clockValues field)]
  simp only [Plan.ofRule, hreaches]
  rfl

/-- Two rules number their periods in the same way. -/
structure SamePeriods (r r' : Rule) : Prop where
  freq : r.freq = r'.freq
  weekStart : r.weekStart = r'.weekStart

end Rule

variable {S : Supply} {R : Value → Prop} {s s' s₀ s₁ : Series} {n : Nat} {v u : Value}
  {i : Value × Value} {is : List (Value × Value)} {vs : List Value} {startUtc : Value}

namespace Series

/-! ### Runs of instances -/

/-- A series generates instances one after another, each local and in UTC. -/
inductive Generates : Series → List (Value × Value) → Prop where
  | nil (s : Series) : Generates s []
  | cons {s s' : Series} {i : Value × Value} {is : List (Value × Value)} {bound : Nat}
      (head : s.generate bound = some (.ok (some i), s')) (tail : Generates s' is) :
      Generates s (i :: is)

/-- A series that generates an instance goes on from there. -/
theorem generates_iff (hg : s.generate n = some (.ok (some i), s')) :
    s.Generates is ↔ is = [] ∨ ∃ js, is = i :: js ∧ s'.Generates js := by
  constructor
  · rintro (_ | @⟨_, s₁, i₁, js, bound, head, tail⟩)
    · exact .inl rfl
    · obtain ⟨hi, rfl⟩ := Prod.mk.inj (Patient.unique (patient_generate s) head hg)
      obtain rfl : i₁ = i := by simpa using hi
      exact .inr ⟨js, rfl, tail⟩
  · rintro (rfl | ⟨js, rfl, tail⟩)
    · exact .nil s
    · exact .cons hg tail

/-- A series whose source has ended generates nothing. -/
theorem generates_iff_of_none (hg : s.generate n = some (.ok none, s')) :
    s.Generates is ↔ is = [] := by
  constructor
  · rintro (_ | @⟨_, s₁, i₁, js, bound, head, tail⟩)
    · rfl
    · exact absurd (Prod.mk.inj (Patient.unique (patient_generate s) head hg)).1 (by simp)
  · rintro rfl
    exact .nil s

/-- What is generated comes after the last instance in UTC, and is the last one then. -/
theorem lastKey_of_generate (hg : s.generate n = some (.ok (some (v, u)), s')) :
    s'.lastKey = some u.key ∧ ∀ k ∈ s.lastKey, k < u.key := by
  refine loop_invariant (P := fun s₁ => s₁.lastKey = s.lastKey)
    (Q := fun b => ∀ v u, b.1 = .ok (some (v, u)) → b.2.lastKey = some u.key ∧
      ∀ k ∈ s.lastKey, k < u.key) ?_ ?_ rfl hg v u rfl
  · intro s₁ s₂ hlast ht
    obtain ⟨_, src, -, ⟨⟨e, h⟩, -⟩ | ⟨-, h⟩ | ⟨w, -, h | ⟨x, -, -, h⟩⟩⟩ := attempt_cases ht <;>
      simp only [reduceCtorEq, Turn.again.injEq] at h
    rw [h]
    exact hlast
  · intro s₁ b hlast ht v u hb
    obtain ⟨_, src, -, ⟨⟨e, h⟩, -⟩ | ⟨-, h⟩ | ⟨w, -, h | ⟨x, -, hafter, h⟩⟩⟩ := attempt_cases ht <;>
      simp only [reduceCtorEq, Turn.done.injEq] at h <;> subst h <;>
      simp only [reduceCtorEq, Except.ok.injEq, Option.some.injEq, Prod.mk.injEq] at hb
    obtain ⟨rfl, rfl⟩ := hb
    exact ⟨rfl, hlast ▸ hafter⟩

/-! ### Series that differ in their ending -/

/-- A series with the rule and the ending of another. -/
def withEnd (s : Series) (r : Rule) (e : Ending) : Series := { s with rule := r, ending := e }

theorem attempt_withEnd {r : Rule} (hr : r.SamePeriods s.rule) (e : Ending) (n : Nat) :
    (s.withEnd r e).attempt n =
      (s.attempt n).map (Turn.map (withEnd · r e) fun b => (b.1, b.2.withEnd r e)) := by
  -- of the rule, the source reads what numbers the periods
  have hnext : (s.withEnd r e).source.next (s.withEnd r e).rule n =
      s.source.next s.rule n := by
    simp only [withEnd, InstanceSource.next, hr.freq, hr.weekStart]
  unfold attempt
  rw [hnext]
  cases s.source.next s.rule n with
  | none => rfl
  | some answer =>
    obtain ⟨_ | _ | v, src⟩ := answer
    · rfl
    · rfl
    · dsimp only [withEnd]
      cases v.toUtc s.zone with
      | error e => rfl
      | ok u =>
        cases s.lastKey with
        | none => rfl
        | some k =>
          by_cases hlt : k < u.key
          · simp only [hlt, if_true]
            rfl
          · simp only [hlt, if_false]
            rfl

/-- **Generating** takes no notice of the ending. -/
theorem generate_withEnd {r : Rule} (hr : r.SamePeriods s.rule) (e : Ending) (n : Nat) :
    (s.withEnd r e).generate n = (s.generate n).map fun b => (b.1, b.2.withEnd r e) := by
  refine loop_map (P := fun s => r.SamePeriods s.rule)
    (fun s hs => attempt_withEnd hs e n) ?_ n hr
  intro s s' hs ht
  obtain ⟨answer, src, -, ⟨⟨e, h⟩, -⟩ | ⟨-, h⟩ | ⟨v, -, h | ⟨u, -, -, h⟩⟩⟩ := attempt_cases ht <;>
    simp only [reduceCtorEq, Turn.again.injEq] at h
  rw [h]
  exact hs

theorem Generates.withEnd {r : Rule} (h : s.Generates is) (hr : r.SamePeriods s.rule)
    (e : Ending) : (s.withEnd r e).Generates is := by
  induction h with
  | nil s => exact .nil _
  | cons head _ ih =>
    have hg := (generate_withEnd hr e _).trans (congrArg _ head)
    exact .cons hg (ih ((draws_of_generate head).rule ▸ hr))

/-! ### What is returned of a run -/

/-- Whether a series returns some values one after another. -/
def CanReturn (s : Series) (vs : List Value) : Prop := ∃ s', s.Returns vs s'

theorem canReturn_nil (s : Series) : s.CanReturn [] := ⟨s, .nil s⟩

/-- A series that returns a value goes on from there. -/
theorem canReturn_iff (hn : s.next n = some (.ok u, s')) :
    s.CanReturn vs ↔ vs = [] ∨ ∃ ws, vs = u :: ws ∧ s'.CanReturn ws := by
  constructor
  · rintro ⟨s₂, _ | @⟨_, s₁, _, u₁, ws, bound, head, tail⟩⟩
    · exact .inl rfl
    · obtain ⟨hu, rfl⟩ := Prod.mk.inj (Patient.unique (patient_next s) head hn)
      obtain rfl : u₁ = u := by simpa using hu
      exact .inr ⟨ws, rfl, s₂, tail⟩
  · rintro (rfl | ⟨ws, rfl, s₂, tail⟩)
    · exact s.canReturn_nil
    · exact ⟨s₂, .cons hn tail⟩

/-- A series that has stopped and holds nothing returns nothing. -/
theorem canReturn_iff_of_finished (hpending : s.pending = none) (hfinished : s.finished = true) :
    s.CanReturn vs ↔ vs = [] := by
  constructor
  · rintro ⟨s₂, _ | @⟨_, s₁, _, u₁, ws, bound, head, tail⟩⟩
    · rfl
    · simp [next, hasNext, hpending, hfinished] at head
  · rintro rfl
    exact s.canReturn_nil

/-- A series that goes on, holds nothing, and whose ending never changes. -/
structure Open (s : Series) : Prop where
  pending : s.pending = none
  finished : s.finished = false
  steady : s.ending.Steady

theorem Open.draws (h : s.Open) (hs : s.Draws s') : s'.Open where
  pending := hs.pending.trans h.pending
  finished := hs.finished.trans h.finished
  steady := hs.ending ▸ h.steady

/-- An instance that passes is held. -/
theorem Open.judge_of_passes (h : s.Open) (hpass : s.ending.passes (v, u) = true) :
    (s.judge v u).2 = { s with pending := some u } := by
  rw [judge_eq, if_pos (show (s.ending.check v u).1 = true from hpass), h.steady]

/-- An instance that does not pass ends the series. -/
theorem Open.judge_of_refused (h : s.Open) (hpass : s.ending.passes (v, u) = false) :
    (s.judge v u).2 = { s with finished := true } := by
  rw [judge_eq, if_neg (by simpa [Ending.passes] using hpass), h.steady]

/-- **Stepping** returns the next instance that is generated, if it passes. -/
theorem Open.next_iff (h : s.Open) : s.next n = some (.ok u, s') ↔
    ∃ v, s.generate n = some (.ok (some (v, u)), s') ∧ s.ending.passes (v, u) = true := by
  have hcond : (s.pending.isNone && !s.finished) = true := by simp [h.pending, h.finished]
  constructor
  · intro hn
    obtain ⟨b, s₁, hlook, ⟨e, he, -⟩ | ⟨v, hv, hp, rfl⟩⟩ := next_cases hn
    · exact absurd he (by simp)
    obtain rfl : u = v := by simpa using hv
    rcases hasNext_cases hlook with ⟨hstop, -⟩ | ⟨-, -, answer, s₂, hg, hout⟩
    · simp [h.pending, h.finished] at hstop
    have h₂ := h.draws (draws_of_generate hg)
    rcases hout with ⟨e, -, rfl⟩ | ⟨-, rfl⟩ | ⟨w, x, rfl, rfl⟩
    · exact absurd (h₂.pending.symm.trans hp) (by simp)
    · exact absurd (h₂.pending.symm.trans hp) (by simp)
    · rw [← (draws_of_generate hg).ending]
      cases hpass : s₂.ending.passes (w, x) with
      | true =>
        rw [h₂.judge_of_passes hpass] at hp ⊢
        obtain rfl : x = u := by simpa using hp
        refine ⟨w, ?_, hpass⟩
        rw [hg]
        simp only [← h₂.pending]
      | false =>
        rw [h₂.judge_of_refused hpass] at hp
        exact absurd (h₂.pending.symm.trans hp) (by simp)
  · rintro ⟨v, hg, hpass⟩
    have h' := h.draws (draws_of_generate hg)
    rw [← (draws_of_generate hg).ending] at hpass
    have hlook : s.hasNext n = some (.ok true, { s' with pending := some u }) := by
      simp only [hasNext, hcond, if_true, hg, h'.judge_of_passes hpass, Option.isSome_some]
    rw [next_of_hasNext hlook]
    simp only [stepOf, ← h'.pending]

/-- An open series that generates an instance returns it first, if it passes. -/
theorem Open.canReturn_cons_iff (h : s.Open) (hg : s.generate n = some (.ok (some i), s')) :
    s.CanReturn (v :: vs) ↔ (i.2 = v ∧ s.ending.passes i = true) ∧ s'.CanReturn vs := by
  cases hpass : s.ending.passes i with
  | true =>
    rw [canReturn_iff (h.next_iff.mpr ⟨i.1, hg, hpass⟩)]
    simp [and_assoc, eq_comm]
  | false =>
    simp only [Bool.false_eq_true, and_false, false_and, iff_false]
    rintro ⟨s₂, hrun⟩
    cases hrun with
    | cons head _ =>
      obtain ⟨w, hg', hpass'⟩ := h.next_iff.mp head
      have hi := (Prod.mk.inj (Patient.unique (patient_generate s) hg hg')).1
      obtain rfl : i = (w, v) := by simpa using hi
      exact absurd (hpass.symm.trans hpass') (by simp)

/-- An open series whose source has ended returns nothing. -/
theorem Open.not_canReturn_cons (h : s.Open) (hg : s.generate n = some (.ok none, s')) :
    ¬ s.CanReturn (v :: vs) := by
  rintro ⟨s₂, hrun⟩
  cases hrun with
  | cons head _ =>
    obtain ⟨w, hg', -⟩ := h.next_iff.mp head
    exact absurd (Prod.mk.inj (Patient.unique (patient_generate s) hg hg')).1 (by simp)

/-- A held instance is returned, and then what the rest of the series returns. -/
theorem canReturn_held (hpending : s.pending = some u) :
    s.CanReturn vs ↔ vs = [] ∨ ∃ ws, vs = u :: ws ∧ { s with pending := none }.CanReturn ws :=
  canReturn_iff (n := 0) (by simp [next, hasNext, hpending])

/-- **After an instance has been judged**, a series returns it if it passed, and then what it
would return without it. -/
theorem Open.canReturn_judge (h : s.Open) (v u : Value) : (s.judge v u).2.CanReturn vs ↔
    vs = [] ∨ s.ending.passes (v, u) = true ∧ ∃ ws, vs = u :: ws ∧ s.CanReturn ws := by
  cases hpass : s.ending.passes (v, u) with
  | true =>
    rw [h.judge_of_passes hpass, canReturn_held rfl]
    simp only [take_of_pending_none h.pending, true_and]
  | false =>
    rw [h.judge_of_refused hpass, canReturn_iff_of_finished (by exact h.pending) (by rfl)]
    simp

/-- **An open series returns** the instances that it generates, up to the first one that its
ending refuses. -/
theorem Open.canReturn_iff (h : s.Open) : s.CanReturn vs ↔
    ∃ is, s.Generates is ∧ vs = (is.takeWhile s.ending.passes).map Prod.snd := by
  constructor
  · rintro ⟨s', hrun⟩
    induction hrun with
    | nil s => exact ⟨[], .nil s, rfl⟩
    | cons head _ ih =>
      obtain ⟨v, hg, hpass⟩ := h.next_iff.mp head
      obtain ⟨is, his, rfl⟩ := ih (h.draws (draws_of_generate hg))
      refine ⟨_, .cons hg his, ?_⟩
      rw [(draws_of_generate hg).ending, List.takeWhile_cons_of_pos hpass, List.map_cons]
  · rintro ⟨is, his, rfl⟩
    induction his with
    | nil s => exact s.canReturn_nil
    | @cons s s' i is n head tail ih =>
      cases hpass : s.ending.passes i with
      | true =>
        obtain ⟨s₂, hrun⟩ := ih (h.draws (draws_of_generate head))
        rw [(draws_of_generate head).ending] at hrun
        rw [List.takeWhile_cons_of_pos hpass, List.map_cons]
        exact ⟨s₂, .cons (h.next_iff.mpr ⟨i.1, head, hpass⟩) hrun⟩
      | false =>
        rw [List.takeWhile_cons_of_neg (by simp [hpass])]
        exact s.canReturn_nil

/-! ### Starting -/

/-- The instances that are left of a list when those before the start have been dropped. -/
def fromStart (startUtc : Value) (is : List (Value × Value)) : List (Value × Value) :=
  is.dropWhile fun i => i.2 < startUtc

theorem fromStart_cons_of_lt (h : i.2 < startUtc) :
    fromStart startUtc (i :: is) = fromStart startUtc is :=
  List.dropWhile_cons_of_pos (decide_eq_true h)

theorem fromStart_cons_of_not_lt (h : ¬ i.2 < startUtc) : fromStart startUtc (i :: is) = i :: is :=
  List.dropWhile_cons_of_neg (by simpa using h)

/-- **A series that starts** drops the instances before the start.  It returns those that follow,
up to the first one that its ending refuses. -/
theorem Open.canReturn_start (h : s.Open) {k : Nat}
    (hloop : loop (startTurn n startUtc) k s = some (.ok (), s₀)) : s₀.CanReturn vs ↔
      ∃ is, s.Generates is ∧
        vs = ((fromStart startUtc is).takeWhile s.ending.passes).map Prod.snd := by
  induction k generalizing s with
  | zero => simp [loop] at hloop
  | succ k ih =>
    rw [loop] at hloop
    cases ht : s.startTurn n startUtc with
    | none => simp [ht] at hloop
    | some t =>
      rw [ht] at hloop
      obtain ⟨answer, s₁, hg, ⟨e, rfl⟩ | ⟨rfl, rfl⟩ | ⟨v, u, rfl, hout⟩⟩ := startTurn_cases ht
      · simp at hloop
      · -- there is no instance from the start on
        obtain rfl : { s₁ with finished := true } = s₀ := by simpa using hloop
        have hnone := (draws_of_generate hg).pending.trans h.pending
        rw [canReturn_iff_of_finished (by exact hnone) (by rfl)]
        simp [generates_iff_of_none hg, fromStart]
      · have h₁ := h.draws (draws_of_generate hg)
        have hending := (draws_of_generate hg).ending
        rcases hout with ⟨hlt, rfl⟩ | ⟨hlt, rfl⟩
        · -- the instance is dropped, and those behind it are looked at
          rw [ih h₁ hloop, hending]
          constructor
          · rintro ⟨is, his, rfl⟩
            exact ⟨_, .cons hg his, by rw [fromStart_cons_of_lt hlt]⟩
          · rintro ⟨_, his, rfl⟩
            obtain rfl | ⟨is, rfl, his'⟩ := (generates_iff hg).mp his
            · exact ⟨[], .nil s₁, rfl⟩
            · exact ⟨is, his', by rw [fromStart_cons_of_lt hlt]⟩
        · obtain rfl : (s₁.judge v u).2 = s₀ := by simpa using hloop
          rw [h₁.canReturn_judge, hending]
          simp only [h₁.canReturn_iff, hending]
          constructor
          · rintro (rfl | ⟨hpass, _, rfl, is, his, rfl⟩)
            · exact ⟨[], .nil s, rfl⟩
            · refine ⟨_, .cons hg his, ?_⟩
              rw [fromStart_cons_of_not_lt hlt, List.takeWhile_cons_of_pos hpass, List.map_cons]
          · rintro ⟨_, his, rfl⟩
            obtain rfl | ⟨is, rfl, his'⟩ := (generates_iff hg).mp his
            · exact .inl rfl
            rw [fromStart_cons_of_not_lt hlt]
            cases hpass : s.ending.passes (v, u) with
            | true =>
              rw [List.takeWhile_cons_of_pos hpass, List.map_cons]
              exact .inr ⟨rfl, _, rfl, is, his', rfl⟩
            | false =>
              rw [List.takeWhile_cons_of_neg (by simp [hpass])]
              exact .inl rfl

end Series

/-! ### The instances of a rule -/

/-- Instances that the series of a rule generates one after another, from the first one on that is
not before the start.  The chain of the rule is filled before. -/
def Rule.Generates (r : Rule) (start : Value) (zone : Zone) (budget : Int)
    (is : List (Value × Value)) : Prop :=
  is = [] ∨ ∃ bound c startUtc js, Series.Fills bound r start budget c ∧
    start.toUtc zone = .ok startUtc ∧ (Series.unstarted r start zone c).Generates js ∧
    is = Series.fromStart startUtc js

/-- The ending has no part in the instances of a rule. -/
theorem Rule.Generates.withEnd {r : Rule} {start : Value} {zone : Zone} {budget : Int}
    (h : r.Generates start zone budget is) (count : Option Int) (last : Option Value) :
    (r.withEnd count last).Generates start zone budget is := by
  refine h.imp_right ?_
  rintro ⟨bound, c, startUtc, js, hfills, hutc, hjs, his⟩
  refine ⟨bound, c, startUtc, js, ?_, hutc, hjs.withEnd (r := r.withEnd count last) ⟨rfl, rfl⟩ _, his⟩
  unfold Series.Fills at hfills ⊢
  rw [plan_withEnd]
  exact hfills

/-- **A new series returns** the instances of its rule, up to the first one that the ending
refuses. -/
theorem Series.create_canReturn_iff {r : Rule} {start : Value} {zone : Zone} {budget : Int}
    (hcreate : create n r start zone budget = some (.ok s₀)) (hsteady : (Ending.ofRule r).Steady) :
    s₀.CanReturn vs ↔ ∃ is, r.Generates start zone budget is ∧
      vs = (is.takeWhile (Ending.ofRule r).passes).map Prod.snd := by
  rcases create_cases hcreate with ⟨⟨c, rfl⟩, hnever⟩ | ⟨c, startUtc, hfills, hutc, hloop⟩
  · rw [canReturn_iff_of_finished rfl rfl]
    constructor
    · rintro rfl
      exact ⟨[], .inl rfl, rfl⟩
    · rintro ⟨is, rfl | ⟨m, c', -, -, hfills, -⟩, rfl⟩
      · rfl
      · exact absurd hfills (hnever m c')
  · have hopen : (unstarted r start zone c).Open := ⟨rfl, rfl, hsteady⟩
    rw [hopen.canReturn_start hloop]
    constructor
    · rintro ⟨js, hjs, rfl⟩
      exact ⟨_, .inr ⟨n, c, startUtc, js, hfills, hutc, hjs, rfl⟩, rfl⟩
    · rintro ⟨is, rfl | ⟨m, c', startUtc', js, hfills', hutc', hjs, rfl⟩, rfl⟩
      · exact ⟨[], .nil _, rfl⟩
      · obtain ⟨-, rfl⟩ :=
          Prod.mk.inj (Patient.unique (patient_candidatesRun _ _ _) hfills'.2 hfills.2)
        obtain rfl : startUtc' = startUtc := Except.ok.inj (hutc'.symm.trans hutc)
        exact ⟨js, hjs, rfl⟩

/-! ### Growth -/

namespace Supply

/-- What an instance is known to be that is generated while the values with `R` are awaited. -/
structure Awaited (s : Series) (R : Value → Prop) (i : Value × Value) : Prop where
  real : i.1.IsReal ∧ i.2.IsReal
  hasTime : i.1.hasTime = s.hasTime ∧ i.2.hasTime = s.hasTime
  utc : i.1.toUtc s.zone = .ok i.2
  low : ∀ m, LowFrom s.hasTime R m → m ≤ i.1.instant
  after : ∀ k ∈ s.lastKey, k < i.2.key

theorem Awaited.instant_lt (h : Awaited s (v < ·) i) (hv : v.IsReal) (hkind : v.hasTime = s.hasTime) :
    v.instant < i.1.instant := by
  have hlow := lowFrom_after hv
  rw [hkind] at hlow
  exact h.low _ hlow

/-- What is generated has been awaited, and what comes after it is awaited next. -/
theorem Stocked.awaited (h : S.Stocked s R) (hg : s.generate n = some (.ok (some i), s')) :
    Awaited s R i ∧ s.SameRule s' ∧ s'.lastKey = some i.2.key ∧ S.Stocked s' (i.1 < ·) := by
  obtain ⟨b, hsettles, a, hb, hdraws, -, hout⟩ := h.generate
  obtain rfl := Patient.eq_of_settles (Series.patient_generate s) hsettles hg
  obtain ⟨v, u, rfl, hv, hu, hutc, hlow, hstocked⟩ := hout.resolve_right fun ha => by simp [ha] at hb
  obtain rfl : i = (v, u) := by simpa using hb
  obtain ⟨hlast, hafter⟩ := Series.lastKey_of_generate hg
  exact ⟨⟨⟨hv.1, hu.1⟩, ⟨hv.2, hu.2⟩, hutc, hlow, hafter⟩, hdraws.toSameRule, hlast, hstocked⟩

/-- All that is generated is later than what has been awaited and than the last instance. -/
theorem Stocked.forall_awaited (h : S.Stocked s R) (hg : s.Generates is) :
    ∀ i ∈ is, Awaited s R i := by
  induction hg generalizing R with
  | nil s => simp
  | @cons s s' i is n head tail ih =>
    obtain ⟨hi, hrule, hlast, hstocked⟩ := h.awaited head
    refine List.forall_mem_cons.mpr ⟨hi, fun j hj => ?_⟩
    have hj := ih hstocked j hj
    have hlt := hj.instant_lt hi.real.1 (hi.hasTime.1.trans hrule.hasTime.symm)
    refine ⟨hj.real, hrule.hasTime ▸ hj.hasTime, hrule.zone ▸ hj.utc, fun m hm => ?_, fun k hk => ?_⟩
    · have := hi.low m hm
      omega
    · exact (hi.after k hk).trans (hj.after _ hlast)

/-- **Along a run** the local values grow, and so do the UTC values. -/
theorem Stocked.ascends (h : S.Stocked s R) (hg : s.Generates is) :
    is.Pairwise fun i j => i.1 < j.1 ∧ i.2 < j.2 := by
  induction hg generalizing R with
  | nil s => exact .nil
  | @cons s s' i is n head tail ih =>
    obtain ⟨hi, hrule, hlast, hstocked⟩ := h.awaited head
    have hkind := hrule.hasTime
    refine List.pairwise_cons.mpr ⟨fun j hj => ?_, ih hstocked⟩
    have hj := hstocked.forall_awaited tail j hj
    have hlocal : i.1.hasTime = j.1.hasTime := by rw [hi.hasTime.1, hj.hasTime.1, hkind]
    have hutc : i.2.hasTime = j.2.hasTime := by rw [hi.hasTime.2, hj.hasTime.2, hkind]
    exact ⟨(Value.lt_iff_instant hi.real.1 hj.real.1 hlocal).mpr
      (hj.instant_lt hi.real.1 (hi.hasTime.1.trans hkind.symm)),
      (Value.lt_iff_key hutc).mpr (hj.after _ hlast)⟩

/-- A series whose chain has just been filled is stocked. -/
theorem Begins.stocked {r : Rule} {start : Value} {budget : Int} {c : Candidates}
    (h : S.Begins r start budget) (hfills : Series.Fills n r start budget c) (zone : Zone) :
    ∃ R, S.Stocked (Series.unstarted r start zone c) R := by
  rcases h.run with ⟨c', R, m, hrun, hawaits, -, -, hlow⟩ | ⟨c', hrun, -⟩
  · obtain ⟨-, rfl⟩ := Prod.mk.inj
      (Patient.eq_of_settles (Series.patient_candidatesRun _ _ _) hrun hfills.2)
    exact ⟨R, h.lawful, hawaits, ⟨m, hlow⟩, by rintro k ⟨⟩⟩
  · exact absurd (Patient.eq_of_settles (Series.patient_candidatesRun _ _ _) hrun hfills.2)
      (by simp)

end Supply

end Recurrence
