/-
Recurrence/Proofs/Series/Steps.lean

What each operation of a series can do.

For every operation one lemma lists its outcomes, with the answer of the operation
below that leads to each of them.  Whatever the operations keep is proved from these
lists, for any bound, without looking into the operations again.
-/
import Recurrence.Proofs.Series.Patience

namespace Recurrence

/-! ### Selecting -/

theorem mem_of_mem_selectPositions {α : Type} {positions : List Int} {candidates : List α} {x : α}
    (h : x ∈ selectPositions positions candidates) : x ∈ candidates := by
  obtain ⟨i, -, hi⟩ := List.mem_filterMap.mp h
  rw [List.getElem?_toArray] at hi
  exact List.mem_of_getElem? hi

namespace Selection

variable {σ α ε κ : Type} [DecidableEq κ] {next : NextOf σ α ε} {credit : σ → σ} {key : α → κ}
  {s s' : Selection σ α} {n : Nat}

/-- Gathering fails, ends, or sees one more candidate, which may open the next period. -/
theorem gatherTurn_cases {k : κ} {g : Gathering σ α}
    {t : Turn (Gathering σ α) (Except ε (Period σ α) × σ)}
    (h : gatherTurn next key k g = some t) : ∃ answer src, next g.source = some (answer, src) ∧
      ((∃ e, answer = .error e ∧ t = .done (.error e, src)) ∨
        (answer = .ok none ∧ t = .done (.ok ⟨src, g.kept.reverse, none⟩, src)) ∨
        ∃ v, answer = .ok (some v) ∧
          (key v ≠ k ∧ t = .done (.ok ⟨src, g.kept.reverse, some v⟩, src) ∨
            key v = k ∧ ∃ kept room, (kept = g.kept ∨ kept = v :: g.kept) ∧
              t = .again ⟨src, kept, room⟩)) := by
  unfold gatherTurn at h
  cases hn : next g.source with
  | none => simp [hn] at h
  | some b =>
    obtain ⟨answer, src⟩ := b
    refine ⟨answer, src, rfl, ?_⟩
    rw [hn] at h
    match answer, h with
    | .error e, h => exact .inl ⟨e, rfl, (Option.some.inj h).symm⟩
    | .ok none, h => exact .inr (.inl ⟨rfl, (Option.some.inj h).symm⟩)
    | .ok (some v), h =>
      refine .inr (.inr ⟨v, rfl, ?_⟩)
      by_cases hk : key v = k
      · simp only [hk, ne_eq, not_true, if_false] at h
        refine .inr ⟨hk, ?_⟩
        match hroom : g.room, h with
        | none, h => exact ⟨_, _, .inr rfl, (Option.some.inj h).symm⟩
        | some 0, h => exact ⟨_, _, .inl rfl, (Option.some.inj h).symm⟩
        | some (m + 1), h => exact ⟨_, _, .inr rfl, (Option.some.inj h).symm⟩
      · simp only [hk, ne_eq, not_false_eq_true, if_true] at h
        exact .inl ⟨hk, (Option.some.inj h).symm⟩

/-- Collecting fails, finds no first candidate, or gathers the period of the first one. -/
theorem collect_cases {a : Except ε (List α)} (h : s.collect next key n = some (a, s')) :
    ∃ answer src, s.first next = some (answer, src) ∧
      ((∃ e, answer = .error e ∧ a = .error e ∧ s' = { s with source := src, heldBack := none }) ∨
        (answer = .ok none ∧ a = .ok [] ∧ s' = { s with source := src, heldBack := none }) ∨
        ∃ v room b src', answer = .ok (some v) ∧
          loop (gatherTurn next key (key v)) n ⟨src, [v], room⟩ = some (b, src') ∧
          ((∃ e, b = .error e ∧ a = .error e ∧ s' = { s with source := src', heldBack := none }) ∨
            ∃ p, b = .ok p ∧ a = .ok p.candidates ∧ s' = { s with
              source := p.source, heldBack := p.following,
              finished := s.finished || p.following.isNone })) := by
  unfold collect at h
  cases hf : s.first next with
  | none => simp [hf] at h
  | some b =>
    obtain ⟨answer, src⟩ := b
    refine ⟨answer, src, rfl, ?_⟩
    rw [hf] at h
    match answer, h with
    | .error e, h =>
      obtain ⟨ha, hs⟩ := Prod.mk.inj (Option.some.inj h)
      exact .inl ⟨e, rfl, ha.symm, hs.symm⟩
    | .ok none, h =>
      obtain ⟨ha, hs⟩ := Prod.mk.inj (Option.some.inj h)
      exact .inr (.inl ⟨rfl, ha.symm, hs.symm⟩)
    | .ok (some v), h =>
      dsimp only at h
      cases hloop : loop (gatherTurn next key (key v)) n
          ⟨src, [v], (keptOfPeriod s.positions).map fun n => n - 1⟩ with
      | none => simp [hloop] at h
      | some b =>
        obtain ⟨b, src'⟩ := b
        rw [hloop] at h
        refine .inr (.inr ⟨v, _, b, src', rfl, hloop, ?_⟩)
        cases b with
        | error e =>
          obtain ⟨ha, hs⟩ := Prod.mk.inj (Option.some.inj h)
          exact .inl ⟨e, rfl, ha.symm, hs.symm⟩
        | ok p =>
          obtain ⟨ha, hs⟩ := Prod.mk.inj (Option.some.inj h)
          exact .inr ⟨p, rfl, ha.symm, hs.symm⟩

/-- A candidate that waits is handed out, or a period is gathered. -/
theorem turn_cases {t : Turn (Selection σ α) (Except ε (Option α) × Selection σ α)}
    (h : s.turn next credit key n = some t) :
    (∃ v pending, s.pending = v :: pending ∧ t = .done (.ok (some v), { s with pending })) ∨
      s.pending = [] ∧
        ((s.finished = true ∧ t = .done (.ok none, s)) ∨
          s.finished = false ∧ ∃ answer s₁, s.collect next key n = some (answer, s₁) ∧
            ((∃ e, answer = .error e ∧ t = .done (.error e, s₁)) ∨
              ∃ found, answer = .ok found ∧
                ((t = .done (.ok none, { s₁ with finished := true }) ∧
                    (found = [] ∨ selectPositions s₁.positions found = [] ∧ s₁.uniform = true)) ∨
                  found ≠ [] ∧
                    ((selectPositions s₁.positions found = [] ∧ t = .again s₁) ∨
                      selectPositions s₁.positions found ≠ [] ∧ t = .again { s₁ with
                        pending := selectPositions s₁.positions found
                        source := credit s₁.source })))) := by
  unfold turn at h
  cases hp : s.pending with
  | cons v pending =>
    rw [hp] at h
    exact .inl ⟨v, pending, rfl, (Option.some.inj h).symm⟩
  | nil =>
    rw [hp] at h
    refine .inr ⟨rfl, ?_⟩
    dsimp only at h
    cases hfinished : s.finished with
    | true =>
      rw [hfinished] at h
      exact .inl ⟨rfl, (Option.some.inj h).symm⟩
    | false =>
      rw [hfinished, if_neg (by simp)] at h
      refine .inr ⟨rfl, ?_⟩
      cases hc : s.collect next key n with
      | none => simp [hc] at h
      | some b =>
        obtain ⟨answer, s₁⟩ := b
        refine ⟨answer, s₁, rfl, ?_⟩
        rw [hc] at h
        cases answer with
        | error e => exact .inl ⟨e, rfl, (Option.some.inj h).symm⟩
        | ok found =>
          refine .inr ⟨found, rfl, ?_⟩
          dsimp only at h
          by_cases hempty : found.isEmpty = true
          · rw [if_pos hempty] at h
            exact .inl ⟨(Option.some.inj h).symm, .inl (List.isEmpty_iff.mp hempty)⟩
          · rw [if_neg hempty] at h
            rw [List.isEmpty_iff] at hempty
            cases hsel : selectPositions s₁.positions found with
            | nil =>
              rw [hsel] at h
              dsimp only at h
              split_ifs at h with huniform
              · exact .inl ⟨(Option.some.inj h).symm, .inr ⟨rfl, huniform⟩⟩
              · exact .inr ⟨hempty, .inl ⟨rfl, (Option.some.inj h).symm⟩⟩
            | cons w ws =>
              rw [hsel] at h
              exact .inr ⟨hempty, .inr ⟨by simp, (Option.some.inj h).symm⟩⟩

end Selection

namespace Series

variable {s s' : Series} {n : Nat}

/-! ### What no operation changes -/

/-- What no operation changes about a series. -/
structure SameRule (s s' : Series) : Prop where
  rule : s'.rule = s.rule
  start : s'.start = s.start
  zone : s'.zone = s.zone

theorem SameRule.refl (s : Series) : s.SameRule s := ⟨rfl, rfl, rfl⟩

theorem SameRule.trans {s'' : Series} (h : s.SameRule s') (h' : s'.SameRule s'') :
    s.SameRule s'' :=
  ⟨h'.rule.trans h.rule, h'.start.trans h.start, h'.zone.trans h.zone⟩

theorem SameRule.hasTime (h : s.SameRule s') : s'.hasTime = s.hasTime := by
  rw [Series.hasTime, Series.hasTime, h.start]

theorem SameRule.skipsMonths (h : s.SameRule s') : s'.skipsMonths = s.skipsMonths := by
  rw [Series.skipsMonths, Series.skipsMonths, h.rule]

/-- What looking for an instance does not change. -/
structure Draws (s s' : Series) : Prop extends s.SameRule s' where
  ending : s'.ending = s.ending
  pending : s'.pending = s.pending
  finished : s'.finished = s.finished

theorem Draws.refl (s : Series) : s.Draws s := ⟨.refl s, rfl, rfl, rfl⟩

theorem Draws.trans {s'' : Series} (h : s.Draws s') (h' : s'.Draws s'') : s.Draws s'' :=
  ⟨h.toSameRule.trans h'.toSameRule, h'.ending.trans h.ending, h'.pending.trans h.pending,
    h'.finished.trans h.finished⟩

/-! ### Generating -/

/-- The source fails or ends, or its value is dropped unless it comes after the last key in UTC. -/
theorem attempt_cases {t : Turn Series (Except SeriesError (Option (Value × Value)) × Series)}
    (h : s.attempt n = some t) :
    ∃ answer src, s.source.next s.rule n = some (answer, src) ∧
      (((∃ e, t = .done (.error e, { s with source := src })) ∧
          ((∃ why, answer = .error why) ∨
            ∃ v e, answer = .ok (some v) ∧ v.toUtc s.zone = .error e)) ∨
        (answer = .ok none ∧ t = .done (.ok none, { s with source := src })) ∨
        ∃ v, answer = .ok (some v) ∧
          (t = .again { s with source := src } ∨
            ∃ u, v.toUtc s.zone = .ok u ∧ (∀ k ∈ s.lastKey, k < u.key) ∧
              t = .done (.ok (some (v, u)),
                { s with source := src, lastKey := some u.key }))) := by
  unfold attempt at h
  cases hnext : s.source.next s.rule n with
  | none => simp [hnext] at h
  | some a =>
    obtain ⟨answer, src⟩ := a
    refine ⟨answer, src, rfl, ?_⟩
    rw [hnext] at h
    match answer, h with
    | .error why, h => exact .inl ⟨⟨_, (Option.some.inj h).symm⟩, .inl ⟨why, rfl⟩⟩
    | .ok none, h => exact .inr (.inl ⟨rfl, (Option.some.inj h).symm⟩)
    | .ok (some v), h =>
      dsimp only at h
      cases hutc : v.toUtc s.zone with
      | error e =>
        rw [hutc] at h
        exact .inl ⟨⟨_, (Option.some.inj h).symm⟩, .inr ⟨v, e, rfl, hutc⟩⟩
      | ok u =>
        rw [hutc] at h
        refine .inr (.inr ⟨v, rfl, ?_⟩)
        cases hlast : s.lastKey with
        | none =>
          rw [hlast] at h
          exact .inr ⟨u, hutc, by simp, (Option.some.inj h).symm⟩
        | some k =>
          rw [hlast] at h
          dsimp only at h
          split_ifs at h with hlt
          · refine .inr ⟨u, hutc, ?_, (Option.some.inj h).symm⟩
            rintro _ ⟨⟩
            exact hlt
          · exact .inl (Option.some.inj h).symm

section Attempts

variable {v u : Value} {src : InstanceSource}

/-- A value whose UTC value comes after the last key is the next instance. -/
theorem settles_attempt_new
    (hnext : Settles (fun n => s.source.next s.rule n) (.ok (some v), src))
    (hutc : v.toUtc s.zone = .ok u) (hnew : ∀ k ∈ s.lastKey, k < u.key) :
    Settles (fun n => s.attempt n)
      (.done (.ok (some (v, u)), { s with source := src, lastKey := some u.key })) := by
  filter_upwards [hnext] with n hn
  simp only [attempt, hn, hutc]
  cases hlast : s.lastKey with
  | none => rfl
  | some k => exact if_pos (hnew k hlast)

/-- A value whose UTC value does not come after the last key is dropped. -/
theorem settles_attempt_old
    (hnext : Settles (fun n => s.source.next s.rule n) (.ok (some v), src))
    (hutc : v.toUtc s.zone = .ok u) {k : List Int} (hlast : s.lastKey = some k)
    (hold : ¬ k < u.key) : Settles (fun n => s.attempt n) (.again { s with source := src }) := by
  filter_upwards [hnext] with n hn
  simp only [attempt, hn, hutc, hlast, hold, if_false]

/-- Where the source has no value left, there is no next instance. -/
theorem settles_attempt_none
    (hnext : Settles (fun n => s.source.next s.rule n) (.ok none, src)) :
    Settles (fun n => s.attempt n) (.done (.ok none, { s with source := src })) := by
  filter_upwards [hnext] with n hn
  simp only [attempt, hn]

end Attempts

/-- Looking for an instance changes the source and the last key alone. -/
theorem draws_of_generate {a : Except SeriesError (Option (Value × Value))}
    (h : s.generate n = some (a, s')) : s.Draws s' := by
  refine loop_invariant (P := s.Draws) (Q := fun b => s.Draws b.2) ?_ ?_ (.refl s) h
  · intro s₁ s₂ hs ht
    obtain ⟨_, src, -, ⟨⟨e, h⟩, -⟩ | ⟨-, h⟩ | ⟨v, -, h | ⟨u, -, -, h⟩⟩⟩ :=
      attempt_cases ht <;>
      simp only [reduceCtorEq, Turn.again.injEq] at h
    rw [h]
    exact hs.trans ⟨⟨rfl, rfl, rfl⟩, rfl, rfl, rfl⟩
  · intro s₁ b hs ht
    obtain ⟨_, src, -, ⟨⟨e, h⟩, -⟩ | ⟨-, h⟩ | ⟨v, -, h | ⟨u, -, -, h⟩⟩⟩ :=
      attempt_cases ht <;>
      simp only [reduceCtorEq, Turn.done.injEq] at h <;> rw [h] <;>
      exact hs.trans ⟨⟨rfl, rfl, rfl⟩, rfl, rfl, rfl⟩

/-! ### Judging -/

theorem judge_eq (s : Series) (v u : Value) : s.judge v u =
    if (s.ending.check v u).1 = true then
      (true, { s with ending := (s.ending.check v u).2, pending := some u })
    else (false, { s with ending := (s.ending.check v u).2, finished := true }) := rfl

theorem sameRule_judge (s : Series) (v u : Value) : s.SameRule (s.judge v u).2 := by
  rw [judge_eq]
  split_ifs <;> exact ⟨rfl, rfl, rfl⟩

@[simp] theorem judge_source (s : Series) (v u : Value) : (s.judge v u).2.source = s.source := by
  rw [judge_eq]
  split_ifs <;> rfl

@[simp] theorem judge_lastKey (s : Series) (v u : Value) :
    (s.judge v u).2.lastKey = s.lastKey := by
  rw [judge_eq]
  split_ifs <;> rfl

/-! ### Stepping -/

/-- An instance is held or the series has stopped, or one is looked for: there is none,
or it is judged. -/
theorem hasNext_cases {a : Except SeriesError Bool} (h : s.hasNext n = some (a, s')) :
    ((s.pending.isSome ∨ s.finished = true) ∧ s' = s) ∨
      s.pending = none ∧ s.finished = false ∧ ∃ answer s₁, s.generate n = some (answer, s₁) ∧
        ((∃ e, answer = .error e ∧ s' = s₁) ∨
          (answer = .ok none ∧ s' = { s₁ with finished := true }) ∨
          ∃ v u, answer = .ok (some (v, u)) ∧ s' = (s₁.judge v u).2) := by
  unfold hasNext at h
  split_ifs at h with hcond
  · obtain ⟨hpending, hfinished⟩ : s.pending = none ∧ s.finished = false := by simpa using hcond
    refine .inr ⟨hpending, hfinished, ?_⟩
    cases hg : s.generate n with
    | none => simp [hg] at h
    | some b =>
      obtain ⟨answer, s₁⟩ := b
      refine ⟨answer, s₁, rfl, ?_⟩
      rw [hg] at h
      match answer, h with
      | .error e, h => exact .inl ⟨e, rfl, (Prod.mk.inj (Option.some.inj h)).2.symm⟩
      | .ok none, h => exact .inr (.inl ⟨rfl, (Prod.mk.inj (Option.some.inj h)).2.symm⟩)
      | .ok (some (v, u)), h =>
        exact .inr (.inr ⟨v, u, rfl, (Prod.mk.inj (Option.some.inj h)).2.symm⟩)
  · refine .inl ⟨?_, (Prod.mk.inj (Option.some.inj h)).2.symm⟩
    cases hp : s.pending with
    | none => simpa [hp] using hcond
    | some p => exact .inl rfl

theorem sameRule_of_hasNext {a : Except SeriesError Bool} (h : s.hasNext n = some (a, s')) :
    s.SameRule s' := by
  rcases hasNext_cases h with ⟨-, rfl⟩ | ⟨-, -, answer, s₁, hg, hout⟩
  · exact .refl _
  have hrule := (draws_of_generate hg).toSameRule
  rcases hout with ⟨e, -, rfl⟩ | ⟨-, rfl⟩ | ⟨v, u, -, rfl⟩
  · exact hrule
  · exact hrule.trans ⟨rfl, rfl, rfl⟩
  · exact hrule.trans (sameRule_judge s₁ v u)

/-- Where nothing is held, nothing is taken away. -/
theorem take_of_pending_none (hp : s.pending = none) : { s with pending := none } = s := by rw [← hp]

/-- Stepping hands out what is held after looking for an instance. -/
theorem next_cases {a : Except SeriesError Value} (h : s.next n = some (a, s')) :
    ∃ b s₁, s.hasNext n = some (b, s₁) ∧
      ((∃ e, a = .error e ∧ s' = s₁) ∨
        ∃ v, a = .ok v ∧ s₁.pending = some v ∧ s' = { s₁ with pending := none }) := by
  unfold next at h
  cases hn : s.hasNext n with
  | none => simp [hn] at h
  | some b =>
    obtain ⟨b, s₁⟩ := b
    refine ⟨b, s₁, rfl, ?_⟩
    rw [hn] at h
    cases b with
    | error e =>
      obtain ⟨ha, hs⟩ := Prod.mk.inj (Option.some.inj h)
      exact .inl ⟨e, ha.symm, hs.symm⟩
    | ok b =>
      dsimp only at h
      cases hp : s₁.pending with
      | none =>
        rw [hp] at h
        obtain ⟨ha, hs⟩ := Prod.mk.inj (Option.some.inj h)
        exact .inl ⟨_, ha.symm, hs.symm⟩
      | some v =>
        rw [hp] at h
        obtain ⟨ha, hs⟩ := Prod.mk.inj (Option.some.inj h)
        exact .inr ⟨v, ha.symm, rfl, hs.symm⟩

theorem sameRule_of_next {a : Except SeriesError Value} (h : s.next n = some (a, s')) :
    s.SameRule s' := by
  obtain ⟨b, s₁, hlook, ⟨e, -, rfl⟩ | ⟨v, -, -, rfl⟩⟩ := next_cases h
  · exact sameRule_of_hasNext hlook
  · exact (sameRule_of_hasNext hlook).trans ⟨rfl, rfl, rfl⟩

/-- What stepping comes to once an instance has been looked for. -/
def stepOf (s : Series) : Except SeriesError Value × Series :=
  match s.pending with
  | some v => (.ok v, { s with pending := none })
  | none => (.error (.noMoreInstances (some s.rule.text)), s)

theorem next_of_hasNext {b : Bool} (h : s.hasNext n = some (.ok b, s')) :
    s.next n = some s'.stepOf := by
  simp only [next, h, stepOf]
  cases s'.pending <;> rfl

/-! ### Starting -/

theorem startTurn_cases {startUtc : Value} {t : Turn Series (Except SeriesError Unit × Series)}
    (h : s.startTurn n startUtc = some t) :
    ∃ answer s₁, s.generate n = some (answer, s₁) ∧
      ((∃ e, t = .done (.error e, s₁)) ∨
        (answer = .ok none ∧ t = .done (.ok (), { s₁ with finished := true })) ∨
        ∃ v u, answer = .ok (some (v, u)) ∧
          (u < startUtc ∧ t = .again s₁ ∨ ¬ u < startUtc ∧ t = .done (.ok (), (s₁.judge v u).2))) := by
  unfold startTurn at h
  cases hg : s.generate n with
  | none => simp [hg] at h
  | some b =>
    obtain ⟨answer, s₁⟩ := b
    refine ⟨answer, s₁, rfl, ?_⟩
    rw [hg] at h
    match answer, h with
    | .error e, h => exact .inl ⟨e, (Option.some.inj h).symm⟩
    | .ok none, h => exact .inr (.inl ⟨rfl, (Option.some.inj h).symm⟩)
    | .ok (some (v, u)), h =>
      dsimp only at h
      refine .inr (.inr ⟨v, u, rfl, ?_⟩)
      split_ifs at h with hlt
      · exact .inl ⟨hlt, (Option.some.inj h).symm⟩
      · exact .inr ⟨hlt, (Option.some.inj h).symm⟩

/-- The first run of a rule's chain fills all fields but the finest. -/
def Fills (n : Nat) (r : Rule) (start : Value) (budget : Int) (c : Candidates) : Prop :=
  (Plan.ofRule r start (listStart r start) budget).reachable = true ∧
    (candidates r start (Plan.ofRule r start (listStart r start) budget)).run n
      ((candidates r start (Plan.ofRule r start (listStart r start) budget)).chain.length - 1) 0 =
        some (.value, c)

/-- A series over new candidates has stopped already if the first run does not fill the chain.
Otherwise instances before its start have been dropped. -/
theorem ofCandidates_cases {r : Rule} {start : Value} {zone : Zone} {c : Candidates}
    (h : ofCandidates n r start zone c = some (.ok s)) :
    ((∃ c', s = { unstarted r start zone c' with finished := true }) ∧
        ∀ m c', c.run m (c.chain.length - 1) 0 ≠ some (.value, c')) ∨
      ∃ c' startUtc, c.run n (c.chain.length - 1) 0 = some (.value, c') ∧
        start.toUtc zone = .ok startUtc ∧
        loop (startTurn n startUtc) n (unstarted r start zone c') = some (.ok (), s) := by
  unfold ofCandidates at h
  cases hrun : c.run n (c.chain.length - 1) 0 with
  | none => simp [hrun] at h
  | some b =>
    obtain ⟨step, c'⟩ := b
    -- no other bound fills a chain that this one does not
    have hother : step ≠ .value → ∀ m c'', c.run m (c.chain.length - 1) 0 ≠ some (.value, c'') :=
      fun hstep m c'' hfills =>
        hstep (Prod.mk.inj (Patient.unique (patient_candidatesRun c _ 0) hrun hfills)).1
    rw [hrun] at h
    match step, h with
    | .undefined why, h => simp at h
    | .rollover, h | .halt, h =>
      exact .inl ⟨⟨c', (Except.ok.inj (Option.some.inj h)).symm⟩, hother (by simp)⟩
    | .value, h =>
      dsimp only at h
      cases hutc : start.toUtc zone with
      | error e => simp [hutc] at h
      | ok startUtc =>
        rw [hutc] at h
        dsimp only at h
        refine .inr ⟨c', startUtc, rfl, rfl, ?_⟩
        cases hloop : loop (startTurn n startUtc) n (unstarted r start zone c') with
        | none => simp [hloop] at h
        | some b =>
          obtain ⟨b, s'⟩ := b
          rw [hloop] at h
          cases b with
          | error e => simp at h
          | ok _ =>
            obtain rfl := Except.ok.inj (Option.some.inj h)
            rfl

/-- A new series has stopped already if its chain cannot be filled.  Otherwise instances before
its start have been dropped. -/
theorem create_cases {r : Rule} {start : Value} {zone : Zone} {budget : Int}
    (h : create n r start zone budget = some (.ok s)) :
    ((∃ c, s = { unstarted r start zone c with finished := true }) ∧
        ∀ m c, ¬ Fills m r start budget c) ∨
      ∃ c startUtc, Fills n r start budget c ∧ start.toUtc zone = .ok startUtc ∧
        loop (startTurn n startUtc) n (unstarted r start zone c) = some (.ok (), s) := by
  unfold create at h
  dsimp only at h
  unfold Fills
  generalize Plan.ofRule r start (listStart r start) budget = plan at h ⊢
  split_ifs at h with hsub hreach
  · simp at h
  · refine .inl ⟨⟨_, (Except.ok.inj (Option.some.inj h)).symm⟩, fun m c hfills => ?_⟩
    simp [hfills.1] at hreach
  · rcases ofCandidates_cases h with ⟨hstopped, hnever⟩ | ⟨c, startUtc, hrun, hutc, hloop⟩
    · exact .inl ⟨hstopped, fun m c hfills => hnever m c hfills.2⟩
    · exact .inr ⟨c, startUtc, ⟨by simpa using hreach, hrun⟩, hutc, hloop⟩

/-! ### Runs -/

/-- A series returns values one after another and is left in some state. -/
inductive Returns : Series → List Value → Series → Prop where
  | nil (s : Series) : Returns s [] s
  | cons {s s' s'' : Series} {v : Value} {vs : List Value} {bound : Nat}
      (head : s.next bound = some (.ok v, s')) (tail : Returns s' vs s'') :
      Returns s (v :: vs) s''

theorem Returns.append {vs ws : List Value} {s s' s'' : Series} (h : Returns s vs s')
    (h' : Returns s' ws s'') : Returns s (vs ++ ws) s'' := by
  induction h with
  | nil s => exact h'
  | cons head _ ih => exact .cons head (ih h')

/-- A series is asked for its next instance, has none, and is left in some state. -/
def Ends (s s' : Series) : Prop :=
  ∃ bound, s.next bound = some (.error (.noMoreInstances (some s.rule.text)), s')

/-- Asked for its next instance, a series returns one, or it ends. -/
def Proceeds (s : Series) : Prop :=
  (∃ v s', Settles (fun n => s.next n) (.ok v, s')) ∨ ∃ s', s.Ends s'

/-! ### Runs that are computed -/

/-- All that a series returns, if it ends after fewer than `k` instances. -/
def wholeRun (bound : Nat) : Nat → Series → Option (List Value)
  | 0, _ => none
  | k + 1, s => match s.next bound with
    | some (.ok v, s') => (wholeRun bound k s').map (v :: ·)
    | some (.error (.noMoreInstances (some text)), _) => if text = s.rule.text then some [] else none
    | _ => none

/-- All that a new series returns. -/
def wholeRunOf (bound k : Nat) (r : Rule) (start : Value) (zone : Zone) (budget : Int) :
    Option (List Value) :=
  match create bound r start zone budget with
  | some (.ok s) => wholeRun bound k s
  | _ => none

theorem returns_of_wholeRun {bound k : Nat} {vs : List Value} (h : wholeRun bound k s = some vs) :
    ∃ s' s'', s.Returns vs s' ∧ s'.Ends s'' := by
  induction k generalizing s vs with
  | zero => exact absurd h (by simp [wholeRun])
  | succ k ih =>
    unfold wholeRun at h
    split at h
    · next v s₁ hn =>
      obtain ⟨ws, hws, rfl⟩ := Option.map_eq_some_iff.mp h
      obtain ⟨s', s'', hrun, hend⟩ := ih hws
      exact ⟨s', s'', .cons hn hrun, hend⟩
    · next text s₁ hn =>
      split_ifs at h with htext
      obtain rfl := Option.some.inj h
      exact ⟨s, s₁, .nil s, bound, by rw [hn, htext]⟩
    · exact absurd h (by simp)

theorem returns_of_wholeRunOf {bound k : Nat} {r : Rule} {start : Value} {zone : Zone} {budget : Int}
    {vs : List Value} (h : wholeRunOf bound k r start zone budget = some vs) :
    ∃ s₀ s s', create bound r start zone budget = some (.ok s₀) ∧ s₀.Returns vs s ∧ s.Ends s' := by
  unfold wholeRunOf at h
  split at h
  · next s₀ hc =>
    obtain ⟨s, s', hrun, hend⟩ := returns_of_wholeRun h
    exact ⟨s₀, s, s', hc, hrun, hend⟩
  · exact absurd h (by simp)

/-- The first `k` instances that a series returns, and the state after them. -/
def firstRun (bound : Nat) : Nat → Series → Option (List Value × Series)
  | 0, s => some ([], s)
  | k + 1, s => match s.next bound with
    | some (.ok v, s') => (firstRun bound k s').map fun (vs, s) => (v :: vs, s)
    | _ => none

theorem returns_of_firstRun {bound k : Nat} {vs : List Value} (h : firstRun bound k s = some (vs, s')) :
    s.Returns vs s' := by
  induction k generalizing s vs with
  | zero =>
    obtain ⟨rfl, rfl⟩ := Prod.mk.inj (Option.some.inj h)
    exact .nil s
  | succ k ih =>
    unfold firstRun at h
    split at h
    · next v s₁ hnext =>
      obtain ⟨⟨ws, s₂⟩, hrun, hws⟩ := Option.map_eq_some_iff.mp h
      obtain ⟨rfl, rfl⟩ := Prod.mk.inj hws
      exact .cons hnext (ih hrun)
    · exact absurd h (by simp)

end Series

end Recurrence
