/-
Recurrence/Proofs/Series/Counted.lean

Counted series beside uncounted ones.

A count has no part in generating instances.  So the series of a rule with a count does what the
series of the rule without it does, and keeps count beside it, as long as the count has not been
used up (`Series.counted`).  Then it stops with the next instance.  What it plays are the first
instances of the other (`Series.Plays.counted`).
-/
import Recurrence.Proofs.Series.Instances
import Recurrence.Proofs.Series.Plays

namespace Recurrence

/-! ### Rules without a count -/

namespace Rule

/-- A rule without its count. -/
def uncounted (r : Rule) : Rule := { r with count := none }

theorem uncounted_of_count_none {r : Rule} (h : r.count = none) : r.uncounted = r := by
  rw [uncounted, ← h]

theorem valid_uncounted {r : Rule} (h : r.Valid) : r.uncounted.Valid :=
  ⟨h.1, by simp [Rule.uncounted], .inl rfl, h.2.2.2⟩

end Rule

namespace Series

variable {r : Rule} {s s' : Series} {vs : Values} {a : Int} {n : Nat} {b : Bool}

/-- A series of a rule that is asked without its count. -/
structure Uncounted (r : Rule) (s : Series) : Prop where
  rule : s.rule = r.uncounted
  ending : s.ending = .never

/-- A series with a count beside it, of which `a` are left together with the held instance. -/
def counted (r : Rule) (a : Int) (s : Series) : Series :=
  { s with rule := r, ending := .count (a - if s.pending.isSome then 1 else 0) }

theorem Uncounted.congr (h : s.Uncounted r) (hrule : s.SameRule s') (hending : s'.ending = s.ending) :
    s'.Uncounted r :=
  ⟨hrule.rule.trans h.rule, hending.trans h.ending⟩

/-! ### Generating -/

/-- **Generating** takes no notice of the count. -/
theorem generate_counted (h : s.Uncounted r) (a : Int) (n : Nat) :
    (s.counted r a).generate n = (s.generate n).map fun b => (b.1, b.2.counted r a) := by
  have hr : r.SamePeriods s.rule := by rw [h.rule]; exact ⟨rfl, rfl⟩
  refine (generate_withEnd hr _ n).trans (Option.map_congr fun b hb => ?_)
  -- what is held does not change meanwhile
  rw [← (draws_of_generate (Option.mem_def.mp hb)).pending]
  rfl

/-- An instance uses up one of the count. -/
theorem judge_counted (h : s.Uncounted r) (hpending : s.pending = none) (ha : 1 ≤ a) (v u : Value) :
    (s.counted r a).judge v u = ((s.judge v u).1, (s.judge v u).2.counted r a) := by
  simp [judge, counted, h.ending, hpending, Ending.check, ha]

/-! ### Looking and stepping -/

theorem Uncounted.judge (h : s.Uncounted r) (v u : Value) : (s.judge v u).2.Uncounted r := by
  refine h.congr (sameRule_judge s v u) ?_
  simp [Series.judge, h.ending, Ending.check]

theorem Uncounted.hasNext (h : s.Uncounted r) {a : Except SeriesError Bool}
    (hn : s.hasNext n = some (a, s')) : s'.Uncounted r := by
  rcases hasNext_cases hn with ⟨-, rfl⟩ | ⟨-, -, answer, s₁, hg, hout⟩
  · exact h
  have h₁ := h.congr (draws_of_generate hg).toSameRule (draws_of_generate hg).ending
  rcases hout with ⟨e, -, rfl⟩ | ⟨-, rfl⟩ | ⟨v, u, -, rfl⟩
  · exact h₁
  · exact h₁.congr ⟨rfl, rfl, rfl⟩ rfl
  · exact h₁.judge v u

/-- **Looking for an instance** finds the same as long as there is count left. -/
theorem hasNext_counted (h : s.Uncounted r) (ha : 1 ≤ a) (n : Nat) :
    (s.counted r a).hasNext n = (s.hasNext n).map fun b => (b.1, b.2.counted r a) := by
  unfold hasNext
  by_cases hcond : (s.pending.isNone && !s.finished) = true
  · have hpending : s.pending = none := by simpa using (Bool.and_eq_true_iff.mp hcond).1
    rw [if_pos (show ((s.counted r a).pending.isNone && !(s.counted r a).finished) = true from hcond),
      if_pos hcond, generate_counted h]
    cases hg : s.generate n with
    | none => rfl
    | some answer =>
      obtain ⟨_ | _ | ⟨v, u⟩, s₁⟩ := answer
      · rfl
      · rfl
      · have hdraws := draws_of_generate hg
        have h₁ := h.congr hdraws.toSameRule hdraws.ending
        have hjudge := judge_counted h₁ (hdraws.pending.trans hpending) ha v u
        simp only [Option.map_some, hjudge]
        rfl
  · rw [if_neg (show ¬ ((s.counted r a).pending.isNone && !(s.counted r a).finished) = true from hcond),
      if_neg hcond]
    rfl

/-- Without count left, nothing is found. -/
theorem hasNext_counted_zero (h : s.Uncounted r) (hpending : s.pending = none)
    (hn : s.hasNext n = some (.ok b, s')) :
    ∃ s₁, (s.counted r 0).hasNext n = some (.ok false, s₁) ∧ s₁.pending = none ∧ s₁.rule = r := by
  rcases hasNext_cases hn with ⟨hstop, -⟩ | ⟨-, hfinished, answer, s₁, hg, hout⟩
  · have hfinished := hstop.resolve_left (by simp [hpending])
    refine ⟨s.counted r 0, ?_, hpending, rfl⟩
    simp [hasNext, counted, hpending, hfinished]
  have hnone := (draws_of_generate hg).pending.trans hpending
  have hg' := (generate_counted h 0 n).trans (congrArg _ hg)
  have hcond : ((s.counted r 0).pending.isNone && !(s.counted r 0).finished) = true := by
    simp [counted, hpending, hfinished]
  rcases hout with ⟨e, rfl, -⟩ | ⟨rfl, -⟩ | ⟨v, u, rfl, -⟩
  · exact absurd hn (by simp [hasNext, hpending, hfinished, hg])
  · refine ⟨{ s₁.counted r 0 with finished := true }, ?_, hnone, rfl⟩
    simp only [hasNext, hcond, if_true, hg', Option.map_some]
    simp [counted, hnone]
  · -- the count refuses the instance
    refine ⟨((s₁.counted r 0).judge v u).2, ?_, ?_, ?_⟩
    · simp only [hasNext, hcond, if_true, hg', Option.map_some]
      simp [counted, judge, Ending.check, hnone]
    · simp [counted, judge, Ending.check, hnone]
    · simp [counted, judge, Ending.check, hnone]

/-! ### What is played -/

/-- **A counted series plays** the first instances of the uncounted one. -/
theorem Plays.counted {S : Supply} (hlive : S.Live s) (h : s.Plays vs) (hs : s.Uncounted r) (a : Nat)
    (ha : s.pending.isSome → 0 < a) : (s.counted r a).Plays (.ofList (vs.take a)) := by
  -- on what is left of the count: the held instance has been judged, so it is part of it
  induction a generalizing s vs with
  | zero =>
    -- nothing is held, so the count refuses the next instance, if there is one
    have hpending : s.pending = none := by simpa using ha
    obtain ⟨s', hsettles, -⟩ := hlive.hasNext
    obtain ⟨n, hn⟩ := hsettles.exists_bound
    obtain ⟨s₁, hlook, hnone, hrule⟩ := hasNext_counted_zero hs hpending hn
    rw [Stream'.Seq.take_zero, Stream'.Seq.ofList_nil]
    refine plays_nil_iff.mpr ⟨s₁, n, ?_⟩
    show (s.counted r 0).next n = _
    rw [next_of_hasNext hlook, stepOf, hnone, hrule]
    rfl
  | succ a ih =>
    obtain ⟨s₁, hsettles, -, hlive₁⟩ := hlive.hasNext
    obtain ⟨n, hn⟩ := hsettles.exists_bound
    obtain ⟨h₁, hhead⟩ := h.hasNext hn
    have hs₁ := hs.hasNext hn
    have hnext := next_of_hasNext
      ((hasNext_counted hs (a := (a + 1 : Nat)) (by omega) n).trans (congrArg _ hn))
    cases vs using Stream'.Seq.recOn with
    | nil =>
      have hp : s₁.pending = none := hhead
      rw [Stream'.Seq.take_nil, Stream'.Seq.ofList_nil]
      refine plays_nil_iff.mpr ⟨s₁.counted r (a + 1 : Nat), n, ?_⟩
      rw [hnext]
      simp [stepOf, Series.counted, hp]
    | cons v vs =>
      have hp : s₁.pending = some v := hhead
      obtain ⟨vs', hvs, h'⟩ := h₁.take hp
      obtain ⟨-, rfl⟩ := Stream'.Seq.cons_eq_cons.mp hvs
      rw [Stream'.Seq.take_succ_cons, Stream'.Seq.ofList_cons]
      refine plays_cons_iff.mpr ⟨{ s₁ with pending := none }.counted r a, ?_,
        ih hlive₁.take h' (hs₁.congr ⟨rfl, rfl, rfl⟩ rfl) (by simp)⟩
      refine Patient.settles (patient_next _) (hnext.trans ?_)
      simp [stepOf, Series.counted, hp]

/-! ### New series -/

section Creating

variable {start : Value} {zone : Zone} {budget k : Int} {c : Candidates} {startUtc : Value}

theorem uncounted_unstarted (hr : r.Valid) (hcount : r.count = some k) (start : Value) (zone : Zone)
    (c : Candidates) : (unstarted r.uncounted start zone c).Uncounted r := by
  have huntil : r.untilBound = none := hr.2.2.1.resolve_left (by simp [hcount])
  exact ⟨rfl, by simp [unstarted, Ending.ofRule, Rule.uncounted, huntil]⟩

theorem unstarted_counted (hcount : r.count = some k) (start : Value) (zone : Zone) (c : Candidates) :
    (unstarted r.uncounted start zone c).counted r k = unstarted r start zone c := by
  have hending : Ending.ofRule r = .count (k - 0) := by simp [Ending.ofRule, hcount]
  unfold unstarted
  rw [hending]
  rfl

/-- What is dropped before the start does not use up the count. -/
theorem startTurn_counted (h : s.Uncounted r) (hpending : s.pending = none) (ha : 1 ≤ a) (n : Nat) :
    (s.counted r a).startTurn n startUtc =
      (s.startTurn n startUtc).map (Turn.map (counted r a) fun b => (b.1, b.2.counted r a)) := by
  unfold startTurn
  rw [generate_counted h]
  cases hg : s.generate n with
  | none => rfl
  | some answer =>
    obtain ⟨_ | _ | ⟨v, u⟩, s₁⟩ := answer
    · rfl
    · rfl
    · have hdraws := draws_of_generate hg
      have hjudge := judge_counted (h.congr hdraws.toSameRule hdraws.ending)
        (hdraws.pending.trans hpending) ha v u
      dsimp only [Option.map_some]
      split_ifs
      · rfl
      · rw [hjudge]
        rfl

theorem startLoop_counted (h : s.Uncounted r) (hpending : s.pending = none) (ha : 1 ≤ a) (n : Nat) :
    loop (startTurn n startUtc) n (s.counted r a) =
      (loop (startTurn n startUtc) n s).map fun b => (b.1, b.2.counted r a) := by
  refine loop_map (P := fun s => s.Uncounted r ∧ s.pending = none)
    (fun s hs => startTurn_counted hs.1 hs.2 ha n) ?_ n ⟨h, hpending⟩
  rintro s s' ⟨hs, hpending⟩ ht
  obtain ⟨answer, s₁, hg, ⟨e, h⟩ | ⟨-, h⟩ | ⟨v, u, -, ⟨-, h⟩ | ⟨-, h⟩⟩⟩ := startTurn_cases ht <;>
    simp only [reduceCtorEq, Turn.again.injEq] at h
  have hdraws := draws_of_generate hg
  rw [h]
  exact ⟨hs.congr hdraws.toSameRule hdraws.ending, hdraws.pending.trans hpending⟩

theorem ofCandidates_counted (hr : r.Valid) (hcount : r.count = some k)
    (hc : ofCandidates n r.uncounted start zone c = some (.ok s)) :
    ofCandidates n r start zone c = some (.ok (s.counted r k)) := by
  have hk : 1 ≤ k := hr.2.1 k hcount
  unfold ofCandidates at hc ⊢
  cases hrun : c.run n (c.chain.length - 1) 0 with
  | none => simp [hrun] at hc
  | some b =>
    obtain ⟨step, c'⟩ := b
    have hcounted := unstarted_counted hcount start zone c'
    rw [hrun] at hc
    match step, hc with
    | .undefined why, hc => simp at hc
    | .rollover, hc | .halt, hc =>
      obtain rfl := Except.ok.inj (Option.some.inj hc)
      dsimp only
      rw [← hcounted]
      rfl
    | .value, hc =>
      dsimp only at hc ⊢
      cases hutc : start.toUtc zone with
      | error e => simp [hutc] at hc
      | ok startUtc =>
        rw [hutc] at hc
        dsimp only at hc ⊢
        rw [← hcounted, startLoop_counted (uncounted_unstarted hr hcount start zone c') rfl hk]
        cases hloop : loop (startTurn n startUtc) n (unstarted r.uncounted start zone c') with
        | none => simp [hloop] at hc
        | some b =>
          obtain ⟨_ | _, s'⟩ := b
          · simp [hloop] at hc
          · rw [hloop] at hc
            obtain rfl := Except.ok.inj (Option.some.inj hc)
            rfl

/-- **A new series with a count** is the one without it, with the count beside it. -/
theorem create_counted (hr : r.Valid) (hcount : r.count = some k)
    (hc : create n r.uncounted start zone budget = some (.ok s)) :
    create n r start zone budget = some (.ok (s.counted r k)) := by
  have hplan : Plan.ofRule r.uncounted start (listStart r.uncounted start) budget =
      Plan.ofRule r start (listStart r start) budget :=
    r.plan_withEnd none r.untilBound start budget
  have hcandidates : candidates r.uncounted start
      (Plan.ofRule r.uncounted start (listStart r.uncounted start) budget) =
        candidates r start (Plan.ofRule r start (listStart r start) budget) := by
    rw [hplan]
    rfl
  unfold create at hc ⊢
  dsimp only at hc ⊢
  rw [hcandidates, hplan] at hc
  by_cases hsub : (!start.hasTime && r.freq.isSubDaily) = true
  · rw [if_pos (show (!start.hasTime && r.uncounted.freq.isSubDaily) = true from hsub)] at hc
    simp at hc
  rw [if_neg (show ¬ (!start.hasTime && r.uncounted.freq.isSubDaily) = true from hsub)] at hc
  rw [if_neg hsub]
  split_ifs at hc ⊢
  · obtain rfl := Except.ok.inj (Option.some.inj hc)
    rw [← unstarted_counted hcount]
    rfl
  · exact ofCandidates_counted hr hcount hc

theorem uncounted_create (hr : r.Valid) (hcount : r.count = some k)
    (hc : create n r.uncounted start zone budget = some (.ok s)) : s.Uncounted r := by
  rcases create_cases hc with ⟨⟨c, rfl⟩, -⟩ | ⟨c, startUtc, -, -, hloop⟩
  · exact (uncounted_unstarted hr hcount start zone c).congr ⟨rfl, rfl, rfl⟩ rfl
  refine loop_invariant (P := Uncounted r) (Q := fun b => b.2.Uncounted r) ?_ ?_
    (uncounted_unstarted hr hcount start zone c) hloop
  all_goals
    intro s₁ t hs ht
    obtain ⟨answer, s₂, hg, hout⟩ := startTurn_cases ht
    have hs₂ := hs.congr (draws_of_generate hg).toSameRule (draws_of_generate hg).ending
    obtain ⟨e, h⟩ | ⟨-, h⟩ | ⟨v, u, -, ⟨-, h⟩ | ⟨-, h⟩⟩ := hout <;>
      simp only [reduceCtorEq, Turn.again.injEq, Turn.done.injEq] at h <;> subst h
  · exact hs₂
  · exact hs₂
  · exact hs₂.congr ⟨rfl, rfl, rfl⟩ rfl
  · exact hs₂.judge v u

end Creating

end Series

end Recurrence
