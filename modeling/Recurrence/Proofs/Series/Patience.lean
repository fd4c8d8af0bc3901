/-
Recurrence/Proofs/Series/Patience.lean

Every operation of a series is patient.

The operations are built from one another, each asking the one below first and then
going on in a way that does not look at the bound, or looping over it.  So each of
them keeps its answer under a larger bound because the one below does.

What looking, passing over months, skipping and starting settle on, once the operation
below them has settled, is said here as well (`settles_hasNext_of_generate` and those
that follow), and later proofs need not open these operations.
-/
import Recurrence.Expansion.Series
import Recurrence.Proofs.Candidates

namespace Recurrence

/-! ### Choosing among the candidates -/

namespace Selection

variable {σ α ε κ : Type} [DecidableEq κ] {next : Nat → NextOf σ α ε} {credit : σ → σ} {key : α → κ}

theorem patient_gatherTurn (hp : ∀ s, Patient fun n => next n s) (k : κ) (g : Gathering σ α) :
    Patient fun n => gatherTurn (next n) key k g := by
  apply Patient.after (hp g.source)
  · intro n hn
    simp only [gatherTurn, hn]
  · intro m n b a _ hm hn ht
    simpa only [gatherTurn, hm, hn] using ht

theorem patient_first (hp : ∀ s, Patient fun n => next n s) (s : Selection σ α) :
    Patient fun n => s.first (next n) := by
  unfold first
  cases s.heldBack with
  | none => exact hp _
  | some v => exact patient_const _

theorem patient_collect (hp : ∀ s, Patient fun n => next n s) (s : Selection σ α) :
    Patient fun n => s.collect (next n) key n := by
  intro m n t hmn ht
  simp only [collect] at ht ⊢
  cases hm : s.first (next m) with
  | none => simp [hm] at ht
  | some a =>
    have hn : s.first (next n) = some a := patient_first hp s hmn hm
    rw [hn]
    rw [hm] at ht
    match a, ht with
    | (.error e, source), ht => exact ht
    | (.ok none, source), ht => exact ht
    | (.ok (some v), source), ht =>
      dsimp only at ht ⊢
      generalize hg : (⟨source, [v], (keptOfPeriod s.positions).map fun n => n - 1⟩ :
        Gathering σ α) = g at ht ⊢
      cases hl : loop (gatherTurn (next m) key (key v)) m g with
      | none => simp [hl] at ht
      | some a =>
        have hn : loop (gatherTurn (next n) key (key v)) n g = some a :=
          patient_loop (patient_gatherTurn hp _) g hmn hl
        rw [hl] at ht
        rw [hn]
        exact ht

theorem patient_turn (hp : ∀ s, Patient fun n => next n s) (s : Selection σ α) :
    Patient fun n => s.turn (next n) credit key n := by
  unfold turn
  cases s.pending with
  | cons v pending => exact patient_const _
  | nil =>
    dsimp only
    split_ifs
    · exact patient_const _
    · have hcollect : Patient fun n => s.collect (next n) key n := patient_collect hp s
      apply Patient.after hcollect
      · intro n hn
        simp only [hn]
      · intro m n b a _ hm hn ht
        simpa only [hm, hn] using ht

theorem patient_next (hp : ∀ s, Patient fun n => next n s) (s : Selection σ α) :
    Patient fun n => s.next (next n) credit key n := by
  apply patient_loop
  exact patient_turn hp

end Selection

/-! ### Generating and stepping -/

theorem InstanceSource.patient_next (r : Rule) (src : InstanceSource) :
    Patient fun n => src.next r n := by
  cases src with
  | plain c => exact Patient.map (Course.patient_nextCandidate c) _
  | selected s => exact Patient.map (Selection.patient_next Course.patient_nextCandidate s) _

namespace Series

theorem patient_attempt (s : Series) : Patient fun n => s.attempt n := by
  apply Patient.after (s.source.patient_next s.rule)
  · intro n hn
    simp only [attempt, hn]
  · intro m n b a _ hm hn ht
    simpa only [attempt, hm, hn] using ht

theorem patient_generate (s : Series) : Patient fun n => s.generate n :=
  patient_loop patient_attempt s

theorem patient_hasNext (s : Series) : Patient fun n => s.hasNext n := by
  unfold hasNext
  split_ifs
  · apply Patient.after s.patient_generate
    · intro n hn
      simp only [hn]
    · intro m n b a _ hm hn ha
      simpa only [hm, hn] using ha
  · exact patient_const _

section Settling

variable {s s₁ : Series} {v u : Value}

theorem settles_hasNext_of_generate (hpending : s.pending = none) (hfinished : s.finished = false)
    (hg : Settles (fun n => s.generate n) (.ok (some (v, u)), s₁)) :
    Settles (fun n => s.hasNext n) (.ok (s₁.judge v u).2.pending.isSome, (s₁.judge v u).2) := by
  filter_upwards [hg] with n hn
  simp only [hasNext, hpending, hfinished, Option.isNone_none, Bool.not_false, Bool.and_self,
    if_true, hn]

/-- A series that finds no further instance is finished. -/
theorem settles_hasNext_of_none (hpending : s.pending = none) (hfinished : s.finished = false)
    (hg : Settles (fun n => s.generate n) (.ok none, s₁)) :
    Settles (fun n => s.hasNext n) (.ok s₁.pending.isSome, { s₁ with finished := true }) := by
  filter_upwards [hg] with n hn
  simp only [hasNext, hpending, hfinished, Option.isNone_none, Bool.not_false, Bool.and_self,
    if_true, hn]

/-- A series that holds an instance or is finished looks for none. -/
theorem settles_hasNext_of_held (h : s.pending = none → s.finished = true) :
    Settles (fun n => s.hasNext n) (.ok s.pending.isSome, s) := by
  filter_upwards with n
  cases hp : s.pending with
  | some v => simp [hasNext, hp]
  | none => simp [hasNext, hp, h hp]

end Settling

theorem patient_next (s : Series) : Patient fun n => s.next n := by
  apply Patient.after s.patient_hasNext
  · intro n hn
    simp only [next, hn]
  · intro m n b a _ hm hn ha
    simpa only [next, hm, hn] using ha

/-! ### Moving ahead -/

theorem patient_candidatesRun (c : Candidates) (count index : Nat) :
    Patient fun n => c.run n count index :=
  Patient.map (patient_run Generator.patient_generate _ _ _ _) _

theorem patient_skipYearTurn (target : Value) (s : Step × Candidates) :
    Patient fun n => skipYearTurn n target s := by
  unfold skipYearTurn
  split_ifs
  · exact Patient.map (patient_candidatesRun _ _ _) _
  · exact patient_const _

theorem patient_skipMonthTurn (target : Value) (s : Step × Candidates) :
    Patient fun n => skipMonthTurn n target s := by
  unfold skipMonthTurn
  split_ifs
  · exact Patient.map (patient_candidatesRun _ _ _) _
  · exact patient_const _

theorem patient_skipYears (c : Candidates) (target : Value) :
    Patient fun n => skipYears n c target := by
  intro m n a hmn ha
  simp only [skipYears] at ha ⊢
  split_ifs at ha ⊢
  · cases hm : loop (skipYearTurn m target) m (.value, c) with
    | none => simp [hm] at ha
    | some b =>
      have hn : loop (skipYearTurn n target) n (.value, c) = some b :=
        patient_loop (patient_skipYearTurn target) (.value, c) hmn hm
      rw [hn]
      rw [hm] at ha
      match b, ha with
      | (.value, c), ha => exact patient_candidatesRun _ _ _ hmn ha
      | (.rollover, c), ha => exact ha
      | (.halt, c), ha => exact ha
      | (.undefined why, c), ha => exact ha
  · exact ha

theorem patient_skipMonths (c : Candidates) (target : Value) :
    Patient fun n => skipMonths n c target := by
  intro m n a hmn ha
  simp only [skipMonths] at ha ⊢
  split_ifs at ha ⊢
  · exact ha
  · cases hm : skipYears m c target with
    | none => simp [hm] at ha
    | some s =>
      have hn : skipYears n c target = some s := patient_skipYears c target hmn hm
      rw [hn]
      rw [hm] at ha
      dsimp only at ha ⊢
      cases hl : loop (skipMonthTurn m target) m s with
      | none => simp [hl] at ha
      | some b =>
        have hn : loop (skipMonthTurn n target) n s = some b :=
          patient_loop (patient_skipMonthTurn target) s hmn hl
        rw [hn]
        rw [hl] at ha
        match b, ha with
        | (.value, c), ha => exact patient_candidatesRun _ _ _ hmn ha
        | (.rollover, c), ha => exact ha
        | (.halt, c), ha => exact ha
        | (.undefined why, c), ha => exact ha

theorem patient_passOver (s : Series) (target : Value) : Patient fun n => s.passOver n target := by
  unfold passOver
  cases s.source with
  | selected _ => exact patient_const _
  | plain c =>
    dsimp only
    cases target.fromUtc s.zone with
    | error e => exact patient_const _
    | ok localTarget =>
      apply Patient.after (patient_skipMonths c localTarget)
      · intro n hn
        simp only [hn]
      · intro m n b a _ hm hn ha
        simpa only [hm, hn] using ha

theorem patient_skipTurn (target : Value) (s : Series) : Patient fun n => s.skipTurn n target := by
  apply Patient.after s.patient_generate
  · intro n hn
    simp only [skipTurn, hn]
  · intro m n b a _ hm hn ha
    simpa only [skipTurn, hm, hn] using ha

theorem patient_skipTo (s : Series) (target : Value) : Patient fun n => s.skipTo n target := by
  have hloop : ∀ s : Series, Patient fun n => loop (skipTurn n target) n s :=
    patient_loop (patient_skipTurn target)
  intro m n a hmn ha
  simp only [skipTo] at ha ⊢
  split_ifs at ha ⊢ with hfinished
  · exact ha
  · cases hm : s.passOver m target with
    | none => simp [hm] at ha
    | some b =>
      have hn : s.passOver n target = some b := s.patient_passOver target hmn hm
      rw [hn]
      rw [hm] at ha
      match b, ha with
      | (.error e, s'), ha => exact ha
      | (.ok (), s'), ha =>
        dsimp only at ha ⊢
        split_ifs at ha ⊢
        · exact ha
        · exact hloop s' hmn ha
  · dsimp only at ha ⊢
    rw [if_neg hfinished] at ha ⊢
    exact hloop s hmn ha

section Settling

variable {s s₁ : Series} {c c' : Candidates} {target l : Value} {b : Except SeriesError Unit × Series}

section Months

variable (hsource : s.source = .plain c) (hlocal : target.fromUtc s.zone = .ok l)
include hsource hlocal

theorem settles_passOver (hskip : Settles (fun n => skipMonths n c l) (.value, c')) :
    Settles (fun n => s.passOver n target) (.ok (), { s with source := .plain c' }) := by
  filter_upwards [hskip] with n hn
  simp only [passOver, hsource, hlocal, hn]

/-- A series whose candidates end before the target's month is finished. -/
theorem settles_passOver_of_halt (hskip : Settles (fun n => skipMonths n c l) (.halt, c')) :
    Settles (fun n => s.passOver n target)
      (.ok (), { s with source := .plain c', finished := true }) := by
  filter_upwards [hskip] with n hn
  simp only [passOver, hsource, hlocal, hn]

end Months

/-- A finished series has nothing to skip. -/
theorem settles_skipTo_of_finished (hfinished : s.finished = true) :
    Settles (fun n => s.skipTo n target) (.ok (), s) := by
  filter_upwards with n
  rw [skipTo, if_pos hfinished]

/-- A series that passes over no months skips its instances one by one. -/
theorem settles_skipTo_of_skip (hfinished : s.finished = false) (hskips : s.skipsMonths = false)
    (hloop : Settles (fun n => loop (skipTurn n target) n s) b) :
    Settles (fun n => s.skipTo n target) b := by
  filter_upwards [hloop] with n hn
  simp only [skipTo, hfinished, hskips, Bool.false_eq_true, if_false, hn]

section PassingOver

variable (hfinished : s.finished = false) (hskips : s.skipsMonths = true)
include hfinished hskips

theorem settles_skipTo_of_passOver_error {e : SeriesError}
    (hover : Settles (fun n => s.passOver n target) (.error e, s₁)) :
    Settles (fun n => s.skipTo n target) (.error e, s₁) := by
  filter_upwards [hover] with n hn
  simp only [skipTo, hfinished, hskips, Bool.false_eq_true, if_false, if_true, hn]

/-- The candidates may end within the months that are passed over. -/
theorem settles_skipTo_of_passOver_finished
    (hover : Settles (fun n => s.passOver n target) (.ok (), s₁)) (hfinished₁ : s₁.finished = true) :
    Settles (fun n => s.skipTo n target) (.ok (), s₁) := by
  filter_upwards [hover] with n hn
  simp only [skipTo, hfinished, hskips, Bool.false_eq_true, if_false, if_true, hn, hfinished₁]

/-- What is left of the target's month is skipped one by one. -/
theorem settles_skipTo_of_passOver
    (hover : Settles (fun n => s.passOver n target) (.ok (), s₁)) (hfinished₁ : s₁.finished = false)
    (hloop : Settles (fun n => loop (skipTurn n target) n s₁) b) :
    Settles (fun n => s.skipTo n target) b := by
  filter_upwards [hover, hloop] with n hn hn'
  simp only [skipTo, hfinished, hskips, Bool.false_eq_true, if_false, if_true, hn, hfinished₁, hn']

end PassingOver

end Settling

theorem patient_advanceTo (s : Series) (target : Value) : Patient fun n => s.advanceTo n target := by
  unfold advanceTo
  cases s.pending with
  | none => exact patient_skipTo _ _
  | some v =>
    dsimp only
    split_ifs
    · exact patient_skipTo _ _
    · exact patient_const _

/-! ### Starting -/

theorem patient_startTurn (startUtc : Value) (s : Series) :
    Patient fun n => s.startTurn n startUtc := by
  apply Patient.after s.patient_generate
  · intro n hn
    simp only [startTurn, hn]
  · intro m n b a _ hm hn ha
    simpa only [startTurn, hm, hn] using ha

section Settling

variable {s s₁ : Series} {startUtc v u : Value}

theorem settles_startTurn_of_lt (hg : Settles (fun n => s.generate n) (.ok (some (v, u)), s₁))
    (hlt : u < startUtc) : Settles (fun n => s.startTurn n startUtc) (.again s₁) := by
  filter_upwards [hg] with n hn
  simp only [startTurn, hn, hlt, if_true]

theorem settles_startTurn_of_not_lt (hg : Settles (fun n => s.generate n) (.ok (some (v, u)), s₁))
    (hlt : ¬ u < startUtc) :
    Settles (fun n => s.startTurn n startUtc) (.done (.ok (), (s₁.judge v u).2)) := by
  filter_upwards [hg] with n hn
  simp only [startTurn, hn, hlt, if_false]

/-- A series without instances finishes as it starts. -/
theorem settles_startTurn_of_none (hg : Settles (fun n => s.generate n) (.ok none, s₁)) :
    Settles (fun n => s.startTurn n startUtc) (.done (.ok (), { s₁ with finished := true })) := by
  filter_upwards [hg] with n hn
  simp only [startTurn, hn]

end Settling

theorem patient_ofCandidates (r : Rule) (start : Value) (zone : Zone) (c : Candidates) :
    Patient fun n => ofCandidates n r start zone c := by
  intro m n a hmn ha
  simp only [ofCandidates] at ha ⊢
  cases hm : c.run m (c.chain.length - 1) 0 with
  | none => simp [hm] at ha
  | some b =>
    have hn : c.run n (c.chain.length - 1) 0 = some b := patient_candidatesRun c _ _ hmn hm
    rw [hn]
    rw [hm] at ha
    match b, ha with
    | (.undefined why, c'), ha => exact ha
    | (.rollover, c'), ha => exact ha
    | (.halt, c'), ha => exact ha
    | (.value, c'), ha =>
      dsimp only at ha ⊢
      cases hu : start.toUtc zone with
      | error e => rwa [hu] at ha
      | ok startUtc =>
        rw [hu] at ha
        dsimp only at ha ⊢
        cases hl : loop (startTurn m startUtc) m (unstarted r start zone c') with
        | none => simp [hl] at ha
        | some b =>
          have hn : loop (startTurn n startUtc) n (unstarted r start zone c') = some b :=
            patient_loop (patient_startTurn startUtc) _ hmn hl
          rw [hn]
          rw [hl] at ha
          exact ha

theorem patient_create (r : Rule) (start : Value) (zone : Zone) (budget : Int) :
    Patient fun n => create n r start zone budget := by
  unfold create
  dsimp only
  split_ifs
  · exact patient_const _
  · exact patient_const _
  · exact patient_ofCandidates _ _ _ _

/-- Whatever the bounds, a rule has one new series. -/
theorem create_unique {r : Rule} {start : Value} {zone : Zone} {budget : Int} {s s' : Series}
    {n : Nat} (h : Settles (fun n => create n r start zone budget) (.ok s))
    (h' : create n r start zone budget = some (.ok s')) : s' = s :=
  Except.ok.inj (Patient.eq_of_settles (patient_create r start zone budget) h h')

end Series

end Recurrence
