/-
Recurrence/Proofs/Termination.lean

Every call of a series comes to an end.

The budget bounds the years that pass without a candidate, and only those.  Each candidate
fills it up, also one that is dropped afterwards because its instant is not new or is before a
target.  What ends the searches nevertheless is in `Series/Live.lean`: a live series has an
answer, since the candidates grow on the clock and UTC follows the clock at a bounded distance.
Here this is carried to all states that calls lead to, an error of an earlier call included
(`Series.Reachable.live`), and to all budgets and targets (`every_call_finishes`).
-/
import Recurrence.Proofs.DateTargets
import Recurrence.Proofs.Series.Live

namespace Recurrence

variable {S : Supply} {r : Rule} {start target : Value} {zone : Zone} {budget : Int} {s s' : Series}

/-! ### Targets of all kinds -/

/-- Where a target has no wall-clock value, no month is passed over. -/
theorem Series.passOver_of_error {e : ConversionError} (h : target.fromUtc s.zone = .error e) :
    ∃ b, (b = .ok () ∨ b = .error (.conversion e)) ∧ ∀ n, s.passOver n target = some (b, s) := by
  cases hsource : s.source with
  | plain c => exact ⟨_, .inr rfl, fun n => by simp only [Series.passOver, hsource, h]⟩
  | selected sel => exact ⟨_, .inl rfl, fun n => by simp only [Series.passOver, hsource]⟩

/-- A call fails at most because a target has no wall-clock value in a zone. -/
def FailsOnlyAt (zone : Zone) (target : Value) (a : Except SeriesError Unit) : Prop :=
  ∀ e, a = .error e → ∃ why, e = .conversion why ∧ target.fromUtc zone = .error why

/-- **Moving ahead** comes to an end for every target. -/
theorem Supply.Live.settles_advanceTo (hS : S.Passes) (h : S.Live s) (target : Value) :
    ∃ a s', Settles (fun n => s.advanceTo n target) (a, s') ∧ s.SameRule s' ∧ S.Live s' ∧
      FailsOnlyAt s.zone (s.roundTarget target) a := by
  refine h.advanceTo_of_passOver (by simp [FailsOnlyAt]) fun s₁ R hrule _ hstocked => ?_
  cases hlocal : (s.roundTarget target).fromUtc s₁.zone with
  | ok l =>
    obtain ⟨s₂, hover, hrule₂, hlive⟩ := hS s₁ R hstocked _ l hlocal
    exact ⟨_, s₂, hover, hrule₂, hlive, by simp [FailsOnlyAt]⟩
  | error why =>
    obtain ⟨b, hb, hover⟩ := Series.passOver_of_error hlocal
    refine ⟨b, s₁, .of_forall hover, .refl s₁, .inr ⟨R, hstocked⟩, ?_⟩
    rintro e rfl
    obtain rfl : e = .conversion why := by simpa using hb
    exact ⟨why, rfl, hrule.zone ▸ hlocal⟩

/-! ### Budgets of all sizes -/

/-- A chain whose years have no unit of their budget left gives up when it is run. -/
theorem Candidates.settles_halt {c : Candidates} {g : YearStepper} {finer : List Generator}
    {count : Nat} (hchain : c.chain = ⟨.years g, []⟩ :: finer) (hspent : g.remaining < 1)
    (hcount : 0 < count) : ∃ c', Settles (fun n => c.run n count 0) (.halt, c') := by
  have hyears : g.generate c.fields = (.halt, { g with remaining := g.remaining - 1 }, c.fields) := by
    simp only [YearStepper.generate, if_pos (show g.remaining - 1 < 0 by omega)]
  have hfirst : (c.chain.take count)[0]? = some ⟨.years g, []⟩ := by
    rw [List.getElem?_take_of_lt hcount, hchain]
    rfl
  have hturn : Settles (fun n => Odometer.turn (Generator.generate n) count ⟨0, c.chain, c.fields⟩)
      (.done (.halt, c.chain.set 0 ⟨.years { g with remaining := g.remaining - 1 }, []⟩,
        c.fields)) := by
    filter_upwards [Blueprint.settles_years hyears] with n hn
    simp only [Odometer.turn, hfirst, hn]
  exact ⟨_, hturn.finish.map _⟩

/-- Without any budget the first run of a rule's chain gives up. -/
theorem Rule.run_candidates_of_lt_one (r : Rule) (start : Value) (hbudget : budget < 1) :
    ∃ c, Settles (fun n => (r.candidates start budget).run n
      ((r.candidates start budget).chain.length - 1) 0) (.halt, c) := by
  have hlong : 1 < (r.candidates start budget).chain.length := by
    rcases candidates_cases r start budget with ⟨-, hc⟩ | ⟨t, -, -, hc⟩ | ⟨-, hc⟩ <;> rw [hc] <;>
      simp [Plan.chain]
  exact Candidates.settles_halt (chain_candidates r start budget) hbudget (by omega)

/-- A series that has no budget at all has stopped when it is created. -/
theorem Rule.create_of_neg (h : r.Admits start) (zone : Zone) (hbudget : budget < 0) :
    ∃ s, Settles (fun n => Series.create n r start zone budget) (.ok s) ∧ s.finished = true ∧
      s.rule = r ∧ s.start = start ∧ s.zone = zone := by
  by_cases hreach : r.reaches start = true
  · obtain ⟨c, hrun⟩ := run_candidates_of_lt_one r start (show budget < 1 by omega)
    exact ⟨_, create_of_halt h zone hreach hrun, rfl, rfl, rfl, rfl⟩
  · exact ⟨_, create_of_not_reaches h zone budget (by simpa using hreach), rfl, rfl, rfl, rfl⟩

/-- **A series is created live**, wherever the rule can use the start. -/
theorem Rule.exists_live (h : r.Admits start) (zone : Zone) (budget : Int) :
    ∃ (S : Supply) (s : Series), Settles (fun n => Series.create n r start zone budget) (.ok s) ∧
      S.Passes ∧ S.Live s ∧ s.rule = r ∧ s.start = start ∧ s.zone = zone := by
  rcases lt_or_ge budget 0 with hbudget | hbudget
  · obtain ⟨S, hS, -⟩ := exists_supply h le_rfl
    obtain ⟨s, hcreate, hfinished, hrule⟩ := create_of_neg h zone hbudget
    exact ⟨S, s, hcreate, hS, .inl hfinished, hrule⟩
  · obtain ⟨S, hS, hbegins⟩ := exists_supply h hbudget
    obtain ⟨s, hcreate, hlive, hrule⟩ := hbegins.live h zone
    exact ⟨S, s, hcreate, hS, hlive, hrule⟩

/-! ### All states -/

/-- **All states are live**, whatever the series has been asked before. -/
theorem Series.Reachable.live (hr : r.Valid) (hreal : start.IsReal)
    (hs : Series.Reachable r start zone budget s) :
    ∃ S : Supply, S.Passes ∧ S.Live s ∧ s.rule = r ∧ s.start = start ∧ s.zone = zone := by
  induction hs with
  | create h =>
    obtain ⟨S, s, hcreate, hS, hlive⟩ :=
      Rule.exists_live (Series.admits_of_create hr hreal h) zone budget
    obtain rfl := Series.create_unique hcreate h
    exact ⟨S, hS, hlive⟩
  | @hasNext s _ bound a _ h ih =>
    obtain ⟨S, hS, hlive, hrule, hstart, hzone⟩ := ih
    obtain ⟨s₁, hsettles, hsame, hlive₁⟩ := hlive.hasNext
    obtain ⟨-, rfl⟩ := Prod.mk.inj (Patient.eq_of_settles (Series.patient_hasNext s) hsettles h)
    exact ⟨S, hS, hlive₁, hsame.rule.trans hrule, hsame.start.trans hstart, hsame.zone.trans hzone⟩
  | @next s _ bound a _ h ih =>
    obtain ⟨S, hS, hlive, hrule, hstart, hzone⟩ := ih
    obtain ⟨_, s₁, hsettles, hsame, hlive₁, -⟩ := hlive.next
    obtain ⟨-, rfl⟩ := Prod.mk.inj (Patient.eq_of_settles (Series.patient_next s) hsettles h)
    exact ⟨S, hS, hlive₁, hsame.rule.trans hrule, hsame.start.trans hstart, hsame.zone.trans hzone⟩
  | @advanceTo s _ bound target a _ h ih =>
    obtain ⟨S, hS, hlive, hrule, hstart, hzone⟩ := ih
    obtain ⟨_, s₁, hsettles, hsame, hlive₁, -⟩ := hlive.settles_advanceTo hS target
    obtain ⟨-, rfl⟩ :=
      Prod.mk.inj (Patient.eq_of_settles (Series.patient_advanceTo s target) hsettles h)
    exact ⟨S, hS, hlive₁, hsame.rule.trans hrule, hsame.start.trans hstart, hsame.zone.trans hzone⟩

/-- **Every call finishes.**  Take a valid rule, any start with real fields, any zone and any
budget; the rule may be empty, like one for the 30th of February.  With a large enough bound
for its loops, a series is created, or refused because the rule needs a time of day that the
start does not have.  In whatever state calls have left it, each call has an answer then, and
the same answer under all larger bounds.  Looking for an instance never fails, stepping fails
only where no instance is left, and moving ahead only where the target has no wall-clock value
in the zone.  A real target has one if the offsets of the zone are shorter than a day. -/
theorem every_call_finishes {r : Rule} {start : Value} (hr : r.Valid) (hreal : start.IsReal)
    (zone : Zone) (budget : Int) :
    (∃ a, Settles (fun n => Series.create n r start zone budget) a ∧
      ∀ e, a = .error e ↔ (start.hasTime = false ∧ r.freq.isSubDaily = true) ∧
        e = .rule (.invalid (.needsTimeOfDay r.freq) (some r.text))) ∧
    ∀ s, Series.Reachable r start zone budget s →
      (∃ b s', Settles (fun n => s.hasNext n) (.ok b, s')) ∧
      (∃ a s', Settles (fun n => s.next n) (a, s') ∧
        ((∃ v, a = .ok v) ∨ a = .error (.noMoreInstances (some r.text)))) ∧
      ∀ target : Value, ∃ a s', Settles (fun n => s.advanceTo n target) (a, s') ∧
        (∀ e, a = .error e → ∃ why, e = .conversion why ∧
          (s.roundTarget target).fromUtc zone = .error why) ∧
        (zone.Short → target.IsReal → a = .ok ()) := by
  refine ⟨?_, fun s hs => ?_⟩
  · by_cases hsub : start.hasTime = false ∧ r.freq.isSubDaily = true
    · refine ⟨_, ?_, fun e => ⟨fun he => ⟨hsub, (Except.error.inj he).symm⟩, fun he => he.2 ▸ rfl⟩⟩
      filter_upwards with n
      simp [Series.create, hsub.1, hsub.2]
    · have hadmits : r.Admits start := ⟨hr, hreal, fun hs => by simpa [hs] using hsub⟩
      obtain ⟨-, s, hcreate, -⟩ := Rule.exists_live hadmits zone budget
      exact ⟨_, hcreate, by simp [hsub]⟩
  · obtain ⟨S, hS, hlive, rfl, -, rfl⟩ := hs.live hr hreal
    refine ⟨?_, ?_, fun target => ?_⟩
    · obtain ⟨s', hsettles, -⟩ := hlive.hasNext
      exact ⟨_, s', hsettles⟩
    · obtain ⟨a, s', hsettles, -, -, hanswer⟩ := hlive.next
      exact ⟨a, s', hsettles, hanswer⟩
    · obtain ⟨a, s', hsettles, -, -, hfails⟩ := hlive.settles_advanceTo hS target
      refine ⟨a, s', hsettles, hfails, fun hzone htarget => ?_⟩
      obtain ⟨l, hl⟩ :=
        Value.exists_fromUtc hzone ((s.roundsTo_roundTarget htarget).isReal htarget)
      cases a with
      | ok _ => rfl
      | error e =>
        obtain ⟨why, -, herror⟩ := hfails e rfl
        exact absurd (hl.symm.trans herror) (by simp)

/-- The 30th of February never comes.  The series is moved ahead all the same, across a night in
which the clocks are put forward, and then it has no instance. -/
theorem every_call_finishes_february :
    let r : Rule := { freq := .yearly, byMonth := [2], byMonthDay := [30] }
    let start : Value := .ofDateTime ⟨2024, 1, 1⟩ ⟨9, 0, 0⟩
    let zone : Zone := .shifting 3600 [⟨738976 * 86400 + 3600, 7200⟩]
    let target : Value := .ofDateTime ⟨2024, 3, 31⟩ ⟨2, 30, 0⟩
    (r.Valid ∧ start.IsReal ∧ zone.Short ∧ target.IsReal) ∧
      ∃ s₀ s₁ s₂, Settles (fun n => Series.create n r start zone 3) (.ok s₀) ∧
        Settles (fun n => s₀.advanceTo n target) (.ok (), s₁) ∧
        Settles (fun n => s₁.next n) (.error (.noMoreInstances (some r.text)), s₂) := by
  intro r start zone target
  have hvalid : r.Valid := by decide
  have hreal : start.IsReal := by decide
  have hzone : zone.Short := by decide
  have htarget : target.IsReal := by decide
  obtain ⟨⟨a, hcreate, ha⟩, hcalls⟩ := every_call_finishes hvalid hreal zone 3
  cases a with
  | error e => exact absurd ((ha e).mp rfl).1 (by decide)
  | ok s₀ =>
    obtain ⟨n, hn⟩ := hcreate.exists_bound
    have hs₀ := Series.Reachable.create hn
    obtain ⟨b, s₁, hmove, -, hb⟩ := (hcalls s₀ hs₀).2.2 target
    obtain rfl := hb hzone htarget
    obtain ⟨m, hm⟩ := hmove.exists_bound
    obtain ⟨c, s₂, hstep, hc⟩ := (hcalls s₁ (hs₀.advanceTo hm)).2.1
    have hrun : Settles (fun n => (Series.ops n).askAll [.advanceTo target, .next] s₀)
        ([.moved, .of .value c], s₂) := by
      filter_upwards [hmove, hstep] with n hn hn'
      simp only [CursorOps.askAll, CursorOps.ask, Series.ops, hn, hn', Option.map_some]
      rfl
    -- which of the two answers stepping has is computed
    obtain ⟨s₀', s, hcreate', hrun'⟩ := Series.askAll_of_answersOf (show Series.answersOf 100
      [.advanceTo target, .next] r start zone 3 =
        some ([.moved, .failed (.noMoreInstances (some r.text))], true) by decide +kernel)
    obtain rfl := Series.create_unique hcreate hcreate'
    obtain ⟨hanswers, -⟩ :=
      Prod.mk.inj (Patient.eq_of_settles (Series.patient_askAll _ _) hrun hrun')
    obtain rfl : c = .error (.noMoreInstances (some r.text)) := by
      rcases hc with ⟨v, rfl⟩ | rfl
      · simp [CursorAnswer.of] at hanswers
      · rfl
    exact ⟨⟨hvalid, hreal, hzone, htarget⟩, _, s₁, s₂, hcreate, hmove, hstep⟩

end Recurrence
