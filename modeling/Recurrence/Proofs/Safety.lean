/-
Recurrence/Proofs/Safety.lean

What holds of all that a series returns, whatever it is asked.

Calls come in any order, and each of them is answered: the only failure there is says that
no instance is left.  The values that are returned ascend, none is before the start or before
a target of an earlier move, and they keep to the end of the rule, be it a count or a bound
(`every_run_is_safe`).  The zone may change its offset as often as it likes, backwards and
forwards.

The proof follows one call after another.  What the series may still return is guarded by a
property, and each call adds to it what its own answer demands of the later ones.
-/
import Recurrence.Proofs.DateTargets
import Recurrence.Proofs.Series.Allowance
import Recurrence.Proofs.Series.Guarded
import Recurrence.Proofs.Series.Live

namespace Recurrence

variable {S : Supply} {K : Course} {e : Ending} {P P' : Value → Prop} {room room' : Option Int}
  {stop : SeriesError} {aim : Value → Value} {calls : List CursorCall}
  {answers : List CursorAnswer} {call : CursorCall} {a : CursorAnswer} {s s' : Series}
  {v u target : Value} {n : Nat}

/-! ### Safe answers -/

/-- The values among some answers. -/
def CursorAnswer.values (answers : List CursorAnswer) : List Value :=
  answers.filterMap fun a => match a with
    | .value v => some v
    | _ => none

/-- What is safe to answer to one call after another.  All values have a property, they ascend
and none is before a target of an earlier move; there is room for them; and the only failure
is that nothing is left. -/
structure Safe (P : Value → Prop) (room : Option Int) (stop : SeriesError) (aim : Value → Value)
    (calls : List CursorCall) (answers : List CursorAnswer) : Prop where
  holds : ∀ v ∈ CursorAnswer.values answers, P v
  ascending : (CursorAnswer.values answers).Pairwise fun v w => v.key < w.key
  reached : ∀ (i j : Nat) target v, i < j → calls[i]? = some (CursorCall.advanceTo target) →
    answers[j]? = some (CursorAnswer.value v) → ¬ v < aim target
  fits : ∀ k ∈ room, ((CursorAnswer.values answers).length : Int) ≤ k
  failures : ∀ error, .failed error ∈ answers → error = stop

namespace Safe

theorem mem_values : v ∈ CursorAnswer.values answers ↔ .value v ∈ answers := by
  unfold CursorAnswer.values
  rw [List.mem_filterMap]
  constructor
  · rintro ⟨a, ha, hv⟩
    cases a <;> simp at hv
    exact hv ▸ ha
  · exact fun h => ⟨_, h, rfl⟩

theorem nil (hroom : ∀ k ∈ room, 0 ≤ k) : Safe P room stop aim [] [] where
  holds v hv := absurd hv (by simp [CursorAnswer.values])
  ascending := .nil
  reached i j target v _ h := by simp at h
  fits k hk := by simpa [CursorAnswer.values] using hroom k hk
  failures error h := absurd h (by simp)

theorem mono (h : Safe P' room' stop aim calls answers) (hP : ∀ v, P' v → P v)
    (hroom : ∀ k ∈ room, ∃ k' ∈ room', k' ≤ k) : Safe P room stop aim calls answers where
  holds v hv := hP v (h.holds v hv)
  ascending := h.ascending
  reached := h.reached
  fits k hk := by
    obtain ⟨k', hk', hle⟩ := hroom k hk
    exact (h.fits k' hk').trans hle
  failures := h.failures

/-- An answer that is no value stands before safe ones, if these respect its target. -/
theorem cons (h : Safe P room stop aim calls answers) (ha : ∀ v, a ≠ .value v)
    (herror : ∀ error, a = .failed error → error = stop)
    (hmove : ∀ target, call = .advanceTo target →
      ∀ v ∈ CursorAnswer.values answers, ¬ v < aim target) :
    Safe P room stop aim (call :: calls) (a :: answers) := by
  have hvalues : CursorAnswer.values (a :: answers) = CursorAnswer.values answers := by
    cases a with
    | value v => exact absurd rfl (ha v)
    | _ => rfl
  refine ⟨hvalues ▸ h.holds, hvalues ▸ h.ascending, ?_, hvalues ▸ h.fits, fun error herr => ?_⟩
  · -- a target of the new call stands before all answers that follow, as `hmove` demands
    rintro i (_ | j) target v hij hi hj
    · omega
    rw [List.getElem?_cons_succ] at hj
    cases i with
    | zero =>
      exact hmove target (by simpa using hi) v (mem_values.mpr (List.mem_of_getElem? hj))
    | succ i => exact h.reached i j target v (by omega) (by simpa using hi) hj
  · rcases List.mem_cons.mp herr with heq | hmem
    · exact herror error heq.symm
    · exact h.failures error hmem

/-- A value stands before safe answers whose values come after it. -/
theorem value (h : Safe (fun u => P u ∧ v.key < u.key) room' stop aim calls answers) (hv : P v)
    (hroom : room = room'.map (· + 1)) :
    Safe P room stop aim (.next :: calls) (.value v :: answers) where
  holds := List.forall_mem_cons.mpr ⟨hv, fun u hu => (h.holds u hu).1⟩
  ascending := List.pairwise_cons.mpr ⟨fun u hu => (h.holds u hu).2, h.ascending⟩
  reached := by
    rintro (_ | i) (_ | j) target w hij hi hj
    · omega
    · simp at hi
    · omega
    · exact h.reached i j target w (by omega) (by simpa using hi) (by simpa using hj)
  fits := by
    subst hroom
    intro k hk
    obtain ⟨k', hk', rfl⟩ := Option.map_eq_some_iff.mp hk
    have := h.fits k' hk'
    show ((CursorAnswer.values answers).length + 1 : Int) ≤ k' + 1
    omega
  failures error herr := h.failures error (by simpa using herr)

end Safe

/-! ### Runs -/

/-- What is safe for a series to answer whose instances a property guards. -/
def Series.SafeFrom (s : Series) (K : Course) (e : Ending) (P : Value → Prop)
    (calls : List CursorCall) (answers : List CursorAnswer) : Prop :=
  Safe (fun v => P v ∧ Accounts K e s.zone v) s.allowance (.noMoreInstances (some s.rule.text))
    s.roundTarget calls answers

/-- **One call** adds to the property what its answer demands of the later ones. -/
theorem safe_ask (hK : K.Begins) (hS : S.Passes) (hlive : S.Live s) (hguarded : s.Guarded K e P)
    (hzone : s.zone.Short) (hcall : call.Aims Value.IsReal) :
    ∃ a s₁ P₁, Settles (fun n => (Series.ops n).ask call s) (a, s₁) ∧ s.SameRule s₁ ∧ S.Live s₁ ∧
      s₁.Guarded K e P₁ ∧ ∀ calls answers, s₁.SafeFrom K e P₁ calls answers →
        s.SafeFrom K e P (call :: calls) (a :: answers) := by
  unfold Series.SafeFrom
  cases call with
  | hasNext =>
    obtain ⟨s₁, hsettles, hrule, hlive₁⟩ := hlive.hasNext
    obtain ⟨n, hn⟩ := hsettles.exists_bound
    refine ⟨_, s₁, P, hsettles.map _, hrule, hlive₁, hguarded.hasNext hK hn, fun calls answers h => ?_⟩
    rw [hrule.zone, hrule.rule, hrule.roundTarget, Series.allowance_hasNext hn] at h
    exact h.cons (by simp [CursorAnswer.of]) (by simp [CursorAnswer.of]) (by simp)
  | next =>
    obtain ⟨r, s₁, hsettles, hrule, hlive₁, ⟨v, rfl⟩ | rfl⟩ := hlive.next
    · obtain ⟨n, hn⟩ := hsettles.exists_bound
      obtain ⟨hPv, haccounts, hguarded₁⟩ := hguarded.next hK hn
      refine ⟨_, s₁, _, hsettles.map _, hrule, hlive₁, hguarded₁, fun calls answers h => ?_⟩
      rw [hrule.zone, hrule.rule, hrule.roundTarget] at h
      -- the value that is returned asks the later ones to come after it
      have hlater := h.mono (P := fun u => (P u ∧ Series.Accounts K e s.zone u) ∧ v.key < u.key)
        (fun u hu => ⟨⟨hu.1.1, hu.2⟩, hu.1.2⟩) fun k hk => ⟨k, hk, le_rfl⟩
      exact hlater.value ⟨hPv, haccounts⟩ (Series.allowance_next hn)
    · obtain ⟨n, hn⟩ := hsettles.exists_bound
      refine ⟨_, s₁, P, hsettles.map _, hrule, hlive₁, hguarded.step hK hn, fun calls answers h => ?_⟩
      rw [hrule.zone, hrule.rule, hrule.roundTarget, Series.allowance_failed hn] at h
      exact h.cons (by simp [CursorAnswer.of]) (by simp [CursorAnswer.of, eq_comm]) (by simp)
  | advanceTo target =>
    have htarget := hcall target rfl
    obtain ⟨l, hl⟩ := Value.exists_fromUtc hzone ((s.roundsTo_roundTarget htarget).isReal htarget)
    obtain ⟨s₁, hsettles, hrule, hlive₁⟩ := hlive.advanceTo hS fun _ => ⟨l, hl⟩
    obtain ⟨n, hn⟩ := hsettles.exists_bound
    refine ⟨_, s₁, _, hsettles.map _, hrule, hlive₁, hguarded.advanceTo hK hn,
      fun calls answers h => ?_⟩
    rw [hrule.zone, hrule.rule, hrule.roundTarget] at h
    -- the target asks all later values not to be before it
    refine (h.mono (fun u hu => ⟨hu.1.1, hu.2⟩) (Series.allowance_advanceTo hn)).cons
      (by simp [CursorAnswer.of]) (by simp [CursorAnswer.of]) ?_
    rintro _ ⟨⟩ v hv
    exact (h.holds v hv).1.2

/-- **A run** of a series is safe, whatever guards its instances. -/
theorem safe_askAll (hK : K.Begins) (hS : S.Passes) (hlive : S.Live s) (hguarded : s.Guarded K e P)
    (hzone : s.zone.Short) (hcalls : ∀ call ∈ calls, call.Aims Value.IsReal) :
    ∃ answers s', Settles (fun n => (Series.ops n).askAll calls s) (answers, s') ∧
      s.SafeFrom K e P calls answers := by
  -- on the calls, for whatever property guards the state that the first of them leads to
  induction calls generalizing s P with
  | nil => exact ⟨[], s, settles_const _, .nil s.allowance_nonneg⟩
  | cons call calls ih =>
    rw [List.forall_mem_cons] at hcalls
    obtain ⟨a, s₁, P₁, hask, hrule, hlive₁, hguarded₁, hcons⟩ :=
      safe_ask hK hS hlive hguarded hzone hcalls.1
    obtain ⟨answers, s', hrest, hsafe⟩ := ih hlive₁ hguarded₁ (hrule.zone ▸ hzone) hcalls.2
    exact ⟨a :: answers, s', CursorOps.settles_askAll_cons hask hrest, hcons calls answers hsafe⟩

/-- What the ending of a rule admits keeps to the bound of the rule: a date is a bound for the
local date, and a date-time for the instance in UTC, or for its date alone. -/
theorem Ending.within_of_admits {r : Rule} {last w : Value} (hr : r.Valid)
    (hlast : r.untilBound = some last) (h : (Ending.ofRule r).Admits w v) :
    (last.hasTime = false → w.date.key ≤ last.date.key) ∧
      (last.hasTime = true → v.hasTime = true → v.key ≤ last.key) ∧
      (last.hasTime = true → v.hasTime = false → v.date.key ≤ last.date.key) := by
  have hcount : r.count = none := hr.2.2.1.resolve_right (by simp [hlast])
  have hwithin : Ending.withinBound last w v = true :=
    h last (by simp only [Ending.ofRule, hcount, hlast])
  unfold Ending.withinBound at hwithin
  refine ⟨fun hl => ?_, fun hl hv => ?_, fun hl hv => ?_⟩
  · simpa [hl] using hwithin
  · simpa [hl, hv] using hwithin
  · simpa [hl, hv] using hwithin

/-- **Every run is safe.**  Take a series of a valid rule, in any zone whose offsets are shorter
than a day.  It can be created wherever the rule can use the start.  Whatever it is asked then,
with real targets, it answers all calls, and its only failure is that no instance is left.  The
values that it returns ascend, none is before the start in UTC, and each is the UTC value of a
member of the rule's course that keeps to the end of the rule.  There are no more of them than
the count of the rule allows, and none is before a target, rounded to a whole date in a series
of dates, that an earlier call has moved to. -/
theorem every_run_is_safe {r : Rule} {start : Value} {budget : Int} {zone : Zone} (hr : r.Valid)
    (hreal : start.IsReal) (hbudget : 0 ≤ budget) (hzone : zone.Short) :
    ((r.freq.isSubDaily = true → start.hasTime = true) →
      ∃ s₀, Settles (fun n => Series.create n r start zone budget) (.ok s₀)) ∧
    ∃ startUtc, start.toUtc zone = .ok startUtc ∧
      ∀ (bound : Nat) (s₀ : Series), Series.create bound r start zone budget = some (.ok s₀) →
        (∀ target : Value, target.IsReal → target.RoundsTo start.hasTime (s₀.roundTarget target)) ∧
        ∀ calls : List CursorCall, (∀ call ∈ calls, call.Aims Value.IsReal) →
          ∃ answers s, Settles (fun n => (Series.ops n).askAll calls s₀) (answers, s) ∧
            Safe (fun v => ¬ v < startUtc ∧ ∃ w, (r.course start budget).Member w ∧
                w.toUtc zone = .ok v ∧ ∀ last, r.untilBound = some last →
                  (last.hasTime = false → w.date.key ≤ last.date.key) ∧
                  (last.hasTime = true → start.hasTime = true → v.key ≤ last.key) ∧
                  (last.hasTime = true → start.hasTime = false → v.date.key ≤ last.date.key))
              r.count (.noMoreInstances (some r.text)) s₀.roundTarget calls answers := by
  refine ⟨fun hsub => Rule.exists_create ⟨hr, hreal, hsub⟩ hbudget zone, ?_⟩
  obtain ⟨startUtc, hutc, -⟩ := Value.toUtc_spec zone hreal
  refine ⟨startUtc, hutc, fun bound s₀ hcreate => ?_⟩
  have hadmits := Series.admits_of_create hr hreal hcreate
  obtain ⟨S, hS, hlive, hrule, hstart, hzone₁⟩ := Rule.live_of_create hadmits hbudget hcreate
  have hguarded := Series.guarded_create hadmits hbudget hutc hcreate
  refine ⟨fun target ht => hstart ▸ s₀.roundsTo_roundTarget ht, fun calls hcalls => ?_⟩
  obtain ⟨answers, s, hrun, hsafe⟩ := safe_askAll (Rule.begins_course hadmits hbudget) hS hlive
    hguarded (hzone₁ ▸ hzone) hcalls
  rw [Series.SafeFrom, hrule, hzone₁, Series.allowance_create hr hcreate] at hsafe
  refine ⟨answers, s, hrun, hsafe.mono ?_ fun k hk => ⟨k, hk, le_rfl⟩⟩
  -- what the ending admits is spelled out as the bound of the rule
  rintro v ⟨hle, w, hw, hwv, hend⟩
  have hkind := (Series.Accounts.isReal (Rule.begins_course hadmits hbudget)
    ⟨w, hw, hwv, hend⟩).2.trans (Rule.course_hasTime r start budget)
  refine ⟨hle, w, hw, hwv, fun last hlast => ?_⟩
  rw [← hkind]
  exact Ending.within_of_admits hr hlast hend

/-- Every hour in a night in which the clocks are put forward: of the two hours that are one
instant, one is dropped.  The run ends at the bound. -/
theorem every_run_is_safe_spring :
    let r : Rule := { untilBound := some (.ofDateTime ⟨2024, 3, 31⟩ ⟨2, 30, 0⟩), freq := .hourly }
    let start : Value := .ofDateTime ⟨2024, 3, 31⟩ ⟨0, 30, 0⟩
    let zone : Zone := .shifting 3600 [⟨738976 * 86400 + 3600, 7200⟩]
    let calls : List CursorCall := [.hasNext, .next, .next, .next,
      .advanceTo (.ofDateTime ⟨2024, 3, 31⟩ ⟨2, 0, 0⟩), .hasNext, .next, .next]
    let values : List Value := [.ofDateTime ⟨2024, 3, 30⟩ ⟨23, 30, 0⟩,
      .ofDateTime ⟨2024, 3, 31⟩ ⟨0, 30, 0⟩, .ofDateTime ⟨2024, 3, 31⟩ ⟨1, 30, 0⟩,
      .ofDateTime ⟨2024, 3, 31⟩ ⟨2, 30, 0⟩]
    ∃ s₀ answers s, Settles (fun n => Series.create n r start zone 100) (.ok s₀) ∧
      Settles (fun n => (Series.ops n).askAll calls s₀) (answers, s) ∧
      CursorAnswer.values answers = values ∧ values.Pairwise (fun v w => v.key < w.key) := by
  intro r start zone calls values
  have hanswers : (Series.answersOf 100 calls r start zone 100).map
      (fun b => CursorAnswer.values b.1) = some values := by decide +kernel
  obtain ⟨⟨answers, halted⟩, hanswersOf, hvalues⟩ := Option.map_eq_some_iff.mp hanswers
  obtain ⟨s₀, s, hcreate, hrun⟩ := Series.askAll_of_answersOf hanswersOf
  obtain ⟨startUtc, -, h⟩ := (every_run_is_safe (show r.Valid by decide)
    (show start.IsReal by decide) (show (0 : Int) ≤ 100 by decide)
    (show zone.Short by decide)).2
  have hcalls : ∀ call ∈ calls, call.Aims Value.IsReal := by
    rintro _ hcall target rfl
    obtain rfl : target = .ofDateTime ⟨2024, 3, 31⟩ ⟨2, 0, 0⟩ := by simpa [calls] using hcall
    decide
  obtain ⟨answers', s', hsettles, hsafe⟩ := (h 100 s₀ hcreate).2 calls hcalls
  obtain ⟨rfl, rfl⟩ := Prod.mk.inj
    (Patient.eq_of_settles (Series.patient_askAll calls s₀) hsettles hrun)
  exact ⟨s₀, answers, s, Patient.settles (Series.patient_create r start zone 100) hcreate, hsettles,
    hvalues, hvalues ▸ hsafe.ascending⟩

end Recurrence
