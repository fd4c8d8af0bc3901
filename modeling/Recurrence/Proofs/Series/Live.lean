/-
Recurrence/Proofs/Series/Live.lean

A series always has an answer, in any zone.

Where the offset of a zone changes, later instances need not be later in UTC, and those that
are not are dropped.  Still only finitely many instances are dropped in a row: each is later on
the clock than the one before, and UTC values lag behind the clock by no more than some bound.
So a series whose source goes on comes to its next instance, or to the end of its source
(`Supply.Live.next`), and a move to a target comes to an end as well (`Supply.Live.advanceTo`).
-/
import Recurrence.Proofs.Calendar.Shifts
import Recurrence.Proofs.Series.Advance
import Recurrence.Proofs.Series.Selected

namespace Recurrence

variable {S : Supply} {s s' : Series} {R : Value → Prop} {v u w target : Value}

/-! ### Values from an instant on -/

/-- The values with a property lie at an instant or later. -/
def LowFrom (timed : Bool) (R : Value → Prop) (m : Int) : Prop :=
  ∀ w : Value, w.IsReal → w.hasTime = timed → R w → m ≤ w.instant

theorem lowFrom_after (hv : v.IsReal) : LowFrom v.hasTime (v < ·) (v.instant + 1) := by
  intro w hw hkind hlt
  exact (Value.lt_iff_instant hv hw hkind.symm).mp hlt

namespace Supply

/-! ### Generating -/

/-- The last instance that has been generated was a real value of a kind. -/
def LastReal (timed : Bool) (last : Option (List Int)) : Prop :=
  ∀ k ∈ last, ∃ u : Value, u.IsReal ∧ u.hasTime = timed ∧ u.key = k

/-- What is not later than the last instance lies at some instant or earlier. -/
theorem LastReal.exists_cap {timed : Bool} {last : Option (List Int)} (h : LastReal timed last) :
    ∃ cap, ∀ k ∈ last, ∀ u : Value, u.IsReal → u.hasTime = timed → ¬ k < u.key → u.instant ≤ cap := by
  cases last with
  | none => exact ⟨0, by simp⟩
  | some k =>
    -- the last instance itself is the cap
    obtain ⟨x, hx, hxt, rfl⟩ := h k rfl
    refine ⟨x.instant, ?_⟩
    rintro _ ⟨⟩ u hu hut hle
    have hkind := hxt.trans hut.symm
    rwa [← Value.lt_iff_key hkind, Value.lt_iff_instant hx hu hkind, not_lt] at hle

/-- What lies late enough on the clock is later in UTC than the last instance. -/
theorem LastReal.exists_limit {timed : Bool} {last : Option (List Int)} (h : LastReal timed last)
    (z : Zone) : ∃ limit, ∀ v : Value, v.IsReal → v.hasTime = timed → ∃ u, v.toUtc z = .ok u ∧
      u.IsReal ∧ u.hasTime = timed ∧ ∀ k ∈ last, ¬ k < u.key → v.instant ≤ limit := by
  obtain ⟨M, hM⟩ := Value.exists_reach z
  obtain ⟨cap, hcap⟩ := h.exists_cap
  refine ⟨cap + M, fun v hv hvt => ?_⟩
  obtain ⟨u, hutc, hu, hut, hreach⟩ := hM v hv
  refine ⟨u, hutc, hu, hut.trans hvt, fun k hk hle => ?_⟩
  have := hcap k hk u hu (hut.trans hvt) hle
  omega

/-- The source of a series awaits the values with `R`, in whatever zone. -/
structure Stocked (S : Supply) (s : Series) (R : Value → Prop) : Prop where
  lawful : S.Lawful s.rule s.start
  awaits : S.Awaits s.source R
  low : ∃ m, LowFrom s.hasTime R m
  last : LastReal s.hasTime s.lastKey

/-- What generating comes to: an instance that no bound from below on what was awaited excludes,
or the end of the source. -/
def Generates (S : Supply) (s : Series) (R : Value → Prop)
    (b : Except SeriesError (Option (Value × Value)) × Series) : Prop :=
  ∃ a, b.1 = .ok a ∧ s.Draws b.2 ∧ LastReal s.hasTime b.2.lastKey ∧
    ((∃ v u, a = some (v, u) ∧ (v.IsReal ∧ v.hasTime = s.hasTime) ∧
      (u.IsReal ∧ u.hasTime = s.hasTime) ∧ v.toUtc s.zone = .ok u ∧
      (∀ m, LowFrom s.hasTime R m → m ≤ v.instant) ∧ S.Stocked b.2 (v < ·)) ∨ a = none)

/-- What has become of a series that has drawn nothing but instances to be dropped.  Each of them was
later on the clock than the one before, so the lower bound `m` on what is awaited has grown, and it
passes the limit in at most `k` seconds. -/
structure Retries (S : Supply) (s : Series) (R : Value → Prop) (limit : Int) (k : Nat) (s₁ : Series)
    (R₁ : Value → Prop) (m : Int) : Prop where
  draws : s.Draws s₁
  last : s₁.lastKey = s.lastKey
  awaits : S.Awaits s₁.source R₁
  low : LowFrom s.hasTime R₁ m
  grows : ∀ m, LowFrom s.hasTime R m → LowFrom s.hasTime R₁ m
  close : limit < m + k

/-- **An attempt** comes to an instance after the last one, or to the end of the source; or it drops
an instance, which then lies before the limit. -/
theorem Retries.attempt (hs : S.Stocked s R) {limit : Int}
    (hlimit : ∀ v : Value, v.IsReal → v.hasTime = s.hasTime → ∃ u, v.toUtc s.zone = .ok u ∧
      u.IsReal ∧ u.hasTime = s.hasTime ∧ ∀ k ∈ s.lastKey, ¬ k < u.key → v.instant ≤ limit)
    {k : Nat} {s₁ : Series} {R₁ : Value → Prop} {m₁ : Int}
    (h : S.Retries s R limit k s₁ R₁ m₁) :
    Progresses (fun n s₁ => s₁.attempt n) (fun k s₁ => ∃ R₁ m₁, S.Retries s R limit k s₁ R₁ m₁)
      (S.Generates s R) k s₁ := by
  have hclose := h.close
  have hlawful : S.Lawful s₁.rule s₁.start := by
    rw [h.draws.rule, h.draws.start]
    exact hs.lawful
  obtain ⟨answer, src, hnext, -, ⟨v, rfl, ⟨hv, hvt, hRv⟩, hawaits, -⟩ | ⟨rfl, -⟩⟩ :=
    hlawful.next s₁.source R₁ h.awaits
  · have hvt : v.hasTime = s.hasTime := hvt.trans h.draws.hasTime
    have hmv := h.low v hv hvt hRv
    obtain ⟨u, hutc, hu, hut, hold⟩ := hlimit v hv hvt
    have hutc₁ : v.toUtc s₁.zone = .ok u := h.draws.zone ▸ hutc
    by_cases hnew : ∀ k ∈ s₁.lastKey, k < u.key
    · refine .inl ⟨(.ok (some (v, u)), { s₁ with source := src, lastKey := some u.key }),
        Series.settles_attempt_new hnext hutc₁ hnew, _, rfl,
        h.draws.trans ⟨⟨rfl, rfl, rfl⟩, rfl, rfl, rfl⟩, ?_, .inl ⟨v, u, rfl, ⟨hv, hvt⟩, ⟨hu, hut⟩,
          hutc, fun m hm => h.grows m hm v hv hvt hRv, hlawful, hawaits, ⟨v.instant + 1, ?_⟩, ?_⟩⟩
      · rintro _ ⟨⟩
        exact ⟨u, hu, hut, rfl⟩
      · show LowFrom s₁.hasTime _ _
        rw [h.draws.hasTime, ← hvt]
        exact lowFrom_after hv
      · rintro _ ⟨⟩
        exact ⟨u, hu, hut.trans h.draws.hasTime.symm, rfl⟩
    · obtain ⟨last, hl, hle⟩ : ∃ last ∈ s₁.lastKey, ¬ last < u.key := by simpa using hnew
      have hvlimit := hold last (h.last ▸ hl) hle
      refine .inr ⟨{ s₁ with source := src }, (limit - v.instant).toNat,
        Series.settles_attempt_old hnext hutc₁ hl hle, by omega, (v < ·), v.instant + 1,
        h.draws.trans ⟨⟨rfl, rfl, rfl⟩, rfl, rfl, rfl⟩, h.last, hawaits, ?_,
        fun m hm w hw hwt hlt => ?_, by omega⟩
      · rw [← hvt]
        exact lowFrom_after hv
      · have := lowFrom_after hv w hw (hwt.trans hvt.symm) hlt
        have := h.grows m hm v hv hvt hRv
        omega
  · refine .inl ⟨(.ok none, { s₁ with source := src }), Series.settles_attempt_none hnext, none, rfl,
      h.draws.trans ⟨⟨rfl, rfl, rfl⟩, rfl, rfl, rfl⟩, ?_, .inr rfl⟩
    show LastReal s.hasTime s₁.lastKey
    rw [h.last]
    exact hs.last

/-- **Generating** comes to an instance after the last one, or to the end of the source. -/
theorem Stocked.generate (h : S.Stocked s R) :
    ∃ b, Settles (fun n => s.generate n) b ∧ S.Generates s R b := by
  obtain ⟨limit, hlimit⟩ := h.last.exists_limit s.zone
  obtain ⟨m, hm⟩ := h.low
  have hretries : S.Retries s R limit (limit - m + 1).toNat s R m :=
    ⟨.refl s, rfl, h.awaits, hm, fun _ => id, by omega⟩
  exact loop_settles Series.patient_attempt (fun k s₁ => ∃ R₁ m₁, S.Retries s R limit k s₁ R₁ m₁)
    (S.Generates s R) (fun _ _ ⟨_, _, hretries⟩ => hretries.attempt h hlimit) ⟨R, m, hretries⟩

/-! ### Looking and stepping -/

/-- A series that has stopped, or whose source goes on. -/
def Live (S : Supply) (s : Series) : Prop := s.finished = true ∨ ∃ R, S.Stocked s R

theorem Stocked.congr (h : S.Stocked s R) (hrule : s.SameRule s') (hsource : s'.source = s.source)
    (hlast : s'.lastKey = s.lastKey) : S.Stocked s' R where
  lawful := by rw [hrule.rule, hrule.start]; exact h.lawful
  awaits := hsource ▸ h.awaits
  low := by rw [hrule.hasTime]; exact h.low
  last := by rw [hrule.hasTime, hlast]; exact h.last

theorem Stocked.judge (h : S.Stocked s R) (v u : Value) : S.Live (s.judge v u).2 := by
  exact .inr ⟨R, h.congr (Series.sameRule_judge s v u) (Series.judge_source s v u)
    (Series.judge_lastKey s v u)⟩

theorem Live.take (h : S.Live s) : S.Live { s with pending := none } :=
  h.imp_right fun ⟨R, h⟩ => ⟨R, h.congr ⟨rfl, rfl, rfl⟩ rfl rfl⟩

/-- **Looking for the next instance** settles. -/
theorem Live.hasNext (h : S.Live s) : ∃ s', Settles (fun n => s.hasNext n) (.ok s'.pending.isSome, s') ∧
    s.SameRule s' ∧ S.Live s' := by
  by_cases hlooks : s.pending = none ∧ s.finished = false
  · obtain ⟨hpending, hfinished⟩ := hlooks
    obtain ⟨R, hstocked⟩ := h.resolve_left (by simp [hfinished])
    obtain ⟨⟨_, s₁⟩, hsettles, a, rfl, hdraws, -, hout⟩ := hstocked.generate
    rcases hout with ⟨v, u, rfl, -, -, -, -, hstocked'⟩ | rfl
    · exact ⟨(s₁.judge v u).2, Series.settles_hasNext_of_generate hpending hfinished hsettles,
        hdraws.toSameRule.trans (Series.sameRule_judge _ _ _), hstocked'.judge v u⟩
    · have hlook := Series.settles_hasNext_of_none hpending hfinished hsettles
      exact ⟨{ s₁ with finished := true }, hlook, hdraws.toSameRule.trans ⟨rfl, rfl, rfl⟩, .inl rfl⟩
  · exact ⟨s, Series.settles_hasNext_of_held fun hpending => by simpa [hpending] using hlooks,
      .refl s, h⟩

/-- **The next instance** is returned, or there is none and the series says so. -/
theorem Live.next (h : S.Live s) : ∃ a s', Settles (fun n => s.next n) (a, s') ∧ s.SameRule s' ∧
    S.Live s' ∧ ((∃ v, a = .ok v) ∨ a = .error (.noMoreInstances (some s.rule.text))) := by
  obtain ⟨s₁, hsettles, hrule, hlive⟩ := h.hasNext
  have hnext : Settles (fun n => s.next n) s₁.stepOf := by
    filter_upwards [hsettles] with n hn
    exact Series.next_of_hasNext hn
  unfold Series.stepOf at hnext
  cases hp : s₁.pending with
  | none =>
    rw [hp, hrule.rule] at hnext
    exact ⟨_, s₁, hnext, hrule, hlive, .inr rfl⟩
  | some v =>
    rw [hp] at hnext
    exact ⟨.ok v, _, hnext, hrule.trans ⟨rfl, rfl, rfl⟩, hlive.take, .inl ⟨v, rfl⟩⟩

/-! ### Dropping -/

/-- What one turn of a loop does that drops instances before a target: it ends the loop, or it
drops an instance. -/
def Drops (S : Supply) (target : Value)
    (turn : Nat → Series → Option (Turn Series (Except SeriesError Unit × Series))) (s : Series)
    (R : Value → Prop) : Prop :=
  (∃ s', Settles (fun n => turn n s) (.done (.ok (), s')) ∧ s.SameRule s' ∧ S.Live s') ∨
    ∃ s' v u, Settles (fun n => turn n s) (.again s') ∧ s.SameRule s' ∧ S.Stocked s' (v < ·) ∧
      (v.IsReal ∧ v.hasTime = s.hasTime) ∧ (u.IsReal ∧ u < target) ∧ v.toUtc s.zone = .ok u ∧
      ∀ m, LowFrom s.hasTime R m → m ≤ v.instant

/-- What is before a target in UTC lies before some instant on the clock. -/
theorem exists_limit_of_target (z : Zone) (target : Value) : ∃ limit, ∀ v u : Value, v.IsReal →
    u.IsReal → v.toUtc z = .ok u → u < target → v.instant < limit := by
  obtain ⟨M, hM⟩ := Value.exists_reach z
  -- in UTC it lies in the target's year or earlier
  refine ⟨(Gregorian.dayNumber target.date.year 1 1 + 366) * 86400 + M, fun v u hv hu hutc hlt => ?_⟩
  obtain ⟨u', hutc', -, -, hreach⟩ := hM v hv
  obtain rfl : u = u' := Except.ok.inj (hutc.symm.trans hutc')
  have := instant_lt_of_lt hu hlt
  omega

/-- What has become of a series that drops the instances before a target: the lower bound `m` on what
its source awaits has grown, and it passes the limit in at most `k` seconds. -/
structure Nears (S : Supply) (s : Series) (limit : Int) (k : Nat) (s₁ : Series) (R₁ : Value → Prop)
    (m : Int) : Prop where
  sameRule : s.SameRule s₁
  stocked : S.Stocked s₁ R₁
  low : LowFrom s.hasTime R₁ m
  close : limit < m + k

theorem Nears.turn {turn : Nat → Series → Option (Turn Series (Except SeriesError Unit × Series))}
    (hdrops : ∀ s R, S.Stocked s R → S.Drops target turn s R) {limit : Int}
    (hlimit : ∀ v u : Value, v.IsReal → u.IsReal → v.toUtc s.zone = .ok u → u < target →
      v.instant < limit) {k : Nat} {s₁ : Series} {R₁ : Value → Prop} {m₁ : Int}
    (h : S.Nears s limit k s₁ R₁ m₁) :
    Progresses turn (fun k s₁ => ∃ R₁ m₁, S.Nears s limit k s₁ R₁ m₁)
      (fun b => b.1 = .ok () ∧ s.SameRule b.2 ∧ S.Live b.2) k s₁ := by
  have hclose := h.close
  rcases hdrops s₁ R₁ h.stocked with ⟨s₂, hsettles, hrule, hlive⟩ |
    ⟨s₂, v, u, hsettles, hrule, hstocked, ⟨hv, hvt⟩, ⟨hu, hlt⟩, hutc, hfrom⟩
  · exact .inl ⟨_, hsettles, rfl, h.sameRule.trans hrule, hlive⟩
  · rw [h.sameRule.zone] at hutc
    have hvlimit := hlimit v u hv hu hutc hlt
    have hmv := hfrom m₁ (h.sameRule.hasTime ▸ h.low)
    refine .inr ⟨s₂, (limit - v.instant).toNat, hsettles, by omega, (v < ·), v.instant + 1,
      h.sameRule.trans hrule, hstocked, ?_, by omega⟩
    rw [← h.sameRule.hasTime, ← hvt]
    exact lowFrom_after hv

/-- **Dropping the instances before a target** comes to an end. -/
theorem Stocked.drop {turn : Nat → Series → Option (Turn Series (Except SeriesError Unit × Series))}
    (hp : ∀ s, Patient fun n => turn n s) (hdrops : ∀ s R, S.Stocked s R → S.Drops target turn s R)
    (h : S.Stocked s R) :
    ∃ s', Settles (fun n => loop (turn n) n s) (.ok (), s') ∧ s.SameRule s' ∧ S.Live s' := by
  obtain ⟨limit, hlimit⟩ := exists_limit_of_target s.zone target
  obtain ⟨m, hm⟩ := h.low
  have hnears : S.Nears s limit (limit - m + 1).toNat s R m := ⟨.refl s, h, hm, by omega⟩
  obtain ⟨⟨_, s'⟩, hsettles, rfl, hrule, hlive⟩ :=
    loop_settles hp (fun k s₁ => ∃ R₁ m₁, S.Nears s limit k s₁ R₁ m₁)
      _ (fun _ _ ⟨_, _, hnears⟩ => hnears.turn hdrops hlimit) ⟨R, m, hnears⟩
  exact ⟨s', hsettles, hrule, hlive⟩

/-- A turn that starts a series drops an instance, or the series is ready. -/
theorem Stocked.startTurn (h : S.Stocked s R) (startUtc : Value) :
    S.Drops startUtc (fun n s => Series.startTurn n startUtc s) s R := by
  obtain ⟨⟨_, s₁⟩, hsettles, a, rfl, hdraws, -, hout⟩ := h.generate
  rcases hout with ⟨v, u, rfl, hv, hu, hutc, hfrom, hstocked⟩ | rfl
  · by_cases hlt : u < startUtc
    · exact .inr ⟨s₁, v, u, Series.settles_startTurn_of_lt hsettles hlt, hdraws.toSameRule, hstocked,
        hv, ⟨hu.1, hlt⟩, hutc, hfrom⟩
    · exact .inl ⟨(s₁.judge v u).2, Series.settles_startTurn_of_not_lt hsettles hlt,
        hdraws.toSameRule.trans (Series.sameRule_judge _ _ _), hstocked.judge v u⟩
  · exact .inl ⟨{ s₁ with finished := true }, Series.settles_startTurn_of_none hsettles,
      hdraws.toSameRule.trans ⟨rfl, rfl, rfl⟩, .inl rfl⟩

/-- A turn that skips drops an instance, or the target has been reached. -/
theorem Stocked.skipTurn (h : S.Stocked s R) (target : Value) :
    S.Drops target (fun n s => Series.skipTurn n target s) s R := by
  obtain ⟨⟨_, s₁⟩, hsettles, a, rfl, hdraws, -, hout⟩ := h.generate
  rcases hout with ⟨v, u, rfl, hv, hu, hutc, hfrom, hstocked⟩ | rfl
  · have hrule := hdraws.toSameRule.trans (Series.sameRule_judge s₁ v u)
    by_cases hdrop : (s₁.judge v u).1 = true ∧ u < target
    · refine .inr ⟨{ (s₁.judge v u).2 with pending := none }, v, u, ?_, hrule.trans ⟨rfl, rfl, rfl⟩,
        ?_, hv, ⟨hu.1, hdrop.2⟩, hutc, hfrom⟩
      · filter_upwards [hsettles] with n hn
        simp only [Series.skipTurn, hn, hdrop, and_self, if_true]
      · exact (hstocked.congr (Series.sameRule_judge s₁ v u) (Series.judge_source s₁ v u)
          (Series.judge_lastKey s₁ v u)).congr ⟨rfl, rfl, rfl⟩ rfl rfl
    · refine .inl ⟨(s₁.judge v u).2, ?_, hrule, hstocked.judge v u⟩
      filter_upwards [hsettles] with n hn
      simp only [Series.skipTurn, hn, hdrop, if_false]
  · refine .inl ⟨{ s₁ with finished := true }, ?_, hdraws.toSameRule.trans ⟨rfl, rfl, rfl⟩, .inl rfl⟩
    filter_upwards [hsettles] with n hn
    simp only [Series.skipTurn, hn]

/-! ### Creating a series -/

/-- **A series of a rule** can be created in any zone. -/
theorem Begins.live {r : Rule} {start : Value} {budget : Int} (h : S.Begins r start budget)
    (hr : r.Admits start) (zone : Zone) :
    ∃ s, Settles (fun n => Series.create n r start zone budget) (.ok s) ∧ S.Live s ∧
      s.rule = r ∧ s.start = start ∧ s.zone = zone := by
  obtain ⟨startUtc, hutc, -⟩ := Value.toUtc_spec zone hr.real
  by_cases hreach : r.reaches start = true
  · -- the first run of the chain stands on a value or finds that there is none
    rcases h.run with ⟨c, R, m, hrun, hawaits, -, -, hlow⟩ | ⟨c, hrun, -⟩
    · have hstocked : S.Stocked (Series.unstarted r start zone c) R :=
        ⟨h.lawful, hawaits, ⟨m, hlow⟩, by rintro k ⟨⟩⟩
      obtain ⟨s, hsettles, hrule, hlive⟩ := hstocked.drop (Series.patient_startTurn startUtc)
        fun s R h => h.startTurn startUtc
      exact ⟨s, Rule.create_of_value hr hreach hrun hutc hsettles, hlive, hrule.rule, hrule.start,
        hrule.zone⟩
    · exact ⟨_, Rule.create_of_halt hr zone hreach hrun, .inl rfl, rfl, rfl, rfl⟩
  · exact ⟨_, Rule.create_of_not_reaches hr zone budget (by simpa using hreach), .inl rfl, rfl, rfl,
      rfl⟩

/-! ### Moving ahead -/

/-- Whether passing over months settles for the sources of a supply. -/
def Passes (S : Supply) : Prop :=
  ∀ s R, S.Stocked s R → ∀ target l, Value.fromUtc target s.zone = .ok l →
    ∃ s', Settles (fun n => s.passOver n target) (.ok (), s') ∧ s.SameRule s' ∧ S.Live s'

/-- **Skipping** comes to an end. -/
theorem Live.skip (h : S.Live s) (hfinished : s.finished = false) (target : Value) :
    ∃ s', Settles (fun n => loop (Series.skipTurn n target) n s) (.ok (), s') ∧ s.SameRule s' ∧
      S.Live s' := by
  obtain ⟨R, hstocked⟩ := h.resolve_left (by simp [hfinished])
  exact hstocked.drop (Series.patient_skipTurn target) fun s R h => h.skipTurn target

variable {Fit : Except SeriesError Unit → Prop}

/-- Skipping comes to an end where passing over the months first does, with an answer that fits
if that one does. -/
theorem Live.skipTo (hok : Fit (.ok ())) (h : S.Live s)
    (hpass : s.skipsMonths = true → ∀ R, S.Stocked s R → ∃ b s₁,
      Settles (fun n => s.passOver n target) (b, s₁) ∧ s.SameRule s₁ ∧ S.Live s₁ ∧ Fit b) :
    ∃ a s', Settles (fun n => s.skipTo n target) (a, s') ∧ s.SameRule s' ∧ S.Live s' ∧ Fit a := by
  cases hfinished : s.finished with
  | true =>
    exact ⟨_, s, Series.settles_skipTo_of_finished hfinished, .refl s, h, hok⟩
  | false =>
    cases hskips : s.skipsMonths with
    | false =>
      obtain ⟨s', hsettles, hrule, hlive⟩ := h.skip hfinished target
      exact ⟨_, s', Series.settles_skipTo_of_skip hfinished hskips hsettles, hrule, hlive, hok⟩
    | true =>
      obtain ⟨R, hstocked⟩ := h.resolve_left (by simp [hfinished])
      obtain ⟨b, s₁, hover, hrule₁, hlive₁, hfit⟩ := hpass hskips R hstocked
      cases b with
      | error e =>
        exact ⟨_, s₁, Series.settles_skipTo_of_passOver_error hfinished hskips hover, hrule₁, hlive₁,
          hfit⟩
      | ok _ =>
        -- the source may have ended within the months that were passed over
        cases hfinished₁ : s₁.finished with
        | true =>
          exact ⟨_, s₁, Series.settles_skipTo_of_passOver_finished hfinished hskips hover hfinished₁,
            hrule₁, hlive₁, hok⟩
        | false =>
          obtain ⟨s', hsettles, hrule, hlive⟩ := hlive₁.skip hfinished₁ target
          exact ⟨_, s', Series.settles_skipTo_of_passOver hfinished hskips hover hfinished₁ hsettles,
            hrule₁.trans hrule, hlive, hok⟩

/-- Moving ahead comes to an end where passing over months does. -/
theorem Live.advanceTo_of_passOver (hok : Fit (.ok ())) (h : S.Live s)
    (hpass : ∀ s₁ R, s.SameRule s₁ → s.skipsMonths = true → S.Stocked s₁ R → ∃ b s₂,
      Settles (fun n => s₁.passOver n (s.roundTarget target)) (b, s₂) ∧ s₁.SameRule s₂ ∧
        S.Live s₂ ∧ Fit b) :
    ∃ a s', Settles (fun n => s.advanceTo n target) (a, s') ∧ s.SameRule s' ∧ S.Live s' ∧
      Fit a := by
  cases hp : s.pending with
  | none =>
    obtain ⟨a, s', hsettles, hout⟩ := h.skipTo hok fun hskips R => hpass s R (.refl s) hskips
    refine ⟨a, s', ?_, hout⟩
    filter_upwards [hsettles] with n hn
    simp only [Series.advanceTo, hp, hn]
  | some v =>
    by_cases hlt : v < s.roundTarget target
    · obtain ⟨a, s', hsettles, hrule, hout⟩ :=
        h.take.skipTo hok fun hskips R => hpass { s with pending := none } R ⟨rfl, rfl, rfl⟩ hskips
      refine ⟨a, s', ?_, ⟨hrule.rule, hrule.start, hrule.zone⟩, hout⟩
      filter_upwards [hsettles] with n hn
      simp only [Series.advanceTo, hp, hlt, if_true, hn]
    · refine ⟨_, s, ?_, .refl s, h, hok⟩
      filter_upwards with n
      simp only [Series.advanceTo, hp, hlt, if_false]

/-- **Moving ahead** comes to an end where the target has a wall-clock value or no month may be
passed over. -/
theorem Live.advanceTo (hS : S.Passes) (h : S.Live s)
    (htarget : s.skipsMonths = true → ∃ l, (s.roundTarget target).fromUtc s.zone = .ok l) :
    ∃ s', Settles (fun n => s.advanceTo n target) (.ok (), s') ∧ s.SameRule s' ∧ S.Live s' := by
  have hmoved : ∃ a s', Settles (fun n => s.advanceTo n target) (a, s') ∧ s.SameRule s' ∧
      S.Live s' ∧ a = .ok () :=
    h.advanceTo_of_passOver rfl fun s₁ R hrule hskips hstocked => by
      obtain ⟨l, hl⟩ := htarget hskips
      obtain ⟨s₂, hover, hout⟩ := hS s₁ R hstocked _ l (hrule.zone ▸ hl)
      exact ⟨_, s₂, hover, hout.1, hout.2, rfl⟩
  obtain ⟨_, s', hsettles, hrule, hlive, rfl⟩ := hmoved
  exact ⟨s', hsettles, hrule, hlive⟩

end Supply

/-! ### The supplies of a rule -/

/-- A chain passes over months. -/
theorem Course.Begins.passes_freeSupply {K : Course} (hK : K.Begins) : K.freeSupply.Passes := by
  rintro s R hstocked target l hl
  obtain ⟨c, base, hsource, hawaits, -⟩ := hstocked.awaits
  obtain ⟨⟨step, c'⟩, hskip, hlands⟩ := hawaits.skipMonths hK l
  rcases hlands with ⟨rfl, base', -, hawaits'⟩ | ⟨rfl, -⟩
  · obtain ⟨m, hm⟩ := hstocked.low
    exact ⟨{ s with source := .plain c' }, Series.settles_passOver hsource hl hskip, ⟨rfl, rfl, rfl⟩,
      .inr ⟨_, hstocked.lawful, ⟨c', base', rfl, hawaits', trivial⟩,
        ⟨m, fun w hw hkind hR => hm w hw hkind hR.1⟩, hstocked.last⟩⟩
  · exact ⟨{ s with source := .plain c', finished := true },
      Series.settles_passOver_of_halt hsource hl hskip, ⟨rfl, rfl, rfl⟩, .inl rfl⟩

/-- A selection passes over no month. -/
theorem Course.passes_selectedSupply (K : Course) (N : Value → Int) (ps : List Int) :
    (K.selectedSupply N ps).Passes := by
  rintro s R hstocked target l -
  obtain ⟨sel, hsource, -⟩ := id hstocked.awaits
  refine ⟨s, ?_, .refl s, .inr ⟨R, hstocked⟩⟩
  filter_upwards with n
  simp only [Series.passOver, hsource]

/-- **Every rule has a supply** that passes over months, be it a chain or a selection. -/
theorem Rule.exists_supply {r : Rule} {start : Value} {budget : Int} (h : r.Admits start)
    (hbudget : 0 ≤ budget) : ∃ S : Supply, S.Passes ∧ S.Begins r start budget := by
  by_cases hpos : r.bySetPos = []
  · exact ⟨_, (begins_course h hbudget).passes_freeSupply,
      begins_chain h hbudget hpos (Course.ties_free _ start)⟩
  · exact ⟨_, Course.passes_selectedSupply _ _ _, begins_selection h hbudget hpos⟩

/-- A series of a rule can be created in any zone, wherever the rule can use the start. -/
theorem Rule.exists_create {r : Rule} {start : Value} {budget : Int} (h : r.Admits start)
    (hbudget : 0 ≤ budget) (zone : Zone) :
    ∃ s, Settles (fun n => Series.create n r start zone budget) (.ok s) := by
  obtain ⟨S, -, hbegins⟩ := exists_supply h hbudget
  obtain ⟨s, hsettles, -⟩ := hbegins.live h zone
  exact ⟨s, hsettles⟩

/-- **A new series is live**, for a supply that passes over months. -/
theorem Rule.live_of_create {r : Rule} {start : Value} {zone : Zone} {budget : Int} (h : r.Admits start)
    (hbudget : 0 ≤ budget) {n : Nat} (hcreate : Series.create n r start zone budget = some (.ok s)) :
    ∃ S : Supply, S.Passes ∧ S.Live s ∧ s.rule = r ∧ s.start = start ∧ s.zone = zone := by
  obtain ⟨S, hS, hbegins⟩ := exists_supply h hbudget
  obtain ⟨s₁, hsettles, hlive⟩ := hbegins.live h zone
  obtain rfl := Series.create_unique hsettles hcreate
  exact ⟨S, hS, hlive⟩

end Recurrence
