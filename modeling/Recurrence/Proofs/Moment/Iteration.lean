/-
Recurrence/Proofs/Moment/Iteration.lean

Occurrences one after another.

Occurrences are what the series underneath returns, as moments of UTC (`Occurrences.Yields.returns`).
Iteration stops where the series has no more, or where a value lies beyond the years of moments; it
may also stop because the years of the series give up, which is told apart
(`Occurrences.Stops`).  Wherever calls lead occurrences, the series has been led there by calls of
its own (`Occurrences.Expands.reachable`), so what all states of a series have can be used for them.
-/
import Recurrence.Proofs.Moment.Instants
import Recurrence.Proofs.Series.Live
import Recurrence.Proofs.Series.States

namespace Recurrence

variable {S : Supply} {s s' : Series} {n : Nat} {v : Value} {vs : List Value}

/-! ### The head of a series -/

namespace Series

/-- Whether something is available is whether something is held afterwards. -/
theorem isSome_pending_of_hasNext {b : Bool} (h : s.hasNext n = some (.ok b, s')) :
    b = s'.pending.isSome := by
  unfold hasNext at h
  split_ifs at h
  · cases hg : s.generate n with
    | none => simp [hg] at h
    | some answer =>
      obtain ⟨_ | _ | ⟨v, u⟩, s₁⟩ := answer
      · simp [hg] at h
      · rw [hg] at h
        obtain ⟨hb, rfl⟩ := Prod.mk.inj (Option.some.inj h)
        exact (Except.ok.inj hb).symm
      · rw [hg] at h
        obtain ⟨hb, rfl⟩ := Prod.mk.inj (Option.some.inj h)
        exact (Except.ok.inj hb).symm
  · obtain ⟨hb, rfl⟩ := Prod.mk.inj (Option.some.inj h)
    exact (Except.ok.inj hb).symm

/-- **The head of a series** is what it holds once an instance has been looked for. -/
theorem head_of_hasNext {b : Bool} (h : s.hasNext n = some (.ok b, s')) :
    (ops n).head s = some (.ok s'.pending, { s' with pending := none }) := by
  have hops : (ops n).hasNext s = some (.ok b, s') := h
  obtain rfl := isSome_pending_of_hasNext h
  unfold CursorOps.head
  rw [hops]
  cases hp : s'.pending with
  | none =>
    rw [take_of_pending_none hp]
    rfl
  | some v =>
    have hnext : (ops n).next s' = some (.ok v, { s' with pending := none }) := by
      show s'.next n = _
      simp [Series.next, Series.hasNext, hp]
    simp only [Option.isSome_some, hnext]

theorem head_cases {a : Except SeriesError (Option Value)} (h : (ops n).head s = some (a, s')) :
    ∃ b s₁, s.hasNext n = some (b, s₁) ∧ ((∃ e, a = .error e ∧ b = .error e ∧ s' = s₁) ∨
      ∃ c, b = .ok c ∧ a = .ok s₁.pending ∧ s' = { s₁ with pending := none }) := by
  cases hlook : s.hasNext n with
  | none =>
    have hops : (ops n).hasNext s = none := hlook
    unfold CursorOps.head at h
    simp [hops] at h
  | some b =>
    obtain ⟨b, s₁⟩ := b
    refine ⟨b, s₁, rfl, ?_⟩
    cases b with
    | error e =>
      have hops : (ops n).hasNext s = some (.error e, s₁) := hlook
      unfold CursorOps.head at h
      rw [hops] at h
      obtain ⟨ha, hs⟩ := Prod.mk.inj (Option.some.inj h)
      exact .inl ⟨e, ha.symm, rfl, hs.symm⟩
    | ok c =>
      rw [head_of_hasNext hlook] at h
      obtain ⟨ha, hs⟩ := Prod.mk.inj (Option.some.inj h)
      exact .inr ⟨c, rfl, ha.symm, hs.symm⟩

theorem patient_head (s : Series) : Patient fun n => (ops n).head s := by
  intro m n a hmn h
  obtain ⟨a, s'⟩ := a
  obtain ⟨b, s₁, hlook, ⟨e, rfl, rfl, rfl⟩ | ⟨c, rfl, rfl, rfl⟩⟩ := head_cases h
  · have hops : (ops n).hasNext s = some (.error e, s') := s.patient_hasNext hmn hlook
    show (ops n).head s = _
    unfold CursorOps.head
    rw [hops]
  · exact head_of_hasNext (s.patient_hasNext hmn hlook)

/-- Taking the head is looking and stepping. -/
theorem Reachable.head {r : Rule} {start : Value} {zone : Zone} {budget : Int}
    {a : Except SeriesError (Option Value)} (hs : Reachable r start zone budget s)
    (h : (ops n).head s = some (a, s')) : Reachable r start zone budget s' := by
  obtain ⟨b, s₁, hlook, ⟨e, -, -, rfl⟩ | ⟨c, rfl, -, rfl⟩⟩ := head_cases h
  · exact hs.hasNext hlook
  · have hstate : s₁.stepOf.2 = { s₁ with pending := none } := by
      cases hp : s₁.pending with
      | some v => rw [stepOf, hp]
      | none => rw [stepOf, hp, take_of_pending_none hp]
    exact hs.next ((next_of_hasNext hlook).trans (congrArg some (Prod.ext rfl hstate)))

/-- A head is what stepping returns. -/
theorem next_of_head (h : (ops n).head s = some (.ok (some v), s')) : s.next n = some (.ok v, s') := by
  obtain ⟨b, s₁, hlook, ⟨e, he, -⟩ | ⟨c, rfl, ha, rfl⟩⟩ := head_cases h
  · exact absurd he (by simp)
  · have hp : s₁.pending = some v := (Except.ok.inj ha).symm
    rw [next_of_hasNext hlook, stepOf, hp]

/-- Without a head the series ends. -/
theorem ends_of_head (h : (ops n).head s = some (.ok none, s')) : s.Ends s' := by
  obtain ⟨b, s₁, hlook, ⟨e, he, -⟩ | ⟨c, rfl, ha, rfl⟩⟩ := head_cases h
  · exact absurd he (by simp)
  · have hp : s₁.pending = none := (Except.ok.inj ha).symm
    rw [take_of_pending_none hp]
    refine ⟨n, ?_⟩
    rw [next_of_hasNext hlook, stepOf, hp, (sameRule_of_hasNext hlook).rule]

end Series

/-- **A live series** has a head, or it has no more. -/
theorem Supply.Live.head (h : S.Live s) : ∃ a s', Settles (fun n => (Series.ops n).head s) (.ok a, s') ∧
    s.SameRule s' ∧ S.Live s' := by
  obtain ⟨s₁, hsettles, hrule, hlive⟩ := h.hasNext
  refine ⟨s₁.pending, { s₁ with pending := none }, ?_, hrule.trans ⟨rfl, rfl, rfl⟩, hlive.take⟩
  filter_upwards [hsettles] with n hn
  exact Series.head_of_hasNext hn

/-- A run leads to live series only. -/
theorem Supply.Live.returns (h : S.Live s) (hrun : s.Returns vs s') : S.Live s' := by
  induction hrun with
  | nil s => exact h
  | @cons s _ _ _ _ _ head _ ih =>
    obtain ⟨a, s₁, hsettles, -, hlive, -⟩ := h.next
    obtain ⟨-, rfl⟩ := Prod.mk.inj (Patient.eq_of_settles s.patient_next hsettles head)
    exact ih hlive

namespace Occurrences

variable {o o' : Occurrences} {m : Moment} {ms : List Moment}

/-! ### States -/

/-- The states of the occurrences of a rule, whatever they have been asked before. -/
inductive Reachable (source : RuleSource) (start : Moment) (choice : ZoneChoice) (settings : Settings) :
    Occurrences → Prop where
  | create {o : Occurrences} {bound : Nat} (h : create bound source start choice settings = some (.ok o)) :
      Reachable source start choice settings o
  | next {o o' : Occurrences} {bound : Nat} {a : Except SeriesError (Option Moment)}
      (ho : Reachable source start choice settings o) (h : o.next bound = some (a, o')) :
      Reachable source start choice settings o'
  | advanceTo {o o' : Occurrences} {bound : Nat} {m : Moment} {a : Except SeriesError Unit}
      (ho : Reachable source start choice settings o) (h : o.advanceTo bound m = some (a, o')) :
      Reachable source start choice settings o'
  | hasNext {o o' : Occurrences} {bound : Nat} {a : Except SeriesError Bool}
      (ho : Reachable source start choice settings o) (h : o.hasNext bound = some (a, o')) :
      Reachable source start choice settings o'

/-! ### Iteration -/

/-- Occurrences come one after another. -/
inductive Yields : Occurrences → List Moment → Occurrences → Prop where
  | nil (o : Occurrences) : Yields o [] o
  | cons {o o' o'' : Occurrences} {m : Moment} {ms : List Moment} {bound : Nat}
      (head : o.next bound = some (.ok (some m), o')) (tail : Yields o' ms o'') :
      Yields o (m :: ms) o''

/-- No occurrence comes next, and this is not because the years have given up. -/
def Stops (o : Occurrences) : Prop :=
  ∃ bound a o', o.next bound = some (a, o') ∧ (∀ m, a ≠ .ok (some m)) ∧ o'.series.source.halted = false

/-- **The next occurrence** is the head of the series as a moment. -/
theorem next_cases {a : Except SeriesError (Option Moment)} (h : o.next n = some (a, o')) :
    ∃ b s, (Series.ops n).head o.series = some (b, s) ∧ o' = { o with series := s } ∧
      ((∃ e, b = .error e ∧ a = .error e) ∨ (b = .ok none ∧ a = .ok none) ∨
        ∃ v, b = .ok (some v) ∧ ((∃ e, a = .error e ∧ ¬ v.Representable) ∨
          a = .ok (some v.moment) ∧ v.Representable)) := by
  unfold next at h
  cases hhead : (Series.ops n).head o.series with
  | none => simp [hhead] at h
  | some b =>
    obtain ⟨b, s⟩ := b
    refine ⟨b, s, rfl, ?_⟩
    rw [hhead] at h
    match b, h with
    | .error e, h =>
      obtain ⟨ha, ho⟩ := Prod.mk.inj (Option.some.inj h)
      exact ⟨ho.symm, .inl ⟨e, rfl, ha.symm⟩⟩
    | .ok none, h =>
      obtain ⟨ha, ho⟩ := Prod.mk.inj (Option.some.inj h)
      exact ⟨ho.symm, .inr (.inl ⟨rfl, ha.symm⟩)⟩
    | .ok (some v), h =>
      dsimp only at h
      cases hm : v.toMoment with
      | error e =>
        rw [hm] at h
        obtain ⟨ha, ho⟩ := Prod.mk.inj (Option.some.inj h)
        refine ⟨ho.symm, .inr (.inr ⟨v, rfl, .inl ⟨_, ha.symm, fun hv => ?_⟩⟩)⟩
        rw [Value.toMoment_eq_ok_iff.mpr ⟨hv, rfl⟩] at hm
        exact absurd hm (by simp)
      | ok m =>
        rw [hm] at h
        obtain ⟨ha, ho⟩ := Prod.mk.inj (Option.some.inj h)
        obtain ⟨hv, rfl⟩ := Value.toMoment_eq_ok_iff.mp hm
        exact ⟨ho.symm, .inr (.inr ⟨v, rfl, .inr ⟨ha.symm, hv⟩⟩)⟩

theorem patient_next (o : Occurrences) : Patient fun n => o.next n := by
  apply Patient.after (Series.patient_head o.series)
  · intro n hn
    simp only [next, hn]
  · intro m n b a _ hm hn ha
    simpa only [next, hm, hn] using ha

/-- **Iteration goes on**: each time there is an answer. -/
theorem exists_next (h : S.Live o.series) : ∃ a o', Settles (fun n => o.next n) (a, o') := by
  obtain ⟨b, s, hsettles, -⟩ := h.head
  obtain ⟨n, hn⟩ := hsettles.exists_bound
  obtain ⟨a, ha⟩ : ∃ a, o.next n = some a := by
    unfold next
    rw [hn]
    cases b with
    | none => exact ⟨_, rfl⟩
    | some v =>
      dsimp only
      cases v.toMoment <;> exact ⟨_, rfl⟩
  exact ⟨a.1, a.2, Patient.settles o.patient_next ha⟩

/-- **What iteration yields** is what the series returns, as moments. -/
theorem Yields.returns (h : o.Yields ms o') : ∃ vs, o.series.Returns vs o'.series ∧
    ms = vs.map Value.moment ∧ ∀ v ∈ vs, v.Representable := by
  induction h with
  | nil o => exact ⟨[], .nil _, rfl, by simp⟩
  | cons head _ ih =>
    obtain ⟨vs, hrun, rfl, hvs⟩ := ih
    obtain ⟨b, s, hhead, rfl, ⟨e, -, ha⟩ | ⟨-, ha⟩ | ⟨v, rfl, ⟨e, ha, -⟩ | ⟨ha, hv⟩⟩⟩ :=
      next_cases head
    · exact absurd ha (by simp)
    · exact absurd ha (by simp)
    · exact absurd ha (by simp)
    · obtain rfl : _ = v.moment := by simpa using ha
      exact ⟨v :: vs, .cons (Series.next_of_head hhead) hrun, rfl,
        List.forall_mem_cons.mpr ⟨hv, hvs⟩⟩

/-- **What is taken** has been yielded, and it is as many as were asked for or all up to where
iteration comes to its end. -/
theorem yields_of_take {k : Nat} (h : take n k o = some (.ok ms, o')) :
    (ms.length = k ∧ o.Yields ms o') ∨ ∃ o₁, o.Yields ms o₁ ∧ o₁.next n = some (.ok none, o') := by
  induction k generalizing o ms with
  | zero =>
    obtain ⟨hms, rfl⟩ := Prod.mk.inj (Option.some.inj h)
    obtain rfl := Except.ok.inj hms
    exact .inl ⟨rfl, .nil o⟩
  | succ k ih =>
    unfold take at h
    cases hn : o.next n with
    | none => simp [hn] at h
    | some b =>
      rw [hn] at h
      match b, h with
      | (.error e, o₁), h => exact absurd h (by simp)
      | (.ok none, o₁), h =>
        obtain ⟨hms, rfl⟩ := Prod.mk.inj (Option.some.inj h)
        obtain rfl := Except.ok.inj hms
        exact .inr ⟨o, .nil o, hn⟩
      | (.ok (some m), o₁), h =>
        dsimp only at h
        cases hk : take n k o₁ with
        | none => simp [hk] at h
        | some b =>
          rw [hk] at h
          match b, h with
          | (.error e, o₂), h => exact absurd h (by simp)
          | (.ok ms', o₂), h =>
            obtain ⟨hms, rfl⟩ := Prod.mk.inj (Option.some.inj h)
            obtain rfl := Except.ok.inj hms
            rcases ih hk with ⟨hlength, hrest⟩ | ⟨o₃, hrest, hend⟩
            · exact .inl ⟨by rw [List.length_cons, hlength], .cons hn hrest⟩
            · exact .inr ⟨o₃, .cons hn hrest, hend⟩

/-- **What comes next** from a live series: nothing where it ends, and otherwise what it returns, as a
moment if it is one. -/
theorem next_cases_of_live (hlive : S.Live o.series) {a : Except SeriesError (Option Moment)}
    (h : o.next n = some (a, o')) : (a = .ok none ∧ o.series.Ends o'.series) ∨
      ∃ v, o.series.Returns [v] o'.series ∧
        (a = .ok (some v.moment) ∧ v.Representable ∨ (∃ e, a = .error e) ∧ ¬ v.Representable) := by
  obtain ⟨b, s, hhead, rfl, hcases⟩ := next_cases h
  obtain ⟨c, s₁, hsettles, -⟩ := hlive.head
  obtain ⟨rfl, rfl⟩ := Prod.mk.inj (Patient.eq_of_settles (Series.patient_head _) hsettles hhead)
  obtain ⟨e, he, -⟩ | ⟨hc, ha⟩ | ⟨v, hc, ha⟩ := hcases
  · exact absurd he (by simp)
  · obtain rfl := Except.ok.inj hc
    exact .inl ⟨ha, Series.ends_of_head hhead⟩
  · obtain rfl := Except.ok.inj hc
    exact .inr ⟨v, .cons (Series.next_of_head hhead) (.nil s),
      ha.symm.imp_right fun ⟨e, ha, hv⟩ => ⟨⟨e, ha⟩, hv⟩⟩

/-- What a series returns comes next as a moment, if it is one. -/
theorem next_of_returns (hlive : S.Live o.series) {a : Except SeriesError (Option Moment)}
    (h : o.next n = some (a, o')) (hv : o.series.Returns [v] s') :
    a = .ok (some v.moment) ∧ v.Representable ∨ (∃ e, a = .error e) ∧ ¬ v.Representable := by
  obtain _ | ⟨hv, -⟩ := hv
  obtain ⟨-, k, hend⟩ | ⟨u, _ | ⟨hu, -⟩, hcases⟩ := next_cases_of_live hlive h
  · exact absurd (Patient.unique (Series.patient_next _) hv hend) (by simp)
  · obtain ⟨hvu, -⟩ := Prod.mk.inj (Patient.unique (Series.patient_next _) hv hu)
    obtain rfl := Except.ok.inj hvu
    exact hcases

/-- Where a series ends, nothing comes next. -/
theorem next_of_ends (hlive : S.Live o.series) {a : Except SeriesError (Option Moment)}
    (h : o.next n = some (a, o')) (hend : o.series.Ends s') : a = .ok none := by
  obtain ⟨k, hk⟩ := hend
  obtain ⟨ha, -⟩ | ⟨u, _ | ⟨hu, -⟩, -⟩ := next_cases_of_live hlive h
  · exact ha
  · exact absurd (Patient.unique (Series.patient_next _) hu hk) (by simp)

/-- Where iteration stops, the series ends or returns a value that is no moment. -/
theorem Stops.cases (hlive : S.Live o.series) (h : o.Stops) :
    (∃ s, o.series.Ends s ∧ s.source.halted = false) ∨
      ∃ v s, o.series.Returns [v] s ∧ ¬ v.Representable := by
  obtain ⟨n, a, o', hn, ha, hgoes⟩ := h
  obtain ⟨-, hend⟩ | ⟨v, hreturns, ⟨hm, -⟩ | ⟨-, hv⟩⟩ := next_cases_of_live hlive hn
  · exact .inl ⟨_, hend, hgoes⟩
  · exact absurd hm (ha _)
  · exact .inr ⟨v, _, hreturns, hv⟩

/-! ### Making the series -/

variable {source : RuleSource} {start first : Moment} {choice : ZoneChoice} {settings : Settings}
  {zone : Zone} {r : Rule}

/-- A start is expanded as it is, or in a zone that is chosen for it after it has been turned into
UTC. -/
theorem place_cases (h : place start choice settings = .ok (first, zone)) :
    (first = start ∧ ∀ own, start.zone? = some own → own = zone) ∨ choice ≠ .unspecified ∧
      ∃ d t micros own du tu d' t', start = .dateTime d t micros (some own) ∧
        own.toUtcFields d t = .ok (du, tu) ∧ zone.fromUtcFields du tu = .ok (d', t') ∧
        first = .dateTime d' t' micros (some zone) := by
  unfold place at h
  cases hown : start.zone? with
  | none =>
    rw [hown] at h
    obtain ⟨z, -, hz⟩ := bind_eq_ok_iff.mp h
    obtain ⟨rfl, -⟩ := Prod.mk.inj (Except.ok.inj hz)
    exact .inl ⟨rfl, by simp⟩
  | some own =>
    obtain ⟨d, t, micros, rfl⟩ := Moment.eq_dateTime_of_zone? hown
    have hmoved : ∀ {resolved : Except SeriesError Zone}, (do
        let zone ← resolved
        let start ← ((Moment.dateTime d t micros (some own)).inZone zone).mapError SeriesError.conversion
        return (start, zone)) = .ok (first, zone) →
        (Moment.dateTime d t micros (some own)).inZone zone = .ok first := by
      intro resolved h
      obtain ⟨z, -, h⟩ := bind_eq_ok_iff.mp h
      obtain ⟨m, hm, h⟩ := bind_eq_ok_iff.mp h
      obtain ⟨rfl, rfl⟩ := Prod.mk.inj (Except.ok.inj h)
      exact mapError_eq_ok_iff.mp hm
    have hcases : (first = .dateTime d t micros (some own) ∧ own = zone) ∨ choice ≠ .unspecified ∧
        (Moment.dateTime d t micros (some own)).inZone zone = .ok first := by
      cases choice with
      | unspecified =>
        obtain ⟨rfl, rfl⟩ := Prod.mk.inj (Except.ok.inj h)
        exact .inl ⟨rfl, rfl⟩
      | named name => exact .inr ⟨by simp, hmoved h⟩
      | given z => exact .inr ⟨by simp, hmoved h⟩
    rcases hcases with ⟨rfl, rfl⟩ | ⟨hchosen, h⟩
    · exact .inl ⟨rfl, by rintro _ ⟨⟩; rfl⟩
    · exact (Moment.inZone_cases h).imp (fun h => ⟨h.1, by rintro _ ⟨⟩; exact h.2⟩)
        fun ⟨du, tu, d', t', h⟩ => ⟨hchosen, d, t, micros, own, du, tu, d', t', rfl, h⟩

/-- The start that is expanded is as good a moment as the start that was given, in no other zone than
the one that it is expanded in. -/
theorem place_spec (hs : start.Representable) (h : place start choice settings = .ok (first, zone)) :
    first.Representable ∧ first.hasTime = start.hasTime ∧ ∀ own, first.zone? = some own → own = zone := by
  rcases place_cases h with ⟨rfl, hzone⟩ | ⟨-, d, t, micros, own, du, tu, d', t', rfl, hto, hfrom, rfl⟩
  · exact ⟨hs, rfl, hzone⟩
  · have hutc := (Zone.toUtcFields_spec hs.1.1 hto).1
    exact ⟨⟨(Zone.fromUtcFields_spec hutc.1 hfrom).1, hs.2⟩, rfl, by rintro _ ⟨⟩; rfl⟩

/-- A rule can be expanded from a start: it is read and is valid, it can use the start, and there is a
zone for it. -/
structure Expands (source : RuleSource) (start : Moment) (choice : ZoneChoice) (settings : Settings)
    (r : Rule) (first : Moment) (zone : Zone) : Prop where
  reads : source.read = .ok r
  valid : r.Valid
  real : start.Representable
  timed : r.freq.isSubDaily = true → start.hasTime = true
  placed : place start choice settings = .ok (first, zone)
  years : 0 ≤ settings.maxUnproductiveYears

namespace Expands

theorem representable (h : Expands source start choice settings r first zone) :
    first.Representable := (place_spec h.real h.placed).1

theorem hasTime (h : Expands source start choice settings r first zone) :
    first.toValue.hasTime = start.hasTime :=
  (Moment.hasTime_toValue first).trans (place_spec h.real h.placed).2.1

theorem admits (h : Expands source start choice settings r first zone) : r.Admits first.toValue where
  valid := h.valid
  real := h.representable.1.1
  timed hsub := h.hasTime.trans (h.timed hsub)

/-- Occurrences are made of the series of the start in its zone. -/
theorem settles_create (h : Expands source start choice settings r first zone)
    (hs : Settles (fun n => Series.create n r first.toValue zone settings.maxUnproductiveYears)
      (.ok s)) : Settles (fun n => create n source start choice settings) (.ok ⟨s, zone⟩) := by
  filter_upwards [hs] with n hn
  simp only [create, h.placed, h.reads, hn, Option.map_some]
  rfl

/-- **The states of occurrences** are those of the series of the start in its zone. -/
theorem reachable (h : Expands source start choice settings r first zone)
    (ho : Occurrences.Reachable source start choice settings o) : o.zone = zone ∧
      Series.Reachable r first.toValue zone settings.maxUnproductiveYears o.series := by
  induction ho with
  | @create o n hc =>
    simp only [create, h.placed, h.reads, Option.map_eq_some_iff] at hc
    obtain ⟨b, hb, hc⟩ := hc
    obtain ⟨s, rfl, rfl⟩ := map_eq_ok_iff.mp hc
    exact ⟨rfl, .create hb⟩
  | next ho hn ih =>
    obtain ⟨b, s, hhead, rfl, -⟩ := next_cases hn
    exact ⟨ih.1, ih.2.head hhead⟩
  | @advanceTo o o' n m a ho hn ih =>
    unfold Occurrences.advanceTo at hn
    cases htarget : m.toUtcValue o.zone with
    | error e =>
      rw [htarget] at hn
      obtain ⟨-, rfl⟩ := Prod.mk.inj (Option.some.inj hn)
      exact ih
    | ok target =>
      rw [htarget] at hn
      obtain ⟨b, hb, hn⟩ := Option.map_eq_some_iff.mp hn
      obtain ⟨-, rfl⟩ := Prod.mk.inj hn
      exact ⟨ih.1, ih.2.advanceTo hb⟩
  | hasNext ho hn ih =>
    obtain ⟨b, hb, hn⟩ := Option.map_eq_some_iff.mp hn
    obtain ⟨-, rfl⟩ := Prod.mk.inj hn
    exact ⟨ih.1, ih.2.hasNext hb⟩

/-- **The start in UTC** lies in the years 1 to 9999, if the moment that was given does. -/
theorem exists_startUtc (h : Expands source start choice settings r first zone)
    (hz : start.hasTime = true → zone.Steady ∧ start.InUtc zone) :
    ∃ u, first.toValue.toUtc zone = .ok u ∧ u.Representable ∧ u.hasTime = start.hasTime := by
  obtain ⟨hutc, hreal, hkind, hinstant⟩ := Value.toUtc_of_steady (z := zone) (v := first.toValue)
    (fun ht => (hz (h.hasTime.symm.trans ht)).1) h.representable.1.1
  have hkind := hkind.trans h.hasTime
  refine ⟨_, hutc, ?_, hkind⟩
  cases ht : start.hasTime with
  | false =>
    rw [Value.inUtc_of_date (h.hasTime.trans ht)]
    exact h.representable.1
  | true =>
    obtain ⟨hsteady, u, hu⟩ := hz ht
    rw [h.hasTime, ht] at hinstant
    have hsame : ∀ {w : Value}, w.Representable → w.hasTime = true →
        w.instant = first.toValue.instant - zone.lead true → (first.toValue.inUtc zone).Representable := by
      intro w hw hwt heq
      rwa [Value.eq_of_instant hreal hw.1 (hkind.trans (ht.trans hwt.symm)) (hinstant.trans heq.symm)]
    rcases place_cases h.placed with ⟨rfl, hown⟩ |
      ⟨-, d, t, micros, own, du, tu, d', t', rfl, hto, hfrom, rfl⟩
    · -- it is expanded as it is, in its own zone or the one that it is given
      obtain ⟨hreal', hkind', hu⟩ := Moment.toUtcValue_spec h.real hu
      refine hsame hreal' (hkind'.trans ht) ?_
      have hinstant := Moment.instantIn_of_zone ht hown
      have hlocal := (hsteady.offset_eq first.toValue.instant).2
      have hshown : first.shown = first.toValue.instant * 1000000 + first.micros := rfl
      omega
    · -- it has been moved by way of UTC
      obtain ⟨hreal', -⟩ := Zone.toUtcFields_spec h.real.1.1 hto
      refine hsame hreal' rfl ?_
      have hmoved := (Zone.fromUtcFields_spec hreal'.1 hfrom).2
      have hlead := (hsteady.offset_eq (instantOf du tu)).1
      show instantOf du tu = instantOf d' t' - _
      omega

end Expands

theorem patient_create (source : RuleSource) (start : Moment) (choice : ZoneChoice)
    (settings : Settings) : Patient fun n => create n source start choice settings := by
  unfold create
  cases place start choice settings with
  | error e => exact patient_const _
  | ok placed =>
    cases source.read with
    | error e => exact patient_const _
    | ok r => exact Patient.map (Series.patient_create r _ _ _) _

/-- All occurrences of a rule, if there are fewer than so many, for evaluation. -/
def allOf (bound k : Nat) (source : RuleSource) (start : Moment) (choice : ZoneChoice)
    (settings : Settings) : Option (List Moment) :=
  match create bound source start choice settings with
  | some (.ok o) =>
    match take bound k o with
    | some (.ok ms, o) => if ms.length < k ∧ o.series.source.halted = false then some ms else none
    | _ => none
  | _ => none

theorem yields_of_allOf {k : Nat} (h : allOf n k source start choice settings = some ms) :
    ∃ o o', create n source start choice settings = some (.ok o) ∧ o.Yields ms o' ∧ o'.Stops := by
  unfold allOf at h
  split at h
  · next o hcreate =>
    split at h
    · next ms' o' htake =>
      split_ifs at h with hall
      obtain rfl := Option.some.inj h
      rcases yields_of_take htake with ⟨hlength, -⟩ | ⟨o₁, hyields, hend⟩
      · exact absurd hlength hall.1.ne
      · exact ⟨o, o₁, hcreate, hyields, n, _, o', hend, by simp, hall.2⟩
    · exact absurd h (by simp)
  · exact absurd h (by simp)

end Occurrences

end Recurrence
