/-
Recurrence/Proofs/Moment/Windows.lean

Windows of occurrences.

A window is answered by a series that has been moved to its beginning and is then stepped through
up to its end.  Its bounds become values first, and what is before such a value is what is before
the moment, but for the microseconds that a date-time loses (`Moment.Delimits`).  The two runs,
that of the window and the one that steps through everything, go through parts of one set of
values (`Occurrences.Moved`), so the window holds what stepping finds between the bounds
(`Occurrences.exists_window`).
-/
import Mathlib.Data.Int.Interval
import Recurrence.Proofs.Moment.Iteration
import Recurrence.Proofs.Series.Passage
import Recurrence.Proofs.Termination

namespace Recurrence

variable {S : Supply} {s s' s'' s₀ s₁ : Series} {F : Value → Prop} {low high v w : Value}
  {vs ws : List Value} {timed : Bool} {zone : Zone} {m b e : Moment} {n k : Nat}

/-! ### Bounds -/

namespace Moment

/-- The microseconds that a moment loses where it becomes a bound. -/
def lost (timed : Bool) (m : Moment) : Int := if timed then m.micros else 0

/-- A value stands for a moment as a bound of a window: the values before it are those before the
moment without the microseconds that it loses. -/
structure Delimits (timed : Bool) (zone : Zone) (m : Moment) (b : Value) : Prop where
  isReal : b.IsReal
  hasTime : b.hasTime = timed
  lt_iff : ∀ v : Value, v.IsReal → v.hasTime = timed →
    (v < b ↔ v.instant * 1000000 < m.position timed zone - m.lost timed)
  year_pos : 1 ≤ b.date.year
  year_le : ∀ v : Value, v.IsReal → v.hasTime = timed → v < b → v.date.year ≤ 9999

/-- A date-time in UTC delimits a window of date-times. -/
theorem delimits_toUtcValue (h : m.Representable) (ht : m.hasTime = true)
    (hu : m.toUtcValue zone = .ok v) : m.Delimits true zone v := by
  obtain ⟨⟨hreal, hlow, hhigh⟩, hkind, hinstant⟩ := toUtcValue_spec h hu
  have hkind : v.hasTime = true := hkind.trans ht
  refine ⟨hreal, hkind, fun w hw hwt => ?_, hlow, fun w _ _ hlt => ?_⟩
  · rw [Value.lt_iff_instant hw hreal (hwt.trans hkind.symm)]
    show _ ↔ w.instant * 1000000 < m.instantIn zone - m.micros
    omega
  · exact (Value.year_le_of_le hlt.le).trans hhigh

/-- The first whole date that is not before a moment delimits a window of dates. -/
theorem delimits_dateBound (h : m.Representable) (zone : Zone) :
    m.Delimits false zone (.ofDate m.dateBound) := by
  have hreal : (Value.ofDate m.dateBound).IsReal := ⟨isReal_dateBound h, by simp [Value.ofDate]⟩
  have hdate : m.toValue.withoutTime.IsReal := ⟨h.1.1.1, by simp [Value.withoutTime]⟩
  have hday := Value.instant_withoutTime h.1.1
  have hshown : m.shown = m.toValue.instant * 1000000 + m.micros := rfl
  obtain ⟨-, hmicros⟩ := id h
  have hlt : ∀ v : Value, v.IsReal → v.hasTime = false →
      (v < .ofDate m.dateBound ↔ v.instant * 1000000 < m.shown) := by
    intro v hv hvt
    have hiff := dateBound_le_iff h v.date.dayNumber
    rw [Value.lt_iff_instant hv hreal hvt, Value.instant_of_untimed hvt, Value.instant_ofDate]
    omega
  refine ⟨hreal, rfl, fun v hv hvt => ?_, ?_, fun v hv hvt hvb => ?_⟩
  · rw [hlt v hv hvt]
    show _ ↔ v.instant * 1000000 < m.shown - 0
    rw [Int.sub_zero]
  · -- the whole date is not before the date of the moment
    have hself := mt (hlt _ hreal rfl).mpr (lt_irrefl _)
    refine h.1.2.1.trans (Value.year_le_of_le (v := m.toValue.withoutTime) (not_lt.mp fun hlt => ?_))
    have := (Value.lt_iff_instant hreal hdate rfl).mp hlt
    omega
  · -- what is before the whole date is not later than the date of the moment
    have hshown := (hlt v hv hvt).mp hvb
    refine (Value.year_le_of_le (w := m.toValue.withoutTime) (not_lt.mp fun hlt => ?_)).trans h.1.2.2
    have hlater := (Value.lt_iff_instant hdate hv hvt.symm).mp hlt
    rw [Value.instant_of_untimed hvt] at hshown hlater
    rw [Value.instant_of_untimed rfl] at hday hlater
    omega

/-- What lies between bounds that delimit a window is a moment of the calendar. -/
theorem Delimits.representable (hlow : b.Delimits timed zone low) (hhigh : e.Delimits timed zone high)
    (hv : v.IsReal ∧ v.hasTime = timed) (hle : ¬ v < low) (hlt : v < high) : v.Representable :=
  ⟨hv.1, hlow.year_pos.trans (Value.year_le_of_le (not_lt.mp hle)), hhigh.year_le v hv.1 hv.2 hlt⟩

end Moment

namespace Occurrences

/-! ### The limit -/

theorem windowLimit_eq (settings : Settings) (limit : Option Int) : windowLimit settings limit =
    (min (limit.getD settings.maxOccurrences) settings.maxOccurrences).toNat := by
  cases limit with
  | none => simp [windowLimit]
  | some n => rfl

/-! ### Taking values before an end -/

theorem patient_takeBefore (high : Value) (k : Nat) (s : Series) :
    Patient fun n => takeBefore n high k s := by
  induction k generalizing s with
  | zero => exact patient_const _
  | succ k ih =>
    intro m n a hmn ha
    simp only [takeBefore] at ha ⊢
    cases hm : (Series.ops m).head s with
    | none => simp [hm] at ha
    | some b =>
      have hn : (Series.ops n).head s = some b := s.patient_head hmn hm
      rw [hn]
      rw [hm] at ha
      match b, ha with
      | (.error e, s'), ha => exact ha
      | (.ok none, s'), ha => exact ha
      | (.ok (some v), s'), ha =>
        dsimp only at ha ⊢
        split_ifs at ha ⊢ with hlt
        · cases hv : v.toMoment with
          | error e => rwa [hv] at ha
          | ok m' =>
            rw [hv] at ha
            dsimp only at ha ⊢
            cases hk : takeBefore m high k s' with
            | none => simp [hk] at ha
            | some b =>
              have hk' : takeBefore n high k s' = some b := ih s' hmn hk
              rw [hk']
              rwa [hk] at ha
        · exact ha

/-- Values that a series returns before an end, at most so many, and the state that is left: they
are as many as they may be, or the series has returned one that is not before the end, or it has
ended. -/
structure Takes (high : Value) (k : Nat) (s : Series) (vs : List Value) (s'' : Series) : Prop where
  length_le : vs.length ≤ k
  before : ∀ v ∈ vs, v < high
  stops : ∃ s', s.Returns vs s' ∧
    (vs.length = k ∧ s'' = s' ∨ (∃ v, s'.Returns [v] s'' ∧ ¬ v < high) ∨ s'.Ends s'')

/-- **Taking values before an end** comes to an end, and gives them as moments. -/
theorem exists_takes (hlive : S.Live s)
    (hvs : ∀ vs s', s.Returns vs s' → ∀ v ∈ vs, v < high → v.Representable) (k : Nat) :
    ∃ vs s'', Settles (fun n => takeBefore n high k s) (.ok (vs.map Value.moment), s'') ∧
      Takes high k s vs s'' := by
  induction k generalizing s with
  | zero =>
    exact ⟨[], s, settles_const _, le_rfl, by simp, s, .nil s, .inl ⟨rfl, rfl⟩⟩
  | succ k ih =>
    obtain ⟨a, s₁, hsettles, -, hlive₁⟩ := hlive.head
    obtain ⟨n, hn⟩ := hsettles.exists_bound
    cases a with
    | none =>
      refine ⟨[], s₁, ?_, by simp, by simp, s, .nil s, .inr (.inr (Series.ends_of_head hn))⟩
      filter_upwards [hsettles] with n hn
      simp only [takeBefore, hn]
      rfl
    | some v =>
      have hnext := Series.next_of_head hn
      by_cases hlt : v < high
      · have hv : v.toMoment = .ok v.moment := Value.toMoment_eq_ok_iff.mpr
          ⟨hvs [v] s₁ (.cons hnext (.nil _)) v List.mem_cons_self hlt, rfl⟩
        obtain ⟨vs, s₂, hrest, hlength, hbefore, s', hrun, hstops⟩ := ih hlive₁
          fun vs s' hrun w hw => hvs (v :: vs) s' (.cons hnext hrun) w (.tail _ hw)
        refine ⟨v :: vs, s₂, ?_, by simpa using hlength, List.forall_mem_cons.mpr ⟨hlt, hbefore⟩, s',
          .cons hnext hrun, ?_⟩
        · filter_upwards [hsettles, hrest] with n hn hn'
          simp only [takeBefore, hn, hlt, not_true, if_false, hv, hn']
          rfl
        · simpa using hstops
      · refine ⟨[], s₁, ?_, by simp, by simp, s, .nil s, .inr (.inl ⟨v, .cons hnext (.nil _), hlt⟩)⟩
        filter_upwards [hsettles] with n hn
        simp only [takeBefore, hn, hlt, not_false_eq_true, if_true]
        rfl

/-! ### What a window holds -/

/-- What a window has taken when it ends before its limit is all that there is before its end. -/
theorem Takes.all (h : Takes high k s₁ ws s'') (hs₁ : s₁.GoesThrough F)
    (hgoes : s''.source.halted = false) (hshort : ws.length < k) (hv : F v) (hlt : v < high) :
    v ∈ ws := by
  obtain ⟨s', hrun, ⟨hfull, -⟩ | ⟨u, hnext, hu⟩ | hend⟩ := h.stops
  · omega
  · exact hs₁.mem_of_next hrun hnext hu hv hlt
  · exact hs₁.complete hrun hend hgoes v hv

/-- **A window holds** what stepping through everything finds between its bounds, up to its limit. -/
theorem eq_take_filter (hs₀ : s₀.GoesThrough F) (hs₁ : s₁.GoesThrough fun u => F u ∧ ¬ u < low)
    (h : Takes high k s₁ ws s'') (hgoes : s''.source.halted = false) (hrun : s₀.Returns vs s)
    (hvs : ∀ u, F u → u < high → u ∈ vs) :
    ws = (vs.filter fun v => ¬ v < low ∧ v < high).take k := by
  obtain ⟨s', hrun₁, -⟩ := h.stops
  -- both lists go through what lies between the bounds
  have hws : Segment (fun u => F u ∧ ¬ u < low ∧ u < high) ws := by
    have hsegment := (hs₁.segment hrun₁).filter (· < high)
    rw [List.filter_eq_self.mpr fun v hv => by simpa using h.before v hv] at hsegment
    exact hsegment.congr fun u => and_assoc.symm
  have hfilter : Segment (fun u => F u ∧ ¬ u < low ∧ u < high)
      (vs.filter fun v => ¬ v < low ∧ v < high) :=
    (hs₀.segment hrun).filter fun v => ¬ v < low ∧ v < high
  have hprefix := hws.prefix_of_all hfilter fun u hu =>
    List.mem_filter.mpr ⟨hvs u hu.1 hu.2.2, by simpa using hu.2⟩
  rcases h.length_le.lt_or_eq with hshort | hfull
  · have hprefix' := hfilter.prefix_of_all hws fun u hu =>
      h.all hs₁ hgoes hshort ⟨hu.1, hu.2.1⟩ hu.2.2
    have heq := hprefix.eq_of_length_le hprefix'.length_le
    rw [← heq, List.take_of_length_le hshort.le]
  · rw [← hfull]
    exact List.prefix_iff_eq_take.mp hprefix

/-- A run that is long enough comes to the end of a window. -/
theorem exists_not_lt {startUtc : Value} (hascending : vs.Pairwise (· < ·))
    (hreal : ∀ v ∈ vs, v.IsReal ∧ v.hasTime = timed) (hfrom : ∀ v ∈ vs, ¬ v < startUtc)
    (hstart : startUtc.IsReal ∧ startUtc.hasTime = timed) (hhigh : high.IsReal ∧ high.hasTime = timed)
    (hlong : (high.instant - startUtc.instant).toNat < vs.length) : ∃ v ∈ vs, ¬ v < high := by
  by_contra hall
  push Not at hall
  have hlt : ∀ {v w : Value}, v.IsReal ∧ v.hasTime = timed → w.IsReal ∧ w.hasTime = timed →
      (v < w ↔ v.instant < w.instant) := fun hv hw =>
    Value.lt_iff_instant hv.1 hw.1 (hv.2.trans hw.2.symm)
  -- the instants are different, and there are only so many between the start and the end
  have hnodup : (vs.map Value.instant).Nodup := by
    rw [List.Nodup, List.pairwise_map]
    exact hascending.imp_of_mem fun hu hv h => ((hlt (hreal _ hu) (hreal _ hv)).mp h).ne
  have hsub : (vs.map Value.instant).toFinset ⊆ Finset.Ico startUtc.instant high.instant := by
    intro t ht
    obtain ⟨v, hv, rfl⟩ := List.mem_map.mp (List.mem_toFinset.mp ht)
    have hlow := mt (hlt (hreal v hv) hstart).mpr (hfrom v hv)
    exact Finset.mem_Ico.mpr ⟨not_lt.mp hlow, (hlt (hreal v hv) hhigh).mp (hall v hv)⟩
  have hcard := Finset.card_le_card hsub
  rw [List.toFinset_card_of_nodup hnodup, List.length_map, Int.card_Ico] at hcard
  omega

/-! ### Answering a window -/

variable {source : RuleSource} {start first beginning ending : Moment} {choice : ZoneChoice}
  {settings : Settings} {r : Rule} {o : Occurrences} {limit : Option Int}

/-- A window leaves the series of some occurrences in a state: it has been moved to the beginning
and then asked for values before the end. -/
def WindowLeaves (o : Occurrences) (start beginning ending : Moment) (limit : Nat) (s : Series) :
    Prop :=
  ∃ low high s₁ ms, windowBounds start o.zone beginning ending = .ok (low, high) ∧
    Settles (fun n => o.series.advanceTo n low) (.ok (), s₁) ∧
    Settles (fun n => takeBefore n high limit s₁) (.ok ms, s)

/-- Whether a moment lies in a window whose bounds have lost their microseconds. -/
def InCutWindow (timed : Bool) (zone : Zone) (beginning ending m : Moment) : Prop :=
  beginning.position timed zone - beginning.lost timed ≤ m.position timed zone ∧
    m.position timed zone < ending.position timed zone - ending.lost timed

instance (timed : Bool) (zone : Zone) (beginning ending : Moment) :
    DecidablePred (InCutWindow timed zone beginning ending) := fun m => by
  unfold InCutWindow; infer_instance

/-- The bounds of a window suit its series: a series of date-times in a steady zone has date-times
as its bounds, and they and the start lie within the years 1 to 9999 of UTC. -/
def Suits (zone : Zone) (start beginning ending : Moment) : Prop :=
  start.hasTime = true → zone.Steady ∧ beginning.hasTime = true ∧ ending.hasTime = true ∧
    start.InUtc zone ∧ beginning.InUtc zone ∧ ending.InUtc zone

/-- **The bounds of a window** become values that delimit it, in the same order. -/
theorem exists_bounds (hb : beginning.Representable) (he : ending.Representable)
    (hsuits : Suits zone start beginning ending)
    (horder : beginning.position start.hasTime zone ≤ ending.position start.hasTime zone) :
    ∃ low high, windowBounds start zone beginning ending = .ok (low, high) ∧
      beginning.Delimits start.hasTime zone low ∧ ending.Delimits start.hasTime zone high ∧
      ¬ high < low := by
  cases ht : start.hasTime with
  | false =>
    rw [ht] at horder
    have hlow := Moment.delimits_dateBound hb zone
    have hhigh := Moment.delimits_dateBound he zone
    refine ⟨_, _, by simp only [windowBounds, ht]; rfl, hlow, hhigh, fun hlt => ?_⟩
    -- the first date at or after the end is not before the first one at or after the beginning
    have hbefore := (hlow.lt_iff _ hhigh.isReal rfl).mp hlt
    have hself := mt (hhigh.lt_iff _ hhigh.isReal rfl).mpr (lt_irrefl _)
    have hlost : beginning.lost false = 0 ∧ ending.lost false = 0 := ⟨rfl, rfl⟩
    omega
  | true =>
    rw [ht] at horder
    obtain ⟨-, hbt, het, -, ⟨low, hlow⟩, high, hhigh⟩ := hsuits ht
    refine ⟨low, high, by simp only [windowBounds, ht, hlow, hhigh]; rfl,
      Moment.delimits_toUtcValue hb hbt hlow, Moment.delimits_toUtcValue he het hhigh, fun hlt => ?_⟩
    obtain ⟨hlreal, hlkind, hlinstant⟩ := Moment.toUtcValue_spec hb hlow
    obtain ⟨hhreal, hhkind, hhinstant⟩ := Moment.toUtcValue_spec he hhigh
    have hbefore := (Value.lt_iff_instant hhreal.1 hlreal.1
      (hhkind.trans (het.trans (hbt.symm.trans hlkind.symm)))).mp hlt
    have horder : beginning.instantIn zone ≤ ending.instantIn zone := horder
    obtain ⟨-, hbm⟩ := id hb
    obtain ⟨-, hem⟩ := id he
    omega

/-- A window is answered with what is taken up to its end. -/
theorem settles_between {ms : List Moment}
    (hcreate : Settles (fun n => create n source start choice settings) (.ok o))
    (hbounds : windowBounds start o.zone beginning ending = .ok (low, high)) (horder : ¬ high < low)
    (hmove : Settles (fun n => o.series.advanceTo n low) (.ok (), s₁))
    (htake : Settles (fun n => takeBefore n high (windowLimit settings limit) s₁) (.ok ms, s)) :
    Settles (fun n => between n source start beginning ending limit choice settings) (.ok ms) := by
  filter_upwards [hcreate, hmove, htake] with n hn hn' hn''
  simp only [between, hn, hbounds, horder, if_false, hn', hn'', Option.map_some]
  rfl

theorem patient_between (source : RuleSource) (start beginning ending : Moment) (limit : Option Int)
    (choice : ZoneChoice) (settings : Settings) :
    Patient fun n => between n source start beginning ending limit choice settings := by
  intro m n a hmn ha
  simp only [between] at ha ⊢
  cases hm : create m source start choice settings with
  | none => simp [hm] at ha
  | some b =>
    have hn : create n source start choice settings = some b := patient_create _ _ _ _ hmn hm
    rw [hn]
    rw [hm] at ha
    match b, ha with
    | .error e, ha => exact ha
    | .ok o, ha =>
      dsimp only at ha ⊢
      match hbounds : windowBounds start o.zone beginning ending, ha with
      | .error e, ha => exact ha
      | .ok (low, high), ha =>
        dsimp only at ha ⊢
        split_ifs at ha ⊢ with hordered
        · exact ha
        · cases hmove : o.series.advanceTo m low with
          | none => simp [hmove] at ha
          | some b =>
            have hmove' : o.series.advanceTo n low = some b := o.series.patient_advanceTo low hmn hmove
            rw [hmove']
            rw [hmove] at ha
            match b, ha with
            | (.error e, s), ha => exact ha
            | (.ok (), s), ha => exact Patient.map (patient_takeBefore high _ s) _ hmn ha

/-- Whether the years give up in a window, for evaluation. -/
def windowHalts (bound : Nat) (source : RuleSource) (start beginning ending : Moment)
    (limit : Option Int) (choice : ZoneChoice) (settings : Settings) : Option Bool :=
  match create bound source start choice settings with
  | some (.ok o) =>
    match windowBounds start o.zone beginning ending with
    | .error _ => none
    | .ok (low, high) =>
      match o.series.advanceTo bound low with
      | some (.ok (), s) =>
        (takeBefore bound high (windowLimit settings limit) s).map fun (_, s) => s.source.halted
      | _ => none
  | _ => none

theorem WindowLeaves.halted_eq {b : Bool}
    (hcreate : Settles (fun n => create n source start choice settings) (.ok o))
    (h : o.WindowLeaves start beginning ending (windowLimit settings limit) s)
    (hb : windowHalts n source start beginning ending limit choice settings = some b) :
    s.source.halted = b := by
  obtain ⟨low, high, s₁, ms, hbounds, hmove, htake⟩ := h
  unfold windowHalts at hb
  split at hb
  · next o' hn =>
    obtain rfl := Except.ok.inj (Patient.eq_of_settles (patient_create _ _ _ _) hcreate hn)
    rw [hbounds] at hb
    dsimp only at hb
    split at hb
    · next s' hmove' =>
      obtain ⟨-, rfl⟩ := Prod.mk.inj
        (Patient.eq_of_settles (Series.patient_advanceTo _ low) hmove hmove')
      obtain ⟨a, htake', rfl⟩ := Option.map_eq_some_iff.mp hb
      rw [Patient.eq_of_settles (patient_takeBefore high _ _) htake htake']
    · exact absurd hb (by simp)
  · exact absurd hb (by simp)

/-- A value of the kind of the series lies between the bounds if its moment lies in the window. -/
theorem inCutWindow_moment (hlow : beginning.Delimits timed zone low)
    (hhigh : ending.Delimits timed zone high) (hv : v.IsReal) (hvt : v.hasTime = timed) :
    InCutWindow timed zone beginning ending v.moment ↔ ¬ v < low ∧ v < high := by
  unfold InCutWindow
  rw [Value.position_moment hvt, hlow.lt_iff v hv hvt, hhigh.lt_iff v hv hvt, not_lt]

/-- The first of the moments in a window are those of the first values between its bounds. -/
theorem take_filter_map (hlow : beginning.Delimits timed zone low)
    (hhigh : ending.Delimits timed zone high) (hvs : ∀ v ∈ vs, v.IsReal ∧ v.hasTime = timed) (k : Nat) :
    ((vs.map Value.moment).filter fun m => InCutWindow timed zone beginning ending m).take k =
      ((vs.filter fun v => ¬ v < low ∧ v < high).take k).map Value.moment := by
  rw [List.filter_map, List.map_take]
  congr 2
  refine List.filter_congr fun v hv => ?_
  obtain ⟨hreal, hkind⟩ := hvs v hv
  exact decide_eq_decide.mpr (inCutWindow_moment hlow hhigh hreal hkind)

/-- What a window holds, beside iteration through all occurrences, and the state that it leaves.
Iteration always goes on.  What the window holds are whole seconds in it, once its bounds have lost
their microseconds.  Unless the years have given up in the window, it holds all that iteration finds
there if it holds fewer than it may, and in any case the first of what iteration finds there, once
iteration has come far enough or has stopped. -/
structure Holds (o : Occurrences) (start beginning ending : Moment) (limit : Nat) (ms : List Moment)
    (s : Series) : Prop where
  leaves : o.WindowLeaves start beginning ending limit s
  goesOn : ∀ ys o', o.Yields ys o' → ∃ a o'', Settles (fun n => o'.next n) (a, o'')
  inside : ∀ m ∈ ms, m.micros = 0 ∧ InCutWindow start.hasTime o.zone beginning ending m
  complete : s.source.halted = false → ms.length < limit → ∀ ys o', o.Yields ys o' → ∀ m ∈ ys,
    InCutWindow start.hasTime o.zone beginning ending m → m ∈ ms
  filtered : s.source.halted = false → ∃ k, ∀ ys o', o.Yields ys o' → k ≤ ys.length ∨ o'.Stops →
    ms = (ys.filter fun m => InCutWindow start.hasTime o.zone beginning ending m).take limit

/-- Occurrences beside the state to which their series has been moved: from their start in UTC on
they go through some values, and from there on through those that are not before the target. -/
structure Moved (timed : Bool) (o : Occurrences) (startUtc low : Value) (s₁ : Series)
    (F : Value → Prop) : Prop where
  move : Settles (fun n => o.series.advanceTo n low) (.ok (), s₁)
  live : (∃ S : Supply, S.Live o.series) ∧ ∃ S : Supply, S.Live s₁
  kind : o.series.hasTime = timed ∧ s₁.hasTime = timed
  all : o.series.GoesThrough F
  rest : s₁.GoesThrough fun u => F u ∧ ¬ u < low
  start : startUtc.Representable ∧ startUtc.hasTime = timed
  start_le : ∀ vs s, o.series.Returns vs s → ∀ v ∈ vs, ¬ v < startUtc

/-- **Occurrences can be made and moved** to any value of the kind of their start. -/
theorem Expands.exists_moved (h : Expands source start choice settings r first zone)
    (hz : start.hasTime = true → zone.Steady ∧ start.InUtc zone) (hlow : low.IsReal)
    (hkind : low.hasTime = start.hasTime) : ∃ o startUtc s₁ F, o.zone = zone ∧
      Settles (fun n => create n source start choice settings) (.ok o) ∧
      Moved start.hasTime o startUtc low s₁ F := by
  obtain ⟨startUtc, hutc, hstart⟩ := h.exists_startUtc hz
  obtain ⟨s₀, s₁, F, hcreate, hmove, hs₀, hs₁, hs₀start, hfrom⟩ :=
    Rule.exists_goesThrough h.admits h.years (fun ht => (hz (h.hasTime.symm.trans ht)).1) hutc hlow
      (hkind.trans h.hasTime.symm)
  obtain ⟨n, hn⟩ := hcreate.exists_bound
  obtain ⟨k, hk⟩ := hmove.exists_bound
  have hreach := Series.Reachable.create hn
  obtain ⟨S, -, hlive, -⟩ := hreach.live h.valid h.admits.real
  obtain ⟨S₁, -, hlive₁, -, hs₁start, -⟩ := (hreach.advanceTo hk).live h.valid h.admits.real
  refine ⟨⟨s₀, zone⟩, startUtc, s₁, F, rfl, h.settles_create hcreate, hmove, ⟨⟨S, hlive⟩, S₁, hlive₁⟩,
    ⟨?_, ?_⟩, hs₀, hs₁, hstart, hfrom⟩
  · rw [Series.hasTime, hs₀start, h.hasTime]
  · rw [Series.hasTime, hs₁start, h.hasTime]

namespace Moved

variable {startUtc : Value}

theorem isReal (h : Moved timed o startUtc low s₁ F) (hrun : o.series.Returns vs s) :
    ∀ v ∈ vs, v.IsReal ∧ v.hasTime = timed := h.kind.1 ▸ h.all.isReal hrun

theorem isReal_rest (h : Moved timed o startUtc low s₁ F) (hrun : s₁.Returns vs s) :
    ∀ v ∈ vs, v.IsReal ∧ v.hasTime = timed := h.kind.2 ▸ h.rest.isReal hrun

/-- Whatever lies between the bounds lies in the years of moments. -/
theorem representable (h : Moved timed o startUtc low s₁ F) (hlow : beginning.Delimits timed zone low)
    (hhigh : ending.Delimits timed zone high) (hrun : s₁.Returns vs s) :
    ∀ v ∈ vs, v < high → v.Representable := fun v hv =>
  hlow.representable hhigh (h.isReal_rest hrun v hv) ((h.rest.segment hrun).mem v hv).2

/-- **The first occurrences** between the bounds, once iteration has come so far or has stopped. -/
theorem exists_filter (h : Moved timed o startUtc low s₁ F) (hlow : beginning.Delimits timed zone low)
    (hhigh : ending.Delimits timed zone high) (htakes : Takes high k s₁ ws s'')
    (hgoes : s''.source.halted = false) : ∃ n, ∀ ys o', o.Yields ys o' → n ≤ ys.length ∨ o'.Stops →
      ws.map Value.moment = (ys.filter fun m => InCutWindow timed zone beginning ending m).take k := by
  obtain ⟨⟨S, hlive⟩, -⟩ := h.live
  refine ⟨(high.instant - startUtc.instant).toNat + 1, fun ys o' hys hfar => ?_⟩
  obtain ⟨vs, hrun, rfl, -⟩ := hys.returns
  have hsegment := h.all.segment hrun
  rw [take_filter_map hlow hhigh (h.isReal hrun)]
  refine congrArg _ (eq_take_filter h.all h.rest htakes hgoes hrun fun u hu hlt => ?_)
  rcases hfar with hlong | hstops
  · rw [List.length_map] at hlong
    obtain ⟨v, hv, hle⟩ := exists_not_lt hsegment.ascending (h.isReal hrun) (h.start_le vs _ hrun)
      ⟨h.start.1.1, h.start.2⟩ ⟨hhigh.isReal, hhigh.hasTime⟩ hlong
    exact hsegment.closed v hv u hu (hlt.le.trans (not_lt.mp hle))
  · rcases hstops.cases (hlive.returns hrun) with ⟨s', hend, hgoes'⟩ | ⟨v, s', hnext, hnot⟩
    · exact h.all.complete hrun hend hgoes' u hu
    · -- a value that is no moment lies behind the end
      have hv := List.mem_append_right vs (List.mem_singleton_self v)
      have hrunv := hrun.append hnext
      obtain ⟨hv', hvt⟩ := h.isReal hrunv v hv
      refine h.all.mem_of_next hrun hnext (fun hvlt => hnot ⟨hv', ?_, hhigh.year_le v hv' hvt hvlt⟩) hu hlt
      exact h.start.1.2.1.trans (Value.year_le_of_le (not_lt.mp (h.start_le _ _ hrunv v hv)))

/-- **What is taken** between the bounds of a window is what the window holds. -/
theorem holds (h : Moved start.hasTime o startUtc low s₁ F)
    (hbounds : windowBounds start o.zone beginning ending = .ok (low, high))
    (hlow : beginning.Delimits start.hasTime o.zone low)
    (hhigh : ending.Delimits start.hasTime o.zone high)
    (htake : Settles (fun n => takeBefore n high k s₁) (.ok (ws.map Value.moment), s''))
    (htakes : Takes high k s₁ ws s'') : o.Holds start beginning ending k (ws.map Value.moment) s'' where
  leaves := ⟨low, high, s₁, _, hbounds, h.move, htake⟩
  goesOn ys o' hys := by
    obtain ⟨⟨S, hlive⟩, -⟩ := h.live
    obtain ⟨vs, hrun, -⟩ := hys.returns
    exact exists_next (hlive.returns hrun)
  inside m hm := by
    obtain ⟨s', hrun, -⟩ := htakes.stops
    obtain ⟨v, hv, rfl⟩ := List.mem_map.mp hm
    obtain ⟨hv', hvt⟩ := h.isReal_rest hrun v hv
    exact ⟨v.micros_moment, (inCutWindow_moment hlow hhigh hv' hvt).mpr
      ⟨((h.rest.segment hrun).mem v hv).2, htakes.before v hv⟩⟩
  complete hgoes hshort ys o' hys m hm hin := by
    obtain ⟨vs, hrun, rfl, -⟩ := hys.returns
    obtain ⟨v, hv, rfl⟩ := List.mem_map.mp hm
    obtain ⟨hv', hvt⟩ := h.isReal hrun v hv
    obtain ⟨hvlow, hvhigh⟩ := (inCutWindow_moment hlow hhigh hv' hvt).mp hin
    rw [List.length_map] at hshort
    exact List.mem_map_of_mem
      (htakes.all h.rest hgoes hshort ⟨(h.all.segment hrun).mem v hv, hvlow⟩ hvhigh)
  filtered hgoes := h.exists_filter hlow hhigh htakes hgoes

end Moved

/-- **A window is answered** with what iteration finds between its bounds. -/
theorem exists_window (h : Expands source start choice settings r first zone)
    (hb : beginning.Representable) (he : ending.Representable)
    (hsuits : Suits zone start beginning ending)
    (horder : beginning.position start.hasTime zone ≤ ending.position start.hasTime zone)
    (limit : Option Int) :
    ∃ o ms s, o.zone = zone ∧
      Settles (fun n => create n source start choice settings) (.ok o) ∧
      Settles (fun n => between n source start beginning ending limit choice settings) (.ok ms) ∧
      o.Holds start beginning ending (windowLimit settings limit) ms s := by
  obtain ⟨low, high, hbounds, hlow, hhigh, hordered⟩ := exists_bounds hb he hsuits horder
  obtain ⟨o, startUtc, s₁, F, rfl, hcreate, hmoved⟩ :=
    h.exists_moved (fun ht => ⟨(hsuits ht).1, (hsuits ht).2.2.2.1⟩) hlow.isReal hlow.hasTime
  obtain ⟨-, S, hlive⟩ := hmoved.live
  obtain ⟨ws, s, htake, htakes⟩ := exists_takes hlive
    (fun vs s' hrun => hmoved.representable hlow hhigh hrun) (windowLimit settings limit)
  exact ⟨o, _, s, rfl, hcreate, settles_between hcreate hbounds hordered hmoved.move htake,
    hmoved.holds hbounds hlow hhigh htake htakes⟩

end Occurrences

end Recurrence
