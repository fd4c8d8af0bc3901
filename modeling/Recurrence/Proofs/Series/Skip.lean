/-
Recurrence/Proofs/Series/Skip.lean

Passing over the months before a target.

Skipping months runs the first generators of a chain alone: the years, then the years
and months, then on from the days.  Wherever it sets out, the chain awaits afterwards
what it awaited before, without the values of the months before the target
(`Course.Awaits.skipMonths`); or the years have given up, and then as many idle years as
the budget holds lie before all that is left from the target's month on.
-/
import Recurrence.Proofs.Series.Patience

namespace Recurrence

/-- Whether a value lies in a month before that of a target. -/
def Value.MonthBefore (v target : Value) : Prop :=
  v.date.year < target.date.year ∨
    v.date.year = target.date.year ∧ v.date.month < target.date.month

namespace Course

variable {K : Course} {base : Int} {i j : Nat} {c : Candidates} {last : Option Int}
  {R : Value → Prop} {B : Int → Prop} {v target : Value}

/-! ### Months ahead -/

theorem monthBefore_iff : Series.monthBefore c target = true ↔
    c.fields.year < target.date.year ∨
      c.fields.year = target.date.year ∧ c.fields.month < target.date.month := by
  simp [Series.monthBefore]

theorem take_key (hn : i ≤ K.size) (v : Value) : (v.key.take K.size).take i = v.key.take i := by
  rw [List.take_take, Nat.min_eq_left hn]

theorem month_lt_iff {a b a' b' : Int} : [a, b] < [a', b'] ↔ a < a' ∨ a = a' ∧ b < b' := by
  simp [List.cons_lt_cons_iff]

theorem year_lt_iff {a a' : Int} : [a] < [a'] ↔ a < a' := by
  simp [List.cons_lt_cons_iff]

theorem length_take_toList (hi : i ≤ K.size) (hsize : K.size ≤ 6) (f : Fields) :
    (f.toList.take i).length = i := by
  rw [List.length_take, Fields.length_toList]
  omega

/-- No month before the current one lies ahead. -/
theorem not_lt_of_ahead (hi : 2 ≤ i) (hiK : i ≤ K.size) (hsize : K.size ≤ 6)
    (h : K.Ahead i c last v) :
    ¬ [v.date.year, v.date.month] < [c.fields.year, c.fields.month] := by
  have hle : c.fields.toList.take i ≤ (v.key.take K.size).take (c.fields.toList.take i).length := by
    rcases h with h | ⟨h, -⟩
    · exact h.le
    · exact h.le
  rw [length_take_toList hiK hsize, take_key hiK] at hle
  have hle := take_le_take hle 2
  rw [List.take_take, List.take_take, Nat.min_eq_left hi] at hle
  exact not_lt.mpr hle

/-- A value of a later month lies ahead. -/
theorem ahead_of_lt (hi : 2 ≤ i) (hiK : i ≤ K.size) (hsize : K.size ≤ 6)
    (h : [c.fields.year, c.fields.month] < [v.date.year, v.date.month]) : K.Ahead i c last v := by
  refine .inl (lt_of_take_lt_take (n := 2) ?_)
  rw [length_take_toList hiK hsize, take_key hiK, List.take_take, List.take_take,
    Nat.min_eq_left hi]
  exact h

theorem ahead_month_iff (hsize : 2 ≤ K.size) :
    K.Ahead 2 c none v ↔ ¬ [v.date.year, v.date.month] < [c.fields.year, c.fields.month] := by
  rw [Ahead, beyond_none_iff, not_lt]
  show [c.fields.year, c.fields.month] ≤ (v.key.take K.size).take 2 ↔ _
  rw [take_key hsize]
  rfl

theorem ahead_later_month_iff (hsize : 2 ≤ K.size) :
    K.Ahead 1 c (some c.fields.month) v ↔
      [c.fields.year, c.fields.month] < [v.date.year, v.date.month] := by
  rw [Ahead, beyond_some_iff]
  · show [c.fields.year, c.fields.month] < (v.key.take K.size).take 2 ↔ _
    rw [take_key hsize]
    rfl
  · show 1 < (v.key.take K.size).length
    rw [List.length_take, Value.length_key]
    omega

theorem ahead_year_iff (hsize : 2 ≤ K.size) :
    K.Ahead 1 c none v ↔ c.fields.year ≤ v.date.year := by
  rw [Ahead, beyond_none_iff, ← not_lt, ← not_lt, ← year_lt_iff]
  show ¬ (v.key.take K.size).take 1 < [c.fields.year] ↔ _
  rw [take_key (by omega)]
  rfl

theorem ahead_later_year_iff (hsize : 2 ≤ K.size) :
    K.Ahead 0 c (some c.fields.year) v ↔ c.fields.year < v.date.year := by
  rw [Ahead, beyond_some_iff]
  · show [c.fields.year] < (v.key.take K.size).take 1 ↔ _
    rw [take_key (by omega), ← year_lt_iff]
    rfl
  · show 0 < (v.key.take K.size).length
    rw [List.length_take, Value.length_key]
    omega

/-! ### Turning back -/

/-- The turn may pass back to any coarser generator. -/
theorem Holds.back (hK : K.Begins) (hi : i ≤ K.size) (h : K.Holds base i c last) (hj : j < i) :
    K.Holds base j c c.fields.toList[j]? := by
  induction i generalizing last with
  | zero => exact absurd hj (Nat.not_lt_zero j)
  | succ i ih =>
    have hup := h.up hK (by omega)
    rcases Nat.lt_succ_iff_lt_or_eq.mp hj with hlt | rfl
    · exact ih (by omega) hup hlt
    · exact hup

/-- Filling the budget up changes nothing but the account. -/
theorem Holds.credit (hK : K.Begins) (hi : 0 < i) (h : K.Holds base i c last) :
    K.Holds c.fields.year i (c.credit 0) last :=
  ⟨hK.blueprint.refill_stands hi h.stands, h.rest_eq, h.filter_eq, h.hasTime_eq, h.credited_eq⟩

/-! ### Years -/

/-- With a budget that has just been filled up, the next year is handed out, and it is the first
one wanted behind the current year. -/
theorem Holds.settles_year (hK : K.Begins) (hi : 0 < i) (h : K.Holds base i c last)
    (hbudget : 1 ≤ K.blueprint.years.budget) :
    ∃ c', Settles (fun n => (c.credit 0).run n 1 0) (.value, c') ∧
      ∀ y, K.blueprint.years.Wants K.blueprint.start y → c.fields.year < y →
        c'.fields.year ≤ y := by
  have hM := hK.blueprint.lawful base
  obtain ⟨g, rest, k, hc, hat⟩ := h.years hi
  obtain ⟨k', hfull⟩ := hat.refill hK.blueprint.years
  have hremaining : ¬ g.refill.remaining - 1 < 0 := by
    have : g.refill.remaining = K.blueprint.years.budget := hat.budget_eq
    omega
  have hgenerate := hfull.generate_eq hK.blueprint.years c.fields
  rw [if_neg hremaining] at hgenerate
  have hfirst : (c.credit 0).chain[0]? = some ⟨.years g.refill, []⟩ := by
    simp [Candidates.credit, hc, Generator.refill]
  have hturn := Mechanism.turn_settles (M := K.blueprint.mechanism base) Nat.one_pos hfirst
    (Blueprint.settles_years hgenerate)
  have hrun := Mechanism.run_again hM hturn Mechanism.turn_settles_over.finish
  refine ⟨_, hrun.map _, fun y hy hlt => ?_⟩
  have hpos : 0 < K.blueprint.start.length := by
    rw [hK.blueprint.length_start]
    exact Nat.succ_pos _
  exact (hfull.isNext_nextYear hK.blueprint.years hpos).least y hy (past_some.mpr hlt)

/-- **The next year** is the first one behind the current year that still has values. -/
theorem Holds.nextYear (hK : K.Begins) (hi : 0 < i) (hiK : i ≤ K.size) (h : K.Holds base i c last) :
    (∃ c', Settles (fun n => (c.credit 0).run n 1 0) (.value, c') ∧
        K.Holds c.fields.year 1 c' none ∧ c.fields.year < c'.fields.year ∧
        (∀ v, K.Builds v → c.fields.year < v.date.year → c'.fields.year ≤ v.date.year) ∧
        (1 ≤ K.blueprint.years.budget → ∀ y, K.blueprint.years.Wants K.blueprint.start y →
          c.fields.year < y → c'.fields.year ≤ y)) ∨
      ∃ c', Settles (fun n => (c.credit 0).run n 1 0) (.halt, c') ∧ c'.gaveUp = true ∧
        K.blueprint.years.budget < 1 ∧
        K.Exhausted c.fields.year fun v => K.Builds v ∧ c.fields.year < v.date.year := by
  have hsize := hK.two_le_size
  have hback : K.Holds c.fields.year 0 (c.credit 0) (some c.fields.year) :=
    (h.credit hK hi).back hK hiK hi
  rcases hback.run hK (n := 1) (by omega) (by omega) (by omega) (by omega) with
    ⟨c', hrun, hholds, hfirst, hsame⟩ | ⟨c', hrun, hgave, hex⟩
  · refine .inl ⟨c', hrun, hholds, ?_, fun v hv hlt => ?_, fun hbudget => ?_⟩
    · rw [beyond_some_iff (by simp [Fields.toList])] at hfirst
      exact year_lt_iff.mp hfirst
    · exact (ahead_year_iff hsize).mp ((hsame v hv).mp ((ahead_later_year_iff hsize).mpr hlt))
    · obtain ⟨c'', hrun', hleast⟩ := h.settles_year hK hi hbudget
      obtain ⟨-, rfl⟩ := Prod.mk.inj (hrun.unique hrun')
      exact hleast
  · refine .inr ⟨c', hrun, hgave, ?_, hex.mono fun v hv =>
      ⟨hv.1, (ahead_later_year_iff hsize).mpr hv.2⟩⟩
    by_contra hbudget
    obtain ⟨c'', hrun', -⟩ := h.settles_year hK hi (not_lt.mp hbudget)
    exact absurd (hrun.unique hrun') (by simp)

/-- The chain stands at a month, and has not gone past any value of the target's month or
later.  Of the year in which the budget was last full, `B` holds. -/
def Near (K : Course) (B : Int → Prop) (target : Value) (c : Candidates) : Prop :=
  ∃ base last, B base ∧ K.Holds base 2 c last ∧ (Series.monthBefore c target = true ∨
    last = none ∧ ∀ v, K.Builds v → ¬ v.MonthBefore target → K.Ahead 2 c none v)

/-- The years have given up, with idle years before all that is left from the target's month
on. -/
def GivesUp (K : Course) (B : Int → Prop) (target : Value) (c : Candidates) : Prop :=
  c.gaveUp = true ∧ ∃ base, B base ∧ K.Exhausted base fun v => K.Builds v ∧ ¬ v.MonthBefore target

/-- What a search for a month comes to. -/
def Lands (K : Course) (B : Int → Prop) (target : Value) (P : Candidates → Prop)
    (s : Step × Candidates) : Prop :=
  s.1 = .value ∧ P s.2 ∨ s.1 = .halt ∧ K.GivesUp B target s.2

/-- No year before that of the target has been used up since the budget was full. -/
def Refilled (K : Course) (target : Value) (base : Int) : Prop :=
  1 ≤ K.blueprint.years.budget → ∀ y, K.blueprint.years.Wants K.blueprint.start y → base < y →
    target.date.year ≤ y

/-- The chain stands at a year, and has not gone past any value of the target's year or
later. -/
def NearYear (K : Course) (target : Value) (c : Candidates) : Prop :=
  ∃ base, K.Refilled target base ∧ K.Holds base 1 c none ∧
    ∀ v, K.Builds v → target.date.year ≤ v.date.year → c.fields.year ≤ v.date.year

/-- Where a loop over the years has come to: the years have given up, or the chain stands in a year
before that of the target, or near the target's year.  At most `k` years lie between. -/
def PassesYears (K : Course) (target : Value) (k : Nat) (s : Step × Candidates) : Prop :=
  s.1 = .halt ∧ K.GivesUp (K.Refilled target) target s.2 ∨
    s.1 = .value ∧ (target.date.year - s.2.fields.year).toNat < k ∧
      ((∃ base i last, 0 < i ∧ i ≤ K.size ∧ K.Holds base i s.2 last) ∧
          s.2.fields.year < target.date.year ∨
        ¬ s.2.fields.year < target.date.year ∧ K.NearYear target s.2)

/-- A turn in a year before that of the target asks for the next year. -/
theorem settles_skipYearTurn {out : Step × Candidates} (hlt : c.fields.year < target.date.year)
    (hrun : Settles (fun n => (c.credit 0).run n 1 0) out) :
    Settles (fun n => Series.skipYearTurn n target (.value, c)) (.again out) := by
  filter_upwards [hrun] with n hn
  simp only [Series.skipYearTurn, hlt, and_self, if_true, hn, Option.map_some]

/-- From a year before that of the target, a turn passes to a later year. -/
theorem Holds.passYear (hK : K.Begins) (hi : 0 < i) (hiK : i ≤ K.size) (h : K.Holds base i c last)
    (hlt : c.fields.year < target.date.year) :
    ∃ s', Settles (fun n => Series.skipYearTurn n target (.value, c)) (.again s') ∧
      K.PassesYears target (target.date.year - c.fields.year).toNat s' := by
  have hsize := hK.two_le_size
  rcases h.nextYear hK hi hiK with
    ⟨c', hrun, hc', hgrow, hleast, hnext⟩ | ⟨c', hrun, hgave, hbudget, hex⟩
  · refine ⟨(.value, c'), settles_skipYearTurn hlt hrun, .inr ⟨rfl, ?_, ?_⟩⟩
    · show (target.date.year - c'.fields.year).toNat < _
      omega
    · by_cases hlt' : c'.fields.year < target.date.year
      · exact .inl ⟨⟨_, 1, none, Nat.one_pos, by omega, hc'⟩, hlt'⟩
      · refine .inr ⟨hlt', _, fun hbudget y hy hbase => ?_, hc', fun v hv hle =>
          hleast v hv (by omega)⟩
        exact (not_lt.mp hlt').trans (hnext hbudget y hy hbase)
  · refine ⟨(.halt, c'), settles_skipYearTurn hlt hrun,
      .inl ⟨rfl, hgave, _, fun hpos => ?_, hex.mono fun v hv => ⟨hv.1, ?_⟩⟩⟩
    · omega
    · have := hv.2
      unfold Value.MonthBefore at this
      omega

/-- **A turn over the years** passes to a later year, or the loop has come to its end. -/
theorem PassesYears.turn (hK : K.Begins) {k : Nat} {s : Step × Candidates}
    (h : K.PassesYears target k s) :
    Progresses (fun n => Series.skipYearTurn n target) (K.PassesYears target)
      (K.Lands (K.Refilled target) target (K.NearYear target)) k s := by
  obtain ⟨step, c⟩ := s
  rcases h with ⟨hstep, hgave⟩ | ⟨hstep, hk, ⟨⟨base, i, last, hi, hiK, hc⟩, hlt⟩ | ⟨hlt, hc⟩⟩
  · obtain rfl : step = .halt := hstep
    refine .inl ⟨(.halt, c), ?_, .inr ⟨rfl, hgave⟩⟩
    filter_upwards with n
    simp [Series.skipYearTurn]
  · obtain rfl : step = .value := hstep
    obtain ⟨s', hturn, hpasses⟩ := Holds.passYear hK hi hiK hc hlt
    exact .inr ⟨s', _, hturn, hk, hpasses⟩
  · obtain rfl : step = .value := hstep
    refine .inl ⟨(.value, c), ?_, .inl ⟨rfl, hc⟩⟩
    filter_upwards with n
    simp [Series.skipYearTurn, hlt]

/-- Years before that of the target are passed over one by one. -/
theorem Holds.loopYears (hK : K.Begins) (hi : 0 < i) (hiK : i ≤ K.size) (h : K.Holds base i c last)
    (hyear : c.fields.year < target.date.year) :
    ∃ s, Settles (fun n => loop (Series.skipYearTurn n target) n (.value, c)) s ∧
      K.Lands (K.Refilled target) target (K.NearYear target) s :=
  loop_settles (Series.patient_skipYearTurn target) (K.PassesYears target) _
    (fun _ _ hpasses => hpasses.turn hK)
    (.inr ⟨rfl, Nat.lt_succ_self _, .inl ⟨⟨base, i, last, hi, hiK, h⟩, hyear⟩⟩)

/-- The year in which the budget was last full, behind the skipping of months that set out from a
chain: it has changed only if years were passed over. -/
def Resumes (K : Course) (target : Value) (c : Candidates) (base base' : Int) : Prop :=
  target.date.year ≤ c.fields.year ∧ base' = base ∨
    c.fields.year < target.date.year ∧ K.Refilled target base'

/-- **Skipping years** leads to a month that is near the target. -/
theorem Holds.skipYears (hK : K.Begins) (hi : 2 ≤ i) (hiK : i ≤ K.size) (h : K.Holds base i c last)
    (hbefore : Series.monthBefore c target = true) :
    ∃ s, Settles (fun n => Series.skipYears n c target) s ∧
      K.Lands (K.Resumes target c base) target (K.Near (K.Resumes target c base) target) s := by
  have hsize := hK.two_le_size
  by_cases hyear : c.fields.year < target.date.year
  · obtain ⟨⟨step, c'⟩, hloop, ⟨hstep, base', hfull, hc', hleast⟩ |
        ⟨hstep, hgave, base', hfull, hex⟩⟩ := h.loopYears hK (by omega) hiK hyear
    · obtain rfl : step = .value := hstep
      have hahead : ∀ v, K.Builds v → ¬ v.MonthBefore target → K.Ahead 1 c' none v := by
        intro v hv hv'
        refine (ahead_year_iff hsize).mpr (hleast v hv ?_)
        unfold Value.MonthBefore at hv'
        omega
      -- from the year reached, the chain runs down to its first month
      rcases hc'.run hK (n := 2) (by omega) (by omega) hsize (by omega) with
        ⟨c'', hrun, hc'', -, hsame⟩ | ⟨c'', hrun, hgave, hex⟩
      · refine ⟨(.value, c''), ?_, .inl ⟨rfl, base', none,
          .inr ⟨hyear, hfull⟩, hc'', .inr ⟨rfl, fun v hv hv' => ?_⟩⟩⟩
        · filter_upwards [hloop, hrun] with n hn hn'
          simp only [Series.skipYears, hyear, if_true, hn, hn']
        · exact (hsame v hv).mp (hahead v hv hv')
      · refine ⟨(.halt, c''), ?_, .inr ⟨rfl, hgave, base', .inr ⟨hyear, hfull⟩,
          hex.mono fun v hv => ⟨hv.1, hahead v hv.1 hv.2⟩⟩⟩
        filter_upwards [hloop, hrun] with n hn hn'
        simp only [Series.skipYears, hyear, if_true, hn, hn']
    · obtain rfl : step = .halt := hstep
      refine ⟨(.halt, c'), ?_, .inr ⟨rfl, hgave, base', .inr ⟨hyear, hfull⟩, hex⟩⟩
      filter_upwards [hloop] with n hn
      simp only [Series.skipYears, hyear, if_true, hn]
  · refine ⟨(.value, c), ?_, .inl ⟨rfl, ?_⟩⟩
    · filter_upwards with n
      simp only [Series.skipYears, hyear, if_false]
    · have hsame : K.Resumes target c base base := .inl ⟨not_lt.mp hyear, rfl⟩
      rcases hi.lt_or_eq with hlt | rfl
      · exact ⟨base, _, hsame, h.back hK hiK hlt, .inl hbefore⟩
      · exact ⟨base, last, hsame, h, .inl hbefore⟩

/-! ### Months -/

/-- The months of a chain are months of the calendar. -/
theorem Holds.month_bounds (hK : K.Begins) (h : K.Holds base 2 c last) :
    1 ≤ c.fields.month ∧ c.fields.month ≤ 12 := by
  have hnode := hK.blueprint.calendar_node h.stands.node
  rw [path_take hK.two_le_size] at hnode
  exact hnode.child (show 1 < 2 by omega)

/-- The months from that of a chain up to December of the target's year, thirteen to a year so that
every step counts. -/
def monthsLeft (target : Value) (c : Candidates) : Int :=
  (target.date.year - c.fields.year) * 13 + (13 - c.fields.month)

/-- Where a loop over the months has come to: the years have given up, or the chain stands at a month
near the target.  At most `k` months lie between. -/
def PassesMonths (K : Course) (B : Int → Prop) (target : Value) (k : Nat) (s : Step × Candidates) :
    Prop :=
  s.1 = .halt ∧ K.GivesUp B target s.2 ∧ 0 < k ∨
    s.1 = .value ∧ (monthsLeft target s.2).toNat < k ∧ K.Near B target s.2

/-- A turn in a month before that of the target asks for the next month. -/
theorem settles_skipMonthTurn {out : Step × Candidates}
    (hbefore : Series.monthBefore c target = true) (hrun : Settles (fun n => c.run n 2 1) out) :
    Settles (fun n => Series.skipMonthTurn n target (.value, c)) (.again out) := by
  filter_upwards [hrun] with n hn
  simp only [Series.skipMonthTurn, hbefore, and_self, if_true, hn, Option.map_some]

/-- From a month before that of the target, a turn passes to a later month. -/
theorem Near.passMonth (hK : K.Begins) (h : K.Near B target c)
    (hbefore : Series.monthBefore c target = true) :
    ∃ s', Settles (fun n => Series.skipMonthTurn n target (.value, c)) (.again s') ∧
      K.PassesMonths B target (monthsLeft target c).toNat s' := by
  have hsize := hK.two_le_size
  obtain ⟨base, last, hbase, hholds, -⟩ := h
  have hmonth : 1 ≤ c.fields.month ∧ c.fields.month ≤ 12 := hholds.month_bounds hK
  have hlt := monthBefore_iff.mp hbefore
  have hback : K.Holds base 1 c (some c.fields.month) := hholds.back hK hsize (by omega)
  have hahead : ∀ v, K.Builds v → ¬ v.MonthBefore target →
      K.Ahead 1 c (some c.fields.month) v := by
    intro v _ hv'
    refine (ahead_later_month_iff hsize).mpr (month_lt_iff.mpr ?_)
    unfold Value.MonthBefore at hv'
    omega
  rcases hback.run hK (n := 2) (by omega) (by omega) hsize (by omega) with
    ⟨c', hrun, hc', hfirst, hsame⟩ | ⟨c', hrun, hgave, hex⟩
  · have hgrow : [c.fields.year, c.fields.month] < [c'.fields.year, c'.fields.month] := by
      rw [beyond_some_iff (by simp [Fields.toList])] at hfirst
      exact hfirst
    have hmonth' := hc'.month_bounds hK
    rw [month_lt_iff] at hgrow
    refine ⟨(.value, c'), settles_skipMonthTurn hbefore hrun,
      .inr ⟨rfl, ?_, base, none, hbase, hc', .inr ⟨rfl, fun v hv hv' => ?_⟩⟩⟩
    · show (monthsLeft target c').toNat < (monthsLeft target c).toNat
      unfold monthsLeft
      omega
    · exact (hsame v hv).mp (hahead v hv hv')
  · refine ⟨(.halt, c'), settles_skipMonthTurn hbefore hrun, .inl ⟨rfl, ⟨hgave, base, hbase,
      hex.mono fun v hv => ⟨hv.1, hahead v hv.1 hv.2⟩⟩, ?_⟩⟩
    unfold monthsLeft
    omega

/-- **A turn over the months** passes to a later month, or the loop has come to its end. -/
theorem PassesMonths.turn (hK : K.Begins) {k : Nat} {s : Step × Candidates}
    (h : K.PassesMonths B target k s) :
    Progresses (fun n => Series.skipMonthTurn n target) (K.PassesMonths B target)
      (K.Lands B target fun c' => K.Near B target c' ∧ ¬ Series.monthBefore c' target = true)
      k s := by
  obtain ⟨step, c⟩ := s
  rcases h with ⟨hstep, hgave, -⟩ | ⟨hstep, hk, hnear⟩
  · obtain rfl : step = .halt := hstep
    refine .inl ⟨(.halt, c), ?_, .inr ⟨rfl, hgave⟩⟩
    filter_upwards with n
    simp [Series.skipMonthTurn]
  · obtain rfl : step = .value := hstep
    by_cases hbefore : Series.monthBefore c target = true
    · obtain ⟨s', hturn, hpasses⟩ := Near.passMonth hK hnear hbefore
      exact .inr ⟨s', _, hturn, hk, hpasses⟩
    · refine .inl ⟨(.value, c), ?_, .inl ⟨rfl, hnear, hbefore⟩⟩
      filter_upwards with n
      simp [Series.skipMonthTurn, hbefore]

/-- **From a month near the target** the months before it are passed over one by one. -/
theorem Near.loopMonths (hK : K.Begins) (h : K.Near B target c) :
    ∃ s, Settles (fun n => loop (Series.skipMonthTurn n target) n (.value, c)) s ∧
      K.Lands B target (fun c' => K.Near B target c' ∧ ¬ Series.monthBefore c' target = true) s :=
  loop_settles (Series.patient_skipMonthTurn target) (K.PassesMonths B target) _
    (fun _ _ hpasses => hpasses.turn hK) (.inr ⟨rfl, Nat.lt_succ_self _, h⟩)

/-- **From a month near the target that is not before it** the chain runs on to the next date
or time: all that is left lies ahead of it. -/
theorem Near.run (hK : K.Begins) (hR : ∀ v, K.Builds v → ¬ v.MonthBefore target → R v)
    (h : K.Near B target c) (hlate : ¬ Series.monthBefore c target = true) :
    ∃ s, Settles (fun n => c.run n (c.chain.length - 1) 2) s ∧
      K.Lands B target
        (fun c' => ∃ base, B base ∧ K.Awaits base c' fun v => R v ∧ ¬ v.MonthBefore target) s := by
  have hsize := hK.two_le_size
  have hthree := hK.three_le_size
  obtain ⟨base, last, hbase, hholds, hnear⟩ := h
  obtain ⟨rfl, hall⟩ := hnear.resolve_left hlate
  have hlen : c.chain.length = K.size := hholds.stands.length_chain
  rw [hlen]
  rcases hholds.run hK (n := K.size - 1) (by omega) (by omega) (by omega) (fun _ => rfl) with
    ⟨c', hrun, hc', -, hsame⟩ | ⟨c', hrun, hgave, hex⟩
  · refine ⟨(.value, c'), hrun, .inl ⟨rfl, base, hbase, none, hc', fun v hv => ?_⟩⟩
    rw [← hsame v hv]
    constructor
    · exact fun hv' => hall v hv hv'.2
    · -- what lies ahead of the month lies in it or in a later one
      intro hv'
      rw [ahead_month_iff hsize, month_lt_iff] at hv'
      rw [monthBefore_iff] at hlate
      have hlate' : ¬ v.MonthBefore target := by
        unfold Value.MonthBefore
        omega
      exact ⟨hR v hv hlate', hlate'⟩
  · exact ⟨(.halt, c'), hrun, .inr ⟨rfl, hgave, base, hbase,
      hex.mono fun v hv => ⟨hv.1, hall v hv.1 hv.2⟩⟩⟩

/-- **Skipping months** leaves out what lies in a month before the target, and nothing
else. -/
theorem Awaits.skipMonths (hK : K.Begins) (h : K.Awaits base c R) (target : Value) :
    ∃ s, Settles (fun n => Series.skipMonths n c target) s ∧
      K.Lands (K.Resumes target c base) target (fun c' => ∃ base', K.Resumes target c base base' ∧
        K.Awaits base' c' fun v => R v ∧ ¬ v.MonthBefore target) s := by
  have hsize := hK.three_le_size
  have hsize' : K.size ≤ 6 := hK.blueprint.size_le
  obtain ⟨last, hholds, hahead⟩ := h
  by_cases hbefore : Series.monthBefore c target = true
  · -- all that is awaited from the target's month on lies behind the current month
    have hR : ∀ v, K.Builds v → ¬ v.MonthBefore target → R v := by
      intro v hv hv'
      rw [hahead v hv]
      refine ahead_of_lt (by omega) (by omega) hsize' (month_lt_iff.mpr ?_)
      have := monthBefore_iff.mp hbefore
      unfold Value.MonthBefore at hv'
      omega
    obtain ⟨⟨step, c₁⟩, hyears, ⟨hstep, hnear⟩ | ⟨hstep, hgave⟩⟩ :=
      hholds.skipYears hK (by omega) (by omega) hbefore
    · obtain rfl : step = .value := hstep
      obtain ⟨⟨step, c₂⟩, hmonths, ⟨hstep, hnear', hlate⟩ | ⟨hstep, hgave⟩⟩ := hnear.loopMonths hK
      · obtain rfl : step = .value := hstep
        obtain ⟨s, hrun, hlands⟩ := hnear'.run hK hR hlate
        refine ⟨s, ?_, hlands⟩
        filter_upwards [hyears, hmonths, hrun] with n h₁ h₂ h₃
        simp only [Series.skipMonths, hbefore, Bool.not_true, Bool.false_eq_true, if_false, h₁, h₂, h₃]
      · obtain rfl : step = .halt := hstep
        refine ⟨(.halt, c₂), ?_, .inr ⟨rfl, hgave⟩⟩
        filter_upwards [hyears, hmonths] with n h₁ h₂
        simp only [Series.skipMonths, hbefore, Bool.not_true, Bool.false_eq_true, if_false, h₁, h₂]
    · -- a halt among the years passes through the loop of months
      obtain rfl : step = .halt := hstep
      refine ⟨(.halt, c₁), ?_, .inr ⟨rfl, hgave⟩⟩
      have hmonths : Settles (fun n => loop (Series.skipMonthTurn n target) n (.halt, c₁))
          (.halt, c₁) := Settles.finish (by filter_upwards with n; simp [Series.skipMonthTurn])
      filter_upwards [hyears, hmonths] with n h₁ h₂
      simp only [Series.skipMonths, hbefore, Bool.not_true, Bool.false_eq_true, if_false, h₁, h₂]
  · rw [monthBefore_iff] at hbefore
    refine ⟨(.value, c), ?_, .inl ⟨rfl, base, .inl ⟨by omega, rfl⟩, last, hholds, fun v hv => ?_⟩⟩
    · filter_upwards with n
      simp [Series.skipMonths, mt monthBefore_iff.mp hbefore]
    · rw [← hahead v hv]
      refine and_iff_left_of_imp fun hRv => ?_
      have hlate := not_lt_of_ahead (by omega) (by omega) hsize' ((hahead v hv).mp hRv)
      rw [month_lt_iff] at hlate
      unfold Value.MonthBefore
      omega

end Course

end Recurrence
