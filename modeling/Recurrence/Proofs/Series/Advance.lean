/-
Recurrence/Proofs/Series/Advance.lean

Moving a series ahead.

Moving ahead passes over the months before the target unseen, and then judges and drops
one instance after another until one is not before the target.  What the series tracks
afterwards is what it tracked before, without the values before the target
(`Supply.Tracks.advanceTo`).  No assumption is made about the target unless the answer
is to be exact, so every state that any calls lead to tracks some set.
-/
import Recurrence.Proofs.Series.Chain
import Recurrence.Proofs.Series.Skip
import Recurrence.Proofs.Series.States

namespace Recurrence

namespace Supply

variable {S : Supply} {s s' : Series} {R R' F : Value → Prop} {target : Value}

/-! ### Leaving out what is before a target -/

/-- A supply whose sources never go astray, and where having no more of some values means
having no more of fewer. -/
structure Exact (S : Supply) : Prop where
  straight : ∀ src, ¬ S.Astray src
  over_mono : ∀ src R R', S.Over src R → (∀ w, R' w → R w) → S.Over src R'

theorem Left.mono {e : Ending} {z : Zone} {u : Value} (h : S.Left e z R' u)
    (hle : ∀ w, R' w → R w) : S.Left e z R u := by
  obtain ⟨w, hw, hR, hadm, hu⟩ := h
  exact ⟨w, hw, hle w hR, hadm, hu⟩

/-- The members whose UTC value is not before a target. -/
theorem left_and_not_lt (e : Ending) (z : Zone) (u : Value) :
    S.Left e z (fun w => R w ∧ ¬ w.inUtc z < target) u ↔ S.Left e z R u ∧ ¬ u < target := by
  constructor
  · rintro ⟨w, hw, ⟨hR, hle⟩, hadm, rfl⟩
    exact ⟨⟨w, hw, hR, hadm, rfl⟩, hle⟩
  · rintro ⟨⟨w, hw, hR, hadm, rfl⟩, hle⟩
    exact ⟨w, hw, ⟨hR, hle⟩, hadm, rfl⟩

/-- A series that has stopped goes on tracking what is not before a target. -/
theorem Tracks.drop (hE : S.Exact) (h : S.Tracks s F) (hpending : s.pending = none)
    (hfinished : s.finished = true) (target : Value) :
    S.Tracks s fun u => F u ∧ ¬ u < target := by
  obtain ⟨R, h⟩ := h
  refine ⟨_, (tracksFrom_left (R := fun w => R w ∧ ¬ w.inUtc s.zone < target) hpending
    (fun hf => absurd (hf.symm.trans hfinished) (by simp)) fun _ => ?_).congr fun u => ?_⟩
  · rcases h.stopped hfinished with hover | hnone | hcount
    · exact .inl (hE.over_mono _ _ _ hover fun _ hw => hw.1)
    · exact .inr (.inl fun u hu => hnone u (hu.mono fun _ hw => hw.1))
    · exact .inr (.inr hcount)
  · rw [h.left_iff hpending, left_and_not_lt]

/-! ### Dropping instances -/

/-- Values before a target lie before the end of its year. -/
theorem instant_lt_of_lt {u : Value} (hu : u.IsReal) (hlt : u < target) :
    u.instant < (Gregorian.dayNumber target.date.year 1 1 + 366) * 86400 := by
  have hbounds := (Course.instant_bounds hu).2
  have hfirst := Gregorian.dayNumber_first_le (Value.year_le_of_le hlt.le)
  unfold Course.yearSeconds at hbounds
  push_cast at hbounds
  omega

/-- Where nothing is held, what is tracked are values of the kind of the series. -/
theorem TracksFrom.isReal (hS : S.Fits s) (h : S.TracksFrom s R F) (hpending : s.pending = none)
    {u : Value} (hu : F u) : u.IsReal ∧ u.hasTime = s.hasTime := by
  obtain ⟨w, hw, -, -, rfl⟩ := (h.left_iff hpending u).mp hu
  obtain ⟨hreal, hkind⟩ := hS.lawful.member w hw
  have hutc := Value.toUtc_of_steady (hS.steady_of hkind) hreal
  exact ⟨hutc.2.1, hutc.2.2.1.trans hkind⟩

/-- What is tracked does not reach down without end. -/
theorem TracksFrom.low (hS : S.Fits s) (h : S.TracksFrom s R F) (hpending : s.pending = none)
    (hfinished : s.finished = false) : ∃ m, ∀ u, F u → m ≤ u.instant := by
  obtain ⟨m, hm⟩ := (h.ready hfinished).low
  refine ⟨m - s.zone.lead s.hasTime, fun u hu => ?_⟩
  obtain ⟨w, hw, hR, -, rfl⟩ := (h.left_iff hpending u).mp hu
  obtain ⟨hreal, hkind⟩ := hS.lawful.member w hw
  have hinstant := (Value.toUtc_of_steady (hS.steady_of hkind) hreal).2.2.2
  rw [hkind] at hinstant
  have := hm w hreal hkind hR
  show m - s.zone.lead s.start.hasTime ≤ _
  omega

/-- What has become of a series `s` that tracked `F` and drops the instances before a target: what it
tracks now is the same from the target on, and less than `k` seconds are left up to the end of the
target's year. -/
structure Dropping (S : Supply) (s : Series) (F : Value → Prop) (target : Value) (k : Nat)
    (s₁ : Series) (F₁ : Value → Prop) : Prop where
  sameRule : s.SameRule s₁
  pending : s₁.pending = none
  running : s₁.finished = false
  tracks : S.Tracks s₁ F₁
  same : ∀ u, ¬ u < target → (F₁ u ↔ F u)
  close : ∀ u, F₁ u →
    (Gregorian.dayNumber target.date.year 1 1 + 366) * 86400 < u.instant + k

/-- A series tracks what `s` tracked, less what is before the target. -/
def Dropped (S : Supply) (s : Series) (F : Value → Prop) (target : Value) (s' : Series) : Prop :=
  s.SameRule s' ∧ ∃ F', S.Tracks s' F' ∧ ∀ u, F' u ↔ F u ∧ ¬ u < target

/-- An instance before the target is dropped. -/
theorem Dropping.drop {s₁ s₂ : Series} {F₁ F₂ : Value → Prop} {k : Nat} {v : Value} (hS : S.Fits s)
    (h : S.Dropping s F target k s₁ F₁) (hrule : s₁.SameRule s₂) (hrunning : s₂.finished = false)
    (htracks : S.Tracks s₂ F₂) (hF₂ : ∀ u, F₂ u ↔ F₁ u) (hp : v ∈ s₂.pending) (hF₁ : F₁ v)
    (hlt : v < target) :
    ((Gregorian.dayNumber target.date.year 1 1 + 366) * 86400 - v.instant).toNat < k ∧
      ∃ F₃, S.Dropping s F target
        ((Gregorian.dayNumber target.date.year 1 1 + 366) * 86400 - v.instant).toNat
        { s₂ with pending := none } F₃ := by
  have hS₁ := hS.of_sameRule h.sameRule
  obtain ⟨R₁, h₁⟩ := h.tracks
  obtain ⟨R₂, h₂⟩ := htracks
  obtain ⟨hreal, hkind⟩ := h₁.isReal hS₁ h.pending hF₁
  have hbound := instant_lt_of_lt hreal hlt
  have hclose := h.close v hF₁
  refine ⟨by omega, _, (h.sameRule.trans hrule).trans ⟨rfl, rfl, rfl⟩, rfl, hrunning,
    ⟨R₂, h₂.pop (hS₁.of_sameRule hrule) hp⟩, fun u hu => ?_, fun u hu => ?_⟩
  · rw [hF₂, h.same u hu]
    exact and_iff_left (hlt.trans_le (not_lt.mp hu))
  · obtain ⟨hur, huk⟩ := h₁.isReal hS₁ h.pending ((hF₂ u).mp hu.1)
    have := (Value.lt_iff_instant hreal hur (hkind.trans huk.symm)).mp hu.2
    omega

/-- **A turn** drops an instance before the target, or what is left is not before it. -/
theorem Dropping.turn {s₁ : Series} {F₁ : Value → Prop} {k : Nat} (hS : S.Fits s) (hE : S.Exact)
    (h : S.Dropping s F target k s₁ F₁) :
    Progresses (fun n s₁ => Series.skipTurn n target s₁)
      (fun k s₁ => ∃ F₁, S.Dropping s F target k s₁ F₁)
      (fun answer => answer.1 = .ok () ∧ S.Dropped s F target answer.2) k s₁ := by
  have hS₁ := hS.of_sameRule h.sameRule
  obtain ⟨s₂, F₂, hsettles, hrule, htracks, -, hF₂, hstop⟩ := Tracks.hasNext hS₁ h.tracks
  have hF₂ : ∀ u, F₂ u ↔ F₁ u := hF₂.resolve_left (hE.straight _)
  have hrules := h.sameRule.trans hrule
  have hturn : Settles (fun n => Series.skipTurn n target s₁)
      (Series.dropTurn target (.ok s₂.pending.isSome, s₂)) := by
    filter_upwards [hsettles] with n hn
    rw [Series.skipTurn_eq h.pending h.running, hn, Option.map_some]
  unfold Series.dropTurn at hturn
  dsimp only at hturn
  cases hp : s₂.pending with
  | none =>
    rw [hp] at hturn
    refine .inl ⟨_, hturn, rfl, hrules, _, Tracks.drop hE htracks hp (hstop hp) target, fun u => ?_⟩
    rw [hF₂]
    exact and_congr_left (h.same u)
  | some v =>
    obtain ⟨R₂, h₂⟩ := htracks
    have hv := h₂.isLeast (hS₁.of_sameRule hrule) hp
    rw [hp] at hturn
    dsimp only at hturn
    by_cases hlt : v < target
    · rw [if_pos hlt] at hturn
      obtain ⟨n, hn⟩ := hsettles.exists_bound
      obtain ⟨hk, hdropping⟩ := h.drop hS hrule ((Series.finished_of_hasNext hn hp).trans h.running)
        ⟨R₂, h₂⟩ hF₂ hp ((hF₂ v).mp hv.1) hlt
      exact .inr ⟨_, _, hturn, hk, hdropping⟩
    · rw [if_neg hlt] at hturn
      refine .inl ⟨_, hturn, rfl, hrules, F₂, ⟨R₂, h₂⟩,
        fun u => ⟨fun hu => ?_, fun ⟨hu, hle⟩ => ?_⟩⟩
      · have hle : ¬ u < target := not_lt.mpr ((not_lt.mp hlt).trans (hv.2 hu))
        exact ⟨(h.same u hle).mp ((hF₂ u).mp hu), hle⟩
      · exact (hF₂ u).mpr ((h.same u hle).mpr hu)

/-- **Dropping instances** one by one leaves those that are not before the target. -/
theorem Tracks.skip (hS : S.Fits s) (hE : S.Exact) (h : S.Tracks s F) (hpending : s.pending = none)
    (hfinished : s.finished = false) (target : Value) :
    ∃ s' F', Settles (fun n => loop (Series.skipTurn n target) n s) (.ok (), s') ∧ s.SameRule s' ∧
      S.Tracks s' F' ∧ ∀ u, F' u ↔ F u ∧ ¬ u < target := by
  obtain ⟨R, h⟩ := h
  obtain ⟨m, hlow⟩ := h.low hS hpending hfinished
  have hdropping : S.Dropping s F target
      ((Gregorian.dayNumber target.date.year 1 1 + 366) * 86400 - m + 1).toNat s F := by
    refine ⟨.refl s, hpending, hfinished, ⟨R, h⟩, fun _ _ => Iff.rfl, fun u hu => ?_⟩
    have := hlow u hu
    omega
  -- every instance that is dropped lies later in time, and none behind the target's year
  obtain ⟨⟨a, s'⟩, hsettles, rfl, hrule, F', htracks, hF'⟩ :=
    loop_settles (Series.patient_skipTurn target) (fun k s₁ => ∃ F₁, S.Dropping s F target k s₁ F₁)
      _ (fun _ _ ⟨_, h₁⟩ => h₁.turn hS hE) ⟨F, hdropping⟩
  exact ⟨s', F', hsettles, hrule, htracks, hF'⟩

end Supply

/-! ### Targets -/

namespace Value

variable {v w target : Value} {z : Zone}

theorem MonthBefore.lt (h : v.MonthBefore w) : v < w := by
  rw [lt_iff_rank]
  apply lt_of_take_lt_take (n := 2)
  show [v.date.year, v.date.month] < [w.date.year, w.date.month]
  exact Course.month_lt_iff.mpr h

theorem MonthBefore.anti (hvw : v < w) (h : w.MonthBefore target) : v.MonthBefore target := by
  have hle : v.rank.take 2 ≤ w.rank.take 2 := take_le_take (lt_iff_rank.mp hvw).le 2
  have hle : [v.date.year, v.date.month] ≤ [w.date.year, w.date.month] := hle
  exact Course.month_lt_iff.mp (hle.trans_lt (Course.month_lt_iff.mpr h))

/-- Whether what lies in a month before a target on the wall clock is before it in UTC. -/
def Aims (target : Value) (z : Zone) (timed : Bool) : Prop :=
  ∃ l, target.fromUtc z = .ok l ∧
    ∀ w : Value, w.IsReal → w.hasTime = timed → w.MonthBefore l → w.inUtc z < target

theorem inUtc_of_date (hv : v.hasTime = false) : v.inUtc z = v := by
  obtain ⟨d, _ | t⟩ := v
  · cases z <;> rfl
  · exact absurd hv (by simp [hasTime])

/-- For dates every date will do, in any zone. -/
theorem aims_of_untimed (z : Zone) (ht : target.hasTime = false) : target.Aims z false := by
  refine ⟨target, ?_, fun w _ hw hbefore => ?_⟩
  · obtain ⟨d, _ | t⟩ := target
    · cases z <;> rfl
    · exact absurd ht (by simp [hasTime])
  · rw [inUtc_of_date hw]
    exact hbefore.lt

/-- Every target in UTC, every date, and every real date-time will do. -/
theorem aims_of_kind (hz : z.Steady) {timed : Bool} (hkind : target.hasTime = timed)
    (hreal : z = .utc ∨ timed = false ∨ target.IsReal) : target.Aims z timed := by
  rcases hreal with rfl | rfl | hreal
  · exact ⟨target, rfl, fun w _ _ hbefore => hbefore.lt⟩
  · exact aims_of_untimed z hkind
  · obtain ⟨l, hl, hlr, hlt, hutc⟩ := fromUtc_of_steady hz hreal
    refine ⟨l, hl, fun w hw hwt hbefore => ?_⟩
    rw [← hutc, inUtc_lt_iff (fun _ => hz) hw hlr (hwt.trans (hkind.symm.trans hlt.symm))]
    exact hbefore.lt

end Value

namespace Course

variable {K : Course} {s : Series} {R F : Value → Prop}

/-- The supply of a chain whose years are nobody's concern. -/
def freeSupply (K : Course) : Supply := K.supply fun _ _ => True

theorem exact_freeSupply (K : Course) : K.freeSupply.Exact where
  straight _ := id
  over_mono := by
    rintro src R R' ⟨hhalted, base, -, hex⟩ hle
    exact ⟨hhalted, base, trivial, hex.mono fun w hw => ⟨hw.1, hle w hw.2⟩⟩

/-! ### Passing over months -/

/-- **Passing over months** leaves out what lies in a month before the target. -/
theorem passOver (hK : K.Begins) (h : K.freeSupply.TracksFrom s R F) (hpending : s.pending = none)
    (hfinished : s.finished = false) (target : Value) :
    ∃ a s' F', Settles (fun n => s.passOver n target) (a, s') ∧ s.SameRule s' ∧
      s'.pending = none ∧ K.freeSupply.Tracks s' F' ∧ ∀ l, target.fromUtc s.zone = .ok l →
        a = .ok () ∧
          ∀ u, F' u ↔ K.freeSupply.Left s.ending s.zone (fun w => R w ∧ ¬ w.MonthBefore l) u := by
  have hready := h.ready hfinished
  obtain ⟨c, base, hsource, hawaits, -⟩ := hready.awaits
  cases hl : target.fromUtc s.zone with
  | error e =>
    -- without a wall-clock value of the target nothing is passed over
    refine ⟨.error (.conversion e), s, F, ?_, .refl s, hpending, ⟨R, h⟩,
      fun l hl => absurd hl (by simp)⟩
    filter_upwards with n
    simp only [Series.passOver, hsource, hl]
  | ok l =>
    obtain ⟨⟨step, c'⟩, hskip, ⟨hstep, base', -, hawaits'⟩ |
        ⟨hstep, hgave, base', -, hex⟩⟩ := hawaits.skipMonths hK l
    · obtain rfl : step = .value := hstep
      refine ⟨.ok (), { s with source := .plain c' }, _, Series.settles_passOver hsource hl hskip,
        ⟨rfl, rfl, rfl⟩, hpending,
        ⟨_, Supply.tracksFrom_left hpending (fun _ => ⟨⟨c', base', rfl, hawaits', trivial⟩,
          fun v w hkind hlt hv => ⟨hready.upward v w hkind hlt hv.1, fun hw => hv.2 (hw.anti hlt)⟩,
          ?_, fun k hk w hw hwt hR => hready.after k hk w hw hwt hR.1⟩)
          fun hf => absurd (hfinished.symm.trans hf) (by simp)⟩, ?_⟩
      · obtain ⟨m, hm⟩ := hready.low
        exact ⟨m, fun w hw hwt hR => hm w hw hwt hR.1⟩
      · rintro _ ⟨⟩
        exact ⟨rfl, fun u => Iff.rfl⟩
    · obtain rfl : step = .halt := hstep
      refine ⟨.ok (), { s with source := .plain c', finished := true }, _,
        Series.settles_passOver_of_halt hsource hl hskip, ⟨rfl, rfl, rfl⟩, hpending,
        ⟨fun w => R w ∧ ¬ w.MonthBefore l, Supply.tracksFrom_left hpending
          (fun hf => absurd hf (by simp)) fun _ => .inl ⟨hgave, base', trivial, hex.mono ?_⟩⟩, ?_⟩
      · exact fun w hw => ⟨hw.1.1, hw.2.2⟩
      · rintro _ ⟨⟩
        exact ⟨rfl, fun u => Iff.rfl⟩

/-! ### Moving ahead -/

/-- **Skipping** leaves what is not before the target, if the target is one to aim at. -/
theorem skipTo (hK : K.Begins) (hS : K.freeSupply.Fits s) (h : K.freeSupply.Tracks s F)
    (hpending : s.pending = none) (target : Value) :
    ∃ a s' F', Settles (fun n => s.skipTo n target) (a, s') ∧ s.SameRule s' ∧
      K.freeSupply.Tracks s' F' ∧ (target.Aims s.zone s.hasTime →
        a = .ok () ∧ ∀ u, F' u ↔ F u ∧ ¬ u < target) := by
  have hE := exact_freeSupply K
  cases hfinished : s.finished with
  | true =>
    exact ⟨.ok (), s, _, Series.settles_skipTo_of_finished hfinished, .refl s,
      h.drop hE hpending hfinished target, fun _ => ⟨rfl, fun _ => Iff.rfl⟩⟩
  | false =>
    cases hskips : s.skipsMonths with
    | false =>
      obtain ⟨s', F', hloop, hrule, htracks, hF'⟩ := h.skip hS hE hpending hfinished target
      exact ⟨.ok (), s', F', Series.settles_skipTo_of_skip hfinished hskips hloop, hrule, htracks,
        fun _ => ⟨rfl, hF'⟩⟩
    | true =>
      obtain ⟨R, h⟩ := h
      obtain ⟨a, s₁, F₁, hpass, hrule, hpending₁, htracks, hF₁⟩ :=
        passOver hK h hpending hfinished target
      -- what is left out with its month is before the target anyway
      have hsame : target.Aims s.zone s.hasTime →
          a = .ok () ∧ ∀ u, F₁ u ∧ ¬ u < target ↔ F u ∧ ¬ u < target := by
        rintro ⟨l, hl, hbefore⟩
        obtain ⟨ha, hF₁⟩ := hF₁ l hl
        refine ⟨ha, fun u => and_congr_left fun hu => ?_⟩
        rw [hF₁, h.left_iff hpending]
        constructor
        · exact fun hleft => hleft.mono fun w hw => hw.1
        · rintro ⟨w, hw, hR, hadm, rfl⟩
          obtain ⟨hreal, hkind⟩ := hS.lawful.member w hw
          exact ⟨w, hw, ⟨hR, fun hmonth => hu (hbefore w hreal hkind hmonth)⟩, hadm, rfl⟩
      cases a with
      | error e =>
        exact ⟨.error e, s₁, F₁, Series.settles_skipTo_of_passOver_error hfinished hskips hpass, hrule,
          htracks, fun haims => absurd (hsame haims).1 (by simp)⟩
      | ok _ =>
        cases hfinished₁ : s₁.finished with
        | true =>
          exact ⟨.ok (), s₁, _,
            Series.settles_skipTo_of_passOver_finished hfinished hskips hpass hfinished₁, hrule,
            htracks.drop hE hpending₁ hfinished₁ target, fun haims => ⟨rfl, (hsame haims).2⟩⟩
        | false =>
          obtain ⟨s', F', hloop, hrule', htracks', hF'⟩ :=
            htracks.skip (hS.of_sameRule hrule) hE hpending₁ hfinished₁ target
          refine ⟨.ok (), s', F',
            Series.settles_skipTo_of_passOver hfinished hskips hpass hfinished₁ hloop,
            hrule.trans hrule', htracks', fun haims => ⟨rfl, fun u => ?_⟩⟩
          rw [hF', (hsame haims).2]

/-- **Moving ahead** leaves what is not before the target, if the target is one to aim at. -/
theorem advanceTo (hK : K.Begins) (hS : K.freeSupply.Fits s) (h : K.freeSupply.Tracks s F)
    (target : Value) :
    ∃ a s' F', Settles (fun n => s.advanceTo n target) (a, s') ∧ s.SameRule s' ∧
      K.freeSupply.Tracks s' F' ∧ ((s.roundTarget target).Aims s.zone s.hasTime →
        a = .ok () ∧ ∀ u, F' u ↔ F u ∧ ¬ u < s.roundTarget target) := by
  unfold Series.advanceTo
  dsimp only
  cases hp : s.pending with
  | none => exact skipTo hK hS h hp _
  | some v =>
    dsimp only
    by_cases hlt : v < s.roundTarget target
    · simp only [hlt, if_true]
      obtain ⟨R, h⟩ := h
      have hrule : s.SameRule { s with pending := none } := ⟨rfl, rfl, rfl⟩
      obtain ⟨a, s', F', hskip, hrule', htracks, hF'⟩ :=
        skipTo hK (hS.of_sameRule hrule) ⟨R, h.pop hS hp⟩ rfl (s.roundTarget target)
      refine ⟨a, s', F', hskip, hrule.trans hrule', htracks, fun haims => ?_⟩
      obtain ⟨ha, hF'⟩ := hF' haims
      refine ⟨ha, fun u => ?_⟩
      rw [hF', and_assoc, and_congr_right_iff]
      exact fun _ => and_iff_right_of_imp fun hu => hlt.trans_le (not_lt.mp hu)
    · simp only [hlt, if_false]
      refine ⟨.ok (), s, F, settles_const _, .refl s, h, fun _ => ⟨rfl, fun u => ?_⟩⟩
      obtain ⟨R, h⟩ := h
      exact (and_iff_left_of_imp fun hu =>
        not_lt.mpr ((not_lt.mp hlt).trans ((h.isLeast hS hp).2 hu))).symm

end Course

end Recurrence
