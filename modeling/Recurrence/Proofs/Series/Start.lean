/-
Recurrence/Proofs/Series/Start.lean

What a series tracks when it has been created.

Instances before the start are dropped one by one, so a new series tracks the members
from the start on that its ending admits (`Supply.Begins.create`), whatever its source
is.  This holds also where nothing is looked for at all, because the steps of the rule
cannot meet its listed times.
-/
import Recurrence.Proofs.Meaning.Matches
import Recurrence.Proofs.Meaning.Reach
import Recurrence.Proofs.Series.Track

namespace Recurrence

/-! ### Dropping the instances before the start -/

namespace Supply

variable {S : Supply} {s s₁ s₂ : Series} {R R₁ : Value → Prop} {k : Nat} {v : Value}

/-- What has become of a new series `s` that drops the instances before its start: its source awaits
the members with `R₁`, and they begin less than `k` seconds before the start. -/
structure Starting (S : Supply) (s : Series) (k : Nat) (s₁ : Series) (R₁ : Value → Prop) : Prop where
  sameRule : s.SameRule s₁
  pending : s₁.pending = none
  running : s₁.finished = false
  ending : s₁.ending = s.ending
  ready : S.Ready s₁ R₁
  onward : ∀ w, w.hasTime = s.hasTime → s.start ≤ w → R₁ w
  close : ∀ w, w.IsReal → w.hasTime = s.hasTime → R₁ w → s.start.instant < w.instant + k

/-- A series tracks the members from its start on that the ending of `s` admits. -/
def Started (S : Supply) (s s' : Series) : Prop :=
  s.SameRule s' ∧ ∃ F, S.Tracks s' F ∧
    (S.Astray s'.source ∨ ∀ u, F u ↔ S.Left s.ending s.zone (s.start ≤ ·) u)

/-- An instance before the start is dropped, and those that are awaited then begin after it. -/
theorem Starting.drop (h : S.Starting s k s₁ R₁) (hs₂ : s₁.Draws s₂) (hready : S.Ready s₂ (v < ·))
    (hv : v.IsReal) (hkind : v.hasTime = s.hasTime) (hlt : v < s.start) :
    S.Starting s (s.start.instant - v.instant).toNat s₂ (v < ·) where
  sameRule := h.sameRule.trans hs₂.toSameRule
  pending := hs₂.pending.trans h.pending
  running := hs₂.finished.trans h.running
  ending := hs₂.ending.trans h.ending
  ready := hready
  onward w _ hle := hlt.trans_le hle
  close w hw hwt hvw := by
    have := (Value.lt_iff_instant hv hw (hkind.trans hwt.symm)).mp hvw
    omega

/-- The first instance that is not before the start is judged. -/
theorem Starting.judge (hS : S.Fits s) (h : S.Starting s k s₁ R₁) (hs₂ : s₁.Draws s₂)
    (hready : S.Ready s₂ (v < ·)) (hv : v.IsReal) (hkind : v.hasTime = s.hasTime)
    (hlt : ¬ v < s.start) (hleast : S.Astray s₂.source ∨ IsLeast {w | S.Member w ∧ R₁ w} v) :
    S.Started s (s₂.judge v (v.inUtc s.zone)).2 := by
  have hrule := h.sameRule.trans hs₂.toSameRule
  obtain ⟨F, htracks, hsame, -⟩ := hready.judge (R := fun w => s.start ≤ w)
    (hS.of_sameRule hrule) (hs₂.pending.trans h.pending) (hs₂.finished.trans h.running) hv
    (hkind.trans hrule.hasTime.symm) (fun _ _ _ hlt hle => hle.trans hlt.le)
    (hleast.imp_right fun hleast => ⟨⟨hleast.1.1, not_lt.mp hlt⟩, fun w hw => hleast.2
      ⟨hw.1, h.onward w (hS.lawful.member w hw.1).2 hw.2⟩⟩)
  rw [hrule.zone] at htracks hsame
  refine ⟨hrule.trans (Series.sameRule_judge _ _ _), F, htracks, ?_⟩
  rw [Series.judge_source]
  refine hsame.imp_right fun hsame u => (hsame u).trans ?_
  rw [hs₂.ending, h.ending]

/-- Where the source has no more, the series stops. -/
theorem Starting.stop (hS : S.Fits s) (h : S.Starting s k s₁ R₁) (hs₂ : s₁.Draws s₂)
    (hover : S.Over s₂.source R₁) : S.Started s { s₂ with finished := true } := by
  have hrule := h.sameRule.trans hs₂.toSameRule
  refine ⟨hrule.trans ⟨rfl, rfl, rfl⟩, _, ⟨fun w => R₁ w ∧ s.start ≤ w,
    tracksFrom_left (hs₂.pending.trans h.pending) (fun hf => absurd hf (by simp))
      fun _ => .inl (hS.lawful.over_from _ _ hover)⟩, .inr fun u => ?_⟩
  rw [hs₂.ending, h.ending, hrule.zone]
  constructor
  · rintro ⟨w, hw, ⟨-, hle⟩, hadm, rfl⟩
    exact ⟨w, hw, hle, hadm, rfl⟩
  · rintro ⟨w, hw, hle, hadm, rfl⟩
    exact ⟨w, hw, ⟨h.onward w (hS.lawful.member w hw).2 hle, hle⟩, hadm, rfl⟩

/-- **A turn** drops an instance before the start, or the series has started. -/
theorem Starting.turn (hS : S.Fits s) (hstart : s.start.IsReal) (h : S.Starting s k s₁ R₁) :
    Progresses (fun n s₁ => Series.startTurn n (s.start.inUtc s.zone) s₁)
      (fun k s₁ => ∃ R₁, S.Starting s k s₁ R₁)
      (fun answer => answer.1 = .ok () ∧ S.Started s answer.2) k s₁ := by
  obtain ⟨s₂, hs₂, -, hgen⟩ := h.ready.generate (hS.of_sameRule h.sameRule)
  rcases hgen with ⟨v, ⟨hv, hkind, hR⟩, hsettles, hready, hleast⟩ | ⟨hsettles, hover⟩
  · have hkind : v.hasTime = s.start.hasTime := hkind.trans h.sameRule.hasTime
    rw [h.sameRule.zone] at hsettles
    -- in a steady zone the order of UTC values is that of the clock
    have hutc : v.inUtc s.zone < s.start.inUtc s.zone ↔ v < s.start :=
      Value.inUtc_lt_iff (hS.steady_of hkind) hv hstart hkind
    by_cases hlt : v < s.start
    · have hinstant := (Value.lt_iff_instant hv hstart hkind).mp hlt
      have hclose := h.close v hv hkind hR
      exact .inr ⟨s₂, (s.start.instant - v.instant).toNat,
        Series.settles_startTurn_of_lt hsettles (hutc.mpr hlt), by omega, _,
        h.drop hs₂ hready hv hkind hlt⟩
    · exact .inl ⟨_, Series.settles_startTurn_of_not_lt hsettles (mt hutc.mp hlt), rfl,
        h.judge hS hs₂ hready hv hkind hlt hleast⟩
  · exact .inl ⟨_, Series.settles_startTurn_of_none hsettles, rfl, h.stop hS hs₂ hover⟩

/-- **Dropping the instances before the start** leaves the members from the start on. -/
theorem Ready.start (hS : S.Fits s) (hpending : s.pending = none) (hfinished : s.finished = false)
    (hstart : s.start.IsReal) (h : S.Ready s R)
    (hfrom : ∀ w, w.hasTime = s.hasTime → s.start ≤ w → R w) :
    ∃ s' F, Settles (fun n => loop (Series.startTurn n (s.start.inUtc s.zone)) n s) (.ok (), s') ∧
      s.SameRule s' ∧ S.Tracks s' F ∧
      (S.Astray s'.source ∨ ∀ u, F u ↔ S.Left s.ending s.zone (s.start ≤ ·) u) := by
  obtain ⟨m, hlow⟩ := h.low
  have hstarting : S.Starting s (s.start.instant - m + 1).toNat s R := by
    refine ⟨.refl s, hpending, hfinished, rfl, h, hfrom, fun w hw hkind hR => ?_⟩
    have := hlow w hw hkind hR
    omega
  -- every instance that is dropped lies closer to the start than the one before
  obtain ⟨⟨a, s'⟩, hsettles, rfl, hrule, F, htracks, hsame⟩ :=
    loop_settles (Series.patient_startTurn _) (fun k s₁ => ∃ R₁, S.Starting s k s₁ R₁)
      _ (fun _ _ ⟨_, h₁⟩ => h₁.turn hS hstart) ⟨R, hstarting⟩
  exact ⟨s', F, hsettles, hrule, htracks, hsame⟩

end Supply

/-! ### Creating a series -/

namespace Series

variable {r : Rule} {start startUtc : Value} {zone : Zone} {c c' : Candidates} {s : Series}

/-- Where the years give up at once, a new series has stopped. -/
theorem ofCandidates_of_halt
    (hrun : Settles (fun n => c.run n (c.chain.length - 1) 0) (.halt, c')) (r : Rule)
    (start : Value) (zone : Zone) : Settles (fun n => ofCandidates n r start zone c)
      (.ok { unstarted r start zone c' with finished := true }) := by
  filter_upwards [hrun] with n hn
  simp only [ofCandidates, hn]

/-- A new series whose chain has been filled drops the instances before its start. -/
theorem ofCandidates_of_value
    (hrun : Settles (fun n => c.run n (c.chain.length - 1) 0) (.value, c'))
    (hutc : start.toUtc zone = .ok startUtc)
    (hloop : Settles (fun n => loop (startTurn n startUtc) n (unstarted r start zone c')) (.ok (), s)) :
    Settles (fun n => ofCandidates n r start zone c) (.ok s) := by
  filter_upwards [hrun, hloop] with n hn hn'
  simp only [ofCandidates, hn, hutc, hn']

end Series

namespace Rule

variable {r : Rule} {start : Value} {zone : Zone} {budget : Int} {c : Candidates}

theorem Admits.not_subDaily_date (h : r.Admits start) :
    (!start.hasTime && r.freq.isSubDaily) = false := by
  cases hs : r.freq.isSubDaily with
  | false => exact Bool.and_false _
  | true => simp [h.timed hs]

/-- Where the steps of a rule cannot meet its listed times, a new series has stopped. -/
theorem create_of_not_reaches (h : r.Admits start) (zone : Zone) (budget : Int)
    (hreach : r.reaches start = false) : Settles (fun n => Series.create n r start zone budget)
      (.ok { Series.unstarted r start zone (r.candidates start budget) with finished := true }) := by
  have hplan : (!(r.plan start budget).reachable) = true := by
    show (!(r.reaches start)) = true
    rw [hreach, Bool.not_false]
  unfold Series.create
  simp only [h.not_subDaily_date, hplan, Bool.false_eq_true, if_false, if_true]
  exact settles_const _

theorem create_eq_ofCandidates (h : r.Admits start) (zone : Zone) (hreach : r.reaches start = true)
    (n : Nat) : Series.create n r start zone budget =
      Series.ofCandidates n r start zone (r.candidates start budget) := by
  have hplan : (!(r.plan start budget).reachable) = false := by
    show (!(r.reaches start)) = false
    rw [hreach, Bool.not_true]
  unfold Series.create
  simp only [h.not_subDaily_date, hplan, Bool.false_eq_true, if_false]

theorem create_of_halt (h : r.Admits start) (zone : Zone) (hreach : r.reaches start = true)
    (hrun : Settles (fun n => (r.candidates start budget).run n
      ((r.candidates start budget).chain.length - 1) 0) (.halt, c)) :
    Settles (fun n => Series.create n r start zone budget)
      (.ok { Series.unstarted r start zone c with finished := true }) := by
  simp only [create_eq_ofCandidates h zone hreach]
  exact Series.ofCandidates_of_halt hrun r start zone

theorem create_of_value (h : r.Admits start) (hreach : r.reaches start = true)
    (hrun : Settles (fun n => (r.candidates start budget).run n
      ((r.candidates start budget).chain.length - 1) 0) (.value, c))
    {startUtc : Value} (hutc : start.toUtc zone = .ok startUtc) {s : Series}
    (hloop : Settles (fun n => loop (Series.startTurn n startUtc) n (Series.unstarted r start zone c))
      (.ok (), s)) : Settles (fun n => Series.create n r start zone budget) (.ok s) := by
  simp only [create_eq_ofCandidates h zone hreach]
  exact Series.ofCandidates_of_value hrun hutc hloop

end Rule

namespace Supply

variable {S : Supply} {r : Rule} {start : Value} {zone : Zone} {budget : Int} {c : Candidates}

/-- How the first run sets the source of a rule up: it awaits its members from some value at or
before the start on, or it has none. -/
def SetsUp (S : Supply) (r : Rule) (start : Value) (c : Candidates) : Prop :=
  (∃ c' R m, Settles (fun n => c.run n (c.chain.length - 1) 0) (.value, c') ∧
      S.Awaits (Series.sourceOf r c') R ∧
      (∀ v w, v.hasTime = w.hasTime → v < w → R v → R w) ∧
      (∀ w, w.hasTime = start.hasTime → start ≤ w → R w) ∧
      ∀ w, w.IsReal → w.hasTime = start.hasTime → R w → m ≤ w.instant) ∨
    ∃ c', Settles (fun n => c.run n (c.chain.length - 1) 0) (.halt, c') ∧
      S.Over (Series.sourceOf r c') (start ≤ ·)

/-- How the source of a rule begins. -/
structure Begins (S : Supply) (r : Rule) (start : Value) (budget : Int) : Prop where
  lawful : S.Lawful r start
  unreachable : r.reaches start = false → ∀ w, S.Member w → ¬ start ≤ w
  run : S.SetsUp r start (r.candidates start budget)

/-- A series that has stopped at once tracks what it should if nothing is left, or never was. -/
theorem tracks_of_stopped (zone : Zone)
    (hc : S.Over (Series.sourceOf r c) (start ≤ ·) ∨ ∀ w, S.Member w → ¬ start ≤ w) :
    S.Tracks { Series.unstarted r start zone c with finished := true }
      (S.Left (.ofRule r) zone (start ≤ ·)) := by
  refine ⟨(start ≤ ·), tracksFrom_left rfl (fun hf => absurd hf (by simp)) fun _ => ?_⟩
  refine hc.imp_right fun hc => .inl ?_
  rintro u ⟨w, hw, hle, -⟩
  exact hc w hw hle

/-- **A series over new candidates** tracks the members from the start on that its ending admits.
Its zone is a steady one, or the series consists of dates. -/
theorem SetsUp.ofCandidates (h : S.SetsUp r start c) (hlawful : S.Lawful r start)
    (hreal : start.IsReal) (hz : start.hasTime = true → zone.Steady) :
    ∃ s F, Settles (fun n => Series.ofCandidates n r start zone c) (.ok s) ∧
      S.Fits s ∧ s.rule = r ∧ s.start = start ∧ s.zone = zone ∧ S.Tracks s F ∧
      (S.Astray s.source ∨ ∀ u, F u ↔ S.Left (.ofRule r) zone (start ≤ ·) u) := by
  have hfits : ∀ c, S.Fits (Series.unstarted r start zone c) := fun c => ⟨hlawful, hz⟩
  rcases h with ⟨c', R, m, hrun, hawaits, hup, hfrom, hlow⟩ | ⟨c', hrun, hover⟩
  · obtain ⟨s', F, hsettles, hrule, htracks, hsame⟩ := Ready.start
      (s := Series.unstarted r start zone c') (hfits c') rfl rfl hreal
      ⟨hawaits, hup, ⟨m, hlow⟩, fun k hk => absurd hk (by simp [Series.unstarted])⟩ hfrom
    exact ⟨s', F, Series.ofCandidates_of_value hrun (Value.toUtc_of_steady hz hreal).1 hsettles,
      (hfits c').of_sameRule hrule, hrule.rule, hrule.start, hrule.zone, htracks, hsame⟩
  · exact ⟨_, _, Series.ofCandidates_of_halt hrun r start zone,
      (hfits c').of_sameRule ⟨rfl, rfl, rfl⟩, rfl, rfl, rfl, tracks_of_stopped zone (.inl hover),
      .inr fun _ => Iff.rfl⟩

/-- **A new series** tracks the members from the start on that its ending admits.  Its zone is a
steady one, or the series consists of dates. -/
theorem Begins.create_of_kind (h : S.Begins r start budget) (hr : r.Admits start)
    (hz : start.hasTime = true → zone.Steady) :
    ∃ s F, Settles (fun n => Series.create n r start zone budget) (.ok s) ∧
      S.Fits s ∧ s.rule = r ∧ s.start = start ∧ s.zone = zone ∧ S.Tracks s F ∧
      (S.Astray s.source ∨ ∀ u, F u ↔ S.Left (.ofRule r) zone (start ≤ ·) u) := by
  by_cases hreach : r.reaches start = true
  · simp only [Rule.create_eq_ofCandidates hr zone hreach]
    exact h.run.ofCandidates h.lawful hr.real hz
  · have hreach : r.reaches start = false := by simpa using hreach
    exact ⟨_, _, Rule.create_of_not_reaches hr zone budget hreach, ⟨h.lawful, hz⟩, rfl, rfl, rfl,
      tracks_of_stopped zone (.inr (h.unreachable hreach)), .inr fun _ => Iff.rfl⟩

/-- In a steady zone every new series tracks the members from its start on. -/
theorem Begins.create (h : S.Begins r start budget) (hr : r.Admits start) (hz : zone.Steady) :
    ∃ s F, Settles (fun n => Series.create n r start zone budget) (.ok s) ∧
      S.Fits s ∧ s.rule = r ∧ s.start = start ∧ s.zone = zone ∧ S.Tracks s F ∧
      (S.Astray s.source ∨ ∀ u, F u ↔ S.Left (.ofRule r) zone (start ≤ ·) u) :=
  h.create_of_kind hr fun _ => hz

end Supply

end Recurrence
