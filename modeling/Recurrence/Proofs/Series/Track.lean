/-
Recurrence/Proofs/Series/Track.lean

What a series is going to hand out.

A series *tracks* a set of UTC values if the instance that it holds is the least of
them, the others are those that its source still has and its ending admits, and it
has not stopped without a reason.  Handing out an instance takes the least element
away from the set (`Supply.Tracks.next`).  So what a run hands out is a segment of the
set that was tracked before it (`Supply.Tracks.returns`).
-/
import Recurrence.Proofs.Calendar.Steady
import Recurrence.Proofs.Segment
import Recurrence.Proofs.Series.Source
import Recurrence.Proofs.Series.Steps

namespace Recurrence

/-! ### Endings -/

namespace Ending

/-- Whether an instance lies within the bound of an ending, if it has one.  What is left
of a count plays no part in this. -/
def Admits (e : Ending) (localValue utc : Value) : Prop :=
  ∀ last, e = .untilBound last → withinBound last localValue utc = true

variable {e : Ending} {v u : Value}

/-- Instances that pass lie within the bound, and the bound stays where it is. -/
theorem check_of_passes (h : (e.check v u).1 = true) :
    e.Admits v u ∧ ∀ w x, (e.check v u).2.Admits w x ↔ e.Admits w x := by
  cases e with
  | never => exact ⟨by rintro _ ⟨⟩, fun _ _ => Iff.rfl⟩
  | count m =>
    refine ⟨by rintro _ ⟨⟩, fun w x => ?_⟩
    constructor <;> rintro - _ ⟨⟩
  | untilBound last =>
    refine ⟨?_, fun _ _ => Iff.rfl⟩
    rintro _ ⟨⟩
    exact h

/-- Instances that do not pass lie beyond the bound, or the count is used up. -/
theorem check_of_refused (h : (e.check v u).1 = false) :
    (∀ w x, (e.check v u).2.Admits w x ↔ e.Admits w x) ∧
      (¬ e.Admits v u ∨ ∃ m, m < 0 ∧ (e.check v u).2 = .count m) := by
  cases e with
  | never => exact absurd h (by simp [check])
  | count m =>
    refine ⟨fun w x => ?_, .inr ⟨m - 1, ?_, rfl⟩⟩
    · constructor <;> rintro - _ ⟨⟩
    · simpa [check] using h
  | untilBound last =>
    refine ⟨fun _ _ => Iff.rfl, .inl fun hadmits => ?_⟩
    have : withinBound last v u = true := hadmits last rfl
    exact absurd (this.symm.trans h) (by simp)

/-- What comes before an instance within the bound lies within it too. -/
theorem Admits.anti {w x : Value} (h : e.Admits w x) (hvw : v.date.key ≤ w.date.key)
    (hkind : u.hasTime = x.hasTime) (hux : u ≤ x) : e.Admits v u := by
  rintro last rfl
  have hdate : u.date.key ≤ x.date.key := by
    have := take_le_take ((Value.le_iff_key hkind).mp hux) 3
    exact this
  have := h last rfl
  unfold withinBound at this ⊢
  rw [← hkind] at this
  split_ifs at this ⊢
  · simp only [Bool.not_eq_true', decide_eq_false_iff_not, not_lt] at this ⊢
    exact hvw.trans this
  · simp only [Bool.not_eq_true', decide_eq_false_iff_not, not_lt] at this ⊢
    exact ((Value.le_iff_key hkind).mp hux).trans this
  · simp only [Bool.not_eq_true', decide_eq_false_iff_not, not_lt] at this ⊢
    exact hdate.trans this

/-- The bound of a rule without a count is its end. -/
theorem of_not_admits {r : Rule} (h : ¬ (ofRule r).Admits v u) :
    ∃ last, r.untilBound = some last ∧ withinBound last v u = false := by
  unfold Admits at h
  push Not at h
  obtain ⟨last, hlast, hbeyond⟩ := h
  refine ⟨last, ?_, by simpa using hbeyond⟩
  unfold ofRule at hlast
  cases hc : r.count with
  | some m => simp [hc] at hlast
  | none =>
    cases hu : r.untilBound with
    | none => simp [hc, hu] at hlast
    | some b => simpa [hc, hu] using hlast

end Ending

theorem Value.date_key_le {v w : Value} (h : v.hasTime = w.hasTime) (hle : v ≤ w) :
    v.date.key ≤ w.date.key :=
  take_le_take ((Value.le_iff_key h).mp hle) 3

/-! ### Generating -/

namespace Supply

variable {S : Supply} {s s' : Series} {R : Value → Prop} {F : Value → Prop} {v : Value}

/-- The supply of a series tells the truth, and the zone of a series of date-times is a steady
one. -/
structure Fits (S : Supply) (s : Series) : Prop where
  lawful : S.Lawful s.rule s.start
  steady : s.hasTime = true → s.zone.Steady

theorem Fits.of_sameRule (h : S.Fits s) (hs : s.SameRule s') : S.Fits s' where
  lawful := by rw [hs.rule, hs.start]; exact h.lawful
  steady := by rw [hs.zone, hs.hasTime]; exact h.steady

/-- Values of the kind of the series have time of day only where its zone is a steady one. -/
theorem Fits.steady_of (h : S.Fits s) (hkind : v.hasTime = s.hasTime) :
    v.hasTime = true → s.zone.Steady := hkind ▸ h.steady

/-- The source of a series awaits the members with `R`.  What has `R` reaches up without a
gap, but not down without end, and it comes after the last instance. -/
structure Ready (S : Supply) (s : Series) (R : Value → Prop) : Prop where
  awaits : S.Awaits s.source R
  upward : ∀ v w, v.hasTime = w.hasTime → v < w → R v → R w
  low : ∃ m, ∀ w, w.IsReal → w.hasTime = s.hasTime → R w → m ≤ w.instant
  after : ∀ k ∈ s.lastKey, ∀ w, w.IsReal → w.hasTime = s.hasTime → R w → k < (w.inUtc s.zone).key

/-- **The next instance** is the next of the source, with its UTC value. -/
theorem Ready.generate (hS : S.Fits s) (h : S.Ready s R) :
    ∃ s', s.Draws s' ∧ (S.Astray s.source → S.Astray s'.source) ∧
      ((∃ v, (v.IsReal ∧ v.hasTime = s.hasTime ∧ R v) ∧
          Settles (fun n => s.generate n) (.ok (some (v, v.inUtc s.zone)), s') ∧
          S.Ready s' (v < ·) ∧ (S.Astray s'.source ∨ IsLeast {w | S.Member w ∧ R w} v)) ∨
        Settles (fun n => s.generate n) (.ok none, s') ∧ S.Over s'.source R) := by
  obtain ⟨answer, src', hnext, hastray, hgives⟩ := hS.lawful.next s.source R h.awaits
  rcases hgives with ⟨v, rfl, ⟨hreal, hkind, hR⟩, hawaits, hleast⟩ | ⟨rfl, hover⟩
  · refine ⟨{ s with source := src', lastKey := some (v.inUtc s.zone).key },
      ⟨⟨rfl, rfl, rfl⟩, rfl, rfl, rfl⟩, hastray, .inl ⟨v, ⟨hreal, hkind, hR⟩,
        (Series.settles_attempt_new hnext (Value.toUtc_of_steady (hS.steady_of hkind) hreal).1 fun k hk =>
          h.after k hk v hreal hkind hR).finish,
        ⟨hawaits, fun _ _ _ hlt hv => hv.trans hlt, ⟨v.instant, ?_⟩, ?_⟩, hleast⟩⟩
    · intro w hw hwt hlt
      exact ((Value.lt_iff_instant hreal hw (hkind.trans hwt.symm)).mp hlt).le
    · rintro _ ⟨⟩ w hw hwt hlt
      have hlt := (Value.inUtc_lt_iff (hS.steady_of hkind) hreal hw (hkind.trans hwt.symm)).mpr hlt
      refine (Value.lt_iff_key ?_).mp hlt
      rw [(Value.toUtc_of_steady (hS.steady_of hkind) hreal).2.2.1,
        (Value.toUtc_of_steady (hS.steady_of hwt) hw).2.2.1]
      exact hkind.trans hwt.symm
  · exact ⟨{ s with source := src' }, ⟨⟨rfl, rfl, rfl⟩, rfl, rfl, rfl⟩, hastray,
      .inr ⟨(Series.settles_attempt_none hnext).finish, hover⟩⟩

/-! ### Tracking -/

/-- A member with `R` whose UTC value is `u` and that an ending admits. -/
def Left (S : Supply) (e : Ending) (z : Zone) (R : Value → Prop) (u : Value) : Prop :=
  ∃ w, S.Member w ∧ R w ∧ e.Admits w (w.inUtc z) ∧ u = w.inUtc z

/-- Why a series hands out no more of what is left. -/
def Stopped (S : Supply) (s : Series) (R : Value → Prop) : Prop :=
  S.Over s.source R ∨ (∀ u, ¬ S.Left s.ending s.zone R u) ∨ ∃ m, m < 0 ∧ s.ending = .count m

/-- The members with `R` are left, and the instance that is held comes before them. -/
structure TracksFrom (S : Supply) (s : Series) (R : Value → Prop) (F : Value → Prop) : Prop where
  mem_iff : ∀ u, F u ↔ u ∈ s.pending ∨ S.Left s.ending s.zone R u
  before : ∀ p ∈ s.pending, ∀ w, w.IsReal → w.hasTime = s.hasTime → R w → p < w.inUtc s.zone
  ready : s.finished = false → S.Ready s R
  stopped : s.finished = true → S.Stopped s R

/-- A series is going to hand out the values of a set, unless it stops. -/
def Tracks (S : Supply) (s : Series) (F : Value → Prop) : Prop := ∃ R, S.TracksFrom s R F

/-- A held instance is the least value of the set. -/
theorem TracksFrom.isLeast (hS : S.Fits s) (h : S.TracksFrom s R F) {p : Value}
    (hp : p ∈ s.pending) : IsLeast {u | F u} p := by
  refine ⟨(h.mem_iff p).mpr (.inl hp), fun u hu => ?_⟩
  rcases (h.mem_iff u).mp hu with hu | ⟨w, hw, hR, -, rfl⟩
  · exact (Option.mem_unique hp hu).le
  · obtain ⟨hreal, hkind⟩ := hS.lawful.member w hw
    exact (h.before p hp w hreal hkind hR).le

/-- Where nothing is held, all that is tracked is still with the source. -/
theorem TracksFrom.left_iff (h : S.TracksFrom s R F) (hpending : s.pending = none) (u : Value) :
    F u ↔ S.Left s.ending s.zone R u := by
  rw [h.mem_iff, hpending]
  simp

/-- Where nothing is held, what is left is tracked. -/
theorem tracksFrom_left (hpending : s.pending = none) (hready : s.finished = false → S.Ready s R)
    (hstopped : s.finished = true → S.Stopped s R) :
    S.TracksFrom s R (S.Left s.ending s.zone R) where
  mem_iff u := by
    rw [hpending]
    simp
  before p hp := absurd (hpending.symm.trans hp) (by simp)
  ready := hready
  stopped := hstopped

theorem TracksFrom.congr {F' : Value → Prop} (h : S.TracksFrom s R F) (hF : ∀ u, F' u ↔ F u) :
    S.TracksFrom s R F' where
  mem_iff u := (hF u).trans (h.mem_iff u)
  before := h.before
  ready := h.ready
  stopped := h.stopped

/-- A member that is not tracked, although something after it is, is no longer awaited. -/
theorem TracksFrom.not_awaited (hS : S.Fits s) (h : S.TracksFrom s R F) (hpending : s.pending = none)
    {u : Value} (hu : F u) (hv : S.Member v) (hle : v.inUtc s.zone ≤ u)
    (hnot : ¬ F (v.inUtc s.zone)) : ¬ R v := by
  intro hR
  obtain ⟨w, hw, -, hadm, rfl⟩ := (h.left_iff hpending u).mp hu
  obtain ⟨hvr, hvt⟩ := hS.lawful.member v hv
  obtain ⟨hwr, hwt⟩ := hS.lawful.member w hw
  have hkind : v.hasTime = w.hasTime := hvt.trans hwt.symm
  have hvw : v ≤ w := by
    rwa [← not_lt, ← Value.inUtc_lt_iff (hS.steady_of hwt) hwr hvr hkind.symm, not_lt]
  refine hnot ((h.left_iff hpending _).mpr ⟨v, hv, hR, ?_, rfl⟩)
  refine hadm.anti (Value.date_key_le hkind hvw) ?_ hle
  rw [(Value.toUtc_of_steady (hS.steady_of hvt) hvr).2.2.1,
    (Value.toUtc_of_steady (hS.steady_of hwt) hwr).2.2.1]
  exact hkind

/-! ### Judging -/

theorem left_of_admits {e e' : Ending} (he : ∀ w x, e'.Admits w x ↔ e.Admits w x) (z : Zone)
    (u : Value) : S.Left e' z R u ↔ S.Left e z R u := by
  unfold Left
  simp only [he]

/-- An instance that passes is held, and what comes after it is left. -/
theorem Ready.hold (hS : S.Fits s) (hfinished : s.finished = false) (hv : v.IsReal)
    (hkind : v.hasTime = s.hasTime) (h : S.Ready s (v < ·))
    (hpass : (s.ending.check v (v.inUtc s.zone)).1 = true) :
    S.TracksFrom { s with
        ending := (s.ending.check v (v.inUtc s.zone)).2, pending := some (v.inUtc s.zone) } (v < ·)
      fun u => u = v.inUtc s.zone ∨ S.Left s.ending s.zone (v < ·) u where
  mem_iff u := by
    refine or_congr ?_ (left_of_admits (Ending.check_of_passes hpass).2 _ u).symm
    rw [Option.mem_some_iff]
    exact eq_comm
  before := by
    rintro _ ⟨⟩ w hw hwt hlt
    exact (Value.inUtc_lt_iff (hS.steady_of hkind) hv hw (hkind.trans hwt.symm)).mpr hlt
  ready _ := ⟨h.awaits, h.upward, h.low, h.after⟩
  stopped hf := absurd (hf.symm.trans hfinished) (by simp)

/-- The first of the members with `R` and those after it are all. -/
theorem left_cons (hS : S.Fits s) (hup : ∀ v w : Value, v.hasTime = w.hasTime → v < w → R v → R w)
    (hleast : IsLeast {w | S.Member w ∧ R w} v) (hadmits : s.ending.Admits v (v.inUtc s.zone))
    (u : Value) :
    S.Left s.ending s.zone R u ↔ u = v.inUtc s.zone ∨ S.Left s.ending s.zone (v < ·) u := by
  have hkind : ∀ w, S.Member w → v.hasTime = w.hasTime := fun w hw =>
    (hS.lawful.member v hleast.1.1).2.trans (hS.lawful.member w hw).2.symm
  constructor
  · rintro ⟨w, hw, hR, hadm, rfl⟩
    rcases (hleast.2 ⟨hw, hR⟩).lt_or_eq with hlt | rfl
    · exact .inr ⟨w, hw, hlt, hadm, rfl⟩
    · exact .inl rfl
  · rintro (rfl | ⟨w, hw, hlt, hadm, rfl⟩)
    · exact ⟨v, hleast.1.1, hleast.1.2, hadmits, rfl⟩
    · exact ⟨w, hw, hup v w (hkind w hw) hlt hleast.1.2, hadm, rfl⟩

/-- After an instance that does not pass nothing is left, or the count is used up. -/
theorem stopped_of_refused (hS : S.Fits s) (hleast : IsLeast {w | S.Member w ∧ R w} v)
    (hrefused : (s.ending.check v (v.inUtc s.zone)).1 = false) :
    S.Stopped { s with ending := (s.ending.check v (v.inUtc s.zone)).2, finished := true } R := by
  obtain ⟨hsame, hbeyond | hcount⟩ := Ending.check_of_refused hrefused
  · refine .inr (.inl fun u hu => hbeyond ?_)
    obtain ⟨w, hw, hR, hadm, -⟩ := (left_of_admits hsame _ u).mp hu
    obtain ⟨hv, hvt⟩ := hS.lawful.member v hleast.1.1
    obtain ⟨hwr, hwt⟩ := hS.lawful.member w hw
    have hkind : v.hasTime = w.hasTime := hvt.trans hwt.symm
    have hle : v ≤ w := hleast.2 ⟨hw, hR⟩
    refine hadm.anti (Value.date_key_le hkind hle) ?_ ?_
    · rw [(Value.toUtc_of_steady (hS.steady_of hvt) hv).2.2.1,
        (Value.toUtc_of_steady (hS.steady_of hwt) hwr).2.2.1]
      exact hkind
    · rw [← not_lt, Value.inUtc_lt_iff (hS.steady_of hwt) hwr hv hkind.symm]
      exact hle.not_gt
  · exact .inr (.inr hcount)

/-- **The ending judges** an instance: it is held, or the series stops. -/
theorem Ready.judge (hS : S.Fits s) (hpending : s.pending = none) (hfinished : s.finished = false)
    (hv : v.IsReal) (hkind : v.hasTime = s.hasTime)
    (hup : ∀ v w : Value, v.hasTime = w.hasTime → v < w → R v → R w) (h : S.Ready s (v < ·))
    (hleast : S.Astray s.source ∨ IsLeast {w | S.Member w ∧ R w} v) :
    ∃ F, S.Tracks (s.judge v (v.inUtc s.zone)).2 F ∧
      (S.Astray s.source ∨ ∀ u, F u ↔ S.Left s.ending s.zone R u) ∧
      ((s.judge v (v.inUtc s.zone)).1 = true ∧
          (s.judge v (v.inUtc s.zone)).2.pending = some (v.inUtc s.zone) ∨
        (s.judge v (v.inUtc s.zone)).1 = false ∧ (s.judge v (v.inUtc s.zone)).2.pending = none ∧
          (s.judge v (v.inUtc s.zone)).2.finished = true) := by
  unfold Series.judge
  dsimp only
  cases hcheck : (s.ending.check v (v.inUtc s.zone)).1 with
  | true =>
    rw [if_pos rfl]
    refine ⟨_, ⟨_, h.hold hS hfinished hv hkind hcheck⟩, hleast.imp_right fun hleast u => ?_,
      .inl ⟨rfl, rfl⟩⟩
    exact (left_cons hS hup hleast (Ending.check_of_passes hcheck).1 u).symm
  | false =>
    rw [if_neg (by simp)]
    have hsame := (Ending.check_of_refused hcheck).1
    rcases hleast with hastray | hleast
    · refine ⟨_, ⟨fun _ => False, tracksFrom_left hpending (fun hf => absurd hf (by simp))
        fun _ => .inr (.inl ?_)⟩, .inl hastray, .inr ⟨rfl, hpending, rfl⟩⟩
      rintro u ⟨w, -, hw, -⟩
      exact hw
    · refine ⟨_, ⟨R, tracksFrom_left hpending (fun hf => absurd hf (by simp))
        fun _ => stopped_of_refused hS hleast hcheck⟩, .inr fun u => left_of_admits hsame _ u,
        .inr ⟨rfl, hpending, rfl⟩⟩

/-! ### Stepping -/

/-- A series whose source has no more hands out no more. -/
theorem TracksFrom.over (h : S.TracksFrom s R F) (hs : s.Draws s') (hover : S.Over s'.source R)
    (hpending : s.pending = none) : S.TracksFrom { s' with finished := true } R F where
  mem_iff u := by
    rw [h.mem_iff, hs.pending, hs.ending, hs.zone]
  before p hp := absurd ((hs.pending.trans hpending).symm.trans hp) (by simp)
  ready hf := absurd hf (by simp)
  stopped _ := .inl hover

/-- **Looking for the next instance** takes nothing away from what is tracked. -/
theorem Tracks.hasNext (hS : S.Fits s) (h : S.Tracks s F) :
    ∃ s' F', Settles (fun n => s.hasNext n) (.ok s'.pending.isSome, s') ∧ s.SameRule s' ∧
      S.Tracks s' F' ∧ (S.Astray s.source → S.Astray s'.source) ∧
      (S.Astray s'.source ∨ ∀ u, F' u ↔ F u) ∧ (s'.pending = none → s'.finished = true) := by
  obtain ⟨R, h⟩ := h
  by_cases hlooks : s.pending = none ∧ s.finished = false
  · obtain ⟨hpending, hfinished⟩ := hlooks
    have hready := h.ready hfinished
    obtain ⟨s₁, hs₁, hastray, hgen⟩ := hready.generate hS
    have hnone := hs₁.pending.trans hpending
    -- an instance is held or refused by the ending, or the source is at its end
    rcases hgen with ⟨v, ⟨hreal, hkind, hR⟩, hsettles, hready', hleast⟩ | ⟨hsettles, hover⟩
    · obtain ⟨F', htracks, hsame, hjudged⟩ := hready'.judge (hS.of_sameRule hs₁.toSameRule)
        hnone (hs₁.finished.trans hfinished) hreal (hkind.trans hs₁.hasTime.symm)
        hready.upward hleast
      rw [hs₁.zone] at htracks hsame hjudged
      refine ⟨_, F', Series.settles_hasNext_of_generate hpending hfinished hsettles,
        hs₁.toSameRule.trans (Series.sameRule_judge _ _ _), htracks, ?_, ?_, ?_⟩
      · rw [Series.judge_source]
        exact hastray
      · rw [Series.judge_source]
        refine hsame.imp_right fun hsame u => (hsame u).trans ?_
        rw [h.mem_iff, hpending, hs₁.ending]
        simp
      · intro hnone
        rcases hjudged with ⟨-, hsome⟩ | ⟨-, -, hfin⟩
        · exact absurd (hnone.symm.trans hsome) (by simp)
        · exact hfin
    · have hlook := Series.settles_hasNext_of_none hpending hfinished hsettles
      exact ⟨{ s₁ with finished := true }, F, hlook, hs₁.toSameRule.trans ⟨rfl, rfl, rfl⟩,
        ⟨R, h.over hs₁ hover hpending⟩, hastray, .inr fun _ => Iff.rfl, fun _ => rfl⟩
  · have hheld : s.pending = none → s.finished = true := fun hnone => by simpa [hnone] using hlooks
    exact ⟨s, F, Series.settles_hasNext_of_held hheld, .refl s, ⟨R, h⟩, id, .inr fun _ => Iff.rfl,
      hheld⟩

/-- Handing out the instance that is held takes it away. -/
theorem TracksFrom.pop (hS : S.Fits s) (h : S.TracksFrom s R F) {p : Value}
    (hp : s.pending = some p) : S.TracksFrom { s with pending := none } R fun u => F u ∧ p < u where
  mem_iff u := by
    rw [h.mem_iff, hp]
    constructor
    · rintro ⟨hu | hu, hlt⟩
      · rw [Option.mem_some_iff] at hu
        exact absurd hlt (hu ▸ lt_irrefl _)
      · exact .inr hu
    · rintro (hu | hu)
      · exact absurd hu (by simp)
      · obtain ⟨w, hw, hR, -, rfl⟩ := id hu
        obtain ⟨hreal, hkind⟩ := hS.lawful.member w hw
        exact ⟨.inr hu, h.before p hp w hreal hkind hR⟩
  before _ hq := absurd hq (by simp)
  ready hf := ⟨(h.ready hf).awaits, (h.ready hf).upward, (h.ready hf).low, (h.ready hf).after⟩
  stopped hf := h.stopped hf

/-- **The next instance** is the least of the set that is tracked, and what comes after
it is tracked from then on. -/
theorem Tracks.next (hS : S.Fits s) (h : S.Tracks s F) :
    ∃ a s' F', Settles (fun n => s.next n) (a, s') ∧ s.SameRule s' ∧ S.Tracks s' F' ∧
      (S.Astray s.source → S.Astray s'.source) ∧
      ((∃ v, a = .ok v ∧
          (S.Astray s'.source ∨ IsLeast {u | F u} v ∧ ∀ u, F' u ↔ F u ∧ v < u)) ∨
        a = .error (.noMoreInstances (some s.rule.text)) ∧ s'.pending = none ∧
          s'.finished = true ∧ (S.Astray s'.source ∨ ∀ u, F' u ↔ F u)) := by
  obtain ⟨s₁, F₁, hsettles, hrule, ⟨R, htracks⟩, hastray, hsame, hfinished⟩ := h.hasNext hS
  cases hp : s₁.pending with
  | none =>
    refine ⟨_, s₁, F₁, ?_, hrule, ⟨R, htracks⟩, hastray, .inr ⟨rfl, hp, hfinished hp, hsame⟩⟩
    filter_upwards [hsettles] with n hn
    simp only [Series.next, hn, hp, hrule.rule]
  | some v =>
    have hS₁ := hS.of_sameRule hrule
    refine ⟨.ok v, { s₁ with pending := none }, _, ?_, hrule.trans ⟨rfl, rfl, rfl⟩,
      ⟨R, htracks.pop hS₁ hp⟩, hastray, .inl ⟨v, rfl, hsame.imp_right fun hsame => ⟨?_, ?_⟩⟩⟩
    · filter_upwards [hsettles] with n hn
      simp only [Series.next, hn, hp]
    · have hleast := htracks.isLeast hS₁ hp
      exact ⟨(hsame v).mp hleast.1, fun u hu => hleast.2 ((hsame u).mpr hu)⟩
    · intro u
      rw [hsame]

/-- A series that tracks a set never fails to answer. -/
theorem Tracks.proceeds (hS : S.Fits s) (h : S.Tracks s F) : s.Proceeds := by
  obtain ⟨a, s', F', hsettles, -, -, -, ⟨v, rfl, -⟩ | ⟨rfl, -⟩⟩ := h.next hS
  · exact .inl ⟨v, s', hsettles⟩
  · obtain ⟨n, hn⟩ := hsettles.exists_bound
    exact .inr ⟨s', n, hn⟩

/-! ### Runs -/

variable {vs : List Value}

/-- **What a run returns** is a segment of the set that was tracked, and what is left of
the set is tracked after it. -/
theorem Tracks.returns (hS : S.Fits s) (h : S.Tracks s F) (hrun : s.Returns vs s') :
    s.SameRule s' ∧ (S.Astray s.source → S.Astray s'.source) ∧ ∃ F', S.Tracks s' F' ∧
      (S.Astray s'.source ∨ Segment F vs ∧ ∀ u, F' u ↔ F u ∧ ∀ v ∈ vs, v < u) := by
  induction hrun generalizing F with
  | nil s => exact ⟨.refl s, id, F, h, .inr ⟨Segment.nil, by simp⟩⟩
  | @cons s s₁ s₂ v vs bound head tail ih =>
    obtain ⟨a, s', F₁, hsettles, hrule, htracks, hastray, hout⟩ := h.next hS
    obtain ⟨ha, hs⟩ := Prod.mk.inj (Patient.eq_of_settles s.patient_next hsettles head)
    subst ha hs
    obtain ⟨hrule', hastray', F₂, htracks', hsegment⟩ := ih (hS.of_sameRule hrule) htracks
    refine ⟨hrule.trans hrule', hastray' ∘ hastray, F₂, htracks', ?_⟩
    rcases hout with ⟨w, hw, hout⟩ | ⟨habsurd, -⟩
    · obtain rfl := Except.ok.inj hw
      rcases hout with hout | ⟨hleast, hF₁⟩
      · exact .inl (hastray' hout)
      · refine hsegment.imp_right fun ⟨hsegment, hF₂⟩ => ⟨?_, fun u => ?_⟩
        · exact Segment.cons hleast (hsegment.congr fun u => (hF₁ u).symm)
        · rw [hF₂, hF₁, List.forall_mem_cons, and_assoc]
    · exact absurd habsurd (by simp)

/-- **A run that has ended** has stopped for a reason. -/
theorem Tracks.ends (hS : S.Fits s) (h : S.Tracks s F) (hend : s.Ends s') :
    s.SameRule s' ∧ (S.Astray s.source → S.Astray s'.source) ∧ ∃ F' R, S.TracksFrom s' R F' ∧
      s'.pending = none ∧ S.Stopped s' R ∧ (S.Astray s'.source ∨ ∀ u, F' u ↔ F u) := by
  obtain ⟨bound, hend⟩ := hend
  obtain ⟨a, s₁, F₁, hsettles, hrule, ⟨R, htracks⟩, hastray, hout⟩ := h.next hS
  obtain ⟨ha, hs⟩ := Prod.mk.inj (Patient.eq_of_settles s.patient_next hsettles hend)
  subst ha hs
  rcases hout with ⟨v, hv, -⟩ | ⟨-, hpending, hfinished, hsame⟩
  · exact absurd hv (by simp)
  · exact ⟨hrule, hastray, F₁, R, htracks, hpending, htracks.stopped hfinished, hsame⟩

/-- **A run that has ended** has returned all that was tracked, unless its source went astray or
its count is used up. -/
theorem Tracks.all_returned_or (hS : S.Fits s) (h : S.Tracks s F) (hrun : s.Returns vs s')
    {s'' : Series} (hend : s'.Ends s'') (hstraight : ¬ S.Astray s''.source)
    (hover : ∀ R u, S.Over s''.source R → ¬ S.Left s''.ending s''.zone R u) :
    (∀ u, F u → u ∈ vs) ∨ s''.pending = none ∧ ∃ m, m < 0 ∧ s''.ending = .count m := by
  obtain ⟨hrule, -, F', htracks, hsegment⟩ := h.returns hS hrun
  obtain ⟨-, hastray, F'', R, htracks', hpending, hstopped, hsame⟩ :=
    htracks.ends (hS.of_sameRule hrule) hend
  obtain ⟨hsegment, hF'⟩ := hsegment.resolve_left fun h => hstraight (hastray h)
  -- what is not among the returned values would still be left
  have hall : (∀ u, ¬ S.Left s''.ending s''.zone R u) → ∀ u, F u → u ∈ vs := by
    intro hempty u hu
    have hnot := hempty u
    rw [← htracks'.left_iff hpending, hsame.resolve_left hstraight, hF', not_and] at hnot
    obtain ⟨v, hv, hle⟩ : ∃ v ∈ vs, u ≤ v := by simpa using hnot hu
    exact hsegment.closed v hv u hu hle
  rcases hstopped with hdone | hempty | hcount
  · exact .inl (hall fun u => hover R u hdone)
  · exact .inl (hall hempty)
  · exact .inr ⟨hpending, hcount⟩

/-- A run that has ended for no other reason has returned all that was tracked. -/
theorem Tracks.all_returned (hS : S.Fits s) (h : S.Tracks s F) (hrun : s.Returns vs s') {s'' : Series}
    (hend : s'.Ends s'') (hstraight : ¬ S.Astray s''.source)
    (hover : ∀ R u, S.Over s''.source R → ¬ S.Left s''.ending s''.zone R u)
    (hcount : ∀ m, s''.ending ≠ .count m) {u : Value} (hu : F u) : u ∈ vs := by
  rcases h.all_returned_or hS hrun hend hstraight hover with hall | ⟨-, m, -, hused⟩
  · exact hall u hu
  · exact absurd hused (hcount m)

end Supply

end Recurrence
