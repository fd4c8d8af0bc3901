/-
Recurrence/Proofs/Series/Credit.lean

How far the budget of a chain reaches.

Without positions every candidate is an instance, and each of them fills the budget of idle years
up.  So stepping in UTC returns one member after another, as long as each lies within the years
for which the budget lasts from the one before it on (`Course.Rests.canReturn_iff`).  Wherever
calls have led a series, its chain stands in the year of its last instance with a full budget
(`Rule.rests_of_reachable`).  Only between passing over months and the next instance was the
budget last full in another year (`Course.Rests.passOver`).
-/
import Mathlib.Data.List.Chain
import Recurrence.Proofs.Completeness
import Recurrence.Proofs.Series.Instances

namespace Recurrence

variable {K : Course} {base : Int} {R : Value → Prop} {s s' : Series} {v target : Value}
  {vs : List Value} {n : Nat}

namespace Course

/-- A series in UTC whose chain awaits the values with `R`, which all come after its last instance.
The budget was last full in the year `base`. -/
structure Fed (K : Course) (base : Int) (R : Value → Prop) (s : Series) : Prop where
  zone : s.zone = .utc
  source : ∃ c, s.source = .plain c ∧ K.Awaits base c R
  after : ∀ k ∈ s.lastKey, ∀ w, K.Member w → R w → k < w.key

/-- The chain of a series stands in the year of an instance with a full budget, and awaits what
comes after that instance. -/
structure Rests (K : Course) (v : Value) (s : Series) : Prop
    extends K.Fed v.date.year (v < ·) s where
  year : ∀ c, s.source = .plain c → c.fields.year = v.date.year

theorem Rests.congr (h : K.Rests v s) (hzone : s'.zone = s.zone) (hsource : s'.source = s.source)
    (hlast : s'.lastKey = s.lastKey) : K.Rests v s' where
  zone := hzone.trans h.zone
  source := hsource ▸ h.source
  after := hlast ▸ h.after
  year := hsource ▸ h.year

/-! ### The next instance -/

/-- **Generating** comes to the first member that is awaited, if the budget lasts that long. -/
theorem Fed.generate (hK : K.Begins) (hcredited : K.credited.isSome = true) (h : K.Fed base R s) :
    (∃ v s', Settles (fun n => s.generate n) (.ok (some (v, v)), s') ∧
        IsLeast {w | K.Member w ∧ R w} v ∧ K.Lasts base v ∧ K.Rests v s') ∨
      ∃ s', Settles (fun n => s.generate n) (.ok none, s') ∧
        K.Exhausted base fun w => K.Member w ∧ R w := by
  obtain ⟨c, hsource, hawaits⟩ := h.source
  obtain ⟨⟨answer, c'⟩, hnext, hout⟩ := hawaits.next hK
  have hsrc : Settles (fun n => s.source.next s.rule n) (answer, .plain c') := by
    rw [hsource]
    exact hnext.map fun a => (a.1, InstanceSource.plain a.2)
  rcases hout with ⟨v, rfl, hleast, hyear, hlasts, hawaits'⟩ | ⟨rfl, -, hex⟩
  · rw [baseAfter, if_pos hcredited] at hawaits'
    have hutc : v.toUtc s.zone = .ok v := by rw [h.zone]; rfl
    refine .inl ⟨v, { s with source := .plain c', lastKey := some v.key },
      (Series.settles_attempt_new hsrc hutc fun k hk =>
        h.after k hk v hleast.1.1 hleast.1.2).finish,
      hleast, hlasts, ⟨h.zone, ⟨c', rfl, hawaits'⟩, ?_⟩, ?_⟩
    · rintro _ ⟨⟩ w hw hlt
      exact (Value.lt_iff_key (hleast.1.1.1.hasTime.trans hw.1.hasTime.symm)).mp hlt
    · rintro _ ⟨⟩
      exact hyear
  · exact .inr ⟨_, (Series.settles_attempt_none hsrc).finish, hex⟩

/-- Whether an instance can be the next one: it is the first member that is awaited, the budget
that was full in the year `base` lasts that long, and an ending lets it pass. -/
def Due (K : Course) (e : Ending) (base : Int) (R : Value → Prop) (v : Value) : Prop :=
  IsLeast {w | K.Member w ∧ R w} v ∧ K.Lasts base v ∧ e.passes (v, v) = true

/-- Whether an instance is the next one behind another. -/
def LeadsTo (K : Course) (e : Ending) (v w : Value) : Prop := K.Due e v.date.year (v < ·) w

/-- An instance that is due is returned. -/
theorem Fed.exists_rests (hK : K.Begins) (hcredited : K.credited.isSome = true)
    (hbudget : 1 ≤ K.blueprint.years.budget) (h : K.Fed base R s) (hopen : s.Open)
    (hdue : K.Due s.ending base R v) : ∃ s', K.Rests v s' ∧ s'.Open ∧ s'.ending = s.ending ∧
      ∀ vs, s.CanReturn (v :: vs) ↔ s'.CanReturn vs := by
  obtain ⟨hleast, hlasts, hpass⟩ := hdue
  rcases h.generate hK hcredited with ⟨u, s', hg, hleast', -, hrests⟩ | ⟨s', -, hex⟩
  · obtain rfl := hleast.unique hleast'
    obtain ⟨n, hn⟩ := hg.exists_bound
    have hdraws := Series.draws_of_generate hn
    refine ⟨s', hrests, hopen.draws hdraws, hdraws.ending, fun vs => ?_⟩
    rw [hopen.canReturn_cons_iff hn]
    exact and_iff_right ⟨rfl, hpass⟩
  · exact absurd hlasts (hex.not_lasts hK hbudget hleast.1.1.1 hleast.1)

/-- What is returned first was due. -/
theorem Fed.due (hK : K.Begins) (hcredited : K.credited.isSome = true) (h : K.Fed base R s)
    (hopen : s.Open) (hvs : s.CanReturn (v :: vs)) : K.Due s.ending base R v := by
  rcases h.generate hK hcredited with ⟨u, s', hg, hleast, hlasts, -⟩ | ⟨s', hg, -⟩
  · obtain ⟨n, hn⟩ := hg.exists_bound
    obtain ⟨⟨rfl, hpass⟩, -⟩ := (hopen.canReturn_cons_iff hn).mp hvs
    exact ⟨hleast, hlasts, hpass⟩
  · obtain ⟨n, hn⟩ := hg.exists_bound
    exact absurd hvs (hopen.not_canReturn_cons hn)

/-- **Stepping returns** the instance that is due, and from there on one after another that follows
the one before it. -/
theorem Fed.canReturn_cons_iff (hK : K.Begins) (hcredited : K.credited.isSome = true)
    (hbudget : 1 ≤ K.blueprint.years.budget) (h : K.Fed base R s) (hopen : s.Open) :
    s.CanReturn (v :: vs) ↔
      K.Due s.ending base R v ∧ (v :: vs).IsChain (K.LeadsTo s.ending) := by
  induction vs generalizing s base R v with
  | nil =>
    refine ⟨fun hvs => ⟨h.due hK hcredited hopen hvs, List.IsChain.singleton v⟩, fun ⟨hdue, _⟩ => ?_⟩
    obtain ⟨s', -, -, -, hiff⟩ := h.exists_rests hK hcredited hbudget hopen hdue
    exact (hiff []).mpr s'.canReturn_nil
  | cons w vs ih =>
    by_cases hdue : K.Due s.ending base R v
    · obtain ⟨s', hrests, hopen', hending, hiff⟩ := h.exists_rests hK hcredited hbudget hopen hdue
      rw [hiff, ih hrests.toFed hopen', hending, List.isChain_cons_cons]
      exact (and_iff_right hdue).symm
    · exact iff_of_false (fun hvs => hdue (h.due hK hcredited hopen hvs)) fun hvs => hdue hvs.1

theorem Rests.canReturn_iff (hK : K.Begins) (hcredited : K.credited.isSome = true)
    (hbudget : 1 ≤ K.blueprint.years.budget) (h : K.Rests v s) (hopen : s.Open) :
    s.CanReturn vs ↔ (v :: vs).IsChain (K.LeadsTo s.ending) := by
  cases vs with
  | nil => exact iff_of_true s.canReturn_nil (List.IsChain.singleton v)
  | cons w vs =>
    rw [h.canReturn_cons_iff hK hcredited hbudget hopen, List.isChain_cons_cons]
    rfl

/-! ### Passing over months -/

/-- **Passing over months** leaves out what lies in a month before the target.  If years have been
passed over, the budget was last full in the one before the target's. -/
theorem Rests.passOver (hK : K.Begins) (h : K.Rests v s) (target : Value) : ∃ base c,
    (target.date.year ≤ v.date.year ∧ base = v.date.year ∨
      v.date.year < target.date.year ∧ K.Refilled target base) ∧
    (Settles (fun n => s.passOver n target) (.ok (), { s with source := .plain c }) ∧
        K.Fed base (fun w => v < w ∧ ¬ w.MonthBefore target) { s with source := .plain c } ∨
      Settles (fun n => s.passOver n target)
          (.ok (), { s with source := .plain c, finished := true }) ∧
        K.Exhausted base fun w => K.Builds w ∧ ¬ w.MonthBefore target) := by
  obtain ⟨c, hsource, hawaits⟩ := h.source
  have hlocal : target.fromUtc s.zone = .ok target := by rw [h.zone]; rfl
  obtain ⟨⟨step, c'⟩, hskip, hlands⟩ := hawaits.skipMonths hK target
  unfold Lands Resumes at hlands
  rw [h.year c hsource] at hlands
  rcases hlands with ⟨rfl, base, hbase, hawaits'⟩ | ⟨rfl, -, base, hbase, hex⟩
  · exact ⟨base, c', hbase, .inl ⟨Series.settles_passOver hsource hlocal hskip, h.zone,
      ⟨c', rfl, hawaits'⟩, fun k hk w hw hR => h.after k hk w hw hR.1⟩⟩
  · exact ⟨base, c', hbase, .inr ⟨Series.settles_passOver_of_halt hsource hlocal hskip, hex⟩⟩

/-! ### All states -/

/-- What generating comes to, under whatever bound. -/
theorem Fed.of_generate (hK : K.Begins) (hcredited : K.credited.isSome = true) (h : K.Fed base R s)
    {answer : Except SeriesError (Option (Value × Value))}
    (hg : s.generate n = some (answer, s')) :
    (∃ v, answer = .ok (some (v, v)) ∧ K.Rests v s') ∨ answer = .ok none := by
  rcases h.generate hK hcredited with ⟨v, s₁, hg', -, -, hrests⟩ | ⟨s₁, hg', -⟩ <;>
    obtain ⟨rfl, rfl⟩ := Prod.mk.inj (Patient.eq_of_settles (Series.patient_generate s) hg' hg)
  · exact .inl ⟨v, rfl, hrests⟩
  · exact .inr rfl

theorem Rests.judge (h : K.Rests v s) (w u : Value) : K.Rests v (s.judge w u).2 :=
  h.congr (Series.sameRule_judge s w u).zone (Series.judge_source s w u)
    (Series.judge_lastKey s w u)

/-- Looking for an instance leads to the next one, or ends the series. -/
theorem rests_of_hasNext (hK : K.Begins) (hcredited : K.credited.isSome = true)
    (h : s.finished = true ∨ ∃ base R, K.Fed base R s) (hpending : s.pending = none)
    {a : Except SeriesError Bool} (hn : s.hasNext n = some (a, s')) :
    s'.finished = true ∨ ∃ v, K.Rests v s' := by
  rcases Series.hasNext_cases hn with ⟨hstop, rfl⟩ | ⟨-, hfinished, answer, s₁, hg, hout⟩
  · exact .inl (hstop.resolve_left (by simp [hpending]))
  obtain ⟨base, R, h⟩ := h.resolve_left (by simp [hfinished])
  rcases hout with ⟨e, rfl, -⟩ | ⟨-, rfl⟩ | ⟨w, u, rfl, rfl⟩
  · exact absurd (h.of_generate hK hcredited hg) (by simp)
  · exact .inl rfl
  · obtain ⟨v, -, hrests⟩ := (h.of_generate hK hcredited hg).resolve_right (by simp)
    exact .inr ⟨v, hrests.judge w u⟩

/-- Looking for an instance where one may be held already. -/
theorem rests_of_look (hK : K.Begins) (hcredited : K.credited.isSome = true)
    (h : s.finished = true ∨ ∃ v, K.Rests v s) {a : Except SeriesError Bool}
    (hn : s.hasNext n = some (a, s')) : s'.finished = true ∨ ∃ v, K.Rests v s' := by
  cases hp : s.pending with
  | some p =>
    obtain ⟨-, rfl⟩ := (Series.hasNext_cases hn).resolve_right fun hnone => by simp [hp] at hnone
    exact h
  | none => exact rests_of_hasNext hK hcredited (h.imp_right fun ⟨v, h⟩ => ⟨_, _, h.toFed⟩) hp hn

/-- Dropping instances leads to the next one, or ends the series. -/
theorem rests_of_skip (hK : K.Begins) (hcredited : K.credited.isSome = true) (h : K.Fed base R s)
    (hpending : s.pending = none) (hfinished : s.finished = false) {a : Except SeriesError Unit}
    (hn : loop (Series.skipTurn n target) n s = some (a, s')) :
    s'.finished = true ∨ ∃ v, K.Rests v s' := by
  refine Series.skip_induction
    (P := fun s => s.pending = none ∧ (s.finished = true ∨ ∃ base R, K.Fed base R s))
    (Q := fun _ s' => s'.finished = true ∨ ∃ v, K.Rests v s') ?_ ?_ ?_
    ⟨hpending, .inr ⟨base, R, h⟩⟩ hpending hfinished hn
  · rintro s b s₁ u ⟨hpending, h⟩ hn - -
    refine ⟨rfl, (rests_of_hasNext hK hcredited h hpending hn).imp_right fun ⟨v, h₁⟩ => ?_⟩
    exact ⟨_, _, h₁.zone, h₁.source, h₁.after⟩
  · rintro s b s₁ ⟨hpending, h⟩ hn -
    exact rests_of_hasNext hK hcredited h hpending hn
  · rintro s e s₁ ⟨hpending, h⟩ hn
    exact rests_of_hasNext hK hcredited h hpending hn

/-- Dropping the instances before the start leads to the first one, or ends the series. -/
theorem rests_of_start (hK : K.Begins) (hcredited : K.credited.isSome = true) (h : K.Fed base R s)
    {startUtc : Value} (hn : loop (Series.startTurn n startUtc) n s = some (.ok (), s')) :
    s'.finished = true ∨ ∃ v, K.Rests v s' := by
  refine loop_invariant (P := fun s => ∃ base R, K.Fed base R s)
    (Q := fun b => b.1 = .ok () → b.2.finished = true ∨ ∃ v, K.Rests v b.2) ?_ ?_ ⟨base, R, h⟩ hn rfl
  · rintro s s' ⟨base, R, h⟩ ht
    obtain ⟨answer, s₁, hg, ⟨e, ht⟩ | ⟨-, ht⟩ | ⟨w, u, rfl, ⟨-, ht⟩ | ⟨-, ht⟩⟩⟩ :=
      Series.startTurn_cases ht <;> simp only [reduceCtorEq, Turn.again.injEq] at ht
    obtain ⟨v, -, hrests⟩ := (h.of_generate hK hcredited hg).resolve_right (by simp)
    exact ht ▸ ⟨_, _, hrests.toFed⟩
  · rintro s b ⟨base, R, h⟩ ht
    obtain ⟨answer, s₁, hg, ⟨e, ht⟩ | ⟨-, ht⟩ | ⟨w, u, rfl, ⟨-, ht⟩ | ⟨-, ht⟩⟩⟩ :=
      Series.startTurn_cases ht <;> simp only [reduceCtorEq, Turn.done.injEq] at ht <;> rw [ht]
    · simp
    · exact fun _ => .inl rfl
    · obtain ⟨v, -, hrests⟩ := (h.of_generate hK hcredited hg).resolve_right (by simp)
      exact fun _ => .inr ⟨v, hrests.judge w u⟩

/-- Moving ahead leads to the next instance, or ends the series. -/
theorem rests_of_advanceTo (hK : K.Begins) (hcredited : K.credited.isSome = true)
    (h : s.finished = true ∨ ∃ v, K.Rests v s) {a : Except SeriesError Unit}
    (hn : s.advanceTo n target = some (a, s')) : s'.finished = true ∨ ∃ v, K.Rests v s' := by
  rcases Series.advanceTo_cases hn with ⟨v, -, -, -, rfl⟩ | ⟨-, hn⟩
  · exact h
  rcases Series.skipTo_cases hn with ⟨hfinished, -, rfl⟩ | ⟨hfinished, hout⟩
  · exact .inl hfinished
  obtain ⟨v, h⟩ := h.resolve_left (by simp [show s.finished = false from hfinished])
  have h : K.Rests v { s with pending := none } := h.congr rfl rfl rfl
  rcases hout with ⟨-, hloop⟩ | ⟨-, b, s₁, hover, hout⟩
  · exact rests_of_skip hK hcredited h.toFed rfl hfinished hloop
  · obtain ⟨base, c, -, ⟨hover', hfed⟩ | ⟨hover', -⟩⟩ := h.passOver hK (s.roundTarget target) <;>
      obtain ⟨rfl, rfl⟩ :=
        Prod.mk.inj (Patient.eq_of_settles (Series.patient_passOver _ _) hover' hover)
    · rcases hout with ⟨e, he, -⟩ | ⟨-, ⟨hstop, -, rfl⟩ | ⟨-, hloop⟩⟩
      · exact absurd he (by simp)
      · exact .inl hstop
      · exact rests_of_skip hK hcredited hfed rfl hfinished hloop
    · rcases hout with ⟨e, he, -⟩ | ⟨-, ⟨-, -, rfl⟩ | ⟨hgoes, -⟩⟩
      · exact absurd he (by simp)
      · exact .inl rfl
      · exact absurd hgoes (by simp)

end Course

/-- **Wherever calls have led a series** of a rule without positions, its chain stands in the year
of its last instance with a full budget, unless the series has stopped. -/
theorem Rule.rests_of_reachable {r : Rule} {start : Value} {budget : Int} (hr : r.Valid)
    (hreal : start.IsReal) (hpos : r.bySetPos = []) (hbudget : 0 ≤ budget)
    (hs : Series.Reachable r start .utc budget s) :
    s.finished = true ∨ ∃ v, (r.course start budget).Rests v s := by
  have hadmits := hs.admits hr hreal
  have hK := begins_course hadmits hbudget
  have hcredited : (r.course start budget).credited.isSome = true :=
    Rule.isSome_credited_course hpos
  induction hs with
  | create h =>
    rcases Series.create_cases h with ⟨⟨c, rfl⟩, -⟩ | ⟨c, startUtc, hfills, -, hloop⟩
    · exact .inl rfl
    · obtain ⟨R, hstocked⟩ := (begins_chain hadmits hbudget hpos (Course.ties_free _ start)).stocked
        hfills .utc
      obtain ⟨c', base, hsource, hawaits, -⟩ := hstocked.awaits
      exact Course.rests_of_start hK hcredited ⟨rfl, ⟨c', hsource, hawaits⟩, by rintro k ⟨⟩⟩ hloop
  | hasNext _ h ih => exact Course.rests_of_look hK hcredited ih h
  | next _ h ih =>
    obtain ⟨b, s₁, hn, ⟨e, -, rfl⟩ | ⟨v, -, -, rfl⟩⟩ := Series.next_cases h
    · exact Course.rests_of_look hK hcredited ih hn
    · exact (Course.rests_of_look hK hcredited ih hn).imp_right fun ⟨v, h⟩ =>
        ⟨v, h.congr rfl rfl rfl⟩
  | advanceTo _ h ih => exact Course.rests_of_advanceTo hK hcredited ih h

end Recurrence
