/-
Recurrence/Proofs/Series/Guarded.lean

What guards the instances that a series may still return.

The instance that a series holds is the last that it has generated, and all that it will
generate comes after it in the order of keys.  So a property that the held instance has, and
that all values behind the last one have, is a property of everything that the series will
ever return (`Series.Guarded`).  No call loses such a property.  Returning an instance adds
that all others come after it (`Guarded.next`), and moving to a target adds that none is before
it (`Guarded.advanceTo`).  This holds in any zone, and whether an operation succeeds or not.
-/
import Recurrence.Proofs.Soundness

namespace Recurrence

namespace Series

variable {K : Course} {e : Ending} {P P' : Value → Prop} {s s' : Series} {n : Nat}
  {u v p target : Value}

/-- A member of a course whose UTC value is `u` and that an ending admits. -/
def Accounts (K : Course) (e : Ending) (zone : Zone) (u : Value) : Prop :=
  ∃ w, K.Member w ∧ w.toUtc zone = .ok u ∧ e.Admits w u

theorem Accounts.isReal (hK : K.Begins) {zone : Zone} (h : Accounts K e zone u) :
    u.IsReal ∧ u.hasTime = K.hasTime := by
  obtain ⟨w, hw, hutc, -⟩ := h
  obtain ⟨u', hutc', hreal, hkind, -⟩ := Value.toUtc_spec zone (hK.isReal hw.1)
  obtain rfl : u = u' := Except.ok.inj (hutc.symm.trans hutc')
  exact ⟨hreal, hkind.trans hw.1.hasTime⟩

/-- Whatever a series may still return has `P`: the instance that it holds, which is the last that
it has generated, and, unless it has stopped, all values behind the last one. -/
structure Guarded (K : Course) (e : Ending) (P : Value → Prop) (s : Series) : Prop where
  kind : K.hasTime = s.hasTime
  ending : ∀ w u, s.ending.Admits w u ↔ e.Admits w u
  held : ∀ p ∈ s.pending, s.lastKey = some p.key ∧ P p ∧ Accounts K e s.zone p
  source : s.finished = true ∨ s.source.Sound K ∧
    ∀ u : Value, u.IsReal → u.hasTime = s.hasTime → (∀ k ∈ s.lastKey, k < u.key) → P u

/-- A series that holds nothing and has stopped returns nothing, so nothing without `P`. -/
theorem Guarded.of_finished (h : s.Guarded K e P) (hpending : s.pending = none)
    (hfinished : s.finished = true) (P' : Value → Prop) : s.Guarded K e P' where
  kind := h.kind
  ending := h.ending
  held p hp := absurd (hpending.symm.trans hp) (by simp)
  source := .inl hfinished

/-- What the held instance has, and all that come after it, everything has that comes. -/
theorem Guarded.strengthen (h : s.Guarded K e P) (hp : s.pending = some p) (hP' : P' p)
    (hafter : ∀ u : Value, u.IsReal → u.hasTime = s.hasTime → p.key < u.key → P' u) :
    s.Guarded K e fun u => P u ∧ P' u where
  kind := h.kind
  ending := h.ending
  held q hq := by
    obtain ⟨hlast, hPq, haccounts⟩ := h.held q hq
    obtain rfl : p = q := Option.some.inj (hp.symm.trans hq)
    exact ⟨hlast, ⟨hPq, hP'⟩, haccounts⟩
  source := by
    obtain ⟨hlast, -⟩ := h.held p hp
    refine h.source.imp_right fun ⟨hsound, hlater⟩ => ⟨hsound, fun u hu hkind hbehind => ?_⟩
    exact ⟨hlater u hu hkind hbehind, hafter u hu hkind (hbehind _ hlast)⟩

/-! ### Looking and taking -/

/-- Taking the held instance away loses no property. -/
theorem Guarded.take (h : s.Guarded K e P) : { s with pending := none }.Guarded K e P where
  kind := h.kind
  ending := h.ending
  held p hp := absurd hp (by simp)
  source := h.source

/-- Once the held instance has been taken away, all that follow come after it. -/
theorem Guarded.pop (h : s.Guarded K e P) (hp : s.pending = some p) :
    { s with pending := none }.Guarded K e fun u => P u ∧ p.key < u.key where
  kind := h.kind
  ending := h.ending
  held q hq := absurd hq (by simp)
  source := by
    obtain ⟨hlast, -⟩ := h.held p hp
    refine h.source.imp_right fun ⟨hsound, hlater⟩ => ⟨hsound, fun u hu hkind hbehind => ?_⟩
    exact ⟨hlater u hu hkind hbehind, hbehind _ hlast⟩

/-- **An instance behind the last one** is guarded, whether it passes or not. -/
theorem guarded_judge (hkind : K.hasTime = s.hasTime)
    (hending : ∀ w u, s.ending.Admits w u ↔ e.Admits w u)
    (hpending : s.pending = none) (hlast : s.lastKey = some u.key) (hsound : s.source.Sound K)
    (hmember : K.Member v) (hutc : v.toUtc s.zone = .ok u) (hP : P u)
    (hafter : ∀ x : Value, x.IsReal → x.hasTime = s.hasTime → u.key < x.key → P x) :
    (s.judge v u).2.Guarded K e P := by
  have hlater : ∀ x : Value, x.IsReal → x.hasTime = s.hasTime → (∀ k ∈ s.lastKey, k < x.key) →
      P x := fun x hx hxt hbehind => hafter x hx hxt (hbehind _ hlast)
  rw [judge_eq]
  split_ifs with hpass
  · -- it passes and is held
    obtain ⟨hadmits, hsame⟩ := Ending.check_of_passes hpass
    refine ⟨hkind, fun w x => (hsame w x).trans (hending w x), ?_, .inr ⟨hsound, hlater⟩⟩
    rintro _ ⟨⟩
    exact ⟨hlast, hP, v, hmember, hutc, (hending v u).mp hadmits⟩
  · -- it is refused, and the series has stopped
    have hsame := (Ending.check_of_refused (by simpa using hpass)).1
    refine ⟨hkind, fun w x => (hsame w x).trans (hending w x), fun p hp => ?_, .inl rfl⟩
    exact absurd (hpending.symm.trans hp) (by simp)

/-- **Looking for an instance** loses no property. -/
theorem Guarded.hasNext (hK : K.Begins) (h : s.Guarded K e P) {a : Except SeriesError Bool}
    (hn : s.hasNext n = some (a, s')) : s'.Guarded K e P := by
  rcases hasNext_cases hn with ⟨-, rfl⟩ | ⟨hpending, hfinished, answer, s₁, hg, hout⟩
  · exact h
  have hdraws := draws_of_generate hg
  have hnone := hdraws.pending.trans hpending
  have hkind : K.hasTime = s₁.hasTime := h.kind.trans hdraws.hasTime.symm
  have hending : ∀ w u, s₁.ending.Admits w u ↔ e.Admits w u := by
    rw [hdraws.ending]
    exact h.ending
  obtain ⟨hsound, hlater⟩ := h.source.resolve_left (by simp [hfinished])
  rcases generate_sound hK hsound hg with ⟨v, u, rfl, hmember, hutc, hsound', hlast, hbehind⟩ | rfl
  · rcases hout with ⟨e, he, -⟩ | ⟨he, -⟩ | ⟨v', u', hv, rfl⟩
    · exact absurd he (by simp)
    · exact absurd he (by simp)
    · obtain ⟨rfl, rfl⟩ : v = v' ∧ u = u' := by simpa using hv
      have haccounts := Value.toUtc_spec s.zone (hK.isReal hmember.1)
      obtain ⟨u', hutc', hu, hut, -⟩ := haccounts
      obtain rfl : u = u' := Except.ok.inj (hutc.symm.trans hutc')
      have hut : u.hasTime = s.hasTime := hut.trans (hmember.1.hasTime.trans h.kind)
      refine guarded_judge hkind hending hnone hlast hsound' hmember (hdraws.zone ▸ hutc)
        (hlater u hu hut hbehind) fun x hx hxt hux => ?_
      exact hlater x hx (hxt.trans hdraws.hasTime) fun k hk => (hbehind k hk).trans hux
  · rcases hout with ⟨e, he, -⟩ | ⟨-, rfl⟩ | ⟨v, u, hv, -⟩
    · exact absurd he (by simp)
    · exact ⟨hkind, hending, fun p hp => absurd (hnone.symm.trans hp) (by simp), .inl rfl⟩
    · exact absurd hv (by simp)

/-- **Returning an instance**: it has the property, and all that follow come after it. -/
theorem Guarded.next (hK : K.Begins) (h : s.Guarded K e P) (hn : s.next n = some (.ok v, s')) :
    P v ∧ Accounts K e s.zone v ∧ s'.Guarded K e fun u => P u ∧ v.key < u.key := by
  obtain ⟨b, s₁, hlook, ⟨err, he, -⟩ | ⟨w, hw, hp, rfl⟩⟩ := next_cases hn
  · exact absurd he (by simp)
  · obtain rfl := Except.ok.inj hw
    have h₁ := h.hasNext hK hlook
    obtain ⟨-, hPv, haccounts⟩ := h₁.held v hp
    have hzone := (sameRule_of_hasNext hlook).zone
    exact ⟨hPv, hzone ▸ haccounts, h₁.pop hp⟩

/-- Asking for the next instance loses no property, whether there is one or not. -/
theorem Guarded.step (hK : K.Begins) (h : s.Guarded K e P) {a : Except SeriesError Value}
    (hn : s.next n = some (a, s')) : s'.Guarded K e P :=
  next_invariant (fun _ _ _ _ hs hn => hs.hasNext hK hn) (fun _ hs => hs.take) h hn

/-- **A run** returns instances with the property, one after the other. -/
theorem Guarded.returns (hK : K.Begins) (h : s.Guarded K e P) {vs : List Value}
    (hrun : s.Returns vs s') : vs.Pairwise (fun u v => u.key < v.key) ∧
      ∀ v ∈ vs, P v ∧ Accounts K e s.zone v := by
  induction hrun generalizing P with
  | nil s => exact ⟨.nil, by simp⟩
  | cons head _ ih =>
    obtain ⟨hP, haccounts, h'⟩ := h.next hK head
    obtain ⟨hascending, hall⟩ := ih h'
    rw [(sameRule_of_next head).zone] at hall
    exact ⟨List.pairwise_cons.mpr ⟨fun u hu => (hall u hu).1.2, hascending⟩, List.forall_mem_cons.mpr
      ⟨⟨hP, haccounts⟩, fun u hu => ⟨(hall u hu).1.1, (hall u hu).2⟩⟩⟩

/-! ### Moving ahead -/

theorem Guarded.passOver (hK : K.Begins) (h : s.Guarded K e P) (hfinished : s.finished = false)
    {a : Except SeriesError Unit} (hn : s.passOver n target = some (a, s')) :
    s'.Guarded K e P := by
  obtain ⟨hsound, hlater⟩ := h.source.resolve_left (by simp [hfinished])
  obtain ⟨hrule, hlast, hpending, hending⟩ := frame_of_passOver hn
  refine ⟨h.kind.trans hrule.hasTime.symm, hending ▸ h.ending, ?_, ?_⟩
  · rw [hpending, hlast, hrule.zone]
    exact h.held
  · rw [hlast, hrule.hasTime]
    exact (passOver_sound hK hsound hn).imp_right fun hsound' => ⟨hsound', hlater⟩

/-- An instance that is held and not before a target keeps all others from being before it. -/
theorem Guarded.reach (hK : K.Begins) (h : s.Guarded K e P) (hp : s.pending = some p)
    (hle : ¬ p < target) : s.Guarded K e fun u => P u ∧ ¬ u < target := by
  refine h.strengthen hp hle fun u _ hkind hlt hbefore => hle ?_
  have hpt := ((h.held p hp).2.2.isReal hK).2.trans h.kind
  exact ((Value.lt_iff_key (hpt.trans hkind.symm)).mpr hlt).trans hbefore

/-- **Skipping to a target** leaves nothing that is before it. -/
theorem Guarded.skip (hK : K.Begins) (h : s.Guarded K e P) (hpending : s.pending = none)
    (hfinished : s.finished = false) (hn : loop (skipTurn n target) n s = some (.ok (), s')) :
    s'.Guarded K e fun u => P u ∧ ¬ u < target := by
  refine skip_induction (P := fun s => s.Guarded K e P)
    (Q := fun a s' => a = .ok () → s'.Guarded K e fun u => P u ∧ ¬ u < target) ?_ ?_ ?_
    h hpending hfinished hn rfl
  · intro s b s₁ u hs hlook _ _
    exact (hs.hasNext hK hlook).take
  · -- either nothing comes any more, or the held instance keeps the others behind the target
    intro s b s₁ hs hlook hfound _
    have h₁ := hs.hasNext hK hlook
    cases hp : s₁.pending with
    | none => exact h₁.of_finished hp (finished_of_pending_none hlook hp) _
    | some u => exact h₁.reach hK hp (hfound u hp)
  · intro s e s₁ _ _ hok
    exact absurd hok (by simp)

theorem Guarded.skipTo (hK : K.Begins) (h : s.Guarded K e P) (hpending : s.pending = none)
    (hn : s.skipTo n target = some (.ok (), s')) :
    s'.Guarded K e fun u => P u ∧ ¬ u < target := by
  rcases skipTo_cases hn with ⟨hfinished, -, rfl⟩ | ⟨hfinished, ⟨-, hn⟩ | ⟨-, b, s₁, hover, hout⟩⟩
  · exact h.of_finished hpending hfinished _
  · exact h.skip hK hpending hfinished hn
  · have h₁ := h.passOver hK hfinished hover
    have hpending₁ := (frame_of_passOver hover).2.2.1.trans hpending
    rcases hout with ⟨e, -, he, -⟩ | ⟨-, ⟨hfinished₁, -, rfl⟩ | ⟨hfinished₁, hn⟩⟩
    · exact absurd he (by simp)
    · exact h₁.of_finished hpending₁ hfinished₁ _
    · exact h₁.skip hK hpending₁ hfinished₁ hn

/-- **Moving to a target** leaves nothing that is before it. -/
theorem Guarded.advanceTo (hK : K.Begins) (h : s.Guarded K e P)
    (hn : s.advanceTo n target = some (.ok (), s')) :
    s'.Guarded K e fun u => P u ∧ ¬ u < s.roundTarget target := by
  rcases advanceTo_cases hn with ⟨v, hp, hle, -, rfl⟩ | ⟨-, hn⟩
  · exact h.reach hK hp hle
  · exact h.take.skipTo hK rfl hn

/-! ### New series -/

/-- **A new series** returns nothing that is before its start in UTC. -/
theorem guarded_create {r : Rule} {start : Value} {zone : Zone} {budget : Int} {startUtc : Value}
    (h : r.Admits start) (hbudget : 0 ≤ budget) (hutc : start.toUtc zone = .ok startUtc)
    (hc : create n r start zone budget = some (.ok s)) :
    s.Guarded (r.course start budget) (.ofRule r) fun u => ¬ u < startUtc := by
  have hK := Rule.begins_course h hbudget
  have hkind : ∀ c, (r.course start budget).hasTime = (unstarted r start zone c).hasTime :=
    fun c => Rule.course_hasTime r start budget
  rcases create_cases hc with ⟨⟨c, rfl⟩, -⟩ | ⟨c, startUtc', ⟨-, hrun⟩, hutc', hloop⟩
  · exact ⟨hkind c, fun _ _ => Iff.rfl, fun v hv => absurd hv (by simp [unstarted]), .inl rfl⟩
  obtain rfl : startUtc = startUtc' := Except.ok.inj (hutc.symm.trans hutc')
  have hsource := sound_unstarted h hbudget zone hrun
  -- what is dropped before the start is never held
  refine loop_invariant (P := fun s => (unstarted r start zone c).Draws s ∧
      s.source.Sound (r.course start budget))
    (Q := fun b => b.1 = .ok () → b.2.Guarded (r.course start budget) (.ofRule r)
      fun u => ¬ u < startUtc) ?_ ?_ ⟨.refl _, hsource⟩ hloop rfl
  · rintro s₁ s₂ ⟨hdraws, hsound⟩ ht
    obtain ⟨answer, s₃, hg, ⟨err, h⟩ | ⟨-, h⟩ | ⟨v, u, ha, ⟨-, h⟩ | ⟨-, h⟩⟩⟩ := startTurn_cases ht <;>
      simp only [reduceCtorEq, Turn.again.injEq] at h
    obtain ⟨w, x, -, -, -, hsound', -⟩ := (generate_sound hK hsound hg).resolve_right (by simp [ha])
    rw [h]
    exact ⟨hdraws.trans (draws_of_generate hg), hsound'⟩
  · rintro s₁ b ⟨hdraws, hsound⟩ ht hb
    obtain ⟨answer, s₃, hg, ⟨err, h'⟩ | ⟨-, h'⟩ | ⟨v, u, ha, ⟨-, h'⟩ | ⟨hle, h'⟩⟩⟩ :=
      startTurn_cases ht <;> simp only [reduceCtorEq, Turn.done.injEq] at h' <;> subst h'
    · exact absurd hb (by simp)
    all_goals
      have hdraws' := hdraws.trans (draws_of_generate hg)
      have hending : ∀ w u, s₃.ending.Admits w u ↔ (Ending.ofRule r).Admits w u := by
        rw [hdraws'.ending]
        exact fun _ _ => Iff.rfl
      have hnone : s₃.pending = none := hdraws'.pending
      have hkind₃ : (r.course start budget).hasTime = s₃.hasTime := (hkind c).trans hdraws'.hasTime.symm
    · exact ⟨hkind₃, hending, fun p hp => absurd (hnone.symm.trans hp) (by simp), .inl rfl⟩
    · obtain ⟨w, x, hw, hmember, hwx, hsound', hlast, -⟩ :=
        (generate_sound hK hsound hg).resolve_right (by simp [ha])
      obtain ⟨rfl, rfl⟩ : v = w ∧ u = x := by simpa [ha] using hw
      refine guarded_judge hkind₃ hending hnone hlast hsound' hmember
        ((draws_of_generate hg).zone ▸ hwx) hle fun x _ hxt hux hbefore => hle ?_
      have hut : u.hasTime = x.hasTime := by
        obtain ⟨u', hutc', -, hut, -⟩ := Value.toUtc_spec s₁.zone (hK.isReal hmember.1)
        obtain rfl : u = u' := Except.ok.inj (hwx.symm.trans hutc')
        rw [hut, hmember.1.hasTime, hkind₃, hxt]
      exact ((Value.lt_iff_key hut).mpr hux).trans hbefore

/-- **No state** that calls lead to returns anything before the start in UTC. -/
theorem Reachable.guarded {r : Rule} {start : Value} {zone : Zone} {budget : Int} {startUtc : Value}
    (h : r.Admits start) (hbudget : 0 ≤ budget) (hutc : start.toUtc zone = .ok startUtc)
    (hs : Reachable r start zone budget s) :
    s.Guarded (r.course start budget) (.ofRule r) fun u => ¬ u < startUtc :=
  have hK := Rule.begins_course h hbudget
  hs.invariant (fun _ _ _ _ hs hn => hs.hasNext hK hn) (fun _ hs => hs.take)
    (fun _ _ _ _ _ hs _ hfinished hn => hs.passOver hK hfinished hn)
    fun _ _ hc => guarded_create h hbudget hutc hc

end Series

end Recurrence
