/-
Recurrence/Proofs/Soundness.lean

Whatever a series returns matches its rule.

Both kinds of sources hand out members of the rule's course alone: a chain because it
awaits nothing else, a selection because it chooses among them.  Members from the start
on are matches, and once a series has been created all its instances come from there.
No call changes that, so the theorem holds in every state (`expansion_sound`), also after
the years have given up.
-/
import Recurrence.Proofs.Calendar.Shifts
import Recurrence.Proofs.Series.Chain
import Recurrence.Proofs.Series.Skip
import Recurrence.Proofs.Series.States

namespace Recurrence

variable {r : Rule} {start : Value} {budget : Int} {K : Course} {n m : Nat}

/-! ### Chains -/

/-- A chain that awaits some values hands out a member, or nothing. -/
theorem Course.Awaits.of_next (hK : K.Begins) {base : Int} {c c' : Candidates} {R : Value → Prop}
    (h : K.Awaits base c R) {a : Except Undefined (Option Value)} (hn : c.next n = some (a, c')) :
    (∃ v, a = .ok (some v) ∧ K.Member v ∧ ∃ base' R', K.Awaits base' c' R') ∨ a = .ok none := by
  obtain ⟨answer, hsettles, hnext⟩ := h.next hK
  obtain rfl := Patient.eq_of_settles (Course.patient_nextCandidate c) hsettles hn
  rcases hnext with ⟨v, ha, hleast, -, -, hawaits⟩ | ⟨ha, -, -⟩
  · exact .inl ⟨v, ha, hleast.1.1, _, _, hawaits⟩
  · exact .inr ha

/-! ### Selections -/

/-- A selection that has gathered members alone, and has stopped or whose chain goes on. -/
structure Selection.Sound (K : Course) (s : Selection Candidates Value) : Prop where
  heldBack : ∀ v ∈ s.heldBack, K.Member v
  pending : ∀ v ∈ s.pending, K.Member v
  source : s.finished = true ∨ ∃ base R, K.Awaits base s.source R

namespace Selection

variable {s s' : Selection Candidates Value} {κ : Type} [DecidableEq κ] {key : Value → κ}

/-- The candidates of a period that is being gathered are members. -/
theorem sound_gather (hK : K.Begins) {k : κ} {g : Gathering Candidates Value}
    (hkept : ∀ v ∈ g.kept, K.Member v) (hsource : ∃ base R, K.Awaits base g.source R)
    {a : Except Undefined (Period Candidates Value)} {c : Candidates}
    (h : loop (gatherTurn (Candidates.next n) key k) m g = some (a, c)) :
    ∃ p, a = .ok p ∧ (∀ v ∈ p.candidates, K.Member v) ∧ (∀ v ∈ p.following, K.Member v) ∧
      (p.following = none ∨ ∃ base R, K.Awaits base p.source R) := by
  refine loop_invariant (P := fun g : Gathering Candidates Value =>
      (∀ v ∈ g.kept, K.Member v) ∧ ∃ base R, K.Awaits base g.source R)
    (Q := fun b => ∃ p, b.1 = .ok p ∧ (∀ v ∈ p.candidates, K.Member v) ∧
      (∀ v ∈ p.following, K.Member v) ∧
      (p.following = none ∨ ∃ base R, K.Awaits base p.source R)) ?_ ?_ ⟨hkept, hsource⟩ h
  · rintro g g' ⟨hkept, base, R, hawaits⟩ ht
    obtain ⟨answer, src, hn, ⟨e, -, h⟩ | ⟨-, h⟩ | ⟨v, rfl, ⟨-, h⟩ | ⟨-, kept, room, hk, h⟩⟩⟩ :=
      gatherTurn_cases ht <;> simp only [reduceCtorEq, Turn.again.injEq] at h
    subst h
    obtain ⟨w, hw, hv, hsource⟩ := (hawaits.of_next hK hn).resolve_right (by simp)
    obtain rfl : v = w := by simpa using hw
    refine ⟨?_, hsource⟩
    rcases hk with rfl | rfl
    · exact hkept
    · exact List.forall_mem_cons.mpr ⟨hv, hkept⟩
  · rintro g b ⟨hkept, base, R, hawaits⟩ ht
    have hkept' : ∀ w ∈ g.kept.reverse, K.Member w := fun w hw => hkept w (List.mem_reverse.mp hw)
    obtain ⟨answer, src, hn, ⟨e, ha, h⟩ | ⟨-, h⟩ | ⟨v, ha, ⟨-, h⟩ | ⟨-, kept, room, hk, h⟩⟩⟩ :=
      gatherTurn_cases ht <;> simp only [reduceCtorEq, Turn.done.injEq] at h <;> subst h
    · rcases hawaits.of_next hK hn with ⟨w, hw, -⟩ | hw <;> exact absurd (ha.symm.trans hw) (by simp)
    · exact ⟨_, rfl, hkept', by simp, .inl rfl⟩
    · obtain ⟨w, hw, hv, hsource⟩ := (hawaits.of_next hK hn).resolve_right (by simp [ha])
      obtain rfl : v = w := by simpa [ha] using hw
      exact ⟨_, rfl, hkept', by simpa using hv, .inr hsource⟩

/-- **A gathered period** consists of members, and the selection stays sound unless there was
no period left. -/
theorem sound_collect (hK : K.Begins) (h : s.Sound K) (hfinished : s.finished = false)
    {a : Except Undefined (List Value)} (hc : s.collect (Candidates.next n) key m = some (a, s')) :
    ∃ found, a = .ok found ∧ (∀ v ∈ found, K.Member v) ∧ s'.pending = s.pending ∧
      (∀ v ∈ s'.heldBack, K.Member v) ∧ (found = [] ∨ s'.Sound K) := by
  obtain ⟨base, R, hawaits⟩ := h.source.resolve_left (by simp [hfinished])
  obtain ⟨answer, src, hf, hout⟩ := collect_cases hc
  have hfirst : (∃ v, answer = .ok (some v) ∧ K.Member v ∧ ∃ base R, K.Awaits base src R) ∨
      answer = .ok none := by
    unfold first at hf
    cases hheld : s.heldBack with
    | none =>
      rw [hheld] at hf
      exact hawaits.of_next hK hf
    | some v =>
      rw [hheld] at hf
      obtain ⟨rfl, rfl⟩ := Prod.mk.inj (Option.some.inj hf)
      exact .inl ⟨v, rfl, h.heldBack v hheld, base, R, hawaits⟩
  rcases hout with ⟨e, he, -⟩ | ⟨-, rfl, rfl⟩ | ⟨v, room, b, src', ha, hloop, hout⟩
  · rcases hfirst with ⟨v, hv, -⟩ | hv <;> exact absurd (he.symm.trans hv) (by simp)
  · exact ⟨[], rfl, by simp, rfl, by simp, .inl rfl⟩
  · obtain ⟨w, hw, hv, hsource⟩ := hfirst.resolve_right (by simp [ha])
    obtain rfl : v = w := by simpa [ha] using hw
    obtain ⟨p, rfl, hcandidates, hfollowing, hp⟩ := sound_gather hK (by simpa using hv) hsource hloop
    rcases hout with ⟨e, he, -⟩ | ⟨q, hq, rfl, rfl⟩
    · exact absurd he (by simp)
    · obtain rfl := Except.ok.inj hq
      refine ⟨_, rfl, hcandidates, rfl, hfollowing, .inr ⟨hfollowing, h.pending, ?_⟩⟩
      exact hp.imp_left fun hp => by simp [hp]

/-- **A selection** hands out a member, or nothing, and stays sound. -/
theorem Sound.next (hK : K.Begins) (h : s.Sound K) {a : Except Undefined (Option Value)}
    (hn : s.next (Candidates.next n) (fun c => c.credit 0) key m = some (a, s')) :
    s'.Sound K ∧ ((∃ v, a = .ok (some v) ∧ K.Member v) ∨ a = .ok none) := by
  refine loop_invariant (P := fun s : Selection Candidates Value => s.Sound K)
    (Q := fun b => b.2.Sound K ∧ ((∃ v, b.1 = .ok (some v) ∧ K.Member v) ∨ b.1 = .ok none))
    ?_ ?_ h hn
  · -- a turn that goes on has gathered a period, and picks from its members
    rintro s s'' h ht
    rcases turn_cases ht with
      ⟨v, pending, -, h'⟩ | ⟨hpending, ⟨-, h'⟩ | ⟨hfinished, answer, s₁, hc, hout⟩⟩
    · simp at h'
    · simp at h'
    · obtain ⟨found, rfl, hfound, hp, -, hsound⟩ := sound_collect hK h hfinished hc
      rcases hout with ⟨e, he, -⟩ | ⟨found', hf, ⟨h', -⟩ | ⟨hne, ⟨-, h'⟩ | ⟨-, h'⟩⟩⟩
      · exact absurd he (by simp)
      · simp at h'
      · obtain rfl := Except.ok.inj hf
        obtain rfl := Turn.again.inj h'
        exact hsound.resolve_left hne
      · obtain rfl := Except.ok.inj hf
        obtain rfl := Turn.again.inj h'
        have hsound := hsound.resolve_left hne
        refine ⟨hsound.heldBack, fun v hv => hfound v (mem_of_mem_selectPositions hv), ?_⟩
        refine hsound.source.imp_right ?_
        rintro ⟨base, R, hawaits⟩
        exact ⟨_, R, hawaits.credit hK⟩
  · -- the last turn hands out what waits, or finds that nothing is left
    rintro s b h ht
    rcases turn_cases ht with
      ⟨v, pending, hv, h'⟩ | ⟨hpending, ⟨-, h'⟩ | ⟨hfinished, answer, s₁, hc, hout⟩⟩
    · obtain rfl := Turn.done.inj h'
      have hpending := h.pending
      rw [hv] at hpending
      exact ⟨⟨h.heldBack, fun w hw => hpending w (.tail _ hw), h.source⟩,
        .inl ⟨v, rfl, hpending v List.mem_cons_self⟩⟩
    · obtain rfl := Turn.done.inj h'
      exact ⟨h, .inr rfl⟩
    · obtain ⟨found, rfl, hfound, hp, hheld, hsound⟩ := sound_collect hK h hfinished hc
      rcases hout with ⟨e, he, -⟩ | ⟨found', hf, ⟨h', -⟩ | ⟨hne, ⟨-, h'⟩ | ⟨-, h'⟩⟩⟩
      · exact absurd he (by simp)
      · obtain rfl := Turn.done.inj h'
        refine ⟨⟨hheld, ?_, .inl rfl⟩, .inr rfl⟩
        show ∀ v ∈ s₁.pending, K.Member v
        rw [hp]
        exact h.pending
      · simp at h'
      · simp at h'

end Selection

/-! ### Sources -/

/-- A source that hands out members alone. -/
def InstanceSource.Sound (K : Course) : InstanceSource → Prop
  | .plain c => ∃ base R, K.Awaits base c R
  | .selected s => s.Sound K

/-- **A sound source** hands out a member and stays sound, or it hands out nothing. -/
theorem InstanceSource.Sound.next (hK : K.Begins) {src src' : InstanceSource} (h : src.Sound K)
    {a : Except Undefined (Option Value)} (hn : src.next r n = some (a, src')) :
    (∃ v, a = .ok (some v) ∧ K.Member v ∧ src'.Sound K) ∨ a = .ok none := by
  cases src with
  | plain c =>
    obtain ⟨base, R, hawaits⟩ := h
    obtain ⟨⟨b, c'⟩, hc, heq⟩ := Option.map_eq_some_iff.mp hn
    obtain ⟨rfl, rfl⟩ := Prod.mk.inj heq
    exact hawaits.of_next hK hc
  | selected s =>
    obtain ⟨⟨b, s'⟩, hs, heq⟩ := Option.map_eq_some_iff.mp hn
    obtain ⟨rfl, rfl⟩ := Prod.mk.inj heq
    obtain ⟨hsound, ⟨v, ha, hv⟩ | ha⟩ := Selection.Sound.next hK h hs
    · exact .inl ⟨v, ha, hv, hsound⟩
    · exact .inr ha

/-! ### Series -/

namespace Series

variable {s s' : Series} {v : Value}

/-- **What is generated** is a member whose UTC value comes after the last instance, or nothing. -/
theorem generate_sound (hK : K.Begins) (h : s.source.Sound K)
    {a : Except SeriesError (Option (Value × Value))} (hg : s.generate n = some (a, s')) :
    (∃ v u, a = .ok (some (v, u)) ∧ K.Member v ∧ v.toUtc s.zone = .ok u ∧ s'.source.Sound K ∧
      s'.lastKey = some u.key ∧ ∀ k ∈ s.lastKey, k < u.key) ∨ a = .ok none := by
  refine loop_invariant
    (P := fun s₁ => s₁.zone = s.zone ∧ s₁.lastKey = s.lastKey ∧ s₁.source.Sound K)
    (Q := fun b => (∃ v u, b.1 = .ok (some (v, u)) ∧ K.Member v ∧ v.toUtc s.zone = .ok u ∧
      b.2.source.Sound K ∧ b.2.lastKey = some u.key ∧ ∀ k ∈ s.lastKey, k < u.key) ∨ b.1 = .ok none)
    ?_ ?_ ⟨rfl, rfl, h⟩ hg
  · rintro s₁ s₂ ⟨hzone, hlast, hsound⟩ ht
    obtain ⟨answer, src, hn, ⟨⟨e, h⟩, -⟩ | ⟨-, h⟩ | ⟨v, rfl, h | ⟨u, -, -, h⟩⟩⟩ := attempt_cases ht <;>
      simp only [reduceCtorEq, Turn.again.injEq] at h
    obtain ⟨w, -, -, hsound'⟩ := (hsound.next hK hn).resolve_right (by simp)
    rw [h]
    exact ⟨hzone, hlast, hsound'⟩
  · rintro s₁ b ⟨hzone, hlast, hsound⟩ ht
    obtain ⟨answer, src, hn, ⟨⟨e, h⟩, he⟩ | ⟨-, h⟩ | ⟨v, ha, h | ⟨u, hutc, hafter, h⟩⟩⟩ :=
      attempt_cases ht <;> simp only [reduceCtorEq, Turn.done.injEq] at h <;> rw [h]
    · -- sources never fail, and every value has a UTC value
      rcases he with ⟨why, ha⟩ | ⟨v, e, ha, he⟩
      · rcases hsound.next hK hn with ⟨v, hv, -⟩ | hv <;> exact absurd (ha.symm.trans hv) (by simp)
      · obtain ⟨w, hw, hmember, -⟩ := (hsound.next hK hn).resolve_right (by simp [ha])
        obtain rfl : v = w := by simpa [ha] using hw
        obtain ⟨u, hu, -⟩ := Value.toUtc_spec s₁.zone (hK.isReal hmember.1)
        exact absurd (he.symm.trans hu) (by simp)
    · exact .inr rfl
    · obtain ⟨w, hw, hmember, hsound'⟩ := (hsound.next hK hn).resolve_right (by simp [ha])
      obtain rfl : v = w := by simpa [ha] using hw
      rw [hzone] at hutc
      rw [hlast] at hafter
      exact .inl ⟨v, u, rfl, hmember, hutc, hsound', rfl, hafter⟩

/-- In UTC an instance is its own UTC value. -/
theorem sound_generate (hK : K.Begins) (hzone : s.zone = .utc) (h : s.source.Sound K)
    {a : Except SeriesError (Option (Value × Value))} (hg : s.generate n = some (a, s')) :
    (∃ v, a = .ok (some (v, v)) ∧ K.Member v ∧ s'.source.Sound K ∧ s'.lastKey = some v.key ∧
      ∀ k ∈ s.lastKey, k < v.key) ∨ a = .ok none := by
  refine (generate_sound hK h hg).imp_left ?_
  rintro ⟨v, u, rfl, hmember, hutc, hsound, hlast, hafter⟩
  rw [hzone] at hutc
  obtain rfl : v = u := Except.ok.inj hutc
  exact ⟨v, rfl, hmember, hsound, hlast, hafter⟩

/-- Passing over months leaves a source sound, unless it ends the series. -/
theorem passOver_sound (hK : K.Begins) (h : s.source.Sound K) {target : Value}
    {a : Except SeriesError Unit} (hn : s.passOver n target = some (a, s')) :
    s'.finished = true ∨ s'.source.Sound K := by
  rcases passOver_cases hn with rfl | ⟨c, l, step, c', hsource, -, hskip, hout⟩
  · exact .inr h
  · rw [hsource] at h
    obtain ⟨base, R, hawaits⟩ := h
    obtain ⟨⟨step', c''⟩, hsettles, hlands⟩ := hawaits.skipMonths hK l
    obtain ⟨rfl, rfl⟩ := Prod.mk.inj (Patient.eq_of_settles (patient_skipMonths c l) hsettles hskip)
    rcases hout with ⟨hstep, rfl⟩ | rfl
    · rcases hlands with ⟨-, base', -, hawaits'⟩ | ⟨hhalt, -⟩
      · exact .inr ⟨base', _, hawaits'⟩
      · obtain rfl : step = .halt := hhalt
        rcases hstep with hstep | ⟨why, hstep⟩ <;> exact absurd hstep (by simp)
    · exact .inl rfl

/-- What holds of a series in UTC, wherever calls have led it: the instance that it holds is
a match, and unless it has stopped its source is sound and has reached the start. -/
structure Sound (r : Rule) (start : Value) (budget : Int) (s : Series) : Prop where
  zone : s.zone = .utc
  pending : ∀ v ∈ s.pending, r.Matches start v
  source : s.finished = true ∨
    s.source.Sound (r.course start budget) ∧ ∃ k ∈ s.lastKey, start.key ≤ k

/-- An instance from the start on is a match, and the series stays sound whether it passes or
not. -/
theorem sound_judge (h : r.Admits start) (hbudget : 0 ≤ budget) (hzone : s.zone = .utc)
    (hpending : s.pending = none) (hsource : s.source.Sound (r.course start budget))
    (hlast : s.lastKey = some v.key) (hmember : (r.course start budget).Member v)
    (hle : start ≤ v) : (s.judge v v).2.Sound r start budget := by
  have hkind := (Rule.member_isReal h hbudget hmember).2
  refine ⟨(sameRule_judge s v v).zone.trans hzone, ?_, .inr ⟨?_, ?_⟩⟩
  · rw [judge_eq]
    split_ifs
    · rintro _ ⟨⟩
      exact (Rule.member_iff h hbudget ((listStart_spec h.real).2.2.1.trans hle)).mp hmember
    · rw [hpending]
      simp
  · rw [judge_source]
    exact hsource
  · rw [judge_lastKey, hlast]
    exact ⟨_, rfl, (Value.le_iff_key hkind.symm).mp hle⟩

theorem Sound.hasNext (h : r.Admits start) (hbudget : 0 ≤ budget) (hs : s.Sound r start budget)
    {a : Except SeriesError Bool} (hn : s.hasNext n = some (a, s')) : s'.Sound r start budget := by
  have hK := Rule.begins_course h hbudget
  rcases hasNext_cases hn with ⟨-, rfl⟩ | ⟨hpending, hfinished, answer, s₁, hg, hout⟩
  · exact hs
  · have hdraws := draws_of_generate hg
    have hnone := hdraws.pending.trans hpending
    have hzone := hdraws.zone.trans hs.zone
    obtain ⟨hsource, k, hk, hstart⟩ := hs.source.resolve_left (by simp [hfinished])
    rcases sound_generate hK hs.zone hsource hg with
      ⟨v, rfl, hmember, hsound, hlast, hafter⟩ | rfl
    · have hkind := (Rule.member_isReal h hbudget hmember).2
      have hle : start ≤ v := (Value.le_iff_key hkind.symm).mpr (hstart.trans (hafter k hk).le)
      rcases hout with ⟨e, he, -⟩ | ⟨he, -⟩ | ⟨w, u, hw, rfl⟩
      · exact absurd he (by simp)
      · exact absurd he (by simp)
      · obtain ⟨rfl, rfl⟩ : v = w ∧ v = u := by simpa using hw
        exact sound_judge h hbudget hzone hnone hsound hlast hmember hle
    · rcases hout with ⟨e, he, -⟩ | ⟨-, rfl⟩ | ⟨v, u, hv, -⟩
      · exact absurd he (by simp)
      · exact ⟨hzone, fun v hv => absurd (hnone.symm.trans hv) (by simp), .inl rfl⟩
      · exact absurd hv (by simp)

theorem Sound.passOver (h : r.Admits start) (hbudget : 0 ≤ budget) (hs : s.Sound r start budget)
    (hfinished : s.finished = false) {target : Value} {a : Except SeriesError Unit}
    (hn : s.passOver n target = some (a, s')) : s'.Sound r start budget := by
  obtain ⟨hsound, hlast⟩ := hs.source.resolve_left (by simp [hfinished])
  obtain ⟨hrule, hkey, hpending, -⟩ := frame_of_passOver hn
  refine ⟨hrule.zone.trans hs.zone, hpending ▸ hs.pending, ?_⟩
  rw [hkey]
  exact (passOver_sound (Rule.begins_course h hbudget) hsound hn).imp_right fun h => ⟨h, hlast⟩

/-- The source of a new series is sound. -/
theorem sound_unstarted (h : r.Admits start) (hbudget : 0 ≤ budget) (zone : Zone) {c : Candidates}
    (hrun : (candidates r start (Plan.ofRule r start (listStart r start) budget)).run n
      ((candidates r start (Plan.ofRule r start (listStart r start) budget)).chain.length - 1) 0 =
        some (.value, c)) :
    (unstarted r start zone c).source.Sound (r.course start budget) := by
  have hawaits : ∃ base R, (r.course start budget).Awaits base c R := by
    rcases Rule.run_candidates h hbudget with ⟨c', hsettles, hawaits⟩ | ⟨c', hsettles, -⟩
    · obtain ⟨-, rfl⟩ := Prod.mk.inj
        (Patient.eq_of_settles (patient_candidatesRun _ _ _) hsettles hrun)
      exact ⟨_, _, hawaits⟩
    · exact absurd (Patient.eq_of_settles (patient_candidatesRun _ _ _) hsettles hrun) (by simp)
  show (sourceOf r c).Sound _
  unfold sourceOf
  split_ifs
  · exact hawaits
  · exact ⟨by simp, by simp, .inr hawaits⟩

/-- A new series has dropped what lies before its start. -/
theorem sound_create (h : r.Admits start) (hbudget : 0 ≤ budget)
    (hc : create n r start .utc budget = some (.ok s)) : s.Sound r start budget := by
  have hK := Rule.begins_course h hbudget
  rcases create_cases hc with ⟨⟨c, rfl⟩, -⟩ | ⟨c, startUtc, ⟨-, hrun⟩, hutc, hloop⟩
  · exact ⟨rfl, fun v hv => absurd hv (by simp [unstarted]), .inl rfl⟩
  obtain rfl : start = startUtc := Except.ok.inj hutc
  have hsource := sound_unstarted h hbudget .utc hrun
  refine loop_invariant (P := fun s => s.zone = .utc ∧ s.pending = none ∧
      s.source.Sound (r.course start budget))
    (Q := fun b => b.1 = .ok () → b.2.Sound r start budget) ?_ ?_ ⟨rfl, rfl, hsource⟩ hloop rfl
  · rintro s₁ s₂ ⟨hzone, hpending, hsound⟩ ht
    obtain ⟨answer, s₃, hg, ⟨e, h⟩ | ⟨-, h⟩ | ⟨v, u, ha, ⟨-, h⟩ | ⟨-, h⟩⟩⟩ := startTurn_cases ht <;>
      simp only [reduceCtorEq, Turn.again.injEq] at h
    have hdraws := draws_of_generate hg
    obtain ⟨w, -, -, hsound', -⟩ := (sound_generate hK hzone hsound hg).resolve_right (by simp [ha])
    rw [h]
    exact ⟨hdraws.zone.trans hzone, hdraws.pending.trans hpending, hsound'⟩
  · rintro s₁ b ⟨hzone, hpending, hsound⟩ ht hb
    obtain ⟨answer, s₃, hg, ⟨e, h'⟩ | ⟨-, h'⟩ | ⟨v, u, ha, ⟨-, h'⟩ | ⟨hle, h'⟩⟩⟩ :=
      startTurn_cases ht <;> simp only [reduceCtorEq, Turn.done.injEq] at h' <;> subst h'
    · exact absurd hb (by simp)
    · have hdraws := draws_of_generate hg
      refine ⟨hdraws.zone.trans hzone, fun v hv => ?_, .inl rfl⟩
      exact absurd ((hdraws.pending.trans hpending).symm.trans hv) (by simp)
    · have hdraws := draws_of_generate hg
      obtain ⟨w, hw, hmember, hsound', hlast, -⟩ :=
        (sound_generate hK hzone hsound hg).resolve_right (by simp [ha])
      obtain ⟨rfl, rfl⟩ : v = w ∧ u = w := by simpa [ha] using hw
      exact sound_judge h hbudget (hdraws.zone.trans hzone) (hdraws.pending.trans hpending) hsound'
        hlast hmember (not_lt.mp hle)

/-- Wherever calls have led a series in UTC, it is sound. -/
theorem Reachable.sound (hr : r.Valid) (hreal : start.IsReal) (hbudget : 0 ≤ budget)
    (hs : Reachable r start .utc budget s) : s.Sound r start budget := by
  have h := hs.admits hr hreal
  refine hs.invariant (fun n s a s' hs hn => hs.hasNext h hbudget hn) (fun s hs => ?_)
    (fun n target s a s' hs _ hfinished hn => hs.passOver h hbudget hfinished hn)
    fun n s hc => Series.sound_create h hbudget hc
  exact ⟨hs.zone, fun v hv => absurd hv (by simp), hs.source⟩

end Series

/-- **Expansion is sound.**  Whatever a series in UTC has been asked before, with or without
positions, a count or an end, the next instance that it returns matches its rule. -/
theorem expansion_sound (hr : r.Valid) (hreal : start.IsReal) (hbudget : 0 ≤ budget) {s s' : Series}
    (hs : Series.Reachable r start .utc budget s) {v : Value} (hn : s.next n = some (.ok v, s')) :
    r.Matches start v := by
  have h := hs.admits hr hreal
  have hsound := hs.sound hr hreal hbudget
  obtain ⟨b, s₁, hlook, ⟨e, he, -⟩ | ⟨w, hw, hp, -⟩⟩ := Series.next_cases hn
  · exact absurd he (by simp)
  · obtain rfl := Except.ok.inj hw
    exact (hsound.hasNext h hbudget hlook).pending v hp

/-- The last Monday or Friday of each month, twice: the second one that is returned matches. -/
theorem expansion_sound_last_of_month :
    let r : Rule := { count := some 2, byDay := [.every .mo, .every .fr], bySetPos := [-1], freq := .monthly }
    let start : Value := .ofDate ⟨2024, 1, 30⟩
    ∃ s n s', Series.Reachable r start .utc 100 s ∧
      s.next n = some (.ok (.ofDate ⟨2024, 3, 29⟩), s') ∧ r.Matches start (.ofDate ⟨2024, 3, 29⟩) := by
  intro r start
  obtain ⟨s₀, s, s', hcreate, hrun, -⟩ := Series.returns_of_wholeRunOf
    (show Series.wholeRunOf 100 5 r start .utc 100 =
      some [.ofDate ⟨2024, 2, 26⟩, .ofDate ⟨2024, 3, 29⟩] by decide +kernel)
  cases hrun with
  | cons head tail => cases tail with
    | cons head' tail' =>
      have hs := (Series.Reachable.create hcreate).next head
      exact ⟨_, _, _, hs, head', expansion_sound (by decide) (by decide) (by decide) hs head'⟩

end Recurrence
