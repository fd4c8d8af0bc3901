/-
Recurrence/Proofs/Series/Plays.lean

Series as cursors over what they return.

A series that is only stepped through returns some sequence of values, finite or not
(`Series.Plays`).  Looking for an instance changes nothing about this sequence, and dropping the
instance that is held drops its head.  So a series that passes over no months answers all calls
like the cursor over the sequence (`Supply.Live.followsAll`).
-/
import Mathlib.Data.Seq.Defs
import Recurrence.Proofs.Cursor.Calls
import Recurrence.Proofs.Series.Live
import Recurrence.Proofs.Series.States
import Recurrence.Proofs.Series.Targets

namespace Recurrence

variable {s s' : Series} {vs vs' : Values} {n : Nat} {b : Bool} {v target : Value}

namespace Series

/-! ### Stepping alone -/

/-- Stepping alone returns the values of a sequence, and the series ends after the last one. -/
def Plays (s : Series) (vs : Values) : Prop :=
  ∀ n, ∃ s', s.Returns (vs.take n) s' ∧ (vs.get? n = none → ∃ s'', s'.Ends s'')

theorem plays_nil_iff : s.Plays .nil ↔ ∃ s', s.Ends s' := by
  constructor
  · intro h
    obtain ⟨s', hrun, hend⟩ := h 0
    cases hrun
    exact hend rfl
  · intro h n
    rw [Stream'.Seq.take_nil]
    exact ⟨s, .nil s, fun _ => h⟩

theorem plays_cons_iff : s.Plays (.cons v vs) ↔
    ∃ s', Settles (fun n => s.next n) (.ok v, s') ∧ s'.Plays vs := by
  constructor
  · intro h
    obtain ⟨s', hrun, -⟩ := h 1
    rw [Stream'.Seq.take_succ_cons, Stream'.Seq.take_zero] at hrun
    obtain ⟨⟩ | ⟨head, ⟨⟩⟩ := hrun
    have hsettles := Patient.settles (patient_next s) head
    refine ⟨s', hsettles, fun n => ?_⟩
    obtain ⟨s₂, hrun, hend⟩ := h (n + 1)
    rw [Stream'.Seq.take_succ_cons] at hrun
    obtain ⟨⟩ | ⟨head', tail'⟩ := hrun
    obtain ⟨-, rfl⟩ := Prod.mk.inj (Patient.eq_of_settles (patient_next s) hsettles head')
    exact ⟨s₂, tail', hend⟩
  · rintro ⟨s', hsettles, h⟩ n
    cases n with
    | zero => exact ⟨s, .nil s, fun hnone => absurd hnone (by simp)⟩
    | succ n =>
      obtain ⟨s₂, hrun, hend⟩ := h n
      obtain ⟨bound, hn⟩ := hsettles.exists_bound
      rw [Stream'.Seq.take_succ_cons]
      exact ⟨s₂, .cons hn hrun, hend⟩

/-- Two sequences that one series plays begin alike. -/
theorem Plays.alike (h : s.Plays vs) (h' : s.Plays vs') : vs = .nil ∧ vs' = .nil ∨
    ∃ v ws ws', ∃ s' : Series, vs = .cons v ws ∧ vs' = .cons v ws' ∧ s'.Plays ws ∧ s'.Plays ws' := by
  -- the first step fails or returns a value, and not both
  have hends : ∀ {v : Value} {vs : Values}, s.Plays .nil → ¬ s.Plays (.cons v vs) := by
    intro v vs hnil hcons
    obtain ⟨s', n, hn⟩ := plays_nil_iff.mp hnil
    obtain ⟨s'', hsettles, -⟩ := plays_cons_iff.mp hcons
    exact absurd (Patient.eq_of_settles (patient_next s) hsettles hn) (by simp)
  cases vs using Stream'.Seq.recOn with
  | nil =>
    cases vs' using Stream'.Seq.recOn with
    | nil => exact .inl ⟨rfl, rfl⟩
    | cons v' ws' => exact absurd h' (hends h)
  | cons v ws =>
    cases vs' using Stream'.Seq.recOn with
    | nil => exact absurd h (hends h')
    | cons v' ws' =>
      obtain ⟨s₁, hsettles, h₁⟩ := plays_cons_iff.mp h
      obtain ⟨s₂, hsettles', h₂⟩ := plays_cons_iff.mp h'
      obtain ⟨hv, rfl⟩ := Prod.mk.inj (hsettles.unique hsettles')
      obtain rfl := Except.ok.inj hv
      exact .inr ⟨v, ws, ws', s₁, rfl, rfl, h₁, h₂⟩

/-- **Stepping returns one sequence** only. -/
theorem Plays.unique (h : s.Plays vs) (h' : s.Plays vs') : vs = vs' := by
  apply Stream'.Seq.ext
  intro n
  -- on the position, over all series: the tails are what the next series plays
  induction n generalizing s vs vs' with
  | zero => obtain ⟨rfl, rfl⟩ | ⟨v, ws, ws', s', rfl, rfl, -, -⟩ := h.alike h' <;> rfl
  | succ n ih =>
    obtain ⟨rfl, rfl⟩ | ⟨v, ws, ws', s', rfl, rfl, hws, hws'⟩ := h.alike h'
    · rfl
    · rw [Stream'.Seq.get?_cons_succ, Stream'.Seq.get?_cons_succ]
      exact ih hws hws'

/-- A run returns a beginning of what is played, and what is left is played after it. -/
theorem Plays.returns {us : List Value} (h : s.Plays vs) (hrun : s.Returns us s') :
    vs.take us.length = us ∧ s'.Plays (vs.drop us.length) := by
  induction hrun generalizing vs with
  | nil s => exact ⟨rfl, h⟩
  | cons head _ ih =>
    cases vs using Stream'.Seq.recOn with
    | nil =>
      obtain ⟨s₁, n, hn⟩ := plays_nil_iff.mp h
      exact absurd (Patient.unique (patient_next _) head hn) (by simp)
    | cons v vs =>
      obtain ⟨s₁, hsettles, h₁⟩ := plays_cons_iff.mp h
      obtain ⟨hv, rfl⟩ := Prod.mk.inj (Patient.eq_of_settles (patient_next _) hsettles head)
      obtain rfl := Except.ok.inj hv
      obtain ⟨htake, hdrop⟩ := ih h₁
      refine ⟨?_, ?_⟩
      · rw [List.length_cons, Stream'.Seq.take_succ_cons, htake]
      · rwa [List.length_cons, Stream'.Seq.drop_succ_cons]

/-! ### Looking ahead -/

/-- Looking again finds nothing else. -/
theorem hasNext_again (h : s.hasNext n = some (.ok b, s')) (m : Nat) :
    s'.hasNext m = some (.ok s'.pending.isSome, s') := by
  have hcond : (s'.pending.isNone && !s'.finished) = false := by
    cases hp : s'.pending with
    | none => simp [finished_of_pending_none h hp]
    | some v => rfl
  simp only [hasNext, hcond, Bool.false_eq_true, if_false]

/-- **Looking for an instance** does not change what is played, and holds the first of it. -/
theorem Plays.hasNext (h : s.Plays vs) (hn : s.hasNext n = some (.ok b, s')) :
    s'.Plays vs ∧ s'.pending = vs.head := by
  -- before and after looking, the next step is the same
  have hstep : Settles (fun n => s.next n) s'.stepOf :=
    Patient.settles (patient_next s) (next_of_hasNext hn)
  have hstep' : Settles (fun n => s'.next n) s'.stepOf :=
    Patient.settles (patient_next s') (next_of_hasNext (hasNext_again hn n))
  cases vs using Stream'.Seq.recOn with
  | nil =>
    obtain ⟨s₁, m, hm⟩ := plays_nil_iff.mp h
    have heq := Patient.eq_of_settles (patient_next s) hstep hm
    cases hp : s'.pending with
    | none =>
      rw [stepOf, hp] at hstep'
      obtain ⟨m, hm⟩ := hstep'.exists_bound
      exact ⟨plays_nil_iff.mpr ⟨s', m, hm⟩, rfl⟩
    | some v => simp [stepOf, hp] at heq
  | cons v vs =>
    obtain ⟨s₁, hsettles, h₁⟩ := plays_cons_iff.mp h
    have heq := hsettles.unique hstep
    rw [← heq] at hstep'
    refine ⟨plays_cons_iff.mpr ⟨s₁, hstep', h₁⟩, ?_⟩
    cases hp : s'.pending with
    | none => simp [stepOf, hp] at heq
    | some u =>
      obtain ⟨rfl, -⟩ : v = u ∧ _ := by simpa [stepOf, hp] using heq
      rfl

/-- **Taking the held instance away** takes away the head of what is played. -/
theorem Plays.take (h : s.Plays vs) (hp : s.pending = some v) :
    ∃ vs', vs = .cons v vs' ∧ { s with pending := none }.Plays vs' := by
  have hlook : s.hasNext 0 = some (.ok true, s) := by simp [Series.hasNext, hp]
  have hstep : Settles (fun n => s.next n) (.ok v, { s with pending := none }) := by
    have hnext := next_of_hasNext hlook
    rw [stepOf, hp] at hnext
    exact Patient.settles (patient_next s) hnext
  obtain ⟨-, hhead⟩ := h.hasNext hlook
  cases vs using Stream'.Seq.recOn with
  | nil => simp [hp] at hhead
  | cons u vs =>
    obtain rfl : v = u := by simpa [hp] using hhead
    obtain ⟨s₁, hsettles, h₁⟩ := plays_cons_iff.mp h
    obtain ⟨-, rfl⟩ := Prod.mk.inj (hsettles.unique hstep)
    exact ⟨vs, rfl, h₁⟩

/-! ### Moving ahead -/

/-- **Skipping** drops what is before the target from what is played. -/
theorem Plays.skip (h : s.Plays vs) (hpending : s.pending = none) (hfinished : s.finished = false)
    (hn : loop (skipTurn n target) n s = some (.ok (), s')) :
    ∃ vs', DropsTo target vs vs' ∧ s'.Plays vs' := by
  -- each turn drops the head of what is left to play
  refine skip_induction
    (P := fun s => ∃ ws, s.Plays ws ∧ ∀ vs', DropsTo target ws vs' → DropsTo target vs vs')
    (Q := fun a s' => a = .ok () → ∃ vs', DropsTo target vs vs' ∧ s'.Plays vs') ?_ ?_ ?_
    ⟨vs, h, fun _ => id⟩ hpending hfinished hn rfl
  · rintro s b s₁ u ⟨ws, hws, hdrops⟩ hlook hp hlt
    obtain ⟨h₁, -⟩ := hws.hasNext hlook
    obtain ⟨ws', rfl, h₂⟩ := h₁.take hp
    exact ⟨ws', h₂, fun vs' h => hdrops vs' (h.cons hlt)⟩
  · -- the head that is held now, if there is one, is not before the target
    rintro s b s₁ ⟨ws, hws, hdrops⟩ hlook hfound -
    obtain ⟨h₁, hhead⟩ := hws.hasNext hlook
    exact ⟨ws, hdrops ws (.stay (hhead ▸ hfound)), h₁⟩
  · intro s e s₁ _ _ hok
    exact absurd hok (by simp)

/-- A series that has stopped and holds nothing plays nothing. -/
theorem Plays.eq_nil (h : s.Plays vs) (hpending : s.pending = none) (hfinished : s.finished = true) :
    vs = .nil := by
  have hlook : s.hasNext 0 = some (.ok false, s) := by simp [Series.hasNext, hpending, hfinished]
  obtain ⟨-, hhead⟩ := h.hasNext hlook
  cases vs using Stream'.Seq.recOn with
  | nil => rfl
  | cons v vs => simp [hpending] at hhead

/-- Skipping drops what is before the target, unless months are passed over. -/
theorem Plays.skipTo (h : s.Plays vs) (hpending : s.pending = none) (hskips : s.skipsMonths = false)
    (hn : s.skipTo n target = some (.ok (), s')) :
    ∃ vs', DropsTo target vs vs' ∧ s'.Plays vs' := by
  rcases skipTo_cases hn with ⟨hfinished, -, rfl⟩ | ⟨hfinished, ⟨-, hn⟩ | ⟨hskips', -⟩⟩
  · obtain rfl := h.eq_nil hpending hfinished
    exact ⟨.nil, .nil _, h⟩
  · exact h.skip hpending hfinished hn
  · exact absurd (hskips.symm.trans hskips') (by simp)

/-- **Moving ahead** drops what is before the target from what is played, unless months are
passed over. -/
theorem Plays.advanceTo (h : s.Plays vs) (hskips : s.skipsMonths = false)
    (hn : s.advanceTo n target = some (.ok (), s')) :
    ∃ vs', DropsTo (s.roundTarget target) vs vs' ∧ s'.Plays vs' := by
  rcases advanceTo_cases hn with ⟨v, hp, hle, -, rfl⟩ | ⟨hbefore, hn⟩
  · -- the held instance is the head, so nothing at all is before the target
    obtain ⟨vs', rfl, -⟩ := h.take hp
    refine ⟨_, .stay ?_, h⟩
    rintro _ ⟨⟩
    exact hle
  · cases hp : s.pending with
    | none =>
      exact h.skipTo hp hskips (take_of_pending_none hp ▸ hn)
    | some v =>
      obtain ⟨ws, rfl, hws⟩ := h.take hp
      obtain ⟨vs', hdrops, h'⟩ := hws.skipTo rfl hskips hn
      exact ⟨vs', hdrops.cons (hbefore v hp), h'⟩

end Series

namespace Supply

variable {S : Supply}

/-! ### What is played -/

/-- The next instance with the series that is left. -/
noncomputable def stepped (s : Series) : Option (Value × Series) :=
  open Classical in
  if h : ∃ b : Value × Series, Settles (fun n => s.next n) (.ok b.1, b.2) then some h.choose else none

theorem stepped_eq (h : Settles (fun n => s.next n) (.ok v, s')) : stepped s = some (v, s') := by
  have hex : ∃ b : Value × Series, Settles (fun n => s.next n) (.ok b.1, b.2) := ⟨(v, s'), h⟩
  obtain ⟨hv, hs'⟩ := Prod.mk.inj (hex.choose_spec.unique h)
  rw [stepped, dif_pos hex, ← Except.ok.inj hv, ← hs']

/-- **A series plays** some sequence of values. -/
theorem Live.exists_plays (h : S.Live s) : ∃ vs : Values, s.Plays vs := by
  -- the sequence is unfolded from the steps of the series; a live series takes them all
  refine ⟨Stream'.Seq.corec stepped s, fun n => ?_⟩
  induction n generalizing s with
  | zero =>
    refine ⟨s, .nil s, fun hnone => ?_⟩
    obtain ⟨a, s', hsettles, -, -, ⟨v, rfl⟩ | rfl⟩ := h.next
    · rw [Stream'.Seq.corec_cons (stepped_eq hsettles)] at hnone
      exact absurd hnone (by simp)
    · obtain ⟨n, hn⟩ := hsettles.exists_bound
      exact ⟨s', n, hn⟩
  | succ n ih =>
    obtain ⟨a, s', hsettles, -, hlive, ⟨v, rfl⟩ | rfl⟩ := h.next
    · obtain ⟨bound, hn⟩ := hsettles.exists_bound
      obtain ⟨s'', hrun, hend⟩ := ih hlive
      rw [Stream'.Seq.corec_cons (stepped_eq hsettles)]
      refine ⟨s'', ?_, hend⟩
      rw [Stream'.Seq.take_succ_cons]
      exact .cons hn hrun
    · obtain ⟨bound, hn⟩ := hsettles.exists_bound
      have hnone : stepped s = none := by
        rw [stepped, dif_neg]
        rintro ⟨b, hb⟩
        exact absurd (hb.unique hsettles) (by simp)
      rw [Stream'.Seq.corec_nil _ _ hnone, Stream'.Seq.take_nil]
      exact ⟨s, .nil s, fun _ => ⟨s', bound, hn⟩⟩

/-! ### All calls -/

/-- **One call** is answered as the cursor over what is played answers it. -/
theorem Live.follows (hS : S.Passes) (hlive : S.Live s) (hskips : s.skipsMonths = false)
    (h : s.Plays vs) (call : CursorCall) : ∃ a s' vs',
      Settles (fun n => (Series.ops n).ask call s) (a, s') ∧ s.SameRule s' ∧ S.Live s' ∧ s'.Plays vs' ∧
        Follows (.noMoreInstances (some s.rule.text)) s.roundTarget vs call a vs' := by
  cases call with
  | hasNext =>
    obtain ⟨s', hsettles, hrule, hlive'⟩ := hlive.hasNext
    obtain ⟨n, hn⟩ := hsettles.exists_bound
    obtain ⟨h', hhead⟩ := h.hasNext hn
    refine ⟨_, s', vs, hsettles.map _, hrule, hlive', h', ?_⟩
    rw [hhead]
    exact .more vs
  | next =>
    obtain ⟨s₁, hsettles, hrule, hlive₁⟩ := hlive.hasNext
    obtain ⟨n, hn⟩ := hsettles.exists_bound
    obtain ⟨h₁, hhead⟩ := h.hasNext hn
    have hstep : Settles (fun n => s.next n) s₁.stepOf :=
      Patient.settles (Series.patient_next s) (Series.next_of_hasNext hn)
    cases vs using Stream'.Seq.recOn with
    | nil =>
      have hp : s₁.pending = none := hhead
      rw [Series.stepOf, hp, hrule.rule] at hstep
      exact ⟨_, s₁, .nil, hstep.map _, hrule, hlive₁, h₁, .ended⟩
    | cons v vs =>
      have hp : s₁.pending = some v := hhead
      obtain ⟨vs', hvs, h'⟩ := h₁.take hp
      obtain ⟨-, rfl⟩ := Stream'.Seq.cons_eq_cons.mp hvs
      rw [Series.stepOf, hp] at hstep
      exact ⟨_, _, vs, hstep.map _, hrule.trans ⟨rfl, rfl, rfl⟩, hlive₁.take, h', .next v vs⟩
  | advanceTo target =>
    -- the wall-clock value of a target is asked for only where months are passed over
    have hno : s.skipsMonths = true → ∃ l, (s.roundTarget target).fromUtc s.zone = .ok l :=
      fun hmay => absurd (hskips.symm.trans hmay) (by simp)
    obtain ⟨s', hsettles, hrule, hlive'⟩ := hlive.advanceTo hS hno
    obtain ⟨n, hn⟩ := hsettles.exists_bound
    obtain ⟨vs', hdrops, h'⟩ := h.advanceTo hskips hn
    exact ⟨_, s', vs', hsettles.map _, hrule, hlive', h', .moved hdrops⟩

/-- **All calls** are answered as the cursor over what is played answers them. -/
theorem Live.followsAll (hS : S.Passes) (hlive : S.Live s) (hskips : s.skipsMonths = false)
    (h : s.Plays vs) (calls : List CursorCall) : ∃ answers vs' s',
      FollowsAll (.noMoreInstances (some s.rule.text)) s.roundTarget vs calls answers vs' ∧
        Settles (fun n => (Series.ops n).askAll calls s) (answers, s') := by
  induction calls generalizing s vs with
  | nil => exact ⟨[], vs, s, .nil vs, settles_const _⟩
  | cons call calls ih =>
    obtain ⟨a, s₁, vs₁, hask, hrule, hlive₁, h₁, hfollows⟩ := hlive.follows hS hskips h call
    have hskips₁ : s₁.skipsMonths = false := hrule.skipsMonths.trans hskips
    obtain ⟨answers, vs', s', hall, hrest⟩ := ih hlive₁ hskips₁ h₁
    rw [hrule.rule, hrule.roundTarget] at hall
    exact ⟨a :: answers, vs', s', .cons hfollows hall, CursorOps.settles_askAll_cons hask hrest⟩

end Supply

end Recurrence
