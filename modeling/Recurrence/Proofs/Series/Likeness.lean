/-
Recurrence/Proofs/Series/Likeness.lean

Series that are not told apart.

Series whose candidates go in step are both refused or both made, and then answer all calls
alike (`Series.Parallel.settles`).  So what one of them returns tells what the other returns
(`Series.InStep.plays`).  Of two rules that have the same start this says that no calls tell them
apart (`Rule.AnswersLike`).
-/
import Recurrence.Proofs.Series.Lockstep
import Recurrence.Proofs.Series.Plays
import Recurrence.Proofs.Termination

namespace Recurrence

variable {V W : Value → Value → Prop} {R : Candidates → Candidates → Prop} {r r' : Rule}
  {start : Value} {zone : Zone} {budget : Int} {n : Nat}

/-- What settles on one side settles on the other, on a related answer. -/
theorem exists_settles_of_rel {α β : Type*} {Q : α → β → Prop} {op : Nat → Option α}
    {op' : Nat → Option β} (h : ∀ n, Option.Rel Q (op n) (op' n)) (hp : Patient op') {a : α}
    (ha : Settles op a) : ∃ b, Settles op' b ∧ Q a b := by
  obtain ⟨n, hn⟩ := ha.exists_bound
  have hab := h n
  rw [hn] at hab
  generalize hb : op' n = y at hab
  obtain ⟨hab⟩ := hab
  exact ⟨_, hp.settles hb, hab⟩

/-- A series is created in the end, or refused. -/
theorem Rule.exists_settles_create (hr : r.Valid) (hreal : start.IsReal) (zone : Zone)
    (budget : Int) : ∃ a, Settles (fun n => Series.create n r start zone budget) a := by
  by_cases hsub : start.hasTime = false ∧ r.freq.isSubDaily = true
  · refine ⟨.error (.rule (.invalid (.needsTimeOfDay r.freq) (some r.text))), ?_⟩
    filter_upwards with n
    simp [Series.create, hsub.1, hsub.2]
  · have hadmits : r.Admits start := ⟨hr, hreal, fun hs => by simpa [hs] using hsub⟩
    obtain ⟨-, s, hs, -⟩ := exists_live hadmits zone budget
    exact ⟨_, hs⟩

/-- Related lists, where the relation is a function. -/
theorem eq_map_of_rel {α β : Type*} {Q : α → β → Prop} {f : α → β} (hf : ∀ a b, Q a b → b = f a)
    {xs : List α} {ys : List β} (h : List.Forall₂ Q xs ys) : ys = xs.map f := by
  induction h with
  | nil => rfl
  | cons head _ ih => rw [List.map_cons, ← hf _ _ head, ← ih]

/-- A beginning of a sequence whose values are replaced. -/
theorem take_map {α β : Type*} (f : α → β) (xs : Stream'.Seq α) (n : Nat) :
    (xs.map f).take n = (xs.take n).map f := by
  induction n generalizing xs with
  | zero => rfl
  | succ n ih =>
    cases xs using Stream'.Seq.recOn with
    | nil => rw [Stream'.Seq.map_nil, Stream'.Seq.take_nil, Stream'.Seq.take_nil, List.map_nil]
    | cons x xs =>
      rw [Stream'.Seq.map_cons, Stream'.Seq.take_succ_cons, Stream'.Seq.take_succ_cons,
        List.map_cons, ih]

namespace Series

variable {a b : Setting} {s t : Series}

/-- Whatever it is asked, a series has its answer under a large enough bound. -/
theorem Reachable.exists_ask (hr : r.Valid) (hreal : start.IsReal)
    (hs : Reachable r start zone budget s) (call : CursorCall) :
    ∃ a s', Settles (fun n => (Series.ops n).ask call s) (a, s') ∧
      Reachable r start zone budget s' := by
  obtain ⟨S, hS, hlive, -⟩ := hs.live hr hreal
  cases call with
  | hasNext =>
    obtain ⟨s', hsettles, -⟩ := hlive.hasNext
    obtain ⟨n, hn⟩ := hsettles.exists_bound
    exact ⟨_, _, hsettles.map _, hs.hasNext hn⟩
  | next =>
    obtain ⟨a, s', hsettles, -⟩ := hlive.next
    obtain ⟨n, hn⟩ := hsettles.exists_bound
    exact ⟨_, _, hsettles.map _, hs.next hn⟩
  | advanceTo target =>
    obtain ⟨a, s', hsettles, -⟩ := hlive.settles_advanceTo hS target
    obtain ⟨n, hn⟩ := hsettles.exists_bound
    exact ⟨_, _, hsettles.map _, hs.advanceTo hn⟩

theorem Reachable.exists_askAll (hr : r.Valid) (hreal : start.IsReal)
    (hs : Reachable r start zone budget s) (calls : List CursorCall) :
    ∃ b, Settles (fun n => (Series.ops n).askAll calls s) b := by
  induction calls generalizing s with
  | nil => exact ⟨_, settles_const _⟩
  | cons call calls ih =>
    obtain ⟨a, s', hask, hs'⟩ := hs.exists_ask hr hreal call
    obtain ⟨⟨answers, s''⟩, hrest⟩ := ih hs'
    exact ⟨(a :: answers, s''), CursorOps.settles_askAll_cons hask hrest⟩

/-! ### Series of two settings -/

/-- **Settings that go in step** are both refused a series or both get one, and the two series are
in step. -/
theorem Parallel.settles (hab : Parallel V W R a b) (hr : a.rule.Valid) (hreal : a.start.IsReal)
    (hkind : a.start.hasTime = b.start.hasTime ∨ a.rule.freq.isSubDaily = false)
    (hreach : a.rule.reaches a.start = b.rule.reaches b.start)
    (hrun : ∀ n, Option.Rel (SameStep R)
      ((a.rule.candidates a.start budget).run n
        ((a.rule.candidates a.start budget).chain.length - 1) 0)
      ((b.rule.candidates b.start budget).run n
        ((b.rule.candidates b.start budget).chain.length - 1) 0)) :
    (∃ e e', Settles (fun n => create n a.rule a.start a.zone budget) (.error e) ∧
      Settles (fun n => create n b.rule b.start b.zone budget) (.error e') ∧
      SameError a.rule b.rule e e') ∨
    ∃ s t, Settles (fun n => create n a.rule a.start a.zone budget) (.ok s) ∧
      Settles (fun n => create n b.rule b.start b.zone budget) (.ok t) ∧ InStep V W R a b s t := by
  have hneeds : (!b.start.hasTime && b.rule.freq.isSubDaily) =
      (!a.start.hasTime && a.rule.freq.isSubDaily) := by
    rw [← hab.freq]
    rcases hkind with hkind | hkind
    · rw [hkind]
    · rw [hkind, Bool.and_false, Bool.and_false]
  have hcreate : ∀ n, Option.Rel (Created V W R a b) (create n a.rule a.start a.zone budget)
      (create n b.rule b.start b.zone budget) := by
    intro n
    unfold create
    simp only [show ∀ r start, (Plan.ofRule r start (listStart r start) budget).reachable =
      r.reaches start from fun _ _ => rfl, hneeds, ← hreach]
    split_ifs
    · rw [← hab.freq]
      exact .some (.refused (.refused _))
    · exact .some (.made (abreast_unstarted hab _ _).stop)
    · exact created_ofCandidates hab n (hrun n)
  obtain ⟨x, hx⟩ := Rule.exists_settles_create hr hreal a.zone budget
  obtain ⟨y, hy, hxy⟩ := exists_settles_of_rel hcreate (patient_create b.rule b.start b.zone budget) hx
  cases hxy with
  | refused he => exact .inl ⟨_, _, hx, hy, he⟩
  | made h => exact .inr ⟨_, _, hx, hy, h⟩

/-- Whatever they are asked, series in step have their answers, and these are alike. -/
theorem InStep.exists_askAll (hab : Parallel V W R a b) (hr : a.rule.Valid)
    (hreal : a.start.IsReal) (h : InStep V W R a b s t)
    (hs : Reachable a.rule a.start a.zone budget s) {calls calls' : List CursorCall}
    (hcalls : List.Forall₂ (SameCall W a b) calls calls') : ∃ answers answers' s' t',
      Settles (fun n => (Series.ops n).askAll calls s) (answers, s') ∧
      Settles (fun n => (Series.ops n).askAll calls' t) (answers', t') ∧
      List.Forall₂ (SameReply W a b) answers answers' := by
  obtain ⟨⟨answers, s'⟩, hsettles⟩ := hs.exists_askAll hr hreal calls
  obtain ⟨⟨answers', t'⟩, hsettles', hsame, -⟩ := exists_settles_of_rel
    (fun n => h.askAll hab n hcalls) (patient_askAll calls' t) hsettles
  exact ⟨answers, answers', s', t', hsettles, hsettles', hsame⟩

/-- Series in step return related values, one after another. -/
theorem InStep.returns (hab : Parallel V W R a b) (h : InStep V W R a b s t) {vs : List Value}
    {s' : Series} (hrun : s.Returns vs s') :
    ∃ ws t', List.Forall₂ W vs ws ∧ t.Returns ws t' ∧ InStep V W R a b s' t' := by
  induction hrun generalizing t with
  | nil s => exact ⟨[], t, .nil, .nil t, h⟩
  | @cons s s' s'' v vs n head _ ih =>
    have hnext := h.next hab n
    rw [head] at hnext
    generalize ht : t.next n = y at hnext
    obtain ⟨hw, h'⟩ := hnext
    obtain ⟨ws, t'', hws, hrun', hfinal⟩ := ih h'
    exact ⟨_, t'', .cons hw hws, .cons ht hrun', hfinal⟩

/-- Where one of two series in step ends, the other does. -/
theorem InStep.ends (hab : Parallel V W R a b) (h : InStep V W R a b s t) {s' : Series}
    (hend : s.Ends s') : ∃ t', t.Ends t' := by
  obtain ⟨n, hn⟩ := hend
  have hnext := h.next hab n
  rw [hn, h.rule] at hnext
  generalize ht : t.next n = y at hnext
  obtain ⟨hpq⟩ := hnext
  cases hpq with
  | failed he _ =>
    cases he
    exact ⟨_, n, ht.trans (by rw [h.rule'])⟩

/-- **What one of two series in step plays**, the other plays too, value for related value. -/
theorem InStep.plays (hab : Parallel V W R a b) {f : Value → Value}
    (hf : ∀ u u', W u u' → u' = f u) (h : InStep V W R a b s t) {vs : Values} (hplays : s.Plays vs) :
    t.Plays (vs.map f) := by
  intro n
  obtain ⟨s', hrun, hend⟩ := hplays n
  obtain ⟨ws, t', hws, hrun', h'⟩ := h.returns hab hrun
  rw [eq_map_of_rel hf hws, ← take_map] at hrun'
  refine ⟨t', hrun', fun hnone => ?_⟩
  rw [Stream'.Seq.map_get?, Option.map_eq_none_iff] at hnone
  obtain ⟨s'', hend⟩ := hend hnone
  exact h'.ends hab hend

/-- A series plays something, and one in step with it plays the same, value for related value. -/
theorem InStep.exists_plays (hab : Parallel V W R a b) {f : Value → Value}
    (hf : ∀ u u', W u u' → u' = f u) (hr : a.rule.Valid) (hreal : a.start.IsReal)
    (hs : Reachable a.rule a.start a.zone budget s) (h : InStep V W R a b s t) :
    ∃ vs, s.Plays vs ∧ t.Plays (vs.map f) := by
  obtain ⟨S, -, hlive, -⟩ := hs.live hr hreal
  obtain ⟨vs, hplays⟩ := hlive.exists_plays
  exact ⟨vs, hplays, h.plays hab hf hplays⟩

end Series

/-! ### Rules -/

/-- An error without the text of the rule that it belongs to. -/
def RuleError.withoutText : RuleError → RuleError
  | unreadable fault _ => .unreadable fault none
  | invalid fault _ => .invalid fault none

/-- An error without the text of the rule that it belongs to. -/
def SeriesError.withoutText : SeriesError → SeriesError
  | rule e => .rule e.withoutText
  | noMoreInstances _ => .noMoreInstances none
  | e => e

/-- An answer without the text of the rule that its error belongs to. -/
def CursorAnswer.withoutText : CursorAnswer → CursorAnswer
  | failed e => .failed e.withoutText
  | a => a

/-- No calls tell two rules apart by the series that they make from a start.  Both are refused, or
both make a series, and whatever the two series are asked, in any order, all their answers are the
same, up to the text of the rule in errors. -/
def Rule.AnswersLike (r r' : Rule) (start : Value) (zone : Zone) (budget : Int) : Prop :=
  (∃ e e', Settles (fun n => Series.create n r start zone budget) (.error e) ∧
    Settles (fun n => Series.create n r' start zone budget) (.error e') ∧
    e.withoutText = e'.withoutText) ∨
  ∃ s s', Settles (fun n => Series.create n r start zone budget) (.ok s) ∧
    Settles (fun n => Series.create n r' start zone budget) (.ok s') ∧
    ∀ calls, ∃ answers answers' t t',
      Settles (fun n => (Series.ops n).askAll calls s) (answers, t) ∧
      Settles (fun n => (Series.ops n).askAll calls s') (answers', t') ∧
      answers.map CursorAnswer.withoutText = answers'.map CursorAnswer.withoutText

/-- The same value, which has a property. -/
def Same (P : Value → Prop) (v w : Value) : Prop := v = w ∧ P v

/-- Rules that do the same with the same candidates. -/
structure Rule.ActsLike (P : Value → Prop) (r r' : Rule) : Prop where
  freq : r.freq = r'.freq
  count : r.count = r'.count
  untilBound : r.untilBound = r'.untilBound
  bySetPos : r.bySetPos.isEmpty = r'.bySetPos.isEmpty
  kept : keptOfPeriod r.bySetPos = keptOfPeriod r'.bySetPos
  chooses : ∀ vs : List Value, selectPositions r.bySetPos vs = selectPositions r'.bySetPos vs
  /-- Where periods play a part, the same candidates make up one. -/
  key : r.bySetPos.isEmpty = false → ∀ v w, P v → P w →
    (periodKey r.freq r.weekStart v = periodKey r.freq r.weekStart w ↔
      periodKey r'.freq r'.weekStart v = periodKey r'.freq r'.weekStart w)

/-- Settings of rules that act alike go in step, on the same values. -/
theorem Rule.ActsLike.parallel {P : Value → Prop} (h : r.ActsLike P r')
    (hR : Candidates.Lockstep (Same P) Eq R) (start : Value) (zone : Zone) :
    Series.Parallel (Same P) Eq R ⟨r, start, zone⟩ ⟨r', start, zone⟩ where
  candidates := hR
  freq := h.freq
  counts := by rw [h.count]
  bySetPos := h.bySetPos
  positions := by
    refine ⟨h.kept, fun vs ws hvs => ?_⟩
    rw [← h.chooses]
    exact (samePositions_refl _).chooses vs ws hvs
  key hpos v v' w w' hv hw := by
    obtain ⟨rfl, hv⟩ := hv
    obtain ⟨rfl, hw⟩ := hw
    exact h.key hpos v w hv hw
  ending := by
    refine ⟨by simp only [Ending.ofRule, h.count, h.untilBound], ?_⟩
    rintro last - v _ u _ ⟨rfl, -⟩ rfl
    rfl
  startUtc := .refl _
  toUtc v v' hv := hv.1 ▸ .refl _
  fromUtc u u' hu := hu ▸ .refl _
  lt_iff _ _ _ _ hu hw := hu ▸ hw ▸ .rfl
  key_lt_iff _ _ _ _ hu hw := hu ▸ hw ▸ .rfl

/-- **Rules whose candidates go in step** are not told apart by any calls. -/
theorem Rule.ActsLike.answersLike {P : Value → Prop} (hacts : r.ActsLike P r')
    (hR : Candidates.Lockstep (Same P) Eq R) (hr : r.Valid) (hreal : start.IsReal) (zone : Zone)
    (hreach : r.reaches start = r'.reaches start)
    (hrun : ∀ n, Option.Rel (SameStep R)
      ((r.candidates start budget).run n ((r.candidates start budget).chain.length - 1) 0)
      ((r'.candidates start budget).run n ((r'.candidates start budget).chain.length - 1) 0)) :
    r.AnswersLike r' start zone budget := by
  have hab := hacts.parallel hR start zone
  have herror {e e' : SeriesError} (he : Series.SameError r r' e e') :
      e.withoutText = e'.withoutText := by cases he <;> rfl
  rcases hab.settles hr hreal (.inl rfl) hreach hrun with ⟨e, e', he, he', hsame⟩ | ⟨s, s', hs, hs', h⟩
  · exact .inl ⟨e, e', he, he', herror hsame⟩
  · refine .inr ⟨s, s', hs, hs', fun calls => ?_⟩
    have hcalls : List.Forall₂ (Series.SameCall Eq ⟨r, start, zone⟩ ⟨r', start, zone⟩) calls calls :=
      List.forall₂_same.mpr fun call _ => .refl (by rfl) call
    obtain ⟨n, hn⟩ := hs.exists_bound
    obtain ⟨answers, answers', t, t', hanswers, hanswers', hsame⟩ :=
      h.exists_askAll hab hr hreal (.create hn) hcalls
    refine ⟨answers, answers', t, t', hanswers, hanswers', ?_⟩
    have hreply : ∀ a a', Series.SameReply Eq ⟨r, start, zone⟩ ⟨r', start, zone⟩ a a' →
        a.withoutText = a'.withoutText := by
      intro a a' ha
      cases ha with
      | more _ | moved => rfl
      | value hu => rw [hu]
      | failed he => exact congrArg CursorAnswer.failed (herror he)
    rw [← List.forall₂_eq_eq_eq, List.forall₂_map_left_iff, List.forall₂_map_right_iff]
    exact hsame.imp hreply

end Recurrence
