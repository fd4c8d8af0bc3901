/-
Recurrence/Proofs/Series/Lockstep.lean

Series that go in step.

Two series can be made of different data and answer every call alike all the same: the
generators of their chains do the same things, or their periods are told apart by keys that
tell the same values apart, or all their values lie a fixed span apart.  What has to be shown is
a relation between the candidates of the two that every answer keeps (`Candidates.Lockstep`),
and that whatever looks at the values sees no difference (`Series.Parallel`).  The layers above
then keep the relation too, one function after another and each under every bound: gathering and
choosing, sources, generating, looking, stepping, moving ahead, and at last all calls in any
order (`Series.InStep.askAll`).

Local values are related by `V` and UTC values by `W`, which are equality where both series
answer the very same.  Where nothing is left the relation of the candidates is given up, since
nobody asks again.
-/
import Recurrence.Proofs.Cursor.Calls
import Recurrence.Proofs.Series.Steps

namespace Recurrence

/-! ### Loops -/

section Loops

variable {σ τ β γ : Type*} {R : σ → τ → Prop} {Q : β → γ → Prop}

/-- What two turns come to: related states, or related results. -/
inductive Turn.Rel (R : σ → τ → Prop) (Q : β → γ → Prop) : Turn σ β → Turn τ γ → Prop where
  | again {s : σ} {t : τ} (h : R s t) : Turn.Rel R Q (.again s) (.again t)
  | done {b : β} {c : γ} (h : Q b c) : Turn.Rel R Q (.done b) (.done c)

/-- Loops whose turns keep states related have related answers, under every bound. -/
theorem loop_rel {turn : σ → Option (Turn σ β)} {turn' : τ → Option (Turn τ γ)}
    (h : ∀ s t, R s t → Option.Rel (Turn.Rel R Q) (turn s) (turn' t)) (n : Nat) {s : σ} {t : τ}
    (hs : R s t) : Option.Rel Q (loop turn n s) (loop turn' n t) := by
  induction n generalizing s t with
  | zero => exact .none
  | succ n ih =>
    rw [loop, loop]
    have hturn := h s t hs
    generalize turn s = a at hturn ⊢
    generalize turn' t = b at hturn ⊢
    cases hturn with
    | none => exact .none
    | some hturn =>
      cases hturn with
      | again hs' => exact ih hs'
      | done hb => exact .some hb

end Loops

/-- Related answers of searches, each taken further. -/
theorem rel_map {β γ β' γ' : Type*} {Q : β → γ → Prop} {Q' : β' → γ' → Prop} {f : β → β'}
    {g : γ → γ'} (hfg : ∀ b c, Q b c → Q' (f b) (g c)) {x : Option β} {y : Option γ}
    (h : Option.Rel Q x y) : Option.Rel Q' (x.map f) (y.map g) := by
  cases h with
  | none => exact .none
  | some h => exact .some (hfg _ _ h)

theorem rel_getElem? {α β : Type*} {R : α → β → Prop} {xs : List α} {ys : List β}
    (h : List.Forall₂ R xs ys) (i : Nat) : Option.Rel R xs[i]? ys[i]? := by
  induction h generalizing i with
  | nil => exact .none
  | cons head _ ih =>
    cases i with
    | zero => exact .some head
    | succ i => exact ih i

/-- What two outcomes have in common: related values, or the same error. -/
inductive SameOutcome {α β ε : Type} (W : α → β → Prop) : Except ε α → Except ε β → Prop where
  | ok {a : α} {b : β} (h : W a b) : SameOutcome W (.ok a) (.ok b)
  | error (e : ε) : SameOutcome W (.error e) (.error e)

theorem SameOutcome.refl {α ε : Type} (x : Except ε α) : SameOutcome Eq x x := by
  cases x with
  | ok a => exact .ok rfl
  | error e => exact .error e

/-! ### Choosing among the candidates -/

section Selections

variable {σ τ α β ε κ κ' : Type} {V : α → β → Prop} {R : σ → τ → Prop}

/-- What two sources that agree answer: related values, or the same error, or that nothing is
left.  They stay related unless nothing is left. -/
inductive Agree (V : α → β → Prop) (R : σ → τ → Prop) :
    Except ε (Option α) × σ → Except ε (Option β) × τ → Prop where
  | value {v : α} {w : β} {s : σ} {t : τ} (hv : V v w) (h : R s t) :
      Agree V R (.ok (some v), s) (.ok (some w), t)
  | ended (s : σ) (t : τ) : Agree V R (.ok none, s) (.ok none, t)
  | failed {e : ε} {s : σ} {t : τ} (h : R s t) : Agree V R (.error e, s) (.error e, t)

/-- Positions that select the same of related candidates. -/
structure SamePositions (V : α → β → Prop) (ps ps' : List Int) : Prop where
  kept : keptOfPeriod ps = keptOfPeriod ps'
  chooses : ∀ vs ws, List.Forall₂ V vs ws →
    List.Forall₂ V (selectPositions ps vs) (selectPositions ps' ws)

/-- Positions select related candidates of related ones. -/
theorem samePositions_refl (ps : List Int) : SamePositions V ps ps := by
  refine ⟨rfl, fun vs ws hvs => ?_⟩
  simp only [selectPositions, List.size_toArray, hvs.length_eq, List.getElem?_toArray]
  refine List.rel_filterMap (fun i j hij => ?_) (List.forall₂_same.mpr fun i _ => rfl)
  rw [← hij]
  exact rel_getElem? hvs _

namespace Selection

/-- Selections that choose the same positions and know the same so far. -/
structure InStep (V : α → β → Prop) (R : σ → τ → Prop) (s : Selection σ α) (t : Selection τ β) :
    Prop where
  positions : SamePositions V s.positions t.positions
  uniform : s.uniform = t.uniform
  heldBack : Option.Rel V s.heldBack t.heldBack
  pending : List.Forall₂ V s.pending t.pending
  finished : s.finished = t.finished
  source : s.finished = true ∨ R s.source t.source

/-- What gathering a period comes to on both sides. -/
inductive Gathered (V : α → β → Prop) (R : σ → τ → Prop) :
    Except ε (Period σ α) × σ → Except ε (Period τ β) × τ → Prop where
  | failed {e : ε} {s : σ} {t : τ} (h : R s t) : Gathered V R (.error e, s) (.error e, t)
  | last {vs : List α} {ws : List β} {s s' : σ} {t t' : τ} (h : List.Forall₂ V vs ws) :
      Gathered V R (.ok ⟨s, vs, none⟩, s') (.ok ⟨t, ws, none⟩, t')
  | more {vs : List α} {ws : List β} {v : α} {w : β} {s s' : σ} {t t' : τ}
      (h : List.Forall₂ V vs ws) (hv : V v w) (hs : R s t) :
      Gathered V R (.ok ⟨s, vs, some v⟩, s') (.ok ⟨t, ws, some w⟩, t')

/-- What collecting a period comes to on both sides.  Where there was none, the selections are
only in step once they have stopped. -/
inductive Collected (V : α → β → Prop) (R : σ → τ → Prop) :
    Except ε (List α) × Selection σ α → Except ε (List β) × Selection τ β → Prop where
  | failed {e : ε} {s : Selection σ α} {t : Selection τ β} (h : s.InStep V R t) :
      Collected V R (.error e, s) (.error e, t)
  | ended {s : Selection σ α} {t : Selection τ β}
      (h : { s with finished := true }.InStep V R { t with finished := true }) :
      Collected V R (.ok [], s) (.ok [], t)
  | period {vs : List α} {ws : List β} {s : Selection σ α} {t : Selection τ β}
      (hvs : List.Forall₂ V vs ws) (h : s.InStep V R t) : Collected V R (.ok vs, s) (.ok ws, t)

variable {ask : NextOf σ α ε} {ask' : NextOf τ β ε} {credit : σ → σ} {credit' : τ → τ}
  {key : α → κ} {key' : β → κ'} {s : Selection σ α} {t : Selection τ β}

section

variable [DecidableEq κ] [DecidableEq κ']
  (hask : ∀ x y, R x y → Option.Rel (Agree V R) (ask x) (ask' y))
  (hkey : ∀ v v' w w', V v v' → V w w' → (key v = key w ↔ key' v' = key' w'))

include hask hkey

/-- **Gathering in step.**  The keys need not be the same, but must tell the same values
apart. -/
theorem gather_rel {v : α} {v' : β} (hv : V v v') (n : Nat) {x : σ} {y : τ} (h : R x y)
    {vs : List α} {ws : List β} (hvs : List.Forall₂ V vs ws) (room : Option Nat) :
    Option.Rel (Gathered V R) (loop (gatherTurn ask key (key v)) n ⟨x, vs, room⟩)
      (loop (gatherTurn ask' key' (key' v')) n ⟨y, ws, room⟩) := by
  refine loop_rel
    (R := fun g g' => R g.source g'.source ∧ List.Forall₂ V g.kept g'.kept ∧ g.room = g'.room)
    ?_ n ⟨h, hvs, rfl⟩
  rintro ⟨x, vs, room⟩ ⟨y, ws, _⟩ ⟨h, hvs, rfl⟩
  have hxy := hask x y h
  simp only [gatherTurn]
  generalize ask x = a at hxy ⊢
  generalize ask' y = b at hxy ⊢
  cases hxy with
  | none => exact .none
  | some hab =>
    cases hab with
    | failed h => exact .some (.done (.failed h))
    | ended => exact .some (.done (.last (List.rel_reverse hvs)))
    | @value w w' x' y' hw h' =>
      by_cases hk : key w = key v
      · have hk' := (hkey w w' v v' hw hv).mp hk
        simp only [hk, hk', ne_eq, not_true_eq_false, if_false]
        rcases room with _ | _ | room
        · exact .some (.again ⟨h', .cons hw hvs, rfl⟩)
        · exact .some (.again ⟨h', hvs, rfl⟩)
        · exact .some (.again ⟨h', .cons hw hvs, rfl⟩)
      · have hk' := mt (hkey w w' v v' hw hv).mpr hk
        simp only [ne_eq, hk, hk', not_false_eq_true, if_true]
        exact .some (.done (.more (List.rel_reverse hvs) hw h'))

/-- **Collecting in step.** -/
theorem InStep.collect (n : Nat) (h : s.InStep V R t) (hfinished : s.finished = false) :
    Option.Rel (Collected V R) (s.collect ask key n) (t.collect ask' key' n) := by
  have hsource : R s.source t.source := h.source.resolve_left (by simp [hfinished])
  have hfirst : Option.Rel (Agree V R) (s.first ask) (t.first ask') := by
    have hheld := h.heldBack
    unfold first
    generalize s.heldBack = a at hheld ⊢
    generalize t.heldBack = b at hheld ⊢
    cases hheld with
    | none => exact hask _ _ hsource
    | some hv => exact .some (.value hv hsource)
  unfold Selection.collect
  rw [← h.positions.kept, ← h.finished]
  generalize s.first ask = a at hfirst ⊢
  generalize t.first ask' = b at hfirst ⊢
  cases hfirst with
  | none => exact .none
  | some hab =>
    cases hab with
    | failed hxy =>
      exact .some (.failed { h with heldBack := .none, finished := rfl, source := .inr hxy })
    | ended => exact .some (.ended { h with heldBack := .none, finished := rfl, source := .inl rfl })
    | @value v v' x y hv hxy =>
      dsimp only
      have hloop := gather_rel hask hkey hv n hxy (.cons hv .nil)
        ((keptOfPeriod s.positions).map fun n => n - 1)
      generalize loop _ n _ = a at hloop ⊢
      generalize loop _ n _ = b at hloop ⊢
      cases hloop with
      | none => exact .none
      | some hab =>
        cases hab with
        | failed hxy =>
          exact .some (.failed { h with heldBack := .none, finished := rfl, source := .inr hxy })
        | last hvs =>
          exact .some (.period hvs
            { h with heldBack := .none, finished := rfl, source := by simp })
        | more hvs hw hxy =>
          exact .some (.period hvs
            { h with heldBack := .some hw, finished := rfl, source := .inr hxy })

variable (hcredit : ∀ x y, R x y → R (credit x) (credit' y))

include hcredit

/-- **Selections in step** hand out related values, and stay in step. -/
theorem InStep.next (n : Nat) (h : s.InStep V R t) :
    Option.Rel (Agree V (InStep V R)) (s.next ask credit key n) (t.next ask' credit' key' n) := by
  refine loop_rel (R := InStep V R) (fun s t h => ?_) n h
  have hpending := h.pending
  unfold turn
  rw [← h.finished]
  cases hs : s.pending with
  | cons v vs =>
    rw [hs] at hpending
    generalize t.pending = ws at hpending ⊢
    obtain _ | ⟨hv, hvs⟩ := hpending
    exact .some (.done (.value hv { h with pending := hvs, finished := rfl }))
  | nil =>
    rw [hs] at hpending
    rw [List.forall₂_nil_left_iff.mp hpending]
    cases hfinished : s.finished with
    | true => exact .some (.done (.ended _ _))
    | false =>
      have hcollect := h.collect hask hkey n hfinished
      dsimp only
      rw [if_neg (by simp), if_neg (by simp)]
      generalize s.collect ask key n = a at hcollect ⊢
      generalize t.collect ask' key' n = b at hcollect ⊢
      cases hcollect with
      | none => exact .none
      | some hab =>
        cases hab with
        | failed h => exact .some (.done (.failed h))
        | ended h => exact .some (.done (.ended _ _))
        | @period vs ws s₁ t₁ hvs h₁ =>
          have hselected := h₁.positions.chooses vs ws hvs
          have hempty : vs.isEmpty = ws.isEmpty := by cases hvs <;> rfl
          dsimp only
          rw [← h₁.uniform, ← hempty]
          cases vs.isEmpty with
          | true => exact .some (.done (.ended _ _))
          | false =>
            simp only [Bool.false_eq_true, if_false]
            generalize selectPositions s₁.positions vs = xs at hselected ⊢
            generalize selectPositions t₁.positions ws = ys at hselected ⊢
            cases hselected with
            | nil =>
              cases s₁.uniform with
              | true => exact .some (.done (.ended _ _))
              | false => exact .some (.again h₁)
            | cons hv hvs =>
              exact .some (.again
                { h₁ with
                  pending := .cons hv hvs, uniform := rfl,
                  source := h₁.source.imp_right (hcredit _ _) })

end

end Selection

end Selections

/-! ### Candidates and sources -/

/-- What two runs come to: the same outcome, and related states unless the years give up. -/
def SameStep {σ τ : Type} (R : σ → τ → Prop) (x : Step × σ) (y : Step × τ) : Prop :=
  x.1 = y.1 ∧ (x.1 = .halt ∨ R x.2 y.2)

variable {V W : Value → Value → Prop} {R : Candidates → Candidates → Prop}

/-- Candidates that answer alike and stay related, whatever they are asked. -/
structure Candidates.Lockstep (V W : Value → Value → Prop) (R : Candidates → Candidates → Prop) :
    Prop where
  next : ∀ n c c', R c c' → Option.Rel (Agree V R) (c.next n) (c'.next n)
  credit : ∀ c c', R c c' → R (c.credit 0) (c'.credit 0)
  skipMonths : ∀ n l l' c c', W l l' → R c c' →
    Option.Rel (SameStep R) (Series.skipMonths n c l) (Series.skipMonths n c' l')

/-- Endings that count alike, or have a bound that related instances pass alike. -/
def Ending.Alike (V W : Value → Value → Prop) (e e' : Ending) : Prop :=
  e = e' ∧ ∀ last, e = .untilBound last → ∀ v v' u u', V v v' → W u u' →
    withinBound last v u = withinBound last v' u'

/-- Endings that are alike judge related instances alike, and stay alike. -/
theorem Ending.Alike.check {e e' : Ending} (h : e.Alike V W e') {v v' u u' : Value} (hv : V v v')
    (hu : W u u') : (e.check v u).1 = (e'.check v' u').1 ∧
      (e.check v u).2.Alike V W (e'.check v' u').2 := by
  obtain ⟨rfl, hbound⟩ := h
  cases e with
  | never => exact ⟨rfl, rfl, hbound⟩
  | count m => exact ⟨rfl, rfl, fun last hlast => absurd hlast (by simp [Ending.check])⟩
  | untilBound last => exact ⟨hbound last rfl v v' u u' hv hu, rfl, hbound⟩

/-- Only the bound of a rule can bound its series. -/
theorem Ending.untilBound_of_ofRule {r : Rule} {last : Value} (h : ofRule r = .untilBound last) :
    r.untilBound = some last := by
  unfold ofRule at h
  split at h
  · exact absurd h (by simp)
  · next hlast =>
    obtain rfl := Ending.untilBound.inj h
    exact hlast
  · exact absurd h (by simp)

/-- What a series is made from, apart from its budget. -/
structure Series.Setting where
  rule : Rule
  start : Value
  zone : Zone

/-- Two settings of series that go in step: their candidates do, and nothing that looks at the
values, be it the period of a candidate, its place among others or the end of the series, tells
related values apart. -/
structure Series.Parallel (V W : Value → Value → Prop) (R : Candidates → Candidates → Prop)
    (a b : Setting) : Prop where
  candidates : Candidates.Lockstep V W R
  freq : a.rule.freq = b.rule.freq
  counts : a.rule.count.isNone = b.rule.count.isNone
  bySetPos : a.rule.bySetPos.isEmpty = b.rule.bySetPos.isEmpty
  positions : SamePositions V a.rule.bySetPos b.rule.bySetPos
  /-- Where periods play a part, related candidates make up one. -/
  key : a.rule.bySetPos.isEmpty = false → ∀ v v' w w', V v v' → V w w' →
    (periodKey a.rule.freq a.rule.weekStart v = periodKey a.rule.freq a.rule.weekStart w ↔
      periodKey b.rule.freq b.rule.weekStart v' = periodKey b.rule.freq b.rule.weekStart w')
  ending : (Ending.ofRule a.rule).Alike V W (.ofRule b.rule)
  startUtc : SameOutcome W (a.start.toUtc a.zone) (b.start.toUtc b.zone)
  toUtc : ∀ v v', V v v' → SameOutcome W (v.toUtc a.zone) (v'.toUtc b.zone)
  fromUtc : ∀ u u', W u u' → SameOutcome W (u.fromUtc a.zone) (u'.fromUtc b.zone)
  lt_iff : ∀ u u' w w', W u u' → W w w' → (u < w ↔ u' < w')
  key_lt_iff : ∀ u u' w w', W u u' → W w w' → (u.key < w.key ↔ u'.key < w'.key)

/-- Sources of two rules over related candidates.  Only rules with positions select. -/
inductive InstanceSource.InStep (V : Value → Value → Prop) (R : Candidates → Candidates → Prop)
    (r : Rule) : InstanceSource → InstanceSource → Prop where
  | plain {c c' : Candidates} (h : R c c') : InStep V R r (.plain c) (.plain c')
  | selected {s s' : Selection Candidates Value} (hpos : r.bySetPos.isEmpty = false)
      (h : s.InStep V R s') : InStep V R r (.selected s) (.selected s')

namespace Series

variable {a b : Setting} {s t : Series} {n : Nat}

/-- **Sources in step** hand out related values, and stay in step. -/
theorem Parallel.sourceNext (h : Parallel V W R a b) (n : Nat) {x y : InstanceSource}
    (hxy : x.InStep V R a.rule y) :
    Option.Rel (Agree V (InstanceSource.InStep V R a.rule)) (x.next a.rule n) (y.next b.rule n) := by
  cases hxy with
  | plain hc =>
    refine rel_map (fun p q hpq => ?_) (h.candidates.next n _ _ hc)
    cases hpq with
    | value hv h => exact .value hv (.plain h)
    | ended => exact .ended _ _
    | failed h => exact .failed (.plain h)
  | selected hpos hs =>
    refine rel_map (fun p q hpq => ?_)
      (hs.next (h.candidates.next n) (h.key hpos) h.candidates.credit n)
    cases hpq with
    | value hv h => exact .value hv (.selected hpos h)
    | ended => exact .ended _ _
    | failed h => exact .failed (.selected hpos h)

theorem Parallel.sourceOf (h : Parallel V W R a b) {c c' : Candidates} (hc : R c c') :
    (sourceOf a.rule c).InStep V R a.rule (Series.sourceOf b.rule c') := by
  unfold Series.sourceOf
  rw [← h.bySetPos]
  split_ifs with hpos
  · exact .plain hc
  · refine .selected (by simpa using hpos) ⟨h.positions, ?_, .none, .nil, rfl, .inr hc⟩
    simp only [hasUniformPeriods, h.freq]

/-! ### Series -/

/-- Errors that differ at most in the text of the rule that they belong to. -/
inductive SameError (r r' : Rule) : SeriesError → SeriesError → Prop where
  | conversion (e : ConversionError) : SameError r r' (.conversion e) (.conversion e)
  | undefined (why : Undefined) : SameError r r' (.undefined why) (.undefined why)
  | ended : SameError r r' (.noMoreInstances (some r.text)) (.noMoreInstances (some r'.text))
  | refused (fault : ValidityFault) :
      SameError r r' (.rule (.invalid fault (some r.text))) (.rule (.invalid fault (some r'.text)))

/-- Series of two settings that have come equally far, whatever their sources are. -/
structure Abreast (V W : Value → Value → Prop) (a b : Setting) (s t : Series) : Prop where
  rule : s.rule = a.rule
  rule' : t.rule = b.rule
  start : s.start = a.start
  start' : t.start = b.start
  zone : s.zone = a.zone
  zone' : t.zone = b.zone
  ending : s.ending.Alike V W t.ending
  lastKey : Option.Rel (fun k k' => ∃ u u', W u u' ∧ k = u.key ∧ k' = u'.key) s.lastKey t.lastKey
  pending : Option.Rel W s.pending t.pending
  finished : s.finished = t.finished

/-- Series that have come equally far, and whose sources are in step. -/
structure Runs (V W : Value → Value → Prop) (R : Candidates → Candidates → Prop) (a b : Setting)
    (s t : Series) : Prop extends Abreast V W a b s t where
  source : s.source.InStep V R a.rule t.source

/-- Series that have come equally far, and whose sources are in step as long as they are asked. -/
structure InStep (V W : Value → Value → Prop) (R : Candidates → Candidates → Prop) (a b : Setting)
    (s t : Series) : Prop extends Abreast V W a b s t where
  source : s.finished = true ∨ s.source.InStep V R a.rule t.source

/-- What generating an instance comes to on both sides. -/
inductive Generated (V W : Value → Value → Prop) (R : Candidates → Candidates → Prop)
    (a b : Setting) : Except SeriesError (Option (Value × Value)) × Series →
      Except SeriesError (Option (Value × Value)) × Series → Prop where
  | found {v v' u u' : Value} {s t : Series} (hv : V v v') (hu : W u u') (h : Runs V W R a b s t) :
      Generated V W R a b (.ok (some (v, u)), s) (.ok (some (v', u')), t)
  | ended {s t : Series} (h : Abreast V W a b s t) :
      Generated V W R a b (.ok none, s) (.ok none, t)
  | failed {e e' : SeriesError} {s t : Series} (he : SameError a.rule b.rule e e')
      (h : Runs V W R a b s t) : Generated V W R a b (.error e, s) (.error e', t)

/-- Related answers of series that stay in step. -/
inductive Answered {α : Type} (A : α → α → Prop) (V W : Value → Value → Prop)
    (R : Candidates → Candidates → Prop) (a b : Setting) :
    Except SeriesError α × Series → Except SeriesError α × Series → Prop where
  | ok {x y : α} {s t : Series} (hxy : A x y) (h : InStep V W R a b s t) :
      Answered A V W R a b (.ok x, s) (.ok y, t)
  | failed {e e' : SeriesError} {s t : Series} (he : SameError a.rule b.rule e e')
      (h : InStep V W R a b s t) : Answered A V W R a b (.error e, s) (.error e', t)

theorem Runs.inStep (h : Runs V W R a b s t) : InStep V W R a b s t :=
  { h with source := .inr h.source }

theorem Abreast.stop (h : Abreast V W a b s t) :
    InStep V W R a b { s with finished := true } { t with finished := true } :=
  { h with finished := rfl, source := .inl rfl }

theorem InStep.runs (h : InStep V W R a b s t) (hgoes : s.finished = false) :
    Runs V W R a b s t :=
  { h with source := h.source.resolve_left (by simp [hgoes]) }

theorem InStep.hold (h : InStep V W R a b s t) {p p' : Option Value} (hp : Option.Rel W p p') :
    InStep V W R a b { s with pending := p } { t with pending := p' } :=
  { h with pending := hp }

theorem Runs.hold (h : Runs V W R a b s t) {p p' : Option Value} (hp : Option.Rel W p p') :
    Runs V W R a b { s with pending := p } { t with pending := p' } :=
  { h with pending := hp }

theorem Abreast.isNone_pending (h : Abreast V W a b s t) : s.pending.isNone = t.pending.isNone := by
  have hp := h.pending
  generalize s.pending = p at hp ⊢
  generalize t.pending = p' at hp ⊢
  cases hp <;> rfl

theorem Abreast.isSome_pending (h : Abreast V W a b s t) : s.pending.isSome = t.pending.isSome := by
  rw [← Option.not_isNone, ← Option.not_isNone, h.isNone_pending]

/-- Judging in step. -/
theorem Runs.judge (h : Runs V W R a b s t) {v v' u u' : Value} (hv : V v v') (hu : W u u') :
    (s.judge v u).1 = (t.judge v' u').1 ∧ Runs V W R a b (s.judge v u).2 (t.judge v' u').2 := by
  obtain ⟨hpasses, hending⟩ := h.ending.check hv hu
  simp only [judge_eq, ← hpasses]
  split_ifs
  · exact ⟨rfl, { h with ending := hending, pending := .some hu }⟩
  · exact ⟨rfl, { h with ending := hending, finished := rfl }⟩

section

variable (hab : Parallel V W R a b)

include hab

/-- **Generating in step.** -/
theorem Runs.generate (n : Nat) (h : Runs V W R a b s t) :
    Option.Rel (Generated V W R a b) (s.generate n) (t.generate n) := by
  refine loop_rel (R := Runs V W R a b) (fun s t h => ?_) n h
  have hnext : Option.Rel (Agree V (InstanceSource.InStep V R a.rule)) (s.source.next s.rule n)
      (t.source.next t.rule n) := by
    rw [h.rule, h.rule']
    exact hab.sourceNext n h.source
  simp only [attempt]
  generalize s.source.next s.rule n = p at hnext ⊢
  generalize t.source.next t.rule n = q at hnext ⊢
  cases hnext with
  | none => exact .none
  | some hpq =>
    cases hpq with
    | failed hx => exact .some (.done (.failed (.undefined _) { h with source := hx }))
    | ended => exact .some (.done (.ended { h with }))
    | @value v v' x y hv hx =>
      have hutc : SameOutcome W (v.toUtc s.zone) (v'.toUtc t.zone) := by
        rw [h.zone, h.zone']
        exact hab.toUtc v v' hv
      dsimp only
      generalize v.toUtc s.zone = p at hutc ⊢
      generalize v'.toUtc t.zone = q at hutc ⊢
      cases hutc with
      | error e => exact .some (.done (.failed (.conversion e) { h with source := hx }))
      | @ok u u' hu =>
        have hfound : Runs V W R a b
            { s with source := x, lastKey := some u.key }
            { t with source := y, lastKey := some u'.key } :=
          { h with source := hx, lastKey := .some ⟨u, u', hu, rfl, rfl⟩ }
        have hlast := h.lastKey
        dsimp only
        generalize s.lastKey = k at hlast ⊢
        generalize t.lastKey = k' at hlast ⊢
        cases hlast with
        | none => exact .some (.done (.found hv hu hfound))
        | some hk =>
          obtain ⟨w, w', hw, rfl, rfl⟩ := hk
          dsimp only
          by_cases hlt : w.key < u.key
          · rw [if_pos hlt, if_pos ((hab.key_lt_iff w w' u u' hw hu).mp hlt)]
            exact .some (.done (.found hv hu hfound))
          · rw [if_neg hlt, if_neg (mt (hab.key_lt_iff w w' u u' hw hu).mpr hlt)]
            exact .some (.again { h with source := hx, lastKey := .some ⟨w, w', hw, rfl, rfl⟩ })

/-- **Looking in step.** -/
theorem InStep.hasNext (n : Nat) (h : InStep V W R a b s t) :
    Option.Rel (Answered Eq V W R a b) (s.hasNext n) (t.hasNext n) := by
  unfold Series.hasNext
  rw [← h.isNone_pending, ← h.isSome_pending, ← h.finished]
  split_ifs with hlooks
  · have hgoes : s.finished = false := by simpa using (Bool.and_eq_true_iff.mp hlooks).2
    have hgenerate := (h.runs hgoes).generate hab n
    generalize s.generate n = p at hgenerate ⊢
    generalize t.generate n = q at hgenerate ⊢
    cases hgenerate with
    | none => exact .none
    | some hpq =>
      cases hpq with
      | failed he h => exact .some (.failed he h.inStep)
      | ended h => exact .some (.ok h.isSome_pending h.stop)
      | found hv hu h =>
        have hjudge := (h.judge hv hu).2
        exact .some (.ok hjudge.isSome_pending hjudge.inStep)
  · exact .some (.ok rfl h)

/-- **Stepping in step.** -/
theorem InStep.next (n : Nat) (h : InStep V W R a b s t) :
    Option.Rel (Answered W V W R a b) (s.next n) (t.next n) := by
  have hlook := h.hasNext hab n
  unfold Series.next
  generalize s.hasNext n = p at hlook ⊢
  generalize t.hasNext n = q at hlook ⊢
  cases hlook with
  | none => exact .none
  | some hpq =>
    cases hpq with
    | failed he h => exact .some (.failed he h)
    | @ok _ _ s₁ t₁ _ h =>
      have hpending := h.pending
      have hdrop : InStep V W R a b { s₁ with pending := none } { t₁ with pending := none } :=
        h.hold .none
      dsimp only
      generalize hs : s₁.pending = p at hpending ⊢
      generalize ht : t₁.pending = p' at hpending ⊢
      cases hpending with
      | none =>
        rw [h.rule, h.rule']
        exact .some (.failed .ended h)
      | some hu => exact .some (.ok hu hdrop)

/-! ### Moving ahead -/

/-- Passing over months in step, unless this ends the series. -/
theorem Runs.passOver (n : Nat) {x x' : Value} (hx : W x x') (h : Runs V W R a b s t) :
    Option.Rel (Answered Eq V W R a b) (s.passOver n x) (t.passOver n x') := by
  have hlocal : SameOutcome W (x.fromUtc s.zone) (x'.fromUtc t.zone) := by
    rw [h.zone, h.zone']
    exact hab.fromUtc x x' hx
  have hstays := h.inStep
  have hsource := h.source
  unfold Series.passOver
  generalize hs : s.source = y at hsource ⊢
  generalize ht : t.source = y' at hsource ⊢
  cases hsource with
  | selected hpos _ => exact .some (.ok rfl hstays)
  | @plain c c' hc =>
    dsimp only
    generalize x.fromUtc s.zone = p at hlocal ⊢
    generalize x'.fromUtc t.zone = q at hlocal ⊢
    cases hlocal with
    | error e => exact .some (.failed (.conversion e) hstays)
    | @ok l l' hl =>
      dsimp only
      have hskip := hab.candidates.skipMonths n l l' c c' hl hc
      generalize skipMonths n c l = p at hskip ⊢
      generalize skipMonths n c' l' = q at hskip ⊢
      cases hskip with
      | none => exact .none
      | @some p q hpq =>
        obtain ⟨step, c₁⟩ := p
        obtain ⟨step', c₁'⟩ := q
        obtain ⟨hstep, hc₁⟩ := hpq
        obtain rfl : step = step' := hstep
        cases step with
        | value =>
          exact .some (.ok rfl { h with source := .inr (.plain (hc₁.resolve_left (by simp))) })
        | undefined why =>
          exact .some (.failed (.undefined why)
            { h with source := .inr (.plain (hc₁.resolve_left (by simp))) })
        | rollover => exact .some (.ok rfl { h with finished := rfl, source := .inl rfl })
        | halt => exact .some (.ok rfl { h with finished := rfl, source := .inl rfl })

/-- Skipping turn by turn in step. -/
theorem Runs.skip (n : Nat) {x x' : Value} (hx : W x x') (h : Runs V W R a b s t) :
    Option.Rel (Answered Eq V W R a b) (loop (skipTurn n x) n s) (loop (skipTurn n x') n t) := by
  refine loop_rel (R := Runs V W R a b) (fun s t h => ?_) n h
  have hgenerate := h.generate hab n
  simp only [skipTurn]
  generalize s.generate n = p at hgenerate ⊢
  generalize t.generate n = q at hgenerate ⊢
  cases hgenerate with
  | none => exact .none
  | some hpq =>
    cases hpq with
    | failed he h => exact .some (.done (.failed he h.inStep))
    | ended h => exact .some (.done (.ok rfl h.stop))
    | @found v v' u u' s₁ t₁ hv hu h =>
      obtain ⟨hpasses, hjudge⟩ := h.judge hv hu
      simp only [hpasses, hab.lt_iff u u' x x' hu hx]
      split_ifs
      · exact .some (.again (hjudge.hold .none))
      · exact .some (.done (.ok rfl hjudge.inStep))

theorem InStep.skipTo (n : Nat) {x x' : Value} (hx : W x x') (h : InStep V W R a b s t) :
    Option.Rel (Answered Eq V W R a b) (s.skipTo n x) (t.skipTo n x') := by
  have hskips : s.skipsMonths = t.skipsMonths := by
    simp only [skipsMonths, h.rule, h.rule', hab.counts, hab.bySetPos]
  unfold Series.skipTo
  rw [← h.finished, ← hskips]
  cases hfinished : s.finished with
  | true => exact .some (.ok rfl h)
  | false =>
    have hruns := h.runs hfinished
    simp only [Bool.false_eq_true, if_false]
    cases s.skipsMonths with
    | true =>
      have hpass := hruns.passOver hab n hx
      simp only [if_true]
      generalize s.passOver n x = p at hpass ⊢
      generalize t.passOver n x' = q at hpass ⊢
      cases hpass with
      | none => exact .none
      | some hpq =>
        cases hpq with
        | failed he h => exact .some (.failed he h)
        | @ok _ _ s₁ t₁ _ h =>
          dsimp only
          rw [← h.finished]
          split_ifs with hends
          · exact .some (.ok rfl h)
          · exact (h.runs (by simpa using hends)).skip hab n hx
    | false =>
      simp only [Bool.false_eq_true, if_false, ← h.finished, hfinished]
      exact hruns.skip hab n hx

/-- **Moving ahead in step**, to targets that are rounded to related ones. -/
theorem InStep.advanceTo (n : Nat) {x x' : Value} (hx : W (s.roundTarget x) (t.roundTarget x'))
    (h : InStep V W R a b s t) :
    Option.Rel (Answered Eq V W R a b) (s.advanceTo n x) (t.advanceTo n x') := by
  have hpending := h.pending
  unfold Series.advanceTo
  generalize s.roundTarget x = y at hx ⊢
  generalize t.roundTarget x' = y' at hx ⊢
  cases hs : s.pending with
  | none =>
    rw [hs] at hpending
    generalize t.pending = p' at hpending ⊢
    cases hpending
    exact h.skipTo hab n hx
  | some u =>
    rw [hs] at hpending
    generalize ht : t.pending = p' at hpending ⊢
    obtain ⟨hu⟩ := hpending
    rename_i u'
    dsimp only
    by_cases hlt : u < y
    · rw [if_pos hlt, if_pos ((hab.lt_iff u u' y y' hu hx).mp hlt)]
      exact (h.hold .none).skipTo hab n hx
    · rw [if_neg hlt, if_neg (mt (hab.lt_iff u u' y y' hu hx).mpr hlt)]
      exact .some (.ok rfl h)

/-! ### Calls -/

omit hab in
/-- Calls that ask for the same of two settings: targets are rounded to related values. -/
inductive SameCall (W : Value → Value → Prop) (a b : Setting) : CursorCall → CursorCall → Prop where
  | hasNext : SameCall W a b .hasNext .hasNext
  | next : SameCall W a b .next .next
  | advanceTo {x x' : Value} (h : ∀ s t : Series, s.start = a.start → t.start = b.start →
      W (s.roundTarget x) (t.roundTarget x')) : SameCall W a b (.advanceTo x) (.advanceTo x')

omit hab in
/-- Settings with the same start are asked for the same by the same call. -/
theorem SameCall.refl (hstart : a.start = b.start) (call : CursorCall) : SameCall Eq a b call call := by
  cases call with
  | hasNext => exact .hasNext
  | next => exact .next
  | advanceTo x =>
    refine .advanceTo fun s t hs ht => ?_
    unfold roundTarget hasTime
    rw [hs, ht, hstart]

/-- Answers that are alike: values are related, and errors differ at most in the text of the rule
that they belong to. -/
inductive SameReply (W : Value → Value → Prop) (a b : Setting) :
    CursorAnswer → CursorAnswer → Prop where
  | more (another : Bool) : SameReply W a b (.more another) (.more another)
  | value {u u' : Value} (h : W u u') : SameReply W a b (.value u) (.value u')
  | moved : SameReply W a b .moved .moved
  | failed {e e' : SeriesError} (h : SameError a.rule b.rule e e') :
      SameReply W a b (.failed e) (.failed e')

/-- **A call in step.** -/
theorem InStep.ask (n : Nat) {call call' : CursorCall} (hcall : SameCall W a b call call')
    (h : InStep V W R a b s t) :
    Option.Rel (fun x y => SameReply W a b x.1 y.1 ∧ InStep V W R a b x.2 y.2)
      ((Series.ops n).ask call s) ((Series.ops n).ask call' t) := by
  cases hcall with
  | hasNext =>
    refine rel_map (fun p q hpq => ?_) (h.hasNext hab n)
    cases hpq with
    | @ok x _ _ _ hxy h => exact ⟨hxy ▸ .more x, h⟩
    | failed he h => exact ⟨.failed he, h⟩
  | next =>
    refine rel_map (fun p q hpq => ?_) (h.next hab n)
    cases hpq with
    | ok hu h => exact ⟨.value hu, h⟩
    | failed he h => exact ⟨.failed he, h⟩
  | advanceTo hx =>
    refine rel_map (fun p q hpq => ?_) (h.advanceTo hab n (hx s t h.start h.start'))
    cases hpq with
    | ok _ h => exact ⟨.moved, h⟩
    | failed he h => exact ⟨.failed he, h⟩

/-- **All calls in step**, one after another and in any order. -/
theorem InStep.askAll (n : Nat) {calls calls' : List CursorCall}
    (hcalls : List.Forall₂ (SameCall W a b) calls calls') (h : InStep V W R a b s t) :
    Option.Rel (fun x y => List.Forall₂ (SameReply W a b) x.1 y.1 ∧ InStep V W R a b x.2 y.2)
      ((Series.ops n).askAll calls s) ((Series.ops n).askAll calls' t) := by
  induction hcalls generalizing s t with
  | nil => exact .some ⟨.nil, h⟩
  | @cons call call' calls calls' hcall _ ih =>
    have hask := h.ask hab n hcall
    unfold CursorOps.askAll
    generalize (Series.ops n).ask call s = p at hask ⊢
    generalize (Series.ops n).ask call' t = q at hask ⊢
    cases hask with
    | none => exact .none
    | some hpq => exact rel_map (fun p q hrest => ⟨.cons hpq.1 hrest.1, hrest.2⟩) (ih hpq.2)

/-! ### Starting -/

/-- What creating a series comes to on both sides. -/
inductive Created (V W : Value → Value → Prop) (R : Candidates → Candidates → Prop)
    (a b : Setting) : Except SeriesError Series → Except SeriesError Series → Prop where
  | refused {e e' : SeriesError} (h : SameError a.rule b.rule e e') :
      Created V W R a b (.error e) (.error e')
  | made {s t : Series} (h : InStep V W R a b s t) : Created V W R a b (.ok s) (.ok t)

theorem abreast_unstarted (c c' : Candidates) : Abreast V W a b
    (unstarted a.rule a.start a.zone c) (unstarted b.rule b.start b.zone c') where
  rule := rfl
  rule' := rfl
  start := rfl
  start' := rfl
  zone := rfl
  zone' := rfl
  ending := hab.ending
  lastKey := .none
  pending := .none
  finished := rfl

/-- Dropping the instances before the start in step. -/
theorem Runs.drop (n : Nat) {x x' : Value} (hx : W x x') (h : Runs V W R a b s t) :
    Option.Rel (Answered Eq V W R a b) (loop (startTurn n x) n s) (loop (startTurn n x') n t) := by
  refine loop_rel (R := Runs V W R a b) (fun s t h => ?_) n h
  have hgenerate := h.generate hab n
  simp only [startTurn]
  generalize s.generate n = p at hgenerate ⊢
  generalize t.generate n = q at hgenerate ⊢
  cases hgenerate with
  | none => exact .none
  | some hpq =>
    cases hpq with
    | failed he h => exact .some (.done (.failed he h.inStep))
    | ended h => exact .some (.done (.ok rfl h.stop))
    | @found v v' u u' s₁ t₁ hv hu h =>
      simp only [hab.lt_iff u u' x x' hu hx]
      split_ifs
      · exact .some (.again h)
      · exact .some (.done (.ok rfl (h.judge hv hu).2.inStep))

/-- **Starting in step**, from candidates that the first run leaves related. -/
theorem created_ofCandidates (n : Nat) {c c' : Candidates}
    (hrun : Option.Rel (SameStep R) (c.run n (c.chain.length - 1) 0)
      (c'.run n (c'.chain.length - 1) 0)) :
    Option.Rel (Created V W R a b) (ofCandidates n a.rule a.start a.zone c)
      (ofCandidates n b.rule b.start b.zone c') := by
  unfold ofCandidates
  generalize c.run n (c.chain.length - 1) 0 = p at hrun ⊢
  generalize c'.run n (c'.chain.length - 1) 0 = q at hrun ⊢
  cases hrun with
  | none => exact .none
  | @some p q hpq =>
    obtain ⟨step, c₁⟩ := p
    obtain ⟨step', c₁'⟩ := q
    obtain ⟨hstep, hc⟩ := hpq
    obtain rfl : step = step' := hstep
    cases step with
    | undefined why => exact .some (.refused (.undefined why))
    | rollover => exact .some (.made (abreast_unstarted hab c₁ c₁').stop)
    | halt => exact .some (.made (abreast_unstarted hab c₁ c₁').stop)
    | value =>
      have hstart := hab.startUtc
      dsimp only
      generalize a.start.toUtc a.zone = p at hstart ⊢
      generalize b.start.toUtc b.zone = q at hstart ⊢
      cases hstart with
      | error e => exact .some (.refused (.conversion e))
      | @ok x x' hx =>
        have hruns : Runs V W R a b (unstarted a.rule a.start a.zone c₁)
            (unstarted b.rule b.start b.zone c₁') :=
          { abreast_unstarted hab c₁ c₁' with source := hab.sourceOf (hc.resolve_left (by simp)) }
        have hloop := hruns.drop hab n hx
        dsimp only
        generalize loop (startTurn n x) n (unstarted a.rule a.start a.zone c₁) = p at hloop ⊢
        generalize loop (startTurn n x') n (unstarted b.rule b.start b.zone c₁') = q at hloop ⊢
        cases hloop with
        | none => exact .none
        | some hpq =>
          cases hpq with
          | failed he _ => exact .some (.refused he)
          | ok _ h => exact .some (.made h)

end

end Series

end Recurrence
