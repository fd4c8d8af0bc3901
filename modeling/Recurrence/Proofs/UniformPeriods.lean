/-
Recurrence/Proofs/UniformPeriods.lean

Ending early where all periods are alike.

Where the periods of a rule are days or shorter, the chain hands out equally many candidates
for each of them, the period of the start included.  So the positions pick the same places
from every period, and one from which they pick nothing speaks for all.  A selection ends
there at once; if it went on to look at the later periods, it would return the same values
(`uniform_periods`).
-/
import Recurrence.Proofs.Series.Selected
import Recurrence.Proofs.Termination

namespace Recurrence

/-! ### Runs of a chain -/

/-- What candidates hand out one after the other; their budget may be filled up in between. -/
inductive Candidates.HandsOut (c₀ : Candidates) : List Value → Candidates → Prop
  | nil : HandsOut c₀ [] c₀
  | ask {vs : List Value} {c c' : Candidates} {v : Value} {bound : Nat} (run : HandsOut c₀ vs c)
      (answer : c.next bound = some (.ok (some v), c')) : HandsOut c₀ (vs ++ [v]) c'
  | credit {vs : List Value} {c : Candidates} (run : HandsOut c₀ vs c) :
      HandsOut c₀ vs (c.credit 0)

namespace Course

variable {K : Course} {N : Value → Int} {κ : Type} {key : Value → κ} {c c₀ : Candidates}
  {vs : List Value} {v w : Value} {base : Int}

/-- The budget lasts to every year up to the one in which it was full. -/
theorem lasts_of_year_le (hbudget : 0 ≤ K.blueprint.years.budget) (h : v.date.year ≤ base) :
    K.Lasts base v := by
  have hnone : K.passedYears base v.date.year = ∅ := by
    rw [Finset.eq_empty_iff_forall_notMem]
    intro y hy
    have := (mem_passedYears.mp hy).1
    omega
  simpa [Lasts, hnone] using hbudget

/-- Candidates that have handed out the first members of a course: they await all others, and
the budget has lasted to those. -/
structure HandedOut (K : Course) (vs : List Value) (c : Candidates) : Prop where
  segment : Segment K.Member vs
  year_le : ∀ v ∈ vs, v.date.year ≤ c.fields.year
  awaits : ∃ base, K.Awaits base c (fun w => ∀ v ∈ vs, v < w) ∧ ∀ v ∈ vs, K.Lasts base v

/-- What comes after the first members of a course: the next one, or none once the years have
given up. -/
def Follows (K : Course) (vs : List Value) : Option Value → Prop
  | some w => IsLeast {x | K.Member x ∧ ∀ v ∈ vs, v < x} w
  | none => ∃ base, K.Exhausted base (fun x => K.Member x ∧ ∀ v ∈ vs, v < x) ∧
      ∀ v ∈ vs, K.Lasts base v

/-- Filling the budget up changes nothing but the account. -/
theorem HandedOut.credit (hK : K.Begins) (hbudget : 0 ≤ K.blueprint.years.budget)
    (h : K.HandedOut vs c) : K.HandedOut vs (c.credit 0) where
  segment := h.segment
  year_le := h.year_le
  awaits := by
    obtain ⟨base, hawaits, -⟩ := h.awaits
    exact ⟨c.fields.year, hawaits.credit hK, fun v hv => lasts_of_year_le hbudget (h.year_le v hv)⟩

/-- **One more candidate** is the next member. -/
theorem HandedOut.next (hK : K.Begins) (hcredited : K.credited = none) (h : K.HandedOut vs c) :
    ∃ a c', Settles (fun n => c.next n) (.ok a, c') ∧ K.Follows vs a ∧
      ∀ v ∈ a, K.HandedOut (vs ++ [v]) c' := by
  obtain ⟨base, hawaits, hlasts⟩ := h.awaits
  obtain ⟨a, c', hsettles, ⟨v, rfl, hreached, hleast⟩ | ⟨rfl, -, hex⟩⟩ := hawaits.reach hK hcredited
  · have hbefore := hleast.1.2
    refine ⟨some v, c', hsettles, hleast, ?_⟩
    rintro _ ⟨⟩
    refine ⟨h.segment.snoc hleast, fun x hx => ?_, base, hreached.awaits.congr fun w _ => ?_,
      fun x hx => ?_⟩
    · rw [hreached.year_eq]
      rcases List.mem_append.mp hx with hx | hx
      · exact Value.year_le_of_le (hbefore x hx).le
      · rw [List.mem_singleton.mp hx]
    · simp only [List.mem_append, List.mem_singleton]
      exact ⟨fun hall => hall v (.inr rfl), fun hlt x hx =>
        hx.elim (fun hx => (hbefore x hx).trans hlt) fun hx => hx ▸ hlt⟩
    · rcases List.mem_append.mp hx with hx | hx
      · exact hlasts x hx
      · rw [List.mem_singleton.mp hx]
        exact hreached.lasts hK
  · exact ⟨none, c', hsettles, ⟨base, hex, hlasts⟩, by simp⟩

/-- **A run of a chain** hands out the members of its course. -/
theorem HandedOut.run (hK : K.Begins) (hcredited : K.credited = none)
    (hbudget : 0 ≤ K.blueprint.years.budget) (h : K.HandedOut [] c₀) (hrun : c₀.HandsOut vs c) :
    K.HandedOut vs c := by
  induction hrun with
  | nil => exact h
  | @ask vs c c' v bound run answer ih =>
    obtain ⟨a, c'', hsettles, -, hnext⟩ := ih.next hK hcredited
    have heq := Patient.eq_of_settles (patient_nextCandidate c) hsettles answer
    simp only [Prod.mk.injEq, Except.ok.injEq] at heq
    obtain ⟨rfl, rfl⟩ := heq
    exact hnext v rfl
  | credit run ih => exact ih.credit hK hbudget

/-- **A period is complete** once what follows does not belong to it, if no period goes on in a
later year. -/
theorem HandedOut.filter_eq_group [DecidableEq κ] (hK : K.Begins) (hd : K.Divides N key)
    (hyears : ∀ v w, K.Member v → K.Member w → N v = N w → v.date.year = w.date.year)
    (hbudget : 1 ≤ K.blueprint.years.budget) (h : K.HandedOut vs c) {next : Option Value}
    (hnext : K.Follows vs next) (hv : v ∈ vs) (hother : ∀ w ∈ next, key w ≠ key v) :
    vs.filter (fun w => key w = key v) = K.group N (N v) := by
  have hvm := h.segment.mem v hv
  refine (listing_eq ⟨h.segment.ascending.filter _, fun x => ?_⟩).symm
  rw [List.mem_filter, decide_eq_true_eq]
  constructor
  · rintro ⟨hx, hkey⟩
    have hxm := h.segment.mem x hx
    exact ⟨hxm, (hd.key_iff x v hxm hvm).mp hkey⟩
  · rintro ⟨hxm, hxn⟩
    refine ⟨?_, (hd.key_iff x v hxm hvm).mpr hxn⟩
    by_contra hx
    have hbehind : ∀ y ∈ vs, y < x := fun y hy =>
      not_le.mp fun hle => hx (h.segment.closed y hy x hxm hle)
    cases next with
    | some w =>
      -- the next member lies between two members of the period
      have hle := hd.mono v w hvm hnext.1.1 (hnext.1.2 v hv).le
      have hle' := hd.mono w x hnext.1.1 hxm (hnext.2 ⟨hxm, hbehind⟩)
      exact hother w rfl ((hd.key_iff w v hnext.1.1 hvm).mpr (by omega))
    | none =>
      obtain ⟨base, hex, hlasts⟩ := hnext
      have hlater := hex.year_lt hK hbudget hvm.1 (hlasts v hv) ⟨hxm, hbehind⟩
      exact hlater.ne (hyears v x hvm hxm hxn.symm)

end Course

/-! ### Going on regardless -/

namespace Selection

variable {σ α ε κ : Type} [DecidableEq κ] {next : NextOf σ α ε} {credit : σ → σ} {key : α → κ}
  {bound k : Nat} {s s' : Selection σ α} {a : Except ε (Option α)}

/-- The selection that does not end at a period which selects nothing. -/
def regardless (s : Selection σ α) : Selection σ α := { s with uniform := false }

theorem collect_regardless (s : Selection σ α) : s.regardless.collect next key bound =
    (s.collect next key bound).map fun b => (b.1, b.2.regardless) := by
  unfold collect
  rw [show s.regardless.first next = s.first next from rfl]
  cases s.first next with
  | none => rfl
  | some b =>
    obtain ⟨a, src⟩ := b
    match a with
    | .error e | .ok none => rfl
    | .ok (some v) =>
      dsimp only [regardless]
      cases loop (gatherTurn next key (key v)) bound ⟨src, [v],
          (keptOfPeriod s.positions).map fun n => n - 1⟩ with
      | none => rfl
      | some b =>
        obtain ⟨p, src'⟩ := b
        cases p <;> rfl

/-- Collecting leaves what has been picked alone, and it finishes a selection that has no first
candidate of a next period. -/
theorem frame_collect {found : List α} (h : s.collect next key bound = some (.ok found, s')) :
    s'.pending = s.pending ∧ (found ≠ [] → s'.heldBack = none → s'.finished = true) := by
  unfold collect at h
  split at h
  · exact absurd h (by simp)
  · exact absurd h (by simp)
  · obtain ⟨rfl, rfl⟩ := by simpa using h
    exact ⟨rfl, fun hne => absurd rfl hne⟩
  · dsimp only at h
    split at h
    · exact absurd h (by simp)
    · exact absurd h (by simp)
    · obtain ⟨rfl, rfl⟩ := by simpa using h
      exact ⟨rfl, fun _ hheld =>
        Bool.or_eq_true_iff.mpr (.inr (Option.isNone_iff_eq_none.mpr hheld))⟩

/-- How the selection that goes on regardless turns where the other one takes the turn `t`: in the
same way, unless `t` ends at a period which selects nothing while a next period is known. -/
def TurnsAlike (t : Turn (Selection σ α) (Except ε (Option α) × Selection σ α))
    (t' : Option (Turn (Selection σ α) (Except ε (Option α) × Selection σ α))) : Prop :=
  t' = some (t.map regardless fun b => (b.1, b.2.regardless)) ∨
    ∃ s₁ : Selection σ α, t = .done (.ok none, { s₁ with finished := true }) ∧
      t' = some (.again s₁.regardless) ∧
      (s₁.heldBack = none → s₁.finished = true ∧ s₁.pending = [])

/-- Both have collected the same period; they part where it selects nothing. -/
theorem turn_regardless_of_collect {s₁ : Selection σ α} {found : List α}
    {t : Turn (Selection σ α) (Except ε (Option α) × Selection σ α)} (hp : s.pending = [])
    (hrunning : s.finished = false) (hcollect : s.collect next key bound = some (.ok found, s₁))
    (h : s.turn next credit key bound = some t) :
    TurnsAlike t (s.regardless.turn next credit key bound) := by
  have hcollect' : s.regardless.collect next key bound = some (.ok found, s₁.regardless) := by
    rw [collect_regardless, hcollect, Option.map_some]
  obtain ⟨hpending, hheld⟩ := frame_collect hcollect
  rw [turn_of_collect hp hrunning hcollect] at h
  rw [turn_of_collect (s := s.regardless) hp hrunning hcollect']
  obtain rfl := Option.some.inj h
  by_cases hempty : found = []
  · exact .inl (by simp only [if_pos hempty]; rfl)
  by_cases hnone : picked s₁.positions found = []
  · have hnone' : picked s₁.regardless.positions found = [] := hnone
    cases huniform : s₁.uniform with
    | false =>
      refine .inl ?_
      simp only [if_neg hempty, if_pos hnone, if_pos hnone']
      rfl
    | true =>
      refine .inr ⟨s₁, ?_, ?_, fun hheldBack => ⟨hheld hempty hheldBack, hpending.trans hp⟩⟩
      · simp only [if_neg hempty, if_pos hnone, huniform, if_true]
      · simp only [if_neg hempty, if_pos hnone']
        rfl
  · have hnone' : picked s₁.regardless.positions found ≠ [] := hnone
    refine .inl ?_
    simp only [if_neg hempty, if_neg hnone, if_neg hnone']
    rfl

/-- **Both selections take the same turns**, unless the one ends at a period which selects
nothing while a next period is known. -/
theorem turn_regardless {t : Turn (Selection σ α) (Except ε (Option α) × Selection σ α)}
    (h : s.turn next credit key bound = some t) :
    TurnsAlike t (s.regardless.turn next credit key bound) := by
  cases hp : s.pending with
  | cons v pending =>
    refine .inl ?_
    simp only [turn, hp, Option.some.injEq] at h
    subst h
    simp only [turn, regardless, hp, Turn.map]
  | nil =>
    cases hfinished : s.finished with
    | true =>
      refine .inl ?_
      simp only [turn, hp, hfinished, if_true, Option.some.injEq] at h
      subst h
      simp only [turn, regardless, hp, hfinished, if_true, Turn.map]
    | false =>
      cases hcollect : s.collect next key bound with
      | none => simp [turn, hp, hfinished, hcollect] at h
      | some b =>
        obtain ⟨a, s₁⟩ := b
        cases a with
        | error e =>
          have hcollect' : s.regardless.collect next key bound = some (.error e, s₁.regardless) := by
            rw [collect_regardless, hcollect, Option.map_some]
          refine .inl ?_
          simp only [turn, hp, hfinished, hcollect, Bool.false_eq_true, if_false,
            Option.some.injEq] at h
          subst h
          rw [turn, show s.regardless.pending = [] from hp]
          simp only [show s.regardless.finished = false from hfinished, hcollect',
            Bool.false_eq_true, if_false, Turn.map]
        | ok found => exact turn_regardless_of_collect hp hfinished hcollect h

/-- **Both selections have the same answer**, unless the one ends while a next period is known. -/
theorem loop_regardless (h : loop (turn next credit key bound) k s = some (a, s'))
    (hlast : a = .ok none → s'.heldBack = none) :
    ∃ s'', loop (turn next credit key bound) (k + 1) s.regardless = some (a, s'') ∧
      (a ≠ .ok none → s'' = s'.regardless) := by
  induction k generalizing s with
  | zero => exact absurd h (by simp [loop])
  | succ k ih =>
    rw [loop] at h
    cases hturn : s.turn next credit key bound with
    | none => simp [hturn] at h
    | some t =>
      rw [loop]
      rcases turn_regardless hturn with hsame | ⟨s₁, rfl, hagain, hfinished⟩
      · rw [hsame]
        cases t with
        | done b =>
          obtain rfl : b = (a, s') := by simpa [hturn] using h
          exact ⟨_, rfl, fun _ => rfl⟩
        | again s₁ => exact ih (by simpa [hturn] using h)
      · -- the other selection finds in one more turn that there is no next period
        obtain ⟨rfl, rfl⟩ : Except.ok none = a ∧ { s₁ with finished := true } = s' := by
          simpa [hturn] using h
        obtain ⟨hfin, hpending⟩ := hfinished (hlast rfl)
        rw [hagain]
        refine ⟨s₁.regardless, ?_, fun hne => absurd rfl hne⟩
        simp [loop, turn, regardless, hfin, hpending]

end Selection

namespace Selection

variable {K : Course} {N : Value → Int} {κ : Type} {key : Value → κ} {ps : List Int} {base : Int}
  {s : Selection Candidates Value} {U R : Value → Prop}

theorem OnCourse.regardless (h : s.OnCourse K N ps base U R) :
    s.regardless.OnCourse K N ps base U R where
  positions_eq := h.positions_eq
  even hu := absurd hu (by simp [Selection.regardless])
  running := h.running
  front := by
    -- what is held back and the source are the same
    cases h.front with
    | fresh heldBack awaits all => exact .fresh heldBack awaits all
    | held w heldBack reached first behind => exact .held w heldBack reached first behind
  ascending := h.ascending
  selected := h.selected
  before := h.before
  awaited := h.awaited
  within := h.within
  upward := h.upward
  credited := h.credited

theorem Stray.regardless (h : s.Stray K N ps R) : s.regardless.Stray K N ps R :=
  ⟨h.finished, h.heldBack, h.ascending, h.mem, h.upward, h.spent⟩

/-- **Going on makes no difference** where no period goes on in a later year: both selections have
the same answer. -/
theorem next_regardless [DecidableEq κ] (hK : K.Begins) (hcredited : K.credited = none)
    (hd : K.Divides N key) (hps : ps ≠ []) (hbudget : 1 ≤ K.blueprint.years.budget)
    (hyears : ∀ v w, K.Member v → K.Member w → N v = N w → v.date.year = w.date.year)
    (h : (∃ base U, s.OnCourse K N ps base U R) ∨ s.Stray K N ps R) : ∃ a s₁ s₂,
    Settles (fun n => s.next (Candidates.next n) (fun c => c.credit 0) key n) (.ok a, s₁) ∧
      Settles (fun n => s.regardless.next (Candidates.next n) (fun c => c.credit 0) key n)
        (.ok a, s₂) ∧
      ∀ v ∈ a, s₂ = s₁.regardless ∧
        ((∃ base U, s₁.OnCourse K N ps base U (v < ·)) ∨ s₁.Stray K N ps (v < ·)) := by
  have h' : (∃ base U, s.regardless.OnCourse K N ps base U R) ∨ s.regardless.Stray K N ps R :=
    h.imp (fun ⟨base, U, h⟩ => ⟨base, U, h.regardless⟩) Stray.regardless
  obtain ⟨⟨a₁, s₁⟩, hsettles, hnext, -⟩ := exists_next hK hcredited hd hps h
  by_cases hearly : a₁ = .ok none ∧ s₁.heldBack ≠ none
  · -- the selection has ended early, so no value is selected and the other finds none either
    obtain ⟨rfl, hheld⟩ := hearly
    have hnone : ∀ v, ¬ K.Selected N ps v := by
      rcases hnext with ⟨v, heq, -⟩ | ⟨-, hstray | hidle⟩
      · exact absurd heq (by simp)
      · exact absurd hstray.heldBack hheld
      · exact hidle.none
    obtain ⟨⟨a₂, s₂⟩, hsettles₂, hnext₂, -⟩ := exists_next hK hcredited hd hps h'
    rcases hnext₂ with ⟨v, -, hv, -, ⟨-, hleast⟩ | ⟨-, hpart⟩⟩ | ⟨rfl, -⟩
    · exact absurd hleast.1.1 (hnone v)
    · rcases hpart hbudget with hv' | ⟨w, hw, hn, hlt⟩
      · exact absurd hv' (hnone v)
      · exact absurd (hyears v w hv hw hn.symm) hlt.ne
    · exact ⟨none, s₁, s₂, hsettles, hsettles₂, by simp⟩
  · obtain ⟨n, hn⟩ := hsettles.exists_bound
    obtain ⟨s₂, hloop, hsame⟩ := loop_regardless hn fun hnone => by
      by_contra hheld
      exact hearly ⟨hnone, hheld⟩
    have hturn : ∀ s : Selection Candidates Value,
        Patient fun n => s.turn (Candidates.next n) (fun c => c.credit 0) key n :=
      patient_turn Course.patient_nextCandidate
    have hnext₂ : s.regardless.next (Candidates.next (n + 1)) (fun c => c.credit 0) key (n + 1) =
        some (a₁, s₂) := loop_mono (fun s t ht => hturn s (Nat.le_succ n) ht) le_rfl hloop
    have hsettles₂ :=
      Patient.settles (patient_next Course.patient_nextCandidate s.regardless) hnext₂
    rcases hnext with ⟨v, rfl, -, -, hout⟩ | ⟨rfl, -⟩
    · refine ⟨some v, s₁, s₂, hsettles, hsettles₂, ?_⟩
      rintro _ ⟨⟩
      exact ⟨hsame (by simp), hout.imp And.left And.left⟩
    · exact ⟨none, s₁, s₂, hsettles, hsettles₂, by simp⟩

end Selection

/-! ### Sources -/

/-- What a source hands out first. -/
def InstanceSource.HandsOut (r : Rule) : InstanceSource → List Value → Prop
  | _, [] => True
  | src, v :: vs => ∃ bound src', src.next r bound = some (.ok (some v), src') ∧ src'.HandsOut r vs

theorem InstanceSource.handsOut_cons_iff {r : Rule} {src src' : InstanceSource} {a : Option Value}
    (h : Settles (fun n => src.next r n) (.ok a, src')) (v : Value) (vs : List Value) :
    src.HandsOut r (v :: vs) ↔ a = some v ∧ src'.HandsOut r vs := by
  constructor
  · rintro ⟨bound, src'', hn, hrest⟩
    have heq := Patient.eq_of_settles (patient_next r src) h hn
    simp only [Prod.mk.injEq, Except.ok.injEq] at heq
    obtain ⟨rfl, rfl⟩ := heq
    exact ⟨rfl, hrest⟩
  · rintro ⟨rfl, hrest⟩
    obtain ⟨bound, hn⟩ := h.exists_bound
    exact ⟨bound, src', hn, hrest⟩

namespace Rule

variable {r : Rule} {start : Value} {budget : Int} {c c₀ : Candidates} {vs : List Value}
  {bound : Nat}

/-- Where the periods of a rule are days or shorter, its members of one period are of one year. -/
theorem year_eq_of_periodNumber (h : r.Admits start) (hbudget : 0 ≤ budget)
    (hday : r.freq.WithinDay) (v w : Value) (hv : (r.course start budget).Member v)
    (hw : (r.course start budget).Member w) (hn : r.periodNumber v = r.periodNumber w) :
    v.date.year = w.date.year := by
  rw [date_eq_of_periodNumber hday (member_isReal h hbudget hv).1 (member_isReal h hbudget hw).1 hn]

/-- A selection that has not ended hands out the same values whether or not it goes on. -/
theorem handsOut_regardless (h : r.Admits start) (hbudget : 1 ≤ budget) (hday : r.freq.WithinDay)
    (hpos : r.bySetPos ≠ []) {s : Selection Candidates Value} {R : Value → Prop}
    (hs : (r.selectedSupply start budget).Awaits (.selected s) R) (vs : List Value) :
    (InstanceSource.selected s).HandsOut r vs ↔
      (InstanceSource.selected s.regardless).HandsOut r vs := by
  have hbudget' : 0 ≤ budget := by omega
  induction vs generalizing s R with
  | nil => exact Iff.rfl
  | cons v vs ih =>
    obtain ⟨_, ⟨⟩, hs⟩ := hs
    obtain ⟨a, s₁, s₂, h₁, h₂, hnext⟩ := Selection.next_regardless (begins_course h hbudget')
      (credited_course_eq_none hpos) (divides h hbudget') hpos hbudget
      (year_eq_of_periodNumber h hbudget' hday) hs
    have hsource₁ : Settles (fun n => (InstanceSource.selected s).next r n) (.ok a, .selected s₁) :=
      h₁.map fun b => (b.1, InstanceSource.selected b.2)
    have hsource₂ : Settles (fun n => (InstanceSource.selected s.regardless).next r n)
        (.ok a, .selected s₂) := h₂.map fun b => (b.1, InstanceSource.selected b.2)
    rw [InstanceSource.handsOut_cons_iff hsource₁, InstanceSource.handsOut_cons_iff hsource₂]
    refine and_congr_right fun ha => ?_
    obtain ⟨rfl, hs₁⟩ := hnext v ha
    exact ih ⟨s₁, rfl, hs₁⟩

/-- A chain that has been filled has handed out nothing and awaits all members; the budget it was
filled on is not empty. -/
theorem handedOut_of_fills (h : r.Admits start) (hfills : Series.Fills bound r start budget c₀) :
    1 ≤ budget ∧ (r.course start budget).HandedOut [] c₀ ∧
      (r.course start budget).Awaits (start.date.year - 1) c₀
        fun w => start.date.year ≤ w.date.year := by
  have hbudget : 1 ≤ budget := by
    by_contra hlt
    obtain ⟨c, hhalt⟩ := run_candidates_of_lt_one r start (not_le.mp hlt)
    have := Patient.eq_of_settles (Series.patient_candidatesRun _ _ _) hhalt hfills.2
    simp at this
  have hbudget' : 0 ≤ budget := by omega
  rcases run_candidates h hbudget' with ⟨c, hrun, hawaits⟩ | ⟨c, hrun, -⟩
  · obtain ⟨-, rfl⟩ := Prod.mk.inj
      (Patient.eq_of_settles (Series.patient_candidatesRun _ _ _) hrun hfills.2)
    refine ⟨hbudget, ⟨.nil, by simp, _, hawaits.congr fun w hw => ?_, by simp⟩, hawaits⟩
    exact iff_of_true (by simp) (year_le_of_builds h hbudget' hw)
  · have := Patient.eq_of_settles (Series.patient_candidatesRun _ _ _) hrun hfills.2
    simp at this

/-- The values in a list that lie in the period of a value. -/
def inPeriodOf (r : Rule) (vs : List Value) (v : Value) : List Value :=
  vs.filter fun w => periodKey r.freq r.weekStart w = periodKey r.freq r.weekStart v

/-- What the chain has handed out of a period, once something of another period follows or nothing
more does, is the whole group of the period. -/
theorem inPeriodOf_eq_group (h : r.Admits start) (hbudget : 1 ≤ budget) (hday : r.freq.WithinDay)
    (hhanded : (r.course start budget).HandedOut vs c) {next : Option Value}
    (hnext : (r.course start budget).Follows vs next) {v : Value} (hv : v ∈ vs)
    (hother : ∀ w ∈ next, periodKey r.freq r.weekStart w ≠ periodKey r.freq r.weekStart v) :
    r.inPeriodOf vs v = (r.course start budget).group r.periodNumber (r.periodNumber v) :=
  have hbudget' : 0 ≤ budget := by omega
  hhanded.filter_eq_group (begins_course h hbudget') (divides h hbudget')
    (year_eq_of_periodNumber h hbudget' hday) hbudget hnext hv hother

end Rule

variable {r : Rule} {start : Value} {budget : Int} {c c₀ : Candidates} {vs : List Value}
  {bound : Nat}

/-- **Ending early is sound.**  Take a rule with positions whose periods are days or shorter, a
start that it admits, and the chain of its candidates when it has been filled for a new series.

Whatever the chain has handed out, it has an answer to the next call; and any two periods of which
it has handed out candidates, and to which the next candidate does not belong, have equally many.
If the positions select nothing from one of them, they select nothing from the other.

A selection among these candidates that ends at the first period which selects nothing hands out
the same values as the one that goes on to all later periods. -/
theorem uniform_periods (h : r.Admits start) (hday : r.freq.WithinDay) (hpos : r.bySetPos ≠ [])
    (hfills : Series.Fills bound r start budget c₀) :
    (∀ vs c, c₀.HandsOut vs c → ∃ next c', Settles (fun n => c.next n) (.ok next, c') ∧
      ∀ v ∈ vs, ∀ w ∈ vs,
        (∀ u ∈ next, periodKey r.freq r.weekStart u ≠ periodKey r.freq r.weekStart v ∧
          periodKey r.freq r.weekStart u ≠ periodKey r.freq r.weekStart w) →
        (r.inPeriodOf vs v).length = (r.inPeriodOf vs w).length ∧
          (selectPositions r.bySetPos (r.inPeriodOf vs v) = [] →
            selectPositions r.bySetPos (r.inPeriodOf vs w) = [])) ∧
    ∃ s : Selection Candidates Value, Series.sourceOf r c₀ = .selected s ∧ s.uniform = true ∧
      ∀ vs, (InstanceSource.selected s).HandsOut r vs ↔
        (InstanceSource.selected { s with uniform := false }).HandsOut r vs := by
  obtain ⟨hbudget, hhanded, hawaits⟩ := Rule.handedOut_of_fills h hfills
  have hbudget' : 0 ≤ budget := by omega
  have hK := Rule.begins_course h hbudget'
  have hcredited : (r.course start budget).credited = none := Rule.credited_course_eq_none hpos
  refine ⟨fun vs c hrun => ?_, _, Rule.sourceOf_selection hpos c₀, ?_, fun vs => ?_⟩
  · have hhanded := hhanded.run hK hcredited hbudget' hrun
    obtain ⟨next, c', hsettles, hnext, -⟩ := hhanded.next hK hcredited
    refine ⟨next, c', hsettles, fun v hv w hw hother => ?_⟩
    have hgroup_v := Rule.inPeriodOf_eq_group h hbudget hday hhanded hnext hv fun u hu =>
      (hother u hu).1
    have hgroup_w := Rule.inPeriodOf_eq_group h hbudget hday hhanded hnext hw fun u hu =>
      (hother u hu).2
    have hmem : ∀ x ∈ vs, x ∈ r.inPeriodOf vs x := fun x hx => by simp [Rule.inPeriodOf, hx]
    have heven : (r.inPeriodOf vs v).length = (r.inPeriodOf vs w).length := by
      have hv' := List.ne_nil_of_mem (hmem v hv)
      have hw' := List.ne_nil_of_mem (hmem w hw)
      rw [hgroup_v] at hv' ⊢
      rw [hgroup_w] at hw' ⊢
      exact Rule.even_course h hbudget' hpos hday _ _ hv' hw'
    refine ⟨heven, fun hnone => ?_⟩
    rw [selectPositions_eq] at hnone ⊢
    exact picked_eq_nil_of_length heven hnone
  · rcases hday with hf | hf | hf | hf <;>
      simp [Series.hasUniformPeriods, hf, Frequency.isSubDaily, Frequency.isFinerThan,
        Frequency.rank]
  · exact Rule.handsOut_regardless h hbudget hday hpos
      ⟨_, rfl, .inl ⟨_, _, Rule.onCourse_of_awaits h hbudget' hpos hawaits⟩⟩ vs

/-! ### A run on a rule -/

/-- The first `k` candidates of a chain. -/
def Candidates.firstRun (bound : Nat) (c : Candidates) : Nat → Option (List Value × Candidates)
  | 0 => some ([], c)
  | k + 1 =>
    match c.firstRun bound k with
    | some (vs, c) =>
      match c.next bound with
      | some (.ok (some v), c) => some (vs ++ [v], c)
      | _ => none
    | none => none

theorem Candidates.handsOut_of_firstRun {k : Nat} (h : c₀.firstRun bound k = some (vs, c)) :
    c₀.HandsOut vs c := by
  induction k generalizing vs c with
  | zero =>
    obtain ⟨rfl, rfl⟩ := Prod.mk.inj (Option.some.inj h)
    exact .nil
  | succ k ih =>
    rw [firstRun] at h
    split at h
    · next ws c₁ hrun =>
      split at h
      · next v c₂ hnext =>
        obtain ⟨rfl, rfl⟩ := Prod.mk.inj (Option.some.inj h)
        exact .ask (ih hrun) hnext
      · exact absurd h (by simp)
    · exact absurd h (by simp)

/-- The first `k` candidates of a rule's chain when it has been filled. -/
def Rule.firstCandidates (bound k : Nat) (r : Rule) (start : Value) (budget : Int) :
    Option (List Value) :=
  match (r.candidates start budget).run bound ((r.candidates start budget).chain.length - 1) 0 with
  | some (.value, c) => (c.firstRun bound k).map Prod.fst
  | _ => none

theorem Rule.handsOut_of_firstCandidates {k : Nat} (hreach : r.reaches start = true)
    (h : r.firstCandidates bound k start budget = some vs) :
    ∃ c₀ c, Series.Fills bound r start budget c₀ ∧ c₀.HandsOut vs c := by
  unfold firstCandidates at h
  split at h
  · next c₀ hrun =>
    obtain ⟨⟨ws, c⟩, hfirst, rfl⟩ := Option.map_eq_some_iff.mp h
    exact ⟨c₀, c, ⟨hreach, hrun⟩, Candidates.handsOut_of_firstRun hfirst⟩
  · exact absurd h (by simp)

/-- Two times on every day, of which the third is selected: the start lies between the two of its
day, and both count. -/
theorem uniform_periods_third_of_two :
    let r : Rule := { freq := .daily, byHour := [9, 17], bySetPos := [3] }
    let start : Value := .ofDateTime ⟨2024, 1, 1⟩ ⟨12, 0, 0⟩
    let on : Int → Int → Value := fun d h => .ofDateTime ⟨2024, 1, d⟩ ⟨h, 0, 0⟩
    let vs := [on 1 9, on 1 17, on 2 9, on 2 17, on 3 9]
    ∃ c₀ c, Series.Fills 100 r start 100 c₀ ∧ c₀.HandsOut vs c ∧
      (∃ next c', Settles (fun n => c.next n) (.ok next, c')) ∧
      ∃ s, Series.sourceOf r c₀ = .selected s ∧
        ∀ us, (InstanceSource.selected s).HandsOut r us ↔
          (InstanceSource.selected { s with uniform := false }).HandsOut r us := by
  intro r start on vs
  have hadmits : r.Admits start := ⟨by decide, by decide, by decide⟩
  obtain ⟨c₀, c, hfills, hrun⟩ := Rule.handsOut_of_firstCandidates
    (show r.reaches start = true by decide)
    (show r.firstCandidates 100 5 start 100 = some vs by decide +kernel)
  obtain ⟨hperiods, s, hs, -, hsame⟩ := uniform_periods hadmits (.inl rfl) (by decide) hfills
  obtain ⟨next, c', hnext, -⟩ := hperiods vs c hrun
  exact ⟨c₀, c, hfills, hrun, ⟨next, c', hnext⟩, s, hs, hsame⟩

end Recurrence
