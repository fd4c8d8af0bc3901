/-
Recurrence/Proofs/Series/Selected.lean

The supply of a selection.

As long as the years have not given up, a selection hands out the selected values in
order: those that it has picked from the last period, and then those of the members that it
has not gathered (`Selection.OnCourse`).  A period that selects nothing is passed over; each
such period costs some of the years' budget, so the search comes to an end.  When the
years give up in the middle of a period, what has been picked from its beginning is still
handed out, but it need not be what the whole period would have given
(`Selection.Stray`).
-/
import Recurrence.Proofs.Meaning.Periods
import Recurrence.Proofs.Series.Chain
import Recurrence.Proofs.Series.Gather

namespace Recurrence

variable {K : Course} {N : Value → Int} {κ : Type} {key : Value → κ} {ps : List Int} {base : Int}
  {s : Selection Candidates Value} {U R : Value → Prop}

namespace Selection

/-- A selection that still awaits the selected values with `R`: those that it has picked
already, and behind them those of the members with `U`, which it has not gathered. -/
structure OnCourse (K : Course) (N : Value → Int) (ps : List Int) (base : Int)
    (s : Selection Candidates Value) (U R : Value → Prop) : Prop where
  positions_eq : s.positions = ps
  even : s.uniform = true → K.Even N
  running : s.finished = false
  front : s.Front K N base U
  ascending : s.pending.Pairwise (· < ·)
  selected : ∀ v ∈ s.pending, K.Selected N ps v
  before : ∀ v ∈ s.pending, ∀ w, K.Member w → U w → v < w
  awaited : ∀ w, K.Selected N ps w → (R w ↔ w ∈ s.pending ∨ U w)
  within : ∀ w, K.Member w → U w → R w
  upward : ∀ v w, K.Member v → K.Member w → v < w → R v → R w
  credited : ∀ v, K.Selected N ps v → ¬ U v → v.date.year ≤ base

/-- A value that the positions pick from its period, or from the part of it before some later
year. -/
def SelectedInPart (K : Course) (N : Value → Int) (ps : List Int) (v : Value) : Prop :=
  K.Selected N ps v ∨ ∃ w, K.Member w ∧ N w = N v ∧ v.date.year < w.date.year

/-- A selection whose years have given up: it hands out what it has picked by then. -/
structure Stray (K : Course) (N : Value → Int) (ps : List Int) (s : Selection Candidates Value)
    (R : Value → Prop) : Prop where
  finished : s.finished = true
  heldBack : s.heldBack = none
  ascending : s.pending.Pairwise (· < ·)
  mem : ∀ v ∈ s.pending, K.Member v ∧ R v
  upward : ∀ v w, K.Member v → K.Member w → v < w → R v → R w
  spent : 1 ≤ K.blueprint.years.budget → ∃ years n, K.SpentOn N ps R years n ∧
    ∀ v ∈ s.pending, N v = n ∧ SelectedInPart K N ps v ∧ ∃ y ∈ years, v.date.year ≤ y

/-- A selection that has found out that no period selects anything. -/
structure Idle (K : Course) (N : Value → Int) (ps : List Int) (s : Selection Candidates Value) :
    Prop where
  finished : s.finished = true
  pending : s.pending = []
  halted : (InstanceSource.selected s).halted = false
  none : ∀ v, ¬ K.Selected N ps v

end Selection

/-- What is known about a selection among the members of a course. -/
def Course.selectedSupply (K : Course) (N : Value → Int) (ps : List Int) : Supply where
  Member := K.Selected N ps
  Awaits src R := ∃ s, src = .selected s ∧ ((∃ base U, s.OnCourse K N ps base U R) ∨ s.Stray K N ps R)
  Over src R := src.halted = true ∨ ∀ w, K.Selected N ps w → ¬ R w
  Astray src := src.halted = true

namespace Selection

/-! ### Handing out what has been picked -/

theorem Stray.halted (h : s.Stray K N ps R) : (InstanceSource.selected s).halted = true := by
  simp [InstanceSource.halted, h.finished, h.heldBack]

theorem OnCourse.not_halted (hK : K.Begins) (h : s.OnCourse K N ps base U R) :
    (InstanceSource.selected s).halted = false := by
  simp [InstanceSource.halted, h.running, h.front.not_gaveUp hK]

/-- The first value that has been picked is the next one. -/
theorem OnCourse.pop (hK : K.Begins) (hd : K.Divides N key) {v : Value} {pending : List Value}
    (h : s.OnCourse K N ps base U R) (hp : s.pending = v :: pending) :
    { s with pending }.OnCourse K N ps base U (v < ·) ∧ IsLeast {w | K.Selected N ps w ∧ R w} v := by
  have hfirst : v ∈ s.pending := hp ▸ List.mem_cons_self
  have hrest : ∀ w ∈ pending, w ∈ s.pending := fun w hw => hp ▸ .tail _ hw
  have hasc := List.pairwise_cons.mp (hp ▸ h.ascending)
  have hv := h.selected v hfirst
  have hRv : R v := (h.awaited v hv).mpr (.inl hfirst)
  refine ⟨⟨h.positions_eq, h.even, h.running, ?_, hasc.2, fun w hw => h.selected w (hrest w hw),
    fun w hw => h.before w (hrest w hw), fun w hw => ?_, fun w hw => h.before v hfirst w hw,
    fun _ _ _ _ hlt hv => hv.trans hlt, h.credited⟩, ⟨hv, hRv⟩, ?_⟩
  · -- what is held back and the source are the same
    cases h.front with
    | fresh heldBack awaits all => exact .fresh heldBack awaits all
    | held w heldBack reached first behind => exact .held w heldBack reached first behind
  · constructor
    · intro hlt
      have hRw := h.upward v w (hv.member hd hK) (hw.member hd hK) hlt hRv
      refine ((h.awaited w hw).mp hRw).imp_left fun hmem => ?_
      rw [hp, List.mem_cons] at hmem
      exact hmem.resolve_left hlt.ne'
    · rintro (hmem | hU)
      · exact hasc.1 w hmem
      · exact h.before v hfirst w (hw.member hd hK) hU
  · rintro w ⟨hw, hRw⟩
    rcases (h.awaited w hw).mp hRw with hmem | hU
    · rw [hp, List.mem_cons] at hmem
      exact hmem.elim (fun heq => heq.ge) fun hmem => (hasc.1 w hmem).le
    · exact (h.before v hfirst w (hw.member hd hK) hU).le

theorem Stray.pop (hK : K.Begins) (hd : K.Divides N key) {v : Value} {pending : List Value}
    (h : s.Stray K N ps R) (hp : s.pending = v :: pending) :
    { s with pending }.Stray K N ps (v < ·) ∧ (K.Member v ∧ R v) ∧
      (1 ≤ K.blueprint.years.budget → SelectedInPart K N ps v) := by
  have hasc := List.pairwise_cons.mp (hp ▸ h.ascending)
  have hfirst : v ∈ s.pending := hp ▸ List.mem_cons_self
  have hrest : ∀ w ∈ pending, w ∈ s.pending := fun w hw => hp ▸ .tail _ hw
  obtain ⟨hv, hR⟩ := h.mem v hfirst
  refine ⟨⟨h.finished, h.heldBack, hasc.2, fun w hw => ⟨(h.mem w (hrest w hw)).1, hasc.1 w hw⟩,
    fun _ _ _ _ hlt hv => hv.trans hlt, fun hbudget => ?_⟩, ⟨hv, hR⟩, fun hbudget => ?_⟩
  · obtain ⟨years, n, hspent, hpending⟩ := h.spent hbudget
    refine ⟨years, n, { hspent with aside := fun w hw => ?_ }, fun w hw => hpending w (hrest w hw)⟩
    -- the value lies behind those that are not awaited, and in no later year than the spent ones
    refine (hspent.aside w hw).imp_right (Or.imp ?_ ?_)
    · rintro ⟨hnot, hbefore⟩
      exact ⟨fun hlt => hnot (h.upward v w hv (hw.member hd hK) hlt hR), hbefore⟩
    · rintro ⟨-, hafter⟩
      obtain ⟨y, hy, hle⟩ := (hpending v hfirst).2.2
      exact ⟨not_le.mp fun hwv => (hle.trans_lt (hafter y hy)).not_ge (Value.year_le_of_le hwv), hafter⟩
  · obtain ⟨years, n, -, hpending⟩ := h.spent hbudget
    exact (hpending v hfirst).2.1

/-! ### Picking from a period -/

/-- **A period has been gathered**: what the positions pick from it comes before what has not
been gathered, and nothing else lies between. -/
theorem OnCourse.pick (hK : K.Begins) (hd : K.Divides N key) (h : s.OnCourse K N ps base U R)
    (hp : s.pending = []) {v w : Value} (hv : K.Member v) (hfirst : K.First N v)
    (hbehind : ∀ x, K.Member x → (U x ↔ v ≤ x))
    (hleast : IsLeast {x | K.Member x ∧ N v < N x} w) {base' : Int} {c : Candidates}
    (hreached : K.Reached base' c w)
    (hcredited : ∀ x, K.Selected N ps x → x < w → x.date.year ≤ base') :
    ({ s with
      source := c, heldBack := some w,
      pending := picked ps (K.group N (N v)) } : Selection _ _).OnCourse K N ps base' (w ≤ ·) R := by
  have hgroup : ∀ x ∈ picked ps (K.group N (N v)), K.Member x ∧ N x = N v := fun x hx =>
    (hd.mem_group hK).mp (mem_of_mem_picked hx)
  have hlater : ∀ x, K.Member x → (w ≤ x ↔ N v < N x) := fun x hx =>
    ⟨fun hle => hleast.1.2.trans_le (hd.mono w x hleast.1.1 hx hle), fun hlt => hleast.2 ⟨hx, hlt⟩⟩
  have hfrom : ∀ x, K.Member x → N v ≤ N x → v ≤ x := fun x hx hle =>
    not_lt.mp fun hlt => absurd (hfirst x hx hlt) hle.not_gt
  -- `v` opened the period and `w` opens the next one: the members between are those of the group
  refine ⟨h.positions_eq, h.even, h.running,
    .held w rfl hreached (Course.first_of_isLeast hleast) fun _ _ => Iff.rfl,
    pairwise_picked (Course.pairwise_group K N _), fun x hx => hd.selected_of_mem hK hx, ?_, ?_, ?_,
    h.upward, fun x hx hlt => hcredited x hx (not_le.mp hlt)⟩
  · intro x hx y hy hwy
    obtain ⟨hxm, hxn⟩ := hgroup x hx
    have hny := (hlater y hy).mp hwy
    refine lt_of_not_ge fun hyx => ?_
    have := hd.mono y x hy hxm hyx
    omega
  · intro x hx
    have hxm := hx.member hd hK
    rw [h.awaited x hx, hp, hbehind x hxm, hlater x hxm]
    constructor
    · intro hvx
      have hle := hd.mono v x hv hxm (hvx.resolve_left List.not_mem_nil)
      rcases hle.lt_or_eq with hlt | heq
      · exact .inr hlt
      · refine .inl ?_
        show x ∈ picked ps (K.group N (N v))
        rw [heq]
        exact hx
    · rintro (hmem | hlt)
      · exact .inr (hfrom x hxm (hgroup x hmem).2.ge)
      · exact .inr (hfrom x hxm hlt.le)
  · intro x hx hwx
    exact h.within x hx ((hbehind x hx).mpr (hfrom x hx ((hlater x hx).mp hwx).le))

/-- A period that selects nothing leaves the account as it is. -/
theorem OnCourse.pick_none (hK : K.Begins) (hd : K.Divides N key) (h : s.OnCourse K N ps base U R)
    (hp : s.pending = []) {v w : Value} (hv : K.Member v) (hfirst : K.First N v)
    (hbehind : ∀ x, K.Member x → (U x ↔ v ≤ x))
    (hleast : IsLeast {x | K.Member x ∧ N v < N x} w) {c : Candidates}
    (hreached : K.Reached base c w) (hnone : picked ps (K.group N (N v)) = []) :
    ({ s with source := c, heldBack := some w } : Selection _ _).OnCourse K N ps base (w ≤ ·) R := by
  have h' := h.pick hK hd hp hv hfirst hbehind hleast hreached fun x hx hlt => ?_
  · rwa [hnone, ← hp] at h'
  · have hxm := hx.member hd hK
    refine h.credited x hx fun hUx => ?_
    -- a selected value of the period would have been picked
    have hperiod : N x = N v := by
      refine le_antisymm (not_lt.mp fun hlt' => hlt.not_ge (hleast.2 ⟨hxm, hlt'⟩)) ?_
      exact hd.mono v x hv hxm ((hbehind x hxm).mp hUx)
    rw [Course.Selected, hperiod, hnone] at hx
    exact absurd hx List.not_mem_nil

/-- A period that selects something fills the budget up, in the year of the next period's first
member. -/
theorem OnCourse.pick_some (hK : K.Begins) (hd : K.Divides N key) (h : s.OnCourse K N ps base U R)
    (hp : s.pending = []) {v w : Value} (hv : K.Member v) (hfirst : K.First N v)
    (hbehind : ∀ x, K.Member x → (U x ↔ v ≤ x))
    (hleast : IsLeast {x | K.Member x ∧ N v < N x} w) {c : Candidates}
    (hreached : K.Reached base c w) :
    ({ s with
      source := c.credit 0, heldBack := some w,
      pending := picked ps (K.group N (N v)) } : Selection _ _).OnCourse K N ps w.date.year
        (w ≤ ·) R :=
  h.pick hK hd hp hv hfirst hbehind hleast (hreached.credit hK) fun _ _ hlt =>
    Value.year_le_of_le hlt.le

/-! ### Giving up -/

/-- The budget was last full in no earlier year than that of any value that has been handed out. -/
theorem OnCourse.year_le_of_not_awaited (h : s.OnCourse K N ps base U R) {v : Value}
    (hv : K.Selected N ps v) (hnot : ¬ R v) : v.date.year ≤ base :=
  h.credited v hv fun hU => hnot ((h.awaited v hv).mpr (.inr hU))

theorem OnCourse.ungathered (h : s.OnCourse K N ps base U R) (hp : s.pending = []) {v : Value}
    (hv : K.Selected N ps v) (hR : R v) : U v :=
  ((h.awaited v hv).mp hR).resolve_left (by simp [hp])

/-- A selection that has been cut off in the middle of a period hands out what the positions pick
from the part that has been seen. -/
theorem OnCourse.stray (hK : K.Begins) (hd : K.Divides N key) (h : s.OnCourse K N ps base U R)
    (hp : s.pending = []) {v u : Value} {seen : List Value} (hv : K.Member v) (hfirst : K.First N v)
    (hbehind : ∀ x, K.Member x → (U x ↔ v ≤ x)) (hcut : K.CutOff N base v u seen)
    {s' : Selection Candidates Value} (hfinished : s'.finished = true) (hheld : s'.heldBack = none)
    (hpending : s'.pending.Sublist (picked ps seen)) : s'.Stray K N ps R where
  finished := hfinished
  heldBack := hheld
  ascending := (pairwise_picked hcut.seen.ascending).sublist hpending
  mem x hx := by
    obtain ⟨hxm, hxn⟩ := hcut.mem (mem_of_mem_picked (hpending.subset hx))
    refine ⟨hxm, h.within x hxm ((hbehind x hxm).mpr (not_lt.mp fun hlt => ?_))⟩
    exact (hfirst x hxm hlt).ne hxn
  upward := h.upward
  spent hbudget := by
    obtain ⟨years, hspent, hlast⟩ := hcut.spentOn hK hd hbudget hv
      (fun x hx => h.year_le_of_not_awaited hx)
      fun x hx hR => (hbehind x (hx.member hd hK)).mp (h.ungathered hp hx hR)
    refine ⟨years, N v, hspent, fun x hx => ?_⟩
    have hseen := mem_of_mem_picked (hpending.subset hx)
    exact ⟨(hcut.mem hseen).2, hcut.selected_or hK hbudget (hpending.subset hx), hlast x hseen⟩

/-- A selection whose years have given up before the first member of a period hands out nothing
more. -/
theorem OnCourse.stray_nil (hK : K.Begins) (hd : K.Divides N key) (h : s.OnCourse K N ps base U R)
    (hex : K.Exhausted base K.Member) {s' : Selection Candidates Value}
    (hfinished : s'.finished = true) (hheld : s'.heldBack = none) (hpending : s'.pending = []) :
    s'.Stray K N ps R where
  finished := hfinished
  heldBack := hheld
  ascending := by simp [hpending]
  mem := by simp [hpending]
  upward := h.upward
  spent hbudget := by
    obtain ⟨years, hspent, -⟩ := hex.spentOn hK hbudget (n := 0)
      (fun x hx => h.year_le_of_not_awaited hx)
      fun x hx _ hnot => absurd (hx.member hd hK) hnot
    exact ⟨years, 0, hspent, by simp [hpending]⟩

/-! ### The next selected value -/

/-- What a selection that awaits the selected values with `R` answers: the first of them, or none.
Once the years have given up, it may have picked a value from a part of its period. -/
def NextIs (K : Course) (N : Value → Int) (ps : List Int) (R : Value → Prop)
    (b : Except Undefined (Option Value) × Selection Candidates Value) : Prop :=
  (∃ v, b.1 = .ok (some v) ∧ K.Member v ∧ R v ∧
      ((∃ base U, b.2.OnCourse K N ps base U (v < ·)) ∧ IsLeast {w | K.Selected N ps w ∧ R w} v ∨
        b.2.Stray K N ps (v < ·) ∧ (1 ≤ K.blueprint.years.budget → SelectedInPart K N ps v))) ∨
    b.1 = .ok none ∧ (b.2.Stray K N ps R ∨ b.2.Idle K N ps)

variable [DecidableEq κ]

/-- What becomes of a period that has been gathered. -/
theorem turn_of_collect {σ α ε : Type} {next : NextOf σ α ε} {credit : σ → σ} {key : α → κ}
    {bound : Nat} {s s₁ : Selection σ α} {found : List α} (hp : s.pending = [])
    (hrunning : s.finished = false)
    (hcollect : s.collect next key bound = some (.ok found, s₁)) :
    s.turn next credit key bound = some
      (if found = [] then .done (.ok none, { s₁ with finished := true })
      else if picked s₁.positions found = [] then
        if s₁.uniform then .done (.ok none, { s₁ with finished := true }) else .again s₁
      else .again { s₁ with
        pending := picked s₁.positions found, source := credit s₁.source }) := by
  simp only [Selection.turn, hp, hrunning, hcollect, Bool.false_eq_true, if_false,
    List.isEmpty_iff, selectPositions_eq]
  cases hpicked : picked s₁.positions found with
  | nil => simp only [reduceIte]; split_ifs <;> rfl
  | cons v vs => simp only [reduceCtorEq, reduceIte]; split_ifs <;> rfl

/-- A selection that has gone astray hands out what it has, or has no more. -/
theorem Stray.turn (hK : K.Begins) (hd : K.Divides N key) (h : s.Stray K N ps R) : ∃ b,
    Settles (fun n => s.turn (Candidates.next n) (fun c => c.credit 0) key n) (.done b) ∧
      (InstanceSource.selected b.2).halted = true ∧ NextIs K N ps R b := by
  cases hp : s.pending with
  | nil =>
    refine ⟨(.ok none, s), ?_, h.halted, .inr ⟨rfl, .inl h⟩⟩
    filter_upwards with n
    simp only [Selection.turn, hp, h.finished, if_true]
  | cons v pending =>
    obtain ⟨hstray, ⟨hv, hR⟩, hpart⟩ := h.pop hK hd hp
    refine ⟨(.ok (some v), { s with pending }), ?_, hstray.halted,
      .inl ⟨v, rfl, hv, hR, .inr ⟨hstray, hpart⟩⟩⟩
    filter_upwards with n
    simp only [Selection.turn, hp]

/-- A search for the next selected value has gone astray, or it is on its course and at most `k` ranks
are left to gather. -/
def Seeks (K : Course) (N : Value → Int) (ps : List Int) (R : Value → Prop) (k : Nat)
    (s : Selection Candidates Value) : Prop :=
  s.Stray K N ps R ∨ ∃ base U, s.OnCourse K N ps base U R ∧ (s.pending = [] → ∀ w, K.Member w → U w →
    (K.blueprint.years.budget + 1) * Course.yearSeconds < K.rank base w + k)

/-- **A gathered period** holds selected values, or the search goes on behind it, or no period selects
anything. -/
theorem OnCourse.turn_full (hK : K.Begins) (hd : K.Divides N key) (hps : ps ≠ [])
    (h : s.OnCourse K N ps base U R) (hp : s.pending = []) {k : Nat}
    (hrank : ∀ w, K.Member w → U w →
      (K.blueprint.years.budget + 1) * Course.yearSeconds < K.rank base w + k)
    {v w : Value} {c c' : Candidates} (hv : K.Reached base c v) (hfirst : K.First N v)
    (hbehind : ∀ x, K.Member x → (U x ↔ v ≤ x)) (hreached : K.Reached base c' w)
    (hleast : IsLeast {x | K.Member x ∧ N v < N x} w)
    (hcollect : Settles (fun n => s.collect (Candidates.next n) key n)
      (.ok (kept (keptOfPeriod s.positions) (K.group N (N v))),
        { s with source := c', heldBack := some w })) :
    Progresses (fun n s => s.turn (Candidates.next n) (fun c => c.credit 0) key n)
      (Seeks K N ps R) (NextIs K N ps R) k s := by
  have hturn : Settles (fun n => s.turn (Candidates.next n) (fun c => c.credit 0) key n) _ :=
    hcollect.mono fun n hn => turn_of_collect hp h.running hn
  obtain ⟨hwithin, hgrows⟩ := hv.awaits.rank hK hv.member.1 hv.year_eq
  have hvrank := hrank v hv.member ((hbehind v hv.member).mpr le_rfl)
  have hgroup : K.group N (N v) ≠ [] :=
    List.ne_nil_of_mem ((hd.mem_group hK).mpr ⟨hv.member, rfl⟩)
  have hpicked : picked s.positions (K.group N (N v)) = picked ps (K.group N (N v)) := by
    rw [h.positions_eq]
  dsimp only at hturn
  rw [if_neg (kept_ne_nil (h.positions_eq ▸ hps) hgroup), picked_kept, hpicked] at hturn
  split_ifs at hturn with hnil huniform
  · -- all periods have equally many members, so no period selects anything
    refine .inl ⟨_, hturn, .inr ⟨rfl, .inr ⟨rfl, hp, ?_, fun x => ?_⟩⟩⟩
    · simp [InstanceSource.halted, hreached.awaits.not_gaveUp hK]
    · exact (h.even huniform).not_selected hgroup hnil x
  · have hnext := h.pick_none hK hd hp hv.member hfirst hbehind hleast hreached hnil
    refine .inr ⟨_, ((K.blueprint.years.budget + 1) * Course.yearSeconds - K.rank base v).toNat,
      hturn, by omega, .inr ⟨base, (w ≤ ·), hnext, fun _ x hx hwx => ?_⟩⟩
    have hlater : N v < N x := hleast.1.2.trans_le (hd.mono w x hleast.1.1 hx hwx)
    have hvx : v < x := lt_of_not_ge fun hle => (hd.mono x v hx hv.member hle).not_gt hlater
    have := hgrows x hx.1 hvx
    omega
  · have hnext := h.pick_some hK hd hp hv.member hfirst hbehind hleast hreached
    exact .inr ⟨_, 0, hturn, by omega, .inr ⟨_, _, hnext, fun hnone => absurd hnone hnil⟩⟩

/-- **A period that has been cut off** leads the search astray. -/
theorem OnCourse.turn_cutOff (hK : K.Begins) (hd : K.Divides N key) (h : s.OnCourse K N ps base U R)
    (hp : s.pending = []) {k : Nat} (hk : 0 < k) {v u : Value} {seen : List Value} {c : Candidates}
    (hv : K.Member v) (hfirst : K.First N v) (hbehind : ∀ x, K.Member x → (U x ↔ v ≤ x))
    (hcut : K.CutOff N base v u seen)
    (hcollect : Settles (fun n => s.collect (Candidates.next n) key n)
      (.ok (kept (keptOfPeriod s.positions) seen),
        { s with source := c, heldBack := none, finished := true })) :
    Progresses (fun n s => s.turn (Candidates.next n) (fun c => c.credit 0) key n)
      (Seeks K N ps R) (NextIs K N ps R) k s := by
  have hturn : Settles (fun n => s.turn (Candidates.next n) (fun c => c.credit 0) key n) _ :=
    hcollect.mono fun n hn => turn_of_collect hp h.running hn
  dsimp only at hturn
  rw [picked_kept, h.positions_eq] at hturn
  have hstray : ∀ s' : Selection Candidates Value, s'.finished = true → s'.heldBack = none →
      s'.pending.Sublist (picked ps seen) → s'.Stray K N ps R := fun _ =>
    h.stray hK hd hp hv hfirst hbehind hcut
  split_ifs at hturn with hnone hnil huniform
  · exact .inl ⟨_, hturn, .inr ⟨rfl, .inl (hstray _ rfl rfl (by simp [hp]))⟩⟩
  · exact .inl ⟨_, hturn, .inr ⟨rfl, .inl (hstray _ rfl rfl (by simp [hp]))⟩⟩
  · exact .inr ⟨_, 0, hturn, hk, .inl (hstray _ rfl rfl (by simp [hp]))⟩
  · exact .inr ⟨_, 0, hturn, hk, .inl (hstray _ rfl rfl (.refl _))⟩

/-- **A turn** hands out the next selected value, or gathers a period. -/
theorem Seeks.turn (hK : K.Begins) (hcredited : K.credited = none) (hd : K.Divides N key)
    (hps : ps ≠ []) {k : Nat} (h : Seeks K N ps R k s) :
    Progresses (fun n s => s.turn (Candidates.next n) (fun c => c.credit 0) key n)
      (Seeks K N ps R) (NextIs K N ps R) k s := by
  rcases h with hstray | ⟨base, U, h, hrank⟩
  · obtain ⟨b, hturn, -, hnext⟩ := hstray.turn hK hd
    exact .inl ⟨b, hturn, hnext⟩
  cases hp : s.pending with
  | cons v pending =>
    obtain ⟨h', hleast⟩ := h.pop hK hd hp
    refine .inl ⟨(.ok (some v), { s with pending }), ?_,
      .inl ⟨v, rfl, hleast.1.1.member hd hK, hleast.1.2, .inl ⟨⟨base, U, h'⟩, hleast⟩⟩⟩
    filter_upwards with n
    simp only [Selection.turn, hp]
  | nil =>
    obtain ⟨found, s₁, hcollect, hcollects⟩ := h.front.collect hK hcredited hd
      (h.positions_eq ▸ hps)
    rcases hcollects with ⟨c, rfl, rfl, -, hex⟩ | ⟨v, c, c', hv, hfirst, hbehind, hout⟩
    · -- the years have given up before the first member of a period
      have hturn : Settles (fun n => s.turn (Candidates.next n) (fun c => c.credit 0) key n) _ :=
        hcollect.mono fun n hn => turn_of_collect hp h.running hn
      rw [if_pos rfl] at hturn
      exact .inl ⟨_, hturn, .inr ⟨rfl, .inl (h.stray_nil hK hd hex rfl rfl hp)⟩⟩
    rcases hout with ⟨w, rfl, rfl, hreached, hleast⟩ | ⟨rfl, u, seen, rfl, hcut⟩
    · exact h.turn_full hK hd hps hp (hrank hp) hv hfirst hbehind hreached hleast hcollect
    · have hwithin := (hv.awaits.rank hK hv.member.1 hv.year_eq).1
      have hvrank := hrank hp v hv.member ((hbehind v hv.member).mpr le_rfl)
      exact h.turn_cutOff hK hd hp (by omega) hv.member hfirst hbehind hcut hcollect

/-- **The next selected value** is the first one that is awaited, unless the years give up. -/
theorem OnCourse.next (hK : K.Begins) (hcredited : K.credited = none) (hd : K.Divides N key)
    (hps : ps ≠ []) (h : s.OnCourse K N ps base U R) : ∃ b,
    Settles (fun n => s.next (Candidates.next n) (fun c => c.credit 0) key n) b ∧
      NextIs K N ps R b := by
  have hseeks : Seeks K N ps R ((K.blueprint.years.budget + 1) * Course.yearSeconds + 1).toNat s :=
    .inr ⟨base, U, h, fun _ _ _ _ => by omega⟩
  -- a period that selects nothing moves on to members of a higher rank, and ranks are bounded
  exact loop_settles (Selection.patient_turn Course.patient_nextCandidate) (Seeks K N ps R)
    (NextIs K N ps R) (fun _ _ hseeks => hseeks.turn hK hcredited hd hps) hseeks

/-- A selection always has an answer, on its course or astray; once it has gone astray it stays so. -/
theorem exists_next (hK : K.Begins) (hcredited : K.credited = none) (hd : K.Divides N key)
    (hps : ps ≠ []) (h : (∃ base U, s.OnCourse K N ps base U R) ∨ s.Stray K N ps R) : ∃ b,
    Settles (fun n => s.next (Candidates.next n) (fun c => c.credit 0) key n) b ∧
      NextIs K N ps R b ∧
      ((InstanceSource.selected s).halted = true → (InstanceSource.selected b.2).halted = true) := by
  rcases h with ⟨base, U, h⟩ | h
  · obtain ⟨b, hsettles, hnext⟩ := h.next hK hcredited hd hps
    refine ⟨b, hsettles, hnext, fun hhalted => ?_⟩
    rw [h.not_halted hK] at hhalted
    exact absurd hhalted (by simp)
  · obtain ⟨b, hturn, hhalted, hnext⟩ := h.turn hK hd
    exact ⟨b, hturn.finish, hnext, fun _ => hhalted⟩

end Selection

/-! ### The supply -/

/-- **The supply of a selection is lawful.** -/
theorem Course.Begins.lawful_selectedSupply (hK : K.Begins) (hcredited : K.credited = none)
    {r : Rule} {start : Value} (hkind : start.hasTime = K.hasTime)
    (hd : K.Divides N (periodKey r.freq r.weekStart)) (hps : ps ≠ []) :
    (K.selectedSupply N ps).Lawful r start where
  member v hv := by
    have hm := hv.member hd hK
    exact ⟨hK.isReal hm.1, hm.1.hasTime.trans hkind.symm⟩
  next := by
    rintro _ R ⟨s, rfl, hs⟩
    obtain ⟨⟨a, s'⟩, hsettles, hnext, hastray⟩ := Selection.exists_next hK hcredited hd hps hs
    refine ⟨a, .selected s', hsettles.map fun b => (b.1, InstanceSource.selected b.2), hastray, ?_⟩
    rcases hnext with ⟨v, rfl, hv, hR, hout⟩ | ⟨rfl, hout⟩
    · refine .inl ⟨v, rfl, ⟨hK.isReal hv.1, hv.1.hasTime.trans hkind.symm, hR⟩, ?_⟩
      rcases hout with ⟨hcourse, hleast⟩ | ⟨hstray, -⟩
      · exact ⟨⟨s', rfl, .inl hcourse⟩, .inr hleast⟩
      · exact ⟨⟨s', rfl, .inr hstray⟩, .inl hstray.halted⟩
    · exact .inr ⟨rfl, hout.imp Selection.Stray.halted fun hidle w hw => absurd hw (hidle.none w)⟩
  over_from := by
    rintro src R (hhalted | hnone)
    · exact .inl hhalted
    · exact .inr fun w hw hR => hnone w hw hR.1

/-- A selection that has not given up is over only if nothing is selected any more. -/
theorem Course.honest_selectedSupply (K : Course) (N : Value → Int) (ps : List Int) :
    (K.selectedSupply N ps).Honest where
  straight hgoes hhalted := absurd (hhalted.symm.trans hgoes) (by simp)
  none_left hgoes hover := hover.resolve_left fun hhalted =>
    absurd (hhalted.symm.trans hgoes) (by simp)

variable {r : Rule} {start : Value} {budget y : Int}

theorem Rule.sourceOf_selection (hpos : r.bySetPos ≠ []) (c : Candidates) :
    Series.sourceOf r c = .selected
      { source := c, positions := r.bySetPos, uniform := Series.hasUniformPeriods r } := by
  rw [Series.sourceOf, if_neg (by simpa using hpos)]

namespace Course

/-- A chain that has just been filled sets a selection on its course. -/
theorem Awaits.onCourse (hK : K.Begins) (hd : K.Divides N key)
    (hfirst : K.blueprint.start[0]? = some y) {uniform : Bool} (heven : uniform = true → K.Even N)
    {c : Candidates} (hawaits : K.Awaits (y - 1) c fun w => y ≤ w.date.year) :
    ({ source := c, positions := ps, uniform } : Selection _ _).OnCourse K N ps (y - 1)
      (fun w => y ≤ w.date.year) (fun w => y ≤ w.date.year) where
  positions_eq := rfl
  even := heven
  running := rfl
  front := .fresh rfl hawaits fun _ hw => hK.year_le hfirst hw.1
  ascending := List.Pairwise.nil
  selected := by simp
  before := by simp
  awaited := by simp
  within := fun _ _ hw => hw
  upward := fun _ _ _ _ hlt hv => hv.trans (Value.year_le_of_le hlt.le)
  credited := fun _ hv hnot => absurd (hK.year_le hfirst (hv.member hd hK).1) hnot

/-- **A selection sets itself up** as the source of a rule with positions. -/
theorem Unstarted.setsUp_selection {c : Candidates} (h : K.Unstarted c) (hK : K.Begins)
    (hfirst : K.blueprint.start[0]? = some start.date.year) (hd : K.Divides N key)
    (hpos : r.bySetPos ≠ []) (heven : Series.hasUniformPeriods r = true → K.Even N) :
    (K.selectedSupply N r.bySetPos).SetsUp r start c := by
  simp only [Supply.SetsUp, Rule.sourceOf_selection hpos]
  rcases h.run hK hfirst with ⟨c', hrun, hawaits⟩ | ⟨c', hrun, hgave, -⟩
  · exact .inl ⟨c', fun w => start.date.year ≤ w.date.year, _, hrun,
      ⟨_, rfl, .inl ⟨_, _, hawaits.onCourse hK hd hfirst heven⟩⟩,
      fun v w _ hlt hv => hv.trans (Value.year_le_of_le hlt.le),
      fun w _ hle => Value.year_le_of_le hle, fun w hw _ hle => low_of_year start hw hle⟩
  · exact .inr ⟨c', hrun, .inl (by simp [InstanceSource.halted, hgave])⟩

end Course

namespace Rule

/-- A rule with positions fills the budget up for selected instances alone. -/
theorem credited_course_eq_none (hpos : r.bySetPos ≠ []) :
    (r.course start budget).credited = none := by
  have hempty : r.bySetPos.isEmpty = false := by simpa using hpos
  rcases Rule.course_cases r start budget with ⟨-, hc⟩ | ⟨t, -, -, hc⟩ | ⟨-, hc⟩ <;> rw [hc, hempty] <;>
    rfl

/-- The supply of a rule with positions. -/
def selectedSupply (r : Rule) (start : Value) (budget : Int) : Supply :=
  (r.course start budget).selectedSupply r.periodNumber r.bySetPos

/-- A chain that has just been filled sets a rule's selection on its course. -/
theorem onCourse_of_awaits (h : r.Admits start) (hbudget : 0 ≤ budget) (hpos : r.bySetPos ≠ [])
    {c : Candidates} (hawaits : (r.course start budget).Awaits (start.date.year - 1) c
      fun w => start.date.year ≤ w.date.year) :
    ({ source := c, positions := r.bySetPos, uniform := Series.hasUniformPeriods r } :
      Selection _ _).OnCourse (r.course start budget) r.periodNumber r.bySetPos
        (start.date.year - 1) (fun w => start.date.year ≤ w.date.year)
        (fun w => start.date.year ≤ w.date.year) :=
  hawaits.onCourse (begins_course h hbudget) (divides h hbudget) (first_start r start budget)
    fun hu => even_course h hbudget hpos (withinDay_of_uniform hu)

/-- **A rule with positions** takes its instances from a selection. -/
theorem begins_selection (h : r.Admits start) (hbudget : 0 ≤ budget) (hpos : r.bySetPos ≠ []) :
    (r.selectedSupply start budget).Begins r start budget where
  lawful := (begins_course h hbudget).lawful_selectedSupply (credited_course_eq_none hpos)
    (course_hasTime r start budget).symm (divides h hbudget) hpos
  unreachable hreach _ hw := not_member_of_not_reaches h hbudget hreach
    (hw.member (divides h hbudget) (begins_course h hbudget))
  run := (unstarted_candidates r start budget).setsUp_selection (begins_course h hbudget)
    (first_start r start budget) (divides h hbudget) hpos
    fun hu => even_course h hbudget hpos (withinDay_of_uniform hu)

end Rule

end Recurrence
