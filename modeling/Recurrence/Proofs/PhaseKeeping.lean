/-
Recurrence/Proofs/PhaseKeeping.lean

Steppers keep their phase.

A stepper stays in one period after another, and in each it is asked any number of times.  The
units that it may hand out in a period are those of `StepUnit.inPhase`, said on one scale for all
periods and without any memory.  It hands them out in order and then rolls over, however often it
is asked and whatever periods came before: some may have been left out, some left early, and
some may have no unit in phase.

One call takes the first of the numbers that are unused (`Leaves.generate`), so the calls of a
stay take them in order (`Leaves.answerAll`).  After a stay a stepper is ready for every later
period, and that is all that the next stay needs (`answerStays_eq`).
-/
import Recurrence.Proofs.Meaning.Phase

namespace Recurrence

/-! ### Units in phase -/

namespace StepUnit

/-- Units on one scale: months from the year 0 on, days by their number, and hours, minutes and
seconds from the start of day 0 on. -/
def ordinal (u : StepUnit) (f : Fields) : Int :=
  match u with
  | month => f.year * 12 + (f.month - 1)
  | day => f.dayNumber
  | hour => f.dayNumber * 24 + f.hour
  | minute => (f.dayNumber * 24 + f.hour) * 60 + f.minute
  | second => ((f.dayNumber * 24 + f.hour) * 60 + f.minute) * 60 + f.second

/-- The units of a period that are the start's or lie a whole number of intervals after it, as
numbers of the field. -/
def inPhase (u : StepUnit) (interval : Int) (start : Fields) (period : List Int) : List Int :=
  ((List.range (u.span (.ofPath period)).toNat).map fun k : Nat => u.base + k).filter fun n =>
    let distance := u.ordinal (.ofPath (period ++ [n])) - u.ordinal start
    0 ≤ distance && distance % interval == 0

variable (u : StepUnit) {p : List Int}

theorem ordinal_eq (f : Fields) : u.ordinal f = u.periodStart f + u.offset f := by
  cases u with
  | day => exact Date.dayNumber_eq f.date
  | month | hour | minute | second =>
    simp only [ordinal, periodStart, offset, base, field, Fields.get, sub_zero]

theorem ordinal_ofPath (hp : p.length = u.field.level) (n : Int) :
    u.ordinal (.ofPath (p ++ [n])) = u.periodStart (.ofPath p) + (n - u.base) := by
  have hlevel := u.field.level_lt
  have hfull : (Fields.ofPath (p ++ [n])).toList.take (p.length + 1) = p.take p.length ++ [n] := by
    have hlen : (p ++ [n]).length = p.length + 1 := List.length_append
    rw [List.take_length, ← hlen]
    exact Fields.take_ofPath (by omega)
  have hcoarse := take_eq_of_take_succ hfull le_rfl
  have hown := getElem?_of_take_succ hfull le_rfl
  rw [List.take_length, hp] at hcoarse
  rw [hp, Fields.getElem_toList] at hown
  rw [ordinal_eq, offset, Option.some.inj hown, ← u.periodStart_ofPath, hcoarse]

theorem pairwise_inPhase (interval : Int) (start : Fields) :
    (u.inPhase interval start p).Pairwise (· < ·) := by
  refine List.Pairwise.filter _ ?_
  rw [List.pairwise_map]
  refine List.pairwise_lt_range.imp ?_
  intro a b h
  omega

theorem mem_inPhase (hp : p.length = u.field.level) {interval : Int} {start : Fields} {n : Int} :
    n ∈ u.inPhase interval start p ↔ calendarTree p n ∧
      u.ordinal start ≤ u.ordinal (.ofPath (p ++ [n])) ∧
      interval ∣ u.ordinal (.ofPath (p ++ [n])) - u.ordinal start := by
  have hslot : n ∈ (List.range (u.span (.ofPath p)).toNat).map (fun k : Nat => u.base + k) ↔
      calendarTree p n := by
    rw [u.calendarTree_iff hp, List.mem_map]
    constructor
    · rintro ⟨k, hk, rfl⟩
      have := List.mem_range.mp hk
      omega
    · intro h
      exact ⟨(n - u.base).toNat, List.mem_range.mpr (by omega), by omega⟩
  simp only [inPhase, List.mem_filter, hslot, Bool.and_eq_true, decide_eq_true_eq, beq_iff_eq,
    sub_nonneg, Int.dvd_iff_emod_eq_zero]

end StepUnit

/-! ### Stays -/

namespace Stepper

/-- A stay in one period: the numbers of the coarser fields, and the fields that each of the calls
finds. -/
structure Stay where
  period : List Int
  calls : List Fields

/-- Whether a stay is one in a period of the calendar, the coarser fields being those of the period
at every call. -/
structure Stay.IsIn (u : StepUnit) (stay : Stay) : Prop where
  length_period : stay.period.length = u.field.level
  node : calendarTree.Node stay.period
  calls : ∀ f ∈ stay.calls, f.toList.take u.field.level = stay.period

/-- Ask a stepper again and again, and keep what it answers. -/
def answerAll (g : Stepper) : List Fields → List (Step × Fields) × Stepper
  | [] => ([], g)
  | f :: calls =>
    let (step, g, f) := g.generate f
    let (answers, g) := g.answerAll calls
    ((step, f) :: answers, g)

/-- What a stepper answers in one stay after another. -/
def answerStays (g : Stepper) : List Stay → List (List (Step × Fields))
  | [] => []
  | stay :: stays =>
    let (answers, g) := g.answerAll stay.calls
    answers :: g.answerStays stays

/-- The answer that sets a field to the number that is due, or that none is. -/
def dueAnswer (field : Field) (f : Fields) : Option Int → Step × Fields
  | some n => (.value, f.set field n)
  | none => (.rollover, f)

/-- A stepper that was `g₀` at first has left these numbers of a period, in this order. -/
def Leaves (g₀ : Stepper) (start p : List Int) (g : Stepper) (ns : List Int) : Prop :=
  ∃ last k, At g₀ start p g last k ∧
    Unused (fun n => g₀.Names p n ∧ FromStart start p n) last ns

variable {g₀ g : Stepper} {start p q : List Int} {ns : List Int}

/-- **One call** takes the first of the numbers that are left. -/
theorem Leaves.generate (hb : g₀.Begins start) {f : Fields}
    (hf : f.toList.take g₀.unit.field.level = p) (h : Leaves g₀ start p g ns) :
    ∃ g', Leaves g₀ start p g' ns.tail ∧
      g.generate f = ((dueAnswer g₀.unit.field f ns.head?).1, g',
        (dueAnswer g₀.unit.field f ns.head?).2) := by
  obtain ⟨last, k, hat, hns⟩ := h
  rcases hat.generate hb hf with ⟨v, g', k', hanswer, hv, hat', -⟩ | ⟨g', k', hanswer, hnone, hat'⟩
  · cases ns with
    | nil => exact absurd hv.past (hns.not_past hv.holds)
    | cons n ns =>
      obtain rfl := hv.eq hns.isNext
      exact ⟨g', ⟨some v, k', hat', hns.tail⟩, hanswer⟩
  · cases ns with
    | nil => exact ⟨g', ⟨last, k', hat', hns⟩, hanswer⟩
    | cons n ns => exact absurd hns.isNext.past (hnone n hns.isNext.holds)

/-- **The calls of a stay** take the numbers in order, and those after the last one roll over. -/
theorem Leaves.answerAll (hb : g₀.Begins start) {calls : List Fields}
    (hcalls : ∀ f ∈ calls, f.toList.take g₀.unit.field.level = p) (h : Leaves g₀ start p g ns) :
    ∃ g', Leaves g₀ start p g' (ns.drop calls.length) ∧
      g.answerAll calls = (calls.mapIdx fun i f => dueAnswer g₀.unit.field f ns[i]?, g') := by
  induction calls generalizing g ns with
  | nil => exact ⟨g, h, rfl⟩
  | cons f calls ih =>
    obtain ⟨hf, hcalls⟩ := List.forall_mem_cons.mp hcalls
    obtain ⟨g₁, h₁, hanswer⟩ := h.generate hb hf
    obtain ⟨g₂, h₂, hanswers⟩ := ih hcalls h₁
    refine ⟨g₂, by simpa using h₂, ?_⟩
    simp [Stepper.answerAll, hanswer, hanswers, List.mapIdx_cons, List.head?_eq_getElem?]

/-- **One stay after another**: from a stepper that is ready for each of the periods, every stay
gets the numbers of its own period from the first on. -/
theorem answerStays_eq (hb : g₀.Begins start) {stays : List Stay}
    (hstays : ∀ stay ∈ stays, stay.IsIn g₀.unit)
    (hperiods : (stays.map Stay.period).Pairwise (· < ·)) {named : List Int → List Int}
    (hnamed : ∀ stay ∈ stays, Unused
      (fun n => g₀.Names stay.period n ∧ FromStart start stay.period n) none (named stay.period))
    (hready : ∀ stay ∈ stays, ∃ k, At g₀ start stay.period g none k) :
    g.answerStays stays = stays.map fun stay =>
      stay.calls.mapIdx fun i f => dueAnswer g₀.unit.field f (named stay.period)[i]? := by
  induction stays generalizing g with
  | nil => rfl
  | cons stay stays ih =>
    obtain ⟨hstay, hstays⟩ := List.forall_mem_cons.mp hstays
    obtain ⟨hnow, hnamed⟩ := List.forall_mem_cons.mp hnamed
    obtain ⟨⟨k, hat⟩, -⟩ := List.forall_mem_cons.mp hready
    obtain ⟨hlater, hperiods⟩ := List.pairwise_cons.mp hperiods
    obtain ⟨g', ⟨last, k', hat', -⟩, hanswers⟩ :=
      Leaves.answerAll hb hstay.calls ⟨none, k, hat, hnow⟩
    have hready' : ∀ later ∈ stays, ∃ k, At g₀ start later.period g' none k := by
      intro later hmem
      have hin := hstays later hmem
      exact hat'.later hstay.length_period hin.length_period hstay.node hin.node
        (hlater _ (List.mem_map_of_mem hmem))
    simp [Stepper.answerStays, hanswers, ih hstays hperiods hnamed hready']

/-! ### From a start on -/

section Start

variable {u : StepUnit} {interval : Int} {s : Value}

theorem names_start_iff (hp : p.length = u.field.level) (n : Int) :
    (Stepper.start u interval s).Names p n ↔ calendarTree p n ∧
      interval ∣ u.ordinal (.ofPath (p ++ [n])) - u.ordinal (.ofValue s) := by
  rw [u.ordinal_ofPath hp, u.ordinal_eq]
  show _ ∧ interval ∣ u.periodStart (.ofPath p) + (n - u.base) -
    (u.periodStart (.ofValue s) + u.offset (.ofValue s) - interval) ↔ _
  rw [sub_sub_eq_add_sub, add_sub_right_comm, Int.dvd_add_left (Int.dvd_refl _)]

/-- In a period that is not before the start's, the numbers from the start's own on are those of
the units from the start's on. -/
theorem fromStart_iff (hs : s.IsReal) (hp : p.length = u.field.level) (np : calendarTree.Node p)
    (hle : s.path.take u.field.level ≤ p) {n : Int} (hn : calendarTree p n) :
    FromStart s.path p n ↔ u.ordinal (.ofValue s) ≤ u.ordinal (.ofPath (p ++ [n])) := by
  have hlen : (s.path.take u.field.level).length = u.field.level :=
    (Fields.ofValue s).length_take_level u.field
  have hown : s.path[u.field.level]? = some ((Fields.ofValue s).get u.field) :=
    (Fields.ofValue s).getElem_toList u.field
  have hperiod : u.periodStart (.ofPath (s.path.take u.field.level)) = u.periodStart (.ofValue s) :=
    u.periodStart_ofPath (.ofValue s)
  have hstart := (u.calendarTree_iff hlen _).mp (calendarTree_path hs u.field)
  have hn := (u.calendarTree_iff hp n).mp hn
  rw [u.ordinal_ofPath hp, u.ordinal_eq, StepUnit.offset, FromStart, hp, hown]
  rcases hle.lt_or_eq with hlt | rfl
  · -- a later period starts after all units of the start's
    have hafter := u.periodStart_lt hlen hp ((node_path hs).take _) np hlt
    rw [hperiod] at hafter
    simp only [hlt.ne', false_implies, true_iff]
    omega
  · rw [hperiod]
    simp

/-- In a period that is not before the start's, the units in phase are those that a stepper names
from the start on. -/
theorem unused_inPhase (hs : s.IsReal) (hp : p.length = u.field.level) (np : calendarTree.Node p)
    (hle : s.path.take u.field.level ≤ p) :
    Unused (fun n => (Stepper.start u interval s).Names p n ∧ FromStart s.path p n) none
      (u.inPhase interval (.ofValue s) p) := by
  refine ⟨u.pairwise_inPhase interval _, fun n => ?_⟩
  show n ∈ _ ↔ (_ ∧ _) ∧ _
  rw [u.mem_inPhase hp, names_start_iff hp, and_iff_left (past_none n), and_assoc]
  refine and_congr_right fun hn => ?_
  rw [fromStart_iff hs hp np hle hn, and_comm]

end Start

end Stepper

/-- **Steppers keep their phase.**  Take any unit, any interval and any real start, and let the
stepper stay in one period after another, in ascending order and from the start's own on, and be
asked there any number of times.  Whatever periods are left out, left early or without a unit in
phase, the calls of a stay are answered with the units of its period that are in phase, each once
and in order, and with a rollover once they are used up. -/
theorem steppers_keep_phase (u : StepUnit) {interval : Int} (hi : 1 ≤ interval) {s : Value}
    (hs : s.IsReal) {stays : List Stepper.Stay} (hstays : ∀ stay ∈ stays, stay.IsIn u)
    (hperiods : (stays.map Stepper.Stay.period).Pairwise (· < ·))
    (hfirst : ∀ stay ∈ stays.head?, s.path.take u.field.level ≤ stay.period) :
    (Stepper.start u interval s).answerStays stays = stays.map fun stay =>
      stay.calls.mapIdx fun i f =>
        Stepper.dueAnswer u.field f (u.inPhase interval (.ofValue s) stay.period)[i]? := by
  have hb : (Stepper.start u interval s).Begins s.path := (begins_steppedFrom hi rfl).1
  have hstart : ∀ stay ∈ stays, s.path.take u.field.level ≤ stay.period := by
    cases stays with
    | nil => simp
    | cons first later =>
      have hfirst := hfirst first rfl
      refine List.forall_mem_cons.mpr ⟨hfirst, fun stay hstay => ?_⟩
      exact hfirst.trans (List.rel_of_pairwise_cons hperiods (List.mem_map_of_mem hstay)).le
  refine Stepper.answerStays_eq hb hstays hperiods ?_ ?_
  · intro stay hstay
    obtain ⟨hlen, hnode, -⟩ := hstays stay hstay
    exact Stepper.unused_inPhase hs hlen hnode (hstart stay hstay)
  · intro stay hstay
    obtain ⟨hlen, hnode, -⟩ := hstays stay hstay
    exact hb.ready u.field.level_lt (node_path hs) hlen hnode (hstart stay hstay)

/-- Every thirtieth day from new year 2023 on: January is left after the first of its two days,
February has none, and the stepper is asked next in May. -/
theorem steppers_keep_phase_thirty_days :
    let stays : List Stepper.Stay :=
      [⟨[2023, 1], [⟨2023, 1, 1, 0, 0, 0⟩]⟩,
        ⟨[2023, 2], [⟨2023, 2, 1, 0, 0, 0⟩, ⟨2023, 2, 1, 0, 0, 0⟩]⟩,
        ⟨[2023, 5], [⟨2023, 5, 1, 9, 0, 0⟩, ⟨2023, 5, 1, 9, 0, 0⟩, ⟨2023, 5, 31, 9, 0, 0⟩]⟩]
    (Stepper.start .day 30 (.ofDate ⟨2023, 1, 1⟩)).answerStays stays =
      [[(.value, ⟨2023, 1, 1, 0, 0, 0⟩)],
        [(.rollover, ⟨2023, 2, 1, 0, 0, 0⟩), (.rollover, ⟨2023, 2, 1, 0, 0, 0⟩)],
        [(.value, ⟨2023, 5, 1, 9, 0, 0⟩), (.value, ⟨2023, 5, 31, 9, 0, 0⟩),
          (.rollover, ⟨2023, 5, 31, 9, 0, 0⟩)]] := by
  intro stays
  have hstays : ∀ stay ∈ stays, stay.IsIn .day := by
    simp only [stays, List.forall_mem_cons]
    exact ⟨⟨rfl, node_month.mpr (by decide), by decide⟩,
      ⟨rfl, node_month.mpr (by decide), by decide⟩,
      ⟨rfl, node_month.mpr (by decide), by decide⟩, by simp⟩
  rw [steppers_keep_phase .day (by decide) (by decide) hstays (by decide) (by decide)]
  decide +kernel

end Recurrence
