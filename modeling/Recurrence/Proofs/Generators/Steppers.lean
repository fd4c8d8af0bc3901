/-
Recurrence/Proofs/Generators/Steppers.lean

Steppers hand out the units in phase, in every period.

A stepper remembers nothing but its last unit and the period of it.  The invariant
`Stepper.At` says what this means below a node: if the node's period is the
remembered one, then the units after the last are those not used so far; if it is a
later one, nothing of it has been used.  Because the phase is all that counts, a
stepper may be asked in any later period, whether or not it was asked in those
between (`Stepper.At.later`).
-/
import Recurrence.Proofs.Generators.Answers

namespace Recurrence.Stepper

/-- The unit that a child of a node stands for. -/
def unitAt (g : Stepper) (p : List Int) (n : Int) : Int :=
  g.unit.periodStart (.ofPath p) + (n - g.unit.base)

/-- The children of a node that are in phase. -/
def Names (g : Stepper) (p : List Int) (n : Int) : Prop :=
  calendarTree p n ∧ g.interval ∣ g.unitAt p n - g.last

/-- A stepper that has not been asked yet: its first unit is that of the start. -/
structure Begins (g : Stepper) (start : List Int) : Prop where
  interval_pos : 1 ≤ g.interval
  period_eq : g.period = g.unit.periodStart (.ofPath (start.take g.unit.field.level))
  last_eq : ∀ s ∈ start[g.unit.field.level]?,
    g.last + g.interval = g.period + (s - g.unit.base)

/-- What a stepper that was `g₀` at first remembers below the node `p`, having used its
children up to `last`. -/
structure At (g₀ : Stepper) (start p : List Int) (g : Stepper) (last : Option Int) (k : Nat) :
    Prop where
  unit_eq : g.unit = g₀.unit
  interval_eq : g.interval = g₀.interval
  phase : g₀.interval ∣ g.last - g₀.last
  start_le : g₀.period ≤ g.period
  period_le : g.period ≤ g₀.unit.periodStart (.ofPath p)
  last_lt : g.last < g₀.unit.periodStart (.ofPath p) + g₀.unit.span (.ofPath p)
  fresh : g.period < g₀.unit.periodStart (.ofPath p) →
    last = none ∧ g.last < g₀.unit.periodStart (.ofPath p) ∧ g₀.unit.span (.ofPath p) < k
  same : g.period = g₀.unit.periodStart (.ofPath p) →
    g.period ≤ g.last + g.interval ∧ g.period + g₀.unit.span (.ofPath p) - g.last ≤ k ∧
      ∀ n, g₀.Names p n → (FromStart start p n ∧ Past last n ↔ g.last < g₀.unitAt p n)

variable {g₀ g : Stepper} {start p q : List Int} {last : Option Int} {k : Nat}

/-! ### The next slot -/

/-- In a new period the next slot is the first one in phase. -/
theorem nextSlot_of_ne {period : Int} (hi : 1 ≤ g.interval) (hp : period ≠ g.period) :
    0 ≤ g.nextSlot period ∧ g.interval ∣ period + g.nextSlot period - g.last ∧
      ∀ t, 0 ≤ t → g.interval ∣ period + t - g.last → g.nextSlot period ≤ t := by
  have hpos : 0 < g.interval := by omega
  have hslot : g.nextSlot period =
      (g.interval - (period - g.last) % g.interval) % g.interval := by
    rw [nextSlot, if_neg hp, Int.fmod_eq_emod_of_nonneg _ hpos.le,
      Int.fmod_eq_emod_of_nonneg _ hpos.le]
  have hnonneg := Int.emod_nonneg (g.interval - (period - g.last) % g.interval) hpos.ne'
  have hlt := Int.emod_lt_of_pos (g.interval - (period - g.last) % g.interval) hpos
  have hdvd : g.interval ∣ period + g.nextSlot period - g.last := by
    rw [hslot, show period + (g.interval - (period - g.last) % g.interval) % g.interval - g.last =
      (period - g.last) + (g.interval - (period - g.last) % g.interval) % g.interval by omega]
    apply Int.dvd_of_emod_eq_zero
    rw [Int.add_emod_emod, show (period - g.last) + (g.interval - (period - g.last) % g.interval) =
      ((period - g.last) - (period - g.last) % g.interval) + g.interval by omega,
      Int.add_emod_right]
    exact Int.emod_eq_zero_of_dvd Int.dvd_self_sub_emod
  rw [hslot] at hdvd ⊢
  refine ⟨hnonneg, hdvd, ?_⟩
  intro t ht htd
  -- two slots in phase lie a multiple of the interval apart
  by_contra hgt
  have := Int.le_of_dvd (by omega) (Int.dvd_sub hdvd htd)
  omega

/-- Within a period the next slot lies one interval on. -/
theorem nextSlot_self : g.nextSlot g.period = g.last - g.period + g.interval := by
  rw [nextSlot, if_pos rfl]

/-! ### What asking keeps -/

theorem At.names_congr (h : At g₀ start p g last k) {n : Int} (hn : g₀.Names p n) :
    g.interval ∣ g₀.unitAt p n - g.last := by
  rw [h.interval_eq, show g₀.unitAt p n - g.last =
    (g₀.unitAt p n - g₀.last) - (g.last - g₀.last) by omega]
  exact Int.dvd_sub hn.2 h.phase

/-- In a period after that of the start everything is after the start. -/
theorem At.fromStart_of_lt (hb : g₀.Begins start) (hp : p.length = g₀.unit.field.level)
    (h : At g₀ start p g last k) (hlt : g.period < g₀.unit.periodStart (.ofPath p)) (n : Int) :
    FromStart start p n := by
  intro hps
  have hstart := h.start_le
  rw [hb.period_eq, ← hp, ← hps] at hstart
  omega

/-- A slot in phase with the last unit stands for a number in phase with the start. -/
theorem At.names_slot (hp : p.length = g₀.unit.field.level) (h : At g₀ start p g last k)
    {slot : Int} (hd : g.interval ∣ g₀.unit.periodStart (.ofPath p) + slot - g.last)
    (h0 : 0 ≤ slot) (hs : slot < g₀.unit.span (.ofPath p)) :
    g₀.Names p (slot + g₀.unit.base) := by
  refine ⟨(g₀.unit.calendarTree_iff hp _).mpr ⟨by omega, by omega⟩, ?_⟩
  rw [h.interval_eq] at hd
  rw [unitAt, show g₀.unit.periodStart (.ofPath p) + (slot + g₀.unit.base - g₀.unit.base) - g₀.last
    = (g₀.unit.periodStart (.ofPath p) + slot - g.last) + (g.last - g₀.last) by omega]
  exact Int.dvd_add hd h.phase

/-- The slot of the least number in phase that is left below `p`, if the period has it. -/
structure IsNextSlot (g₀ : Stepper) (start p : List Int) (last : Option Int) (slot : Int) :
    Prop where
  nonneg : 0 ≤ slot
  left : slot < g₀.unit.span (.ofPath p) →
    (g₀.Names p (slot + g₀.unit.base) ∧ FromStart start p (slot + g₀.unit.base)) ∧
      Past last (slot + g₀.unit.base)
  least : ∀ n, g₀.Names p n ∧ FromStart start p n → Past last n → slot + g₀.unit.base ≤ n

/-- In a later period nothing has been used: the next slot is the first in phase. -/
theorem At.isNextSlot_later (hb : g₀.Begins start) (hp : p.length = g₀.unit.field.level)
    (h : At g₀ start p g last k) (hlt : g.period < g₀.unit.periodStart (.ofPath p)) :
    IsNextSlot g₀ start p last (g.nextSlot (g₀.unit.periodStart (.ofPath p))) := by
  have hi : 1 ≤ g.interval := h.interval_eq ▸ hb.interval_pos
  obtain ⟨hlast, -, -⟩ := h.fresh hlt
  obtain ⟨h0, hd, hleast⟩ := nextSlot_of_ne hi hlt.ne'
  refine ⟨h0, fun hs => ?_, ?_⟩
  · exact ⟨⟨h.names_slot hp hd h0 hs, h.fromStart_of_lt hb hp hlt _⟩, hlast ▸ past_none _⟩
  · rintro n ⟨hn, -⟩ -
    have hrange := (g₀.unit.calendarTree_iff hp n).mp hn.1
    have := hleast (n - g₀.unit.base) (by omega) (h.names_congr hn)
    omega

/-- In the period that it stands in, the next slot lies one interval further. -/
theorem At.isNextSlot_same (hb : g₀.Begins start) (hp : p.length = g₀.unit.field.level)
    (h : At g₀ start p g last k) (heq : g.period = g₀.unit.periodStart (.ofPath p)) :
    IsNextSlot g₀ start p last (g.nextSlot (g₀.unit.periodStart (.ofPath p))) := by
  have hi : 1 ≤ g.interval := h.interval_eq ▸ hb.interval_pos
  obtain ⟨hle, -, hiff⟩ := h.same heq
  rw [← heq, nextSlot_self]
  have hunit : g₀.unitAt p (g.last - g.period + g.interval + g₀.unit.base) =
      g.last + g.interval := by
    rw [unitAt, ← heq]
    omega
  refine ⟨by omega, fun hs => ?_, ?_⟩
  · have hn := h.names_slot hp ⟨1, by rw [← heq]; omega⟩ (by omega) hs
    have hleft := (hiff _ hn).mpr (by rw [hunit]; omega)
    exact ⟨⟨hn, hleft.1⟩, hleft.2⟩
  · rintro n ⟨hn, hfrom⟩ hpast
    have hlt := (hiff n hn).mp ⟨hfrom, hpast⟩
    have := Int.le_of_dvd (by omega) (h.names_congr hn)
    rw [unitAt, ← heq] at this
    omega

/-- Once it has produced a unit of a period, a stepper has used the numbers up to it. -/
theorem At.produced (hb : g₀.Begins start) (h : At g₀ start p g last k) {slot : Int}
    (h0 : 0 ≤ slot) (hlt : slot < g₀.unit.span (.ofPath p))
    (hn : g₀.Names p (slot + g₀.unit.base)) (hfrom : FromStart start p (slot + g₀.unit.base)) :
    At g₀ start p
      ⟨g₀.unit, g.interval, g₀.unit.periodStart (.ofPath p), g₀.unit.periodStart (.ofPath p) + slot⟩
      (some (slot + g₀.unit.base)) (g₀.unit.span (.ofPath p) - slot).toNat where
  unit_eq := rfl
  interval_eq := h.interval_eq
  phase := by
    have := hn.2
    rwa [unitAt, add_sub_cancel_right] at this
  start_le := h.start_le.trans h.period_le
  period_le := le_rfl
  last_lt := by
    dsimp only
    omega
  fresh hlt := absurd hlt (lt_irrefl _)
  same _ := by
    have hi := hb.interval_pos
    rw [← h.interval_eq] at hi
    dsimp only
    refine ⟨by omega, by omega, ?_⟩
    intro n _
    rw [past_some, unitAt]
    constructor
    · rintro ⟨-, hn⟩
      omega
    · intro hn
      exact ⟨hfrom.mono (by omega), by omega⟩

/-- **A stepper answers rightly**: with the next unit in phase, or with a rollover. -/
theorem At.generate (hb : g₀.Begins start) {f : Fields}
    (hf : f.toList.take g₀.unit.field.level = p) (h : At g₀ start p g last k) :
    Answers g₀.unit.field (fun n => g₀.Names p n ∧ FromStart start p n)
      (At g₀ start p) last k f (g.generate f) := by
  have hp : p.length = g₀.unit.field.level := by
    rw [← hf, Fields.length_take_level]
  have hi : g.interval ≠ 0 := by
    have := hb.interval_pos
    rw [h.interval_eq]
    omega
  have hperiod : g₀.unit.periodStart f = g₀.unit.periodStart (.ofPath p) := by
    rw [← hf, StepUnit.periodStart_ofPath]
  have hspan : g₀.unit.span f = g₀.unit.span (.ofPath p) := by
    rw [← hf, StepUnit.span_ofPath]
  have hnext : IsNextSlot g₀ start p last (g.nextSlot (g₀.unit.periodStart (.ofPath p))) :=
    h.period_le.lt_or_eq.elim (h.isNextSlot_later hb hp) (h.isNextSlot_same hb hp)
  simp only [Stepper.generate, h.unit_eq, hi, and_false, if_false, hperiod, hspan]
  generalize hslot : g.nextSlot (g₀.unit.periodStart (.ofPath p)) = slot at *
  split
  · -- the least number that is left lies beyond the period
    rename_i hge
    refine .inr ⟨g, k, rfl, ?_, h⟩
    intro u hu hpast
    have := hnext.least u hu hpast
    have := (g₀.unit.calendarTree_iff hp u).mp hu.1.1
    omega
  · rename_i hge
    have hlt : slot < g₀.unit.span (.ofPath p) := by omega
    obtain ⟨⟨hn, hfrom⟩, hpast⟩ := hnext.left hlt
    refine .inl ⟨slot + g₀.unit.base, _, (g₀.unit.span (.ofPath p) - slot).toNat, rfl,
      ⟨⟨hn, hfrom⟩, hpast, hnext.least⟩, h.produced hb hnext.nonneg hlt hn hfrom, ?_⟩
    rcases h.period_le.lt_or_eq with hlt' | heq
    · have := (h.fresh hlt').2.2
      have := hnext.nonneg
      omega
    · have := (h.same heq).2.1
      rw [← heq, nextSlot_self] at hslot
      have := hb.interval_pos
      rw [← h.interval_eq] at this
      omega

theorem span_pos (u : StepUnit) (f : Fields) : 0 < u.span f := by
  cases u with
  | day =>
    have := (Gregorian.monthLength_bounds f.year f.month).1
    show 0 < Gregorian.monthLength f.year f.month
    omega
  | month | hour | minute | second => simp [StepUnit.span]

/-- In a later period a stepper has used nothing. -/
theorem At.later (hp : p.length = g₀.unit.field.level) (hq : q.length = g₀.unit.field.level)
    (np : calendarTree.Node p) (nq : calendarTree.Node q) (hpq : p < q)
    (h : At g₀ start p g last k) : ∃ k', At g₀ start q g none k' := by
  have hlt := g₀.unit.periodStart_lt hp hq np nq hpq
  have hspan := span_pos g₀.unit (.ofPath p)
  have hspan' := span_pos g₀.unit (.ofPath q)
  have hle := h.period_le
  have hlast := h.last_lt
  exact ⟨(g₀.unit.span (.ofPath q)).toNat + 1, h.unit_eq, h.interval_eq, h.phase, h.start_le,
    by omega, by omega, fun _ => ⟨rfl, by omega, by omega⟩, fun _ => by omega⟩

/-- A stepper that has not been asked is ready for every node from the start on. -/
theorem Begins.ready (hb : g₀.Begins start) (hl : g₀.unit.field.level < start.length)
    (hs : calendarTree.Node start) (hp : p.length = g₀.unit.field.level)
    (np : calendarTree.Node p) (hle : start.take g₀.unit.field.level ≤ p) :
    ∃ k, At g₀ start p g₀ none k := by
  have hlen : (start.take g₀.unit.field.level).length = g₀.unit.field.level := by
    rw [List.length_take]
    omega
  have hchild := (g₀.unit.calendarTree_iff hlen _).mp (hs.child hl)
  have hlast := hb.last_eq _ (List.getElem?_eq_getElem hl)
  have hi := hb.interval_pos
  have hperiod := hb.period_eq
  rcases hle.lt_or_eq with hlt | rfl
  · have hlt := g₀.unit.periodStart_lt hlen hp (hs.take _) np hlt
    have hspan := span_pos g₀.unit (.ofPath (start.take g₀.unit.field.level))
    have hspan' := span_pos g₀.unit (.ofPath p)
    exact ⟨(g₀.unit.span (.ofPath p)).toNat + 1, rfl, rfl, by simp, le_rfl, by omega, by omega,
      fun _ => ⟨rfl, by omega, by omega⟩, fun _ => by omega⟩
  · -- the start's own period: the last unit stands one interval before the start
    refine ⟨(g₀.unit.span (.ofPath (start.take g₀.unit.field.level)) + g₀.interval).toNat, rfl, rfl,
      by simp, le_rfl, by omega, by omega, fun _ => by omega, ?_⟩
    intro _
    refine ⟨by omega, by omega, ?_⟩
    intro n hn
    have hunit : g₀.unitAt (start.take g₀.unit.field.level) n = g₀.period + (n - g₀.unit.base) := by
      rw [unitAt, hperiod]
    have hfrom : FromStart start (start.take g₀.unit.field.level) n ↔
        start[g₀.unit.field.level] ≤ n := by
      simp [FromStart, hlen, hl]
    rw [hfrom, hunit, and_iff_left (past_none n)]
    constructor
    · intro h
      omega
    · intro h
      have hd := hn.2
      rw [hunit] at hd
      have := Int.le_of_dvd (by omega) hd
      omega

end Recurrence.Stepper
