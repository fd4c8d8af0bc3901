/-
Recurrence/Proofs/Generators/Years.lean

The years of a series, and when it gives up.

A pacer names the first year from a given one on that holds a slot
(`Pacer.isLeast_firstYearFrom`), so a paced generator steps through the years that
hold one and an unpaced one through all years in phase.

Each year costs a unit of the budget, which an instance fills up again.  The
invariant `YearStepper.At` keeps account of this: since the year `base`, in which
the budget was last full, as many years have been handed out as it lacks units.
So a generator that gives up has handed out as many years as its budget holds
(`YearStepper.Gone`).
-/
import Mathlib.Order.Bounds.Defs
import Recurrence.Expansion.Pacing
import Recurrence.Proofs.Generators.Answers

namespace Recurrence

/-! ### Years of units -/

namespace StepUnit

/-- A unit lies in a year if it comes after the year's start and before that of the
next. -/
theorem yearOf_eq_iff (u : StepUnit) {n year : Int} :
    u.yearOf n = year ↔ u.yearStart year ≤ n ∧ n < u.yearStart (year + 1) := by
  cases u with
  | month =>
    show n / 12 = year ↔ year * 12 ≤ n ∧ n < (year + 1) * 12
    omega
  | day | hour | minute | second =>
    simp only [yearOf, yearStart, perDay]
    rw [Gregorian.yearOfDayNumber_eq_iff]
    omega

theorem yearStart_lt (u : StepUnit) {y z : Int} (h : y < z) : u.yearStart y < u.yearStart z := by
  have hlt := Gregorian.dayNumber_first_lt h
  have hpos := Gregorian.yearLength_pos y
  cases u with
  | month =>
    show y * 12 < z * 12
    omega
  | day | hour | minute | second =>
    simp only [yearStart, perDay]
    omega

theorem yearStart_mono (u : StepUnit) {y z : Int} (h : y ≤ z) : u.yearStart y ≤ u.yearStart z := by
  rcases h.lt_or_eq with h | rfl
  · exact (u.yearStart_lt h).le
  · exact le_rfl

@[simp] theorem yearOf_yearStart (u : StepUnit) (year : Int) : u.yearOf (u.yearStart year) = year :=
  u.yearOf_eq_iff.mpr ⟨le_rfl, u.yearStart_lt (by omega)⟩

theorem yearOf_mono (u : StepUnit) {m n : Int} (h : m ≤ n) : u.yearOf m ≤ u.yearOf n := by
  by_contra hlt
  have hm := u.yearOf_eq_iff.mp (rfl : u.yearOf m = _)
  have hn := u.yearOf_eq_iff.mp (rfl : u.yearOf n = _)
  have := u.yearStart_mono (show u.yearOf n + 1 ≤ u.yearOf m by omega)
  omega

end StepUnit

/-! ### Years that hold a slot -/

namespace Pacer

/-- Whether some unit in phase, or some day of a week in phase, lies in a year. -/
def HoldsSlot : Pacer → Int → Prop
  | slots g, year => ∃ n, g.interval ∣ n - g.last ∧ g.unit.yearOf n = year
  | weeks p, year => ∃ week, 7 * p.interval ∣ week - p.firstWeek ∧
      ∃ n, week ≤ n ∧ n < week + 7 ∧ Gregorian.yearOfDayNumber n = year

/-- The first number from a given one on that is in phase with another. -/
theorem isLeast_inPhase {m : Int} (hm : 0 < m) (origin n : Int) :
    IsLeast {k | n ≤ k ∧ m ∣ k - origin} (n + (origin - n).fmod m) := by
  rw [Int.fmod_eq_emod_of_nonneg _ hm.le]
  have h0 := Int.emod_nonneg (origin - n) hm.ne'
  have hlt := Int.emod_lt_of_pos (origin - n) hm
  have hdvd : m ∣ n + (origin - n) % m - origin := by
    rw [show n + (origin - n) % m - origin = -((origin - n) - (origin - n) % m) by omega]
    exact (Int.dvd_neg).mpr Int.dvd_self_sub_emod
  refine ⟨⟨by omega, hdvd⟩, ?_⟩
  rintro k ⟨hk, hkd⟩
  -- two numbers in phase lie a multiple of the step apart
  by_contra hgt
  have := Int.le_of_dvd (by omega) (Int.dvd_sub hdvd hkd)
  omega

theorem yearOfDayNumber_mono {m n : Int} (h : m ≤ n) :
    Gregorian.yearOfDayNumber m ≤ Gregorian.yearOfDayNumber n := by
  simpa [StepUnit.yearOf, StepUnit.perDay] using StepUnit.day.yearOf_mono h

@[simp] theorem yearOfDayNumber_first (year : Int) :
    Gregorian.yearOfDayNumber (Gregorian.dayNumber year 1 1) = year := by
  simpa [StepUnit.yearOf, StepUnit.yearStart, StepUnit.perDay] using StepUnit.day.yearOf_yearStart year

/-- **A pacer names the first year from a given one on that holds a slot.** -/
theorem isLeast_firstYearFrom (p : Pacer) (h : 1 ≤ p.interval) (year : Int) :
    IsLeast {y | year ≤ y ∧ p.HoldsSlot y} (p.firstYearFrom year) := by
  cases p with
  | slots g =>
    have h : 0 < g.interval := h
    obtain ⟨⟨hle, hdvd⟩, hleast⟩ := isLeast_inPhase h g.last (g.unit.yearStart year)
    refine ⟨⟨?_, _, hdvd, rfl⟩, ?_⟩
    · calc year = g.unit.yearOf (g.unit.yearStart year) := (g.unit.yearOf_yearStart year).symm
        _ ≤ _ := g.unit.yearOf_mono hle
    · rintro y ⟨hy, n, hn, rfl⟩
      apply g.unit.yearOf_mono
      apply hleast
      exact ⟨(g.unit.yearStart_mono hy).trans (g.unit.yearOf_eq_iff.mp rfl).1, hn⟩
  | weeks p =>
    have h : 0 < 7 * p.interval := by
      have : 1 ≤ p.interval := h
      omega
    -- the week of the first of January starts no more than six days before it
    obtain ⟨⟨hle, hdvd⟩, hleast⟩ :=
      isLeast_inPhase h p.firstWeek (Gregorian.dayNumber year 1 1 - 6)
    show IsLeast _ (max year (Gregorian.yearOfDayNumber _))
    generalize Gregorian.dayNumber year 1 1 - 6 +
      (p.firstWeek - (Gregorian.dayNumber year 1 1 - 6)).fmod (7 * p.interval) = week at *
    refine ⟨⟨le_max_left _ _, week, hdvd, ?_⟩, ?_⟩
    · -- a week that starts before the year reaches the first of January
      rcases le_total week (Gregorian.dayNumber year 1 1) with hw | hw
      · have hy := yearOfDayNumber_mono hw
        rw [yearOfDayNumber_first] at hy
        exact ⟨_, hw, by omega, by rw [yearOfDayNumber_first, max_eq_left hy]⟩
      · have hy := yearOfDayNumber_mono hw
        rw [yearOfDayNumber_first] at hy
        exact ⟨week, le_rfl, by omega, (max_eq_right hy).symm⟩
    · rintro y ⟨hy, w, hw, n, hwn, hnw, rfl⟩
      have hn := (Gregorian.yearOfDayNumber_eq_iff (n := n)).mp rfl
      have hfirst := StepUnit.day.yearStart_mono hy
      simp only [StepUnit.yearStart, StepUnit.perDay] at hfirst
      refine max_le hy (yearOfDayNumber_mono ((hleast ⟨?_, hw⟩).trans hwn))
      omega

end Pacer

/-! ### Stepping through years -/

namespace YearStepper

/-- The years that the generator steps through, from some year on. -/
def Names (g : YearStepper) (year : Int) : Prop :=
  g.interval ∣ year - g.year ∧ ∀ p ∈ g.pacer, p.HoldsSlot year

/-- The years wanted of a generator that starts with a given path. -/
abbrev Wants (g : YearStepper) (start : List Int) (year : Int) : Prop :=
  g.Names year ∧ FromStart start [] year

/-- A year stepper that has not been asked yet.  Only a generator that would step
through all years is paced. -/
structure Begins (g : YearStepper) (start : List Int) : Prop where
  interval_pos : 1 ≤ g.interval
  year_eq : ∀ s ∈ start[0]?, g.year + g.interval = s
  full : g.remaining = g.budget
  budget_nonneg : 0 ≤ g.budget
  paced : ∀ p ∈ g.pacer, 1 ≤ p.interval ∧ g.interval = 1

/-- The years after the year `base` that have been handed out, in ascending order. -/
structure Idle (g₀ : YearStepper) (start : List Int) (base : Int) (last : Option Int)
    (ys : List Int) : Prop where
  ascending : ys.Pairwise (· < ·)
  mem_iff : ∀ y, y ∈ ys ↔ g₀.Wants start y ∧ base < y ∧ ¬ Past last y

/-- What a year stepper that was `g₀` at first remembers, having used the years up to
`last`, and having been refilled in the year `base`. -/
structure At (g₀ : YearStepper) (start : List Int) (base : Int) (g : YearStepper)
    (last : Option Int) (k : Nat) : Prop where
  interval_eq : g.interval = g₀.interval
  pacer_eq : g.pacer = g₀.pacer
  budget_eq : g.budget = g₀.budget
  year_eq : g.year = last.getD g₀.year
  wanted : ∀ w ∈ last, g₀.Wants start w
  base_lt : ∀ u, g₀.Wants start u → Past last u → base < u
  account : ∃ ys, g₀.Idle start base last ys ∧ g.remaining + ys.length = g₀.budget
  remaining_nonneg : 0 ≤ g.remaining
  room : g.remaining ≤ k

/-- A year stepper has given up: since the year `base` it has handed out as many years
as its budget holds. -/
def Gone (g₀ : YearStepper) (start : List Int) (base : Int) (g : YearStepper)
    (last : Option Int) (step : Step) : Prop :=
  step = .halt ∧ g.remaining < 0 ∧ ∃ ys, g₀.Idle start base last ys ∧ ys.length = g₀.budget

variable {g₀ g : YearStepper} {start : List Int} {base : Int} {last : Option Int} {k : Nat}

/-- The year after the last one is the first that may be wanted. -/
theorem At.le_of_past (hb : g₀.Begins start) (hl : 0 < start.length)
    (h : At g₀ start base g last k) {u : Int} (hu : g₀.Wants start u) (hpast : Past last u) :
    g.year + g.interval ≤ u := by
  rw [h.year_eq, h.interval_eq]
  cases last with
  | none =>
    have hs := hb.year_eq _ (List.getElem?_eq_getElem hl)
    have := hu.2 rfl _ (List.getElem?_eq_getElem hl)
    rw [Option.getD_none, hs]
    exact this
  | some w =>
    rw [past_some] at hpast
    have hdvd : g₀.interval ∣ u - w := by
      rw [show u - w = (u - g₀.year) - (w - g₀.year) by omega]
      exact Int.dvd_sub hu.1.1 (h.wanted w rfl).1.1
    have := Int.le_of_dvd (by omega) hdvd
    rw [Option.getD_some]
    omega

theorem At.fromStart (hb : g₀.Begins start) (h : At g₀ start base g last k) {u : Int}
    (hu : g.year + g.interval ≤ u) : FromStart start [] u := by
  intro _ s hs
  rw [h.year_eq, h.interval_eq] at hu
  have hyear := hb.year_eq s hs
  have hpos := hb.interval_pos
  cases last with
  | none =>
    rw [Option.getD_none] at hu
    omega
  | some w =>
    have := (h.wanted w rfl).2 rfl s hs
    rw [Option.getD_some] at hu
    omega

theorem At.past (hb : g₀.Begins start) (h : At g₀ start base g last k) {u : Int}
    (hu : g.year + g.interval ≤ u) : Past last u := by
  intro w hw
  have hpos := hb.interval_pos
  rw [h.year_eq, h.interval_eq, Option.mem_def.mp hw, Option.getD_some] at hu
  omega

/-- The year that is handed out next. -/
def nextYear (g : YearStepper) : Int :=
  match g.pacer with
  | none => g.year + g.interval
  | some p => max (g.year + g.interval) (p.firstYearFrom (g.year + g.interval))

theorem At.isNext_nextYear (hb : g₀.Begins start) (hl : 0 < start.length)
    (h : At g₀ start base g last k) : IsNext (g₀.Wants start) last g.nextYear := by
  unfold nextYear
  rw [h.pacer_eq]
  cases hp : g₀.pacer with
  | none =>
    refine ⟨⟨⟨?_, by simp [hp]⟩, h.fromStart hb le_rfl⟩, h.past hb le_rfl,
      fun u hu => h.le_of_past hb hl hu⟩
    rw [h.year_eq, h.interval_eq]
    cases last with
    | none => simp
    | some w =>
      have := (h.wanted w rfl).1.1
      rw [Option.getD_some, show w + g₀.interval - g₀.year = (w - g₀.year) + g₀.interval by omega]
      exact Int.dvd_add this (Int.dvd_refl _)
  | some p =>
    obtain ⟨hpos, hone⟩ := hb.paced p (by rw [hp]; rfl)
    obtain ⟨⟨hle, hslot⟩, hleast⟩ := p.isLeast_firstYearFrom hpos (g.year + g.interval)
    simp only [max_eq_right hle]
    refine ⟨⟨⟨?_, ?_⟩, h.fromStart hb hle⟩, h.past hb hle, ?_⟩
    · rw [hone]
      exact Int.one_dvd _
    · rw [hp]
      rintro _ ⟨⟩
      exact hslot
    · intro u hu hpast
      exact hleast ⟨h.le_of_past hb hl hu hpast, hu.1.2 p (by rw [hp]; rfl)⟩

/-- What a year stepper answers: the next year, as long as its budget lasts. -/
theorem At.generate_eq (hb : g₀.Begins start) (h : At g₀ start base g last k) (f : Fields) :
    g.generate f =
      if g.remaining - 1 < 0 then (.halt, { g with remaining := g.remaining - 1 }, f)
      else (.value, { g with remaining := g.remaining - 1, year := g.nextYear },
        f.set .year g.nextYear) := by
  by_cases hlt : g.remaining - 1 < 0
  · simp only [YearStepper.generate, if_pos hlt]
  · cases hp : g.pacer with
    | none =>
      simp only [YearStepper.generate, nextYear, if_neg hlt, hp]
      rfl
    | some p =>
      have hpos := (hb.paced p (by rw [← h.pacer_eq, hp]; rfl)).1
      have hne : p.interval ≠ 0 := by omega
      simp only [YearStepper.generate, nextYear, if_neg hlt, hp, Pacer.firstYearFrom?, if_neg hne]
      rfl

/-- Handing out the next year adds it to the account. -/
theorem Idle.append {ys : List Int} {v : Int} (h : g₀.Idle start base last ys)
    (hv : IsNext (g₀.Wants start) last v) (hbase : base < v) :
    g₀.Idle start base (some v) (ys ++ [v]) := by
  constructor
  · refine List.pairwise_append.mpr ⟨h.ascending, List.pairwise_singleton _ _, ?_⟩
    intro y hy z hz
    obtain rfl := List.mem_singleton.mp hz
    have hpast := ((h.mem_iff y).mp hy).2.2
    by_contra hle
    exact hpast fun w hw => (hv.past w hw).trans_le (not_lt.mp hle)
  · intro y
    rw [List.mem_append, List.mem_singleton, h.mem_iff, past_some, not_lt]
    constructor
    · rintro (⟨hy, hb, hpast⟩ | rfl)
      · refine ⟨hy, hb, ?_⟩
        by_contra hlt
        exact hpast fun w hw => (hv.past w hw).trans (not_le.mp hlt)
      · exact ⟨hv.holds, hbase, le_rfl⟩
    · rintro ⟨hy, hb, hle⟩
      by_cases hpast : Past last y
      · exact .inr (le_antisymm hle (hv.least y hy hpast))
      · exact .inl ⟨hy, hb, hpast⟩

/-- **A year stepper answers with the next year, or gives up with its budget used up.** -/
theorem At.generate (hb : g₀.Begins start) (hl : 0 < start.length)
    (h : At g₀ start base g last k) (f : Fields) :
    (∃ v g' k', g.generate f = (.value, g', f.set .year v) ∧ IsNext (g₀.Wants start) last v ∧
      At g₀ start base g' (some v) k' ∧ k' < k) ∨
    ∃ g', g.generate f = (.halt, g', f) ∧ Gone g₀ start base g' last .halt := by
  obtain ⟨ys, hys, hcount⟩ := h.account
  have hnonneg := h.remaining_nonneg
  rw [h.generate_eq hb]
  split_ifs with hlt
  · exact .inr ⟨_, rfl, rfl, hlt, ys, hys, by omega⟩
  · have hnext := h.isNext_nextYear hb hl
    have hroom := h.room
    refine .inl ⟨g.nextYear, _, (g.remaining - 1).toNat, rfl, hnext, ?_, by omega⟩
    refine ⟨h.interval_eq, h.pacer_eq, h.budget_eq, rfl, ?_, ?_, ⟨ys ++ [g.nextYear], ?_, ?_⟩,
      by dsimp only; omega, by dsimp only; omega⟩
    · rintro w ⟨⟩
      exact hnext.holds
    · intro u _ hu
      exact (h.base_lt _ hnext.holds hnext.past).trans (past_some.mp hu)
    · exact hys.append hnext (h.base_lt _ hnext.holds hnext.past)
    · rw [List.length_append, List.length_singleton]
      dsimp only
      omega

/-! ### Full budgets -/

theorem idle_nil (h : ∀ u, base < u → Past last u) : g₀.Idle start base last [] := by
  refine ⟨List.Pairwise.nil, fun y => ?_⟩
  constructor
  · intro hy
    exact absurd hy (by simp)
  · rintro ⟨-, hb, hpast⟩
    exact absurd (h y hb) hpast

/-- A year stepper that has not been asked has its whole budget before it. -/
theorem Begins.ready (hb : g₀.Begins start) (hbase : ∀ s ∈ start[0]?, base < s)
    (hl : 0 < start.length) : ∃ k, At g₀ start base g₀ none k := by
  refine ⟨g₀.remaining.toNat, rfl, rfl, rfl, rfl, by simp, ?_,
    ⟨[], idle_nil fun u _ => past_none u, ?_⟩, ?_, by omega⟩
  · intro u hu _
    have hs := hu.2 rfl _ (List.getElem?_eq_getElem hl)
    have := hbase _ (List.getElem?_eq_getElem hl)
    omega
  · rw [hb.full]
    simp
  · rw [hb.full]
    exact hb.budget_nonneg

/-- Filling the budget up in a year starts a new account there. -/
theorem At.refill (hb : g₀.Begins start) {year : Int} (h : At g₀ start base g (some year) k) :
    ∃ k', At g₀ start year g.refill (some year) k' := by
  have hbudget := h.budget_eq
  have hnonneg := hb.budget_nonneg
  refine ⟨g.budget.toNat, h.interval_eq, h.pacer_eq, h.budget_eq, h.year_eq, h.wanted,
    fun u _ hu => past_some.mp hu, ⟨[], idle_nil fun u => past_some.mpr, ?_⟩, ?_, ?_⟩
  · simpa [YearStepper.refill] using hbudget
  · show 0 ≤ g.budget
    omega
  · show g.budget ≤ _
    omega

end YearStepper

end Recurrence
