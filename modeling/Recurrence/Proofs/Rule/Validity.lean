/-
Recurrence/Proofs/Rule/Validity.lean

When a draft makes a rule.

Building a draft looks for faults and changes nothing: what is built has the parts of the draft, and
it is built just when no part is faulty and not both ends are given.  The ordinals of weekdays are
not looked at here, since an entry out of range is refused where it is made.
-/
import Recurrence.Proofs.Outcomes
import Recurrence.Rule.Basic

namespace Recurrence

variable {r : RuleParts} {d : RuleDraft} {rule : Rule}

/-! ### Ranges -/

theorem ListPart.mem_all (p : ListPart) : p ∈ all := by cases p <;> decide

/-- The range of a list part.  Signed values count from the end. -/
def ListPart.InRange : ListPart → Int → Prop
  | second, n | minute, n => 0 ≤ n ∧ n ≤ 59
  | hour, n => 0 ≤ n ∧ n ≤ 23
  | month, n => 1 ≤ n ∧ n ≤ 12
  | monthDay, n => (1 ≤ n ∧ n ≤ 31) ∨ (-31 ≤ n ∧ n ≤ -1)
  | weekNo, n => (1 ≤ n ∧ n ≤ 53) ∨ (-53 ≤ n ∧ n ≤ -1)
  | yearDay, n | setPos, n => (1 ≤ n ∧ n ≤ 366) ∨ (-366 ≤ n ∧ n ≤ -1)

theorem ListPart.admits_iff {p : ListPart} {n : Int} : p.admits n = true ↔ p.InRange n := by
  cases p <;>
    simp only [admits, low, high, isSigned, InRange, if_true, Bool.false_eq_true, if_false,
      Bool.and_eq_true, decide_eq_true_eq, Bool.true_and, Bool.false_and, Bool.not_false,
      and_true, Bool.not_eq_true', beq_eq_false_iff_ne] <;>
    omega

theorem ordinalAdmitted_iff {n : Int} :
    ordinalAdmitted n = true ↔ (1 ≤ n ∧ n ≤ 53) ∨ (-53 ≤ n ∧ n ≤ -1) := by
  simp only [ordinalAdmitted, Bool.and_eq_true, decide_eq_true_eq]
  omega

/-! ### Faults -/

namespace RuleParts

theorem listFault_eq_none_iff {p : ListPart} :
    r.listFault p = none ↔ ∀ n ∈ r.values p, p.admits n = true := by
  simp [listFault, List.find?_eq_none]

theorem intervalFault_eq_none_iff : r.intervalFault = none ↔ 1 ≤ r.interval := by
  simp [intervalFault]

theorem countFault_eq_none_iff : r.countFault = none ↔ ∀ n ∈ r.count, 1 ≤ n := by
  unfold countFault
  cases r.count with
  | none => simp
  | some n => simp

/-- No part is faulty if each one is within its range. -/
theorem faults_eq_nil_iff : r.faults = [] ↔
    1 ≤ r.interval ∧ (∀ n ∈ r.count, 1 ≤ n) ∧ ∀ p, ∀ n ∈ r.values p, p.admits n = true := by
  simp only [faults, List.filterMap_eq_nil_iff, List.forall_mem_cons, id_eq, listFault_eq_none_iff,
    intervalFault_eq_none_iff, countFault_eq_none_iff, List.not_mem_nil, IsEmpty.forall_iff,
    implies_true, and_true]
  constructor
  · rintro ⟨hi, hc, hs, hm, hh, hmd, hyd, hw, hmo, hpos⟩
    refine ⟨hi, hc, fun p => ?_⟩
    cases p with
    | second => exact hs
    | minute => exact hm
    | hour => exact hh
    | monthDay => exact hmd
    | yearDay => exact hyd
    | weekNo => exact hw
    | month => exact hmo
    | setPos => exact hpos
  · rintro ⟨hi, hc, h⟩
    exact ⟨hi, hc, h _, h _, h _, h _, h _, h _, h _, h _⟩

theorem Valid.admits (hr : r.Valid) (p : ListPart) : ∀ n ∈ r.values p, p.admits n = true :=
  hr.2.2.2.1 p p.mem_all

end RuleParts

/-! ### Building -/

/-- **A rule is built** from a draft with its parts, none of them faulty, and one end at most. -/
theorem RuleDraft.build_eq_ok_iff : d.build = .ok rule ↔
    d.freq = some rule.freq ∧ d.toRuleParts = rule.toRuleParts ∧ rule.faults = [] ∧
      (rule.count = none ∨ rule.untilBound = none) := by
  obtain ⟨parts, freq⟩ := d
  unfold RuleDraft.build
  cases freq with
  | none => simp
  | some f =>
    dsimp only
    split_ifs with hfaults hends
    · refine iff_of_false (by simp) ?_
      rintro ⟨-, rfl, hnil, -⟩
      exact hfaults hnil
    · refine iff_of_false (by simp) ?_
      rintro ⟨-, rfl, -, hnone⟩
      rw [Bool.and_eq_true, Option.isSome_iff_ne_none, Option.isSome_iff_ne_none] at hends
      exact hnone.elim hends.1 hends.2
    · rw [Except.ok.injEq]
      constructor
      · rintro rfl
        refine ⟨rfl, rfl, not_not.mp hfaults, ?_⟩
        rw [Bool.and_eq_true, Option.isSome_iff_ne_none, Option.isSome_iff_ne_none] at hends
        by_contra h
        exact hends (not_or.mp h)
      · rintro ⟨hf, hparts, -⟩
        obtain ⟨parts', f'⟩ := rule
        obtain rfl : f = f' := Option.some.inj hf
        obtain rfl : parts = parts' := hparts
        rfl

theorem RuleDraft.build_of_valid (hr : rule.Valid) :
    RuleDraft.build { rule.toRuleParts with freq := some rule.freq } = .ok rule := by
  obtain ⟨hi, hc, hends, hlists, -⟩ := hr
  have hfaults : rule.faults = [] :=
    RuleParts.faults_eq_nil_iff.mpr ⟨hi, hc, fun p => hlists p p.mem_all⟩
  exact RuleDraft.build_eq_ok_iff.mpr ⟨rfl, rfl, hfaults, hends⟩

/-- What is built is valid if its weekday entries are. -/
theorem RuleDraft.valid_of_build (h : d.build = .ok rule) (hdays : ∀ e ∈ rule.byDay, e.Valid) :
    rule.Valid := by
  obtain ⟨-, -, hfaults, hends⟩ := RuleDraft.build_eq_ok_iff.mp h
  obtain ⟨hi, hc, hlists⟩ := RuleParts.faults_eq_nil_iff.mp hfaults
  exact ⟨hi, hc, hends, fun p _ => hlists p, hdays⟩

end Recurrence
