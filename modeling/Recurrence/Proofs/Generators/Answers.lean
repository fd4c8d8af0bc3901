/-
Recurrence/Proofs/Generators/Answers.lean

What a source of a field has to answer.

Below a node of the calendar a source names some of the node's children.  In the
period of the start those before the start's own are left out (`FromStart`).  A
source answers rightly if it hands out what is left in ascending order, each
number once, and rolls over after the last one (`Answers`).  The steppers, the
listers and, behind filters, whole generators are all held to this.
-/
import Recurrence.Proofs.Generators.CalendarPath
import Recurrence.Proofs.Segment

namespace Recurrence

/-- Whether a child of a node is not before the start: below a node on the way to
the start it is at least the start's own number there. -/
def FromStart (start p : List Int) (n : Int) : Prop :=
  p = start.take p.length → ∀ s ∈ start[p.length]?, s ≤ n

theorem FromStart.mono {start p : List Int} {n n' : Int} (h : FromStart start p n) (hn : n ≤ n') :
    FromStart start p n' :=
  fun hp s hs => (h hp s hs).trans hn

/-- The nodes of a tree that begins at a start are the tree's nodes that are not before
the start. -/
theorem Tree.node_fromStart {t u : Tree} {start : List Int}
    (h : ∀ p n, u p n ↔ t p n ∧ FromStart start p n) {p : List Int}
    (hl : p.length ≤ start.length) : u.Node p ↔ t.Node p ∧ start.take p.length ≤ p := by
  induction p using List.reverseRecOn with
  | nil => simp
  | append_singleton p v ih =>
    rw [List.length_append, List.length_singleton] at hl ⊢
    have hlt : p.length < start.length := hl
    have hlen : (start.take p.length).length = p.length := by
      rw [List.length_take]
      omega
    have hfrom : FromStart start p v ↔ (p = start.take p.length → start[p.length] ≤ v) := by
      simp [FromStart, hlt]
    rw [Tree.node_concat, Tree.node_concat, ih hlt.le, h, hfrom, take_succ_eq hlt,
      append_singleton_le_iff hlen, le_iff_lt_or_eq]
    by_cases heq : start.take p.length = p
    · rw [heq]
      simp [and_assoc]
    · have hne : p ≠ start.take p.length := fun h => heq h.symm
      simp only [heq, hne, or_false, false_and, false_implies, and_true]
      tauto

/-- The least number of a set after the last one used. -/
structure IsNext (wanted : Int → Prop) (last : Option Int) (v : Int) : Prop where
  holds : wanted v
  past : Past last v
  least : ∀ u, wanted u → Past last u → v ≤ u

theorem IsNext.eq {wanted : Int → Prop} {last : Option Int} {v w : Int} (hv : IsNext wanted last v)
    (hw : IsNext wanted last w) : v = w :=
  le_antisymm (hv.least w hw.holds hw.past) (hw.least v hv.holds hv.past)

/-- The numbers of a set after the last one used, in ascending order. -/
abbrev Unused (wanted : Int → Prop) (last : Option Int) (ns : List Int) : Prop :=
  Lists (fun n => wanted n ∧ Past last n) ns

namespace Unused

variable {wanted : Int → Prop} {last : Option Int} {v : Int} {ns : List Int}

/-- At first all numbers of a list are unused. -/
theorem of_pairwise (h : ns.Pairwise (· < ·)) : Unused (· ∈ ns) none ns :=
  ⟨h, fun _ => (and_iff_left (past_none _)).symm⟩

theorem not_past (h : Unused wanted last []) {u : Int} (hu : wanted u) : ¬ Past last u :=
  fun hpast => Lists.not_holds h ⟨hu, hpast⟩

/-- The first of the numbers that are unused is the next one. -/
theorem isNext (h : Unused wanted last (v :: ns)) : IsNext wanted last v where
  holds := (Lists.isLeast h).1.1
  past := (Lists.isLeast h).1.2
  least _ hu hu' := (Lists.isLeast h).2 ⟨hu, hu'⟩

/-- Once it has been used, the others are left. -/
theorem tail (h : Unused wanted last (v :: ns)) : Unused wanted (some v) ns := by
  refine (Lists.tail h).congr fun n => ?_
  have hpast := h.isNext.past
  rw [past_some, and_assoc]
  exact and_congr_right fun _ => ⟨fun hvn => ⟨fun w hw => (hpast w hw).trans hvn, hvn⟩, And.right⟩

end Unused

/-- A source answers rightly: it sets its field to the next number, or rolls over if
there is none, and remembers what it has used.  `At s last k` says that the source
`s` has used the numbers up to `last` and has at most `k` more to hand out. -/
def Answers {σ : Type} (field : Field) (wanted : Int → Prop) (At : σ → Option Int → Nat → Prop)
    (last : Option Int) (k : Nat) (f : Fields) (answer : Step × σ × Fields) : Prop :=
  (∃ v s k', answer = (.value, s, f.set field v) ∧ IsNext wanted last v ∧ At s (some v) k' ∧
      k' < k) ∨
    ∃ s k', answer = (.rollover, s, f) ∧ (∀ u, wanted u → ¬ Past last u) ∧ At s last k'

/-- Setting a field puts its number behind the path of the coarser fields. -/
theorem Fields.take_set (f : Fields) (field : Field) (n : Int) :
    (f.set field n).toList.take (field.level + 1) = f.toList.take field.level ++ [n] := by
  cases field <;> rfl

end Recurrence
