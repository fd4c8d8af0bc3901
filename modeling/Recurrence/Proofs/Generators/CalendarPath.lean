/-
Recurrence/Proofs/Generators/CalendarPath.lean

The tree of the calendar.

Under a year stand its twelve months, under a month its days, under a day its
hours, and so on; `calendarTree` has all of them.  Every generator works within
this tree: the fields that it looks at are those of the node below which it
stands (`Fields.ofPath`), and the periods of a unit follow each other in the order
of the nodes (`StepUnit.periodStart_lt`).
-/
import Mathlib.Data.List.Induction
import Recurrence.Expansion.Listing
import Recurrence.Expansion.Stepper
import Recurrence.Proofs.Calendar.ValueOrder

namespace Recurrence

/-! ### Fields and paths -/

/-- The number of fields that are coarser than a field. -/
def Field.level : Field → Nat
  | .year => 0 | .month => 1 | .day => 2 | .hour => 3 | .minute => 4 | .second => 5

theorem Field.level_lt (field : Field) : field.level < 6 := by
  cases field <;> decide

/-- The fields that a path fills; the finer ones are at their first value. -/
def Fields.ofPath (p : List Int) : Fields :=
  ⟨p.getD 0 0, p.getD 1 1, p.getD 2 1, p.getD 3 0, p.getD 4 0, p.getD 5 0⟩

@[simp] theorem Fields.length_toList (f : Fields) : f.toList.length = 6 := rfl

theorem Fields.toList_set (f : Fields) (field : Field) (n : Int) :
    (f.set field n).toList = f.toList.set field.level n := by
  cases field <;> rfl

theorem Fields.getElem_toList (f : Fields) (field : Field) :
    f.toList[field.level]? = some (f.get field) := by
  cases field <;> rfl

theorem Fields.length_take_level (f : Fields) (field : Field) :
    (f.toList.take field.level).length = field.level := by
  rw [List.length_take, length_toList, Nat.min_eq_left field.level_lt.le]

/-- A path of at most six numbers is kept in the fields that it fills. -/
theorem Fields.take_ofPath {p : List Int} (hp : p.length ≤ 6) :
    (Fields.ofPath p).toList.take p.length = p := by
  match p, hp with
  | [], _ | [_], _ | [_, _], _ | [_, _, _], _ | [_, _, _, _], _ | [_, _, _, _, _], _
  | [_, _, _, _, _, _], _ => rfl

/-! ### The tree of the calendar -/

/-- All years, their months, the days of these, and all times of day. -/
def calendarTree : Tree
  | [], _ => True
  | [_], n => 1 ≤ n ∧ n ≤ 12
  | [y, m], n => 1 ≤ n ∧ n ≤ Gregorian.monthLength y m
  | [_, _, _], n => 0 ≤ n ∧ n < 24
  | [_, _, _, _], n | [_, _, _, _, _], n => 0 ≤ n ∧ n < 60
  | _, _ => False

theorem node_year (y : Int) : calendarTree.Node [y] := by
  rw [show [y] = [] ++ [y] from rfl, Tree.node_concat]
  exact ⟨Tree.node_nil, trivial⟩

theorem node_month {y m : Int} : calendarTree.Node [y, m] ↔ 1 ≤ m ∧ m ≤ 12 := by
  rw [show [y, m] = [y] ++ [m] from rfl, Tree.node_concat, and_iff_right (node_year y)]
  rfl

theorem node_day {y m d : Int} : calendarTree.Node [y, m, d] ↔ (⟨y, m, d⟩ : Date).IsReal := by
  rw [show [y, m, d] = [y, m] ++ [d] from rfl, Tree.node_concat, node_month, Date.isReal_iff,
    and_assoc]
  rfl

theorem node_hour {y m d a : Int} : calendarTree.Node [y, m, d, a] ↔
    (⟨y, m, d⟩ : Date).IsReal ∧ 0 ≤ a ∧ a < 24 := by
  rw [show [y, m, d, a] = [y, m, d] ++ [a] from rfl, Tree.node_concat, node_day]
  rfl

theorem node_minute {y m d a b : Int} : calendarTree.Node [y, m, d, a, b] ↔
    (⟨y, m, d⟩ : Date).IsReal ∧ (0 ≤ a ∧ a < 24) ∧ 0 ≤ b ∧ b < 60 := by
  rw [show [y, m, d, a, b] = [y, m, d, a] ++ [b] from rfl, Tree.node_concat, node_hour, and_assoc]
  rfl

theorem node_second {y m d a b c : Int} : calendarTree.Node [y, m, d, a, b, c] ↔
    (⟨y, m, d⟩ : Date).IsReal ∧ (⟨a, b, c⟩ : TimeOfDay).IsReal := by
  rw [show [y, m, d, a, b, c] = [y, m, d, a, b] ++ [c] from rfl, Tree.node_concat, node_minute]
  simp only [calendarTree, TimeOfDay.IsReal]
  tauto

/-- A tree that lies within another has no other nodes. -/
theorem Tree.Node.mono {t u : Tree} {p : List Int} (h : t.Node p)
    (htu : ∀ q v, u.Node q → t q v → u q v) : u.Node p := by
  induction p using List.reverseRecOn with
  | nil => exact Tree.node_nil
  | append_singleton p v ih =>
    rw [Tree.node_concat] at h ⊢
    exact ⟨ih h.1, htu p v (ih h.1) h.2⟩

/-! ### Periods along a path -/

theorem exists_of_length_five {p : List Int} (h : p.length = 5) :
    ∃ y m d a b, p = [y, m, d, a, b] := by
  obtain ⟨y, p, rfl⟩ := List.exists_cons_of_length_eq_add_one h
  obtain ⟨m, d, a, b, rfl⟩ := List.length_eq_four.mp (Nat.succ_injective h)
  exact ⟨y, m, d, a, b, rfl⟩

namespace StepUnit

/-- A unit's period is made out by the coarser fields. -/
theorem periodStart_ofPath (u : StepUnit) (f : Fields) :
    u.periodStart (.ofPath (f.toList.take u.field.level)) = u.periodStart f := by
  cases u <;> rfl

theorem span_ofPath (u : StepUnit) (f : Fields) :
    u.span (.ofPath (f.toList.take u.field.level)) = u.span f := by
  cases u <;> rfl

/-- The slots of a period are the children of its node. -/
theorem calendarTree_iff (u : StepUnit) {p : List Int} (hp : p.length = u.field.level) (n : Int) :
    calendarTree p n ↔ u.base ≤ n ∧ n < u.base + u.span (.ofPath p) := by
  cases u with
  | month =>
    obtain ⟨y, rfl⟩ := List.length_eq_one_iff.mp hp
    simp only [calendarTree, base, span]
    omega
  | day =>
    obtain ⟨y, m, rfl⟩ := List.length_eq_two.mp hp
    show 1 ≤ n ∧ n ≤ Gregorian.monthLength y m ↔ 1 ≤ n ∧ n < 1 + Gregorian.monthLength y m
    omega
  | hour =>
    obtain ⟨y, m, d, rfl⟩ := List.length_eq_three.mp hp
    simp only [calendarTree, base, span]
    omega
  | minute =>
    obtain ⟨y, m, d, a, rfl⟩ := List.length_eq_four.mp hp
    simp only [calendarTree, base, span]
    omega
  | second =>
    obtain ⟨y, m, d, a, b, rfl⟩ := exists_of_length_five hp
    simp only [calendarTree, base, span]
    omega

/-- **Periods follow each other as the nodes do.** -/
theorem periodStart_lt (u : StepUnit) {p q : List Int} (hp : p.length = u.field.level)
    (hq : q.length = u.field.level) (np : calendarTree.Node p) (nq : calendarTree.Node q)
    (h : p < q) :
    u.periodStart (.ofPath p) + u.span (.ofPath p) ≤ u.periodStart (.ofPath q) := by
  cases u with
  | month =>
    obtain ⟨y, rfl⟩ := List.length_eq_one_iff.mp hp
    obtain ⟨y', rfl⟩ := List.length_eq_one_iff.mp hq
    simp [List.cons_lt_cons_iff] at h
    simp [periodStart, span, Fields.ofPath]
    omega
  | day =>
    obtain ⟨y, m, rfl⟩ := List.length_eq_two.mp hp
    obtain ⟨y', m', rfl⟩ := List.length_eq_two.mp hq
    rw [node_month] at np nq
    simp [List.cons_lt_cons_iff] at h
    show Gregorian.dayNumber y m 1 + Gregorian.monthLength y m ≤ Gregorian.dayNumber y' m' 1
    exact Gregorian.dayNumber_month_lt (by omega)
  | hour =>
    obtain ⟨y, m, d, rfl⟩ := List.length_eq_three.mp hp
    obtain ⟨y', m', d', rfl⟩ := List.length_eq_three.mp hq
    rw [node_day] at np nq
    have hd := (Date.key_lt_iff np nq).mp h
    show Date.dayNumber ⟨y, m, d⟩ * 24 + 24 ≤ Date.dayNumber ⟨y', m', d'⟩ * 24
    omega
  | minute =>
    obtain ⟨y, m, d, a, rfl⟩ := List.length_eq_four.mp hp
    obtain ⟨y', m', d', a', rfl⟩ := List.length_eq_four.mp hq
    rw [node_hour] at np nq
    have hlt := (Date.key_append_lt_iff np.1 nq.1 (x := [a]) (y := [a'])).mp h
    simp only [List.cons_lt_cons_iff, List.not_lt_nil, and_false, or_false] at hlt
    show (Date.dayNumber ⟨y, m, d⟩ * 24 + a) * 60 + 60 ≤
      (Date.dayNumber ⟨y', m', d'⟩ * 24 + a') * 60
    omega
  | second =>
    obtain ⟨y, m, d, a, b, rfl⟩ := exists_of_length_five hp
    obtain ⟨y', m', d', a', b', rfl⟩ := exists_of_length_five hq
    rw [node_minute] at np nq
    have hlt := (Date.key_append_lt_iff np.1 nq.1 (x := [a, b]) (y := [a', b'])).mp h
    simp only [List.cons_lt_cons_iff, List.not_lt_nil, and_false, or_false] at hlt
    show ((Date.dayNumber ⟨y, m, d⟩ * 24 + a) * 60 + b) * 60 + 60 ≤
      ((Date.dayNumber ⟨y', m', d'⟩ * 24 + a') * 60 + b') * 60
    omega

end StepUnit

namespace Listing

/-- The period of a listing is the node itself. -/
theorem periodKey_eq_take (l : Listing) (f : Fields) :
    l.periodKey f = f.toList.take l.field.level := by
  rcases l with _ | _ | _ | _ | _ | ⟨_ | _ | _, _⟩ <;> rfl

theorem values_ofPath (l : Listing) (f : Fields) :
    l.values (.ofPath (f.toList.take l.field.level)) = l.values f := by
  rcases l with _ | _ | _ | _ | _ | ⟨_ | _ | _, _⟩ <;> rfl

end Listing

end Recurrence
