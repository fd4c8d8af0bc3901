/-
Recurrence/Proofs/Course.lean

The values that a chain puts together.

A course is a blueprint with what the chain leaves alone: the fields behind it, the
filter on the time of day, and whether the values have a time of day at all.  Each
path of the blueprint's tree is then a value, and the values come in the order of
their paths (`Course.Begins.value_lt_iff`).  Those that pass the filter are the members
of the course; they are what the chain is for.
-/
import Recurrence.Expansion.Candidates
import Recurrence.Proofs.Generators.Chain

namespace Recurrence

/-- What a chain of generators is run for. -/
structure Course where
  blueprint : Blueprint
  filter : Filter
  hasTime : Bool
  /-- The generator whose budget a value fills up. -/
  credited : Option Nat
  /-- The fields that the chain leaves alone. -/
  rest : List Int

namespace Course

variable (K : Course)

/-- The number of generators. -/
def size : Nat := K.blueprint.below.length + 1

/-- The value of a path. -/
def value (q : List Int) : Value := (Fields.ofPath (q ++ K.rest)).toValue K.hasTime

/-- A value that the chain can put together. -/
def Builds (v : Value) : Prop :=
  ∃ q, K.blueprint.tree.Node q ∧ q.length = K.size ∧ K.value q = v

/-- A value that the chain can put together and that passes the filter. -/
def Member (v : Value) : Prop := K.Builds v ∧ K.filter.Passes v

/-- What the key of a value has behind its path. -/
def tail : List Int := if K.hasTime then K.rest else [-1, 0, 0]

/-- A course of the calendar: its chain fills all six fields, or the date alone while
the time of day is a fixed one. -/
structure Begins : Prop where
  blueprint : K.blueprint.Begins
  shape : (K.size = 6 ∧ K.rest = [] ∧ K.hasTime = true) ∨
    K.size = 3 ∧ ∃ t : TimeOfDay, t.IsReal ∧ K.rest = t.key
  decides : K.filter.Decides
  credited : ∀ i ∈ K.credited, i = 0

variable {K}

theorem Begins.two_le_size (hK : K.Begins) : 2 ≤ K.size := by
  rcases hK.shape with ⟨h, -⟩ | ⟨h, -⟩ <;> omega

theorem Begins.three_le_size (hK : K.Begins) : 3 ≤ K.size := by
  rcases hK.shape with ⟨h, -⟩ | ⟨h, -⟩ <;> omega

/-! ### Values of paths -/

@[simp] theorem hasTime_value (q : List Int) : (K.value q).hasTime = K.hasTime := by
  unfold value Fields.toValue
  cases K.hasTime <;> rfl

theorem Begins.key_value (hK : K.Begins) {q : List Int} (hq : q.length = K.size) :
    (K.value q).key = q ++ K.tail := by
  rcases hK.shape with ⟨hsize, hrest, htime⟩ | ⟨hsize, t, -, hrest⟩
  · rw [hsize] at hq
    match q, hq with
    | [y, m, d, a, b, c], _ =>
      simp only [value, tail, hrest, htime]
      rfl
  · rw [hsize] at hq
    obtain ⟨y, m, d, rfl⟩ := List.length_eq_three.mp hq
    simp only [value, tail, hrest]
    cases K.hasTime <;> rfl

/-- **Values come in the order of their paths.** -/
theorem Begins.value_lt_iff (hK : K.Begins) {q q' : List Int} (hq : q.length = K.size)
    (hq' : q'.length = K.size) : K.value q < K.value q' ↔ q < q' := by
  rw [Value.lt_iff_key (by simp), hK.key_value hq, hK.key_value hq',
    append_lt_append_iff (by rw [hq, hq'])]
  simp

theorem Begins.value_le_iff (hK : K.Begins) {q q' : List Int} (hq : q.length = K.size)
    (hq' : q'.length = K.size) : K.value q ≤ K.value q' ↔ q ≤ q' := by
  rw [← not_lt, ← not_lt, hK.value_lt_iff hq' hq]

theorem Begins.take_key_value (hK : K.Begins) {q : List Int} (hq : q.length = K.size) :
    (K.value q).key.take K.size = q := by
  rw [hK.key_value hq, List.take_left' hq]

/-- The values of a course are real. -/
theorem Begins.isReal_value (hK : K.Begins) {q : List Int} (hn : K.blueprint.tree.Node q)
    (hq : q.length = K.size) : (K.value q).IsReal := by
  have hcal := hK.blueprint.calendar_node hn
  rcases hK.shape with ⟨hsize, hrest, htime⟩ | ⟨hsize, t, ht, hrest⟩
  · rw [hsize] at hq
    match q, hq with
    | [y, m, d, a, b, c], _ =>
      have h := node_second.mp hcal
      simp only [value, hrest, htime]
      refine ⟨h.1, ?_⟩
      rintro _ ⟨⟩
      exact h.2
  · rw [hsize] at hq
    obtain ⟨y, m, d, rfl⟩ := List.length_eq_three.mp hq
    have h := node_day.mp hcal
    simp only [value, hrest]
    cases K.hasTime
    · refine ⟨h, ?_⟩
      rintro _ ⟨⟩
    · refine ⟨h, ?_⟩
      rintro _ ⟨⟩
      exact ht

theorem Begins.isReal (hK : K.Begins) {v : Value} (hv : K.Builds v) : v.IsReal := by
  obtain ⟨q, hn, hq, rfl⟩ := hv
  exact hK.isReal_value hn hq

theorem Builds.hasTime {v : Value} (hv : K.Builds v) : v.hasTime = K.hasTime := by
  obtain ⟨q, -, -, rfl⟩ := hv
  exact hasTime_value q

/-- The filter has an answer for every value that the chain puts together. -/
theorem Begins.accepts (hK : K.Begins) {v : Value} (hv : K.Builds v) :
    (K.filter.accepts v = .ok true ∧ K.Member v) ∨
      (K.filter.accepts v = .ok false ∧ ¬ K.Member v) := by
  obtain ⟨b, hb⟩ := hK.decides v (hK.isReal hv)
  cases b with
  | true => exact .inl ⟨hb, hv, hb⟩
  | false =>
    refine .inr ⟨hb, ?_⟩
    rintro ⟨-, hpass⟩
    rw [Filter.Passes, hb] at hpass
    exact absurd hpass (by simp)

/-- The fields that a chain has filled are those of its path. -/
theorem toValue_eq {f : Fields} (hrest : f.toList.drop K.size = K.rest) :
    f.toValue K.hasTime = K.value (f.toList.take K.size) := by
  rw [value, ← hrest, List.take_append_drop]
  rfl

theorem Begins.year_value (hK : K.Begins) {q : List Int} (hq : q.length = K.size) :
    q[0]? = some (K.value q).date.year := by
  have hkey := hK.take_key_value hq
  have := hK.two_le_size
  have h0 : (K.value q).key[0]? = some (K.value q).date.year := rfl
  rw [← hkey, List.getElem?_take_of_lt (by omega), hkey]
  exact h0

end Course

end Recurrence
