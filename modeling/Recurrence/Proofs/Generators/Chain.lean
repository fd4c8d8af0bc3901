/-
Recurrence/Proofs/Generators/Chain.lean

The chain of the calendar is lawful.

A blueprint is a chain of generators as it is planned: the years, what comes below
them, and the path of the start.  Its tree has exactly the paths that all of its
generators name.  The generators answer as `Mechanism.Lawful` demands
(`Blueprint.lawful`), so what has been shown of odometers holds of the chain, from
its planned state on (`Blueprint.Begins.stands`) and however often its budget is
filled up on the way (`Blueprint.refill_stands`).
-/
import Recurrence.Proofs.Generators.Filtered
import Recurrence.Proofs.Odometer

namespace Recurrence

theorem length_le_six {p : List Int} (h : calendarTree.Node p) : p.length ≤ 6 := by
  by_contra hlt
  have hchild := h.child (show 6 < p.length by omega)
  match hp : p.take 6, hchild with
  | [], _ | [_], _ | [_, _], _ | [_, _, _], _ | [_, _, _, _], _ | [_, _, _, _, _], _ =>
    have := congrArg List.length hp
    rw [List.length_take] at this
    simp only [List.length_cons, List.length_nil] at this
    omega
  | _ :: _ :: _ :: _ :: _ :: _ :: _, h => exact h

/-- A chain of generators as it is planned. -/
structure Blueprint where
  years : YearStepper
  /-- The generators below the year, coarsest first. -/
  below : List Generator
  /-- The fields of the start that the chain fills. -/
  start : List Int

namespace Blueprint

variable (B : Blueprint)

/-- All generators, coarsest first. -/
def chain : List Generator := ⟨.years B.years, []⟩ :: B.below

/-- The children of a node that its generator names. -/
def core : Tree
  | [], n => B.years.Names n
  | y :: p, n => ∃ g, B.below[p.length]? = some g ∧ g.Names (y :: p) n

/-- The children of a node that its generator names, from the start on. -/
def tree : Tree := fun p n => B.core p n ∧ FromStart B.start p n

/-- What makes a chain one of the calendar: each generator fills the field of its
place, beginning with the start's own. -/
structure Begins : Prop where
  start : calendarTree.Node B.start
  length_start : B.start.length = B.below.length + 1
  years : B.years.Begins B.start
  below : ∀ i g, B.below[i]? = some g → g.Begins B.start ∧ g.source.field.level = i + 1

/-- The chain as a mechanism; `base` is the year in which the budget was last full. -/
def mechanism (base : Int) : Mechanism Generator Fields (List Int) where
  generate := Generator.generate
  path f := f.toList.take (B.below.length + 1)
  rest f := f.toList.drop (B.below.length + 1)
  size := B.below.length + 1
  tree := B.tree
  At
    | 0, g, _, last, k => ∃ y, g = ⟨.years y, []⟩ ∧ B.years.At B.start base y last k
    | i + 1, g, p, last, k => ∃ g₀, B.below[i]? = some g₀ ∧ g₀.At B.start p g last k
  Gone g last step := ∃ y, g = ⟨.years y, []⟩ ∧ B.years.Gone B.start base y last step

variable {B} {base : Int}

theorem tree_cons {i : Nat} {p : List Int} (hp : p.length = i + 1) {g : Generator}
    (hg : B.below[i]? = some g) (n : Int) :
    B.tree p n ↔ g.Names p n ∧ FromStart B.start p n := by
  refine and_congr_left fun _ => ?_
  cases p with
  | nil => simp at hp
  | cons y p =>
    obtain rfl : p.length = i := by simpa using hp
    constructor
    · rintro ⟨g', hg', h⟩
      obtain rfl : g = g' := by simpa [hg] using hg'
      exact h
    · intro h
      exact ⟨g, hg, h⟩

/-- The nodes of a chain are those that its generators name and that are not before the
start. -/
theorem node_iff {q : List Int} (hl : q.length ≤ B.start.length) :
    B.tree.Node q ↔ B.core.Node q ∧ B.start.take q.length ≤ q :=
  Tree.node_fromStart (fun _ _ => Iff.rfl) hl

/-- A date is a node if the three coarsest generators name its fields. -/
theorem core_node_date {month day : Generator} {more : List Generator}
    (h : B.below = month :: day :: more) {y m d : Int} : B.core.Node [y, m, d] ↔
      B.years.Names y ∧ month.Names [y] m ∧ day.Names [y, m] d := by
  rw [show [y, m, d] = [] ++ [y] ++ [m] ++ [d] from rfl, Tree.node_concat, Tree.node_concat,
    Tree.node_concat, and_iff_right Tree.node_nil, and_assoc]
  simp [core, h]

/-- A date with a time of day is a node if its date is one and the other generators name
its time. -/
theorem core_node_dateTime {month day hour minute second : Generator}
    (h : B.below = [month, day, hour, minute, second]) {y m d a b c : Int} :
    B.core.Node [y, m, d, a, b, c] ↔ B.core.Node [y, m, d] ∧ hour.Names [y, m, d] a ∧
      minute.Names [y, m, d, a] b ∧ second.Names [y, m, d, a, b] c := by
  rw [show [y, m, d, a, b, c] = [y, m, d] ++ [a] ++ [b] ++ [c] from rfl, Tree.node_concat,
    Tree.node_concat, Tree.node_concat, and_assoc, and_assoc]
  simp [core, h]

/-- The nodes of a chain are nodes of the calendar. -/
theorem Begins.calendar_node (hB : B.Begins) {p : List Int} (h : B.tree.Node p) :
    calendarTree.Node p := by
  refine h.mono ?_
  rintro q v nq ⟨hv, -⟩
  cases q with
  | nil => trivial
  | cons y q =>
    obtain ⟨g, hg, hv⟩ := hv
    obtain ⟨hb, hlevel⟩ := hB.below _ g hg
    exact hb.within _ v (by rw [hlevel, List.length_cons]) nq hv.1

theorem Begins.size_le (hB : B.Begins) : B.below.length + 1 ≤ 6 := by
  rw [← hB.length_start]
  exact length_le_six hB.start

/-! ### What setting a field does to the path -/

theorem path_take {i : Nat} (hi : i ≤ B.below.length + 1) (f : Fields) :
    ((B.mechanism base).path f).take i = f.toList.take i := by
  show (f.toList.take _).take i = _
  rw [List.take_take, Nat.min_eq_left hi]

theorem path_set {i : Nat} (hi : i < B.below.length + 1) (f : Fields) (field : Field)
    (hf : field.level = i) (v : Int) :
    ((B.mechanism base).path (f.set field v)).take (i + 1) =
      ((B.mechanism base).path f).take i ++ [v] := by
  rw [path_take hi, path_take hi.le, ← hf, Fields.take_set]

theorem path_set_coarser {i : Nat} (hi : i < B.below.length + 1) (f : Fields) (field : Field)
    (hf : field.level = i) (v : Int) :
    ((B.mechanism base).path (f.set field v)).take i = ((B.mechanism base).path f).take i := by
  rw [path_take hi.le, path_take hi.le, ← hf, Generator.take_level_set]

theorem rest_set {i : Nat} (hi : i < B.below.length + 1) (f : Fields) (field : Field)
    (hf : field.level = i) (v : Int) :
    (B.mechanism base).rest (f.set field v) = (B.mechanism base).rest f := by
  show (f.set field v).toList.drop _ = f.toList.drop _
  rw [Fields.toList_set, List.drop_set_of_lt (by omega)]

/-! ### The generators answer -/

theorem settles_years {y y' : YearStepper} {f f' : Fields} {step : Step}
    (h : y.generate f = (step, y', f')) :
    Settles (fun n => Generator.generate n ⟨.years y, []⟩ f) (step, ⟨.years y', []⟩, f') := by
  refine Settles.finish ?_
  simp only [Generator.attempt, FieldSource.generate, h, Filter.acceptsAll]
  cases step <;> exact settles_const _

theorem Begins.answers_years (hB : B.Begins) {g : Generator} {f : Fields} {last : Option Int}
    {k : Nat} (h : (B.mechanism base).At 0 g [] last k) :
    (B.mechanism base).Produces 0 g f last k ∨ (B.mechanism base).Quits 0 g f last := by
  obtain ⟨y, rfl, hat⟩ := h
  have hpos : 0 < B.start.length := by
    rw [hB.length_start]
    exact Nat.succ_pos _
  rcases hat.generate hB.years hpos f with ⟨v, y', k', heq, hv, hat', hk⟩ | ⟨y', heq, hgone⟩
  · refine .inl ⟨v, k', _, _, settles_years heq, ?_, ?_, hv.holds, hv.past, hv.least,
      ⟨y', rfl, hat'⟩, hk⟩
    · exact path_set (Nat.succ_pos _) f .year rfl v
    · exact rest_set (Nat.succ_pos _) f .year rfl v
  · exact .inr ⟨rfl, _, _, _, settles_years heq, by simp, rfl, y', rfl, hgone⟩

theorem Begins.answers_below (hB : B.Begins) {i : Nat} {g : Generator} {f : Fields}
    {last : Option Int} {k : Nat} (hi : i + 1 < B.below.length + 1)
    (hn : B.tree.Node (((B.mechanism base).path f).take (i + 1)))
    (h : (B.mechanism base).At (i + 1) g (((B.mechanism base).path f).take (i + 1)) last k) :
    (B.mechanism base).Produces (i + 1) g f last k ∨
      (B.mechanism base).RollsOver (i + 1) g f last := by
  obtain ⟨g₀, hg₀, hat⟩ := h
  obtain ⟨hb, hlevel⟩ := hB.below i g₀ hg₀
  have np := hB.calendar_node hn
  have hpath : f.toList.take g₀.source.field.level = ((B.mechanism base).path f).take (i + 1) := by
    rw [hlevel, path_take hi.le]
  have hlen : (((B.mechanism base).path f).take (i + 1)).length = i + 1 := by
    have := hB.size_le
    rw [path_take hi.le, List.length_take, Fields.length_toList]
    omega
  have htree := fun n => tree_cons hlen hg₀ n
  rcases hat.generate hb hpath np with ⟨v, g', k', heq, hv, hat', hk⟩ | ⟨u, g', k', heq, hnone, hat'⟩
  · refine .inl ⟨v, k', g', _, heq, path_set hi f _ hlevel v, rest_set hi f _ hlevel v,
      (htree v).mpr hv.holds, hv.past, fun u hu => hv.least u ((htree u).mp hu),
      ⟨g₀, hg₀, hat'⟩, hk⟩
  · exact .inr ⟨Nat.succ_pos i, k', g', _, heq, path_set_coarser hi f _ hlevel u,
      rest_set hi f _ hlevel u,
      fun n hn => hnone n ((htree n).mp hn), g₀, hg₀, hat'⟩

/-- **The chain of the calendar is lawful.** -/
theorem Begins.lawful (hB : B.Begins) (base : Int) : (B.mechanism base).Lawful where
  patient := Generator.patient_generate
  length_path f := by
    have := hB.size_le
    show (f.toList.take _).length = B.below.length + 1
    rw [List.length_take, Fields.length_toList]
    omega
  answers := by
    intro i g f last k hi hn h
    cases i with
    | zero =>
      rcases hB.answers_years h with h | h
      · exact .inl h
      · exact .inr (.inr h)
    | succ i =>
      rcases hB.answers_below hi hn h with h | h
      · exact .inl h
      · exact .inr (.inl h)
  later := by
    intro i g p q last k hi hp hq np nq hpq h
    obtain ⟨i, rfl⟩ : ∃ j, i = j + 1 := ⟨i - 1, by omega⟩
    obtain ⟨g₀, hg₀, hat⟩ := h
    obtain ⟨hb, hlevel⟩ := hB.below i g₀ hg₀
    have hlt : i < B.below.length := (List.getElem?_eq_some_iff.mp hg₀).1
    obtain ⟨k', hat'⟩ := hat.later hb (by rw [hlevel, hB.length_start]; omega) (by rw [hp, hlevel])
      (by rw [hq, hlevel]) (hB.calendar_node np) (hB.calendar_node nq) hpq
    exact ⟨k', g₀, hg₀, hat'⟩

/-! ### Beginning and filling up -/

/-- A planned chain is ready to be run from its first generator on. -/
theorem Begins.stands (hB : B.Begins) (hbase : ∀ s ∈ B.start[0]?, base < s) (f : Fields) :
    (B.mechanism base).Stands 0 B.chain f none := by
  have hlen : 0 < B.start.length := by
    rw [hB.length_start]
    exact Nat.succ_pos _
  refine ⟨rfl, Tree.node_nil, fun j hj => absurd hj (Nat.not_lt_zero j), ?_, ?_⟩
  · rintro g ⟨⟩
    obtain ⟨k, hk⟩ := hB.years.ready hbase hlen
    exact ⟨k, _, rfl, hk⟩
  · intro j hj g hg q hq nq _
    obtain ⟨j, rfl⟩ : ∃ i, j = i + 1 := ⟨j - 1, by omega⟩
    have hg : B.below[j]? = some g := hg
    have hlt : j < B.below.length := (List.getElem?_eq_some_iff.mp hg).1
    obtain ⟨hb, hlevel⟩ := hB.below j g hg
    have hle := ((node_iff (by rw [hq, hB.length_start]; omega)).mp nq).2
    obtain ⟨k, hk⟩ := hb.ready (by rw [hlevel, hB.length_start]; omega) hB.start (by rw [hq, hlevel])
      (hB.calendar_node nq) (by rw [hlevel, ← hq]; exact hle)
    exact ⟨k, g, hg, hk⟩

/-- Filling the budget up changes nothing but the account. -/
theorem Begins.refill_stands (hB : B.Begins) {i : Nat} {chain : List Generator} {f : Fields}
    {last : Option Int} (hi : 0 < i) (h : (B.mechanism base).Stands i chain f last) :
    (B.mechanism f.year).Stands i (chain.modify 0 Generator.refill) f last := by
  have hsame : ∀ j, 0 < j → (chain.modify 0 Generator.refill)[j]? = chain[j]? := by
    intro j hj
    have hne : 0 ≠ j := by omega
    simp [hne]
  refine ⟨by rw [List.length_modify]; exact h.length_chain, h.node, ?_, ?_, ?_⟩
  · intro j hj g hg
    cases j with
    | zero =>
      -- the account starts anew in the current year
      obtain ⟨g', hg', rfl⟩ : ∃ g', chain[0]? = some g' ∧ g'.refill = g := by
        simpa [List.getElem?_modify] using hg
      obtain ⟨k, y, rfl, hat⟩ := h.settled 0 hi g' hg'
      have hyear : ((B.mechanism base).path f)[0]? = some f.year := by
        show (f.toList.take (B.below.length + 1))[0]? = _
        rw [List.getElem?_take_of_lt (Nat.succ_pos _)]
        rfl
      rw [hyear] at hat
      obtain ⟨k', hat'⟩ := hat.refill hB.years
      exact ⟨k', _, rfl, by
        show B.years.At B.start f.year y.refill (some f.year) k'
        exact hat'⟩
    | succ j =>
      rw [hsame _ (Nat.succ_pos j)] at hg
      exact h.settled (j + 1) hj g hg
  · intro g hg
    rw [hsame i hi] at hg
    obtain ⟨k, hk⟩ := h.current g hg
    obtain ⟨i, rfl⟩ : ∃ j, i = j + 1 := ⟨i - 1, by omega⟩
    exact ⟨k, hk⟩
  · intro j hj g hg q hq nq hb
    rw [hsame j (by omega)] at hg
    obtain ⟨k, hk⟩ := h.waiting j hj g hg q hq nq hb
    obtain ⟨j, rfl⟩ : ∃ i, j = i + 1 := ⟨j - 1, by omega⟩
    exact ⟨k, hk⟩

end Blueprint

end Recurrence
