/-
Recurrence/Proofs/TreeEnumeration.lean

A chain of generators enumerates its tree.

All but the finest generator of a chain are primed by one run, and the runs of the whole chain
that follow find the leaves of its tree (`enumerates_tree`).  Generators of the calendar that fill
one field after another below some node are such a chain, whether they step, list or filter
(`Branch.Begins.lawful`).
-/
import Recurrence.Proofs.Generators.Chain
import Recurrence.Proofs.Generators.Enumeration
import Recurrence.Proofs.Meaning.Fields

namespace Recurrence

open Odometer

/-! ### Generators below a node of the calendar -/

/-- Generators for the fields below a node of the calendar, coarsest first. -/
structure Branch where
  /-- The fields of the start. -/
  start : List Int
  node : List Int
  chain : List Generator
  /-- The numbers that are named below a path from the node on. -/
  children : List Int → List Int

namespace Branch

variable (B : Branch)

/-- What makes the generators ones that fill one field after another, none of them having been
asked, below a node that is not before the start. -/
structure Begins : Prop where
  length_pos : 0 < B.chain.length
  length_le : B.node.length + B.chain.length ≤ B.start.length
  start : calendarTree.Node B.start
  node : calendarTree.Node B.node
  start_le : B.start.take B.node.length ≤ B.node
  below : ∀ i g, B.chain[i]? = some g → g.Begins B.start ∧ g.source.field.level = B.node.length + i
  ascending : ∀ p, (B.children p).Pairwise (· < ·)
  mem_iff : ∀ i g, B.chain[i]? = some g → ∀ p n, p.length = i →
    (n ∈ B.children p ↔ g.Names (B.node ++ p) n ∧ FromStart B.start (B.node ++ p) n)

/-- The generators as an enumeration, the coarser fields being those of the node. -/
def enumeration : Enumeration Generator Fields where
  generate := Generator.generate
  path f := (f.toList.drop B.node.length).take B.chain.length
  Frame f := f.toList.take B.node.length = B.node
  size := B.chain.length
  children := B.children
  stop := .rollover
  Left i g p ns := ∃ g₀ last k, B.chain[i]? = some g₀ ∧ calendarTree.Node (B.node ++ p) ∧
    g₀.At B.start (B.node ++ p) g last k ∧ Unused (· ∈ B.children p) last ns

variable {B}

/-- The fields in the frame lead to the node and on. -/
theorem node_append_path {i : Nat} (hi : i ≤ B.chain.length) {f : Fields}
    (hf : B.enumeration.Frame f) :
    B.node ++ (B.enumeration.path f).take i = f.toList.take (B.node.length + i) := by
  have hf : f.toList.take B.node.length = B.node := hf
  show B.node ++ ((f.toList.drop _).take _).take i = _
  rw [List.take_take, Nat.min_eq_left hi, List.take_add, hf]

section Set

variable {i : Nat} {f : Fields} {field : Field}

theorem frame_set (hf : B.enumeration.Frame f) (hfield : field.level = B.node.length + i) (n : Int) :
    B.enumeration.Frame (f.set field n) :=
  (take_eq_of_take_eq (Generator.take_level_set f field n) (by omega)).trans hf

/-- Setting a field puts its number behind the path of the coarser ones. -/
theorem path_set (hi : i < B.chain.length) (hf : B.enumeration.Frame f)
    (hfield : field.level = B.node.length + i) (n : Int) :
    (B.enumeration.path (f.set field n)).take (i + 1) = (B.enumeration.path f).take i ++ [n] := by
  have hset := Fields.take_set f field n
  rw [hfield, add_assoc, ← node_append_path hi (frame_set hf hfield n),
    ← node_append_path hi.le hf, List.append_assoc] at hset
  exact List.append_cancel_left hset

theorem path_set_coarser (hi : i < B.chain.length) (hf : B.enumeration.Frame f)
    (hfield : field.level = B.node.length + i) (n : Int) :
    (B.enumeration.path (f.set field n)).take i = (B.enumeration.path f).take i := by
  have hset := Generator.take_level_set f field n
  rw [hfield, ← node_append_path hi.le (frame_set hf hfield n), ← node_append_path hi.le hf] at hset
  exact List.append_cancel_left hset

end Set

theorem Begins.length_path (hB : B.Begins) (f : Fields) :
    (B.enumeration.path f).length = B.chain.length := by
  have := length_le_six hB.start
  have := hB.length_le
  show ((f.toList.drop _).take _).length = _
  rw [List.length_take, List.length_drop, Fields.length_toList]
  omega

/-- The paths of the tree lead to nodes of the calendar, not before the start. -/
theorem Begins.calendar_node (hB : B.Begins) {p : List Int} (hp : p.length ≤ B.chain.length)
    (np : B.enumeration.tree.Node p) : calendarTree.Node (B.node ++ p) ∧
      B.start.take (B.node ++ p).length ≤ B.node ++ p := by
  have hlen := hB.length_le
  let fromStart : Tree := fun q n => calendarTree q n ∧ FromStart B.start q n
  suffices h : fromStart.Node (B.node ++ p) by
    rwa [Tree.node_fromStart (fun _ _ => Iff.rfl) (by rw [List.length_append]; omega)] at h
  induction p using List.reverseRecOn with
  | nil =>
    rw [List.append_nil, Tree.node_fromStart (fun _ _ => Iff.rfl) (by omega)]
    exact ⟨hB.node, hB.start_le⟩
  | append_singleton p v ih =>
    rw [List.length_append, List.length_singleton] at hp
    obtain ⟨np, hv⟩ := Tree.node_concat.mp np
    have ih := ih (by omega) np
    have hcal := ((Tree.node_fromStart (fun _ _ => Iff.rfl)
      (by rw [List.length_append]; omega)).mp ih).1
    obtain ⟨hbegins, hlevel⟩ := hB.below p.length _ (List.getElem?_eq_getElem (by omega))
    obtain ⟨hnames, hfrom⟩ :=
      (hB.mem_iff p.length _ (List.getElem?_eq_getElem (by omega)) p v rfl).mp hv
    rw [← List.append_assoc, Tree.node_concat]
    refine ⟨ih, hbegins.within _ v ?_ hcal hnames.1, hfrom⟩
    rw [hlevel, List.length_append]

/-- A generator sets its field to the first of the numbers that it has left, or rolls over. -/
theorem Begins.answers (hB : B.Begins) {i : Nat} {g : Generator} {f : Fields} {ns : List Int}
    (hi : i < B.chain.length) (hf : B.enumeration.Frame f)
    (h : B.enumeration.Left i g ((B.enumeration.path f).take i) ns) :
    ∃ field : Field, field.level = B.node.length + i ∧
      ((∃ n ms g', ns = n :: ms ∧
          Settles (fun n => g.generate n f) (.value, g', f.set field n) ∧
          B.enumeration.Left i g' ((B.enumeration.path f).take i) ms) ∨
        ∃ n g', ns = [] ∧ Settles (fun n => g.generate n f) (.rollover, g', f.set field n) ∧
          B.enumeration.Left i g' ((B.enumeration.path f).take i) []) := by
  obtain ⟨g₀, last, k, hg₀, np, hat, hns⟩ := h
  obtain ⟨hbegins, hlevel⟩ := hB.below i g₀ hg₀
  have hpath : f.toList.take g₀.source.field.level =
      B.node ++ (B.enumeration.path f).take i := by
    rw [hlevel, node_append_path hi.le hf]
  have hlen : ((B.enumeration.path f).take i).length = i := by
    rw [List.length_take, hB.length_path, Nat.min_eq_left hi.le]
  have hmem := fun n => hB.mem_iff i g₀ hg₀ _ n hlen
  refine ⟨g₀.source.field, hlevel, ?_⟩
  rcases hat.generate hbegins hpath np with
    ⟨v, g', k', hgen, hv, hat', -⟩ | ⟨u, g', k', hgen, hnone, hat'⟩
  · cases ns with
    | nil => exact absurd hv.past (hns.not_past ((hmem v).mpr hv.holds))
    | cons n ns =>
      obtain rfl : n = v := hns.isNext.eq
        ⟨(hmem v).mpr hv.holds, hv.past, fun w hw => hv.least w ((hmem w).mp hw)⟩
      exact .inl ⟨n, ns, g', rfl, hgen, g₀, some n, k', hg₀, np, hat', hns.tail⟩
  · cases ns with
    | nil => exact .inr ⟨u, g', rfl, hgen, g₀, last, k', hg₀, np, hat', hns⟩
    | cons n ns => exact absurd hns.isNext.past (hnone n ((hmem n).mp hns.isNext.holds))

/-- **Generators below a node are lawful.** -/
theorem Begins.lawful (hB : B.Begins) : B.enumeration.Lawful where
  size_pos := hB.length_pos
  stop_ne := by simp [enumeration]
  patient := Generator.patient_generate
  length_path := hB.length_path
  ascending := hB.ascending
  value := by
    intro i g f v ns hi hf h
    obtain ⟨field, hfield, ⟨n, ms, g', heq, hgen, h'⟩ | ⟨n, g', heq, -⟩⟩ := hB.answers hi hf h
    · obtain ⟨rfl, rfl⟩ := List.cons.inj heq
      exact ⟨g', _, hgen, frame_set hf hfield v, path_set hi hf hfield v, h'⟩
    · exact absurd heq (by simp)
  refuse := by
    intro i g f hi hf h
    obtain ⟨field, hfield, ⟨n, ms, g', heq, -⟩ | ⟨n, g', -, hgen, h'⟩⟩ := hB.answers hi hf h
    · exact absurd heq (by simp)
    · have hrefusal : B.enumeration.refusal i = .rollover := ite_self _
      rw [hrefusal]
      exact ⟨g', _, hgen, frame_set hf hfield n, path_set_coarser hi hf hfield n, h'⟩
  restart := by
    rintro i g p q ns hi hp hq np nq hpq ⟨g₀, last, k, hg₀, hcal, hat, -⟩
    have hi : i < B.chain.length := (List.getElem?_eq_some_iff.mp hg₀).1
    have hlen := hB.length_le
    obtain ⟨hbegins, hlevel⟩ := hB.below i g₀ hg₀
    have hcal' := (hB.calendar_node (by omega) nq).1
    have hlt : B.node ++ p < B.node ++ q := (append_lt_append_iff rfl).mpr (.inr ⟨rfl, hpq⟩)
    obtain ⟨k', hat'⟩ := hat.later hbegins (by omega) (by rw [List.length_append]; omega)
      (by rw [List.length_append]; omega) hcal hcal' hlt
    exact ⟨g₀, none, k', hg₀, hcal', hat', .of_pairwise (hB.ascending q)⟩

theorem Begins.fresh (hB : B.Begins) : B.enumeration.Fresh B.chain where
  length_chain := rfl
  left i g hg p hp np := by
    have hi : i < B.chain.length := (List.getElem?_eq_some_iff.mp hg).1
    have hlen := hB.length_le
    obtain ⟨hbegins, hlevel⟩ := hB.below i g hg
    obtain ⟨hcal, hle⟩ := hB.calendar_node (by omega) np
    have hfield : (B.node ++ p).length = g.source.field.level := by
      rw [List.length_append]
      omega
    obtain ⟨k, hat⟩ := hbegins.ready (by omega) hB.start hfield hcal (hfield ▸ hle)
    exact ⟨g, none, k, hg, hcal, hat, .of_pairwise (hB.ascending p)⟩

end Branch

/-- From a start on a lister names all values of its list, if none of them is before the start's. -/
theorem mem_values_iff_names {l : Listing} {s : Value} {start p : List Int}
    (h : ∀ n ∈ l.values (.ofPath p), ∀ m ∈ start[p.length]?, m ≤ n) (n : Int) :
    n ∈ l.values (.ofPath p) ↔ (listedFrom l s).Names p n ∧ FromStart start p n := by
  constructor
  · intro hn
    exact ⟨⟨hn, by simp [listedFrom]⟩, fun _ => h n hn⟩
  · rintro ⟨⟨hn, -⟩, -⟩
    exact hn

/-- **A chain of generators enumerates its tree.**  Take any chain whose generators hand out, below
every node, a finite ascending list of numbers, possibly none, and start over below a later node.
Its leaves are the full paths of the tree, in ascending order and each once.  All but the finest
generator are primed by one run.  After this the runs of the whole chain set the fields to the
leaves, one after another, and the run after the last one ends with the answer of the first
generator, a rollover or a halt.  Should priming end with this answer, there is no leaf. -/
theorem enumerates_tree {γ φ : Type} {E : Enumeration γ φ} (hE : E.Lawful) {chain : List γ}
    (hchain : E.Fresh chain) {f : φ} (hf : E.Frame f) :
    E.leaves.Pairwise (· < ·) ∧ (∀ q, q ∈ E.leaves ↔ q.length = E.size ∧ E.tree.Node q) ∧
      ∃ step chain' f', Settles (fun n => run (E.generate n) n (E.size - 1) 0 chain f)
          (step, chain', f') ∧
        (step = .value ∧ E.Sweeps chain' f' E.leaves ∨ step = E.stop ∧ E.leaves = []) := by
  obtain ⟨hasc, hmem⟩ := hE.leaves
  refine ⟨hasc, hmem, ?_⟩
  obtain ⟨step, chain', f', hrun, hprimed⟩ := Enumeration.prime_of_fresh hE hchain ⟨f, hf⟩
  refine ⟨step, chain', f'.1, Enumeration.settles_run_of_framed hrun, ?_⟩
  rcases hprimed with ⟨hstep, hs, hahead⟩ | ⟨hstep, hnone⟩
  · exact .inl ⟨hstep, Enumeration.sweeps_of_stands hE hs (hE.leaves.congr hahead)⟩
  · exact .inr ⟨hstep, List.eq_nil_iff_forall_not_mem.mpr fun q hq => hnone q ((hmem q).mp hq)⟩

/-- The 30th and 31st of January, February and April 2006: February has neither. -/
theorem enumerates_tree_month_ends :
    let start : Value := .ofDate ⟨2006, 1, 1⟩
    let chain := [listedFrom (.months [1, 2, 4]) start, listedFrom (.monthDays [30, 31]) start]
    let B : Branch := ⟨start.path, [2006], chain, fun
      | [] => [1, 2, 4]
      | [month] => monthDaysIn [30, 31] 2006 month
      | _ => []⟩
    ∃ chain' f', Settles (fun n => run (Generator.generate n) n 1 0 chain (.ofValue start))
        (.value, chain', f') ∧
      B.enumeration.Sweeps chain' f' [[1, 30], [1, 31], [4, 30]] := by
  intro start chain B
  have hdays : ∀ y m, ∀ n ∈ monthDaysIn [30, 31] y m, 1 ≤ n ∧ n ≤ Gregorian.monthLength y m := by
    intro y m n hn
    simpa using (List.mem_filter.mp (mem_ascendingInts.mp hn)).2
  have hB : B.Begins := {
    length_pos := by decide
    length_le := by decide
    start := node_path (by decide)
    node := node_year 2006
    start_le := le_rfl
    below := by
      intro i g hg
      match i, hg with
      | 0, rfl =>
        exact ⟨begins_listedFrom rfl fun p n hp _ => listed_months_within (by decide) p n hp, rfl⟩
      | 1, rfl =>
        refine ⟨begins_listedFrom rfl fun p n hp _ hn => ?_, rfl⟩
        obtain ⟨y, m, rfl⟩ := List.length_eq_two.mp hp
        exact hdays y m n hn
    ascending := by
      intro p
      match p with
      | [] => decide
      | [month] => exact pairwise_ascendingInts _
      | _ :: _ :: _ => exact List.Pairwise.nil
    mem_iff := by
      intro i g hg p n hp
      match i, hg with
      | 0, rfl =>
        obtain rfl := List.length_eq_zero_iff.mp hp
        exact mem_values_iff_names (l := .months [1, 2, 4]) (p := [2006]) (by decide) n
      | 1, rfl =>
        obtain ⟨m, rfl⟩ := List.length_eq_one_iff.mp hp
        refine mem_values_iff_names (l := .monthDays [30, 31]) (p := [2006, m]) ?_ n
        rintro n hn _ ⟨⟩
        exact (hdays 2006 m n hn).1 }
  have hleaves : B.enumeration.leaves = [[1, 30], [1, 31], [4, 30]] := by decide +kernel
  obtain ⟨-, -, step, chain', f', hrun, ⟨rfl, hsweeps⟩ | ⟨-, hnone⟩⟩ :=
    enumerates_tree hB.lawful hB.fresh (f := .ofValue start) rfl
  · exact ⟨chain', f', hrun, hleaves ▸ hsweeps⟩
  · exact absurd (hleaves.symm.trans hnone) (by simp)

end Recurrence
