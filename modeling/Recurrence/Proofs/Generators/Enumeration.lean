/-
Recurrence/Proofs/Generators/Enumeration.lean

Chains that go through the leaves of a tree.

An `Enumeration` is a chain of which nothing is known but the numbers that its generators hand
out: below every node of a tree an ascending list of them, which may be empty, and anew once the
coarser fields have moved on.  The leaves of the tree are its full paths, and a run of the
chain goes on to the next of them, over any number of branches that have none (`run_of_stands`).
So running the chain again and again goes through all leaves that are ahead, in order, until the
first generator refuses (`sweeps_of_stands`).

Each generator is accounted for by the list of what it has left (`Enumeration.Left`), and with
this the chain is a lawful `Mechanism`.  A mechanism leaves the fields outside the chain alone,
whatever they are; here they may be of importance to the generators, so it works on fields that
are known to be in the frame (`Enumeration.framed`).
-/
import Recurrence.Proofs.Generators.Answers
import Recurrence.Proofs.Odometer

namespace Recurrence

open Odometer

/-! ### Leaves -/

section Leaves

variable (children : List Int → List Int)

/-- The nodes that lie so many levels below a node, from the first to the last. -/
def nodesBelow : Nat → List Int → List (List Int)
  | 0, p => [p]
  | n + 1, p => (children p).flatMap fun v => nodesBelow n (p ++ [v])

variable {children} {t : Tree}

theorem mem_nodesBelow (ht : ∀ p v, t p v ↔ v ∈ children p) {n : Nat} {p q : List Int}
    (hp : t.Node p) : q ∈ nodesBelow children n p ↔ ∃ s, s.length = n ∧ q = p ++ s ∧ t.Node q := by
  induction n generalizing p with
  | zero =>
    rw [nodesBelow, List.mem_singleton]
    constructor
    · rintro rfl
      exact ⟨[], rfl, (List.append_nil _).symm, hp⟩
    · rintro ⟨s, hs, rfl, -⟩
      rw [List.length_eq_zero_iff.mp hs, List.append_nil]
  | succ n ih =>
    rw [nodesBelow, List.mem_flatMap]
    constructor
    · rintro ⟨v, hv, hq⟩
      obtain ⟨s, hs, rfl, hq⟩ := (ih (Tree.node_concat.mpr ⟨hp, (ht p v).mpr hv⟩)).mp hq
      exact ⟨v :: s, by rw [List.length_cons, hs], List.append_assoc p [v] s, hq⟩
    · rintro ⟨s, hs, rfl, hq⟩
      obtain ⟨v, s, rfl⟩ := List.exists_cons_of_length_eq_add_one hs
      have happend : p ++ v :: s = p ++ [v] ++ s := List.append_cons p v s
      have hv : t p v := hq p v (happend ▸ List.prefix_append _ s)
      exact ⟨v, (ht p v).mp hv,
        (ih (Tree.node_concat.mpr ⟨hp, hv⟩)).mpr ⟨s, by simpa using hs, happend, hq⟩⟩

theorem pairwise_nodesBelow (ht : ∀ p v, t p v ↔ v ∈ children p)
    (h : ∀ p, (children p).Pairwise (· < ·)) (n : Nat) {p : List Int} (hp : t.Node p) :
    (nodesBelow children n p).Pairwise (· < ·) := by
  induction n generalizing p with
  | zero => exact List.pairwise_singleton _ _
  | succ n ih =>
    have hchild : ∀ v ∈ children p, t.Node (p ++ [v]) :=
      fun v hv => Tree.node_concat.mpr ⟨hp, (ht p v).mpr hv⟩
    rw [nodesBelow, List.pairwise_flatMap]
    refine ⟨fun v hv => ih (hchild v hv), (h p).imp_of_mem ?_⟩
    intro v w hv hw hvw x hx y hy
    obtain ⟨s, -, rfl, -⟩ := (mem_nodesBelow ht (hchild v hv)).mp hx
    obtain ⟨s', -, rfl, -⟩ := (mem_nodesBelow ht (hchild w hw)).mp hy
    refine append_lt_append_of_lt (by simp) ?_ s s'
    rw [append_lt_append_iff rfl]
    exact .inr ⟨rfl, List.cons_lt_cons_iff.mpr (.inl hvw)⟩

end Leaves

/-! ### Enumerations -/

/-- A chain of generators, and the numbers that they hand out. -/
structure Enumeration (γ φ : Type) where
  generate : Nat → Generate γ φ
  /-- The fields that the chain fills, coarsest first. -/
  path : φ → List Int
  /-- What holds of the fields that it leaves alone. -/
  Frame : φ → Prop
  /-- The number of generators. -/
  size : Nat
  /-- The numbers that are handed out below a node, in this order. -/
  children : List Int → List Int
  /-- What the first generator answers once it has no number left. -/
  stop : Step
  /-- `Left i g p ns`: asked below the node `p`, generator `i` hands out the numbers `ns`, and
  no more. -/
  Left : Nat → γ → List Int → List Int → Prop

namespace Enumeration

variable {γ φ : Type} (E : Enumeration γ φ)

/-- The tree of the numbers that are handed out. -/
def tree : Tree := fun p v => v ∈ E.children p

/-- Whether a path is a leaf: a full path of the tree. -/
def Leaf (q : List Int) : Prop := q.length = E.size ∧ E.tree.Node q

/-- The leaves, from the first to the last. -/
def leaves : List (List Int) := nodesBelow E.children E.size []

/-- What a generator answers once it has no number left. -/
def refusal (i : Nat) : Step := if i = 0 then E.stop else .rollover

/-- What is assumed of the generators: each of them sets its field to the numbers that it has left
below the node in the fields, one after another, and then refuses; and below a later node it
starts over. -/
structure Lawful : Prop where
  size_pos : 0 < E.size
  stop_ne : E.stop ≠ .value
  patient : ∀ g f, Patient fun n => E.generate n g f
  length_path : ∀ f, (E.path f).length = E.size
  ascending : ∀ p, (E.children p).Pairwise (· < ·)
  value : ∀ {i g f v ns}, i < E.size → E.Frame f → E.Left i g ((E.path f).take i) (v :: ns) →
    ∃ g' f', Settles (fun n => E.generate n g f) (.value, g', f') ∧ E.Frame f' ∧
      (E.path f').take (i + 1) = (E.path f).take i ++ [v] ∧ E.Left i g' ((E.path f).take i) ns
  refuse : ∀ {i g f}, i < E.size → E.Frame f → E.Left i g ((E.path f).take i) [] →
    ∃ g' f', Settles (fun n => E.generate n g f) (E.refusal i, g', f') ∧ E.Frame f' ∧
      (E.path f').take i = (E.path f).take i ∧ E.Left i g' ((E.path f).take i) []
  restart : ∀ {i g p q ns}, 0 < i → p.length = i → q.length = i → E.tree.Node p → E.tree.Node q →
    p < q → E.Left i g p ns → E.Left i g q (E.children q)

/-- A chain that has not been asked yet: each of its generators has all numbers left below every
node. -/
structure Fresh (chain : List γ) : Prop where
  length_chain : chain.length = E.size
  left : ∀ i g, chain[i]? = some g → ∀ p, p.length = i → E.tree.Node p → E.Left i g p (E.children p)

/-- Run again and again, the chain sets the fields to the paths of a list, one after another, and
then the first generator refuses. -/
inductive Sweeps : List γ → φ → List (List Int) → Prop
  | refused {chain f chain' f'} :
    Settles (fun n => run (E.generate n) n E.size (E.size - 1) chain f) (E.stop, chain', f') →
    Sweeps chain f []
  | leaf {chain f chain' f' ps} :
    Settles (fun n => run (E.generate n) n E.size (E.size - 1) chain f) (.value, chain', f') →
    Sweeps chain' f' ps → Sweeps chain f (E.path f' :: ps)

variable {E}

/-- **The leaves are all full paths of the tree**, in ascending order. -/
theorem Lawful.leaves (hE : E.Lawful) : Lists E.Leaf E.leaves where
  ascending := pairwise_nodesBelow (t := E.tree) (fun _ _ => Iff.rfl) hE.ascending _ Tree.node_nil
  mem_iff q := by
    rw [Enumeration.leaves, mem_nodesBelow (t := E.tree) (fun _ _ => Iff.rfl) Tree.node_nil]
    simp [Leaf]

/-! ### Fields in the frame -/

open Classical in
/-- Ask a generator, fields outside the frame being none. -/
noncomputable def framed (E : Enumeration γ φ) (n : Nat) : Generate γ {f // E.Frame f} := fun g f =>
  (E.generate n g f.1).bind fun (step, g', f') =>
    if h : E.Frame f' then some (step, g', ⟨f', h⟩) else none

theorem framed_eq_some {n : Nat} {g g' : γ} {f f' : {f // E.Frame f}} {step : Step} :
    E.framed n g f = some (step, g', f') ↔ E.generate n g f.1 = some (step, g', f'.1) := by
  rw [framed, Option.bind_eq_some_iff]
  constructor
  · rintro ⟨⟨step₁, g₁, f₁⟩, h, hframed⟩
    dsimp only at hframed
    split_ifs at hframed with hf
    cases hframed
    exact h
  · intro h
    exact ⟨_, h, dif_pos f'.2⟩

theorem settles_framed {g g' : γ} {f f' : {f // E.Frame f}} {step : Step}
    (h : Settles (fun n => E.generate n g f.1) (step, g', f'.1)) :
    Settles (fun n => E.framed n g f) (step, g', f') := by
  filter_upwards [h] with n hn
  exact framed_eq_some.mpr hn

theorem Lawful.patient_framed (hE : E.Lawful) (g : γ) (f : {f // E.Frame f}) :
    Patient fun n => E.framed n g f := by
  rintro m n ⟨step, g', f'⟩ hmn h
  exact framed_eq_some.mpr (hE.patient g f.1 hmn (framed_eq_some.mp h))

/-- An odometer without the fact that its fields are in the frame. -/
def unframed (o : Odometer γ {f // E.Frame f}) : Odometer γ φ := ⟨o.index, o.chain, o.fields.1⟩

/-- A run's result without this fact. -/
def unframedResult (out : Step × List γ × {f // E.Frame f}) : Step × List γ × φ :=
  (out.1, out.2.1, out.2.2.1)

theorem turn_of_framed {n c : Nat} {o : Odometer γ {f // E.Frame f}}
    {t : Turn (Odometer γ {f // E.Frame f}) (Step × List γ × {f // E.Frame f})}
    (ht : turn (E.framed n) c o = some t) :
    turn (E.generate n) c (unframed o) = some (t.map unframed unframedResult) := by
  obtain ⟨i, chain, f⟩ := o
  simp only [turn, unframed] at ht ⊢
  cases hg : (chain.take c)[i]? with
  | none =>
    obtain rfl := by simpa [hg] using ht
    rfl
  | some g =>
    simp only [hg] at ht ⊢
    cases hgen : E.framed n g f with
    | none => simp [hgen] at ht
    | some out =>
      obtain ⟨step, g', f'⟩ := out
      simp only [hgen, framed_eq_some.mp hgen] at ht ⊢
      cases step <;> cases i <;> exact Option.some.inj ht ▸ rfl

/-- What a run does to fields in the frame it does to the fields. -/
theorem settles_run_of_framed {c i : Nat} {chain chain' : List γ} {f f' : {f // E.Frame f}}
    {step : Step} (h : Settles (fun n => run (E.framed n) n c i chain f) (step, chain', f')) :
    Settles (fun n => run (E.generate n) n c i chain f.1) (step, chain', f'.1) := by
  filter_upwards [h] with n hn
  exact loop_of_turns (fun _ _ => turn_of_framed) hn

/-! ### The chain as a mechanism -/

/-- The chain on fields in the frame. -/
noncomputable def mechanism (E : Enumeration γ φ) : Mechanism γ {f // E.Frame f} Unit where
  generate := E.framed
  path f := E.path f.1
  rest _ := ()
  size := E.size
  tree := E.tree
  At i g p last k := ∃ ns, E.Left i g p ns ∧ Unused (· ∈ E.children p) last ns ∧ ns.length ≤ k
  Gone _ last step := step = E.stop ∧ ∀ u ∈ E.children [], ¬ Past last u

/-- **The chain is lawful**: a generator that has numbers left produces the first of them. -/
theorem Lawful.mechanism (hE : E.Lawful) : E.mechanism.Lawful where
  patient := hE.patient_framed
  length_path f := hE.length_path f.1
  answers := by
    rintro i g f last k hi - ⟨ns, hleft, hns, hk⟩
    cases ns with
    | nil =>
      obtain ⟨g', f', hgen, hf', hpath, hleft'⟩ := hE.refuse hi f.2 hleft
      cases i with
      | zero =>
        exact .inr (.inr ⟨rfl, E.stop, g', ⟨f', hf'⟩, settles_framed hgen, hE.stop_ne, rfl, rfl,
          fun u => hns.not_past⟩)
      | succ i =>
        exact .inr (.inl ⟨Nat.succ_pos i, k, g', ⟨f', hf'⟩, settles_framed hgen, hpath, rfl,
          fun u => hns.not_past, [], hleft', hns, hk⟩)
    | cons v ns =>
      obtain ⟨g', f', hgen, hf', hpath, hleft'⟩ := hE.value hi f.2 hleft
      obtain ⟨hv, hpast, hleast⟩ := hns.isNext
      exact .inl ⟨v, ns.length, g', ⟨f', hf'⟩, settles_framed hgen, hpath, rfl, hv, hpast, hleast,
        ⟨ns, hleft', hns.tail, le_rfl⟩, hk⟩
  later := by
    rintro i g p q last k hi hp hq np nq hpq ⟨ns, hleft, -, -⟩
    exact ⟨_, _, hE.restart hi hp hq np nq hpq hleft, .of_pairwise (hE.ascending q), le_rfl⟩

theorem Fresh.stands (hE : E.Lawful) {chain : List γ} (h : E.Fresh chain) (f : {f // E.Frame f}) :
    E.mechanism.Stands 0 chain f none where
  length_chain := h.length_chain
  node := Tree.node_nil
  settled j hj := absurd hj (Nat.not_lt_zero j)
  current g hg := ⟨_, _, h.left 0 g hg [] rfl Tree.node_nil, .of_pairwise (hE.ascending []), le_rfl⟩
  waiting j _ g hg q hq nq _ := ⟨_, _, h.left j g hg q hq nq, .of_pairwise (hE.ascending q), le_rfl⟩

/-! ### One leaf after another -/

/-- The leaves that the finest generator has ahead of it. -/
def Ahead (E : Enumeration γ φ) (f : {f // E.Frame f}) (last : Option Int) (q : List Int) : Prop :=
  E.Leaf q ∧ E.mechanism.ahead (E.size - 1) f last q

theorem Lawful.length_take (hE : E.Lawful) (f : {f // E.Frame f}) :
    ((E.path f.1).take (E.size - 1)).length = E.size - 1 :=
  hE.mechanism.length_take (Nat.sub_le _ _) f

/-- What comes after a leaf ahead is ahead too. -/
theorem Ahead.mono (hE : E.Lawful) {f : {f // E.Frame f}} {last : Option Int} {p q : List Int}
    (h : E.Ahead f last p) (hq : E.Leaf q) (hpq : p ≤ q) : E.Ahead f last q := by
  have hpos := hE.size_pos
  have hlen := hE.length_take f
  refine ⟨hq, Beyond.mono h.2 hpq ?_ ?_⟩
  · exact (hlen.trans_lt (Nat.sub_lt hpos Nat.one_pos)).trans_eq h.1.1.symm
  · exact (hlen.trans_lt (Nat.sub_lt hpos Nat.one_pos)).trans_eq hq.1.symm

/-- After a leaf those are ahead that come after it. -/
theorem ahead_path_iff (hE : E.Lawful) (f : {f // E.Frame f}) (q : List Int) :
    E.Ahead f (E.path f.1)[E.size - 1]? q ↔ E.Leaf q ∧ E.path f.1 < q := by
  have hpos := hE.size_pos
  have hlen := hE.length_path f.1
  have hlt : E.size - 1 < (E.path f.1).length := by omega
  refine and_congr_right fun hq => ?_
  show Beyond ((E.path f.1).take (E.size - 1)) _ q ↔ _
  rw [List.getElem?_eq_getElem hlt, beyond_some_iff (by rw [hE.length_take, hq.1]; omega),
    ← take_succ_eq hlt, hE.length_take, Nat.sub_add_cancel hpos, List.take_of_length_le hlen.le,
    List.take_of_length_le hq.1.le]

/-- Once the first generator has nothing left, no node is ahead. -/
theorem not_beyond_root {last : Option Int} (h : ∀ u ∈ E.children [], ¬ Past last u) {q : List Int}
    (hq : E.tree.Node q) (hpos : 0 < q.length) : ¬ Beyond [] last q := by
  rintro (hlt | ⟨-, hpast⟩)
  · exact List.not_lt_nil _ hlt
  · exact h q[0] (hq.child hpos) (hpast q[0] (List.getElem?_eq_getElem hpos))

/-- **One run** finds the first leaf that is ahead, and stands there; if none is, the first
generator refuses. -/
theorem run_of_stands (hE : E.Lawful) {chain : List γ} {f : {f // E.Frame f}} {last : Option Int}
    (hs : E.mechanism.Stands (E.size - 1) chain f last) :
    ∃ step chain' f', Settles (fun n => run (E.framed n) n E.size (E.size - 1) chain f)
        (step, chain', f') ∧
      (step = .value ∧ IsLeast {q | E.Ahead f last q} (E.path f'.1) ∧
          E.mechanism.Stands (E.size - 1) chain' f' (E.path f'.1)[E.size - 1]? ∨
        step = E.stop ∧ ∀ q, ¬ E.Ahead f last q) := by
  have hpos := hE.size_pos
  obtain ⟨⟨step, chain', f'⟩, hrun, -, hout⟩ :=
    Mechanism.run_settles hE.mechanism (le_refl E.size) (Nat.sub_le _ _) (fun h => by omega) hs
  refine ⟨step, chain', f', hrun, ?_⟩
  rcases hout with ⟨hstep, hs', hahead, hleast⟩ | ⟨-, -, last', -, ⟨hstep, hnone⟩, hbeyond⟩
  · have hfull : (E.mechanism.path f').take E.size = E.path f'.1 :=
      List.take_of_length_le (hE.length_path f'.1).le
    have hnode := hs'.node
    rw [hfull] at hnode hahead hleast
    refine .inl ⟨hstep, ⟨⟨⟨hE.length_path f'.1, hnode⟩, hahead⟩, ?_⟩, ?_⟩
    · rintro q ⟨⟨hlen, hq⟩, hq'⟩
      exact hleast q hq hlen hq'
    · have hs' : E.mechanism.Stands (E.size - 1 + 1) chain' f' none := by
        rwa [Nat.sub_add_cancel hpos]
      exact hs'.up hE.mechanism (Nat.sub_lt hpos Nat.one_pos)
  · refine .inr ⟨hstep, ?_⟩
    rintro q ⟨⟨hlen, hq⟩, hq'⟩
    exact not_beyond_root hnone hq (hlen ▸ hpos) (hbeyond q hq hlen hq')

/-- **All runs** find the leaves that are ahead, one after another. -/
theorem sweeps_of_stands (hE : E.Lawful) {ps : List (List Int)} {chain : List γ}
    {f : {f // E.Frame f}} {last : Option Int}
    (hs : E.mechanism.Stands (E.size - 1) chain f last) (hps : Lists (E.Ahead f last) ps) :
    E.Sweeps chain f.1 ps := by
  -- on the leaves that are left
  induction ps generalizing chain f last with
  | nil =>
    obtain ⟨step, chain', f', hrun, ⟨rfl, hleast, -⟩ | ⟨rfl, -⟩⟩ := run_of_stands hE hs
    · exact absurd hleast.1 hps.not_holds
    · exact .refused (settles_run_of_framed hrun)
  | cons p ps ih =>
    obtain ⟨step, chain', f', hrun, ⟨rfl, hleast, hs'⟩ | ⟨-, hnone⟩⟩ := run_of_stands hE hs
    · obtain rfl := hleast.unique hps.isLeast
      refine .leaf (settles_run_of_framed hrun) (ih hs' (hps.tail.congr fun q => ?_))
      rw [ahead_path_iff hE]
      exact and_congr_left fun hlt => ⟨fun hq => hleast.1.mono hE hq hlt.le, And.left⟩
    · exact absurd hps.isLeast.1 (hnone p)

/-- **Priming** all but the finest generator leaves all leaves ahead; if the first generator
refuses, there are none. -/
theorem prime_of_fresh (hE : E.Lawful) {chain : List γ} (h : E.Fresh chain) (f : {f // E.Frame f}) :
    ∃ step chain' f', Settles (fun n => run (E.framed n) n (E.size - 1) 0 chain f)
        (step, chain', f') ∧
      (step = .value ∧ E.mechanism.Stands (E.size - 1) chain' f' none ∧
          (∀ q, E.Ahead f' none q ↔ E.Leaf q) ∨
        step = E.stop ∧ ∀ q, ¬ E.Leaf q) := by
  obtain ⟨⟨step, chain', f'⟩, hrun, -, hout⟩ :=
    Mechanism.run_settles hE.mechanism (Nat.sub_le E.size 1) (Nat.zero_le _) (fun _ => rfl)
      (h.stands hE f)
  refine ⟨step, chain', f', hrun, ?_⟩
  have hinner : ∀ q, E.Leaf q → (q.take (E.size - 1)).length = E.size - 1 := by
    intro q hq
    rw [List.length_take, hq.1, Nat.min_eq_left (Nat.sub_le _ _)]
  rcases hout with ⟨hstep, hs, -, hleast⟩ | ⟨hstep, -, last, -, ⟨hstop, hnone⟩, hbeyond⟩
  · refine .inl ⟨hstep, hs, fun q => ⟨And.left, fun hq => ⟨hq, ?_⟩⟩⟩
    show Beyond ((E.path f'.1).take (E.size - 1)) none q
    rw [beyond_none_iff, hE.length_take]
    exact hleast _ (hq.2.take _) (hinner q hq) (beyond_none_iff.mpr (by simp))
  · refine .inr ⟨hstop, fun q hq => ?_⟩
    rcases Nat.eq_zero_or_pos (E.size - 1) with hzero | hpos
    · -- a chain of one generator has nothing to prime
      rw [hzero] at hrun
      exact hstep (congrArg Prod.fst (hrun.unique Mechanism.turn_settles_over.finish))
    · have hlen := hinner q hq
      refine not_beyond_root hnone (hq.2.take (E.size - 1)) (hpos.trans_eq hlen.symm) ?_
      exact hbeyond _ (hq.2.take _) hlen (beyond_none_iff.mpr (by simp))

end Enumeration

end Recurrence
