/-
Recurrence/Proofs/Odometer.lean

A chain of generators walks its tree.

Nothing is assumed here of the generators but how each of them answers: asked
below a node, it produces the next child of that node, or says that none is
left; only the first of the chain may give up for a reason of its own.  And once
the coarser fields have moved on, a generator starts over.  `Mechanism` collects
the parts and `Mechanism.Lawful` these assumptions.

`Stands i chain f last` says what holds when it is the turn of generator `i`:
the coarser ones have produced the node in the fields, the generator itself has
used the children up to `last`, and the finer ones are ready for every node that
still lies ahead.  The main result is `run_settles`: a run from there ends, and
it ends on the first node ahead, or with the first generator's refusal.
-/
import Recurrence.Expansion.Odometer
import Recurrence.Proofs.Patience
import Recurrence.Proofs.Path

namespace Recurrence

open Odometer

/-! ### Patience -/

theorem patient_turn {γ φ : Type} {generate : Nat → Generate γ φ}
    (hp : ∀ g f, Patient fun n => generate n g f) (c : Nat) (o : Odometer γ φ) :
    Patient fun n => turn (generate n) c o := by
  unfold turn
  cases (o.chain.take c)[o.index]? with
  | none => exact patient_const _
  | some g =>
    apply Patient.after (hp g o.fields)
    · intro n hn
      simp only [hn]
    · intro m n b a _ hm hn ht
      simpa only [hm, hn] using ht

theorem patient_run {γ φ : Type} {generate : Nat → Generate γ φ}
    (hp : ∀ g f, Patient fun n => generate n g f) (c i : Nat) (chain : List γ) (f : φ) :
    Patient fun n => run (generate n) n c i chain f :=
  patient_loop (patient_turn hp c) ⟨i, chain, f⟩

/-! ### Mechanisms -/

/-- What a chain of generators is made of, and what its parts remember. -/
structure Mechanism (γ φ ρ : Type) where
  generate : Nat → Generate γ φ
  /-- The fields that the chain fills, coarsest first. -/
  path : φ → List Int
  /-- The fields that it leaves alone. -/
  rest : φ → ρ
  /-- The number of generators. -/
  size : Nat
  tree : Tree
  /-- `At i g p last k`: generator `i` stands below the node `p`, has used its
  children up to `last`, and has at most `k` more to produce. -/
  At : Nat → γ → List Int → Option Int → Nat → Prop
  /-- The first generator has given up, its last value being the given one. -/
  Gone : γ → Option Int → Step → Prop

namespace Mechanism

variable {γ φ ρ : Type} (M : Mechanism γ φ ρ)

/-- Generator `i` sets its field to the next child. -/
def Produces (i : Nat) (g : γ) (f : φ) (last : Option Int) (k : Nat) : Prop :=
  ∃ v k' g' f', Settles (fun n => M.generate n g f) (.value, g', f') ∧
    (M.path f').take (i + 1) = (M.path f).take i ++ [v] ∧ M.rest f' = M.rest f ∧
    M.tree ((M.path f).take i) v ∧ Past last v ∧
    (∀ u, M.tree ((M.path f).take i) u → Past last u → v ≤ u) ∧
    M.At i g' ((M.path f).take i) (some v) k' ∧ k' < k

/-- Generator `i` has no child left. -/
def RollsOver (i : Nat) (g : γ) (f : φ) (last : Option Int) : Prop :=
  0 < i ∧ ∃ k' g' f', Settles (fun n => M.generate n g f) (.rollover, g', f') ∧
    (M.path f').take i = (M.path f).take i ∧ M.rest f' = M.rest f ∧
    (∀ u, M.tree ((M.path f).take i) u → ¬ Past last u) ∧
    M.At i g' ((M.path f).take i) last k'

/-- The first generator gives up. -/
def Quits (i : Nat) (g : γ) (f : φ) (last : Option Int) : Prop :=
  i = 0 ∧ ∃ step g' f', Settles (fun n => M.generate n g f) (step, g', f') ∧
    step ≠ .value ∧ M.rest f' = M.rest f ∧ M.Gone g' last step

/-- What is assumed of the generators. -/
structure Lawful : Prop where
  patient : ∀ g f, Patient fun n => M.generate n g f
  length_path : ∀ f, (M.path f).length = M.size
  answers : ∀ {i g f last k}, i < M.size → M.tree.Node ((M.path f).take i) →
    M.At i g ((M.path f).take i) last k →
    M.Produces i g f last k ∨ M.RollsOver i g f last ∨ M.Quits i g f last
  later : ∀ {i g p q last k}, 0 < i → p.length = i → q.length = i → M.tree.Node p →
    M.tree.Node q → p < q → M.At i g p last k → ∃ k', M.At i g q none k'

/-- What holds when it is the turn of generator `i`. -/
structure Stands (i : Nat) (chain : List γ) (f : φ) (last : Option Int) : Prop where
  length_chain : chain.length = M.size
  node : M.tree.Node ((M.path f).take i)
  settled : ∀ j, j < i → ∀ g, chain[j]? = some g →
    ∃ k, M.At j g ((M.path f).take j) (M.path f)[j]? k
  current : ∀ g, chain[i]? = some g → ∃ k, M.At i g ((M.path f).take i) last k
  waiting : ∀ j, i < j → ∀ g, chain[j]? = some g → ∀ q, q.length = j → M.tree.Node q →
    Beyond ((M.path f).take i) last q → ∃ k, M.At j g q none k

variable {M}

theorem Lawful.length_take (hM : M.Lawful) {i : Nat} (hi : i ≤ M.size) (f : φ) :
    ((M.path f).take i).length = i := by
  rw [List.length_take, hM.length_path, Nat.min_eq_left hi]

/-! ### Turning -/

/-- What a turn makes of the answer of the generator whose turn it is. -/
theorem turn_settles {c i : Nat} {chain : List γ} {f f' : φ} {g g' : γ} {step : Step}
    (hi : i < c) (hg : chain[i]? = some g)
    (h : Settles (fun n => M.generate n g f) (step, g', f')) :
    Settles (fun n => turn (M.generate n) c ⟨i, chain, f⟩)
      (match step, i with
        | .value, i => .again ⟨i + 1, chain.set i g', f'⟩
        | .rollover, j + 1 => .again ⟨j, chain.set (j + 1) g', f'⟩
        | step, i => .done (step, chain.set i g', f')) := by
  filter_upwards [h] with n hn
  have hg' : (chain.take c)[i]? = some g := by rw [List.getElem?_take_of_lt hi, hg]
  simp only [turn, hg', hn]
  cases step <;> cases i <;> rfl

/-- A run is over once it has passed its last generator. -/
theorem turn_settles_over {c : Nat} {chain : List γ} {f : φ} :
    Settles (fun n => turn (M.generate n) c ⟨c, chain, f⟩) (.done (.value, chain, f)) := by
  refine Filter.Eventually.of_forall fun n => ?_
  have h : (chain.take c)[c]? = none := List.getElem?_eq_none (by simp)
  simp only [turn, h]

/-! ### What a turn keeps -/

/-- **Down.**  After generator `i` has produced a child, it is the next one's turn. -/
theorem Stands.down (hM : M.Lawful) {i : Nat} {chain : List γ} {f f' : φ} {g g' : γ}
    {last : Option Int} {v : Int} {k : Nat} (hi : i < M.size) (hs : M.Stands i chain f last)
    (hg : chain[i]? = some g) (hpath : (M.path f').take (i + 1) = (M.path f).take i ++ [v])
    (hv : M.tree ((M.path f).take i) v) (hpast : Past last v)
    (hleast : ∀ u, M.tree ((M.path f).take i) u → Past last u → v ≤ u)
    (hat : M.At i g' ((M.path f).take i) (some v) k) :
    M.Stands (i + 1) (chain.set i g') f' none := by
  have hlen : ((M.path f).take i).length = i := hM.length_take hi.le f
  have hle : i ≤ (M.path f).length := by rw [hM.length_path]; exact hi.le
  have htake := take_eq_of_take_succ hpath hle
  have hnode : M.tree.Node ((M.path f').take (i + 1)) := by
    rw [hpath, Tree.node_concat]
    exact ⟨hs.node, hv⟩
  -- the generators before `i` are untouched, `i` has produced `v`, and the finer ones start anew
  refine ⟨by rw [List.length_set, hs.length_chain], hnode, ?_, ?_, ?_⟩
  · intro j hj g₀ hg₀
    rcases Nat.lt_succ_iff_lt_or_eq.mp hj with hj | rfl
    · rw [List.getElem?_set_ne (by omega)] at hg₀
      rw [take_eq_of_take_eq htake hj.le, getElem?_eq_of_take_eq htake hj]
      exact hs.settled j hj g₀ hg₀
    · rw [List.getElem?_set_self (by rw [hs.length_chain]; exact hi)] at hg₀
      obtain rfl := Option.some.inj hg₀
      rw [htake, getElem?_of_take_succ hpath hle]
      exact ⟨k, hat⟩
  · intro g₀ hg₀
    rw [List.getElem?_set_ne (by omega)] at hg₀
    refine hs.waiting (i + 1) (Nat.lt_succ_self i) g₀ hg₀ _ ?_ hnode ?_
    · rw [hpath, List.length_append, hlen, List.length_singleton]
    · refine .inr ⟨by rw [hlen, hpath, List.take_left' hlen], ?_⟩
      intro u hu
      rw [hlen, hpath, List.getElem?_append_right (by omega), hlen, Nat.sub_self] at hu
      obtain rfl : v = u := by simpa using hu
      exact hpast
  · intro j hj g₀ hg₀ q hqj hq hb
    rw [List.getElem?_set_ne (by omega)] at hg₀
    refine hs.waiting j (by omega) g₀ hg₀ q hqj hq ?_
    rw [beyond_child_iff hpast hleast hq (by omega), ← hpath]
    exact hb

/-- A generator that has rolled over stands where it stood. -/
theorem Stands.stay {i : Nat} {chain : List γ} {f f' : φ} {g' : γ} {last : Option Int}
    {k : Nat} (hs : M.Stands i chain f last)
    (hpath : (M.path f').take i = (M.path f).take i)
    (hat : M.At i g' ((M.path f).take i) last k) : M.Stands i (chain.set i g') f' last := by
  refine ⟨by rw [List.length_set, hs.length_chain], hpath ▸ hs.node, ?_, ?_, ?_⟩
  · intro j hj g₀ hg₀
    rw [List.getElem?_set_ne (by omega)] at hg₀
    rw [take_eq_of_take_eq hpath hj.le, getElem?_eq_of_take_eq hpath hj]
    exact hs.settled j hj g₀ hg₀
  · intro g₀ hg₀
    rw [List.getElem?_set] at hg₀
    split at hg₀
    · split at hg₀
      · obtain rfl := Option.some.inj hg₀
        rw [hpath]
        exact ⟨k, hat⟩
      · simp at hg₀
    · rename_i h
      exact absurd rfl h
  · intro j hj g₀ hg₀ q hqj hq hb
    rw [List.getElem?_set_ne (by omega)] at hg₀
    rw [hpath] at hb
    exact hs.waiting j hj g₀ hg₀ q hqj hq hb

/-- **Up.**  At any time the turn may pass back to the coarser generator: the finer
ones are ready for all that comes after the present child. -/
theorem Stands.up (hM : M.Lawful) {j : Nat} {chain : List γ} {f : φ} {last : Option Int}
    (hj : j < M.size) (hs : M.Stands (j + 1) chain f last) :
    M.Stands j chain f (M.path f)[j]? := by
  have hlen : ((M.path f).take j).length = j := hM.length_take hj.le f
  have hjl : j < (M.path f).length := by rw [hM.length_path]; exact hj
  have htake : (M.path f).take (j + 1) = (M.path f).take j ++ [(M.path f)[j]] := take_succ_eq hjl
  have hnode : M.tree.Node ((M.path f).take j) := by
    have := hs.node
    rw [htake, Tree.node_concat] at this
    exact this.1
  refine ⟨hs.length_chain, hnode, ?_, ?_, ?_⟩
  · intro l hl g hg
    exact hs.settled l (by omega) g hg
  · intro g hg
    exact hs.settled j (Nat.lt_succ_self j) g hg
  · intro l hl g hg q hql hq hb
    rw [List.getElem?_eq_getElem hjl, beyond_some_iff (by rw [hlen]; omega), hlen, ← htake] at hb
    rcases Nat.eq_or_lt_of_le hl with rfl | hl
    · obtain ⟨k, hk⟩ := hs.current g hg
      have hall : q.take (j + 1) = q := List.take_of_length_le hql.le
      rw [hall] at hb
      exact hM.later (Nat.succ_pos j) (hM.length_take hj f) hql hs.node hq hb hk
    · refine hs.waiting l hl g hg q hql hq (.inl ?_)
      rwa [hM.length_take hj f]

/-! ### Runs -/

/-- How a run over the first `c` generators ends, `ahead` being the nodes that it
may find: on the first of them, or with the first generator's refusal while
all of them come after its last value. -/
def Outcome (M : Mechanism γ φ ρ) (c : Nat) (ahead : List Int → Prop) (rest : ρ)
    (out : Step × List γ × φ) : Prop :=
  M.rest out.2.2 = rest ∧
    ((out.1 = .value ∧ M.Stands c out.2.1 out.2.2 none ∧ ahead ((M.path out.2.2).take c) ∧
        ∀ q, M.tree.Node q → q.length = c → ahead q → (M.path out.2.2).take c ≤ q) ∨
      out.1 ≠ .value ∧ ∃ g last, out.2.1[0]? = some g ∧ M.Gone g last out.1 ∧
        ∀ q, M.tree.Node q → q.length = c → ahead q → Beyond [] last q)

theorem Outcome.congr (hM : M.Lawful) {c : Nat} (hc : c ≤ M.size) {ahead ahead' : List Int → Prop}
    (h : ∀ q, M.tree.Node q → q.length = c → (ahead q ↔ ahead' q)) {rest : ρ}
    {out : Step × List γ × φ} (ho : M.Outcome c ahead' rest out) : M.Outcome c ahead rest out := by
  refine ⟨ho.1, ?_⟩
  rcases ho.2 with ⟨hv, hs, ha, hleast⟩ | ⟨hv, g, last, hg, hgone, hl⟩
  · refine .inl ⟨hv, hs, (h _ hs.node (hM.length_take hc _)).mpr ha, ?_⟩
    intro q hq hqc ha'
    exact hleast q hq hqc ((h q hq hqc).mp ha')
  · refine .inr ⟨hv, g, last, hg, hgone, ?_⟩
    intro q hq hqc ha'
    exact hl q hq hqc ((h q hq hqc).mp ha')

/-- The nodes ahead of generator `i`. -/
abbrev ahead (M : Mechanism γ φ ρ) (i : Nat) (f : φ) (last : Option Int) : List Int → Prop :=
  Beyond ((M.path f).take i) last

/-- A run from generator `i` on ends. -/
def Finds (M : Mechanism γ φ ρ) (c i : Nat) (chain : List γ) (f : φ) (last : Option Int) : Prop :=
  ∃ out, Settles (fun n => run (M.generate n) n c i chain f) out ∧
    M.Outcome c (M.ahead i f last) (M.rest f) out

/-- A run from generator `i` on comes back to the coarser one, the coarser part of
the chain being unchanged. -/
def Rises (M : Mechanism γ φ ρ) (c i : Nat) (chain : List γ) (f : φ) (last : Option Int) : Prop :=
  ∃ j chain' f', i = j + 1 ∧
    (∀ out, Settles (fun n => run (M.generate n) n c j chain' f') out →
      Settles (fun n => run (M.generate n) n c i chain f) out) ∧
    (∀ l < i, chain'[l]? = chain[l]?) ∧ (M.path f').take i = (M.path f).take i ∧
    M.rest f' = M.rest f ∧ M.Stands j chain' f' (M.path f)[j]? ∧
    ∀ q, M.tree.Node q → q.length = c →
      (M.ahead i f last q ↔ M.ahead j f (M.path f)[j]? q)

theorem run_again (hM : M.Lawful) {c : Nat} {o o' : Odometer γ φ}
    (h : Settles (fun n => turn (M.generate n) c o) (.again o')) {out : Step × List γ × φ}
    (h' : Settles (fun n => run (M.generate n) n c o'.index o'.chain o'.fields) out) :
    Settles (fun n => run (M.generate n) n c o.index o.chain o.fields) out :=
  h.again (patient_turn hM.patient c) h'

/-- A run from one place of the chain goes on from another: it ends as the run from there
does, and the same nodes lie ahead. -/
structure GoesOn (M : Mechanism γ φ ρ) (c i : Nat) (chain : List γ) (f : φ) (last : Option Int)
    (j : Nat) (chain' : List γ) (f' : φ) (last' : Option Int) : Prop where
  run : ∀ out, Settles (fun n => run (M.generate n) n c j chain' f') out →
    Settles (fun n => run (M.generate n) n c i chain f) out
  rest : M.rest f' = M.rest f
  ahead : ∀ q, M.tree.Node q → q.length = c → (M.ahead i f last q ↔ M.ahead j f' last' q)

section

variable {c i j k : Nat} {chain chain' : List γ} {f f' : φ} {g g' : γ} {last last' : Option Int}
  {v : Int}

theorem GoesOn.trans {l : Nat} {chain₂ : List γ} {f₂ : φ} {last₂ : Option Int}
    (h : M.GoesOn c i chain f last j chain' f' last')
    (h' : M.GoesOn c j chain' f' last' l chain₂ f₂ last₂) :
    M.GoesOn c i chain f last l chain₂ f₂ last₂ where
  run out hout := h.run out (h'.run out hout)
  rest := h'.rest.trans h.rest
  ahead q hq hqc := (h.ahead q hq hqc).trans (h'.ahead q hq hqc)

theorem Finds.of_goesOn (hM : M.Lawful) (hc : c ≤ M.size) (h : M.Finds c j chain' f' last')
    (hgoes : M.GoesOn c i chain f last j chain' f' last') : M.Finds c i chain f last := by
  obtain ⟨out, hout, ho⟩ := h
  rw [hgoes.rest] at ho
  exact ⟨out, hgoes.run out hout, ho.congr hM hc hgoes.ahead⟩

/-- Coming back to the coarser generator, a run goes on from there. -/
theorem Rises.goesOn (h : M.Rises c (j + 1) chain f last) :
    ∃ chain' f', M.GoesOn c (j + 1) chain f last j chain' f' (M.path f)[j]? ∧
      (∀ l ≤ j, chain'[l]? = chain[l]?) ∧ (M.path f').take (j + 1) = (M.path f).take (j + 1) ∧
      M.Stands j chain' f' (M.path f)[j]? := by
  obtain ⟨l, chain', f', hl, hrun, hchain, hpath, hrest, hs, hahead⟩ := h
  obtain rfl : j = l := by omega
  refine ⟨chain', f', ⟨hrun, hrest, fun q hq hqc => ?_⟩, fun l hl => hchain l (by omega), hpath, hs⟩
  rw [hahead q hq hqc, ahead, ahead, take_eq_of_take_eq hpath (Nat.le_succ j)]

/-- A run comes back to the coarser generator if it goes on as one that does, the coarser part
of the chain being the same. -/
theorem Rises.of_goesOn (h : M.Rises c i chain' f' last')
    (hgoes : M.GoesOn c i chain f last i chain' f' last')
    (hchain : ∀ l < i, chain'[l]? = chain[l]?) (hpath : (M.path f').take i = (M.path f).take i) :
    M.Rises c i chain f last := by
  obtain ⟨j, chain₂, f₂, rfl, hrun, hchain₂, hpath₂, hrest, hs, hahead⟩ := h
  have hget := getElem?_eq_of_take_eq hpath (Nat.lt_succ_self j)
  have htake := take_eq_of_take_eq hpath (Nat.le_succ j)
  refine ⟨j, chain₂, f₂, rfl, fun out hout => hgoes.run out (hrun out hout),
    fun l hl => (hchain₂ l hl).trans (hchain l hl), hpath₂.trans hpath, hrest.trans hgoes.rest,
    hget ▸ hs, fun q hq hqc => ?_⟩
  rw [hgoes.ahead q hq hqc, hahead q hq hqc, ahead, ahead, htake, hget]

/-- After generator `i` has produced a child, the run goes on below it. -/
theorem goesOn_of_produces (hM : M.Lawful) (hc : c ≤ M.size) (hi : i < c)
    (hg : chain[i]? = some g) (hgen : Settles (fun n => M.generate n g f) (.value, g', f'))
    (hpath : (M.path f').take (i + 1) = (M.path f).take i ++ [v]) (hrest : M.rest f' = M.rest f)
    (hpast : Past last v) (hleast : ∀ u, M.tree ((M.path f).take i) u → Past last u → v ≤ u) :
    M.GoesOn c i chain f last (i + 1) (chain.set i g') f' none where
  run _ hout := run_again hM (turn_settles hi hg hgen) hout
  rest := hrest
  ahead q hq hqc := by
    rw [ahead, ahead, hpath]
    exact beyond_child_iff hpast hleast hq (by rw [hM.length_take (hi.le.trans hc)]; omega)

/-- When the run below the child comes back, it is generator `i`'s turn again, and its last child
is the one that it has produced. -/
theorem Rises.asks_again (hM : M.Lawful) (hi : i < M.size) (hlength : chain.length = M.size)
    (hpath : (M.path f').take (i + 1) = (M.path f).take i ++ [v])
    (h : M.Rises c (i + 1) (chain.set i g') f' none) :
    ∃ chain₂ f₂, M.GoesOn c (i + 1) (chain.set i g') f' none i chain₂ f₂ (some v) ∧
      chain₂[i]? = some g' ∧ (∀ l < i, chain₂[l]? = chain[l]?) ∧
      (M.path f₂).take i = (M.path f).take i ∧ M.Stands i chain₂ f₂ (some v) := by
  have hle : i ≤ (M.path f).length := by rw [hM.length_path]; exact hi.le
  obtain ⟨chain₂, f₂, hgoes, hchain, hpath₂, hs⟩ := h.goesOn
  rw [getElem?_of_take_succ hpath hle] at hgoes hs
  refine ⟨chain₂, f₂, hgoes, ?_, fun l hl => ?_, take_eq_of_take_succ (hpath₂.trans hpath) hle, hs⟩
  · rw [hchain i le_rfl, List.getElem?_set_self]
    rw [hlength]
    exact hi
  · rw [hchain l hl.le, List.getElem?_set_ne (by omega)]

/-- A generator that rolls over passes the turn to the coarser one. -/
theorem rises_of_rollsOver (hM : M.Lawful) (hc : c ≤ M.size) (hi : i < c)
    (hs : M.Stands i chain f last) (hg : chain[i]? = some g) (h : M.RollsOver i g f last) :
    M.Rises c i chain f last := by
  obtain ⟨hpos, k, g', f', hgen, hpath, hrest, hnone, hat⟩ := h
  obtain ⟨j, rfl⟩ : ∃ j, i = j + 1 := ⟨i - 1, by omega⟩
  have hj : j < (M.path f).length := by rw [hM.length_path]; omega
  have hup := (hs.stay hpath hat).up hM (by omega)
  rw [getElem?_eq_of_take_eq hpath (Nat.lt_succ_self j)] at hup
  refine ⟨j, chain.set (j + 1) g', f', rfl,
    fun out hout => run_again hM (turn_settles hi hg hgen) hout,
    fun l hl => List.getElem?_set_ne (by omega), hpath, hrest, hup, fun q hq hqc => ?_⟩
  rw [ahead, ahead, take_succ_eq hj, List.getElem?_eq_getElem hj]
  refine beyond_parent_iff ?_ hq (by rw [hM.length_take (by omega)]; omega)
  rwa [← take_succ_eq hj]

/-- The refusal of the first generator ends the run. -/
theorem finds_of_quits (hi : i < c) (hg : chain[i]? = some g) (h : M.Quits i g f last) :
    M.Finds c i chain f last := by
  obtain ⟨rfl, step, g', f', hgen, hstep, hrest, hgone⟩ := h
  have hturn : Settles (fun n => turn (M.generate n) c ⟨0, chain, f⟩)
      (.done (step, chain.set 0 g', f')) := by
    have := turn_settles hi hg hgen
    cases step <;> first | exact this | exact absurd rfl hstep
  refine ⟨_, hturn.finish, hrest, .inr ⟨hstep, g', last, ?_, hgone, fun q _ _ ha => ?_⟩⟩
  · exact List.getElem?_set_self (List.getElem?_eq_some_iff.mp hg).1
  · simpa [ahead] using ha

/-- A run that has passed its last generator has found its node. -/
theorem finds_over (hM : M.Lawful) (hc : c ≤ M.size) (hs : M.Stands c chain f none) :
    M.Finds c c chain f none := by
  refine ⟨_, turn_settles_over.finish, rfl, .inl ⟨rfl, hs, ?_, fun q _ hqc ha => ?_⟩⟩
  · rw [ahead, beyond_none_iff, hM.length_take hc, List.take_take, Nat.min_self]
  · rwa [ahead, beyond_none_iff, hM.length_take hc, List.take_of_length_le hqc.le] at ha

end

/-- A generator that produces a child, whose run then comes back to it, is asked
again; so one that has only finitely many children left gets to its last. -/
theorem drive (hM : M.Lawful) {c : Nat} (hc : c ≤ M.size) (d : Nat) {i : Nat} (hi : i + d = c)
    {chain : List γ} {f : φ} {last : Option Int} (hlast : d = 0 → last = none)
    (hs : M.Stands i chain f last) :
    M.Finds c i chain f last ∨ M.Rises c i chain f last := by
  -- on the number of finer generators
  induction d generalizing i chain f last with
  | zero =>
    obtain rfl : i = c := by omega
    obtain rfl := hlast rfl
    exact .inl (finds_over hM hc hs)
  | succ d ihd =>
    have hic : i < c := by omega
    have hisize : i < M.size := by omega
    obtain ⟨g, hg⟩ : ∃ g, chain[i]? = some g :=
      ⟨_, List.getElem?_eq_getElem (by rw [hs.length_chain]; exact hisize)⟩
    obtain ⟨k, hk⟩ := hs.current g hg
    -- and on the number of children that generator `i` has left
    induction k using Nat.strong_induction_on generalizing chain f last g with
    | _ k ihk =>
      rcases hM.answers hisize hs.node hk with hp | hr | hq
      · -- it produces a child: below it a node is found, or the run comes back
        obtain ⟨v, k', g', f', hgen, hpath, hrest, hv, hpast, hleast, hat, hlt⟩ := hp
        have hdown := hs.down hM hisize hg hpath hv hpast hleast hat
        have hgoes := goesOn_of_produces hM hc hic hg hgen hpath hrest hpast hleast
        rcases ihd (by omega) (fun _ => rfl) hdown with hfinds | hrises
        · exact .inl (hfinds.of_goesOn hM hc hgoes)
        · obtain ⟨chain₂, f₂, hback, hg₂, hchain, htake, hs₂⟩ :=
            hrises.asks_again hM hisize hs.length_chain hpath
          have hagain := hgoes.trans hback
          rw [← htake] at hat
          rcases ihk k' hlt (by simp) hs₂ g' hg₂ hat with hfinds | hrises
          · exact .inl (hfinds.of_goesOn hM hc hagain)
          · exact .inr (hrises.of_goesOn hagain hchain htake)
      · exact .inr (rises_of_rollsOver hM hc hic hs hg hr)
      · exact .inl (finds_of_quits hic hg hq)

/-- **A run of a chain ends**, on the first node that lies ahead, or with the
refusal of the first generator. -/
theorem run_settles (hM : M.Lawful) {c : Nat} (hc : c ≤ M.size) {i : Nat} (hi : i ≤ c)
    {chain : List γ} {f : φ} {last : Option Int} (hlast : i = c → last = none)
    (hs : M.Stands i chain f last) : M.Finds c i chain f last := by
  induction i generalizing chain f last with
  | zero =>
    rcases drive hM hc c (Nat.zero_add c) (fun h => hlast h.symm) hs with h | h
    · exact h
    · obtain ⟨j, _, _, hij, _⟩ := h
      omega
  | succ i ih =>
    rcases drive hM hc (c - (i + 1)) (by omega) (fun h => hlast (by omega)) hs with h | h
    · exact h
    · obtain ⟨chain', f', hgoes, -, -, hs'⟩ := h.goesOn
      exact (ih (by omega) (by omega) hs').of_goesOn hM hc hgoes

end Mechanism

end Recurrence
