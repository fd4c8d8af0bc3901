/-
Recurrence/Proofs/RunSelection.lean

Selecting by position is cutting into runs and picking from each.

A selection gathers its candidates a run at a time.  It sees the end of a run only by the first
candidate of the next one, which it holds back, and what it has picked from a run waits until it is
handed out.  None of this can be told from what it hands out: one after the other these are the
values at the positions in the runs of its candidates (`selection_picks_from_runs`).

The source may be any.  What it answers may depend on how often it has been credited, and so on the
runs before; what a selection draws from it is a sequence all the same (`Drawn`), as long as it
does not fail (`exists_seq`).  The chain of a rule is such a source (`Rule.exists_seq`), and so is
every sequence itself (`supplies_ofSeq`).

The invariant is `Stands`: what has been handed out and what waits make up what is picked from the
runs that have been gathered, and the candidate that ended the last of them is held back.  One turn
keeps it, so whatever a call answers is right (`Stands.answers`); and as long as some run ends
further on from which something is picked, each turn comes closer to that end, so a call has an
answer (`Stands.exists_answer`).
-/
import Recurrence.Proofs.Runs
import Recurrence.Proofs.UniformPeriods

namespace Recurrence

open Stream' (Seq)

/-! ### Selections from a source -/

namespace Selection

/-- What a selection is made from: a source and how it is asked and credited, the key that tells
runs apart, and the positions. -/
structure Setup (σ α ε κ : Type) where
  source : σ
  next : Nat → NextOf σ α ε
  credit : σ → σ
  key : α → κ
  positions : List Int

namespace Setup

variable {σ α ε κ : Type} [DecidableEq κ]

/-- The selection before it has been asked. -/
def selection (S : Setup σ α ε κ) : Selection σ α :=
  { source := S.source, positions := S.positions, uniform := false }

/-- How the selection is asked for the next value. -/
def ask (S : Setup σ α ε κ) (bound : Nat) (s : Selection σ α) :
    Option (Except ε (Option α) × Selection σ α) :=
  s.next (S.next bound) S.credit S.key bound

/-- The values that the selection hands out one after the other. -/
inductive HandsOut (S : Setup σ α ε κ) : List α → Selection σ α → Prop
  | nil : HandsOut S [] S.selection
  | snoc {vs : List α} {v : α} {s s' : Selection σ α} {bound : Nat} (before : HandsOut S vs s)
      (answer : S.ask bound s = some (.ok (some v), s')) : HandsOut S (vs ++ [v]) s'

/-- Whether a candidate ends a run from which the positions pick something. -/
def Pays (S : Setup σ α ε κ) (vs : List α) (w : α) : Prop :=
  ∃ run ∈ (runs S.key vs).getLast?, (∀ v ∈ run, S.key v ≠ S.key w) ∧ picked S.positions run ≠ []

instance (S : Setup σ α ε κ) (vs : List α) (w : α) : Decidable (S.Pays vs w) := by
  unfold Pays
  infer_instance

/-- The source after a selection has drawn some candidates from it.  It is credited for a candidate
that ends a run from which something is picked. -/
inductive Drawn (S : Setup σ α ε κ) : List α → σ → Prop
  | start : Drawn S [] S.source
  | step {vs : List α} {v : α} {c c' : σ} {bound : Nat} (before : Drawn S vs c)
      (answer : S.next bound c = some (.ok (some v), c')) :
      Drawn S (vs ++ [v]) (if S.Pays vs v then S.credit c' else c')

/-- Whether the candidates that a selection draws from the source are a given sequence. -/
structure Supplies (S : Setup σ α ε κ) (xs : Seq α) : Prop where
  patient : ∀ c, Patient fun n => S.next n c
  answers : ∀ n c, S.Drawn (xs.take n) c → ∃ bound c', S.next bound c = some (.ok (xs.get? n), c')

variable {S : Setup σ α ε κ} {xs : Seq α} {m n : Nat} {v w : α} {c : σ} {vs seen : List α}

/-- A source that has been asked for the `n`-th candidate. -/
def Fetched (S : Setup σ α ε κ) (xs : Seq α) (n : Nat) (c : σ) : Prop :=
  ∃ bound before, S.Drawn (xs.take n) before ∧ S.next bound before = some (.ok (xs.get? n), c)

theorem Supplies.fetch (hS : S.Supplies xs) (h : S.Drawn (xs.take n) c) :
    ∃ c', Settles (fun b => S.next b c) (.ok (xs.get? n), c') ∧ S.Fetched xs n c' := by
  obtain ⟨bound, c', hanswer⟩ := hS.answers n c h
  exact ⟨c', Patient.settles (hS.patient c) hanswer, bound, c, h, hanswer⟩

theorem Fetched.step (h : S.Fetched xs n c) (hv : xs.get? n = some v) :
    S.Drawn (xs.take (n + 1)) (if S.Pays (xs.take n) v then S.credit c else c) := by
  obtain ⟨bound, before, hdrawn, hanswer⟩ := h
  rw [hv] at hanswer
  rw [take_succ_of_get? hv]
  exact .step hdrawn hanswer

theorem not_pays_nil : ¬ S.Pays [] v := by
  simp [Pays, runs]

/-- A candidate pays for the run before it if it has another key and something is picked from the
run. -/
theorem pays_iff (h : Running S.key xs v m n seen) (hm : RunEnds S.key xs m) :
    S.Pays (xs.take n) w ↔ S.key w ≠ S.key v ∧ picked S.positions seen ≠ [] := by
  have hother : (∀ u ∈ seen, S.key u ≠ S.key w) ↔ S.key w ≠ S.key v := by
    constructor
    · intro hall
      exact (hall v (List.mem_of_head? h.head)).symm
    · intro hne u hu
      rw [h.same u hu]
      exact hne.symm
  rw [← hother]
  simp [Pays, h.runs_take hm]

/-! ### Gathering a run -/

/-- A run in the middle of being gathered: its candidates up to but not including the `n`-th have
been seen. -/
structure Gathers (S : Setup σ α ε κ) (xs : Seq α) (v : α) (m n : Nat) (seen : List α)
    (g : Gathering σ α) : Prop where
  begins : RunEnds S.key xs m
  running : Running S.key xs v m n seen
  keeps : Keeps g (keptOfPeriod S.positions) seen
  drawn : S.Drawn (xs.take n) g.source

/-- What gathering the run from the `m`-th candidate on comes to: what is to be kept of it, and the
candidate that has ended it. -/
def Gathered (S : Setup σ α ε κ) (xs : Seq α) (v : α) (m : Nat)
    (b : Except ε (Period σ α) × σ) : Prop :=
  ∃ n seen c, b = (.ok ⟨c, kept (keptOfPeriod S.positions) seen, xs.get? n⟩, c) ∧
    Running S.key xs v m n seen ∧ RunEnds S.key xs n ∧ S.Fetched xs n c

/-- **One more candidate** is seen, or ends the run. -/
theorem Gathers.turn (hS : S.Supplies xs) {g : Gathering σ α} (h : S.Gathers xs v m n seen g) :
    (∃ w g', Settles (fun b => gatherTurn (S.next b) S.key (S.key v) g) (.again g') ∧
      ¬ RunEnds S.key xs n ∧ S.Gathers xs v m (n + 1) (seen ++ [w]) g') ∨
    ∃ b, Settles (fun b => gatherTurn (S.next b) S.key (S.key v) g) (.done b) ∧
      S.Gathered xs v m b := by
  obtain ⟨c, hnext, hfetched⟩ := hS.fetch h.drawn
  cases hn : xs.get? n with
  | none =>
    refine .inr ⟨_, ?_, n, seen, c, rfl, h.running, runEnds_of_none hn, hfetched⟩
    filter_upwards [hnext] with b hb
    simp only [gatherTurn, hb, hn, h.keeps.kept_eq]
  | some w =>
    rw [hn] at hnext
    by_cases hkey : S.key w = S.key v
    · have hends : ¬ RunEnds S.key xs n := by
        rw [h.running.ends_iff]
        exact fun hall => hall w hn hkey
      have hdrawn := hfetched.step hn
      rw [if_neg (by simp [pays_iff h.running h.begins, hkey])] at hdrawn
      refine .inl ⟨w, g.see w c, ?_, hends, h.begins, h.running.snoc hn hkey, h.keeps.see w c,
        hdrawn⟩
      filter_upwards [hnext] with b hb
      exact gatherTurn_same hb hkey
    · have hends : RunEnds S.key xs n := by
        rw [h.running.ends_iff, hn]
        rintro _ ⟨⟩
        exact hkey
      refine .inr ⟨_, ?_, n, seen, c, rfl, h.running, hends, hfetched⟩
      filter_upwards [hnext] with b hb
      simp only [gatherTurn, hb, hn, h.keeps.kept_eq, ne_eq, hkey, not_false_eq_true, if_true]

/-- Whenever gathering ends, a run has ended. -/
theorem Gathers.gathered (hS : S.Supplies xs) {g : Gathering σ α} {bound k : Nat}
    {b : Except ε (Period σ α) × σ} (h : S.Gathers xs v m n seen g)
    (hb : loop (gatherTurn (S.next bound) S.key (S.key v)) k g = some b) : S.Gathered xs v m b := by
  have heq : ∀ {g : Gathering σ α} {t t' : Turn (Gathering σ α) (Except ε (Period σ α) × σ)},
      Settles (fun b => gatherTurn (S.next b) S.key (S.key v) g) t →
      gatherTurn (S.next bound) S.key (S.key v) g = some t' → t' = t := fun ht ht' =>
    Patient.eq_of_settles (patient_gatherTurn hS.patient _ _) ht ht'
  refine loop_invariant (P := fun g => ∃ n seen, S.Gathers xs v m n seen g) ?_ ?_ ⟨n, seen, h⟩ hb
  · rintro g g' ⟨n, seen, h⟩ hturn
    rcases h.turn hS with ⟨w, g₁, hsettles, -, h'⟩ | ⟨b, hsettles, -⟩
    · obtain rfl : g' = g₁ := Turn.again.inj (heq hsettles hturn)
      exact ⟨_, _, h'⟩
    · exact absurd (heq hsettles hturn) (by simp)
  · rintro g b ⟨n, seen, h⟩ hturn
    rcases h.turn hS with ⟨w, g₁, hsettles, -, -⟩ | ⟨b₁, hsettles, hgathered⟩
    · exact absurd (heq hsettles hturn) (by simp)
    · obtain rfl : b = b₁ := Turn.done.inj (heq hsettles hturn)
      exact hgathered

/-- Gathering ends if some run does. -/
theorem Gathers.settles (hS : S.Supplies xs) {g : Gathering σ α} {l : Nat}
    (h : S.Gathers xs v m n seen g) (hl : RunEnds S.key xs l) (hle : n ≤ l) :
    ∃ b, Settles (fun k => loop (gatherTurn (S.next k) S.key (S.key v)) k g) b := by
  refine (loop_settles (patient_gatherTurn hS.patient (S.key v))
    (fun k g => ∃ n seen, S.Gathers xs v m n seen g ∧ n + k = l) (fun _ => True) ?_ (k := l - n)
    ⟨n, seen, h, by omega⟩).imp fun _ => And.left
  rintro k g ⟨n, seen, h, rfl⟩
  rcases h.turn hS with ⟨w, g', hsettles, hends, h'⟩ | ⟨b, hsettles, -⟩
  · -- the run that is known to end has not been reached yet
    have hk : k ≠ 0 := by
      rintro rfl
      exact hends hl
    exact .inr ⟨g', k - 1, hsettles, by omega, _, _, h', by omega⟩
  · exact .inl ⟨b, hsettles, trivial⟩

/-! ### Collecting a run -/

/-- What a selection has before it when the runs of the first `n` candidates have been gathered:
nothing has been gathered yet, or the first candidate of the next run is held back, or there is no
more. -/
inductive Ahead (S : Setup σ α ε κ) (xs : Seq α) (s : Selection σ α) : Nat → Prop
  | fresh (running : s.finished = false) (heldBack : s.heldBack = none)
      (drawn : S.Drawn [] s.source) : Ahead S xs s 0
  | held {n : Nat} {w : α} (running : s.finished = false) (heldBack : s.heldBack = some w)
      (next : xs.get? n = some w) (drawn : S.Drawn (xs.take (n + 1)) s.source) : Ahead S xs s n
  | ended {n : Nat} (finished : s.finished = true) (next : xs.get? n = none) : Ahead S xs s n

variable {s : Selection σ α}

theorem Ahead.of_finished (h : S.Ahead xs s n) (hfinished : s.finished = true) :
    xs.get? n = none := by
  cases h with
  | fresh running _ _ => simp [hfinished] at running
  | held running _ _ _ => simp [hfinished] at running
  | ended _ next => exact next

/-- The first candidate of the next run is the `n`-th. -/
theorem Ahead.first (hS : S.Supplies xs) (h : S.Ahead xs s n) (hrunning : s.finished = false) :
    ∃ c, Settles (fun b => s.first (S.next b)) (.ok (xs.get? n), c) ∧
      ∀ v ∈ xs.get? n, S.Drawn (xs.take (n + 1)) c := by
  unfold Selection.first
  cases h with
  | fresh _ heldBack drawn =>
    rw [heldBack]
    obtain ⟨c, hnext, hfetched⟩ := hS.fetch (n := 0) drawn
    refine ⟨c, hnext, fun v hv => ?_⟩
    simpa [not_pays_nil] using hfetched.step hv
  | held _ heldBack next drawn =>
    rw [heldBack, next]
    exact ⟨s.source, settles_const _, fun _ _ => drawn⟩
  | ended finished _ => simp [hrunning] at finished

/-- What collecting the run from the `n`-th candidate on comes to: there is none; or what is to be
kept of the run, with the candidate that has ended it held back. -/
def Collected (S : Setup σ α ε κ) (xs : Seq α) (s : Selection σ α) (n : Nat)
    (b : Except ε (List α) × Selection σ α) : Prop :=
  (∃ c, b = (.ok [], { s with source := c, heldBack := none }) ∧ xs.get? n = none) ∨
    ∃ v l seen c, b = (.ok (kept (keptOfPeriod S.positions) seen),
        { s with source := c, heldBack := xs.get? l, finished := (xs.get? l).isNone }) ∧
      Running S.key xs v n l seen ∧ RunEnds S.key xs l ∧ S.Fetched xs l c

/-- The first candidate of a run begins to gather it. -/
theorem gathers_first (hpositions : S.positions ≠ []) (hn : RunEnds S.key xs n)
    (hv : xs.get? n = some v) (hdrawn : S.Drawn (xs.take (n + 1)) c) : S.Gathers xs v n (n + 1) [v]
      ⟨c, [v], (keptOfPeriod S.positions).map fun n => n - 1⟩ where
  begins := hn
  running := .start hv
  keeps := keeps_first hpositions
  drawn := hdrawn

theorem Ahead.collected (hS : S.Supplies xs) (hpositions : S.positions ≠ [])
    (hends : RunEnds S.key xs n) (h : S.Ahead xs s n) (hrunning : s.finished = false)
    (hs : s.positions = S.positions) {bound : Nat} {b : Except ε (List α) × Selection σ α}
    (hb : s.collect (S.next bound) S.key bound = some b) : S.Collected xs s n b := by
  obtain ⟨c, hfirst, hdrawn⟩ := h.first hS hrunning
  unfold collect at hb
  cases hanswer : s.first (S.next bound) with
  | none => simp [hanswer] at hb
  | some a =>
    obtain rfl := Patient.eq_of_settles (patient_first hS.patient s) hfirst hanswer
    rw [hanswer] at hb
    cases hn : xs.get? n with
    | none =>
      simp only [hn] at hb
      exact .inl ⟨c, (Option.some.inj hb).symm, hn⟩
    | some v =>
      simp only [hn] at hb
      cases hloop : loop (gatherTurn (S.next bound) S.key (S.key v)) bound
          ⟨c, [v], (keptOfPeriod s.positions).map fun n => n - 1⟩ with
      | none => simp [hloop] at hb
      | some p =>
        have hgathers := gathers_first hpositions hends hn (hdrawn v hn)
        rw [← hs] at hgathers
        obtain ⟨l, seen, c', rfl, hrun, hlast, hfetched⟩ := hgathers.gathered hS hloop
        rw [hloop] at hb
        refine .inr ⟨v, l, seen, c', ?_, hrun, hlast, hfetched⟩
        simpa [hrunning] using (Option.some.inj hb).symm

theorem Ahead.settles_collect (hS : S.Supplies xs) (hpositions : S.positions ≠ [])
    (hends : RunEnds S.key xs n) (h : S.Ahead xs s n) (hrunning : s.finished = false)
    (hs : s.positions = S.positions)
    (hl : xs.get? n = none ∨ ∃ l, n < l ∧ RunEnds S.key xs l) :
    ∃ b, Settles (fun k => s.collect (S.next k) S.key k) b := by
  obtain ⟨c, hfirst, hdrawn⟩ := h.first hS hrunning
  cases hn : xs.get? n with
  | none =>
    rw [hn] at hfirst
    refine ⟨(.ok [], { s with source := c, heldBack := none }), ?_⟩
    filter_upwards [hfirst] with k hk
    simp only [collect, hk]
  | some v =>
    obtain ⟨l, hlt, hlast⟩ := hl.resolve_left (by simp [hn])
    have hgathers := gathers_first hpositions hends hn (hdrawn v hn)
    rw [← hs] at hgathers
    obtain ⟨b, hloop⟩ := hgathers.settles hS hlast hlt
    obtain ⟨k, hk⟩ := hloop.exists_bound
    obtain ⟨l', seen, c', rfl, -⟩ := hgathers.gathered hS hk
    rw [hn] at hfirst
    refine ⟨(.ok (kept (keptOfPeriod S.positions) seen), { s with
      source := c', heldBack := xs.get? l', finished := s.finished || (xs.get? l').isNone }), ?_⟩
    filter_upwards [hfirst, hloop] with k hk hk'
    simp only [collect, hk, hk']

/-! ### Handing out -/

/-- A selection that has handed out `vs` and has gathered the runs of the first `n` candidates. -/
structure Stands (S : Setup σ α ε κ) (xs : Seq α) (s : Selection σ α) (n : Nat) (vs : List α) :
    Prop where
  positions_eq : s.positions = S.positions
  uniform_eq : s.uniform = false
  ends : RunEnds S.key xs n
  picked_eq : vs ++ s.pending = pickedBefore S.key S.positions xs n
  ahead : S.Ahead xs s n

/-- What the next call of a selection that has handed out `vs` comes to: one more value, or the end
of the candidates when all that is picked from them has been handed out. -/
def Answers (S : Setup σ α ε κ) (xs : Seq α) (vs : List α)
    (b : Except ε (Option α) × Selection σ α) : Prop :=
  ∃ n, (∃ v, b.1 = .ok (some v) ∧ S.Stands xs b.2 n (vs ++ [v])) ∨
    b.1 = .ok none ∧ S.Stands xs b.2 n vs ∧ b.2.pending = [] ∧ xs.get? n = none

theorem stands_selection : S.Stands xs S.selection 0 [] where
  positions_eq := rfl
  uniform_eq := rfl
  ends := runEnds_zero
  picked_eq := by simp [selection, pickedBefore, runs]
  ahead := .fresh rfl rfl .start

/-- The first of the values that have been picked is handed out. -/
theorem Stands.pop (h : S.Stands xs s n vs) {pending : List α} (hp : s.pending = v :: pending) :
    S.Stands xs { s with pending } n (vs ++ [v]) where
  positions_eq := h.positions_eq
  uniform_eq := h.uniform_eq
  ends := h.ends
  picked_eq := by rw [← h.picked_eq, hp, List.append_assoc, List.singleton_append]
  ahead := by
    cases h.ahead with
    | fresh running heldBack drawn => exact .fresh running heldBack drawn
    | held running heldBack next drawn => exact .held running heldBack next drawn
    | ended finished next => exact .ended finished next

/-- **A run has been gathered**: what is picked from it is handed out next, and the source is
credited if there is something. -/
theorem Stands.pick (h : S.Stands xs s n vs) (hp : s.pending = []) {l : Nat}
    (hrun : Running S.key xs v n l seen) (hends : RunEnds S.key xs l)
    (hfetched : S.Fetched xs l c) :
    S.Stands xs { s with
      source := if picked S.positions seen = [] then c else S.credit c
      heldBack := xs.get? l
      finished := (xs.get? l).isNone
      pending := picked S.positions seen } l vs where
  positions_eq := h.positions_eq
  uniform_eq := h.uniform_eq
  ends := hends
  picked_eq := by
    have hpicked := h.picked_eq
    rw [hp, List.append_nil] at hpicked
    rw [hrun.pickedBefore_eq h.ends, ← hpicked]
  ahead := by
    cases hl : xs.get? l with
    | none => exact .ended rfl hl
    | some w =>
      have hdrawn := hfetched.step hl
      have hother := hrun.ends_iff.mp hends w hl
      simp only [pays_iff hrun h.ends, and_iff_right hother, ne_eq, ite_not] at hdrawn
      exact .held rfl rfl hl hdrawn

/-- **One turn** hands out a value, gathers one more run, or comes to the end. -/
theorem Stands.turn (hS : S.Supplies xs) (hpositions : S.positions ≠ []) (h : S.Stands xs s n vs)
    {bound : Nat} {t : Turn (Selection σ α) (Except ε (Option α) × Selection σ α)}
    (ht : s.turn (S.next bound) S.credit S.key bound = some t) :
    (∃ s' l, t = .again s' ∧ S.Stands xs s' l vs ∧ s.pending = [] ∧ (xs.get? n).isSome ∧ n < l) ∨
      ∃ b, t = .done b ∧ S.Answers xs vs b := by
  cases hp : s.pending with
  | cons v pending =>
    simp only [Selection.turn, hp] at ht
    exact .inr ⟨_, (Option.some.inj ht).symm, n, .inl ⟨v, rfl, h.pop hp⟩⟩
  | nil =>
    cases hfinished : s.finished with
    | true =>
      simp only [Selection.turn, hp, hfinished, if_true] at ht
      exact .inr ⟨_, (Option.some.inj ht).symm, n, .inr ⟨rfl, h, hp, h.ahead.of_finished hfinished⟩⟩
    | false =>
      cases hcollect : s.collect (S.next bound) S.key bound with
      | none => simp [Selection.turn, hp, hfinished, hcollect] at ht
      | some b =>
        rcases h.ahead.collected hS hpositions h.ends hfinished h.positions_eq hcollect with
          ⟨c, rfl, hn⟩ | ⟨v, l, seen, c, rfl, hrun, hends, hfetched⟩
        · rw [turn_of_collect hp hfinished hcollect] at ht
          refine .inr ⟨_, (Option.some.inj ht).symm, n, .inr ⟨rfl, ?_, hp, hn⟩⟩
          exact ⟨h.positions_eq, h.uniform_eq, h.ends, h.picked_eq, .ended rfl hn⟩
        · have hstands := h.pick hp hrun hends hfetched
          have hsome : (xs.get? n).isSome := by simp [hrun.first]
          have hfound := kept_ne_nil hpositions hrun.ne_nil
          rw [turn_of_collect hp hfinished hcollect] at ht
          simp only [hfound, if_false, h.positions_eq, picked_kept, h.uniform_eq,
            Bool.false_eq_true] at ht
          refine .inl ⟨_, l, ?_, hstands, rfl, hsome, hrun.lt⟩
          rw [← Option.some.inj ht]
          by_cases hnone : picked S.positions seen = []
          · simp only [hnone, if_true, hp, h.positions_eq, h.uniform_eq]
          · simp only [hnone, if_false, h.positions_eq, h.uniform_eq]

/-- A turn comes to something unless the next run never ends. -/
theorem Stands.settles_turn (hS : S.Supplies xs) (hpositions : S.positions ≠ [])
    (h : S.Stands xs s n vs)
    (hl : s.pending ≠ [] ∨ xs.get? n = none ∨ ∃ l, n < l ∧ RunEnds S.key xs l) :
    ∃ t, Settles (fun k => s.turn (S.next k) S.credit S.key k) t := by
  cases hp : s.pending with
  | cons v pending =>
    refine ⟨.done (.ok (some v), { s with pending }), ?_⟩
    filter_upwards with k
    simp only [Selection.turn, hp]
  | nil =>
    cases hfinished : s.finished with
    | true =>
      refine ⟨.done (.ok none, s), ?_⟩
      filter_upwards with k
      simp only [Selection.turn, hp, hfinished, if_true]
    | false =>
      obtain ⟨b, hcollect⟩ := h.ahead.settles_collect hS hpositions h.ends hfinished h.positions_eq
        (hl.resolve_left (by simp [hp]))
      obtain ⟨k, hk⟩ := hcollect.exists_bound
      rcases h.ahead.collected hS hpositions h.ends hfinished h.positions_eq hk with
        ⟨c, rfl, -⟩ | ⟨v, l, seen, c, rfl, -⟩
      all_goals
        refine ⟨_, Patient.settles (patient_turn hS.patient s) (turn_of_collect hp hfinished hk)⟩

/-- Whatever the selection answers, it is the next of the values that are picked, or all of them
have been handed out. -/
theorem Stands.answers (hS : S.Supplies xs) (hpositions : S.positions ≠ [])
    (h : S.Stands xs s n vs) {bound : Nat} {b : Except ε (Option α) × Selection σ α}
    (hb : S.ask bound s = some b) : S.Answers xs vs b := by
  refine loop_invariant (P := fun s => ∃ n, S.Stands xs s n vs) ?_ ?_ ⟨n, h⟩ hb
  · rintro s s' ⟨n, h⟩ ht
    rcases h.turn hS hpositions ht with ⟨s₁, l, hagain, h', -⟩ | ⟨b, hdone, -⟩
    · obtain rfl := Turn.again.inj hagain
      exact ⟨l, h'⟩
    · exact absurd hdone (by simp)
  · rintro s b ⟨n, h⟩ ht
    rcases h.turn hS hpositions ht with ⟨s₁, l, hagain, -⟩ | ⟨b', hdone, hanswers⟩
    · exact absurd hagain (by simp)
    · obtain rfl := Turn.done.inj hdone
      exact hanswers

/-- **The selection has an answer** if more is picked up to the end of some run, or the candidates
come to an end. -/
theorem Stands.exists_answer (hS : S.Supplies xs) (hpositions : S.positions ≠ []) {l : Nat}
    (h : S.Stands xs s n vs) (hl : RunEnds S.key xs l)
    (hmore : xs.get? l = none ∨ vs.length < (pickedBefore S.key S.positions xs l).length) :
    ∃ bound b, S.ask bound s = some b := by
  -- while the selection is searching, the end of that run lies before it
  have hbefore : ∀ {s n}, S.Stands xs s n vs → s.pending = [] → (xs.get? n).isSome → n < l := by
    intro s n h hp hsome
    by_contra hle
    have hpicked := h.picked_eq
    rw [hp, List.append_nil] at hpicked
    rcases hmore with hnone | hlong
    · simp [xs.le_stable (not_lt.mp hle) hnone] at hsome
    · have := (pickedBefore_mono S.positions hl (not_lt.mp hle)).length_le
      rw [← hpicked] at this
      omega
  have hends : ∃ b, Settles (fun k => S.ask k s) b := by
    refine (loop_settles (patient_turn hS.patient) (fun k s => ∃ n, S.Stands xs s n vs ∧ l - n ≤ k)
      (fun _ => True) ?_ ⟨n, h, le_rfl⟩).imp fun _ => And.left
    rintro k s ⟨n, h, hk⟩
    obtain ⟨t, ht⟩ := h.settles_turn hS hpositions (by
      by_cases hp : s.pending = []
      · cases hn : xs.get? n with
        | none => exact .inr (.inl rfl)
        | some v => exact .inr (.inr ⟨l, hbefore h hp (by simp [hn]), hl⟩)
      · exact .inl hp)
    obtain ⟨bound, hbound⟩ := ht.exists_bound
    rcases h.turn hS hpositions hbound with ⟨s', l', rfl, h', hp, hsome, hlt⟩ | ⟨b, rfl, -⟩
    · have hnl := hbefore h hp hsome
      exact .inr ⟨s', k - 1, ht, by omega, l', h', by omega⟩
    · exact .inl ⟨b, ht, trivial⟩
  obtain ⟨b, hsettles⟩ := hends
  obtain ⟨bound, hbound⟩ := hsettles.exists_bound
  exact ⟨bound, b, hbound⟩

theorem HandsOut.stands (hS : S.Supplies xs) (hpositions : S.positions ≠ [])
    (h : S.HandsOut vs s) : ∃ n, S.Stands xs s n vs := by
  induction h with
  | nil => exact ⟨0, stands_selection⟩
  | @snoc vs v s s' bound _ answer ih =>
    obtain ⟨n, hstands⟩ := ih
    obtain ⟨n', ⟨w, hw, hstands'⟩ | ⟨hnone, -⟩⟩ := hstands.answers hS hpositions answer
    · obtain rfl : v = w := by simpa using hw
      exact ⟨n', hstands'⟩
    · exact absurd hnone (by simp)

/-- **What a call comes to**: it hands out the next of the values that are picked up to the end of
some run, or says that all of them have been handed out. -/
theorem HandsOut.ask_iff (hS : S.Supplies xs) (hpositions : S.positions ≠ [])
    (h : S.HandsOut vs s) (a : Except ε (Option α)) :
    (∃ bound s', S.ask bound s = some (a, s')) ↔
      (∃ v n, a = .ok (some v) ∧ RunEnds S.key xs n ∧
        vs ++ [v] <+: pickedBefore S.key S.positions xs n) ∨
      ∃ n, a = .ok none ∧ xs.get? n = none ∧ vs = pickedBefore S.key S.positions xs n := by
  obtain ⟨n, hstands⟩ := h.stands hS hpositions
  constructor
  · rintro ⟨bound, s', hanswer⟩
    obtain ⟨l, ⟨v, rfl, hstands'⟩ | ⟨rfl, hstands', hp, hl⟩⟩ :=
      hstands.answers hS hpositions hanswer
    · exact .inl ⟨v, l, rfl, hstands'.ends, _, hstands'.picked_eq⟩
    · have hpicked := hstands'.picked_eq
      rw [hp, List.append_nil] at hpicked
      exact .inr ⟨l, rfl, hl, hpicked⟩
  · rintro (⟨v, l, rfl, hends, hprefix⟩ | ⟨l, rfl, hl, rfl⟩)
    · have hlength := hprefix.length_le
      rw [List.length_append, List.length_singleton] at hlength
      obtain ⟨bound, ⟨b, s'⟩, hanswer⟩ :=
        hstands.exists_answer hS hpositions hends (.inr hlength)
      refine ⟨bound, s', ?_⟩
      obtain ⟨l', ⟨w, rfl, hstands'⟩ | ⟨rfl, hstands', hp, hl'⟩⟩ :=
        hstands.answers hS hpositions hanswer
      · -- both are the next of the same list
        obtain ⟨us, hus, hus'⟩ := pickedBefore_total S.positions hends hstands'.ends
        have hv := hprefix.trans hus
        have hw := (show vs ++ [w] <+: _ from ⟨_, hstands'.picked_eq⟩).trans hus'
        have heq := (List.prefix_of_prefix_length_le hv hw (by simp)).eq_of_length (by simp)
        obtain rfl : v = w := by simpa using heq
        exact hanswer
      · have hpicked := hstands'.picked_eq
        rw [hp, List.append_nil] at hpicked
        have := (pickedBefore_of_none S.positions hends hl').length_le
        rw [← hpicked] at this
        omega
    · obtain ⟨bound, ⟨b, s'⟩, hanswer⟩ :=
        hstands.exists_answer hS hpositions (runEnds_of_none hl) (.inl hl)
      refine ⟨bound, s', ?_⟩
      obtain ⟨l', ⟨w, rfl, hstands'⟩ | ⟨rfl, -⟩⟩ := hstands.answers hS hpositions hanswer
      · have := (pickedBefore_of_none S.positions hstands'.ends hl).length_le
        rw [← hstands'.picked_eq] at this
        simp at this
      · exact hanswer

/-! ### Sources and their sequences -/

/-- A selection draws its candidates in one way only. -/
theorem Drawn.unique (hpatient : ∀ c, Patient fun n => S.next n c) {c' : σ} (h : S.Drawn vs c)
    (h' : S.Drawn vs c') : c' = c := by
  induction h generalizing c' with
  | start =>
    generalize hus : ([] : List α) = us at h'
    cases h' with
    | start => rfl
    | step => simp at hus
  | @step vs v c₀ c₁ bound before answer ih =>
    generalize hus : vs ++ [v] = us at h'
    cases h' with
    | start => simp at hus
    | step before' answer' =>
      obtain ⟨rfl, hv⟩ := List.append_inj' hus rfl
      obtain rfl := List.singleton_inj.mp hv
      obtain rfl := ih before'
      obtain ⟨-, rfl⟩ := Prod.mk.inj (Patient.unique (hpatient _) answer answer')
      rfl

/-- What holds of the source, and is kept by crediting and by every answer with a candidate, holds
of all states in which a selection asks. -/
theorem Drawn.keeps (hpatient : ∀ c, Patient fun n => S.next n c) {P : σ → Prop}
    (hsource : P S.source) (hcredit : ∀ c, P c → P (S.credit c))
    (hnext : ∀ c, P c → ∃ bound a c', S.next bound c = some (.ok a, c') ∧ ∀ v ∈ a, P c')
    (h : S.Drawn vs c) : P c := by
  induction h with
  | start => exact hsource
  | @step vs v c c' bound before answer ih =>
    obtain ⟨bound', a, c₁, hanswer, hkept⟩ := hnext c ih
    obtain ⟨ha, rfl⟩ := Prod.mk.inj (Patient.unique (hpatient c) answer hanswer)
    have := hkept v (by simpa using (Except.ok.inj ha).symm)
    split
    · exact hcredit _ this
    · exact this

/-- The candidates that have been drawn, with the state that drawing them has left. -/
def Drawing (S : Setup σ α ε κ) : Type := { p : List α × σ // S.Drawn p.1 p.2 }

/-- The next draw: what the source answers, and the drawing to which this leads. -/
def Draws (S : Setup σ α ε κ) (p : S.Drawing) (o : Option (α × S.Drawing)) : Prop :=
  (∃ bound c', S.next bound p.1.2 = some (.ok (o.map Prod.fst), c')) ∧
    ∀ a ∈ o, a.2.1.1 = p.1.1 ++ [a.1]

theorem exists_draws (p : S.Drawing)
    (h : ∃ bound a c', S.next bound p.1.2 = some (.ok a, c')) : ∃ o, S.Draws p o := by
  obtain ⟨⟨vs, c⟩, hdrawn⟩ := p
  obtain ⟨bound, a, c', hanswer⟩ := h
  cases a with
  | none => exact ⟨none, ⟨bound, c', hanswer⟩, by simp⟩
  | some v =>
    refine ⟨some (v, ⟨(vs ++ [v], _), .step hdrawn hanswer⟩), ⟨bound, c', hanswer⟩, ?_⟩
    rintro _ ⟨⟩
    rfl

/-- One draw after the other gives the sequence that the source supplies from a drawing on. -/
theorem Draws.answers_corec (hpatient : ∀ c, Patient fun n => S.next n c)
    {step : S.Drawing → Option (α × S.Drawing)} (hstep : ∀ p, S.Draws p (step p)) (p : S.Drawing)
    (h : S.Drawn (p.1.1 ++ (Seq.corec step p).take n) c) :
    ∃ bound c', S.next bound c = some (.ok ((Seq.corec step p).get? n), c') := by
  have hhere : ∀ p : S.Drawing, S.Drawn p.1.1 c →
      ∃ bound c', S.next bound c = some (.ok ((step p).map Prod.fst), c') := by
    intro p h
    rw [p.2.unique hpatient h]
    exact (hstep p).1
  induction n generalizing p with
  | zero =>
    rw [Seq.take_zero, List.append_nil] at h
    have hfirst : (Seq.corec step p).get? 0 = (step p).map Prod.fst := by
      cases hp : step p with
      | none => rw [Seq.corec_nil _ _ hp]; rfl
      | some a => rw [Seq.corec_cons hp]; rfl
    rw [hfirst]
    exact hhere p h
  | succ n ih =>
    cases hp : step p with
    | none =>
      rw [Seq.corec_nil _ _ hp] at h ⊢
      rw [Seq.take_nil, List.append_nil] at h
      simpa [hp] using hhere p h
    | some a =>
      rw [Seq.corec_cons hp] at h ⊢
      refine ih a.2 ?_
      rwa [(hstep p).2 a hp, List.append_assoc, List.singleton_append, ← Seq.take_succ_cons]

/-- **A source that does not fail supplies a sequence**, whatever its answers depend on. -/
theorem exists_seq (hpatient : ∀ c, Patient fun n => S.next n c) {P : σ → Prop}
    (hsource : P S.source) (hcredit : ∀ c, P c → P (S.credit c))
    (hnext : ∀ c, P c → ∃ bound a c', S.next bound c = some (.ok a, c') ∧ ∀ v ∈ a, P c') :
    ∃ xs, S.Supplies xs := by
  have hdraws : ∀ p : S.Drawing, ∃ o, S.Draws p o := fun p =>
    have ⟨bound, a, c', hanswer, _⟩ := hnext _ (p.2.keeps hpatient hsource hcredit hnext)
    exists_draws p ⟨bound, a, c', hanswer⟩
  choose step hstep using hdraws
  exact ⟨Seq.corec step ⟨([], S.source), .start⟩, hpatient,
    fun n c h => Draws.answers_corec hpatient hstep _ h⟩

theorem get?_length_take : xs.get? (xs.take n).length = xs.get? n := by
  rcases (Seq.length_take_le (s := xs) (n := n)).lt_or_eq with hlt | heq
  · have hnone : xs.get? (xs.take n).length = none := by
      have := Seq.getElem?_take (xs.take n).length n xs
      rw [if_pos hlt, List.getElem?_eq_none le_rfl] at this
      exact this.symm
    rw [hnone, xs.le_stable hlt.le hnone]
  · rw [heq]

/-- The source that is a sequence itself. -/
def ofSeq (key : α → κ) (ps : List Int) (xs : Seq α) : Setup (Seq α) α ε κ where
  source := xs
  next := fun _ xs => some (.ok xs.head, xs.tail)
  credit := id
  key := key
  positions := ps

/-- Every sequence is supplied by some source. -/
theorem supplies_ofSeq (key : α → κ) (ps : List Int) (xs : Seq α) :
    (ofSeq (ε := ε) key ps xs).Supplies xs := by
  have hdrawn : ∀ {vs c}, (ofSeq (ε := ε) key ps xs).Drawn vs c →
      ∀ i, c.get? i = xs.get? (vs.length + i) := by
    intro vs c h
    induction h with
    | start => simp [ofSeq]
    | @step vs v c c' bound _ answer ih =>
      obtain ⟨-, rfl⟩ := Prod.mk.inj (Option.some.inj answer)
      intro i
      have hcredit :
          (if (ofSeq (ε := ε) key ps xs).Pays vs v then id c.tail else c.tail) = c.tail :=
        ite_self _
      show Seq.get? (if (ofSeq (ε := ε) key ps xs).Pays vs v then id c.tail else c.tail) i = _
      rw [hcredit, Seq.get?_tail, ih, List.length_append, List.length_singleton, add_assoc,
        add_comm 1]
  refine ⟨fun c => patient_const _, fun n c h => ⟨0, c.tail, ?_⟩⟩
  have hhead : c.head = xs.get? n := by
    rw [← get?_length_take]
    exact hdrawn h 0
  simp [ofSeq, hhead]

end Setup

end Selection

/-! ### The candidates of a rule -/

/-- How a rule selects by its positions from the chain of its candidates. -/
def Rule.selectionSetup (r : Rule) (c : Candidates) :
    Selection.Setup Candidates Value Undefined (List Int) where
  source := c
  next := Candidates.next
  credit := fun c => c.credit 0
  key := periodKey r.freq r.weekStart
  positions := r.bySetPos

/-- **The chain of a rule supplies a sequence** to the selection by the rule's positions, which is
the one of its series if that goes on to all periods. -/
theorem Rule.exists_seq {r : Rule} {start : Value} {budget : Int} {bound : Nat} {c : Candidates}
    (h : r.Admits start) (hpos : r.bySetPos ≠ []) (hfills : Series.Fills bound r start budget c) :
    ∃ s xs, Series.sourceOf r c = .selected s ∧
      (r.selectionSetup c).selection = { s with uniform := false } ∧
      (r.selectionSetup c).Supplies xs := by
  obtain ⟨hbudget, hhanded, -⟩ := handedOut_of_fills h hfills
  have hbudget' : 0 ≤ budget := by omega
  have hK := begins_course h hbudget'
  have hcredited : (r.course start budget).credited = none := credited_course_eq_none hpos
  obtain ⟨xs, hxs⟩ := Selection.Setup.exists_seq (S := r.selectionSetup c)
    Course.patient_nextCandidate (P := fun c => ∃ vs, (r.course start budget).HandedOut vs c)
    ⟨[], hhanded⟩ (fun c ⟨vs, h⟩ => ⟨vs, h.credit hK hbudget'⟩) fun c ⟨vs, h⟩ => by
      obtain ⟨a, c', hsettles, -, hnext⟩ := h.next hK hcredited
      obtain ⟨bound, hanswer⟩ := hsettles.exists_bound
      exact ⟨bound, a, c', hanswer, fun v hv => ⟨_, hnext v hv⟩⟩
  exact ⟨_, xs, sourceOf_selection hpos c, rfl, hxs⟩

open Selection (Setup)

/-- **Selecting by position is cutting into runs and picking from each.**  Take any source whose
candidates are a finite or infinite sequence, any key, and positions.

The candidates fall into maximal runs with one key each, and every candidate lies in one of them.
What the selection hands out, one value after the other, is what the positions pick from the runs
up to the end of some run, in their order, or the beginning of it; and all of that is handed out.
A call has an answer exactly if there is one more value of this kind, which it hands out, or if the
candidates have come to an end and everything has been handed out.  So nothing is handed out of a
run that never ends, and a call that would have to wait for its end has no answer.

Candidates behind the greatest position play no part, where they are dropped. -/
theorem selection_picks_from_runs {σ α ε κ : Type} [DecidableEq κ] {S : Setup σ α ε κ}
    (hpositions : S.positions ≠ []) {xs : Seq α} (hS : S.Supplies xs) :
    (∀ n, xs.take n = (runs S.key (xs.take n)).flatten ∧ [] ∉ runs S.key (xs.take n) ∧
      (∀ run ∈ runs S.key (xs.take n), ∀ v ∈ run, ∀ w ∈ run, S.key v = S.key w) ∧
      (runs S.key (xs.take n)).IsChain fun g h => ∀ v ∈ g, ∀ w ∈ h, S.key v ≠ S.key w) ∧
    (∀ vs, (∃ s, S.HandsOut vs s) ↔ ∃ n, RunEnds S.key xs n ∧
      vs <+: (runs S.key (xs.take n)).flatMap (picked S.positions)) ∧
    (∀ vs s, S.HandsOut vs s → ∀ a, (∃ bound s', S.ask bound s = some (a, s')) ↔
      (∃ v n, a = .ok (some v) ∧ RunEnds S.key xs n ∧
        vs ++ [v] <+: (runs S.key (xs.take n)).flatMap (picked S.positions)) ∨
      ∃ n, a = .ok none ∧ xs.get? n = none ∧
        vs = (runs S.key (xs.take n)).flatMap (picked S.positions)) ∧
    ∀ run : List α, selectPositions S.positions (kept (keptOfPeriod S.positions) run) =
      selectPositions S.positions run := by
  refine ⟨fun n => runs_eq_iff.mp rfl, fun vs => ⟨?_, ?_⟩,
    fun vs s h a => h.ask_iff hS hpositions a, fun run => ?_⟩
  · rintro ⟨s, h⟩
    obtain ⟨n, hstands⟩ := h.stands hS hpositions
    exact ⟨n, hstands.ends, _, hstands.picked_eq⟩
  · rintro ⟨n, hends, hprefix⟩
    induction vs using List.reverseRecOn with
    | nil => exact ⟨_, .nil⟩
    | append_singleton vs v ih =>
      obtain ⟨s, h⟩ := ih ((List.prefix_append vs [v]).trans hprefix)
      obtain ⟨bound, s', hanswer⟩ :=
        (h.ask_iff hS hpositions _).mpr (.inl ⟨v, n, rfl, hends, hprefix⟩)
      exact ⟨s', .snoc h hanswer⟩
  · rw [selectPositions_eq, selectPositions_eq, picked_kept]

/-- Numbers in threes, of which the last, the second and the last but one are picked: of eight
numbers the last two are a run of their own, and without an end there is always one more run. -/
theorem selection_picks_from_runs_threes :
    let S : Seq Nat → Setup (Seq Nat) Nat Unit Nat := Setup.ofSeq (fun n => n / 3) [-1, 2, -2]
    let eight : Seq Nat := .ofList [0, 1, 2, 3, 4, 5, 6, 7]
    let endless : Seq Nat := .nats
    (∃ s, (S eight).HandsOut [1, 2, 4, 5, 6, 7] s ∧
        ∃ bound s', (S eight).ask bound s = some (.ok none, s')) ∧
      ∃ s, (S endless).HandsOut [1, 2, 4, 5, 7, 8] s := by
  intro S eight endless
  have hpositions : ∀ xs, (S xs).positions ≠ [] := fun xs => List.cons_ne_nil _ _
  obtain ⟨-, hhands, hasks, -⟩ :=
    selection_picks_from_runs (hpositions eight) (Setup.supplies_ofSeq _ _ eight)
  obtain ⟨-, hendless, -⟩ :=
    selection_picks_from_runs (hpositions endless) (Setup.supplies_ofSeq _ _ endless)
  obtain ⟨s, hs⟩ := (hhands [1, 2, 4, 5, 6, 7]).mpr ⟨8, by decide, by decide⟩
  exact ⟨⟨s, hs, (hasks _ s hs _).mpr (.inr ⟨8, rfl, rfl, by decide⟩)⟩,
    (hendless [1, 2, 4, 5, 7, 8]).mpr ⟨9, by decide, by decide⟩⟩

end Recurrence
