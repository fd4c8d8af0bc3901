/-
Recurrence/Proofs/Runs.lean

Runs of equal keys.

A list falls into maximal runs of consecutive values with one key, and it does so in one way only
(`runs_eq_iff`).  A finite or infinite sequence is cut in the same way from the front: where a run
ends, the runs of what comes before are settled, whatever comes behind.  So what is picked from
them for longer and longer beginnings are the beginnings of one list (`pickedBefore_mono`), and a
run that has been seen to its end adds what is picked from it (`Running.pickedBefore_eq`).

A run that never ends is never settled, since positions may count from its end.
-/
import Mathlib.Data.List.SplitBy
import Mathlib.Data.Seq.Basic
import Recurrence.Proofs.Positions

namespace Recurrence

open Stream' (Seq)

variable {α κ : Type} {key : α → κ} {ps : List Int} {xs : Seq α} {v w : α} {m n : Nat}
  {seen : List α}

/-! ### Runs of a list -/

/-- The maximal runs of consecutive values with one key. -/
def runs [DecidableEq κ] (key : α → κ) (vs : List α) : List (List α) :=
  vs.splitBy fun v w => key v = key w

theorem isChain_key_iff {g : List α} :
    (g.IsChain fun v w => key v = key w) ↔ ∀ v ∈ g, ∀ w ∈ g, key v = key w := by
  have : IsTrans α fun v w => key v = key w := ⟨fun _ _ _ => Eq.trans⟩
  have : Std.Symm fun v w => key v = key w := ⟨fun _ _ => Eq.symm⟩
  rw [List.isChain_iff_pairwise]
  constructor
  · intro h v hv w hw
    exact h.forall_of_forall (R := fun v w => key v = key w) (fun _ _ => rfl) hv hw
  · intro h
    exact List.pairwise_of_forall_mem_list h

/-- **The runs of a list** are the only way to cut it into parts that have one key each and
neighbours with other keys. -/
theorem runs_eq_iff [DecidableEq κ] {vs : List α} {gs : List (List α)} :
    runs key vs = gs ↔ vs = gs.flatten ∧ [] ∉ gs ∧ (∀ g ∈ gs, ∀ v ∈ g, ∀ w ∈ g, key v = key w) ∧
      gs.IsChain fun g h => ∀ v ∈ g, ∀ w ∈ h, key v ≠ key w := by
  rw [runs, List.splitBy_eq_iff]
  simp only [decide_eq_true_eq, decide_eq_false_iff_not, isChain_key_iff]
  refine and_congr_right fun _ => and_congr_right fun hne => and_congr_right fun hsame => ?_
  apply List.IsChain.iff_of_mem_imp
  intro g h hg hh
  have hg' : g ≠ [] := fun he => hne (he ▸ hg)
  have hh' : h ≠ [] := fun he => hne (he ▸ hh)
  constructor
  · rintro ⟨_, _, hkey⟩ v hv w hw
    rwa [hsame g hg v hv _ (List.getLast_mem hg'), hsame h hh w hw _ (List.head_mem hh')]
  · intro hkey
    exact ⟨hg', hh', hkey _ (List.getLast_mem hg') _ (List.head_mem hh')⟩

theorem runs_append [DecidableEq κ] {us vs : List α}
    (h : ∀ v ∈ us.getLast?, ∀ w ∈ vs.head?, key v ≠ key w) :
    runs key (us ++ vs) = runs key us ++ runs key vs := by
  apply List.splitBy_append
  simpa using h

theorem runs_of_same [DecidableEq κ] {g : List α} (hne : g ≠ [])
    (h : ∀ v ∈ g, ∀ w ∈ g, key v = key w) : runs key g = [g] := by
  apply List.splitBy_of_isChain hne
  simpa using isChain_key_iff.mpr h

/-! ### Runs of a sequence -/

/-- Whether a run of a sequence ends before its `n`-th value, or no value comes before that. -/
def RunEnds (key : α → κ) (xs : Seq α) (n : Nat) : Prop :=
  ∀ v ∈ (xs.take n).getLast?, ∀ w ∈ xs.get? n, key v ≠ key w

instance [DecidableEq κ] (key : α → κ) (xs : Seq α) (n : Nat) : Decidable (RunEnds key xs n) := by
  unfold RunEnds
  infer_instance

/-- What the positions pick from the runs of the first `n` values, one run after the other. -/
def pickedBefore [DecidableEq κ] (key : α → κ) (ps : List Int) (xs : Seq α) (n : Nat) : List α :=
  (runs key (xs.take n)).flatMap (picked ps)

theorem take_append_drop_take (h : m ≤ n) : xs.take m ++ (xs.take n).drop m = xs.take n := by
  have htake : (xs.take n).take m = xs.take m := by
    apply List.ext_getElem?
    grind
  rw [← htake, List.take_append_drop]

theorem take_succ_of_get? (h : xs.get? n = some v) : xs.take (n + 1) = xs.take n ++ [v] := by
  have hdrop : (xs.take (n + 1)).drop n = [v] := by
    apply List.ext_getElem?
    grind
  rw [← take_append_drop_take n.le_succ, hdrop]

theorem runEnds_zero : RunEnds key xs 0 := by
  simp [RunEnds]

theorem runEnds_of_none (h : xs.get? n = none) : RunEnds key xs n := by
  simp [RunEnds, h]

/-- What has been picked up to the end of a run stays as more is picked. -/
theorem pickedBefore_mono [DecidableEq κ] (ps : List Int) (hm : RunEnds key xs m) (h : m ≤ n) :
    pickedBefore key ps xs m <+: pickedBefore key ps xs n := by
  rw [pickedBefore, pickedBefore, ← take_append_drop_take h, runs_append, List.flatMap_append]
  · exact List.prefix_append _ _
  · intro v hv w hw
    rw [List.head?_drop, Seq.getElem?_take] at hw
    split at hw
    · exact hm v hv w hw
    · exact absurd hw (by simp)

/-- Behind the end of a sequence nothing is picked. -/
theorem pickedBefore_of_none [DecidableEq κ] (ps : List Int) (hm : RunEnds key xs m)
    (hn : xs.get? n = none) : pickedBefore key ps xs m <+: pickedBefore key ps xs n := by
  rcases le_total m n with h | h
  · exact pickedBefore_mono ps hm h
  · have hdrop : (xs.take m).drop n = [] := by
      apply List.ext_getElem?
      intro i
      have := xs.le_stable (Nat.le_add_right n i) hn
      grind
    rw [pickedBefore, ← take_append_drop_take h, hdrop, List.append_nil]
    exact List.prefix_rfl

/-- What is picked up to the ends of two runs is the beginning of one list. -/
theorem pickedBefore_total [DecidableEq κ] (ps : List Int) (hm : RunEnds key xs m)
    (hn : RunEnds key xs n) :
    ∃ us, pickedBefore key ps xs m <+: us ∧ pickedBefore key ps xs n <+: us := by
  rcases le_total m n with h | h
  · exact ⟨_, pickedBefore_mono ps hm h, List.prefix_rfl⟩
  · exact ⟨_, List.prefix_rfl, pickedBefore_mono ps hn h⟩

/-! ### A run that is being seen -/

/-- The values from the `m`-th up to but not including the `n`-th, all of which have the key of
the first of them. -/
structure Running (key : α → κ) (xs : Seq α) (v : α) (m n : Nat) (seen : List α) : Prop where
  lt : m < n
  first : xs.get? m = some v
  head : seen.head? = some v
  take_eq : xs.take n = xs.take m ++ seen
  same : ∀ w ∈ seen, key w = key v

namespace Running

theorem start (h : xs.get? n = some v) : Running key xs v n (n + 1) [v] where
  lt := n.lt_succ_self
  first := h
  head := rfl
  take_eq := take_succ_of_get? h
  same := by simp

theorem snoc (h : Running key xs v m n seen) (hw : xs.get? n = some w) (hkey : key w = key v) :
    Running key xs v m (n + 1) (seen ++ [w]) where
  lt := h.lt.trans n.lt_succ_self
  first := h.first
  head := by rw [List.head?_append, h.head, Option.some_or]
  take_eq := by rw [take_succ_of_get? hw, h.take_eq, List.append_assoc]
  same := by
    intro x hx
    rcases List.mem_append.mp hx with hx | hx
    · exact h.same x hx
    · rw [List.mem_singleton.mp hx, hkey]

theorem ne_nil (h : Running key xs v m n seen) : seen ≠ [] := by
  rintro rfl
  exact absurd h.head (by simp)

/-- A run ends where the next value has another key. -/
theorem ends_iff (h : Running key xs v m n seen) :
    RunEnds key xs n ↔ ∀ w ∈ xs.get? n, key w ≠ key v := by
  obtain ⟨u, hu⟩ := Option.isSome_iff_exists.mp (List.getLast?_isSome.mpr h.ne_nil)
  have hlast : (xs.take n).getLast? = some u := by
    rw [h.take_eq, List.getLast?_append, hu, Option.some_or]
  have hkey := h.same u (List.mem_of_getLast? hu)
  simp only [RunEnds, hlast, Option.mem_def, Option.some.injEq, forall_eq', hkey]
  exact forall_congr' fun w => imp_congr_right fun _ => ne_comm

/-- A run that has ended is one more. -/
theorem runs_take [DecidableEq κ] (h : Running key xs v m n seen) (hm : RunEnds key xs m) :
    runs key (xs.take n) = runs key (xs.take m) ++ [seen] := by
  rw [h.take_eq, runs_append, runs_of_same h.ne_nil]
  · intro x hx y hy
    rw [h.same x hx, h.same y hy]
  · intro x hx y hy
    rw [h.head] at hy
    exact hm x hx y (h.first.trans hy)

theorem pickedBefore_eq [DecidableEq κ] (h : Running key xs v m n seen) (hm : RunEnds key xs m) :
    pickedBefore key ps xs n = pickedBefore key ps xs m ++ picked ps seen := by
  simp [pickedBefore, h.runs_take hm]

end Running

end Recurrence
