/-
Recurrence/Proofs/Path.lean

Paths in a tree of numbers, and their order.

The values that a chain of generators can put together form a tree: the years
are the children of the root, the months those of a year, and so on down to the
finest field.  A node is the list of the numbers on the way to it, coarsest
first, so nodes of one level are ordered as lists.

A walk through the tree stands below some node `p`, having used the children of
`p` up to some last one, or none of them yet.  `Beyond p last q` says that the
node `q` still lies ahead of it.  Walking down, sideways and up again changes the
position but never loses a node: `beyond_child_iff` for the step down to the
next child, `beyond_parent_iff` for the step up once no child is left.
-/
import Mathlib.Data.Int.Order.Basic
import Mathlib.Data.List.Lex

namespace Recurrence

/-! ### Lists of one length -/

theorem append_lt_append_of_lt {a b : List Int} (hl : a.length = b.length) (h : a < b)
    (x y : List Int) : a ++ x < b ++ y := by
  induction a generalizing b with
  | nil =>
    cases b with
    | nil => exact absurd h (lt_irrefl _)
    | cons _ _ => simp at hl
  | cons a as ih =>
    cases b with
    | nil => simp at hl
    | cons b bs =>
      rw [List.cons_append, List.cons_append, List.cons_lt_cons_iff]
      rcases List.cons_lt_cons_iff.mp h with hab | ⟨rfl, hab⟩
      · exact .inl hab
      · exact .inr ⟨rfl, ih (by simpa using hl) hab⟩

theorem append_lt_append_iff {a b : List Int} (hl : a.length = b.length) {x y : List Int} :
    a ++ x < b ++ y ↔ a < b ∨ a = b ∧ x < y := by
  rcases lt_trichotomy a b with h | rfl | h
  · simp [append_lt_append_of_lt hl h x y, h]
  · simp only [lt_irrefl, true_and, false_or]
    induction a with
    | nil => rfl
    | cons a as ih => simpa [List.cons_lt_cons_iff] using ih rfl
  · have := append_lt_append_of_lt hl.symm h y x
    simp [this.not_gt, h.not_gt, h.ne']

theorem append_singleton_le_iff {a b : List Int} (hl : a.length = b.length) {x y : Int} :
    a ++ [x] ≤ b ++ [y] ↔ a < b ∨ a = b ∧ x ≤ y := by
  rw [le_iff_lt_or_eq, append_lt_append_iff hl, List.append_eq_append_iff_of_size_eq_left hl]
  simp only [List.cons_lt_cons_iff, lt_irrefl, and_false, or_false, List.cons.injEq, and_true,
    le_iff_lt_or_eq (a := x)]
  tauto

theorem take_le_take {a b : List Int} (h : a ≤ b) (n : Nat) : a.take n ≤ b.take n := by
  induction n generalizing a b with
  | zero => simp
  | succ n ih =>
    cases a with
    | nil => exact not_lt.mp (List.not_lt_nil _)
    | cons a as =>
      cases b with
      | nil => exact absurd (List.nil_lt_cons a as) h.not_gt
      | cons b bs =>
        rcases lt_or_eq_of_le h with h | h
        · rcases List.cons_lt_cons_iff.mp h with hab | ⟨rfl, hab⟩
          · exact le_of_lt (List.cons_lt_cons_iff.mpr (.inl hab))
          · exact List.cons_le_cons _ (ih hab.le)
        · rw [h]

/-- The first numbers of a list decide how it compares unless they agree. -/
theorem lt_of_take_lt_take {a b : List Int} {n : Nat} (h : a.take n < b.take n) : a < b := by
  by_contra hn
  exact absurd h (take_le_take (le_of_not_gt hn) n).not_gt

theorem take_succ_eq {q : List Int} {n : Nat} (h : n < q.length) :
    q.take (n + 1) = q.take n ++ [q[n]] := (List.take_append_getElem h).symm

section Beginnings

variable {a b : List Int} {n m : Nat} {v : Int}

/-- Lists that agree up to some place agree up to every earlier one. -/
theorem take_eq_of_take_eq (h : a.take n = b.take n) (hm : m ≤ n) : a.take m = b.take m := by
  have := congrArg (List.take m) h
  rwa [List.take_take, List.take_take, Nat.min_eq_left hm] at this

theorem getElem?_eq_of_take_eq (h : a.take n = b.take n) (hm : m < n) : a[m]? = b[m]? := by
  rw [← List.getElem?_take_of_lt hm, h, List.getElem?_take_of_lt hm]

/-- A list that goes one number further than another agrees with it so far. -/
theorem take_eq_of_take_succ (h : a.take (n + 1) = b.take n ++ [v]) (hb : n ≤ b.length) :
    a.take n = b.take n := by
  have := congrArg (List.take n) h
  rwa [List.take_take, Nat.min_eq_left (Nat.le_succ n),
    List.take_left' (List.length_take_of_le hb)] at this

theorem getElem?_of_take_succ (h : a.take (n + 1) = b.take n ++ [v]) (hb : n ≤ b.length) :
    a[n]? = some v := by
  rw [← List.getElem?_take_of_lt (Nat.lt_succ_self n), h,
    List.getElem?_append_right (List.length_take_of_le hb).le, List.length_take_of_le hb,
    Nat.sub_self, List.getElem?_cons_zero]

end Beginnings

/-! ### Trees -/

/-- A tree of numbers, given by the children of each node. -/
abbrev Tree := List Int → Int → Prop

namespace Tree

/-- Whether a list leads from child to child. -/
def Node (t : Tree) (p : List Int) : Prop := ∀ q v, q ++ [v] <+: p → t q v

variable {t : Tree}

@[simp] theorem node_nil : t.Node [] := by
  intro q v h
  simp at h

theorem node_concat {p : List Int} {v : Int} : t.Node (p ++ [v]) ↔ t.Node p ∧ t p v := by
  constructor
  · intro h
    refine ⟨fun q w hq => h q w (hq.trans (List.prefix_append p [v])), h p v List.prefix_rfl⟩
  · rintro ⟨hp, hv⟩ q w hq
    rcases List.prefix_concat_iff.mp hq with h | h
    · obtain ⟨rfl, hw⟩ := List.append_inj' h rfl
      obtain rfl := List.singleton_inj.mp hw
      exact hv
    · exact hp q w h

theorem Node.take {p : List Int} (h : t.Node p) (n : Nat) : t.Node (p.take n) :=
  fun q v hq => h q v (hq.trans (List.take_prefix n p))

/-- Each number on the way to a node is a child of the node before it. -/
theorem Node.child {p : List Int} (h : t.Node p) {n : Nat} (hn : n < p.length) :
    t (p.take n) p[n] := by
  have := h.take (n + 1)
  rw [take_succ_eq hn, node_concat] at this
  exact this.2

end Tree

/-! ### Positions -/

/-- Whether a number comes after the last one used, if any was. -/
def Past (last : Option Int) (v : Int) : Prop := ∀ w ∈ last, w < v

@[simp] theorem past_none (v : Int) : Past none v := by simp [Past]

@[simp] theorem past_some {w v : Int} : Past (some w) v ↔ w < v := by simp [Past]

/-- Whether a node lies ahead of a walk that stands below `p` and has used its
children up to `last`. -/
def Beyond (p : List Int) (last : Option Int) (q : List Int) : Prop :=
  p < q.take p.length ∨ p = q.take p.length ∧ ∀ u ∈ q[p.length]?, Past last u

theorem beyond_none_iff {p q : List Int} : Beyond p none q ↔ p ≤ q.take p.length := by
  simp [Beyond, le_iff_lt_or_eq]

theorem beyond_some_iff {p q : List Int} {w : Int} (h : p.length < q.length) :
    Beyond p (some w) q ↔ p ++ [w] < q.take (p.length + 1) := by
  have hl : p.length = (q.take p.length).length := by simp; omega
  rw [take_succ_eq h, append_lt_append_iff hl]
  simp [Beyond, h, List.cons_lt_cons_iff]

/-- Only the numbers down to the children of `p` decide what lies ahead. -/
theorem beyond_take_iff {p q : List Int} {last : Option Int} {n : Nat} (hn : p.length ≤ n)
    (hlast : p.length = n → last = none) : Beyond p last (q.take n) ↔ Beyond p last q := by
  rcases hn.lt_or_eq with hlt | rfl
  · rw [Beyond, Beyond, List.take_take, Nat.min_eq_left hn, List.getElem?_take_of_lt hlt]
  · rw [hlast rfl, beyond_none_iff, beyond_none_iff, List.take_take, Nat.min_self]

/-- What comes after a node ahead lies ahead too. -/
theorem Beyond.mono {p q q' : List Int} {last : Option Int} (h : Beyond p last q) (hq : q ≤ q')
    (hl : p.length < q.length) (hl' : p.length < q'.length) : Beyond p last q' := by
  cases last with
  | none =>
    rw [beyond_none_iff] at h ⊢
    exact h.trans (take_le_take hq _)
  | some w =>
    rw [beyond_some_iff hl] at h
    rw [beyond_some_iff hl']
    exact h.trans_le (take_le_take hq _)

/-- **Down.**  Before the least unused child of a node there is nothing left. -/
theorem beyond_child_iff {t : Tree} {p q : List Int} {last : Option Int} {v : Int}
    (hv : Past last v) (hleast : ∀ u, t p u → Past last u → v ≤ u) (hq : t.Node q)
    (hl : p.length < q.length) : Beyond p last q ↔ Beyond (p ++ [v]) none q := by
  have hlen : p.length = (q.take p.length).length := by simp; omega
  rw [beyond_none_iff, List.length_append, List.length_singleton, take_succ_eq hl,
    append_singleton_le_iff hlen]
  constructor
  · rintro (h | ⟨h, hu⟩)
    · exact .inl h
    · refine .inr ⟨h, hleast _ ?_ (hu _ (List.getElem?_eq_getElem hl))⟩
      conv_lhs => rw [h]
      exact hq.child hl
  · rintro (h | ⟨h, hu⟩)
    · exact .inl h
    · refine .inr ⟨h, ?_⟩
      intro u hu' w hw
      obtain rfl : q[p.length] = u := by simpa [hl] using hu'
      exact lt_of_lt_of_le (hv w hw) hu

/-- **Up.**  Once a node has no unused child, what lies ahead is what comes after
the node itself. -/
theorem beyond_parent_iff {t : Tree} {p q : List Int} {w : Int} {last : Option Int}
    (hnone : ∀ u, t (p ++ [w]) u → ¬ Past last u) (hq : t.Node q)
    (hl : p.length + 1 < q.length) : Beyond (p ++ [w]) last q ↔ Beyond p (some w) q := by
  rw [beyond_some_iff (by omega)]
  constructor
  · rintro (h | ⟨h, hu⟩)
    · simpa using h
    · exfalso
      refine hnone _ ?_ (hu q[p.length + 1] ?_)
      · conv_lhs => rw [h]
        simpa using hq.child hl
      · simp [hl]
  · intro h
    exact .inl (by simpa using h)

end Recurrence
