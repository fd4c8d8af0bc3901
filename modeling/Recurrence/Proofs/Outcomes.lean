/-
Recurrence/Proofs/Outcomes.lean

Outcomes that may be errors.

The readers are chains of steps that can each fail.  A chain succeeds if every step of it does, and
a list is read if every element of it is; this is all that proofs need to know of how the steps are
put together.
-/
import Mathlib.Data.List.Forall2

namespace Recurrence

variable {ε ε' α β σ : Type} {x : Except ε α} {a : α} {b : β} {s s' s'' : σ}

theorem bind_eq_ok_iff {f : α → Except ε β} : x >>= f = .ok b ↔ ∃ a, x = .ok a ∧ f a = .ok b := by
  cases x with
  | error e => simp [bind, Except.bind]
  | ok a => simp [bind, Except.bind]

theorem map_eq_ok_iff {f : α → β} : x.map f = .ok b ↔ ∃ a, x = .ok a ∧ f a = b := by
  cases x <;> simp [Except.map]

theorem mapError_eq_ok_iff {f : ε → ε'} : x.mapError f = .ok a ↔ x = .ok a := by
  cases x <;> simp [Except.mapError]

theorem toOption_eq_some_iff : x.toOption = some a ↔ x = .ok a := by
  cases x <;> simp [Except.toOption]

theorem exists_eq_ok_of_isSome (h : x.toOption.isSome = true) : ∃ a, x = .ok a := by
  cases x with
  | error e => simp [Except.toOption] at h
  | ok a => exact ⟨a, rfl⟩

/-- In two lists that are related element by element, every element of the second has one of the
first. -/
theorem exists_rel_of_mem {R : α → β → Prop} {xs : List α} {ys : List β} (h : List.Forall₂ R xs ys)
    (hb : b ∈ ys) : ∃ a ∈ xs, R a b := by
  induction h with
  | nil => cases hb
  | cons hxy _ ih =>
    obtain rfl | hb := List.mem_cons.mp hb
    · exact ⟨_, List.mem_cons_self, hxy⟩
    · obtain ⟨a, ha, hab⟩ := ih hb
      exact ⟨a, List.mem_cons_of_mem _ ha, hab⟩

theorem exists_rel_of_mem_left {R : α → β → Prop} {xs : List α} {ys : List β}
    (h : List.Forall₂ R xs ys) (ha : a ∈ xs) : ∃ b ∈ ys, R a b :=
  exists_rel_of_mem (R := flip R) (List.Forall₂.flip h) ha

/-- **A list is read** if each of its elements is. -/
theorem mapM_eq_ok_iff {f : α → Except ε β} {xs : List α} {ys : List β} :
    xs.mapM f = .ok ys ↔ List.Forall₂ (fun x y => f x = .ok y) xs ys := by
  induction xs generalizing ys with
  | nil =>
    rw [List.mapM_nil, List.forall₂_nil_left_iff]
    exact ⟨fun h => (Except.ok.inj h).symm, fun h => h ▸ rfl⟩
  | cons x xs ih =>
    rw [List.mapM_cons, bind_eq_ok_iff, List.forall₂_cons_left_iff]
    simp only [bind_eq_ok_iff, ih]
    constructor
    · rintro ⟨y, hy, ys', hys, h⟩
      exact ⟨y, ys', hy, hys, (Except.ok.inj h).symm⟩
    · rintro ⟨y, ys', hy, hys, rfl⟩
      exact ⟨y, hy, ys', hys, rfl⟩

/-- What a list is read as comes from its elements. -/
theorem mem_iff_of_mapM {f : α → Except ε β} {xs : List α} {ys : List β} (h : xs.mapM f = .ok ys) :
    b ∈ ys ↔ ∃ x ∈ xs, f x = .ok b := by
  rw [mapM_eq_ok_iff] at h
  induction h with
  | nil => simp
  | cons hxy _ ih =>
    rw [List.mem_cons, List.exists_mem_cons_iff, ih, hxy]
    exact or_congr_left ⟨fun heq => heq ▸ rfl, fun heq => (Except.ok.inj heq).symm⟩

theorem mapM_append_eq_ok_iff {f : α → Except ε β} {xs xs' : List α} {ys : List β} :
    (xs ++ xs').mapM f = .ok ys ↔
      ∃ zs zs', xs.mapM f = .ok zs ∧ xs'.mapM f = .ok zs' ∧ ys = zs ++ zs' := by
  simp only [List.mapM_append, bind_eq_ok_iff]
  constructor
  · rintro ⟨zs, hzs, zs', hzs', h⟩
    exact ⟨zs, zs', hzs, hzs', (Except.ok.inj h).symm⟩
  · rintro ⟨zs, zs', hzs, hzs', rfl⟩
    exact ⟨zs, hzs, zs', hzs', rfl⟩

/-- What every step over a list keeps, all of them keep. -/
theorem foldlM_invariant {f : σ → α → Except ε σ} {P : List α → σ → Prop} {xs : List α}
    (hstep : ∀ done x s s', P done s → f s x = .ok s' → P (done ++ [x]) s') (hs : P [] s)
    (h : xs.foldlM f s = .ok s') : P xs s' := by
  suffices hgen : ∀ done s, P done s → xs.foldlM f s = .ok s' → P (done ++ xs) s' from hgen [] s hs h
  clear hs h
  induction xs with
  | nil =>
    intro done s hs h
    obtain rfl : s = s' := Except.ok.inj h
    rwa [List.append_nil]
  | cons x xs ih =>
    intro done s hs h
    rw [List.foldlM_cons, bind_eq_ok_iff] at h
    obtain ⟨s₁, hx, h⟩ := h
    have := ih (done ++ [x]) s₁ (hstep done x s s₁ hs hx) h
    rwa [List.append_assoc, List.singleton_append] at this

end Recurrence
