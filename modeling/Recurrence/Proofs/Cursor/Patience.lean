/-
Recurrence/Proofs/Cursor/Patience.lean

Cursors of every kind are patient.

A merged cursor sees its members through their operations alone, so it keeps its answers when
these are replaced by others that answer whenever they do, and in the same way
(`CursorOps.Extends`).  The bound of a cursor's operations limits the loops of its members and
how deep mergers are nested.  A larger bound extends the operations under a smaller one
(`Cursor.extends_ops`), by induction on the bound.
-/
import Recurrence.Cursor.Any
import Recurrence.Proofs.Series.Patience

namespace Recurrence

variable {ι : Type} {o o' : CursorOps ι} {m n : Nat}

/-- Whatever some operations answer, the others answer too. -/
structure CursorOps.Extends (o o' : CursorOps ι) : Prop where
  hasNext : ∀ {c b}, o.hasNext c = some b → o'.hasNext c = some b
  next : ∀ {c b}, o.next c = some b → o'.next c = some b
  advanceTo : ∀ {c target b}, o.advanceTo c target = some b → o'.advanceTo c target = some b

theorem Answer.lift_mono {σ τ α : Type} {into : σ → τ} {x y : Answer σ α}
    {b : Except SeriesError α × τ} (h : ∀ a, x = some a → y = some a)
    (hb : x.lift into = some b) : y.lift into = some b := by
  obtain ⟨a, ha, rfl⟩ := Option.map_eq_some_iff.mp hb
  exact Option.map_eq_some_iff.mpr ⟨a, h a ha, rfl⟩

/-- The state of a lifted answer is a lifted one. -/
theorem Answer.exists_of_lift {σ τ α : Type} {into : σ → τ} {x : Answer σ α}
    {a : Except SeriesError α} {t : τ} (h : x.lift into = some (a, t)) :
    ∃ s, x = some (a, s) ∧ t = into s := by
  obtain ⟨⟨b, s⟩, hx, heq⟩ := Option.map_eq_some_iff.mp h
  obtain ⟨rfl, rfl⟩ := Prod.mk.inj heq
  exact ⟨s, hx, rfl⟩

/-- An excluded cursor that is moved on to a value if it is behind. -/
def Excluded.moved (o : CursorOps ι) (v : Value) (x : Excluded ι) : Answer (Excluded ι) Unit :=
  match x.head with
  | some u =>
    if u < v then
      match o.advanceTo x.cursor v with
      | none => none
      | some (.error e, c) => some (.error e, ⟨c, x.head⟩)
      | some (.ok (), c) =>
        match o.head c with
        | none => none
        | some (.error e, c) => some (.error e, ⟨c, x.head⟩)
        | some (.ok head, c) => some (.ok (), ⟨c, head⟩)
    else some (.ok (), x)
  | none => some (.ok (), x)

/-- One excluded cursor after the other is moved on and asked. -/
theorem Merged.excludes_cons (o : CursorOps ι) (v : Value) (x : Excluded ι)
    (xs : List (Excluded ι)) : Merged.excludes o v (x :: xs) =
      match x.moved o v with
      | none => none
      | some (.error e, x) => some (.error e, x :: xs)
      | some (.ok (), x) =>
        match Merged.excludes o v xs with
        | none => none
        | some (.error e, xs) => some (.error e, x :: xs)
        | some (.ok found, xs) => some (.ok (found || x.head == some v), x :: xs) := rfl

namespace CursorOps.Extends

variable {c : ι} {cs : List ι} {v target : Value} {i : Nat} {places : List Nat} {s : Merged ι}

/-! ### Merged cursors -/

theorem head (h : o.Extends o') {b} (hb : o.head c = some b) : o'.head c = some b := by
  unfold CursorOps.head at hb ⊢
  cases hmore : o.hasNext c with
  | none => simp [hmore] at hb
  | some a =>
    rw [hmore] at hb
    rw [h.hasNext hmore]
    match a, hb with
    | (.error e, c), hb => exact hb
    | (.ok false, c), hb => exact hb
    | (.ok true, c), hb =>
      dsimp only at hb ⊢
      cases hnext : o.next c with
      | none => simp [hnext] at hb
      | some a =>
        rw [hnext] at hb
        rw [h.next hnext]
        exact hb

theorem refill (h : o.Extends o') {b} (hb : s.refill o i = some b) : s.refill o' i = some b := by
  unfold Merged.refill at hb ⊢
  cases hc : s.included[i]? with
  | none => rwa [hc] at hb
  | some c =>
    rw [hc] at hb
    dsimp only at hb ⊢
    cases hhead : o.head c with
    | none => simp [hhead] at hb
    | some a =>
      rw [hhead] at hb
      rw [h.head hhead]
      exact hb

theorem refillAll (h : o.Extends o') {b} (hb : Merged.refillAll o places s = some b) :
    Merged.refillAll o' places s = some b := by
  induction places generalizing s with
  | nil => exact hb
  | cons i places ih =>
    rw [Merged.refillAll] at hb ⊢
    cases hfetch : s.refill o i with
    | none => simp [hfetch] at hb
    | some a =>
      rw [hfetch] at hb
      rw [h.refill hfetch]
      match a, hb with
      | (.error e, s), hb => exact hb
      | (.ok (), s), hb => exact ih hb

theorem withHeads (h : o.Extends o') {b} (hb : Merged.withHeads o cs = some b) :
    Merged.withHeads o' cs = some b := by
  induction cs generalizing b with
  | nil => exact hb
  | cons c cs ih =>
    rw [Merged.withHeads] at hb ⊢
    cases hhead : o.head c with
    | none => simp [hhead] at hb
    | some a =>
      rw [hhead] at hb
      rw [h.head hhead]
      match a, hb with
      | (.error e, c), hb => exact hb
      | (.ok x, c), hb =>
        obtain ⟨r, hr, rfl⟩ := Option.map_eq_some_iff.mp hb
        exact Option.map_eq_some_iff.mpr ⟨r, ih hr, rfl⟩

theorem create (h : o.Extends o') {included excluded : List ι} {b}
    (hb : Merged.create o included excluded = some b) :
    Merged.create o' included excluded = some b := by
  unfold Merged.create at hb ⊢
  cases hfetch : Merged.refillAll o (List.range included.length) { included, excluded := [] } with
  | none => simp [hfetch] at hb
  | some a =>
    rw [hfetch] at hb
    rw [h.refillAll hfetch]
    match a, hb with
    | (.error e, s), hb => exact hb
    | (.ok (), s), hb =>
      obtain ⟨r, hr, rfl⟩ := Option.map_eq_some_iff.mp hb
      exact Option.map_eq_some_iff.mpr ⟨r, h.withHeads hr, rfl⟩

theorem moved (h : o.Extends o') {x : Excluded ι} {b} (hb : x.moved o v = some b) :
    x.moved o' v = some b := by
  unfold Excluded.moved at hb ⊢
  cases hhead : x.head with
  | none => rwa [hhead] at hb
  | some u =>
    rw [hhead] at hb
    dsimp only at hb ⊢
    split_ifs at hb ⊢
    · cases hmove : o.advanceTo x.cursor v with
      | none => simp [hmove] at hb
      | some a =>
        rw [hmove] at hb
        rw [h.advanceTo hmove]
        match a, hb with
        | (.error e, c), hb => exact hb
        | (.ok (), c), hb =>
          dsimp only at hb ⊢
          cases hnext : o.head c with
          | none => simp [hnext] at hb
          | some a =>
            rw [hnext] at hb
            rw [h.head hnext]
            exact hb
    · exact hb

theorem excludes (h : o.Extends o') {xs : List (Excluded ι)} {b}
    (hb : Merged.excludes o v xs = some b) : Merged.excludes o' v xs = some b := by
  induction xs generalizing b with
  | nil => exact hb
  | cons x xs ih =>
    rw [Merged.excludes_cons] at hb ⊢
    cases hmoved : x.moved o v with
    | none => simp [hmoved] at hb
    | some a =>
      rw [hmoved] at hb
      rw [h.moved hmoved]
      match a, hb with
      | (.error e, x), hb => exact hb
      | (.ok (), x), hb =>
        dsimp only at hb ⊢
        cases hrest : Merged.excludes o v xs with
        | none => simp [hrest] at hb
        | some a =>
          rw [hrest] at hb
          rw [ih hrest]
          exact hb

theorem turn (h : o.Extends o') {b} (hb : s.turn o = some b) : s.turn o' = some b := by
  unfold Merged.turn at hb ⊢
  cases hpending : s.pending with
  | some p => rwa [hpending] at hb
  | none =>
    cases hqueue : s.queue with
    | nil => rwa [hpending, hqueue] at hb
    | cons w queue =>
      rw [hpending, hqueue] at hb
      dsimp only at hb ⊢
      cases hfetch : ({ s with queue, pending := none } : Merged ι).refill o w.index with
      | none => simp [hfetch] at hb
      | some a =>
        rw [hfetch] at hb
        rw [h.refill hfetch]
        match a, hb with
        | (.error e, s), hb => exact hb
        | (.ok (), s), hb =>
          dsimp only at hb ⊢
          split_ifs at hb ⊢
          · exact hb
          · cases hasked : Merged.excludes o w.value s.excluded with
            | none => simp [hasked] at hb
            | some a =>
              rw [hasked] at hb
              rw [h.excludes hasked]
              exact hb

theorem mergedHasNext (h : o.Extends o') (hmn : m ≤ n) {b} (hb : s.hasNext o m = some b) :
    s.hasNext o' n = some b :=
  loop_mono (fun _ _ ht => h.turn ht) hmn hb

theorem mergedNext (h : o.Extends o') (hmn : m ≤ n) {b} (hb : s.next o m = some b) :
    s.next o' n = some b := by
  unfold Merged.next at hb ⊢
  cases hmore : s.hasNext o m with
  | none => simp [hmore] at hb
  | some a =>
    rw [hmore] at hb
    rw [h.mergedHasNext hmn hmore]
    exact hb

theorem advanceAll (h : o.Extends o') {b} (hb : Merged.advanceAll o target places s = some b) :
    Merged.advanceAll o' target places s = some b := by
  induction places generalizing s with
  | nil => exact hb
  | cons i places ih =>
    rw [Merged.advanceAll] at hb ⊢
    cases hc : s.included[i]? with
    | none =>
      rw [hc] at hb
      exact ih hb
    | some c =>
      rw [hc] at hb
      dsimp only at hb ⊢
      cases hmove : o.advanceTo c target with
      | none => simp [hmove] at hb
      | some a =>
        rw [hmove] at hb
        rw [h.advanceTo hmove]
        match a, hb with
        | (.error e, c), hb => exact hb
        | (.ok (), c), hb =>
          dsimp only at hb ⊢
          cases hfetch : ({ s with included := s.included.set i c } : Merged ι).refill o i with
          | none => simp [hfetch] at hb
          | some a =>
            rw [hfetch] at hb
            rw [h.refill hfetch]
            match a, hb with
            | (.error e, s), hb => exact hb
            | (.ok (), s), hb => exact ih hb

theorem mergedAdvanceTo (h : o.Extends o') {b} (hb : s.advanceTo o target = some b) :
    s.advanceTo o' target = some b := by
  unfold Merged.advanceTo at hb ⊢
  dsimp only at hb ⊢
  split_ifs at hb ⊢
  · exact hb
  · exact h.advanceAll hb

end CursorOps.Extends

/-! ### Cursors of every kind -/

namespace Cursor

/-- **A larger bound** extends the operations under a smaller one. -/
theorem extends_ops (hmn : m ≤ n) : (ops m).Extends (ops n) := by
  induction m generalizing n with
  | zero => exact ⟨fun h => absurd h (by simp [ops]), fun h => absurd h (by simp [ops]),
      fun h => absurd h (by simp [ops])⟩
  | succ m ih =>
    obtain ⟨n, rfl⟩ : ∃ k, n = k + 1 := ⟨n - 1, by omega⟩
    have hmn : m ≤ n := by omega
    have h := ih hmn
    constructor
    · rintro (t | d | s) b hb
      · exact Answer.lift_mono (fun _ => t.patient_hasNext hmn) hb
      · exact hb
      · exact Answer.lift_mono (fun _ => h.mergedHasNext hmn) hb
    · rintro (t | d | s) b hb
      · exact Answer.lift_mono (fun _ => t.patient_next hmn) hb
      · exact hb
      · exact Answer.lift_mono (fun _ => h.mergedNext hmn) hb
    · rintro (t | d | s) target b hb
      · exact Answer.lift_mono (fun _ => t.patient_advanceTo target hmn) hb
      · exact hb
      · exact Answer.lift_mono (fun _ => h.mergedAdvanceTo) hb

end Cursor

end Recurrence
