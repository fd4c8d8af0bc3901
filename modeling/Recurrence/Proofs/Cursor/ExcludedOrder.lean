/-
Recurrence/Proofs/Cursor/ExcludedOrder.lean

Excluded cursors in another order.

Excluded cursors are asked one after the other about each new value.  Each of them is moved in the
same way wherever it stands, and whether one of them has the value does not depend on which is asked
first (`Merged.excludes_perm`).  So merged cursors that differ in the order of their excluded
cursors alone answer all calls alike (`Merged.SameFront.keepsUp`).  The order decides at most which
of several cursors fails, should more than one of them be unable to convert the value.
-/
import Recurrence.Proofs.Cursor.KeepingUp

namespace Recurrence

variable {ι : Type} {ops : Nat → CursorOps ι} {Left Barred : ι → Values → Prop}
  {Target : Value → Prop} {m m' m₁ : Merged ι} {n : Nat} {v target : Value}

/-! ### Asking the excluded cursors -/

/-- One excluded cursor after the other is moved on; one of them may wait with the value then. -/
theorem Merged.excludes_eq_ok_iff {o : CursorOps ι} {xs xs' : List (Excluded ι)} {found : Bool} :
    Merged.excludes o v xs = some (.ok found, xs') ↔
      List.Forall₂ (fun x x' => x.moved o v = some (.ok (), x')) xs xs' ∧
        found = xs'.any fun x => x.head == some v := by
  induction xs generalizing found xs' with
  | nil =>
    rw [List.forall₂_nil_left_iff]
    simp only [Merged.excludes, Option.some.injEq, Prod.mk.injEq, Except.ok.injEq]
    constructor
    · rintro ⟨rfl, rfl⟩
      exact ⟨rfl, rfl⟩
    · rintro ⟨rfl, rfl⟩
      exact ⟨rfl, rfl⟩
  | cons x xs ih =>
    rw [Merged.excludes_cons, List.forall₂_cons_left_iff]
    constructor
    · intro h
      cases hmoved : x.moved o v with
      | none => simp [hmoved] at h
      | some a =>
        obtain ⟨_ | _, x'⟩ := a
        · simp [hmoved] at h
        · rw [hmoved] at h
          dsimp only at h
          cases hrest : Merged.excludes o v xs with
          | none => simp [hrest] at h
          | some b =>
            obtain ⟨_ | found', xs''⟩ := b
            · simp [hrest] at h
            · rw [hrest] at h
              obtain ⟨hfound, rfl⟩ := Prod.mk.inj (Option.some.inj h)
              obtain rfl := Except.ok.inj hfound
              obtain ⟨hall, rfl⟩ := ih.mp hrest
              exact ⟨⟨x', xs'', rfl, hall, rfl⟩, by rw [List.any_cons, Bool.or_comm]⟩
    · rintro ⟨⟨x', xs'', hx, hall, rfl⟩, rfl⟩
      rw [hx]
      dsimp only
      rw [ih.mpr ⟨hall, rfl⟩, List.any_cons, Bool.or_comm]

/-- **The excluded cursors in another order** are moved on alike, and tell the same. -/
theorem Merged.excludes_perm {o : CursorOps ι} {xs xs' ys : List (Excluded ι)} {found : Bool}
    (hperm : xs.Perm ys) (h : Merged.excludes o v xs = some (.ok found, xs')) :
    ∃ ys', Merged.excludes o v ys = some (.ok found, ys') ∧ xs'.Perm ys' := by
  obtain ⟨hall, rfl⟩ := Merged.excludes_eq_ok_iff.mp h
  obtain ⟨ys', hall', hperm'⟩ := List.perm_comp_forall₂ hperm.symm hall
  exact ⟨ys', Merged.excludes_eq_ok_iff.mpr ⟨hall', hperm'.symm.any_eq⟩, hperm'.symm⟩

/-- Each excluded cursor begins to wait with its next value. -/
theorem Merged.withHeads_eq_ok_iff {o : CursorOps ι} {cs : List ι} {xs : List (Excluded ι)} :
    Merged.withHeads o cs = some (.ok xs) ↔
      List.Forall₂ (fun c x => o.head c = some (.ok x.head, x.cursor)) cs xs := by
  induction cs generalizing xs with
  | nil =>
    rw [List.forall₂_nil_left_iff]
    simp only [Merged.withHeads, Option.some.injEq, Except.ok.injEq]
    exact eq_comm
  | cons c cs ih =>
    rw [Merged.withHeads, List.forall₂_cons_left_iff]
    constructor
    · intro h
      cases hhead : o.head c with
      | none => simp [hhead] at h
      | some r =>
        obtain ⟨_ | head, c'⟩ := r
        · simp [hhead] at h
        · rw [hhead] at h
          obtain ⟨a, ha, heq⟩ := Option.map_eq_some_iff.mp h
          obtain ⟨xs', rfl, rfl⟩ := map_eq_ok_iff.mp heq
          exact ⟨⟨c', head⟩, xs', rfl, ih.mp ha, rfl⟩
    · rintro ⟨x, xs', hx, hall, rfl⟩
      rw [hx]
      dsimp only
      rw [ih.mpr hall]
      rfl

theorem Merged.withHeads_perm {o : CursorOps ι} {cs ds : List ι} {xs : List (Excluded ι)}
    (hperm : cs.Perm ds) (h : Merged.withHeads o cs = some (.ok xs)) :
    ∃ ys, Merged.withHeads o ds = some (.ok ys) ∧ xs.Perm ys := by
  obtain ⟨ys, hall, hperm'⟩ :=
    List.perm_comp_forall₂ hperm.symm (Merged.withHeads_eq_ok_iff.mp h)
  exact ⟨ys, Merged.withHeads_eq_ok_iff.mpr hall, hperm'.symm⟩

section Roving

variable (hops : ∀ {j n : Nat}, j ≤ n → (ops j).Extends (ops n))

include hops

/-- Looking for the next value of a cursor does not fail. -/
theorem CursorLaws.head_eq (hL : CursorLaws ops Left Target) {c c' : ι} {S : Values}
    {a : Except SeriesError (Option Value)} (h : Left c S) (hn : (ops n).head c = some (a, c')) :
    a = .ok S.head ∧ Left c' S.tail := by
  have hpatient : Patient fun n => (ops n).head c := fun hle hb => (hops hle).head hb
  obtain ⟨c₁, hsettles, hc₁⟩ := hL.head h
  obtain ⟨rfl, rfl⟩ := Prod.mk.inj (hpatient.eq_of_settles hsettles hn)
  exact ⟨rfl, hc₁⟩

namespace RovingLaws

/-- Excluded cursors that begin to wait stand before some sequences. -/
theorem withHeads (hE : RovingLaws ops Barred) {cs : List ι} {xs : List (Excluded ι)}
    (h : ∀ c ∈ cs, ∃ X, Barred c X) (hn : Merged.withHeads (ops n) cs = some (.ok xs)) :
    ∀ x ∈ xs, ∃ X, Barred x.cursor X := by
  intro x hx
  obtain ⟨c, hc, hhead⟩ := exists_rel_of_mem (Merged.withHeads_eq_ok_iff.mp hn) hx
  obtain ⟨X, hX⟩ := h c hc
  exact ⟨_, (hE.head_eq hops hX hhead).2⟩

/-- An excluded cursor that is moved on stands before some sequence again, or fails to convert a
target. -/
theorem moved (hE : RovingLaws ops Barred) {x x' : Excluded ι} {a : Except SeriesError Unit}
    (h : ∃ X, Barred x.cursor X) (hn : x.moved (ops n) v = some (a, x')) :
    (∃ X, Barred x'.cursor X) ∧ ∀ e, a = .error e → ∃ why, e = .conversion why := by
  have hstay : some (Except.ok (), x) = some (a, x') →
      (∃ X, Barred x'.cursor X) ∧ ∀ e, a = .error e → ∃ why, e = .conversion why := by
    intro heq
    obtain ⟨rfl, rfl⟩ := Prod.mk.inj (Option.some.inj heq)
    exact ⟨h, by simp⟩
  obtain ⟨X, hX⟩ := h
  unfold Excluded.moved at hn
  cases hhead : x.head with
  | none => exact hstay (by rwa [hhead] at hn)
  | some u =>
    rw [hhead] at hn
    dsimp only at hn
    split_ifs at hn
    · obtain ⟨b, c₁, X₁, hsettles, hc₁, hfails⟩ := hE.moves x.cursor X v hX
      cases hmove : (ops n).advanceTo x.cursor v with
      | none => simp [hmove] at hn
      | some r =>
        have hpatient : Patient fun n => (ops n).advanceTo x.cursor v := fun hle hb =>
          (hops hle).advanceTo hb
        obtain rfl := hpatient.eq_of_settles hsettles hmove
        rw [hmove] at hn
        cases b with
        | error e =>
          obtain ⟨rfl, rfl⟩ := Prod.mk.inj (Option.some.inj hn)
          exact ⟨⟨X₁, hc₁⟩, hfails⟩
        | ok _ =>
          dsimp only at hn
          cases hnext : (ops n).head c₁ with
          | none => simp [hnext] at hn
          | some r =>
            obtain ⟨r, c₂⟩ := r
            obtain ⟨rfl, hc₂⟩ := hE.head_eq hops hc₁ hnext
            rw [hnext] at hn
            obtain ⟨rfl, rfl⟩ := Prod.mk.inj (Option.some.inj hn)
            exact ⟨⟨_, hc₂⟩, by simp⟩
    · exact hstay hn

/-- **Asked about a value**, the excluded cursors stand before some sequences again, or one of them
fails to convert a target. -/
theorem excludes (hE : RovingLaws ops Barred) {xs xs' : List (Excluded ι)}
    {a : Except SeriesError Bool} (h : ∀ x ∈ xs, ∃ X, Barred x.cursor X)
    (hn : Merged.excludes (ops n) v xs = some (a, xs')) :
    (∀ x ∈ xs', ∃ X, Barred x.cursor X) ∧ ∀ e, a = .error e → ∃ why, e = .conversion why := by
  induction xs generalizing a xs' with
  | nil =>
    obtain ⟨rfl, rfl⟩ := Prod.mk.inj (Option.some.inj hn)
    exact ⟨h, by simp⟩
  | cons x xs ih =>
    rw [List.forall_mem_cons] at h
    rw [Merged.excludes_cons] at hn
    cases hmoved : x.moved (ops n) v with
    | none => simp [hmoved] at hn
    | some r =>
      obtain ⟨r, x₁⟩ := r
      obtain ⟨hx₁, hfails⟩ := hE.moved hops h.1 hmoved
      rw [hmoved] at hn
      cases r with
      | error e =>
        obtain ⟨rfl, rfl⟩ := Prod.mk.inj (Option.some.inj hn)
        exact ⟨List.forall_mem_cons.mpr ⟨hx₁, h.2⟩, by simpa using hfails⟩
      | ok _ =>
        dsimp only at hn
        cases hrest : Merged.excludes (ops n) v xs with
        | none => simp [hrest] at hn
        | some r =>
          obtain ⟨r, xs₁⟩ := r
          obtain ⟨hxs₁, hfails⟩ := ih h.2 hrest
          rw [hrest] at hn
          cases r with
          | error e =>
            obtain ⟨rfl, rfl⟩ := Prod.mk.inj (Option.some.inj hn)
            exact ⟨List.forall_mem_cons.mpr ⟨hx₁, hxs₁⟩, hfails⟩
          | ok found =>
            obtain ⟨rfl, rfl⟩ := Prod.mk.inj (Option.some.inj hn)
            exact ⟨List.forall_mem_cons.mpr ⟨hx₁, hxs₁⟩, by simp⟩

end RovingLaws

/-! ### New cursors -/

omit hops in
/-- A merged cursor fetches the first values of its members when it is made. -/
theorem Merged.create_eq_ok_iff {o : CursorOps ι} {included excluded : List ι} :
    Merged.create o included excluded = some (.ok m) ↔ ∃ m₀ xs,
      Merged.refillAll o (List.range included.length) { included, excluded := [] } =
          some (.ok (), m₀) ∧
        Merged.withHeads o excluded = some (.ok xs) ∧ m = { m₀ with excluded := xs } := by
  unfold Merged.create
  cases hfetch : Merged.refillAll o (List.range included.length) { included, excluded := [] } with
  | none => simp
  | some r =>
    obtain ⟨_ | _, m₀⟩ := r
    · simp
    · simp only [Option.map_eq_some_iff, map_eq_ok_iff]
      constructor
      · rintro ⟨_, hheads, xs, rfl, rfl⟩
        exact ⟨m₀, xs, rfl, hheads, rfl⟩
      · rintro ⟨m₀, xs, ⟨⟩, hheads, rfl⟩
        exact ⟨_, hheads, xs, rfl, rfl⟩

/-! ### The same included cursors -/

namespace Merged

/-- Two merged cursors that differ at most in the order of their excluded cursors.  All members stand
before some sequence. -/
structure SameFront (Left Barred : ι → Values → Prop) (m m' : Merged ι) : Prop where
  same : m' = { m with excluded := m'.excluded }
  excluded : m.excluded.Perm m'.excluded
  included : ∀ c ∈ m.included, ∃ S, Left c S
  barred : ∀ x ∈ m.excluded, ∃ X, Barred x.cursor X

omit hops in
theorem refill_with_excluded (o : CursorOps ι) (m : Merged ι) (ys : List (Excluded ι)) (i : Nat) :
    ({ m with excluded := ys } : Merged ι).refill o i =
      (m.refill o i).map fun (a, m₁) => (a, { m₁ with excluded := ys }) := by
  unfold Merged.refill
  cases m.included[i]? with
  | none => rfl
  | some c =>
    dsimp only
    cases o.head c with
    | none => rfl
    | some r => obtain ⟨_ | _ | _, c'⟩ := r <;> rfl

omit hops in
theorem advanceAll_with_excluded (o : CursorOps ι) (target : Value) (places : List Nat)
    (m : Merged ι) (ys : List (Excluded ι)) :
    Merged.advanceAll o target places { m with excluded := ys } =
      (Merged.advanceAll o target places m).map fun (a, m₁) => (a, { m₁ with excluded := ys }) := by
  induction places generalizing m with
  | nil => rfl
  | cons i places ih =>
    rw [Merged.advanceAll, Merged.advanceAll]
    cases m.included[i]? with
    | none => exact ih m
    | some c =>
      dsimp only
      cases o.advanceTo c target with
      | none => rfl
      | some r =>
        obtain ⟨_ | _, c'⟩ := r
        · rfl
        · dsimp only
          rw [refill_with_excluded o { m with included := m.included.set i c' } ys i]
          cases ({ m with included := m.included.set i c' } : Merged ι).refill o i with
          | none => rfl
          | some r =>
            obtain ⟨_ | _, m₁⟩ := r
            · rfl
            · exact ih m₁

omit hops in
theorem advanceTo_with_excluded (o : CursorOps ι) (m : Merged ι) (target : Value)
    (ys : List (Excluded ι)) : ({ m with excluded := ys } : Merged ι).advanceTo o target =
      (m.advanceTo o target).map fun (a, m₁) => (a, { m₁ with excluded := ys }) := by
  unfold Merged.advanceTo
  dsimp only
  split_ifs
  · rfl
  · exact advanceAll_with_excluded o target _
      { m with pending := none, queue := m.queue.dropWhile fun w => w.value.key < target.key } ys

omit hops in
theorem exists_left_of_mem_set {cs : List ι} (hall : ∀ c ∈ cs, ∃ S, Left c S) {c : ι} {S : Values}
    (hc : Left c S) (i : Nat) : ∀ d ∈ cs.set i c, ∃ S, Left d S := by
  intro d hd
  rcases List.mem_or_eq_of_mem_set hd with hd | rfl
  · exact hall d hd
  · exact ⟨S, hc⟩

/-- Fetching the next value of a cursor does not fail. -/
theorem refill_eq (hL : CursorLaws ops Left Target) (hall : ∀ c ∈ m.included, ∃ S, Left c S)
    {a : Except SeriesError Unit} {i : Nat} (hn : m.refill (ops n) i = some (a, m₁)) :
    a = .ok () ∧ m₁.excluded = m.excluded ∧ ∀ c ∈ m₁.included, ∃ S, Left c S := by
  unfold Merged.refill at hn
  cases hc : m.included[i]? with
  | none =>
    rw [hc] at hn
    obtain ⟨rfl, rfl⟩ := Prod.mk.inj (Option.some.inj hn)
    exact ⟨rfl, rfl, hall⟩
  | some c =>
    rw [hc] at hn
    dsimp only at hn
    obtain ⟨S, hS⟩ := hall c (List.mem_of_getElem? hc)
    cases hhead : (ops n).head c with
    | none => simp [hhead] at hn
    | some r =>
      obtain ⟨r, c'⟩ := r
      obtain ⟨rfl, hc'⟩ := hL.head_eq hops hS hhead
      have hset := exists_left_of_mem_set hall hc' i
      rw [hhead] at hn
      cases hfirst : S.head with
      | none =>
        rw [hfirst] at hn
        obtain ⟨rfl, rfl⟩ := Prod.mk.inj (Option.some.inj hn)
        exact ⟨rfl, rfl, hset⟩
      | some u =>
        rw [hfirst] at hn
        obtain ⟨rfl, rfl⟩ := Prod.mk.inj (Option.some.inj hn)
        exact ⟨rfl, rfl, hset⟩

theorem refillAll_eq (hL : CursorLaws ops Left Target) {places : List Nat}
    (hall : ∀ c ∈ m.included, ∃ S, Left c S)
    (hn : Merged.refillAll (ops n) places m = some (.ok (), m₁)) :
    m₁.excluded = m.excluded ∧ ∀ c ∈ m₁.included, ∃ S, Left c S := by
  induction places generalizing m with
  | nil =>
    obtain ⟨-, rfl⟩ := Prod.mk.inj (Option.some.inj hn)
    exact ⟨rfl, hall⟩
  | cons i places ih =>
    rw [Merged.refillAll] at hn
    cases hfetch : m.refill (ops n) i with
    | none => simp [hfetch] at hn
    | some r =>
      obtain ⟨r, m₂⟩ := r
      obtain ⟨rfl, hexcluded, hall₂⟩ := refill_eq hops hL hall hfetch
      rw [hfetch] at hn
      obtain ⟨hexcluded₁, hall₁⟩ := ih hall₂ hn
      exact ⟨hexcluded₁.trans hexcluded, hall₁⟩

/-- Cursors that have been moved on stand before some sequences again. -/
theorem advanceAll_eq (hL : RovingLaws ops Left) {places : List Nat}
    (hall : ∀ c ∈ m.included, ∃ S, Left c S)
    (hn : Merged.advanceAll (ops n) target places m = some (.ok (), m₁)) :
    m₁.excluded = m.excluded ∧ ∀ c ∈ m₁.included, ∃ S, Left c S := by
  induction places generalizing m with
  | nil =>
    obtain ⟨-, rfl⟩ := Prod.mk.inj (Option.some.inj hn)
    exact ⟨rfl, hall⟩
  | cons i places ih =>
    rw [Merged.advanceAll] at hn
    cases hc : m.included[i]? with
    | none =>
      rw [hc] at hn
      exact ih hall hn
    | some c =>
      rw [hc] at hn
      dsimp only at hn
      obtain ⟨S, hS⟩ := hall c (List.mem_of_getElem? hc)
      obtain ⟨b, c₁, S₁, hsettles, hc₁, -⟩ := hL.moves c S target hS
      cases hmove : (ops n).advanceTo c target with
      | none => simp [hmove] at hn
      | some r =>
        have hpatient : Patient fun n => (ops n).advanceTo c target := fun hle hb =>
          (hops hle).advanceTo hb
        obtain rfl := hpatient.eq_of_settles hsettles hmove
        rw [hmove] at hn
        cases b with
        | error e => simp at hn
        | ok _ =>
          dsimp only at hn
          have hset := exists_left_of_mem_set hall hc₁ i
          cases hfetch : ({ m with included := m.included.set i c₁ } : Merged ι).refill (ops n) i with
          | none => simp [hfetch] at hn
          | some r =>
            obtain ⟨r, m₂⟩ := r
            obtain ⟨rfl, hexcluded, hall₂⟩ := refill_eq hops hL.toCursorLaws hset hfetch
            rw [hfetch] at hn
            obtain ⟨hexcluded₁, hall₁⟩ := ih hall₂ hn
            exact ⟨hexcluded₁.trans hexcluded, hall₁⟩

namespace SameFront

/-- **New cursors** with the same included cursors. -/
theorem create (hL : CursorLaws ops Left Target) (hE : RovingLaws ops Barred)
    {included excluded excluded' : List ι} (hleft : ∀ c ∈ included, ∃ S, Left c S)
    (hbarred : ∀ c ∈ excluded, ∃ X, Barred c X) (hperm : excluded.Perm excluded')
    (hn : Merged.create (ops n) included excluded = some (.ok m)) :
    ∃ m', Merged.create (ops n) included excluded' = some (.ok m') ∧
      SameFront Left Barred m m' := by
  obtain ⟨m₀, xs, hfetch, hheads, rfl⟩ := Merged.create_eq_ok_iff.mp hn
  obtain ⟨ys, hheads', hperm'⟩ := Merged.withHeads_perm hperm hheads
  exact ⟨_, Merged.create_eq_ok_iff.mpr ⟨m₀, ys, hfetch, hheads', rfl⟩, rfl, hperm',
    (refillAll_eq hops hL hleft hfetch).2, hE.withHeads hops hbarred hheads⟩

/-- Both take the same turn. -/
theorem follows (hL : CursorLaws ops Left Target) (hE : RovingLaws ops Barred)
    (h : SameFront Left Barred m m') {t : Turn (Merged ι) (Except SeriesError Bool × Merged ι)}
    (ht : m.turn (ops n) = some t) : FollowsTurn ops (SameFront Left Barred) m m' t := by
  have hpatient : Patient fun n => m'.turn (ops n) := fun hle hb => (hops hle).turn hb
  have hpending' : m'.pending = m.pending := by rw [h.same]
  have hqueue' : m'.queue = m.queue := by rw [h.same]
  cases hpending : m.pending with
  | some p =>
    simp only [Merged.turn, hpending] at ht
    refine .inr (.inl ⟨true, m', (Option.some.inj ht).symm, .finish (.of_forall fun n => ?_), h⟩)
    simp [Merged.turn, hpending', hpending]
  | none =>
    cases hqueue : m.queue with
    | nil =>
      simp only [Merged.turn, hpending, hqueue] at ht
      refine .inr (.inl ⟨false, m', (Option.some.inj ht).symm, .finish (.of_forall fun n => ?_), h⟩)
      simp [Merged.turn, hpending', hqueue', hpending, hqueue]
    | cons w queue =>
      rw [hpending] at hpending'
      rw [hqueue] at hqueue'
      obtain ⟨a, m₁, hfetch, hout⟩ := turn_cases hpending hqueue ht
      obtain ⟨rfl, hexcluded, hall⟩ := refill_eq hops hL (m := { m with queue }) h.included hfetch
      have hfetch' : { m' with queue }.refill (ops n) w.index =
          some (.ok (), { m₁ with excluded := m'.excluded }) := by
        have heq : { m' with queue } = { { m with queue } with excluded := m'.excluded } := by
          rw [h.same]
        rw [heq, refill_with_excluded (ops n) { m with queue } m'.excluded w.index, hfetch]
        rfl
      obtain ⟨e, he, -⟩ | ⟨-, ⟨hold, rfl⟩ | ⟨hnew, r, xs, hasked, hout⟩⟩ := hout
      · exact absurd he (by simp)
      · -- the value is dropped
        obtain ⟨k, hlast, hle⟩ : ∃ k, m₁.lastKey = some k ∧ w.value.key ≤ k := by
          simpa [IsNew] using hold
        have hturn := turn_of_old hpending' hqueue' hfetch' hlast hle
        refine .inl ⟨m₁, _, rfl, .of_turn (hpatient.settles hturn), rfl, ?_, hall, ?_⟩
        · rw [hexcluded]
          exact h.excluded
        · rw [hexcluded]
          exact h.barred
      · rw [hexcluded] at hasked
        obtain ⟨hbarred, hfails⟩ := hE.excludes hops h.barred hasked
        obtain ⟨e, m₂, rfl, rfl⟩ | ⟨found, rfl, rfl⟩ := hout
        · exact .inr (.inr ⟨e, m₂, rfl, hfails e rfl⟩)
        · -- the excluded cursors tell the same
          obtain ⟨ys', hasked', hperm⟩ := Merged.excludes_perm h.excluded hasked
          have hturn := turn_of_new hpending' hqueue' hfetch' hnew hasked'
          exact .inl ⟨_, _, rfl, .of_turn (hpatient.settles hturn), rfl, hperm, hall, hbarred⟩

/-- **Excluded cursors in another order** answer all calls alike, whatever the targets. -/
theorem keepsUp (hL : RovingLaws ops Left) (hE : RovingLaws ops Barred) :
    KeepsUp ops (fun _ => True) (SameFront Left Barred) where
  pending h := by rw [h.same]
  take h := ⟨by rw [h.same], h.excluded, h.included, h.barred⟩
  turn h ht := h.follows hops hL.toCursorLaws hE ht
  advanceTo {m m' n target m₁} h _ hn := by
    have hpatient : Patient fun n => m'.advanceTo (ops n) target := fun hle hb =>
      (hops hle).mergedAdvanceTo hb
    refine ⟨{ m₁ with excluded := m'.excluded }, hpatient.settles (n := n) ?_, ?_⟩
    · rw [h.same, advanceTo_with_excluded, hn]
      rfl
    · have hkeeps : m₁.excluded = m.excluded ∧ ∀ c ∈ m₁.included, ∃ S, Left c S := by
        unfold Merged.advanceTo at hn
        dsimp only at hn
        split_ifs at hn
        · obtain ⟨-, rfl⟩ := Prod.mk.inj (Option.some.inj hn)
          exact ⟨rfl, h.included⟩
        · exact advanceAll_eq hops hL (m := { m with pending := none, queue := _ }) h.included hn
      refine ⟨rfl, ?_, hkeeps.2, ?_⟩
      · rw [hkeeps.1]
        exact h.excluded
      · rw [hkeeps.1]
        exact h.barred

end SameFront

end Merged

end Roving

end Recurrence
