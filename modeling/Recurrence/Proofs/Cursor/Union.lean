/-
Recurrence/Proofs/Cursor/Union.lean

A merged cursor is a cursor over the union of its members, less what is excluded.

The first of the queue is the least value that is left.  Once it is taken out, only values
at or after it are left.  It is dropped if it repeats the value before it or if an excluded
cursor produces it, and neither changes what remains to be handed out (`Stands.turn`).

Nothing bounds how many values are dropped in a row.  A search ends because finitely many
values of every member come before the one that it finds, or because the members are finite
(`Stands.hasNext`).
-/
import Mathlib.Algebra.Order.BigOperators.Group.Finset
import Mathlib.Data.Set.Card
import Mathlib.Data.Set.Finite.Lattice
import Recurrence.Proofs.Cursor.Queue

namespace Recurrence

namespace Merged

variable {ι : Type} {ops : Nat → CursorOps ι} {Left : ι → Values → Prop} {Target : Value → Prop}
  {Fits : Value → Prop} {m : Merged ι} {T : Nat → Values} {S : Values} {u v target : Value}

/-! ### What remains to be handed out -/

/-- A value that an included cursor has left, that comes after the last one, and that is not
excluded. -/
def Fresh (m : Merged ι) (T : Nat → Values) (Xs : List Values) (u : Value) : Prop :=
  (∃ i, u ∈ T i) ∧ (∀ k ∈ m.lastKey, k < u.key) ∧ ¬ ∃ X ∈ Xs, u ∈ X

/-- A value that remains to be handed out. -/
def Remains (m : Merged ι) (T : Nat → Values) (Xs : List Values) (u : Value) : Prop :=
  u ∈ m.pending ∨ Fresh m T Xs u

/-- What a merged cursor has in its queue, what its excluded cursors wait with, and what it
holds. -/
structure Stands (Left : ι → Values → Prop) (Fits : Value → Prop) (m : Merged ι)
    (T : Nat → Values) (Xs : List Values) : Prop where
  queued : Queued Left Fits m T fun _ => False
  excluded : List.Forall₂ (Excluded.Waits Left) m.excluded Xs
  pending : ∀ p ∈ m.pending, Fits p ∧ m.lastKey = some p.key

/-- What the values of all included cursors have in common: they are of one kind, and cursors
can be moved to them. -/
structure Alike (Fits Target : Value → Prop) : Prop where
  kind : ∀ u v, Fits u → Fits v → u.hasTime = v.hasTime
  target : ∀ v, Fits v → Target v

theorem Alike.order (hA : Alike Fits Target) (u v : Value) (hu : Fits u) (hv : Fits v) :
    u ≤ v ↔ u.key ≤ v.key :=
  Value.le_iff_key (hA.kind u v hu hv)

theorem mem_of_mem_update {i j : Nat} (hT : T j = .cons v S) (hu : u ∈ Function.update T j S i) :
    u ∈ T i := by
  by_cases hij : i = j
  · subst hij
    rw [Function.update_self] at hu
    exact hT ▸ Stream'.Seq.mem_cons_of_mem _ hu
  · rwa [Function.update_of_ne hij] at hu

theorem exists_mem_iff {j : Nat} (hT : T j = .cons v S) :
    (∃ i, u ∈ T i) ↔ u = v ∨ ∃ i, u ∈ Function.update T j S i := by
  constructor
  · rintro ⟨i, hi⟩
    by_cases hij : i = j
    · subst hij
      rw [hT] at hi
      refine (Stream'.Seq.eq_or_mem_of_mem_cons hi).imp_right fun hu => ⟨i, ?_⟩
      rwa [Function.update_self]
    · exact .inr ⟨i, by rwa [Function.update_of_ne hij]⟩
  · rintro (rfl | ⟨i, hi⟩)
    · exact ⟨j, hT ▸ Stream'.Seq.mem_cons _ _⟩
    · exact ⟨i, mem_of_mem_update hT hi⟩

/-- Taking out a value with a property leaves fewer values with it in the cursors. -/
theorem Queued.count_lt (h : Queued Left Fits m T fun _ => False) {P : Value → Prop}
    (hfinite : ∀ i, {u | u ∈ T i ∧ P u}.Finite) {w : Waiting} (hw : w ∈ m.queue)
    (hT : T w.index = .cons w.value S) (hP : P w.value) :
    ∑ i ∈ Finset.range m.included.length, {u | u ∈ Function.update T w.index S i ∧ P u}.ncard <
      ∑ i ∈ Finset.range m.included.length, {u | u ∈ T i ∧ P u}.ncard := by
  have hle : ∀ i, {u | u ∈ Function.update T w.index S i ∧ P u}.ncard ≤
      {u | u ∈ T i ∧ P u}.ncard := fun i =>
    Set.ncard_le_ncard (fun u hu => ⟨mem_of_mem_update hT hu.1, hu.2⟩) (hfinite i)
  have hlt : {u | u ∈ Function.update T w.index S w.index ∧ P u}.ncard <
      {u | u ∈ T w.index ∧ P u}.ncard := by
    refine Set.ncard_lt_ncard ⟨fun u hu => ⟨mem_of_mem_update hT hu.1, hu.2⟩, fun hall => ?_⟩
      (hfinite _)
    -- the values ascend, so the one that is taken out does not come again
    have hmem := (hall ⟨hT ▸ Stream'.Seq.mem_cons _ _, hP⟩).1
    rw [Function.update_self] at hmem
    have hasc := h.ascending w.index
    rw [hT] at hasc
    exact absurd (hasc.cons_elim.1 _ hmem) (lt_irrefl _)
  have hindex : w.index ∈ Finset.range m.included.length := by
    obtain ⟨-, c, -, hc, -⟩ := h.waiting w hw
    exact Finset.mem_range.mpr (List.getElem?_eq_some_iff.mp hc).1
  exact Finset.sum_lt_sum (fun i _ => hle i) ⟨w.index, hindex, hlt⟩

/-- **A search ends** after finitely many turns if each of them takes out a value with a property, of
which the cursors have finitely many.  Then a value is held, or nothing waits any more. -/
theorem Queued.search {I : Merged ι → (Nat → Values) → Prop} {P : Value → Prop}
    (hqueued : ∀ m T, I m T → Queued Left Fits m T fun _ => False)
    (hturn : ∀ m T w queue, I m T → m.pending = none → m.queue = w :: queue →
      P w.value ∧ ∃ m' S, Settles (fun n => m.turn (ops n)) (.again m') ∧
        T w.index = .cons w.value S ∧ m'.included.length = m.included.length ∧
        I m' (Function.update T w.index S))
    (h : I m T) (hfinite : ∀ i, {u | u ∈ T i ∧ P u}.Finite) :
    ∃ m' T', LoopEnds (fun n => Merged.turn (ops n)) m (.ok m'.pending.isSome, m') ∧ I m' T' ∧
      (∀ i, ∀ u ∈ T' i, u ∈ T i) ∧ (m'.pending = none → m'.queue = []) := by
  -- on the number of values with `P` that the cursors have left
  induction hk : ∑ i ∈ Finset.range m.included.length, {u | u ∈ T i ∧ P u}.ncard using
    Nat.strong_induction_on generalizing m T with
  | _ k ih =>
    cases hpending : m.pending with
    | some p =>
      refine ⟨m, T, LoopEnds.finish ?_, h, fun _ _ hu => hu, fun hnone => ?_⟩
      · filter_upwards with n
        simp only [Merged.turn, hpending, Option.isSome_some]
      · exact absurd (hpending.symm.trans hnone) (by simp)
    | none =>
      cases hqueue : m.queue with
      | nil =>
        refine ⟨m, T, LoopEnds.finish ?_, h, fun _ _ hu => hu, fun _ => hqueue⟩
        filter_upwards with n
        simp only [Merged.turn, hpending, hqueue, Option.isSome_none]
      | cons w queue =>
        obtain ⟨hPw, m₁, S, hturn, hT, hlength, h₁⟩ := hturn m T w queue h hpending hqueue
        have hsub : ∀ i, ∀ u ∈ Function.update T w.index S i, u ∈ T i := fun i u hu =>
          mem_of_mem_update hT hu
        have hless := (hqueued m T h).count_lt hfinite (hqueue ▸ List.mem_cons_self) hT hPw
        rw [hk, ← hlength] at hless
        obtain ⟨m', T', hloop, h', hsub', hend⟩ := ih _ hless h₁
          (fun i => (hfinite i).subset fun u hu => ⟨hsub i u hu.1, hu.2⟩) rfl
        exact ⟨m', T', hloop.again hturn, h', fun i u hu => hsub i u (hsub' i u hu), hend⟩

/-- A held value that is not before the target stays held, and nothing is moved. -/
theorem advanceTo_of_held (o : CursorOps ι) {p : Value} (hp : m.pending = some p)
    (hle : ¬ p < target) : m.advanceTo o target = some (.ok (), m) := by
  simp only [Merged.advanceTo, hp, hle, decide_false, Bool.not_false, if_true]

/-- **Moving ahead** where nothing is held that is not before the target moves the cursors that wait
with a value before it.  All of them drop what is before the target. -/
theorem Queued.advanceTo (hL : CursorLaws ops Left Target) (h : Queued Left Fits m T fun _ => False)
    (htarget : Target target) (hkey : ∀ v, Fits v → (v < target ↔ v.key < target.key))
    (hdrops : ∀ p ∈ m.pending, p < target) :
    ∃ included queue T', Settles (fun n => m.advanceTo (ops n) target)
        (.ok (), { m with included, queue, pending := none }) ∧
      Queued Left Fits { m with included, queue, pending := none } T' (fun _ => False) ∧
      ∀ i, DropsTo target (T i) (T' i) := by
  obtain ⟨hqueued, hnodup, hplaces, hstale, hkept⟩ := h.takeStale target.key
  obtain ⟨included, queue, T', hmoved, hqueued', hdropped, hsame⟩ :=
    hqueued.advanceAll hL htarget hnodup hplaces
  refine ⟨included, queue, T', ?_, hqueued', fun i => ?_⟩
  · filter_upwards [hmoved] with n hn
    unfold Merged.advanceTo
    rw [if_neg]
    · exact hn
    · cases hp : m.pending with
      | none => simp
      | some p => simpa using hdrops p hp
  · -- cursors that wait with a value before the target are moved, all others stay
    by_cases hi : i ∈ (m.queue.takeWhile fun w => decide (w.value.key < target.key)).map
        Waiting.index
    · obtain ⟨v, S, hTi, hlt⟩ := hstale i hi
      have hfits := h.fits i v (hTi ▸ Stream'.Seq.mem_cons _ _)
      have hrest := hdropped i hi
      rw [if_pos hi, hTi, Stream'.Seq.tail_cons] at hrest
      rw [hTi]
      exact hrest.cons ((hkey v hfits).mpr hlt)
    · rw [hsame i hi, if_neg hi]
      refine DropsTo.stay fun v hv => ?_
      have hmem : v ∈ T i := Stream'.Seq.mem_iff_exists_get?.mpr ⟨0, hv.symm⟩
      rw [hkey v (h.fits i v hmem)]
      exact hkept i hi v hv

/-- A value that does not come after the last one is dropped. -/
theorem turn_of_old {o : CursorOps ι} {w : Waiting} {queue : List Waiting} {m₁ : Merged ι}
    (hpending : m.pending = none) (hqueue : m.queue = w :: queue)
    (hfetch : { m with queue }.refill o w.index = some (.ok (), m₁)) {k : List Int}
    (hlast : m₁.lastKey = some k) (hle : w.value.key ≤ k) : m.turn o = some (.again m₁) := by
  unfold Merged.turn
  rw [hpending, hqueue]
  dsimp only
  rw [hpending] at hfetch
  rw [hfetch]
  simp [hlast, hle]

/-- A value that comes after the last one is held, unless it is excluded. -/
theorem turn_of_new {o : CursorOps ι} {w : Waiting} {queue : List Waiting} {m₁ : Merged ι}
    (hpending : m.pending = none) (hqueue : m.queue = w :: queue)
    (hfetch : { m with queue }.refill o w.index = some (.ok (), m₁))
    (hnew : ∀ k ∈ m₁.lastKey, k < w.value.key) {found : Bool} {xs : List (Excluded ι)}
    (hasked : Merged.excludes o w.value m₁.excluded = some (.ok found, xs)) :
    m.turn o = some (.again { m₁ with
      excluded := xs
      lastKey := some w.value.key
      pending := if found then m₁.pending else some w.value }) := by
  unfold Merged.turn
  rw [hpending, hqueue]
  dsimp only
  rw [hpending] at hfetch
  rw [hfetch]
  dsimp only
  rw [if_neg, hasked]
  · cases found <;> rfl
  · cases hlast : m₁.lastKey with
    | none => simp
    | some k => simp [hnew k hlast]

namespace Stands

variable {Xs : List Values} {U U' : Values}

theorem fits (h : Stands Left Fits m T Xs) (hu : Remains m T Xs u) : Fits u := by
  rcases hu with hu | ⟨⟨i, hi⟩, -⟩
  · exact (h.pending u hu).1
  · exact h.queued.fits i u hi

/-- A held value comes before all others that remain. -/
theorem pending_lt (hA : Alike Fits Target) (h : Stands Left Fits m T Xs) {p : Value}
    (hp : p ∈ m.pending) (hu : Fresh m T Xs u) : p < u := by
  obtain ⟨hfits, hlast⟩ := h.pending p hp
  rw [Value.lt_iff_key (hA.kind _ _ hfits (h.fits (.inr hu)))]
  exact hu.2.1 _ hlast

/-- Once a new value has been taken out and is the last one, the values after it remain as they
did. -/
theorem fresh_update_iff {m' : Merged ι} {Xs' : List Values} {j : Nat} (hT : T j = .cons v S)
    (hnew : ∀ k ∈ m.lastKey, k < v.key) (hlast : m'.lastKey = some v.key) (hne : u ≠ v)
    (hafter : (∃ i, u ∈ T i) → v.key < u.key)
    (hXs : (∃ i, u ∈ T i) → ((∃ X ∈ Xs', u ∈ X) ↔ ∃ X ∈ Xs, u ∈ X)) :
    Fresh m' (Function.update T j S) Xs' u ↔ Fresh m T Xs u := by
  have hin : (∃ i, u ∈ Function.update T j S i) ↔ ∃ i, u ∈ T i := by
    rw [exists_mem_iff hT]
    exact (or_iff_right hne).symm
  rw [Fresh, Fresh, hin]
  refine and_congr_right fun hu => and_congr ?_ (not_congr (hXs hu))
  have hlt := hafter hu
  rw [hlast]
  simp only [Option.mem_some_iff, forall_eq', hlt, true_iff]
  exact fun k hk => (hnew k hk).trans hlt

/-- What does not come after the last value is not fresh, so it may be taken out. -/
theorem fresh_update_iff_of_old {m' : Merged ι} {j : Nat} (hT : T j = .cons v S)
    (hold : ¬ ∀ k ∈ m.lastKey, k < v.key) (hlast : m'.lastKey = m.lastKey) :
    Fresh m' (Function.update T j S) Xs u ↔ Fresh m T Xs u := by
  rw [Fresh, Fresh, hlast]
  refine and_congr_left fun hu => ?_
  rw [exists_mem_iff hT]
  refine (or_iff_right ?_).symm
  rintro rfl
  exact hold hu.1

section TakenOut

variable {m' : Merged ι} {T' : Nat → Values} {Xs' : List Values} (hpending : m.pending = none)
  (hfresh : ∀ u, u ≠ v → (Fresh m' T' Xs' u ↔ Fresh m T Xs u))
include hpending hfresh

/-- A value that did not remain is dropped. -/
theorem remains_iff_of_dropped (hpending' : m'.pending = none) (hlast : m'.lastKey = some v.key)
    (hv : ¬ Fresh m T Xs v) (u : Value) : Remains m' T' Xs' u ↔ Remains m T Xs u := by
  have hsame : Fresh m' T' Xs' u ↔ Fresh m T Xs u := by
    by_cases hne : u = v
    · subst hne
      exact iff_of_false (fun hu => lt_irrefl _ (hu.2.1 _ hlast)) hv
    · exact hfresh u hne
  simp only [Remains, hpending, hpending', Option.mem_def, reduceCtorEq, false_or, hsame]

/-- A value that remained is held. -/
theorem remains_iff_of_held (hpending' : m'.pending = some v) (hv : Fresh m T Xs v) (u : Value) :
    Remains m' T' Xs' u ↔ Remains m T Xs u := by
  simp only [Remains, hpending, hpending', Option.mem_def, reduceCtorEq, false_or, Option.some.injEq]
  by_cases hne : u = v
  · subst hne
    exact iff_of_true (.inl rfl) hv
  · exact (or_iff_right fun hu => hne hu.symm).trans (hfresh u hne)

end TakenOut

/-- **Taking the first waiting value** leaves what remains as it is. -/
theorem turn (hL : CursorLaws ops Left Target) (hA : Alike Fits Target)
    (h : Stands Left Fits m T Xs) {w : Waiting} {queue : List Waiting} (hpending : m.pending = none)
    (hqueue : m.queue = w :: queue) :
    ∃ m' S Xs', Settles (fun n => m.turn (ops n)) (.again m') ∧ T w.index = .cons w.value S ∧
      (∀ i, ∀ u ∈ T i, w.value ≤ u) ∧ m'.included.length = m.included.length ∧
      Stands Left Fits m' (Function.update T w.index S) Xs' ∧
      ∀ u, Remains m' (Function.update T w.index S) Xs' u ↔ Remains m T Xs u := by
  obtain ⟨S, included, queue', hT, hleast, hfetch, hlength, hqueued⟩ :=
    h.queued.takeFirst hL hA.order hqueue
  have hfits : Fits w.value := h.queued.fits w.index _ (hT ▸ Stream'.Seq.mem_cons _ _)
  by_cases hnew : ∀ k ∈ m.lastKey, k < w.value.key
  · obtain ⟨found, xs', Xs', hasked, hwait, hfound, hlater⟩ :=
      hL.excludes (hA.target _ hfits) h.excluded
    -- the excluded cursors may hold the value itself, but the others remain as they did
    have hfresh : ∀ {m' : Merged ι}, m'.lastKey = some w.value.key → ∀ u, u ≠ w.value →
        (Fresh m' (Function.update T w.index S) Xs' u ↔ Fresh m T Xs u) := by
      intro m' hlast u hne
      have hafter : (∃ i, u ∈ T i) → w.value < u := fun ⟨i, hi⟩ =>
        lt_of_le_of_ne (hleast i u hi) hne.symm
      refine fresh_update_iff hT hnew hlast hne (fun hu => ?_) fun hu => hlater u (hafter hu)
      rw [← Value.lt_iff_key (hA.kind _ _ hfits (h.queued.fits _ u hu.choose_spec))]
      exact hafter hu
    cases found with
    | true =>
      -- an excluded cursor has the value, so it is dropped
      refine ⟨⟨included, xs', queue', some w.value.key, none⟩, S, Xs', ?_, hT, hleast, hlength,
        ⟨hqueued.frame rfl rfl, hwait, fun p hp => absurd hp (by simp)⟩,
        remains_iff_of_dropped hpending (hfresh rfl) rfl rfl fun hu => hu.2.2 (hfound.mp rfl)⟩
      filter_upwards [hfetch, hasked] with n hn hn'
      rw [turn_of_new hpending hqueue hn hnew hn', hpending]
      rfl
    | false =>
      -- no excluded cursor has it, so it is held
      have hv : Fresh m T Xs w.value := ⟨⟨_, hT ▸ Stream'.Seq.mem_cons _ _⟩, hnew,
        fun hu => absurd (hfound.mpr hu) (by simp)⟩
      refine ⟨⟨included, xs', queue', some w.value.key, some w.value⟩, S, Xs', ?_, hT, hleast,
        hlength, ⟨hqueued.frame rfl rfl, hwait, ?_⟩,
        remains_iff_of_held hpending (hfresh rfl) rfl hv⟩
      · filter_upwards [hfetch, hasked] with n hn hn'
        rw [turn_of_new hpending hqueue hn hnew hn']
        rfl
      · rintro _ ⟨⟩
        exact ⟨hfits, rfl⟩
  · obtain ⟨k, hlast, hle⟩ : ∃ k, m.lastKey = some k ∧ w.value.key ≤ k := by
      push Not at hnew
      exact hnew
    refine ⟨{ m with included, queue := queue' }, S, Xs, ?_, hT, hleast, hlength,
      ⟨hqueued, h.excluded, h.pending⟩, fun u => or_congr_right (fresh_update_iff_of_old hT hnew rfl)⟩
    filter_upwards [hfetch] with n hn
    exact turn_of_old hpending hqueue hn hlast hle

end Stands

/-- What remains of a merged cursor are the values with `F`. -/
def Holds (Left : ι → Values → Prop) (Fits F : Value → Prop) (m : Merged ι) (T : Nat → Values) :
    Prop :=
  ∃ Xs, Stands Left Fits m T Xs ∧ ∀ u, Remains m T Xs u ↔ F u

/-- **Each turn of a search** leaves what remains as it is, and takes out a value that does not come
after any of it. -/
theorem Holds.turn {F : Value → Prop} (hL : CursorLaws ops Left Target) (hA : Alike Fits Target)
    (h : Holds Left Fits F m T) {w : Waiting} {queue : List Waiting} (hpending : m.pending = none)
    (hqueue : m.queue = w :: queue) :
    (∀ u, F u → w.value ≤ u) ∧ ∃ m' S, Settles (fun n => m.turn (ops n)) (.again m') ∧
      T w.index = .cons w.value S ∧ m'.included.length = m.included.length ∧
      Holds Left Fits F m' (Function.update T w.index S) := by
  obtain ⟨Xs, h, hF⟩ := h
  obtain ⟨m', S, Xs', hturn, hT, hleast, hlength, h', hsame⟩ := h.turn hL hA hpending hqueue
  refine ⟨fun u hu => ?_, m', S, hturn, hT, hlength, Xs', h', fun u => (hsame u).trans (hF u)⟩
  rcases (hF u).mpr hu with hu | ⟨⟨i, hi⟩, -⟩
  · exact absurd (hpending.symm.trans hu) (by simp)
  · exact hleast i u hi

namespace Stands

variable {Xs : List Values}

/-- **The search for the next value ends** if finitely many values come up to one that remains, or
if all members are finite.  It holds the least value that remains, or there is none. -/
theorem hasNext (hL : CursorLaws ops Left Target) (hA : Alike Fits Target)
    (h : Stands Left Fits m T Xs) {P : Value → Prop} (hfinite : ∀ i, {u | u ∈ T i ∧ P u}.Finite)
    (hP : (∀ v, P v) ∨ ∃ u, Remains m T Xs u ∧ ∀ v ≤ u, P v) :
    ∃ m' T' Xs', Settles (fun n => m.hasNext (ops n) n) (.ok m'.pending.isSome, m') ∧
      Stands Left Fits m' T' Xs' ∧ (∀ u, Remains m' T' Xs' u ↔ Remains m T Xs u) ∧
      (∀ i, ∀ u ∈ T' i, u ∈ T i) ∧ (m'.pending = none → ∀ u, ¬ Remains m' T' Xs' u) := by
  have hturn : ∀ m₁ T₁ w queue, Holds Left Fits (Remains m T Xs) m₁ T₁ → m₁.pending = none →
      m₁.queue = w :: queue → P w.value ∧ ∃ m' S, Settles (fun n => m₁.turn (ops n)) (.again m') ∧
        T₁ w.index = .cons w.value S ∧ m'.included.length = m₁.included.length ∧
        Holds Left Fits (Remains m T Xs) m' (Function.update T₁ w.index S) := by
    intro m₁ T₁ w queue h₁ hpending hqueue
    obtain ⟨hle, hturn⟩ := h₁.turn hL hA hpending hqueue
    refine ⟨?_, hturn⟩
    rcases hP with hP | ⟨u, hu, hP⟩
    · exact hP _
    · exact hP _ (hle u hu)
  obtain ⟨m', T', hloop, ⟨Xs', h', hsame⟩, hsub, hend⟩ :=
    Queued.search (fun _ _ ⟨_, h, _⟩ => h.queued) hturn ⟨Xs, h, fun _ => Iff.rfl⟩ hfinite
  refine ⟨m', T', Xs', hloop.settles, h', hsame, hsub, fun hpending u hu => ?_⟩
  rcases hu with hu | ⟨⟨i, hi⟩, -⟩
  · exact absurd (hpending.symm.trans hu) (by simp)
  · obtain ⟨w, hw, -⟩ := h'.queued.exists_waiting hi
    exact absurd (hend hpending ▸ hw) List.not_mem_nil

/-- Behind a held value the others that remain are left. -/
theorem take (h : Stands Left Fits m T Xs) : Stands Left Fits { m with pending := none } T Xs where
  queued := h.queued.frame rfl rfl
  excluded := h.excluded
  pending _ hp := absurd hp (by simp)

/-- **Moving ahead** takes away what is before the target, and nothing else. -/
theorem advanceTo (hL : CursorLaws ops Left Target) (hA : Alike Fits Target)
    (h : Stands Left Fits m T Xs) (htarget : Target target)
    (hkey : ∀ v, Fits v → (v < target ↔ v.key < target.key)) :
    ∃ m' T', Settles (fun n => m.advanceTo (ops n) target) (.ok (), m') ∧
      Stands Left Fits m' T' Xs ∧ (∀ i, ∀ u ∈ T' i, u ∈ T i) ∧
      ∀ u, Remains m' T' Xs u ↔ Remains m T Xs u ∧ ¬ u < target := by
  by_cases hkeeps : ∃ p, m.pending = some p ∧ ¬ p < target
  · -- the held value is not before the target, so nothing is
    obtain ⟨p, hp, hle⟩ := hkeeps
    refine ⟨m, T, .of_forall fun n => advanceTo_of_held (ops n) hp hle, h, fun _ _ hu => hu,
      fun u => (and_iff_left_of_imp fun hu => ?_).symm⟩
    rcases hu with hu | hu
    · rwa [Option.mem_unique hu hp]
    · exact not_lt.mpr ((not_lt.mp hle).trans (h.pending_lt hA hp hu).le)
  · have hdrops : ∀ p ∈ m.pending, p < target := by
      intro p hp
      by_contra hle
      exact hkeeps ⟨p, hp, hle⟩
    obtain ⟨included, queue, T', hmoved, hqueued', hT⟩ := h.queued.advanceTo hL htarget hkey hdrops
    have hmem : ∀ i u, u ∈ T' i ↔ u ∈ T i ∧ ¬ u < target := fun i u =>
      (hT i).mem_iff (h.queued.ascending i)
    refine ⟨_, T', hmoved, ⟨hqueued', h.excluded, fun p hp => absurd hp (by simp)⟩,
      fun i u hu => ((hmem i u).mp hu).1, fun u => ?_⟩
    have hleft : Remains { m with included, queue, pending := none } T' Xs u ↔
        Fresh m T Xs u ∧ ¬ u < target := by
      simp only [Remains, Fresh, Option.mem_def, reduceCtorEq, false_or, hmem]
      constructor
      · rintro ⟨⟨i, hi, hle⟩, hrest⟩
        exact ⟨⟨⟨i, hi⟩, hrest⟩, hle⟩
      · rintro ⟨⟨⟨i, hi⟩, hrest⟩, hle⟩
        exact ⟨⟨i, hi, hle⟩, hrest⟩
    refine hleft.trans (and_congr_left fun hle => (or_iff_right fun hp => ?_).symm)
    exact hle (hdrops u hp)

end Stands

/-! ### Making a merged cursor -/

/-- The values that at least one included cursor produces and no excluded one. -/
def Produced (Ss Es : List Values) (v : Value) : Prop := (∃ S ∈ Ss, v ∈ S) ∧ ¬ ∃ E ∈ Es, v ∈ E

/-- **A new merged cursor** stands before all values that are produced. -/
theorem create_stands (hL : CursorLaws ops Left Target) {included excluded : List ι}
    {Ss Es : List Values} (hincluded : List.Forall₂ Left included Ss)
    (hexcluded : List.Forall₂ Left excluded Es) (hfits : ∀ S ∈ Ss, ∀ v ∈ S, Fits v) :
    ∃ m T, Settles (fun n => Merged.create (ops n) included excluded) (.ok m) ∧
      Stands Left Fits m T Es ∧ (∀ i, T i = .nil ∨ T i ∈ Ss) ∧
      (∀ u, (∃ i, u ∈ T i) ↔ ∃ S ∈ Ss, u ∈ S) ∧ ∀ u, Remains m T Es u ↔ Produced Ss Es u := by
  obtain ⟨included', queue, T, hfetches, hqueued, hT, hmem⟩ := Queued.fetchFirst hL hincluded hfits
  obtain ⟨xs, hheads, hwait⟩ := hL.withHeads hexcluded
  refine ⟨{ included := included', excluded := xs, queue }, T, ?_,
    ⟨hqueued.frame rfl rfl, hwait, fun p hp => absurd hp (by simp)⟩, hT, hmem, fun u => ?_⟩
  · filter_upwards [hfetches, hheads] with n hn hn'
    simp only [Merged.create, hn, hn', Option.map_some]
    rfl
  · simp only [Remains, Fresh, Produced, Option.mem_def, reduceCtorEq, false_or, false_implies,
      implies_true, true_and]
    exact and_congr_left fun _ => hmem u

/-! ### Calls -/

/-- A merged cursor stands before a sequence; its members may be known to be finite. -/
def Before (Left : ι → Values → Prop) (Fits : Value → Prop) (finite : Prop) (m : Merged ι)
    (U : Values) : Prop :=
  ∃ T Xs, Stands Left Fits m T Xs ∧ U.Pairwise (· < ·) ∧ (∀ u, u ∈ U ↔ Remains m T Xs u) ∧
    (finite → ∀ i, {u | u ∈ T i}.Finite)

end Merged

/-- The operations of merged cursors over the operations of their members. -/
def Merged.ops {ι : Type} (members : Nat → CursorOps ι) (n : Nat) : CursorOps (Merged ι) where
  hasNext m := m.hasNext (members n) n
  next m := m.next (members n) n
  advanceTo m target := m.advanceTo (members n) target

/-- An answer that has found what the call looks for. -/
def CursorAnswer.Found (a : CursorAnswer) : Prop := a ≠ .more false ∧ ∀ e, a ≠ .failed e

/-- Values of a kind compare with a target by key alone.  A date-time at the hour at which plain
dates sort has the key of a date. -/
def Value.KeyDecides (target : Value) (timed : Bool) : Prop :=
  timed = true ∨ target.time ≠ some ⟨-1, 0, 0⟩

theorem Value.KeyDecides.lt_iff {v target : Value} {timed : Bool} (h : target.KeyDecides timed)
    (hv : v.hasTime = timed) : v < target ↔ v.key < target.key := by
  refine or_iff_left ?_
  rintro ⟨hkey, hnone, hsome⟩
  have htimed : timed = false := by rw [← hv, Value.hasTime, hnone]; rfl
  refine h.elim (fun ht => absurd (htimed.symm.trans ht) (by simp)) fun hne => hne ?_
  -- the times of day have the same key
  obtain ⟨d, x⟩ := v
  obtain ⟨e, y⟩ := target
  obtain rfl : x = none := hnone
  obtain ⟨t, rfl⟩ := Option.ne_none_iff_exists'.mp hsome
  have := List.append_inj_right hkey rfl
  obtain ⟨a, b, c⟩ := t
  simp only [TimeOfDay.key, List.cons.injEq, and_true] at this
  obtain ⟨rfl, rfl, rfl⟩ := this
  rfl

namespace Merged

variable {ι : Type} {members : Nat → CursorOps ι} {Left : ι → Values → Prop}
  {Target Fits : Value → Prop} {finite : Prop} {timed : Bool} {m : Merged ι} {U U' : Values}

/-- **Looking for the next value** finds the first of the sequence. -/
theorem Before.hasNext (hL : CursorLaws members Left Target) (hA : Alike Fits Target)
    (h : Before Left Fits finite m U) (hfound : finite ∨ U ≠ .nil) :
    ∃ m', Settles (fun n => m.hasNext (members n) n) (.ok U.head.isSome, m') ∧
      Before Left Fits finite m' U ∧ m'.pending = U.head := by
  obtain ⟨T, Xs, hstands, hasc, hmem, hfinite⟩ := h
  obtain ⟨P, hfiniteP, hP⟩ : ∃ P : Value → Prop, (∀ i, {u | u ∈ T i ∧ P u}.Finite) ∧
      ((∀ v, P v) ∨ ∃ u, Remains m T Xs u ∧ ∀ v ≤ u, P v) := by
    -- the search ends with the last member, or with the first value that remains
    rcases hfound with hfin | hne
    · exact ⟨fun _ => True, fun i => (hfinite hfin i).subset fun u hu => hu.1, .inl fun _ => trivial⟩
    · cases U using Stream'.Seq.recOn with
      | nil => exact absurd rfl hne
      | cons u U =>
        have hu := (hmem u).mp (Stream'.Seq.mem_cons u U)
        refine ⟨(· ≤ u), fun i => ?_, .inr ⟨u, hu, fun _ hv => hv⟩⟩
        have hbelow := hstands.queued.finite hL (hA.target u (hstands.fits hu)) i
        refine (hbelow.insert u).subset fun v hv => ?_
        exact hv.2.eq_or_lt.imp_right fun hlt => ⟨hv.1, hlt⟩
  obtain ⟨m', T', Xs', hsettles, hstands', hsame, hsub, hend⟩ := hstands.hasNext hL hA hfiniteP hP
  have hmem' : ∀ u, u ∈ U ↔ Remains m' T' Xs' u := fun u => (hmem u).trans (hsame u).symm
  have hpending : m'.pending = U.head := by
    cases hp : m'.pending with
    | none =>
      cases U using Stream'.Seq.recOn with
      | nil => rfl
      | cons u U => exact absurd ((hmem' u).mp (Stream'.Seq.mem_cons u U)) (hend hp u)
    | some p =>
      have hpU := (hmem' p).mpr (.inl hp)
      obtain ⟨U₁, rfl⟩ := Ascending.eq_cons hasc hpU fun u hu => by
        rcases (hmem' u).mp hu with hu | hu
        · exact (Option.mem_unique hp hu).le
        · exact (hstands'.pending_lt hA hp hu).le
      rfl
  refine ⟨m', hpending ▸ hsettles, ⟨T', Xs', hstands', hasc, hmem', fun hfin i => ?_⟩, hpending⟩
  exact (hfinite hfin i).subset fun u hu => hsub i u hu

/-- Handing out the value that is held leaves the others. -/
theorem Before.tail (hA : Alike Fits Target) {v : Value} (h : Before Left Fits finite m (.cons v U))
    (hp : m.pending = some v) : Before Left Fits finite { m with pending := none } U := by
  obtain ⟨T, Xs, hstands, hasc, hmem, hfinite⟩ := h
  refine ⟨T, Xs, hstands.take, hasc.cons_elim.2, fun u => ?_, hfinite⟩
  rw [Ascending.mem_tail_iff hasc, hmem]
  constructor
  · rintro ⟨hu | hu, hlt⟩
    · exact absurd hlt (Option.mem_unique hp hu ▸ lt_irrefl _)
    · exact .inr hu
  · rintro (hu | hu)
    · exact absurd hu (by simp)
    · exact ⟨.inr hu, hstands.pending_lt hA hp hu⟩

section Stepping

variable {ops : Nat → CursorOps ι} {m m' : Merged ι} {b : Bool} {v : Value}

/-- A step hands out what the search holds. -/
theorem settles_next_of_pending (h : Settles (fun n => m.hasNext (ops n) n) (.ok b, m'))
    (hp : m'.pending = some v) :
    Settles (fun n => (Merged.ops ops n).ask .next m) (.value v, { m' with pending := none }) := by
  filter_upwards [h] with n hn
  simp only [CursorOps.ask, Merged.ops, Merged.next, hn, hp, Option.map_some]
  rfl

/-- A step fails if the search holds nothing. -/
theorem settles_next_of_none (h : Settles (fun n => m.hasNext (ops n) n) (.ok b, m'))
    (hp : m'.pending = none) :
    Settles (fun n => (Merged.ops ops n).ask .next m) (.failed (.noMoreInstances none), m') := by
  filter_upwards [h] with n hn
  simp only [CursorOps.ask, Merged.ops, Merged.next, hn, hp, Option.map_some]
  rfl

end Stepping

/-- **A merged cursor answers each call** as the cursor over its sequence does, if that finds what
it looks for or all members are finite. -/
theorem Before.ask (hL : CursorLaws members Left Target) (hA : Alike Fits Target)
    (hkind : ∀ v, Fits v → v.hasTime = timed) (h : Before Left Fits finite m U) {call : CursorCall}
    {a : CursorAnswer} (hcall : call.Aims fun target => Target target ∧ target.KeyDecides timed)
    (hfollows : Follows (.noMoreInstances none) id U call a U') (hfound : finite ∨ a.Found) :
    ∃ m', Settles (fun n => (Merged.ops members n).ask call m) (a, m') ∧
      Before Left Fits finite m' U' := by
  cases hfollows with
  | more =>
    obtain ⟨m', hsettles, hbefore, -⟩ := h.hasNext hL hA (hfound.imp_right fun hf => by
      rintro rfl
      exact hf.1 rfl)
    exact ⟨m', hsettles.map _, hbefore⟩
  | next v =>
    obtain ⟨m', hsettles, hbefore, hpending⟩ := h.hasNext hL hA (.inr Stream'.Seq.cons_ne_nil)
    have hp : m'.pending = some v := hpending
    exact ⟨_, settles_next_of_pending hsettles hp, hbefore.tail hA hp⟩
  | ended =>
    have hfin : finite := hfound.resolve_right fun hf => hf.2 _ rfl
    obtain ⟨m', hsettles, hbefore, hpending⟩ := h.hasNext hL hA (.inl hfin)
    have hp : m'.pending = none := hpending
    exact ⟨m', settles_next_of_none hsettles hp, hbefore⟩
  | @moved target _ _ hdrops =>
    obtain ⟨T, Xs, hstands, hasc, hmem, hfinite⟩ := h
    obtain ⟨htarget, hkey⟩ := hcall target rfl
    obtain ⟨m', T', hsettles, hstands', hsub, hremains⟩ :=
      hstands.advanceTo hL hA htarget fun v hv => hkey.lt_iff (hkind v hv)
    refine ⟨m', hsettles.map _, T', Xs, hstands', hdrops.ascending hasc, fun u => ?_, fun hfin i => ?_⟩
    · rw [hdrops.mem_iff hasc, hmem, hremains]
      rfl
    · exact (hfinite hfin i).subset fun u hu => hsub i u hu

end Merged

/-- A sequence that ends has finitely many values. -/
theorem finite_of_terminates {S : Values} (h : S.Terminates) : {u | u ∈ S}.Finite := by
  refine (List.finite_toSet (Stream'.Seq.toList S h)).subset fun u hu => ?_
  obtain ⟨i, hi⟩ := Stream'.Seq.mem_iff_exists_get?.mp hu
  rw [← Stream'.Seq.getElem?_toList S h] at hi
  exact List.mem_of_getElem? hi.symm

/-- **A merged cursor is a cursor over the union of its members, less what is excluded.**  Let
every included and every excluded cursor stand before an ascending sequence, finite or infinite;
let the values of the included ones be of one kind, and such that cursors can be moved to them;
and let `U` list in ascending order the values that are produced by at least one included cursor
and by no excluded one.  The merged cursor can be made.  Whatever it is asked then, the cursor
over `U` has an answer to each call.  The merged cursor gives these answers, if all that is
looked for is found or all included sequences end. -/
theorem merged_follows {ι : Type} {members : Nat → CursorOps ι} {Left : ι → Values → Prop}
    {Target : Value → Prop} {timed : Bool} {included excluded : List ι} {Ss Es : List Values}
    {U : Values} (hL : CursorLaws members Left Target) (hincluded : List.Forall₂ Left included Ss)
    (hexcluded : List.Forall₂ Left excluded Es)
    (hvalues : ∀ S ∈ Ss, ∀ v ∈ S, v.hasTime = timed ∧ Target v) (hasc : U.Pairwise (· < ·))
    (hU : ∀ v, v ∈ U ↔ (∃ S ∈ Ss, v ∈ S) ∧ ¬ ∃ E ∈ Es, v ∈ E) :
    ∃ m, Settles (fun n => Merged.create (members n) included excluded) (.ok m) ∧
      ∀ calls : List CursorCall,
        (∀ call ∈ calls, call.Aims fun target => Target target ∧ target.KeyDecides timed) →
        (∃ answers U', FollowsAll (.noMoreInstances none) id U calls answers U') ∧
        ∀ answers U', FollowsAll (.noMoreInstances none) id U calls answers U' →
          (∀ S ∈ Ss, S.Terminates) ∨ (∀ a ∈ answers, a.Found) →
          ∃ m', Settles (fun n => (Merged.ops members n).askAll calls m) (answers, m') := by
  have hA : Merged.Alike (fun v => v.hasTime = timed ∧ Target v) Target :=
    ⟨fun u v hu hv => hu.1.trans hv.1.symm, fun v hv => hv.2⟩
  obtain ⟨m, T, hcreate, hstands, hT, -, hremains⟩ :=
    Merged.create_stands hL hincluded hexcluded hvalues
  have hbefore : Merged.Before Left (fun v => v.hasTime = timed ∧ Target v)
      (∀ S ∈ Ss, S.Terminates) m U := by
    refine ⟨T, Es, hstands, hasc, fun u => (hU u).trans (hremains u).symm, fun hfin i => ?_⟩
    rcases hT i with hnil | hmem
    · exact (Set.finite_empty (α := Value)).subset fun u hu =>
        absurd (hnil ▸ hu : u ∈ Stream'.Seq.nil) (Stream'.Seq.notMem_nil u)
    · exact finite_of_terminates (hfin _ hmem)
  refine ⟨m, hcreate, fun calls hcalls => ⟨?_, fun answers U' hfollows hfound => ?_⟩⟩
  · -- finitely many values of `U` are before a target, since those of each member are
    have hdrop : ∀ target, Target target → {u | u ∈ U ∧ u < target}.Finite := by
      intro target htarget
      have hall : {u | ∃ S ∈ Ss, u ∈ S ∧ u < target}.Finite := by
        refine (Set.Finite.biUnion (List.finite_toSet Ss) (t := fun S => {u | u ∈ S ∧ u < target})
          fun S hS => ?_).subset ?_
        · obtain ⟨i, hi, rfl⟩ := List.mem_iff_getElem.mp hS
          have hc := hincluded.get (hincluded.length_eq ▸ hi) hi
          exact hL.finite hc htarget
        · rintro u ⟨S, hS, hu⟩
          exact Set.mem_biUnion hS hu
      refine hall.subset fun u hu => ?_
      obtain ⟨⟨S, hS, hmem⟩, -⟩ := (hU u).mp hu.1
      exact ⟨S, hS, hmem, hu.2⟩
    exact exists_followsAll hasc (fun target htarget => hdrop target htarget.1) hcalls
  · obtain ⟨m', hsettles, -⟩ := settles_askAll (fun a => (∀ S ∈ Ss, S.Terminates) ∨ a.Found)
      (fun m S call a S' hm hcall hstep hfound => hm.ask hL hA (fun v hv => hv.1) hcall hstep hfound)
      hbefore hcalls hfollows fun a ha => hfound.imp_right fun hall => hall a ha
    exact ⟨m', hsettles⟩

/-- Two lists of dates, of which the second of January is excluded: the third of January, which
both produce, is returned once. -/
theorem merged_follows_two_lists :
    let day : Int → Value := fun n => .ofDate ⟨2024, 1, n⟩
    let dates : List Value → DateCursor := fun vs => ⟨vs, vs⟩
    ∃ m m', Settles (fun _ => Merged.create DateCursor.ops [dates [day 1, day 3], dates [day 2, day 3]]
        [dates [day 2]]) (.ok m) ∧
      Settles (fun n => (Merged.ops (fun _ => DateCursor.ops) n).askAll
          [.hasNext, .next, .advanceTo (day 2), .next, .next] m)
        ([.more true, .value (day 1), .moved, .value (day 3), .failed (.noMoreInstances none)],
          m') := by
  intro day dates
  let seq : List Value → Values := Stream'.Seq.ofList
  have hstands : ∀ vs : List Value, vs.Pairwise (· < ·) →
      (dates vs).rest.Pairwise (· < ·) ∧ seq vs = .ofList (dates vs).rest := fun vs h => ⟨h, rfl⟩
  have hvalues : ∀ S ∈ [seq [day 1, day 3], seq [day 2, day 3]], ∀ v ∈ S,
      v.hasTime = false ∧ True := by
    intro S hS v hv
    simp only [List.mem_cons, List.not_mem_nil, or_false] at hS
    rcases hS with rfl | rfl <;> rw [mem_ofList] at hv <;> revert v <;> decide
  have hU : ∀ v, v ∈ seq [day 1, day 3] ↔
      (∃ S ∈ [seq [day 1, day 3], seq [day 2, day 3]], v ∈ S) ∧ ¬ ∃ E ∈ [seq [day 2]], v ∈ E := by
    intro v
    simp only [List.mem_cons, List.not_mem_nil, or_false, exists_eq_or_imp, exists_eq_left, seq,
      mem_ofList]
    constructor
    · rintro (rfl | rfl) <;> decide
    · rintro ⟨(rfl | rfl) | (rfl | rfl), hne⟩ <;> revert hne <;> decide
  obtain ⟨m, hcreate, hm⟩ := merged_follows DateCursor.laws
    (.cons (hstands [day 1, day 3] (by decide)) (.cons (hstands [day 2, day 3] (by decide)) .nil))
    (.cons (hstands [day 2] (by decide)) .nil) hvalues (pairwise_ofList (by decide)) hU
  have hnext : ∀ v vs, Follows (.noMoreInstances none) id (seq (v :: vs)) .next (.value v) (seq vs) := by
    intro v vs
    show Follows _ _ (Stream'.Seq.ofList (v :: vs)) _ _ _
    rw [Stream'.Seq.ofList_cons]
    exact .next v _
  have hstay : DropsTo (day 2) (seq [day 3]) (seq [day 3]) := dropsTo_dropWhile [day 3] (day 2)
  have haims : ∀ call ∈ [CursorCall.hasNext, .next, .advanceTo (day 2), .next, .next],
      call.Aims fun target => True ∧ target.KeyDecides false := by
    rintro call hcall target rfl
    obtain rfl : target = day 2 := by simpa using hcall
    exact ⟨trivial, .inr (by decide)⟩
  obtain ⟨m', hm'⟩ := (hm _ haims).2 _ (seq [])
    (.cons (.more _) (.cons (hnext _ _) (.cons (.moved hstay) (.cons (hnext _ _)
      (.cons .ended (.nil _))))))
    (.inl fun S hS => by
      simp only [List.mem_cons, List.not_mem_nil, or_false] at hS
      rcases hS with rfl | rfl <;> exact Stream'.Seq.terminates_ofList _)
  exact ⟨m, m', hcreate, hm'⟩

end Recurrence
