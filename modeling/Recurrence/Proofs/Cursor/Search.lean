/-
Recurrence/Proofs/Cursor/Search.lean

Searches of a merged cursor whose members may be moved to any target.

Where members pass over values that are not before the target, what they have left is not known
from what they had left.  Still a move leaves every member in front of some sequence
(`MovingLaws`), so the queue of a merged cursor is in order in every state that calls lead to
(`Searches`).  A search drops values that do not come after the last one and values that an
excluded cursor waits with, and no others (`Searches.turn`).  So it ends where the included
cursors have finitely many values left, and where they have a new value left that no excluded
cursor ever waits with: only finitely many values come before it (`Searches.hasNext`).
-/
import Recurrence.Proofs.Cursor.Patience
import Recurrence.Proofs.Cursor.Union
import Recurrence.Proofs.Outcomes

namespace Recurrence

/-- How cursors behave that stand before the rest of a sequence and can be moved to any target.
What is left after a move is some sequence. -/
structure MovingLaws {ι : Type} (ops : Nat → CursorOps ι) (Left : ι → Values → Prop) : Prop
    extends CursorLaws ops Left fun _ => False where
  moves : ∀ c S target, Left c S → ∃ c' S',
    Settles (fun n => (ops n).advanceTo c target) (.ok (), c') ∧ Left c' S'

/-- How cursors behave that stand before the rest of a sequence and may be asked to move to any
target, but may fail to convert it. -/
structure RovingLaws {ι : Type} (ops : Nat → CursorOps ι) (Left : ι → Values → Prop) : Prop
    extends CursorLaws ops Left fun _ => False where
  moves : ∀ c S target, Left c S → ∃ a c' S',
    Settles (fun n => (ops n).advanceTo c target) (a, c') ∧ Left c' S' ∧
      ∀ e, a = .error e → ∃ why, e = .conversion why

/-- Values in the order of their keys, of which finitely many lie between any two. -/
structure Sparse (Fits : Value → Prop) : Prop where
  order : ∀ u v, Fits u → Fits v → (u ≤ v ↔ u.key ≤ v.key)
  between : ∀ u v, Fits u → Fits v → {w | Fits w ∧ u ≤ w ∧ w ≤ v}.Finite

/-- Finitely many values of an ascending sequence come up to a value. -/
theorem Sparse.finite {Fits : Value → Prop} (hF : Sparse Fits) {S : Values}
    (hS : S.Pairwise (· < ·)) (hfits : ∀ v ∈ S, Fits v) {u : Value} (hu : Fits u) :
    {v | v ∈ S ∧ v ≤ u}.Finite := by
  cases S using Stream'.Seq.recOn with
  | nil => exact Set.finite_empty.subset fun v hv => absurd hv.1 (Stream'.Seq.notMem_nil v)
  | cons a S =>
    refine (hF.between a u (hfits a (Stream'.Seq.mem_cons a S)) hu).subset ?_
    exact fun v hv => ⟨hfits v hv.1, Ascending.head_le hS hv.1, hv.2⟩

variable {ι : Type} {ops : Nat → CursorOps ι} {Left Barred : ι → Values → Prop}
  {Fits Bars : Value → Prop} {m m' : Merged ι} {T : Nat → Values} {S : Values}
  {Target : Value → Prop} {u v target : Value} {x : Excluded ι}

/-! ### Excluded cursors -/

/-- An excluded cursor stands before some sequence, and the value that it waits with is barred. -/
structure Excluded.Ready (Barred : ι → Values → Prop) (Bars : Value → Prop) (x : Excluded ι) :
    Prop where
  cursor : ∃ S, Barred x.cursor S
  head : ∀ v ∈ x.head, Bars v

namespace MovingLaws

/-- A cursor begins to wait with its first value. -/
theorem ready (hE : MovingLaws ops Barred) (hbars : ∀ c S, Barred c S → ∀ v ∈ S, Bars v) {c : ι}
    (h : Barred c S) : ∃ c', Settles (fun n => (ops n).head c) (.ok S.head, c') ∧
      Excluded.Ready Barred Bars ⟨c', S.head⟩ := by
  obtain ⟨c', hhead, hc'⟩ := hE.head h
  refine ⟨c', hhead, ⟨S.tail, hc'⟩, fun v hv => hbars c S h v ?_⟩
  exact Stream'.Seq.mem_iff_exists_get?.mpr ⟨0, hv.symm⟩

/-- Moved on to a value, an excluded cursor waits again. -/
theorem moved (hE : MovingLaws ops Barred) (hbars : ∀ c S, Barred c S → ∀ v ∈ S, Bars v)
    (h : x.Ready Barred Bars) (v : Value) :
    ∃ x', Settles (fun n => x.moved (ops n) v) (.ok (), x') ∧ x'.Ready Barred Bars := by
  obtain ⟨S, hS⟩ := h.cursor
  cases hhead : x.head with
  | none =>
    refine ⟨x, ?_, h⟩
    filter_upwards with n
    simp only [Excluded.moved, hhead]
  | some u =>
    by_cases hlt : u < v
    · obtain ⟨c₁, S₁, hmove, hc₁⟩ := hE.moves x.cursor S v hS
      obtain ⟨c₂, hnext, hready⟩ := hE.ready hbars hc₁
      refine ⟨⟨c₂, S₁.head⟩, ?_, hready⟩
      filter_upwards [hmove, hnext] with n hn hn'
      simp only [Excluded.moved, hhead, hlt, if_true, hn, hn']
    · refine ⟨x, ?_, h⟩
      filter_upwards with n
      simp only [Excluded.moved, hhead, hlt, if_false]

/-- **Asked about a value**, the excluded cursors find it only if it is barred. -/
theorem excludes (hE : MovingLaws ops Barred) (hbars : ∀ c S, Barred c S → ∀ v ∈ S, Bars v)
    (v : Value) {xs : List (Excluded ι)} (h : ∀ x ∈ xs, x.Ready Barred Bars) :
    ∃ found xs', Settles (fun n => Merged.excludes (ops n) v xs) (.ok found, xs') ∧
      (∀ x ∈ xs', x.Ready Barred Bars) ∧ (found = true → Bars v) := by
  induction xs with
  | nil => exact ⟨false, [], settles_const _, h, by simp⟩
  | cons x xs ih =>
    rw [List.forall_mem_cons] at h
    obtain ⟨x', hmoved, hx'⟩ := hE.moved hbars h.1 v
    obtain ⟨found, xs', hrest, hxs', hfound⟩ := ih h.2
    refine ⟨found || x'.head == some v, x' :: xs', ?_, List.forall_mem_cons.mpr ⟨hx', hxs'⟩, ?_⟩
    · filter_upwards [hmoved, hrest] with n hn hn'
      rw [Merged.excludes_cons, hn]
      simp only [hn']
    · rw [Bool.or_eq_true, beq_iff_eq]
      rintro (hin | hhead)
      · exact hfound hin
      · exact hx'.head v hhead

/-- All excluded cursors begin to wait. -/
theorem allReady (hE : MovingLaws ops Barred) (hbars : ∀ c S, Barred c S → ∀ v ∈ S, Bars v)
    {cs : List ι} (h : ∀ c ∈ cs, ∃ S, Barred c S) :
    ∃ xs, Settles (fun n => Merged.withHeads (ops n) cs) (.ok xs) ∧
      ∀ x ∈ xs, x.Ready Barred Bars := by
  induction cs with
  | nil => exact ⟨[], settles_const _, by simp⟩
  | cons c cs ih =>
    rw [List.forall_mem_cons] at h
    obtain ⟨⟨S, hS⟩, hcs⟩ := h
    obtain ⟨c', hhead, hready⟩ := hE.ready hbars hS
    obtain ⟨xs, hxs, hall⟩ := ih hcs
    refine ⟨⟨c', S.head⟩ :: xs, ?_, List.forall_mem_cons.mpr ⟨hready, hall⟩⟩
    filter_upwards [hhead, hxs] with n hn hn'
    simp only [Merged.withHeads, hn, hn', Option.map_some]
    rfl

end MovingLaws

/-- Asked for its next values one after another, a cursor comes to a value. -/
inductive CursorOps.Produces (ops : Nat → CursorOps ι) : ι → Value → Prop where
  | first {n : Nat} {c c' : ι} {v : Value} (h : (ops n).head c = some (.ok (some v), c')) :
      Produces ops c v
  | later {n : Nat} {c c' : ι} {u v : Value} (h : (ops n).head c = some (.ok (some u), c'))
      (hv : Produces ops c' v) : Produces ops c v

namespace Merged

/-! ### One turn -/

/-- A value comes after the last one. -/
def IsNew (m : Merged ι) (u : Value) : Prop := ∀ k ∈ m.lastKey, k < u.key

/-- A value waits in the queue, or an included cursor comes to it. -/
def ToCome (ops : Nat → CursorOps ι) (m : Merged ι) (u : Value) : Prop :=
  (∃ w ∈ m.queue, w.value = u) ∨ ∃ c ∈ m.included, CursorOps.Produces ops c u

/-- The queue is in order, and the excluded cursors wait with barred values. -/
structure Searches (Left Barred : ι → Values → Prop) (Fits Bars : Value → Prop) (m : Merged ι)
    (T : Nat → Values) : Prop where
  queued : Queued Left Fits m T fun _ => False
  excluded : ∀ x ∈ m.excluded, x.Ready Barred Bars

/-- The members of a merged cursor keep their laws, their values are sparse, and whatever excluded
members produce is barred. -/
structure Searchable (ops : Nat → CursorOps ι) (Left Barred : ι → Values → Prop)
    (Fits Bars : Value → Prop) : Prop where
  included : MovingLaws ops Left
  excluded : MovingLaws ops Barred
  sparse : Sparse Fits
  fits : ∀ c S, Left c S → ∀ v ∈ S, Fits v
  bars : ∀ c S, Barred c S → ∀ v ∈ S, Bars v

/-- What a turn does with the value that it takes out of the queue: it holds the value, or drops it
because it is not new or because it is barred. -/
def Disposes (Bars : Value → Prop) (m m' : Merged ι) (v : Value) : Prop :=
  m'.pending = some v ∨
    m'.pending = none ∧ (¬ m.IsNew v ∧ m'.lastKey = m.lastKey ∨ Bars v ∧ m'.lastKey = some v.key)

/-- What is held does not matter to the queue. -/
theorem Searches.frame (h : Searches Left Barred Fits Bars m T)
    (hincluded : m'.included = m.included) (hqueue : m'.queue = m.queue)
    (hexcluded : m'.excluded = m.excluded) : Searches Left Barred Fits Bars m' T :=
  ⟨h.queued.frame hincluded hqueue, hexcluded ▸ h.excluded⟩

/-- **Taking the first waiting value**. -/
theorem Searches.turn (hM : Searchable ops Left Barred Fits Bars)
    (h : Searches Left Barred Fits Bars m T) {w : Waiting} {queue : List Waiting}
    (hpending : m.pending = none) (hqueue : m.queue = w :: queue) :
    ∃ m' S, Settles (fun n => m.turn (ops n)) (.again m') ∧ T w.index = .cons w.value S ∧
      (∀ i, ∀ u ∈ T i, w.value ≤ u) ∧ m'.included.length = m.included.length ∧
      Searches Left Barred Fits Bars m' (Function.update T w.index S) ∧
      m.Disposes Bars m' w.value := by
  obtain ⟨S, included, queue', hT, hleast, hfetch, hlength, hqueued⟩ :=
    h.queued.takeFirst hM.included.toCursorLaws hM.sparse.order hqueue
  by_cases hnew : m.IsNew w.value
  · obtain ⟨found, xs, hasked, hready, hfound⟩ := hM.excluded.excludes hM.bars w.value h.excluded
    refine ⟨⟨included, xs, queue', some w.value.key, if found then m.pending else some w.value⟩, S,
      ?_, hT, hleast, hlength, ⟨hqueued.frame rfl rfl, hready⟩, ?_⟩
    · filter_upwards [hfetch, hasked] with n hn hn'
      exact turn_of_new hpending hqueue hn hnew hn'
    · cases found with
      | true => exact .inr ⟨hpending, .inr ⟨hfound rfl, rfl⟩⟩
      | false => exact .inl rfl
  · obtain ⟨k, hlast, hle⟩ : ∃ k, m.lastKey = some k ∧ w.value.key ≤ k := by
      simpa [IsNew] using hnew
    refine ⟨{ m with included, queue := queue' }, S, ?_, hT, hleast, hlength,
      ⟨hqueued, h.excluded⟩, .inr ⟨hpending, .inl ⟨hnew, rfl⟩⟩⟩
    filter_upwards [hfetch] with n hn
    exact turn_of_old hpending hqueue hn hlast hle

/-! ### Searching -/

/-- A new value is left that is not barred. -/
def Finds (Bars : Value → Prop) (m : Merged ι) (T : Nat → Values) (u : Value) : Prop :=
  (∃ i, u ∈ T i) ∧ m.IsNew u ∧ ¬ Bars u

/-- A turn does not drop a new value that is not barred. -/
theorem Finds.turn (hF : Sparse Fits) (hqueued : Queued Left Fits m T fun _ => False)
    (hu : m.Finds Bars T u) {w : Waiting} (hT : T w.index = .cons w.value S)
    (hleast : ∀ i, ∀ u ∈ T i, w.value ≤ u) (hout : m.Disposes Bars m' w.value) :
    m'.pending.isSome ∨ m'.Finds Bars (Function.update T w.index S) u := by
  obtain ⟨⟨i, hi⟩, hnew, hbars⟩ := hu
  rcases hout with hheld | ⟨-, hdropped⟩
  · exact .inl (by simp [hheld])
  have hne : u ≠ w.value := by
    rintro rfl
    rcases hdropped with ⟨hold, -⟩ | ⟨hbarred, -⟩
    · exact hold hnew
    · exact hbars hbarred
  refine .inr ⟨((exists_mem_iff hT).mp ⟨i, hi⟩).resolve_left hne, ?_, hbars⟩
  rcases hdropped with ⟨-, hlast⟩ | ⟨-, hlast⟩
  · rw [IsNew, hlast]
    exact hnew
  · rw [IsNew, hlast]
    rintro _ ⟨⟩
    -- the value that is left comes after the one that was the least
    have hfits := hqueued.fits w.index w.value (hT ▸ Stream'.Seq.mem_cons _ _)
    rw [← not_le, ← hF.order u w.value (hqueued.fits i u hi) hfits, not_le]
    exact lt_of_le_of_ne (hleast i u hi) hne.symm

/-- A search that ends among the values with `P`: a value is held, or all values have `P`, or those
up to one that is to be found. -/
def EndsWithin (Left Barred : ι → Values → Prop) (Fits Bars P : Value → Prop) (m : Merged ι)
    (T : Nat → Values) : Prop :=
  Searches Left Barred Fits Bars m T ∧
    (m.pending.isSome ∨ (∀ v, P v) ∨ ∃ u, m.Finds Bars T u ∧ ∀ v ≤ u, P v)

/-- **Each turn of a search** takes out a value with `P`.  Until a value is held, the one that is to
be found stays left. -/
theorem EndsWithin.turn {P : Value → Prop} (hM : Searchable ops Left Barred Fits Bars)
    (h : EndsWithin Left Barred Fits Bars P m T) {w : Waiting} {queue : List Waiting}
    (hpending : m.pending = none) (hqueue : m.queue = w :: queue) :
    P w.value ∧ ∃ m' S, Settles (fun n => m.turn (ops n)) (.again m') ∧
      T w.index = .cons w.value S ∧ m'.included.length = m.included.length ∧
      EndsWithin Left Barred Fits Bars P m' (Function.update T w.index S) := by
  obtain ⟨h, hP⟩ := h
  obtain ⟨m', S, hturn, hT, hleast, hlength, h', hout⟩ := h.turn hM hpending hqueue
  rcases hP.resolve_left (by simp [hpending]) with hall | ⟨u, hu, hbelow⟩
  · exact ⟨hall _, m', S, hturn, hT, hlength, h', .inr (.inl hall)⟩
  · obtain ⟨i, hi⟩ := hu.1
    exact ⟨hbelow _ (hleast i u hi), m', S, hturn, hT, hlength, h',
      (hu.turn hM.sparse h.queued hT hleast hout).imp_right fun hu => .inr ⟨u, hu, hbelow⟩⟩

/-- **A search ends** if a value is held, if finitely many values are left, or if a new value is
left that is not barred. -/
theorem Searches.hasNext (hM : Searchable ops Left Barred Fits Bars)
    (h : Searches Left Barred Fits Bars m T)
    (hends : m.pending.isSome ∨ (∀ i, {u | u ∈ T i}.Finite) ∨ ∃ u, m.Finds Bars T u) :
    ∃ b m', Settles (fun n => m.hasNext (ops n) n) (.ok b, m') := by
  suffices hsearch : ∃ P : Value → Prop, (∀ i, {u | u ∈ T i ∧ P u}.Finite) ∧
      (m.pending.isSome ∨ (∀ v, P v) ∨ ∃ u, m.Finds Bars T u ∧ ∀ v ≤ u, P v) by
    obtain ⟨P, hfinite, hP⟩ := hsearch
    obtain ⟨m', -, hloop, -⟩ := Queued.search (fun _ _ (h : EndsWithin Left Barred Fits Bars P _ _) =>
      h.1.queued) (fun _ _ _ _ h => h.turn hM) ⟨h, hP⟩ hfinite
    exact ⟨_, m', hloop.settles⟩
  rcases hends with hheld | hfinite | ⟨u, hu⟩
  · exact ⟨fun _ => False, by simp, .inl hheld⟩
  · exact ⟨fun _ => True, by simpa using hfinite, .inr (.inl fun _ => trivial)⟩
  · obtain ⟨i, hi⟩ := hu.1
    refine ⟨(· ≤ u), fun j => ?_, .inr (.inr ⟨u, hu, fun _ => id⟩)⟩
    exact hM.sparse.finite (h.queued.ascending j) (h.queued.fits j) (h.queued.fits i u hi)

/-! ### What is to come -/

section ToCome

variable (hops : ∀ {j n : Nat}, j ≤ n → (ops j).Extends (ops n))

include hops

/-- A cursor comes to the values of its sequence, and to no others. -/
theorem produces_iff (hL : CursorLaws ops Left Target) {c : ι} (h : Left c S) :
    CursorOps.Produces ops c u ↔ u ∈ S := by
  have hhead : ∀ {c c' S n v}, Left c S → (ops n).head c = some (.ok (some v), c') →
      S.head = some v ∧ Left c' S.tail := by
    intro c c' S n v h hn
    have hpatient : Patient fun n => (ops n).head c := fun hle ht => (hops hle).head ht
    obtain ⟨c₁, hsettles, h₁⟩ := hL.head h
    obtain ⟨hv, rfl⟩ := Prod.mk.inj (hpatient.eq_of_settles hsettles hn)
    exact ⟨(Except.ok.inj hv).symm, h₁⟩
  constructor
  · intro hu
    induction hu generalizing S with
    | first hn =>
      exact Stream'.Seq.mem_iff_exists_get?.mpr ⟨0, (hhead h hn).1.symm⟩
    | later hn _ ih =>
      obtain ⟨hfirst, htail⟩ := hhead h hn
      cases S using Stream'.Seq.recOn with
      | nil => simp at hfirst
      | cons v S => exact Stream'.Seq.mem_cons_of_mem v (ih htail)
  · rw [Stream'.Seq.mem_iff_exists_get?]
    rintro ⟨k, hk⟩
    -- on the place of the value, over all cursors
    induction k generalizing c S with
    | zero =>
      obtain ⟨c', hsettles, -⟩ := hL.head h
      obtain ⟨n, hn⟩ := hsettles.exists_bound
      exact .first (hn.trans (by rw [hk]; rfl))
    | succ k ih =>
      obtain ⟨c', hsettles, hc'⟩ := hL.head h
      obtain ⟨n, hn⟩ := hsettles.exists_bound
      cases S using Stream'.Seq.recOn with
      | nil => simp at hk
      | cons v S => exact .later hn (ih hc' hk)

/-- The values to come are those that the included cursors have left. -/
theorem Queued.toCome_iff (hL : CursorLaws ops Left Target)
    (h : Queued Left Fits m T fun _ => False) : m.ToCome ops u ↔ ∃ i, u ∈ T i := by
  constructor
  · rintro (⟨w, hw, rfl⟩ | ⟨c, hc, hu⟩)
    · obtain ⟨-, c, S, -, hT, -⟩ := h.waiting w hw
      exact ⟨w.index, hT ▸ Stream'.Seq.mem_cons _ _⟩
    · obtain ⟨i, hi⟩ := List.getElem?_of_mem hc
      refine ⟨i, ?_⟩
      by_cases hwait : ∃ w ∈ m.queue, w.index = i
      · obtain ⟨w, hw, rfl⟩ := hwait
        obtain ⟨-, d, S, hd, hT, hleft⟩ := h.waiting w hw
        obtain rfl := Option.some.inj (hi.symm.trans hd)
        exact hT ▸ Stream'.Seq.mem_cons_of_mem _ ((produces_iff hops hL hleft).mp hu)
      · obtain ⟨hleft, -⟩ := h.idle i c hi fun w hw hwi => hwait ⟨w, hw, hwi⟩
        exact (produces_iff hops hL hleft).mp hu
  · rintro ⟨i, hu⟩
    obtain ⟨w, hw, rfl⟩ := h.exists_waiting hu
    obtain ⟨-, c, S, hc, hT, hleft⟩ := h.waiting w hw
    rw [hT] at hu
    rcases Stream'.Seq.eq_or_mem_of_mem_cons hu with rfl | hu
    · exact .inl ⟨w, hw, rfl⟩
    · exact .inr ⟨c, List.mem_of_getElem? hc, (produces_iff hops hL hleft).mpr hu⟩

end ToCome

/-! ### All states -/

/-- Calls keep the queue of a merged cursor in order. -/
def Seeks (Left Barred : ι → Values → Prop) (Fits Bars : Value → Prop) (m : Merged ι) : Prop :=
  ∃ T, Searches Left Barred Fits Bars m T

section Calls

variable (hM : Searchable ops Left Barred Fits Bars)
  (hops : ∀ {j n : Nat}, j ≤ n → (ops j).Extends (ops n))

include hM

/-- **A merged cursor can be made**, and has not come past any value. -/
theorem create_seeks {included excluded : List ι} {Ss : List Values}
    (hincluded : List.Forall₂ Left included Ss) (hexcluded : ∀ c ∈ excluded, ∃ S, Barred c S) :
    ∃ m, Settles (fun n => Merged.create (ops n) included excluded) (.ok m) ∧
      m.lastKey = none ∧ m.Seeks Left Barred Fits Bars := by
  have hfits : ∀ S ∈ Ss, ∀ v ∈ S, Fits v := fun S hS => by
    obtain ⟨c, -, hc⟩ := exists_rel_of_mem hincluded hS
    exact hM.fits c S hc
  obtain ⟨included', queue, T, hfetches, hqueued, -⟩ :=
    Queued.fetchFirst hM.included.toCursorLaws hincluded hfits
  obtain ⟨xs, hheads, hready⟩ := hM.excluded.allReady hM.bars hexcluded
  refine ⟨{ included := included', excluded := xs, queue }, ?_, rfl, T, hqueued.frame rfl rfl,
    hready⟩
  filter_upwards [hfetches, hheads] with n hn hn'
  simp only [Merged.create, hn, hn', Option.map_some]
  rfl

/-- **Moving ahead** comes to an end. -/
theorem Seeks.exists_advanceTo (h : m.Seeks Left Barred Fits Bars) (target : Value) :
    ∃ m', Settles (fun n => m.advanceTo (ops n) target) (.ok (), m') ∧
      m'.Seeks Left Barred Fits Bars := by
  obtain ⟨T, h⟩ := h
  by_cases hkeeps : ∃ p, m.pending = some p ∧ ¬ p < target
  · obtain ⟨p, hp, hle⟩ := hkeeps
    exact ⟨m, .of_forall fun n => advanceTo_of_held (ops n) hp hle, T, h⟩
  · obtain ⟨hqueued, hnodup, hplaces, -⟩ := h.queued.takeStale target.key
    have hmoves : ∀ c S, Left c S → (∀ v ∈ S, Fits v) → ∃ d S',
        Settles (fun n => (ops n).advanceTo c target) (.ok (), d) ∧ Left d S' ∧ True ∧
          ∀ v ∈ S', Fits v := by
      intro c S hc _
      obtain ⟨d, S', hmove, hd⟩ := hM.included.moves c S target hc
      exact ⟨d, S', hmove, hd, trivial, hM.fits d S' hd⟩
    obtain ⟨included, queue, T', hmoved, hqueued', -⟩ :=
      hqueued.moveAll hM.included.toCursorLaws hmoves hnodup hplaces
    refine ⟨_, ?_, T', hqueued', h.excluded⟩
    filter_upwards [hmoved] with n hn
    unfold Merged.advanceTo
    rw [if_neg]
    · exact hn
    · cases hp : m.pending with
      | none => simp
      | some p =>
        have hlt : p < target := by
          by_contra hle
          exact hkeeps ⟨p, hp, hle⟩
        simpa using hlt

include hops

/-- Under whatever bound a turn has an answer, it keeps the queue in order. -/
theorem Seeks.turn (h : m.Seeks Left Barred Fits Bars) {n : Nat}
    {t : Turn (Merged ι) (Except SeriesError Bool × Merged ι)} (ht : m.turn (ops n) = some t) :
    (∃ m', t = .again m' ∧ m'.Seeks Left Barred Fits Bars) ∨ ∃ a, t = .done (a, m) := by
  obtain ⟨T, h⟩ := h
  cases hpending : m.pending with
  | some p => exact .inr ⟨.ok true, by simpa [Merged.turn, hpending] using ht.symm⟩
  | none =>
    cases hqueue : m.queue with
    | nil => exact .inr ⟨.ok false, by simpa [Merged.turn, hpending, hqueue] using ht.symm⟩
    | cons w queue =>
      obtain ⟨m', S, hturn, -, -, -, h', -⟩ := h.turn hM hpending hqueue
      have hpatient : Patient fun n => m.turn (ops n) := fun hle ht => (hops hle).turn ht
      exact .inl ⟨m', hpatient.eq_of_settles hturn ht, _, h'⟩

theorem Seeks.hasNext (h : m.Seeks Left Barred Fits Bars) {n : Nat} {a : Except SeriesError Bool}
    (hn : m.hasNext (ops n) n = some (a, m')) : m'.Seeks Left Barred Fits Bars := by
  refine loop_invariant (P := fun m => m.Seeks Left Barred Fits Bars)
    (Q := fun b => b.2.Seeks Left Barred Fits Bars) (fun m m₁ h ht => ?_) (fun m b h ht => ?_) h hn
  · obtain ⟨m₂, heq, h'⟩ | ⟨a, heq⟩ := h.turn hM hops ht
    · obtain rfl : m₁ = m₂ := by simpa using heq
      exact h'
    · exact absurd heq (by simp)
  · obtain ⟨m₂, heq, -⟩ | ⟨a, heq⟩ := h.turn hM hops ht
    · exact absurd heq (by simp)
    · obtain rfl : b = (a, m) := by simpa using heq
      exact h

theorem Seeks.next (h : m.Seeks Left Barred Fits Bars) {n : Nat} {a : Except SeriesError Value}
    (hn : m.next (ops n) n = some (a, m')) : m'.Seeks Left Barred Fits Bars := by
  unfold Merged.next at hn
  cases hlook : m.hasNext (ops n) n with
  | none => simp [hlook] at hn
  | some b =>
    obtain ⟨b, m₁⟩ := b
    have h₁ := h.hasNext hM hops hlook
    rw [hlook] at hn
    cases b with
    | error e =>
      obtain ⟨-, rfl⟩ : _ ∧ m₁ = m' := by simpa using hn
      exact h₁
    | ok b =>
      cases hp : m₁.pending with
      | none =>
        obtain ⟨-, rfl⟩ : _ ∧ m₁ = m' := by simpa [hp] using hn
        exact h₁
      | some v =>
        obtain ⟨-, rfl⟩ : _ ∧ { m₁ with pending := none } = m' := by simpa [hp] using hn
        obtain ⟨T, h₁⟩ := h₁
        exact ⟨T, h₁.frame rfl rfl rfl⟩

theorem Seeks.advanceTo (h : m.Seeks Left Barred Fits Bars) {n : Nat} {a : Except SeriesError Unit}
    (hn : m.advanceTo (ops n) target = some (a, m')) : m'.Seeks Left Barred Fits Bars := by
  obtain ⟨m₁, hsettles, h₁⟩ := h.exists_advanceTo hM target
  have hpatient : Patient fun n => m.advanceTo (ops n) target := fun hle ht =>
    (hops hle).mergedAdvanceTo ht
  obtain ⟨-, rfl⟩ := Prod.mk.inj (hpatient.eq_of_settles hsettles hn)
  exact h₁

/-- **Looking ahead** comes to an end, unless infinitely many values are to come and each of them
that is new is barred. -/
theorem Seeks.exists_hasNext (h : m.Seeks Left Barred Fits Bars)
    (hends : m.pending = none → {u | m.ToCome ops u}.Infinite →
      ∃ u, m.ToCome ops u ∧ m.IsNew u ∧ ¬ Bars u) :
    ∃ b m', Settles (fun n => m.hasNext (ops n) n) (.ok b, m') := by
  obtain ⟨T, h⟩ := h
  have hcome : ∀ u, m.ToCome ops u ↔ ∃ i, u ∈ T i := fun u =>
    h.queued.toCome_iff hops hM.included.toCursorLaws
  simp only [hcome] at hends
  refine h.hasNext hM ?_
  cases hpending : m.pending with
  | some p => exact .inl rfl
  | none =>
    by_cases hfinite : {u | ∃ i, u ∈ T i}.Finite
    · exact .inr (.inl fun i => hfinite.subset fun u hu => ⟨i, hu⟩)
    · exact .inr (.inr (hends hpending hfinite))

end Calls

/-! ### A search that does not end -/

/-- Nothing remains to be handed out, and a member goes on for ever. -/
def Idles (Left : ι → Values → Prop) (Fits : Value → Prop) (m : Merged ι) : Prop :=
  ∃ T Xs, Stands Left Fits m T Xs ∧ (∀ u, ¬ Remains m T Xs u) ∧ ∃ i, ¬ (T i).Terminates

/-- Each turn drops a value and leaves the same to be done. -/
theorem Idles.turn (hL : CursorLaws ops Left Target) (hA : Alike Fits Target)
    (h : Idles Left Fits m) :
    ∃ m', Settles (fun n => m.turn (ops n)) (.again m') ∧ Idles Left Fits m' := by
  obtain ⟨T, Xs, h, hnone, i, hi⟩ := h
  have hpending : m.pending = none := by
    by_contra hne
    obtain ⟨p, hp⟩ := Option.ne_none_iff_exists'.mp hne
    exact hnone p (.inl hp)
  have hhead : ((T i).get? 0).isSome := Stream'.Seq.not_terminates_iff.mp hi 0
  obtain ⟨v, hv⟩ := Option.isSome_iff_exists.mp hhead
  obtain ⟨w, hw, -⟩ := h.queued.exists_waiting (Stream'.Seq.mem_iff_exists_get?.mpr ⟨0, hv.symm⟩)
  obtain ⟨x, queue, hqueue⟩ := List.exists_cons_of_ne_nil (List.ne_nil_of_mem hw)
  obtain ⟨m', S, Xs', hturn, hT, -, -, h', hsame⟩ := h.turn hL hA hpending hqueue
  refine ⟨m', hturn, _, Xs', h', fun u hu => hnone u ((hsame u).mp hu), i, ?_⟩
  by_cases hix : i = x.index
  · subst hix
    rw [Function.update_self]
    rwa [hT, Stream'.Seq.terminates_cons_iff] at hi
  · rwa [Function.update_of_ne hix]

/-- **A search never ends** if a member goes on for ever and nothing remains to be handed out. -/
theorem Stands.hasNext_eq_none (hL : CursorLaws ops Left Target) (hA : Alike Fits Target)
    (hops : ∀ {j n : Nat}, j ≤ n → (ops j).Extends (ops n)) {Xs : List Values}
    (h : Stands Left Fits m T Xs) (hnone : ∀ u, ¬ Remains m T Xs u)
    (hmore : ∃ i, ¬ (T i).Terminates) (n : Nat) : m.hasNext (ops n) n = none := by
  by_contra hsome
  obtain ⟨b, hb⟩ := Option.ne_none_iff_exists'.mp hsome
  have hanswer : ∀ m t, Idles Left Fits m → m.turn (ops n) = some t →
      ∃ m', t = .again m' ∧ Idles Left Fits m' := by
    intro m t hm ht
    have hpatient : Patient fun n => m.turn (ops n) := fun hle ht => (hops hle).turn ht
    obtain ⟨m', hsettles, hm'⟩ := hm.turn hL hA
    exact ⟨m', hpatient.eq_of_settles hsettles ht, hm'⟩
  refine loop_invariant (P := Idles Left Fits) (Q := fun _ => False) (fun m m₁ hm ht => ?_)
    (fun m b hm ht => ?_) ⟨T, Xs, h, hnone, hmore⟩ hb
  · obtain ⟨m', heq, hm'⟩ := hanswer m _ hm ht
    obtain rfl : m₁ = m' := by simpa using heq
    exact hm'
  · obtain ⟨m', heq, -⟩ := hanswer m _ hm ht
    exact absurd heq (by simp)

end Merged

end Recurrence
