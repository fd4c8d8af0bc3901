/-
Recurrence/Proofs/Cursor/Queue.lean

The queue of a merged cursor.

The queue holds the first value of every included cursor that has one, and the cursor
stands before the rest (`Queued`).  Fetching the next value of a cursor takes nothing away
from what is left, and neither does a value that waits longer.  So the first of the queue is
the least value that is left, whichever cursors it comes from (`Queued.pop`), and where the
values before a target are taken out and their cursors moved on, exactly what is before
the target is gone (`Queued.advanceAll`).
-/
import Mathlib.Data.List.TakeWhile
import Mathlib.Logic.Function.Basic
import Recurrence.Proofs.Cursor.Members

namespace Recurrence

/-! ### The queue -/

namespace Waiting

variable {a b c w : Waiting} {queue : List Waiting}

theorem before_iff : a.before b = true ↔
    a.value.key < b.value.key ∨ a.value.key = b.value.key ∧ a.index < b.index := by
  simp [before]

theorem before_trans (hab : a.before b = true) (hbc : b.before c = true) : a.before c = true := by
  rw [before_iff] at *
  rcases hab with hab | ⟨hab, hi⟩
  · rcases hbc with hbc | ⟨hbc, -⟩
    · exact .inl (hab.trans hbc)
    · exact .inl (hab.trans_eq hbc)
  · rcases hbc with hbc | ⟨hbc, hj⟩
    · exact .inl (hab.trans_lt hbc)
    · exact .inr ⟨hab.trans hbc, hi.trans hj⟩

theorem before_of_not_before (hne : a.index ≠ b.index) (h : ¬ b.before a = true) :
    a.before b = true := by
  rw [before_iff] at *
  push Not at h
  rcases h.1.lt_or_eq with hlt | heq
  · exact .inl hlt
  · exact .inr ⟨heq, lt_of_le_of_ne (h.2 heq.symm) hne⟩

theorem mem_enqueue : a ∈ enqueue w queue ↔ a = w ∨ a ∈ queue := by
  induction queue with
  | nil => simp [enqueue]
  | cons x queue ih =>
    unfold enqueue
    split_ifs
    · simp
    · rw [List.mem_cons, ih, List.mem_cons]
      tauto

/-- A value is put where it belongs. -/
theorem pairwise_enqueue (h : queue.Pairwise fun a b => a.before b = true)
    (hne : ∀ x ∈ queue, x.index ≠ w.index) :
    (enqueue w queue).Pairwise fun a b => a.before b = true := by
  induction queue with
  | nil => simp [enqueue]
  | cons x queue ih =>
    obtain ⟨hx, hqueue⟩ := List.pairwise_cons.mp h
    rw [List.forall_mem_cons] at hne
    unfold enqueue
    split_ifs with hwx
    · refine List.pairwise_cons.mpr ⟨fun y hy => ?_, h⟩
      rcases List.mem_cons.mp hy with rfl | hy
      · exact hwx
      · exact before_trans hwx (hx y hy)
    · refine List.pairwise_cons.mpr ⟨fun y hy => ?_, ih hqueue hne.2⟩
      rcases mem_enqueue.mp hy with rfl | hy
      · exact before_of_not_before hne.1 hwx
      · exact hx y hy

/-- Behind the values of an ordered queue that come before a key there are no more of them. -/
theorem not_lt_of_mem_dropWhile {k : List Int} (h : queue.Pairwise fun a b => a.before b = true)
    (hw : w ∈ queue.dropWhile fun x => decide (x.value.key < k)) : ¬ w.value.key < k := by
  induction queue with
  | nil => exact absurd hw List.not_mem_nil
  | cons x queue ih =>
    obtain ⟨hx, hqueue⟩ := List.pairwise_cons.mp h
    by_cases hlt : x.value.key < k
    · rw [List.dropWhile_cons_of_pos (by simpa using hlt)] at hw
      exact ih hqueue hw
    · rw [List.dropWhile_cons_of_neg (by simpa using hlt)] at hw
      rcases List.mem_cons.mp hw with rfl | hw
      · exact hlt
      · intro hwk
        rcases before_iff.mp (hx w hw) with hxw | ⟨hxw, -⟩
        · exact hlt (hxw.trans hwk)
        · exact hlt (hxw.trans_lt hwk)

end Waiting

/-! ### What the included cursors have left -/

namespace Merged

variable {ι : Type} {ops : Nat → CursorOps ι} {Left : ι → Values → Prop} {Target : Value → Prop}
  {Fits : Value → Prop} {m : Merged ι} {T : Nat → Values} {J : Nat → Prop} {i : Nat} {c : ι}
  {S : Values} {u v target : Value}

/-- What is left of the sequence of each included cursor, with the value of it that waits.  At
the places `J` the next value is still to be fetched. -/
structure Queued (Left : ι → Values → Prop) (Fits : Value → Prop) (m : Merged ι)
    (T : Nat → Values) (J : Nat → Prop) : Prop where
  ascending : ∀ i, (T i).Pairwise (· < ·)
  fits : ∀ i, ∀ v ∈ T i, Fits v
  ordered : m.queue.Pairwise fun a b => a.before b = true
  waiting : ∀ w ∈ m.queue, ¬ J w.index ∧ ∃ c S, m.included[w.index]? = some c ∧
    T w.index = .cons w.value S ∧ Left c S
  idle : ∀ i c, m.included[i]? = some c → (∀ w ∈ m.queue, w.index ≠ i) →
    Left c (T i) ∧ (J i ∨ T i = .nil)
  outside : ∀ i, m.included[i]? = none → T i = .nil

namespace Queued

theorem congr {J' : Nat → Prop} (h : Queued Left Fits m T J) (hJ : ∀ i, J' i ↔ J i) :
    Queued Left Fits m T J' := by
  obtain rfl : J' = J := funext fun i => propext (hJ i)
  exact h

/-- Only the cursors and the queue matter. -/
theorem frame {m' : Merged ι} (h : Queued Left Fits m T J) (hincluded : m'.included = m.included)
    (hqueue : m'.queue = m.queue) : Queued Left Fits m' T J where
  ascending := h.ascending
  fits := h.fits
  ordered := hqueue ▸ h.ordered
  waiting := by rw [hqueue, hincluded]; exact h.waiting
  idle := by rw [hqueue, hincluded]; exact h.idle
  outside := by rw [hincluded]; exact h.outside

/-- Once the first of some places is filled, the others are still to be filled. -/
theorem others {places : List Nat} (hi : i ∉ places)
    (h : Queued Left Fits m T fun j => j ∈ i :: places ∧ j ≠ i) :
    Queued Left Fits m T (· ∈ places) := by
  refine h.congr fun j => ?_
  rw [List.mem_cons]
  constructor
  · exact fun hj => ⟨.inr hj, fun hji => hi (hji ▸ hj)⟩
  · rintro ⟨hj, hne⟩
    exact hj.resolve_left hne

theorem index_ne (h : Queued Left Fits m T J) (hi : J i) : ∀ w ∈ m.queue, w.index ≠ i := by
  rintro w hw rfl
  exact (h.waiting w hw).1 hi

/-- A place is filled at most once. -/
theorem index_nodup (h : Queued Left Fits m T J) : (m.queue.map Waiting.index).Nodup := by
  rw [List.nodup_iff_pairwise_ne, List.pairwise_map]
  refine h.ordered.imp_of_mem fun {a b} ha hb hab heq => ?_
  obtain ⟨-, c, S, -, hTa, -⟩ := h.waiting a ha
  obtain ⟨-, c', S', -, hTb, -⟩ := h.waiting b hb
  rw [heq, hTb] at hTa
  obtain ⟨hvalue, -⟩ := Stream'.Seq.cons_eq_cons.mp hTa
  rcases Waiting.before_iff.mp hab with hlt | ⟨-, hlt⟩
  · exact absurd hlt (hvalue ▸ lt_irrefl _)
  · exact absurd hlt (heq ▸ lt_irrefl _)

/-- Every value that is left and does not wait comes from a cursor whose first value waits. -/
theorem exists_waiting (h : Queued Left Fits m T fun _ => False) (hv : v ∈ T i) :
    ∃ w ∈ m.queue, w.index = i := by
  by_contra hnone
  push Not at hnone
  cases hc : m.included[i]? with
  | none => exact absurd (h.outside i hc ▸ hv) (Stream'.Seq.notMem_nil v)
  | some c =>
    obtain ⟨-, hnil⟩ := h.idle i c hc hnone
    exact absurd (hnil.resolve_left id ▸ hv) (Stream'.Seq.notMem_nil v)

/-- Finitely many values are left before a target. -/
theorem finite (hL : CursorLaws ops Left Target) (h : Queued Left Fits m T fun _ => False)
    (hv : Target v) (i : Nat) : {u | u ∈ T i ∧ u < v}.Finite := by
  by_cases hwait : ∃ w ∈ m.queue, w.index = i
  · obtain ⟨w, hw, rfl⟩ := hwait
    obtain ⟨-, c, S, -, hT, hc⟩ := h.waiting w hw
    refine ((hL.finite hc hv).insert w.value).subset ?_
    rintro u ⟨hu, hlt⟩
    rw [hT] at hu
    exact (Stream'.Seq.eq_or_mem_of_mem_cons hu).imp_right fun hu => ⟨hu, hlt⟩
  · refine Set.finite_empty.subset ?_
    rintro u ⟨hu, -⟩
    exact hwait (h.exists_waiting hu)

/-! ### Fetching -/

/-- A cursor of a place that is to be filled may stand elsewhere. -/
theorem replace (h : Queued Left Fits m T J) (hi : J i) {d : ι} (hS : Left d S)
    (hasc : S.Pairwise (· < ·)) (hfits : ∀ v ∈ S, Fits v) (hlength : i < m.included.length) :
    Queued Left Fits { m with included := m.included.set i d } (Function.update T i S) J := by
  have hfree := h.index_ne hi
  have hself : (m.included.set i d)[i]? = some d := List.getElem?_set_self hlength
  have hother : ∀ j, j ≠ i → (m.included.set i d)[j]? = m.included[j]? := fun j hj =>
    List.getElem?_set_ne hj.symm
  have hT : ∀ j, j ≠ i → Function.update T i S j = T j := fun j hj => Function.update_of_ne hj S T
  have hTi : Function.update T i S i = S := Function.update_self ..
  refine ⟨fun j => ?_, fun j => ?_, h.ordered, fun w hw => ?_, fun j c hj hnone => ?_, fun j hj => ?_⟩
  · by_cases hji : j = i
    · rw [hji, hTi]
      exact hasc
    · rw [hT j hji]
      exact h.ascending j
  · by_cases hji : j = i
    · rw [hji, hTi]
      exact hfits
    · rw [hT j hji]
      exact h.fits j
  · have hne := hfree w hw
    show ¬ J w.index ∧ ∃ c S', (m.included.set i d)[w.index]? = some c ∧ _
    rw [hT _ hne, hother _ hne]
    exact h.waiting w hw
  · by_cases hji : j = i
    · rw [hji] at hj ⊢
      obtain rfl := Option.some.inj (hself.symm.trans hj)
      rw [hTi]
      exact ⟨hS, .inl hi⟩
    · rw [hT j hji]
      exact h.idle j c (hother j hji ▸ hj) hnone
  · have hji : j ≠ i := by
      rintro rfl
      exact absurd (hself.symm.trans hj) (by simp)
    rw [hT j hji]
    exact h.outside j (hother j hji ▸ hj)

/-- A place whose cursor has ended stays empty. -/
theorem close (h : Queued Left Fits m T J) (hnil : T i = .nil) :
    Queued Left Fits m T fun j => J j ∧ j ≠ i where
  ascending := h.ascending
  fits := h.fits
  ordered := h.ordered
  waiting w hw := (h.waiting w hw).imp_left fun hJ hj => hJ hj.1
  idle j c hj hnone := by
    obtain ⟨hleft, hend⟩ := h.idle j c hj hnone
    by_cases hji : j = i
    · exact ⟨hleft, .inr (hji ▸ hnil)⟩
    · exact ⟨hleft, hend.imp_left fun hJ => ⟨hJ, hji⟩⟩
  outside := h.outside

/-- A value put into the queue fills the place of the cursor that it comes from. -/
theorem fill (h : Queued Left Fits m T J) (hi : J i) (hlength : i < m.included.length)
    (hasc : (Stream'.Seq.cons v (T i)).Pairwise (· < ·)) (hv : Fits v) :
    Queued Left Fits { m with queue := enqueue ⟨v, i⟩ m.queue }
      (Function.update T i (.cons v (T i))) fun j => J j ∧ j ≠ i := by
  have hfree := h.index_ne hi
  have hc : m.included[i]? = some m.included[i] := List.getElem?_eq_getElem hlength
  have hT : ∀ j, j ≠ i → Function.update T i (.cons v (T i)) j = T j := fun j hj =>
    Function.update_of_ne hj _ T
  have hTi : Function.update T i (.cons v (T i)) i = .cons v (T i) := Function.update_self ..
  refine ⟨fun j => ?_, fun j u hu => ?_, Waiting.pairwise_enqueue h.ordered hfree, fun w hw => ?_,
    fun j c hj hnone => ?_, fun j hj => ?_⟩
  · by_cases hji : j = i
    · rw [hji, hTi]
      exact hasc
    · rw [hT j hji]
      exact h.ascending j
  · by_cases hji : j = i
    · rw [hji, hTi] at hu
      rcases Stream'.Seq.eq_or_mem_of_mem_cons hu with rfl | hu
      · exact hv
      · exact h.fits i u hu
    · rw [hT j hji] at hu
      exact h.fits j u hu
  · rcases Waiting.mem_enqueue.mp hw with rfl | hw
    · exact ⟨fun hj => hj.2 rfl, _, _, hc, hTi, (h.idle i _ hc hfree).1⟩
    · rw [hT w.index (hfree w hw)]
      exact (h.waiting w hw).imp_left fun hJ hj => hJ hj.1
  · have hji : j ≠ i := by
      rintro rfl
      exact hnone ⟨v, j⟩ (Waiting.mem_enqueue.mpr (.inl rfl)) rfl
    rw [hT j hji]
    exact (h.idle j c hj fun w hw => hnone w (Waiting.mem_enqueue.mpr (.inr hw))).imp_right
      fun hend => hend.imp_left fun hJ => ⟨hJ, hji⟩
  · have hji : j ≠ i := by
      rintro rfl
      exact absurd (hc.symm.trans hj) (by simp)
    rw [hT j hji]
    exact h.outside j hj

/-- **Fetching the next value** of a cursor takes nothing away. -/
theorem refill (hL : CursorLaws ops Left Target) (h : Queued Left Fits m T J) (hi : J i) :
    ∃ included queue, Settles (fun n => m.refill (ops n) i) (.ok (), { m with included, queue }) ∧
      included.length = m.included.length ∧
      Queued Left Fits { m with included, queue } T fun j => J j ∧ j ≠ i := by
  cases hc : m.included[i]? with
  | none =>
    refine ⟨m.included, m.queue, ?_, rfl, h.close (h.outside i hc)⟩
    filter_upwards with n
    simp only [Merged.refill, hc]
  | some c =>
    have hlength : i < m.included.length := (List.getElem?_eq_some_iff.mp hc).1
    obtain ⟨c', hhead, hc'⟩ := hL.head (h.idle i c hc (h.index_ne hi)).1
    -- the cursor stands behind its next value, which is put into the queue
    have hmoved := h.replace hi hc' (Stream'.Seq.Pairwise_tail (h.ascending i))
    cases hT : T i using Stream'.Seq.recOn with
    | nil =>
      rw [hT] at hhead
      simp only [hT, Stream'.Seq.tail_nil, Stream'.Seq.notMem_nil, false_implies, implies_true,
        forall_const] at hmoved
      rw [← hT, Function.update_eq_self] at hmoved
      refine ⟨m.included.set i c', m.queue, ?_, List.length_set, (hmoved hlength).close hT⟩
      filter_upwards [hhead] with n hn
      simp only [Merged.refill, hc, hn, Stream'.Seq.head_nil]
    | cons v S =>
      have hasc := h.ascending i
      have hfits := h.fits i
      rw [hT] at hhead hasc hfits
      rw [hT, Stream'.Seq.tail_cons] at hmoved
      have hfilled := (hmoved (fun u hu => hfits u (Stream'.Seq.mem_cons_of_mem v hu)) hlength).fill
        hi (v := v) (by simpa using hlength) (by rwa [Function.update_self])
        (hfits v (Stream'.Seq.mem_cons v S))
      rw [Function.update_self, Function.update_idem, ← hT, Function.update_eq_self] at hfilled
      refine ⟨m.included.set i c', enqueue ⟨v, i⟩ m.queue, ?_, List.length_set, hfilled⟩
      filter_upwards [hhead] with n hn
      simp only [Merged.refill, hc, hn, Stream'.Seq.head_cons]

/-- Fetching one value after another fills all places. -/
theorem refillAll (hL : CursorLaws ops Left Target) {places : List Nat} (hnodup : places.Nodup)
    (h : Queued Left Fits m T (· ∈ places)) :
    ∃ included queue,
      Settles (fun n => Merged.refillAll (ops n) places m) (.ok (), { m with included, queue }) ∧
      Queued Left Fits { m with included, queue } T fun _ => False := by
  induction places generalizing m with
  | nil => exact ⟨m.included, m.queue, settles_const _, h.congr fun i => by simp⟩
  | cons i places ih =>
    obtain ⟨hi, hnodup⟩ := List.nodup_cons.mp hnodup
    obtain ⟨included, queue, hfetch, -, hqueued⟩ := h.refill hL List.mem_cons_self
    obtain ⟨included', queue', hfetches, hqueued'⟩ := ih hnodup (hqueued.others hi)
    refine ⟨included', queue', ?_, hqueued'⟩
    filter_upwards [hfetch, hfetches] with n hn hn'
    simp only [Merged.refillAll, hn, hn']

/-- Before the first values are fetched, every place is still to be filled. -/
theorem start (hL : CursorLaws ops Left Target) {included : List ι} {Ss : List Values}
    (hincluded : List.Forall₂ Left included Ss) (hfits : ∀ S ∈ Ss, ∀ v ∈ S, Fits v) :
    ∃ T, Queued Left Fits { included, excluded := [] } T (· ∈ List.range included.length) ∧
      (∀ i, T i = .nil ∨ T i ∈ Ss) ∧ ∀ u, (∃ i, u ∈ T i) ↔ ∃ S ∈ Ss, u ∈ S := by
  let T : Nat → Values := fun i => Ss[i]?.getD .nil
  have hlength := hincluded.length_eq
  have hT : ∀ i, T i = .nil ∨ T i ∈ Ss := by
    intro i
    cases hi : Ss[i]? with
    | none => exact .inl (by simp [T, hi])
    | some S => exact .inr (by simpa [T, hi] using List.mem_of_getElem? hi)
  have hleft : ∀ i c, included[i]? = some c → Left c (T i) := by
    intro i c hc
    obtain ⟨hi, rfl⟩ := List.getElem?_eq_some_iff.mp hc
    have := hincluded.get hi (hlength ▸ hi)
    simpa [T, List.getElem?_eq_getElem (hlength ▸ hi)] using this
  have houtside : ∀ i, included[i]? = none → T i = .nil := by
    intro i hi
    have hi : Ss[i]? = none := by
      rw [List.getElem?_eq_none_iff, ← hlength, ← List.getElem?_eq_none_iff]
      exact hi
    simp [T, hi]
  refine ⟨T, ⟨fun i => ?_, fun i v hv => ?_, List.Pairwise.nil, by simp, fun i c hc _ => ?_,
    houtside⟩, hT, fun u => ?_⟩
  · cases hc : included[i]? with
    | none =>
      rw [houtside i hc]
      exact Stream'.Seq.Pairwise.nil
    | some c => exact hL.ascending c _ (hleft i c hc)
  · rcases hT i with hnil | hmem
    · exact absurd (hnil ▸ hv) (Stream'.Seq.notMem_nil v)
    · exact hfits _ hmem v hv
  · exact ⟨hleft i c hc, .inl (List.mem_range.mpr (List.getElem?_eq_some_iff.mp hc).1)⟩
  · constructor
    · rintro ⟨i, hi⟩
      rcases hT i with hnil | hmem
      · exact absurd (hnil ▸ hi) (Stream'.Seq.notMem_nil u)
      · exact ⟨T i, hmem, hi⟩
    · rintro ⟨S, hS, hu⟩
      obtain ⟨i, hi⟩ := List.getElem?_of_mem hS
      exact ⟨i, by simpa [T, hi] using hu⟩

/-- **The first values are fetched** of all included cursors. -/
theorem fetchFirst (hL : CursorLaws ops Left Target) {included : List ι} {Ss : List Values}
    (hincluded : List.Forall₂ Left included Ss) (hfits : ∀ S ∈ Ss, ∀ v ∈ S, Fits v) :
    ∃ included' queue T, Settles
        (fun n => Merged.refillAll (ops n) (List.range included.length) { included, excluded := [] })
        (.ok (), { included := included', excluded := [], queue }) ∧
      Queued Left Fits { included := included', excluded := [], queue } T (fun _ => False) ∧
      (∀ i, T i = .nil ∨ T i ∈ Ss) ∧ ∀ u, (∃ i, u ∈ T i) ↔ ∃ S ∈ Ss, u ∈ S := by
  obtain ⟨T, hstart, hT, hmem⟩ := Queued.start hL hincluded hfits
  obtain ⟨included', queue, hfetches, hqueued⟩ := hstart.refillAll hL List.nodup_range
  exact ⟨included', queue, T, hfetches, hqueued, hT, hmem⟩

/-- **Moving cursors on** fills their places again.  What they have left then is related to what
they had left before as it is for one cursor. -/
theorem moveAll (hL : CursorLaws ops Left Target) {R : Values → Values → Prop}
    (hmoves : ∀ c S, Left c S → (∀ v ∈ S, Fits v) → ∃ d S',
      Settles (fun n => (ops n).advanceTo c target) (.ok (), d) ∧ Left d S' ∧ R S S' ∧
        ∀ v ∈ S', Fits v)
    {places : List Nat} (h : Queued Left Fits m T (· ∈ places)) (hnodup : places.Nodup)
    (hplaces : ∀ i ∈ places, i < m.included.length) :
    ∃ included queue T', Settles (fun n => Merged.advanceAll (ops n) target places m)
        (.ok (), { m with included, queue }) ∧
      Queued Left Fits { m with included, queue } T' (fun _ => False) ∧
      (∀ i ∈ places, R (T i) (T' i)) ∧ ∀ i ∉ places, T' i = T i := by
  induction places generalizing m T with
  | nil =>
    exact ⟨m.included, m.queue, T, settles_const _, h.congr fun i => by simp, by simp,
      fun _ _ => rfl⟩
  | cons i places ih =>
    obtain ⟨hi, hnodup⟩ := List.nodup_cons.mp hnodup
    rw [List.forall_mem_cons] at hplaces
    have hc : m.included[i]? = some m.included[i] := List.getElem?_eq_getElem hplaces.1
    have hleft := (h.idle i _ hc (h.index_ne List.mem_cons_self)).1
    obtain ⟨d, S, hmoved, hd, hS, hfits⟩ := hmoves _ _ hleft (h.fits i)
    obtain ⟨included, queue, hfetch, hlength, hqueued⟩ :=
      (h.replace List.mem_cons_self hd (hL.ascending d S hd) hfits hplaces.1).refill hL
        List.mem_cons_self
    have hlength : included.length = m.included.length := hlength.trans List.length_set
    obtain ⟨included', queue', T', hmoves, hqueued', hrelated, hsame⟩ :=
      ih (hqueued.others hi) hnodup fun j hj => (hplaces.2 j hj).trans_eq hlength.symm
    refine ⟨included', queue', T', ?_, hqueued', fun j hj => ?_, fun j hj => ?_⟩
    · filter_upwards [hmoved, hfetch, hmoves] with n hn hn' hn''
      simp only [Merged.advanceAll, hc, hn, hn', hn'']
    · rcases List.mem_cons.mp hj with rfl | hj
      · rw [hsame _ hi, Function.update_self]
        exact hS
      · have hji : j ≠ i := fun hji => hi (hji ▸ hj)
        have := hrelated j hj
        rwa [Function.update_of_ne hji] at this
    · rw [List.mem_cons, not_or] at hj
      rw [hsame j hj.2, Function.update_of_ne hj.1]

/-- Cursors that drop what is before the target drop nothing else. -/
theorem advanceAll (hL : CursorLaws ops Left Target) (htarget : Target target) {places : List Nat}
    (h : Queued Left Fits m T (· ∈ places)) (hnodup : places.Nodup)
    (hplaces : ∀ i ∈ places, i < m.included.length) :
    ∃ included queue T', Settles (fun n => Merged.advanceAll (ops n) target places m)
        (.ok (), { m with included, queue }) ∧
      Queued Left Fits { m with included, queue } T' (fun _ => False) ∧
      (∀ i ∈ places, DropsTo target (T i) (T' i)) ∧ ∀ i ∉ places, T' i = T i := by
  refine h.moveAll hL (fun c S hc hfits => ?_) hnodup hplaces
  obtain ⟨d, S', hS, hmoved, hd⟩ := hL.advanceTo c S target hc htarget
  -- what the cursor has left is part of what it had
  exact ⟨d, S', hmoved, hd, hS, fun v hv =>
    hfits v ((hS.mem_iff (hL.ascending c S hc)).mp hv).1⟩

/-- **The front of the queue is taken out**, and its places are to be filled again. -/
theorem takeFront (h : Queued Left Fits m T fun _ => False) {front back : List Waiting}
    (hqueue : m.queue = front ++ back) :
    Queued Left Fits { m with queue := back }
      (fun i => if i ∈ front.map Waiting.index then (T i).tail else T i)
      (· ∈ front.map Waiting.index) := by
  -- no place is in both parts of the queue
  have hback : ∀ w ∈ back, w.index ∉ front.map Waiting.index := by
    have hnodup := h.index_nodup
    rw [hqueue, List.map_append, List.nodup_append] at hnodup
    exact fun w hw hi => hnodup.2.2 _ hi _ (List.mem_map_of_mem hw) rfl
  have hordered : back.Pairwise fun a b => a.before b = true := by
    have := h.ordered
    rw [hqueue] at this
    exact (List.pairwise_append.mp this).2.1
  refine ⟨fun i => ?_, fun i v hv => ?_, hordered, fun w hw => ?_, fun i c hi hnone => ?_,
    fun i hi => ?_⟩
  · split_ifs
    · exact Stream'.Seq.Pairwise_tail (h.ascending i)
    · exact h.ascending i
  · split_ifs at hv with hi
    · obtain ⟨w, hw, rfl⟩ := List.mem_map.mp hi
      obtain ⟨-, c, S, -, hT, -⟩ := h.waiting w (hqueue ▸ List.mem_append_left back hw)
      rw [hT, Stream'.Seq.tail_cons] at hv
      exact h.fits w.index v (hT ▸ Stream'.Seq.mem_cons_of_mem _ hv)
    · exact h.fits i v hv
  · rw [if_neg (hback w hw)]
    exact ⟨hback w hw, (h.waiting w (hqueue ▸ List.mem_append_right front hw)).2⟩
  · split_ifs with hfront
    · obtain ⟨w, hw, rfl⟩ := List.mem_map.mp hfront
      obtain ⟨-, d, S, hd, hT, hS⟩ := h.waiting w (hqueue ▸ List.mem_append_left back hw)
      obtain rfl := Option.some.inj (hd.symm.trans hi)
      rw [hT, Stream'.Seq.tail_cons]
      exact ⟨hS, .inl hfront⟩
    · refine (h.idle i c hi fun w hw => ?_).imp_right fun hend => hend.imp_left False.elim
      rw [hqueue, List.mem_append] at hw
      rcases hw with hw | hw
      · exact fun hwi => hfront (hwi ▸ List.mem_map_of_mem hw)
      · exact hnone w hw
  · rw [h.outside i hi, Stream'.Seq.tail_nil, ite_self]

/-- The values before a key are taken out of the queue, and their cursors are to be moved on. -/
theorem takeStale (h : Queued Left Fits m T fun _ => False) (k : List Int) :
    let isStale := fun w : Waiting => decide (w.value.key < k)
    let stale := (m.queue.takeWhile isStale).map Waiting.index
    Queued Left Fits { m with queue := m.queue.dropWhile isStale, pending := none }
        (fun i => if i ∈ stale then (T i).tail else T i) (· ∈ stale) ∧
      stale.Nodup ∧ (∀ i ∈ stale, i < m.included.length) ∧
      (∀ i ∈ stale, ∃ v S, T i = .cons v S ∧ v.key < k) ∧
      ∀ i ∉ stale, ∀ v ∈ (T i).head, ¬ v.key < k := by
  intro isStale stale
  have hsplit : m.queue = m.queue.takeWhile isStale ++ m.queue.dropWhile isStale :=
    List.takeWhile_append_dropWhile.symm
  have hnodup := h.index_nodup
  rw [hsplit, List.map_append] at hnodup
  have hfirst : ∀ i ∈ stale, ∃ c v S, m.included[i]? = some c ∧ T i = .cons v S ∧ v.key < k := by
    intro i hi
    obtain ⟨w, hw, rfl⟩ := List.mem_map.mp hi
    obtain ⟨-, c, S, hc, hT, -⟩ := h.waiting w ((List.takeWhile_sublist _).mem hw)
    exact ⟨c, w.value, S, hc, hT, by simpa [isStale] using List.mem_takeWhile_imp hw⟩
  refine ⟨(h.takeFront hsplit).frame rfl rfl, hnodup.of_append_left, fun i hi => ?_, fun i hi => ?_,
    fun i hi v hv => ?_⟩
  · obtain ⟨c, v, S, hc, -⟩ := hfirst i hi
    exact (List.getElem?_eq_some_iff.mp hc).1
  · obtain ⟨c, v, S, -, hT, hlt⟩ := hfirst i hi
    exact ⟨v, S, hT, hlt⟩
  · -- what still waits is not before the key, for the queue is ordered by keys
    obtain ⟨w, hw, rfl⟩ := h.exists_waiting (Stream'.Seq.mem_iff_exists_get?.mpr ⟨0, hv.symm⟩)
    obtain ⟨-, c, S, -, hT, -⟩ := h.waiting w hw
    rw [hT, Stream'.Seq.head_cons, Option.mem_some_iff] at hv
    rw [← hv]
    rw [hsplit, List.mem_append] at hw
    rcases hw with hw | hw
    · exact absurd (List.mem_map_of_mem hw) hi
    · exact Waiting.not_lt_of_mem_dropWhile h.ordered hw

/-- Nothing that is left comes before the first of the queue. -/
theorem first_le {w : Waiting} {queue : List Waiting} (h : Queued Left Fits m T fun _ => False)
    (horder : ∀ u v, Fits u → Fits v → (u ≤ v ↔ u.key ≤ v.key)) (hqueue : m.queue = w :: queue)
    (hu : u ∈ T i) : w.value ≤ u := by
  have hfits : ∀ x ∈ m.queue, Fits x.value := by
    intro x hx
    obtain ⟨-, c, S, -, hT, -⟩ := h.waiting x hx
    exact h.fits x.index x.value (hT ▸ Stream'.Seq.mem_cons _ _)
  -- the first value of the cursor that has it waits, and what waits comes after `w`
  obtain ⟨x, hx, rfl⟩ := h.exists_waiting hu
  obtain ⟨-, d, S, -, hT, -⟩ := h.waiting x hx
  have hasc := h.ascending x.index
  rw [hT] at hasc hu
  refine le_trans ?_ (Ascending.head_le hasc hu)
  rw [horder _ _ (hfits w (hqueue ▸ List.mem_cons_self)) (hfits x hx)]
  rw [hqueue, List.mem_cons] at hx
  rcases hx with rfl | hx
  · exact le_rfl
  · rcases Waiting.before_iff.mp ((List.pairwise_cons.mp (hqueue ▸ h.ordered)).1 x hx)
      with hlt | ⟨heq, -⟩
    · exact hlt.le
    · exact heq.le

/-- **The first of the queue** is the least value that is left.  Taken out, it leaves its place to
be filled again. -/
theorem pop {w : Waiting} {queue : List Waiting} (h : Queued Left Fits m T fun _ => False)
    (horder : ∀ u v, Fits u → Fits v → (u ≤ v ↔ u.key ≤ v.key)) (hqueue : m.queue = w :: queue) :
    ∃ S, T w.index = .cons w.value S ∧ (∀ i, ∀ u ∈ T i, w.value ≤ u) ∧
      Queued Left Fits { m with queue } (Function.update T w.index S) (· = w.index) := by
  obtain ⟨-, c, S, -, hT, -⟩ := h.waiting w (hqueue ▸ List.mem_cons_self)
  have hleft : (fun i => if i ∈ [w].map Waiting.index then (T i).tail else T i) =
      Function.update T w.index S := by
    ext1 i
    by_cases hi : i = w.index
    · subst hi
      simp [hT]
    · simp [hi]
  have hfront : m.queue = [w] ++ queue := hqueue
  have hqueued := h.takeFront hfront
  rw [hleft] at hqueued
  exact ⟨S, hT, fun i u hu => h.first_le horder hqueue hu, hqueued.congr fun i => by simp⟩

/-- **Taking out the first of the queue** and fetching the next value of its cursor. -/
theorem takeFirst (hL : CursorLaws ops Left Target) {w : Waiting} {queue : List Waiting}
    (h : Queued Left Fits m T fun _ => False)
    (horder : ∀ u v, Fits u → Fits v → (u ≤ v ↔ u.key ≤ v.key)) (hqueue : m.queue = w :: queue) :
    ∃ S included queue', T w.index = .cons w.value S ∧ (∀ i, ∀ u ∈ T i, w.value ≤ u) ∧
      Settles (fun n => { m with queue }.refill (ops n) w.index)
        (.ok (), { m with included, queue := queue' }) ∧
      included.length = m.included.length ∧
      Queued Left Fits { m with included, queue := queue' } (Function.update T w.index S)
        fun _ => False := by
  obtain ⟨S, hT, hleast, hpopped⟩ := h.pop horder hqueue
  obtain ⟨included, queue', hfetch, hlength, hqueued⟩ := hpopped.refill hL rfl
  exact ⟨S, included, queue', hT, hleast, hfetch, hlength, hqueued.congr fun j => by simp⟩

end Queued

end Merged

end Recurrence
