/-
Recurrence/Proofs/Cursor/Members.lean

The cursors that are merged.

A merged cursor knows its members by their operations alone.  All that it relies on is
that every member stands before the rest of an ascending sequence, tells whether there is
a value left, hands out the next one, and can be moved on to a value (`CursorLaws`).  The
sequence may be infinite.

An excluded member waits with its next value.  Asked about a value, it is moved on to it if
it is behind, and then it waits with this very value or does not produce it
(`Members.excludes`).
-/
import Recurrence.Cursor.Dates
import Recurrence.Cursor.Merged
import Recurrence.Proofs.Calendar.Ascending
import Recurrence.Proofs.Calendar.Shifts
import Recurrence.Proofs.Cursor.Calls
import Recurrence.Proofs.Outcomes

namespace Recurrence

/-- How the cursors of a kind behave that stand before the rest of a sequence.  They need not
take every value as a target. -/
structure CursorLaws {ι : Type} (ops : Nat → CursorOps ι) (Left : ι → Values → Prop)
    (Target : Value → Prop) : Prop where
  ascending : ∀ c S, Left c S → S.Pairwise (· < ·)
  hasNext : ∀ c S, Left c S → ∃ c',
    Settles (fun n => (ops n).hasNext c) (.ok S.head.isSome, c') ∧ Left c' S
  next : ∀ c v S, Left c (.cons v S) → ∃ c',
    Settles (fun n => (ops n).next c) (.ok v, c') ∧ Left c' S
  advanceTo : ∀ c S target, Left c S → Target target → ∃ c' S', DropsTo target S S' ∧
    Settles (fun n => (ops n).advanceTo c target) (.ok (), c') ∧ Left c' S'

/-- An excluded cursor waits with the first value of a sequence and stands before the rest. -/
structure Excluded.Waits {ι : Type} (Left : ι → Values → Prop) (x : Excluded ι) (X : Values) :
    Prop where
  ascending : X.Pairwise (· < ·)
  head : x.head = X.head
  cursor : Left x.cursor X.tail

namespace CursorLaws

variable {ι : Type} {ops : Nat → CursorOps ι} {Left : ι → Values → Prop} {Target : Value → Prop}
  {c : ι} {S X : Values} {x : Excluded ι} {v u : Value}

/-- Fewer targets leave the laws as they are. -/
theorem restrict {Target' : Value → Prop} (hL : CursorLaws ops Left Target)
    (h : ∀ v, Target' v → Target v) : CursorLaws ops Left Target' where
  ascending := hL.ascending
  hasNext := hL.hasNext
  next := hL.next
  advanceTo c S target hc htarget := hL.advanceTo c S target hc (h target htarget)

/-! ### The next value -/

/-- The next value of a cursor is the first of its sequence. -/
theorem head (hL : CursorLaws ops Left Target) (h : Left c S) :
    ∃ c', Settles (fun n => (ops n).head c) (.ok S.head, c') ∧ Left c' S.tail := by
  obtain ⟨c₁, hmore, h₁⟩ := hL.hasNext c S h
  cases S using Stream'.Seq.recOn with
  | nil =>
    refine ⟨c₁, ?_, h₁⟩
    filter_upwards [hmore] with n hn
    rw [Stream'.Seq.head_nil] at hn
    simp only [CursorOps.head, hn, Option.isSome_none, Stream'.Seq.head_nil]
  | cons v S =>
    obtain ⟨c₂, hnext, h₂⟩ := hL.next c₁ v S h₁
    refine ⟨c₂, ?_, h₂⟩
    filter_upwards [hmore, hnext] with n hn hn'
    rw [Stream'.Seq.head_cons] at hn
    simp only [CursorOps.head, hn, hn', Option.isSome_some, Stream'.Seq.head_cons]

/-- Finitely many values of a member are before a target. -/
theorem finite (hL : CursorLaws ops Left Target) (h : Left c S) (hv : Target v) :
    {u | u ∈ S ∧ u < v}.Finite := by
  obtain ⟨c', S', hdrops, -⟩ := hL.advanceTo c S v h hv
  exact hdrops.finite (hL.ascending c S h)

/-! ### Excluded cursors -/

theorem waits (hL : CursorLaws ops Left Target) (h : Left c S) :
    ∃ c', Settles (fun n => (ops n).head c) (.ok S.head, c') ∧ Excluded.Waits Left ⟨c', S.head⟩ S := by
  obtain ⟨c', hhead, h'⟩ := hL.head h
  exact ⟨c', hhead, hL.ascending c S h, rfl, h'⟩

/-- All excluded cursors begin to wait. -/
theorem withHeads (hL : CursorLaws ops Left Target) {cs : List ι} {Xs : List Values}
    (h : List.Forall₂ Left cs Xs) : ∃ xs,
      Settles (fun n => Merged.withHeads (ops n) cs) (.ok xs) ∧
        List.Forall₂ (Excluded.Waits Left) xs Xs := by
  induction h with
  | nil => exact ⟨[], settles_const _, .nil⟩
  | @cons c X cs Xs hc _ ih =>
    obtain ⟨xs, hxs, hwait⟩ := ih
    obtain ⟨c', hhead, hwaits⟩ := hL.waits hc
    refine ⟨⟨c', X.head⟩ :: xs, ?_, .cons hwaits hwait⟩
    filter_upwards [hhead, hxs] with n hn hn'
    simp only [Merged.withHeads, hn, hn', Option.map_some]
    rfl

/-- Where an excluded cursor does not wait with a value before another, it waits with this one or
does not produce it. -/
theorem head_beq_iff (h : x.Waits Left X) (hle : ∀ w ∈ x.head, ¬ w < v) :
    (x.head == some v) = true ↔ v ∈ X := by
  rw [beq_iff_eq, h.head]
  rw [h.head] at hle
  cases X using Stream'.Seq.recOn with
  | nil => simp
  | cons a X =>
    rw [Stream'.Seq.head_cons] at hle ⊢
    constructor
    · intro ha
      rw [Option.some.inj ha]
      exact Stream'.Seq.mem_cons v X
    · intro hv
      have hav : a ≤ v := Ascending.head_le h.ascending hv
      rw [le_antisymm hav (not_lt.mp (hle a rfl))]

/-- **Asked about a value**, the excluded cursors tell whether one of them produces it.  Nothing
that comes after it is lost. -/
theorem excludes (hL : CursorLaws ops Left Target) (hv : Target v) {xs : List (Excluded ι)}
    {Xs : List Values} (h : List.Forall₂ (Excluded.Waits Left) xs Xs) :
    ∃ found xs' Xs', Settles (fun n => Merged.excludes (ops n) v xs) (.ok found, xs') ∧
      List.Forall₂ (Excluded.Waits Left) xs' Xs' ∧ (found = true ↔ ∃ X ∈ Xs, v ∈ X) ∧
      ∀ u, v < u → ((∃ X ∈ Xs', u ∈ X) ↔ ∃ X ∈ Xs, u ∈ X) := by
  induction h with
  | nil => exact ⟨false, [], [], settles_const _, .nil, by simp, by simp⟩
  | @cons x X xs Xs hx _ ih =>
    obtain ⟨found, xs', Xs', hxs, hwait, hfound, hlater⟩ := ih
    -- whether or not the cursor was behind the value, it waits with one that is not before it
    obtain ⟨x', X', hx', hdrops, hstep⟩ : ∃ x' X', x'.Waits Left X' ∧ DropsTo v X X' ∧
        Settles (fun n => Merged.excludes (ops n) v (x :: xs))
          (.ok (found || x'.head == some v), x' :: xs') := by
      cases X using Stream'.Seq.recOn with
      | nil =>
        refine ⟨x, .nil, hx, DropsTo.nil v, ?_⟩
        filter_upwards [hxs] with n hn
        have hnone : x.head = none := hx.head
        simp only [Merged.excludes, hnone, hn]
      | cons a X =>
        have hhead : x.head = some a := hx.head
        by_cases hlt : a < v
        · obtain ⟨c₁, S, hS, hmoved, hc₁⟩ := hL.advanceTo x.cursor X v hx.cursor hv
          obtain ⟨c₂, hnext, hc₂⟩ := hL.waits hc₁
          refine ⟨⟨c₂, S.head⟩, S, hc₂, hS.cons hlt, ?_⟩
          filter_upwards [hmoved, hnext, hxs] with n hn hn' hn''
          simp only [Merged.excludes, hhead, hlt, if_true, hn, hn', hn'']
        · refine ⟨x, .cons a X, hx, DropsTo.stay ?_, ?_⟩
          · rintro _ ⟨⟩
            exact hlt
          · filter_upwards [hxs] with n hn
            simp only [Merged.excludes, hhead, hlt, if_false, hn]
    refine ⟨_, _, X' :: Xs', hstep, .cons hx' hwait, ?_, fun u hu => ?_⟩
    · have hstop : ∀ w ∈ x'.head, ¬ w < v := by
        obtain ⟨n, rfl, -, hstop⟩ := hdrops
        rw [hx'.head]
        exact hstop
      have hmem : v ∈ X' ↔ v ∈ X := (hdrops.mem_iff hx.ascending).trans (and_iff_left (lt_irrefl v))
      rw [Bool.or_eq_true, hfound, head_beq_iff hx' hstop, hmem]
      simp [or_comm]
    · have hmem : u ∈ X' ↔ u ∈ X := (hdrops.mem_iff hx.ascending).trans (and_iff_left hu.asymm)
      simp [hmem, hlater u hu]

end CursorLaws

/-! ### Listed dates -/

theorem mem_ofList {vs : List Value} {v : Value} : v ∈ (Stream'.Seq.ofList vs : Values) ↔ v ∈ vs := by
  rw [Stream'.Seq.mem_iff_exists_get?, List.mem_iff_getElem?]
  simp only [Stream'.Seq.ofList_get?, eq_comm]

theorem pairwise_ofList {vs : List Value} (h : vs.Pairwise (· < ·)) :
    (Stream'.Seq.ofList vs : Values).Pairwise (· < ·) := by
  induction vs with
  | nil => exact Stream'.Seq.Pairwise.nil
  | cons v vs ih =>
    obtain ⟨hv, hvs⟩ := List.pairwise_cons.mp h
    rw [Stream'.Seq.ofList_cons]
    exact (ih hvs).cons fun u hu => hv u (mem_ofList.mp hu)

theorem dropsTo_dropWhile (vs : List Value) (target : Value) :
    DropsTo target (.ofList vs) (.ofList (vs.dropWhile fun v => v < target)) := by
  induction vs with
  | nil => exact DropsTo.nil target
  | cons v vs ih =>
    rw [Stream'.Seq.ofList_cons]
    by_cases hlt : v < target
    · rw [List.dropWhile_cons_of_pos (by simpa using hlt)]
      exact ih.cons hlt
    · rw [List.dropWhile_cons_of_neg (by simpa using hlt), Stream'.Seq.ofList_cons]
      refine DropsTo.stay ?_
      rintro _ ⟨⟩
      exact hlt

/-- **Real values have a cursor** over their UTC values. -/
theorem DateCursor.exists_ofList {vs : List Value} (zone : Zone) (hvs : ∀ v ∈ vs, v.IsReal) :
    ∃ us, DateCursor.ofList vs zone = .ok ⟨us, us⟩ ∧ us.Pairwise (· < ·) ∧
      ∀ u, u ∈ us ↔ ∃ v ∈ vs, v.toUtc zone = .ok u := by
  obtain ⟨us, hus⟩ : ∃ us, vs.mapM (fun v => v.toUtc zone) = .ok us := by
    simp only [mapM_eq_ok_iff]
    induction vs with
    | nil => exact ⟨[], .nil⟩
    | cons v vs ih =>
      obtain ⟨hv, hvs⟩ := List.forall_mem_cons.mp hvs
      obtain ⟨u, hu, -⟩ := Value.toUtc_spec zone hv
      obtain ⟨us, hus⟩ := ih hvs
      exact ⟨u :: us, .cons hu hus⟩
  have hutc : DateCursor.utcValues vs zone = .ok (ascending (fun a b => decide (a < b)) us) := by
    rw [DateCursor.utcValues, hus]
    rfl
  refine ⟨_, by rw [DateCursor.ofList, hutc], pairwise_ascending us, fun u => ?_⟩
  exact mem_ascending.trans (mem_iff_of_mapM hus)

/-- **Listed dates** are handed out in their order. -/
theorem DateCursor.laws : CursorLaws (fun _ => DateCursor.ops)
    (fun c S => c.rest.Pairwise (· < ·) ∧ S = .ofList c.rest) fun _ => True where
  ascending := by
    rintro c _ ⟨hasc, rfl⟩
    exact pairwise_ofList hasc
  hasNext := by
    rintro ⟨values, rest⟩ _ ⟨hasc, rfl⟩
    refine ⟨⟨values, rest⟩, ?_, hasc, rfl⟩
    cases rest <;> exact settles_const _
  next := by
    rintro ⟨values, rest⟩ v S ⟨hasc, hS⟩
    cases rest with
    | nil => exact absurd hS Stream'.Seq.cons_ne_nil
    | cons u rest =>
      rw [Stream'.Seq.ofList_cons] at hS
      obtain ⟨rfl, rfl⟩ := Stream'.Seq.cons_eq_cons.mp hS
      exact ⟨⟨values, rest⟩, settles_const _, (List.pairwise_cons.mp hasc).2, rfl⟩
  advanceTo := by
    rintro c _ target ⟨hasc, rfl⟩ -
    exact ⟨c.advanceTo target, _, dropsTo_dropWhile c.rest target, settles_const _,
      hasc.sublist (List.dropWhile_sublist _), rfl⟩

end Recurrence
