/-
Recurrence/Proofs/Cursor/Calls.lean

Calls of a cursor, and what a cursor over a sequence answers to them.

A cursor is asked one call after another, in any order, and a failure is an answer like
others.  What it should answer is said by the plainest cursor there is.  It stands before
the rest of a sequence, hands out its head, and moves past the leading values that are
before a target (`Follows`).  Its sequence may be infinite, and it never asks for more of
it than the call needs.

A cursor that answers every call as the plain one does, and is then left in a state that
does so again, answers all calls as the plain one does (`settles_askAll`).
-/
import Mathlib.Data.Seq.Basic
import Mathlib.Data.Set.Finite.Basic
import Mathlib.Data.Set.Finite.Range
import Recurrence.Cursor.Basic
import Recurrence.Proofs.Calendar.ValueOrder
import Recurrence.Proofs.Series.Patience

namespace Recurrence

/-! ### Calls and answers -/

/-- A call of a cursor. -/
inductive CursorCall where
  | hasNext
  | next
  | advanceTo (target : Value)
deriving DecidableEq

/-- What a call is answered. -/
inductive CursorAnswer where
  | more (another : Bool)
  | value (v : Value)
  | moved
  | failed (error : SeriesError)
deriving DecidableEq

/-- The answer that an operation has given. -/
def CursorAnswer.of {α : Type} (answer : α → CursorAnswer) : Except SeriesError α → CursorAnswer
  | .ok a => answer a
  | .error e => .failed e

namespace CursorOps

variable {ι : Type}

/-- Make one call. -/
def ask (ops : CursorOps ι) (call : CursorCall) (c : ι) : Option (CursorAnswer × ι) :=
  match call with
  | .hasNext => (ops.hasNext c).map fun (r, c) => (.of .more r, c)
  | .next => (ops.next c).map fun (r, c) => (.of .value r, c)
  | .advanceTo target => (ops.advanceTo c target).map fun (r, c) => (.of (fun _ => .moved) r, c)

/-- Make one call after another. -/
def askAll (ops : CursorOps ι) : List CursorCall → ι → Option (List CursorAnswer × ι)
  | [], c => some ([], c)
  | call :: calls, c =>
    match ops.ask call c with
    | none => none
    | some (a, c) => (ops.askAll calls c).map fun (answers, c) => (a :: answers, c)

/-- A cursor that answers each call patiently answers all calls patiently. -/
theorem patient_askAll {ops : Nat → CursorOps ι} (h : ∀ call c, Patient fun n => (ops n).ask call c)
    (calls : List CursorCall) (c : ι) : Patient fun n => (ops n).askAll calls c := by
  induction calls generalizing c with
  | nil => exact patient_const _
  | cons call calls ih =>
    apply Patient.after (h call c)
    · intro n hn
      simp only [askAll, hn]
    · intro m n b a hmn hm hn hall
      simp only [askAll, hm] at hall
      simp only [askAll, hn]
      exact Patient.map (ih _) _ hmn hall

/-- A cursor that settles on an answer to a call, and then on answers to more calls, settles on
all of them. -/
theorem settles_askAll_cons {ops : Nat → CursorOps ι} {call : CursorCall} {calls : List CursorCall}
    {c c' c'' : ι} {a : CursorAnswer} {answers : List CursorAnswer}
    (hask : Settles (fun n => (ops n).ask call c) (a, c'))
    (hrest : Settles (fun n => (ops n).askAll calls c') (answers, c'')) :
    Settles (fun n => (ops n).askAll (call :: calls) c) (a :: answers, c'') := by
  filter_upwards [hask, hrest] with n hn hn'
  simp only [askAll, hn, hn', Option.map_some]

end CursorOps

/-- A series answers all calls patiently. -/
theorem Series.patient_askAll (calls : List CursorCall) (s : Series) :
    Patient fun n => (Series.ops n).askAll calls s := by
  refine CursorOps.patient_askAll (fun call s => ?_) calls s
  cases call with
  | hasNext => exact Patient.map (patient_hasNext s) _
  | next => exact Patient.map (patient_next s) _
  | advanceTo target => exact Patient.map (patient_advanceTo s target) _

/-! ### The cursor over a sequence -/

/-- A finite or infinite sequence of values. -/
abbrev Values := Stream'.Seq Value

/-- The rest of a sequence behind the leading values that are before a target. -/
def DropsTo (target : Value) (S S' : Values) : Prop :=
  ∃ n, S' = S.drop n ∧ (∀ i < n, ∃ v, S.get? i = some v ∧ v < target) ∧
    ∀ v ∈ S'.head, ¬ v < target

/-- What the cursor over a sequence answers to a call, and the sequence that is left.  At the
end of the sequence it fails with an error of its own, and it may aim at something else than
the target that it is given. -/
inductive Follows (stop : SeriesError) (aim : Value → Value) :
    Values → CursorCall → CursorAnswer → Values → Prop where
  | more (S : Values) : Follows stop aim S .hasNext (.more S.head.isSome) S
  | next (v : Value) (S : Values) : Follows stop aim (.cons v S) .next (.value v) S
  | ended : Follows stop aim .nil .next (.failed stop) .nil
  | moved {target : Value} {S S' : Values} (h : DropsTo (aim target) S S') :
      Follows stop aim S (.advanceTo target) .moved S'

/-- What the cursor over a sequence answers to one call after another. -/
inductive FollowsAll (stop : SeriesError) (aim : Value → Value) :
    Values → List CursorCall → List CursorAnswer → Values → Prop where
  | nil (S : Values) : FollowsAll stop aim S [] [] S
  | cons {S S' S'' : Values} {call : CursorCall} {calls : List CursorCall} {a : CursorAnswer}
      {answers : List CursorAnswer} (head : Follows stop aim S call a S')
      (tail : FollowsAll stop aim S' calls answers S'') :
      FollowsAll stop aim S (call :: calls) (a :: answers) S''

variable {stop : SeriesError} {aim : Value → Value} {S S' S'' : Values} {v u target : Value}

/-! ### Ascending sequences -/

namespace Ascending

theorem injective (h : S.Pairwise (· < ·)) {i j : Nat} (hi : S.get? i = some v)
    (hj : S.get? j = some v) : i = j := by
  rcases lt_trichotomy i j with hlt | rfl | hlt
  · exact absurd (h i j hlt v hi v hj) (lt_irrefl v)
  · rfl
  · exact absurd (h j i hlt v hj v hi) (lt_irrefl v)

/-- The least element of an ascending sequence is its head. -/
theorem eq_cons (h : S.Pairwise (· < ·)) (hv : v ∈ S) (hle : ∀ u ∈ S, v ≤ u) :
    ∃ S', S = .cons v S' := by
  cases S using Stream'.Seq.recOn with
  | nil => exact absurd hv (Stream'.Seq.notMem_nil v)
  | cons a S =>
    rcases Stream'.Seq.eq_or_mem_of_mem_cons hv with rfl | hmem
    · exact ⟨S, rfl⟩
    · have hlt := (h.cons_elim).1 v hmem
      exact absurd (hle a (Stream'.Seq.mem_cons a S)) hlt.not_ge

theorem head_le (h : (Stream'.Seq.cons v S).Pairwise (· < ·)) (hu : u ∈ Stream'.Seq.cons v S) :
    v ≤ u := by
  rcases Stream'.Seq.eq_or_mem_of_mem_cons hu with rfl | hmem
  · exact le_rfl
  · exact ((h.cons_elim).1 u hmem).le

theorem mem_tail_iff (h : (Stream'.Seq.cons v S).Pairwise (· < ·)) :
    u ∈ S ↔ u ∈ Stream'.Seq.cons v S ∧ v < u := by
  rw [Stream'.Seq.mem_cons_iff]
  constructor
  · exact fun hu => ⟨.inr hu, (h.cons_elim).1 u hu⟩
  · rintro ⟨rfl | hu, hlt⟩
    · exact absurd hlt (lt_irrefl _)
    · exact hu

/-- Two ascending sequences with the same elements begin alike. -/
theorem alike (h : S.Pairwise (· < ·)) (h' : S'.Pairwise (· < ·)) (hmem : ∀ u, u ∈ S ↔ u ∈ S') :
    S = .nil ∧ S' = .nil ∨ ∃ v T T', S = .cons v T ∧ S' = .cons v T' ∧ T.Pairwise (· < ·) ∧
      T'.Pairwise (· < ·) ∧ ∀ u, u ∈ T ↔ u ∈ T' := by
  cases S using Stream'.Seq.recOn with
  | nil =>
    cases S' using Stream'.Seq.recOn with
    | nil => exact .inl ⟨rfl, rfl⟩
    | cons v T => exact absurd ((hmem v).mpr (Stream'.Seq.mem_cons v T)) (Stream'.Seq.notMem_nil v)
  | cons v T =>
    -- the head of the one is the least element of the other
    obtain ⟨T', rfl⟩ := eq_cons h' ((hmem v).mp (Stream'.Seq.mem_cons v T)) fun u hu =>
      head_le h ((hmem u).mpr hu)
    exact .inr ⟨v, T, T', rfl, rfl, h.cons_elim.2, h'.cons_elim.2, fun u => by
      rw [mem_tail_iff h, mem_tail_iff h', hmem]⟩

/-- **Ascending sequences** with the same elements are the same. -/
theorem eq_of_mem_iff (h : S.Pairwise (· < ·)) (h' : S'.Pairwise (· < ·))
    (hmem : ∀ u, u ∈ S ↔ u ∈ S') : S = S' := by
  apply Stream'.Seq.ext
  intro n
  -- on the position: the tails have the same elements too
  induction n generalizing S S' with
  | zero => obtain ⟨rfl, rfl⟩ | ⟨v, T, T', rfl, rfl, -⟩ := alike h h' hmem <;> rfl
  | succ n ih =>
    obtain ⟨rfl, rfl⟩ | ⟨v, T, T', rfl, rfl, hT, hT', hmem⟩ := alike h h' hmem
    · rfl
    · rw [Stream'.Seq.get?_cons_succ, Stream'.Seq.get?_cons_succ]
      exact ih hT hT' hmem

end Ascending

/-! ### Dropping -/

namespace DropsTo

/-- What a move to a target leaves is determined by the target. -/
theorem unique (h : DropsTo target S S') (h' : DropsTo target S S'') : S' = S'' := by
  have key : ∀ {m n : Nat}, (∀ i < n, ∃ v, S.get? i = some v ∧ v < target) →
      (∀ v ∈ (S.drop m).head, ¬ v < target) → n ≤ m := by
    intro m n hn hm
    by_contra hlt
    obtain ⟨v, hv, hvt⟩ := hn m (not_le.mp hlt)
    rw [Stream'.Seq.head_dropn] at hm
    exact hm v hv hvt
  obtain ⟨m, rfl, hm, hm'⟩ := h
  obtain ⟨n, rfl, hn, hn'⟩ := h'
  rw [le_antisymm (key hm hn') (key hn hm')]

theorem nil (target : Value) : DropsTo target .nil .nil :=
  ⟨0, rfl, fun _ hi => absurd hi (Nat.not_lt_zero _), fun v hv => by simp at hv⟩

/-- A sequence that does not start before the target is left alone. -/
theorem stay (h : ∀ v ∈ S.head, ¬ v < target) : DropsTo target S S :=
  ⟨0, rfl, fun _ hi => absurd hi (Nat.not_lt_zero _), h⟩

/-- One value before the target is dropped with those that follow it. -/
theorem cons (hv : v < target) (h : DropsTo target S S') : DropsTo target (.cons v S) S' := by
  obtain ⟨n, rfl, hn, hn'⟩ := h
  refine ⟨n + 1, Stream'.Seq.drop_succ_cons.symm, fun i hi => ?_, hn'⟩
  cases i with
  | zero => exact ⟨v, Stream'.Seq.get?_cons_zero v S, hv⟩
  | succ i =>
    rw [Stream'.Seq.get?_cons_succ]
    exact hn i (by omega)

/-- Of an ascending sequence, those elements are left that are not before the target. -/
theorem mem_iff (hS : S.Pairwise (· < ·)) (h : DropsTo target S S') :
    u ∈ S' ↔ u ∈ S ∧ ¬ u < target := by
  obtain ⟨n, rfl, hn, hn'⟩ := h
  rw [Stream'.Seq.head_dropn] at hn'
  rw [Stream'.Seq.mem_iff_exists_get?, Stream'.Seq.mem_iff_exists_get?]
  constructor
  · rintro ⟨i, hi⟩
    rw [Stream'.Seq.drop_get?] at hi
    refine ⟨⟨n + i, hi⟩, fun hlt => ?_⟩
    -- the first element that is left comes before this one or is this one
    obtain ⟨w, hw⟩ := Stream'.Seq.ge_stable S (Nat.le_add_right n i) hi.symm
    refine hn' w hw (lt_of_le_of_lt ?_ hlt)
    rcases Nat.eq_zero_or_pos i with rfl | hpos
    · exact (Option.some.inj (hw.symm.trans hi.symm)).le
    · exact (hS n (n + i) (by omega) w hw u hi.symm).le
  · rintro ⟨⟨i, hi⟩, hle⟩
    have hni : n ≤ i := by
      by_contra hlt
      obtain ⟨w, hw, hwt⟩ := hn i (not_le.mp hlt)
      exact hle (Option.some.inj (hw.symm.trans hi.symm) ▸ hwt)
    exact ⟨i - n, by rw [Stream'.Seq.drop_get?, Nat.add_sub_cancel' hni, hi]⟩

theorem ascending (hS : S.Pairwise (· < ·)) (h : DropsTo target S S') : S'.Pairwise (· < ·) := by
  obtain ⟨n, rfl, -⟩ := h
  exact Stream'.Seq.Pairwise_drop hS

/-- Where finitely many elements are before a target, they can all be dropped. -/
theorem exists_of_finite (hS : S.Pairwise (· < ·)) (h : {v | v ∈ S ∧ v < target}.Finite) :
    ∃ S', DropsTo target S S' := by
  classical
  have hstop : ∃ n, ∀ v, S.get? n = some v → ¬ v < target := by
    by_contra hgoes
    push Not at hgoes
    choose f hf using hgoes
    have hinj : Function.Injective f := by
      intro i j hij
      exact Ascending.injective hS (hf i).1 (hij ▸ (hf j).1)
    refine Set.infinite_range_of_injective hinj (h.subset ?_)
    rintro _ ⟨n, rfl⟩
    exact ⟨Stream'.Seq.get?_mem (hf n).1, (hf n).2⟩
  refine ⟨S.drop (Nat.find hstop), Nat.find hstop, rfl, fun i hi => ?_, fun v hv => ?_⟩
  · have := Nat.find_min hstop hi
    push Not at this
    exact this
  · rw [Stream'.Seq.head_dropn] at hv
    exact Nat.find_spec hstop v hv

/-- The elements that are dropped are finitely many. -/
theorem finite (hS : S.Pairwise (· < ·)) (h : DropsTo target S S') :
    {v | v ∈ S ∧ v < target}.Finite := by
  obtain ⟨n, rfl, hn, hn'⟩ := h
  have hrange : (Set.range fun i : Fin n => S.get? i).Finite := Set.finite_range _
  refine (hrange.preimage (Option.some_injective _).injOn).subset ?_
  rintro v ⟨hv, hlt⟩
  obtain ⟨i, hi⟩ := Stream'.Seq.mem_iff_exists_get?.mp hv
  refine ⟨⟨i, ?_⟩, hi.symm⟩
  by_contra hle
  have hmem : v ∈ S.drop n := by
    refine Stream'.Seq.get?_mem (n := i - n) ?_
    rw [Stream'.Seq.drop_get?, Nat.add_sub_cancel' (not_lt.mp hle), hi]
  exact ((mem_iff hS ⟨n, rfl, hn, hn'⟩).mp hmem).2 hlt

end DropsTo

/-! ### Answering like a sequence -/

/-- A call that does not move to a target of another kind. -/
def CursorCall.Aims (Target : Value → Prop) (call : CursorCall) : Prop :=
  ∀ target, call = .advanceTo target → Target target

section Answering

variable {ι : Type} {ops : Nat → CursorOps ι} {Stands : ι → Values → Prop} {Target : Value → Prop}
  {c : ι} {calls : List CursorCall} {answers : List CursorAnswer}

/-- **A cursor answers all calls** as the one over a sequence does, if it answers each one so
and then stands before what is left of the sequence.  It need not answer where the cursor
over the sequence does not find what it looks for. -/
theorem settles_askAll (Found : CursorAnswer → Prop)
    (hstep : ∀ c S call a S', Stands c S → call.Aims Target → Follows stop aim S call a S' →
      Found a → ∃ c', Settles (fun n => (ops n).ask call c) (a, c') ∧ Stands c' S')
    (hc : Stands c S) (hcalls : ∀ call ∈ calls, call.Aims Target)
    (h : FollowsAll stop aim S calls answers S') (hfound : ∀ a ∈ answers, Found a) :
    ∃ c', Settles (fun n => (ops n).askAll calls c) (answers, c') ∧ Stands c' S' := by
  induction h generalizing c with
  | nil S => exact ⟨c, settles_const _, hc⟩
  | @cons S S' S'' call calls a answers head tail ih =>
    rw [List.forall_mem_cons] at hcalls hfound
    obtain ⟨c₁, hask, hc₁⟩ := hstep c S call a S' hc hcalls.1 head hfound.1
    obtain ⟨c₂, hrest, hc₂⟩ := ih hc₁ hcalls.2 hfound.2
    exact ⟨c₂, CursorOps.settles_askAll_cons hask hrest, hc₂⟩

/-- The cursor over an ascending sequence answers all calls if finitely many values are before
any target. -/
theorem exists_followsAll (hS : S.Pairwise (· < ·))
    (hfinite : ∀ target, Target target → {u | u ∈ S ∧ u < aim target}.Finite)
    (hcalls : ∀ call ∈ calls, call.Aims Target) :
    ∃ answers S', FollowsAll stop aim S calls answers S' := by
  induction calls generalizing S with
  | nil => exact ⟨[], S, .nil S⟩
  | cons call calls ih =>
    rw [List.forall_mem_cons] at hcalls
    obtain ⟨a, S', hhead, hasc, hsub⟩ : ∃ a S', Follows stop aim S call a S' ∧
        S'.Pairwise (· < ·) ∧ ∀ u ∈ S', u ∈ S := by
      cases call with
      | hasNext => exact ⟨_, S, .more S, hS, fun _ hu => hu⟩
      | next =>
        cases S using Stream'.Seq.recOn with
        | nil => exact ⟨_, .nil, .ended, hS, fun _ hu => hu⟩
        | cons v S =>
          exact ⟨_, S, .next v S, hS.cons_elim.2, fun _ hu => Stream'.Seq.mem_cons_of_mem v hu⟩
      | advanceTo target =>
        obtain ⟨S', hdrops⟩ := DropsTo.exists_of_finite hS (hfinite target (hcalls.1 target rfl))
        exact ⟨_, S', .moved hdrops, hdrops.ascending hS, fun u hu => ((hdrops.mem_iff hS).mp hu).1⟩
    obtain ⟨answers, S'', htail⟩ := ih hasc
      (fun target htarget => (hfinite target htarget).subset fun u hu => ⟨hsub u hu.1, hu.2⟩) hcalls.2
    exact ⟨_, S'', .cons hhead htail⟩

end Answering

end Recurrence
