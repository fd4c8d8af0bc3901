/-
Recurrence/Proofs/DistinctDates.lean

Listed values as a cursor.

Listed wall-clock values may repeat, come in any order, and fall together in UTC.  The cursor over
them hands out their distinct UTC values in the order of time, a plain date just before the
date-times of its day (`Value.lt_iff_halfSeconds`).  All that it remembers is its position among
them.  A move sets the position to the number of values before the target unless it is past this
already (`dropWhile_drop_of_ascending`), so it never goes back, and every call is answered from the
values behind the position (`DateCursor.ask_drop`).
-/
import Mathlib.Data.List.TakeWhile
import Recurrence.Proofs.Cursor.Members

namespace Recurrence

variable {v w target : Value} {us : List Value}

/-! ### The order of dates and date-times -/

namespace Value

/-- The half seconds from the start of day 0 to a value, counting a date-time as the middle of its
second.  A plain date counts as the midnight that begins it. -/
def halfSeconds (v : Value) : Int := 2 * v.instant + if v.hasTime then 1 else 0

/-- A plain date is before a date-time unless this is on an earlier day. -/
theorem ofDate_lt_iff {d e : Date} {t : TimeOfDay} (hd : d.IsReal) (he : e.IsReal)
    (ht : t.IsReal) : ofDate d < ofDateTime e t ↔ d.dayNumber ≤ e.dayNumber := by
  have hlength : d.key.length = e.key.length := rfl
  have hhour : (-1 : Int) < t.hour := by have := ht.1; omega
  have htime : [-1, 0, 0] ++ [0] < t.key ++ [1] := List.cons_lt_cons_iff.mpr (.inl hhour)
  rw [lt_iff_rank]
  show (d.key ++ [-1, 0, 0]) ++ [0] < (e.key ++ t.key) ++ [1] ↔ _
  rw [List.append_assoc, List.append_assoc, append_lt_append_iff hlength, and_iff_left htime,
    ← le_iff_lt_or_eq, ← not_lt, Date.key_lt_iff he hd, not_lt]

theorem halfSeconds_ofDate (d : Date) : (ofDate d).halfSeconds = 172800 * d.dayNumber := by
  show 2 * (d.dayNumber * 86400 + 0) + 0 = _
  omega

theorem halfSeconds_ofDateTime (d : Date) (t : TimeOfDay) :
    (ofDateTime d t).halfSeconds = 172800 * d.dayNumber + 2 * t.seconds + 1 := by
  show 2 * (d.dayNumber * 86400 + t.seconds) + 1 = _
  omega

theorem halfSeconds_lt_of_lt (hv : v.IsReal) (hw : w.IsReal) (h : v < w) :
    v.halfSeconds < w.halfSeconds := by
  by_cases hkind : v.hasTime = w.hasTime
  · rw [lt_iff_instant hv hw hkind] at h
    rw [halfSeconds, halfSeconds, hkind]
    omega
  · obtain ⟨d, _ | t⟩ := v <;> obtain ⟨e, _ | u⟩ := w
    · exact absurd rfl hkind
    · have hday := (ofDate_lt_iff hv.1 hw.1 (hw.2 u rfl)).mp h
      have hbounds : 0 ≤ u.seconds ∧ u.seconds < 86400 := (hw.2 u rfl).seconds_bounds
      have hdate := halfSeconds_ofDate d
      have htime := halfSeconds_ofDateTime e u
      simp only [ofDate, ofDateTime] at hdate htime hday
      omega
    · have hday := mt (ofDate_lt_iff hw.1 hv.1 (hv.2 t rfl)).mpr h.asymm
      have hbounds : 0 ≤ t.seconds ∧ t.seconds < 86400 := (hv.2 t rfl).seconds_bounds
      have hdate := halfSeconds_ofDate e
      have htime := halfSeconds_ofDateTime d t
      simp only [ofDate, ofDateTime] at hdate htime hday
      omega
    · exact absurd rfl hkind

/-- **Real values are in the order of time**, a plain date just before the date-times of its day. -/
theorem lt_iff_halfSeconds (hv : v.IsReal) (hw : w.IsReal) :
    v < w ↔ v.halfSeconds < w.halfSeconds := by
  refine ⟨halfSeconds_lt_of_lt hv hw, fun h => ?_⟩
  rcases lt_trichotomy v w with hlt | rfl | hgt
  · exact hlt
  · exact absurd h (lt_irrefl _)
  · exact absurd h (halfSeconds_lt_of_lt hw hv hgt).asymm

end Value

/-! ### Positions -/

/-- Where a call leaves a cursor that stands at a position among ascending values. -/
def CursorCall.positionAfter (us : List Value) (position : Nat) : CursorCall → Nat
  | .hasNext => position
  | .next => min (position + 1) us.length
  | .advanceTo target => max position (us.countP fun u => u < target)

/-- Behind a position of an ascending list, the values before a target are those up to the number
of all values before it. -/
theorem dropWhile_drop_of_ascending (h : us.Pairwise (· < ·)) (target : Value) (position : Nat) :
    (us.drop position).dropWhile (fun u => u < target) =
      us.drop (max position (us.countP fun u => u < target)) := by
  induction us generalizing position with
  | nil => simp
  | cons u us ih =>
    obtain ⟨hu, hus⟩ := List.pairwise_cons.mp h
    by_cases hlt : u < target
    · rw [List.countP_cons_of_pos (by simpa using hlt)]
      cases position with
      | zero =>
        rw [List.drop_zero, List.dropWhile_cons_of_pos (by simpa using hlt), Nat.zero_max,
          List.drop_succ_cons]
        simpa using ih hus 0
      | succ position =>
        rw [List.drop_succ_cons, Nat.succ_max_succ, List.drop_succ_cons]
        exact ih hus position
    · -- no later value is before the target either
      have hall : ∀ w ∈ u :: us, ¬ w < target := by
        intro w hw hwt
        rcases List.mem_cons.mp hw with rfl | hw
        · exact hlt hwt
        · exact hlt ((hu w hw).trans hwt)
      have hcount : (u :: us).countP (fun u => u < target) = 0 := by
        rw [List.countP_eq_zero]
        simpa using hall
      rw [hcount, Nat.max_zero, List.dropWhile_eq_self_iff]
      intro hpos
      simpa using hall _ (List.mem_of_mem_drop (List.getElem_mem hpos))

namespace DateCursor

/-- **One call.**  A cursor that stands at a position answers from the values behind it. -/
theorem ask_drop (h : us.Pairwise (· < ·)) (position : Nat) (call : CursorCall) :
    ∃ a, ops.ask call ⟨us, us.drop position⟩ =
        some (a, ⟨us, us.drop (call.positionAfter us position)⟩) ∧
      Follows .noMoreDates id (.ofList (us.drop position)) call a
        (.ofList (us.drop (call.positionAfter us position))) := by
  cases call with
  | hasNext =>
    refine ⟨.more (!(us.drop position).isEmpty), rfl, ?_⟩
    have hmore : (!(us.drop position).isEmpty) =
        (Stream'.Seq.ofList (us.drop position)).head.isSome := by
      cases us.drop position <;> rfl
    rw [hmore]
    exact .more _
  | next =>
    rw [show CursorCall.next.positionAfter us position = min (position + 1) us.length from rfl]
    rcases lt_or_ge position us.length with hlt | hge
    · rw [Nat.min_eq_left hlt, List.drop_eq_getElem_cons hlt, Stream'.Seq.ofList_cons]
      exact ⟨.value us[position], rfl, .next _ _⟩
    · rw [Nat.min_eq_right (by omega), List.drop_length, List.drop_eq_nil_of_le hge]
      exact ⟨.failed .noMoreDates, rfl, .ended⟩
  | advanceTo target =>
    refine ⟨.moved, ?_, .moved ?_⟩
    · show some (_, (⟨us, (us.drop position).dropWhile fun u => u < target⟩ : DateCursor)) = _
      rw [dropWhile_drop_of_ascending h]
      rfl
    · show DropsTo target _ (.ofList (us.drop (max position _)))
      rw [← dropWhile_drop_of_ascending h]
      exact dropsTo_dropWhile _ target

/-- **All calls.**  Whatever it is asked, a cursor answers as the cursor over its values, and its
position is the one that the calls have led to. -/
theorem askAll_drop (h : us.Pairwise (· < ·)) (calls : List CursorCall) (position : Nat) :
    ∃ answers, ops.askAll calls ⟨us, us.drop position⟩ =
        some (answers, ⟨us, us.drop (calls.foldl (CursorCall.positionAfter us) position)⟩) ∧
      FollowsAll .noMoreDates id (.ofList (us.drop position)) calls answers
        (.ofList (us.drop (calls.foldl (CursorCall.positionAfter us) position))) := by
  induction calls generalizing position with
  | nil => exact ⟨[], rfl, .nil _⟩
  | cons call calls ih =>
    obtain ⟨a, hask, hfollows⟩ := ask_drop h position call
    obtain ⟨answers, hall, hrest⟩ := ih (call.positionAfter us position)
    refine ⟨a :: answers, ?_, .cons hfollows hrest⟩
    simp only [CursorOps.askAll, hask, hall, Option.map_some, List.foldl_cons]

end DateCursor

/-- **Listed values are a cursor.**  Take any real dates and date-times, in any order and with
repetitions, and any zone.  Each of them has a UTC value, and the cursor over them is made of these
values, each once and in ascending order; among real values this is the order of time, a date
just before the date-times of its day.  Whatever the cursor is asked, with any targets, it answers
like the cursor over the sequence of these values: it hands each out once, moves past exactly the
values before a target that are left, and fails once none is left.  It stands where the calls have
led: past one more value after each that is handed out, and after a move at the number of values
before the target, unless it stood beyond that. -/
theorem listed_values_are_cursor {vs : List Value} (hvs : ∀ v ∈ vs, v.IsReal) (zone : Zone) :
    ∃ us, DateCursor.ofList vs zone = .ok ⟨us, us⟩ ∧ us.Pairwise (· < ·) ∧
      (∀ v ∈ vs, ∃ u, v.toUtc zone = .ok u) ∧ (∀ u, u ∈ us ↔ ∃ v ∈ vs, v.toUtc zone = .ok u) ∧
      (∀ u ∈ us, u.IsReal ∧ ∀ w : Value, w.IsReal → (u < w ↔ u.halfSeconds < w.halfSeconds)) ∧
      ∀ calls : List CursorCall, ∃ answers,
        DateCursor.ops.askAll calls ⟨us, us⟩ =
          some (answers, ⟨us, us.drop (calls.foldl (CursorCall.positionAfter us) 0)⟩) ∧
        FollowsAll .noMoreDates id (.ofList us) calls answers
          (.ofList (us.drop (calls.foldl (CursorCall.positionAfter us) 0))) := by
  obtain ⟨us, hcreate, hasc, hmem⟩ := DateCursor.exists_ofList zone hvs
  have hutc : ∀ v ∈ vs, ∃ u, v.toUtc zone = .ok u ∧ u.IsReal := by
    intro v hv
    obtain ⟨u, hu, hreal, -⟩ := Value.toUtc_spec zone (hvs v hv)
    exact ⟨u, hu, hreal⟩
  have hreal : ∀ u ∈ us, u.IsReal := by
    intro u hu
    obtain ⟨v, hv, hto⟩ := (hmem u).mp hu
    obtain ⟨u', hu', hreal⟩ := hutc v hv
    exact Except.ok.inj (hto.symm.trans hu') ▸ hreal
  refine ⟨us, hcreate, hasc, fun v hv => (hutc v hv).imp fun _ h => h.1, hmem,
    fun u hu => ⟨hreal u hu, fun w hw => Value.lt_iff_halfSeconds (hreal u hu) hw⟩, fun calls => ?_⟩
  exact DateCursor.askAll_drop hasc calls 0

/-- On the morning on which clocks are put forward at two, half past one and half past two are the
same moment.  So three listed values are two, and a move to this moment passes over the date. -/
theorem listed_values_are_cursor_spring :
    let zone : Zone := .shifting (-28800) [⟨738955 * 86400 + 36000, -25200⟩]
    let vs : List Value := [.ofDateTime ⟨2024, 3, 10⟩ ⟨2, 30, 0⟩, .ofDate ⟨2024, 3, 10⟩,
      .ofDateTime ⟨2024, 3, 10⟩ ⟨1, 30, 0⟩]
    let moment : Value := .ofDateTime ⟨2024, 3, 10⟩ ⟨9, 30, 0⟩
    let us : List Value := [.ofDate ⟨2024, 3, 10⟩, moment]
    let calls : List CursorCall :=
      [.hasNext, .advanceTo moment, .next, .advanceTo (.ofDate ⟨2024, 3, 9⟩), .hasNext, .next]
    let answers : List CursorAnswer :=
      [.more true, .moved, .value moment, .moved, .more false, .failed .noMoreDates]
    (∀ v ∈ vs, v.IsReal) ∧ DateCursor.ofList vs zone = .ok ⟨us, us⟩ ∧
      DateCursor.ops.askAll calls ⟨us, us⟩ = some (answers, ⟨us, []⟩) ∧
      FollowsAll .noMoreDates id (.ofList us) calls answers (.ofList []) := by
  intro zone vs moment us calls answers
  have hvs : ∀ v ∈ vs, v.IsReal := by decide
  have hcreate : DateCursor.ofList vs zone = .ok ⟨us, us⟩ := by decide +kernel
  obtain ⟨us', hcreate', -, -, -, -, hcalls⟩ := listed_values_are_cursor hvs zone
  obtain rfl : us = us' := (DateCursor.mk.inj (Except.ok.inj (hcreate.symm.trans hcreate'))).1
  have hanswers : DateCursor.ops.askAll calls ⟨us, us⟩ = some (answers, ⟨us, []⟩) := by
    decide +kernel
  obtain ⟨answers', hask, hfollows⟩ := hcalls calls
  obtain ⟨hsame, hrest⟩ := Prod.mk.inj (Option.some.inj (hask.symm.trans hanswers))
  rw [hsame, (DateCursor.mk.inj hrest).2] at hfollows
  exact ⟨hvs, hcreate, hanswers, hfollows⟩

end Recurrence
