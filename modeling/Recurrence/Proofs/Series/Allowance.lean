/-
Recurrence/Proofs/Series/Allowance.lean

How many instances a count still lets pass.

What is left of the count and the instance that is held make up the allowance of a
series.  Looking for an instance only moves one from the former to the latter, and
handing it out uses one up (`Series.allowance_next`).  So a series whose count has
refused an instance has handed out as many as the count of its rule.
-/
import Recurrence.Proofs.Series.States

namespace Recurrence

namespace Series

variable {s s' : Series} {n : Nat}

/-- How many more instances the count of a series lets out, if it has one. -/
def allowance (s : Series) : Option Int :=
  match s.ending with
  | .count m => some (max m 0 + if s.pending.isSome then 1 else 0)
  | _ => none

theorem allowance_nonneg (s : Series) : ∀ k ∈ s.allowance, 0 ≤ k := by
  intro k hk
  unfold allowance at hk
  cases he : s.ending with
  | count m =>
    rw [he] at hk
    obtain rfl := Option.some.inj hk
    split_ifs <;> omega
  | _ => simp [he] at hk

theorem Draws.allowance (h : s.Draws s') : s'.allowance = s.allowance := by
  rw [Series.allowance, Series.allowance, h.ending, h.pending]

/-- An instance that passes is held, and one that does not had no room. -/
theorem allowance_judge (hpending : s.pending = none) (v u : Value) :
    (s.judge v u).2.allowance = s.allowance := by
  rw [judge_eq]
  cases he : s.ending with
  | never => simp [Ending.check, allowance, he]
  | untilBound last => split_ifs <;> simp [Ending.check, allowance, he]
  | count m =>
    split_ifs with hpass
    · have hroom : 0 ≤ m - 1 := by simpa [Ending.check] using hpass
      simp only [Ending.check, allowance, he, hpending, Option.isSome_some, Option.isSome_none,
        if_true, Bool.false_eq_true, if_false, Option.some.injEq]
      omega
    · have hroom : ¬ 0 ≤ m - 1 := by simpa [Ending.check] using hpass
      simp only [Ending.check, allowance, he, hpending, Option.isSome_none, Bool.false_eq_true,
        if_false, Option.some.injEq]
      omega

theorem allowance_hasNext {a : Except SeriesError Bool} (h : s.hasNext n = some (a, s')) :
    s'.allowance = s.allowance := by
  rcases hasNext_cases h with ⟨-, rfl⟩ | ⟨hpending, -, answer, s₁, hg, h⟩
  · rfl
  · have hdraws := draws_of_generate hg
    rcases h with ⟨e, -, rfl⟩ | ⟨-, rfl⟩ | ⟨v, u, -, rfl⟩
    · exact hdraws.allowance
    · exact hdraws.allowance
    · exact (allowance_judge (hdraws.pending.trans hpending) v u).trans hdraws.allowance

/-- **Handing out an instance** uses up one of the count. -/
theorem allowance_next {v : Value} (h : s.next n = some (.ok v, s')) :
    s.allowance = s'.allowance.map (· + 1) := by
  obtain ⟨b, s₁, hn, ⟨e, he, -⟩ | ⟨w, -, hp, rfl⟩⟩ := next_cases h
  · exact absurd he (by simp)
  · rw [← allowance_hasNext hn]
    unfold allowance
    cases s₁.ending <;> simp [hp]

/-- Where there is nothing to hand out, nothing is used up. -/
theorem allowance_failed {e : SeriesError} (h : s.next n = some (.error e, s')) :
    s'.allowance = s.allowance := by
  obtain ⟨b, s₁, hn, ⟨e, -, rfl⟩ | ⟨v, hv, -⟩⟩ := next_cases h
  · exact allowance_hasNext hn
  · exact absurd hv (by simp)

/-- A run uses up as many as it returns. -/
theorem allowance_returns {vs : List Value} (h : s.Returns vs s') :
    s.allowance = s'.allowance.map (· + (vs.length : Int)) := by
  induction h with
  | nil s => simp
  | cons head tail ih =>
    rw [allowance_next head, ih, Option.map_map]
    congr 1
    funext m
    simp only [Function.comp, List.length_cons]
    push_cast
    omega

/-- A count that has refused an instance is used up. -/
theorem allowance_ends (h : s.Ends s') (hpending : s'.pending = none) {m : Int} (hm : m < 0)
    (hcount : s'.ending = .count m) : s.allowance = some 0 := by
  obtain ⟨n, h⟩ := h
  rw [← allowance_failed h, allowance, hcount, hpending]
  simp only [Option.isSome_none, Bool.false_eq_true, if_false, Option.some.injEq]
  omega

/-- Taking the held instance away uses it up. -/
theorem allowance_take (s : Series) :
    ∀ k ∈ s.allowance, ∃ k' ∈ { s with pending := none }.allowance, k' ≤ k := by
  intro k hk
  unfold allowance at hk ⊢
  cases he : s.ending with
  | count m =>
    rw [he] at hk
    obtain rfl := Option.some.inj hk
    -- the count itself stays as it is
    refine ⟨max m 0 + 0, rfl, ?_⟩
    split_ifs <;> omega
  | _ => simp [he] at hk

/-- **Moving ahead** uses up what it drops. -/
theorem allowance_advanceTo {target : Value} {a : Except SeriesError Unit}
    (h : s.advanceTo n target = some (a, s')) : ∀ k ∈ s.allowance, ∃ k' ∈ s'.allowance, k' ≤ k := by
  refine advanceTo_invariant (P := fun s' => ∀ k ∈ s.allowance, ∃ k' ∈ s'.allowance, k' ≤ k)
    (fun n s₁ a s₂ hs hn => ?_) (fun s₁ hs k hk => ?_) (fun n target s₁ a s₂ hs _ _ hn => ?_)
    (fun k hk => ⟨k, hk, le_rfl⟩) h
  · rw [allowance_hasNext hn]
    exact hs
  · obtain ⟨k₁, hk₁, hle₁⟩ := hs k hk
    obtain ⟨k₂, hk₂, hle₂⟩ := allowance_take s₁ k₁ hk₁
    exact ⟨k₂, hk₂, hle₂.trans hle₁⟩
  · obtain ⟨-, -, hpending, hending⟩ := frame_of_passOver hn
    have hsame : s₂.allowance = s₁.allowance := by rw [allowance, allowance, hpending, hending]
    rw [hsame]
    exact hs

/-! ### New series -/

theorem allowance_unstarted {r : Rule} (hr : r.Valid) (start : Value) (zone : Zone)
    (c : Candidates) : (unstarted r start zone c).allowance = r.count := by
  show (match Ending.ofRule r with
    | .count m => some (max m 0 + if (none : Option Value).isSome then 1 else 0)
    | _ => none) = r.count
  unfold Ending.ofRule
  cases hc : r.count with
  | none => cases r.untilBound <;> rfl
  | some m =>
    have := hr.2.1 m hc
    simp only [Option.isSome_none, Bool.false_eq_true, if_false, Option.some.injEq]
    omega

/-- What is dropped before the start uses up nothing, and the first instance is judged only once. -/
theorem allowance_start {startUtc : Value} (hpending : s.pending = none)
    (h : loop (startTurn n startUtc) n s = some (.ok (), s')) : s'.allowance = s.allowance := by
  refine loop_invariant (P := fun s₁ => s₁.allowance = s.allowance ∧ s₁.pending = none)
    (Q := fun b => b.2.allowance = s.allowance) ?_ ?_ ⟨rfl, hpending⟩ h
  · rintro s₁ s₂ ⟨hs, hpending⟩ ht
    obtain ⟨answer, s₃, hg, ⟨e, h⟩ | ⟨-, h⟩ | ⟨v, u, -, ⟨-, h⟩ | ⟨-, h⟩⟩⟩ := startTurn_cases ht <;>
      simp only [reduceCtorEq, Turn.again.injEq] at h
    have hdraws := draws_of_generate hg
    rw [h]
    exact ⟨hdraws.allowance.trans hs, hdraws.pending.trans hpending⟩
  · rintro s₁ b ⟨hs, hpending⟩ ht
    obtain ⟨answer, s₃, hg, ⟨e, h⟩ | ⟨-, h⟩ | ⟨v, u, -, ⟨-, h⟩ | ⟨-, h⟩⟩⟩ := startTurn_cases ht <;>
      simp only [reduceCtorEq, Turn.done.injEq] at h <;> rw [h]
    · exact (draws_of_generate hg).allowance.trans hs
    · exact (draws_of_generate hg).allowance.trans hs
    · have hdraws := draws_of_generate hg
      exact (allowance_judge (hdraws.pending.trans hpending) v u).trans
        (hdraws.allowance.trans hs)

/-- **A new series** has the count of its rule before it. -/
theorem allowance_ofCandidates {r : Rule} (hr : r.Valid) {start : Value} {zone : Zone}
    {c : Candidates} (h : ofCandidates n r start zone c = some (.ok s)) : s.allowance = r.count := by
  rcases ofCandidates_cases h with ⟨⟨c', rfl⟩, -⟩ | ⟨c', startUtc, -, -, hloop⟩
  · exact allowance_unstarted hr start zone c'
  · exact (allowance_start rfl hloop).trans (allowance_unstarted hr start zone c')

theorem allowance_create {r : Rule} (hr : r.Valid) {start : Value} {zone : Zone} {budget : Int}
    (h : create n r start zone budget = some (.ok s)) : s.allowance = r.count := by
  rcases create_cases h with ⟨⟨c, rfl⟩, -⟩ | ⟨c, startUtc, -, -, hloop⟩
  · exact allowance_unstarted hr start zone c
  · exact (allowance_start rfl hloop).trans (allowance_unstarted hr start zone c)

/-- Where the rule has no count, no ending counts. -/
theorem Reachable.not_count {r : Rule} {start : Value} {zone : Zone} {budget : Int} (hr : r.Valid)
    (hcount : r.count = none) (hs : Reachable r start zone budget s) (m : Int) :
    s.ending ≠ .count m := by
  have hallowance : s.allowance = none := by
    refine hs.invariant (P := fun s => s.allowance = none) ?_ ?_ ?_ ?_
    · intro n s a s' hs h
      exact (allowance_hasNext h).trans hs
    · intro s hs
      unfold allowance at hs ⊢
      cases he : s.ending <;> simp [he] at hs ⊢
    · intro n target s a s' hs _ _ h
      rcases passOver_cases h with rfl | ⟨c, l, step, c', -, -, -, ⟨-, rfl⟩ | rfl⟩ <;> exact hs
    · intro n s h
      exact (allowance_create hr h).trans hcount
  intro he
  simp [allowance, he] at hallowance

end Series

end Recurrence
