/-
Recurrence/Proofs/Resuming.lean

A series can be resumed from any of its values.

What follows on an instance of a rule without positions is a chain: each next instance is the
first member behind the one before it, as long as the budget lasts from there on
(`Course.Fed.canReturn_cons_iff`).  Behind a value that has been returned neither the members nor
the years that are counted change if the value becomes the start (`Rule.leadsTo_congr_start`), and
the new start is its own first instance (`Rule.exists_resumed`).  So the series that is started
there goes on like the old one, and ends where that one does (`resumes_from_any_value`).
-/
import Mathlib.Data.Seq.Basic
import Recurrence.Proofs.Meaning.Restart
import Recurrence.Proofs.Series.Credit
import Recurrence.Proofs.Series.Plays
import Recurrence.Proofs.Termination

namespace Recurrence

variable {r : Rule} {start v w x : Value} {budget base : Int} {K : Course} {e : Ending}
  {R : Value → Prop} {s s' s₀ t : Series} {us vs ws : List Value} {xs ys : Values} {n : Nat}

/-! ### What is played after a value -/

namespace Series

/-- A series that has returned some values returns what it would have returned behind them. -/
theorem Returns.canReturn_append_iff (h : s.Returns us s') :
    s.CanReturn (us ++ vs) ↔ s'.CanReturn vs := by
  induction h with
  | nil s => rfl
  | cons head _ ih =>
    rw [List.cons_append, canReturn_iff head]
    simpa using ih

/-- A series is able to return the beginnings of what it plays. -/
theorem Plays.canReturn_iff (h : s.Plays xs) : s.CanReturn ws ↔ ∃ n, xs.take n = ws := by
  constructor
  · rintro ⟨s', hrun⟩
    exact ⟨_, (h.returns hrun).1⟩
  · rintro ⟨n, rfl⟩
    obtain ⟨s', hrun, -⟩ := h n
    exact ⟨s', hrun⟩

/-- **Series that are able to return the same values** play the same sequence. -/
theorem Plays.eq_of_canReturn (h : s.Plays xs) (h' : t.Plays ys)
    (heq : ∀ ws, s.CanReturn ws ↔ t.CanReturn ws) : xs = ys := by
  have hle : ∀ {s t : Series} {xs ys : Values}, s.Plays xs → t.Plays ys →
      (∀ ws, s.CanReturn ws → t.CanReturn ws) → ∀ n a, xs.get? n = some a → ys.get? n = some a := by
    intro s t xs ys h h' hsub n a ha
    obtain ⟨m, hm⟩ := h'.canReturn_iff.mp (hsub _ (h.canReturn_iff.mpr ⟨n + 1, rfl⟩))
    have hget : (ys.take m)[n]? = some a := by
      rw [hm, Stream'.Seq.getElem?_take, if_pos n.lt_succ_self, ha]
    rw [Stream'.Seq.getElem?_take] at hget
    split_ifs at hget
    exact hget
  apply Stream'.Seq.ext
  intro n
  exact Option.ext fun a =>
    ⟨hle h h' (fun ws => (heq ws).mp) n a, hle h' h (fun ws => (heq ws).mpr) n a⟩

/-- Where a value stands in what a series plays, the series returns it and plays what is behind. -/
theorem Plays.exists_returns (h : s.Plays xs) (hv : xs.get? n = some v) : ∃ us s' ys,
    s.Returns (us ++ [v]) s' ∧ s'.Plays ys ∧ xs.drop n = .cons v ys := by
  induction n generalizing s xs with
  | zero =>
    cases xs using Stream'.Seq.recOn with
    | nil => exact absurd hv (by simp)
    | cons x xs =>
      obtain rfl : x = v := by simpa using hv
      obtain ⟨s', hsettles, h'⟩ := plays_cons_iff.mp h
      obtain ⟨m, hm⟩ := hsettles.exists_bound
      exact ⟨[], s', xs, .cons hm (.nil s'), h', rfl⟩
  | succ n ih =>
    cases xs using Stream'.Seq.recOn with
    | nil => exact absurd hv (by simp)
    | cons x xs =>
      obtain ⟨s₁, hsettles, h₁⟩ := plays_cons_iff.mp h
      obtain ⟨m, hm⟩ := hsettles.exists_bound
      obtain ⟨us, s', ys, hrun, hplays, hdrop⟩ := ih h₁ (by simpa using hv)
      exact ⟨x :: us, s', ys, .cons hm hrun, hplays, by rw [Stream'.Seq.drop_succ_cons, hdrop]⟩

end Series

/-! ### Instances that follow one another -/

namespace Course

/-- What follows an instance, at some distance, comes after it, is a member and passes. -/
theorem of_mem_of_isChain (h : (v :: vs).IsChain (K.LeadsTo e)) (hw : w ∈ vs) :
    v < w ∧ K.Member w ∧ e.passes (w, w) = true := by
  induction vs generalizing v with
  | nil => exact absurd hw List.not_mem_nil
  | cons x vs ih =>
    obtain ⟨⟨hleast, -, hpass⟩, htail⟩ := List.isChain_cons_cons.mp h
    rcases List.mem_cons.mp hw with rfl | hw
    · exact ⟨hleast.1.2, hleast.1.1, hpass⟩
    · exact (ih htail hw).imp_left hleast.1.2.trans

/-- Whether instances follow one another hangs on what follows each of them alone. -/
theorem isChain_congr {K' : Course} (hle : v ≤ x)
    (h : ∀ x w, v ≤ x → (K.LeadsTo e x w ↔ K'.LeadsTo e x w)) :
    (x :: vs).IsChain (K.LeadsTo e) ↔ (x :: vs).IsChain (K'.LeadsTo e) := by
  induction vs generalizing x with
  | nil => exact iff_of_true (.singleton x) (.singleton x)
  | cons w vs ih =>
    rw [List.isChain_cons_cons, List.isChain_cons_cons, h x w hle]
    exact and_congr_right fun hw => ih (hle.trans hw.1.1.2.le)

/-- **A series that starts** returns an instance that is due, which is not before the start, and
from there on one after another that follows the one before it. -/
theorem Fed.canReturn_start (hK : K.Begins) (hcredited : K.credited.isSome = true)
    (hbudget : 1 ≤ K.blueprint.years.budget) {k : Nat} (h : K.Fed base R s) (hopen : s.Open)
    (hloop : loop (Series.startTurn n start) k s = some (.ok (), s₀)) : ∃ base R,
      (∀ v, IsLeast {w | K.Member w ∧ R w} v → ¬ v < start) ∧
      ∀ v vs, s₀.CanReturn (v :: vs) ↔
        K.Due s.ending base R v ∧ (v :: vs).IsChain (K.LeadsTo s.ending) := by
  induction k generalizing s base R with
  | zero => simp [loop] at hloop
  | succ k ih =>
    rw [loop] at hloop
    cases ht : s.startTurn n start with
    | none => simp [ht] at hloop
    | some turn =>
      rw [ht] at hloop
      obtain ⟨answer, s₁, hg, hout⟩ := Series.startTurn_cases ht
      have hdraws := Series.draws_of_generate hg
      have h₁ := hopen.draws hdraws
      rcases h.generate hK hcredited with ⟨u, s₂, hg', hleast, -, hrests⟩ | ⟨s₂, hg', -⟩ <;>
        obtain ⟨rfl, rfl⟩ := Prod.mk.inj (Patient.eq_of_settles (Series.patient_generate s) hg' hg)
      · rcases hout with ⟨err, rfl⟩ | ⟨hnone, -⟩ | ⟨v, u', hu, ⟨-, rfl⟩ | ⟨hlt, rfl⟩⟩
        · simp at hloop
        · exact absurd hnone (by simp)
        · -- an instance before the start is dropped, and fills the budget up
          rw [← hdraws.ending]
          exact ih hrests.toFed h₁ hloop
        · obtain ⟨rfl, rfl⟩ : u = v ∧ u = u' := by simpa using hu
          obtain rfl : (s₁.judge u u).2 = s₀ := by simpa using hloop
          refine ⟨base, R, fun v hv => hleast.unique hv ▸ hlt, fun v vs => ?_⟩
          rw [← h.canReturn_cons_iff hK hcredited hbudget hopen, h₁.canReturn_judge,
            hopen.canReturn_cons_iff hg, hdraws.ending]
          simp only [reduceCtorEq, false_or, List.cons.injEq]
          constructor
          · rintro ⟨hpass, _, ⟨rfl, rfl⟩, hvs⟩
            exact ⟨⟨rfl, hpass⟩, hvs⟩
          · rintro ⟨⟨rfl, hpass⟩, hvs⟩
            exact ⟨hpass, vs, ⟨rfl, rfl⟩, hvs⟩
      · -- there is no instance from the start on
        rcases hout with ⟨err, rfl⟩ | ⟨-, rfl⟩ | ⟨v, u', hu, -⟩
        · simp at hloop
        · obtain rfl : { s₁ with finished := true } = s₀ := by simpa using hloop
          refine ⟨base, fun _ => False, fun v hv => hv.1.2.elim, fun v vs => ?_⟩
          rw [Series.canReturn_iff_of_finished (by exact h₁.pending) (by rfl)]
          exact iff_of_false (by simp) fun hvs => hvs.1.1.1.2
        · exact absurd hu (by simp)

end Course

namespace Rule

/-- The ending of a rule without a count never changes. -/
theorem steady_of_count_none (hcount : r.count = none) : (Ending.ofRule r).Steady := by
  refine Ending.steady_of_ne_count fun m hm => ?_
  cases hu : r.untilBound <;> simp [Ending.ofRule, hcount, hu] at hm

/-- **A new series** of a rule without positions returns nothing before its start, and from its
first instance on one after another that follows the one before it. -/
theorem canReturn_create (h : r.Admits start) (hpos : r.bySetPos = []) (hcount : r.count = none)
    (hbudget : 1 ≤ budget) (hcreate : Series.create n r start .utc budget = some (.ok s₀)) :
    ∃ base R, (∀ v, IsLeast {w | (r.course start budget).Member w ∧ R w} v → start ≤ v) ∧
      ∀ v vs, s₀.CanReturn (v :: vs) ↔ (r.course start budget).Due (.ofRule r) base R v ∧
        (v :: vs).IsChain ((r.course start budget).LeadsTo (.ofRule r)) := by
  have hbudget' : 0 ≤ budget := by omega
  have hK := begins_course h hbudget'
  rcases Series.create_cases hcreate with ⟨⟨c, rfl⟩, -⟩ | ⟨c, startUtc, hfills, hutc, hloop⟩
  · refine ⟨0, fun _ => False, fun v hv => hv.1.2.elim, fun v vs => ?_⟩
    rw [Series.canReturn_iff_of_finished rfl rfl]
    exact iff_of_false (by simp) fun hvs => hvs.1.1.1.2
  · obtain rfl : start = startUtc := Except.ok.inj hutc
    rcases run_candidates h hbudget' with ⟨c', hrun, hawaits⟩ | ⟨c', hrun, -⟩ <;>
      obtain ⟨hstep, rfl⟩ := Prod.mk.inj
        (Patient.eq_of_settles (Series.patient_candidatesRun _ _ _) hrun hfills.2)
    · have hsource : Series.sourceOf r c = .plain c := by
        rw [Series.sourceOf, hpos]
        rfl
      have hfed : (r.course start budget).Fed (start.date.year - 1)
          (fun w => start.date.year ≤ w.date.year) (Series.unstarted r start .utc c) :=
        ⟨rfl, ⟨c, hsource, hawaits⟩, by rintro k ⟨⟩⟩
      obtain ⟨base, R, hfrom, hiff⟩ := hfed.canReturn_start hK (isSome_credited_course hpos)
        hbudget ⟨rfl, rfl, steady_of_count_none hcount⟩ hloop
      exact ⟨base, R, fun v hv => not_lt.mp (hfrom v hv), hiff⟩
    · exact absurd hstep (by simp)

/-- A series that returns anything has been given a budget. -/
theorem one_le_budget (hcreate : Series.create n r start .utc budget = some (.ok s₀))
    (hvs : s₀.CanReturn vs) (hne : vs ≠ []) : 1 ≤ budget := by
  by_contra hbudget
  rcases Series.create_cases hcreate with ⟨⟨c, rfl⟩, -⟩ | ⟨c, startUtc, hfills, -, -⟩
  · exact hne ((Series.canReturn_iff_of_finished rfl rfl).mp hvs)
  · obtain ⟨c', hhalt⟩ := run_candidates_of_lt_one r start (not_le.mp hbudget)
    exact absurd (Patient.eq_of_settles (Series.patient_candidatesRun _ _ _) hhalt hfills.2) (by simp)

/-- **A value that has been returned** is a member from the start on, and the series goes on with
what follows it. -/
theorem follows_of_returns (h : r.Admits start) (hpos : r.bySetPos = []) (hcount : r.count = none)
    (hcreate : Series.create n r start .utc budget = some (.ok s₀))
    (hrun : s₀.Returns (us ++ [v]) s) : start ≤ v ∧ (r.course start budget).Member v ∧
      (Ending.ofRule r).passes (v, v) = true ∧ ∀ vs, s.CanReturn vs ↔
        (v :: vs).IsChain ((r.course start budget).LeadsTo (.ofRule r)) := by
  have hbudget := one_le_budget hcreate ⟨s, hrun⟩ (by simp)
  obtain ⟨base, R, hfrom, hiff⟩ := canReturn_create h hpos hcount hbudget hcreate
  obtain ⟨u, us', hus⟩ := List.exists_cons_of_ne_nil (show us ++ [v] ≠ [] by simp)
  have hiff' : ∀ vs, s.CanReturn vs ↔ (r.course start budget).Due (.ofRule r) base R u ∧
      (us ++ [v]).IsChain ((r.course start budget).LeadsTo (.ofRule r)) ∧
      (v :: vs).IsChain ((r.course start budget).LeadsTo (.ofRule r)) := by
    intro vs
    rw [← hrun.canReturn_append_iff, ← List.isChain_split, hus, List.cons_append, hiff]
    have hsplit : us ++ v :: vs = u :: (us' ++ vs) := by
      rw [← List.cons_append, ← hus, List.append_assoc, List.singleton_append]
    rw [hsplit]
  obtain ⟨hdue, hchain, -⟩ := (hiff' []).mp s.canReturn_nil
  have hstart := hfrom u hdue.1
  have hv : start ≤ v ∧ (r.course start budget).Member v ∧ (Ending.ofRule r).passes (v, v) = true := by
    rw [hus] at hchain
    rcases List.mem_cons.mp (hus ▸ List.mem_append_right us (List.mem_singleton_self v)) with rfl | hv
    · exact ⟨hstart, hdue.1.1.1, hdue.2.2⟩
    · exact (Course.of_mem_of_isChain hchain hv).imp_left fun hlt => hstart.trans hlt.le
  refine ⟨hv.1, hv.2.1, hv.2.2, fun vs => ?_⟩
  rw [hiff', and_iff_right hdue, and_iff_right hchain]

/-! ### A new start -/

/-- Behind a match the members are the same if the match becomes the start. -/
theorem member_congr_start (h : r.Admits start) (hbudget : 0 ≤ budget) (hv : r.Matches start v)
    (hle : start ≤ v) (hvw : v ≤ w) :
    (r.course start budget).Member w ↔ (r.course v budget).Member w := by
  have h' := hv.admits h
  rw [member_iff h hbudget ((listStart_spec h.real).2.2.1.trans (hle.trans hvw)),
    member_iff h' hbudget ((listStart_spec h'.real).2.2.1.trans hvw), hv.congr_start hvw]

/-- Behind a match the years that are counted are the same if the match becomes the start. -/
theorem lasts_congr_start (h : r.Admits start) (hv : r.Matches start v) (hle : start ≤ v)
    (hbase : v.date.year ≤ base) :
    (r.course start budget).Lasts base w ↔ (r.course v budget).Lasts base w := by
  have hpassed : (r.course start budget).passedYears base w.date.year =
      (r.course v budget).passedYears base w.date.year := by
    ext y
    rw [Course.mem_passedYears, Course.mem_passedYears, wants_iff_visits, wants_iff_visits]
    refine and_congr_right fun hy => and_congr ?_ (names_years_congr h hv)
    have := Value.year_le_of_le hle
    exact iff_of_true (by omega) (by omega)
  unfold Course.Lasts
  rw [hpassed]
  rfl

/-- **What follows** on a match or on a value behind it is the same if the match becomes the
start. -/
theorem leadsTo_congr_start (h : r.Admits start) (hbudget : 0 ≤ budget) (hv : r.Matches start v)
    (hle : start ≤ v) (hvx : v ≤ x) :
    (r.course start budget).LeadsTo e x w ↔ (r.course v budget).LeadsTo e x w := by
  have hset : {w | (r.course start budget).Member w ∧ x < w} =
      {w | (r.course v budget).Member w ∧ x < w} := by
    ext w
    exact and_congr_left fun hxw => member_congr_start h hbudget hv hle (hvx.trans hxw.le)
  unfold Course.LeadsTo Course.Due
  rw [hset, lasts_congr_start h hv hle (Value.year_le_of_le hvx)]

/-- A start that matches the rule is its first member. -/
theorem isLeast_start (h : r.Admits start) (hbudget : 0 ≤ budget) (hpos : r.bySetPos = [])
    (hstart : r.Matches start start) : IsLeast {w | (r.course start budget).Member w ∧
      start.date.year ≤ w.date.year} start := by
  have hK := begins_course h hbudget
  have hmember : (r.course start budget).Member start :=
    (member_iff h hbudget (listStart_spec h.real).2.2.1).mpr hstart
  refine ⟨⟨hmember, le_rfl⟩, fun w hw => ?_⟩
  have hlist : r.listStart start = start := by
    rw [Rule.listStart, Series.listStart, hpos]
    rfl
  have hlength : ∀ v : Value, (v.path.take (r.course start budget).size).length =
      (r.course start budget).size := by
    intro v
    have := hK.blueprint.size_le
    rw [List.length_take, Value.length_path]
    unfold Course.size
    omega
  -- the chain begins at the path of the start, and values come in the order of their paths
  obtain ⟨-, -, hvalue⟩ := (builds_iff hK (course_hasTime r start budget).symm).mp hmember.1
  obtain ⟨hfrom, -, hvalue'⟩ := (builds_iff hK hw.1.1.hasTime).mp hw.1.1
  rw [start_course, hlist] at hfrom
  rw [← hvalue, ← hvalue']
  exact (hK.value_le_iff (hlength start) (hlength w)).mpr hfrom

/-- **A start that matches the rule** is the first instance of its series, if there is any budget
and the ending lets it pass.  What the series returns then follows it. -/
theorem exists_resumed (h : r.Admits v) (hpos : r.bySetPos = []) (hcount : r.count = none)
    (hbudget : 1 ≤ budget) (hv : r.Matches v v) (hpass : (Ending.ofRule r).passes (v, v) = true) :
    ∃ t₀ t, Settles (fun n => Series.create n r v .utc budget) (.ok t₀) ∧
      Settles (fun n => t₀.next n) (.ok v, t) ∧ ∀ vs, t.CanReturn vs ↔
        (v :: vs).IsChain ((r.course v budget).LeadsTo (.ofRule r)) := by
  have hbudget' : 0 ≤ budget := by omega
  have hK := begins_course h hbudget'
  have hcredited : (r.course v budget).credited.isSome = true := isSome_credited_course hpos
  have hleast := isLeast_start h hbudget' hpos hv
  -- the year of the start is the only one that passes before its first instance
  have hlasts : (r.course v budget).Lasts (v.date.year - 1) v := by
    have hcard : ((r.course v budget).passedYears (v.date.year - 1) v.date.year).card ≤ 1 := by
      refine Finset.card_le_one.mpr fun y hy z hz => ?_
      have hy := (Course.mem_passedYears.mp hy).1
      have hz := (Course.mem_passedYears.mp hz).1
      omega
    show ((Finset.card _ : Nat) : Int) ≤ budget
    omega
  rcases run_candidates h hbudget' with ⟨c, hrun, hawaits⟩ | ⟨c, -, -, hex⟩
  · have hsource : Series.sourceOf r c = .plain c := by
      rw [Series.sourceOf, hpos]
      rfl
    have hopen : (Series.unstarted r v .utc c).Open := ⟨rfl, rfl, steady_of_count_none hcount⟩
    have hfed : (r.course v budget).Fed (v.date.year - 1) (fun w => v.date.year ≤ w.date.year)
        (Series.unstarted r v .utc c) := ⟨rfl, ⟨c, hsource, hawaits⟩, by rintro k ⟨⟩⟩
    rcases hfed.generate hK hcredited with ⟨u, t, hg, hleast', -, hrests⟩ | ⟨t, -, hex⟩
    · obtain rfl := hleast.unique hleast'
      obtain ⟨n, hn⟩ := hg.exists_bound
      have hdraws := Series.draws_of_generate hn
      have hopen' := hopen.draws hdraws
      have hstart : Settles (fun n => loop (Series.startTurn n v) n (Series.unstarted r v .utc c))
          (.ok (), (t.judge v v).2) :=
        Settles.finish (Series.settles_startTurn_of_not_lt hg (lt_irrefl v))
      have hjudge : (t.judge v v).2 = { t with pending := some v } :=
        hopen'.judge_of_passes (by rw [hdraws.ending]; exact hpass)
      refine ⟨_, t, create_of_value h (reaches_of_matches h hv) hrun rfl hstart, ?_, fun vs => ?_⟩
      · rw [hjudge]
        filter_upwards with n
        simp [Series.next, Series.hasNext, ← hopen'.pending]
      · rw [hrests.canReturn_iff hK hcredited hbudget hopen', hdraws.ending]
        rfl
    · exact absurd hlasts (hex.not_lasts hK hbudget hleast.1.1.1 hleast.1)
  · exact absurd hlasts (hex.not_lasts hK hbudget hleast.1.1.1 hleast.1.1.1)

end Rule

/-- **A series can be resumed** from any of its values.  Take a valid rule without a count and
without positions and a start that the rule can use, in UTC and with any budget.  The series can be
created, and stepping makes it return some sequence of values, finite or not.  From each of these
values on, wherever it stands, the series of the same rule that is started there can be created and
returns what is left of the sequence: the value itself, then what came after it, and it ends where
the sequence does. -/
theorem resumes_from_any_value (hr : r.Valid) (hreal : start.IsReal)
    (hsub : r.freq.isSubDaily = true → start.hasTime = true) (hpos : r.bySetPos = [])
    (hcount : r.count = none) (budget : Int) :
    ∃ s₀ xs, Settles (fun n => Series.create n r start .utc budget) (.ok s₀) ∧ s₀.Plays xs ∧
      ∀ n v, xs.get? n = some v →
        ∃ t₀, Settles (fun n => Series.create n r v .utc budget) (.ok t₀) ∧ t₀.Plays (xs.drop n) := by
  have h : r.Admits start := ⟨hr, hreal, hsub⟩
  obtain ⟨S, s₀, hcreate, -, hlive, -⟩ := Rule.exists_live h .utc budget
  obtain ⟨xs, hplays⟩ := hlive.exists_plays
  refine ⟨s₀, xs, hcreate, hplays, fun n v hv => ?_⟩
  obtain ⟨m, hm⟩ := hcreate.exists_bound
  obtain ⟨us, s, ys, hrun, hplays', hdrop⟩ := hplays.exists_returns hv
  have hbudget : 1 ≤ budget := Rule.one_le_budget hm ⟨s, hrun⟩ (by simp)
  have hbudget' : 0 ≤ budget := by omega
  obtain ⟨hle, hmember, hpass, hold⟩ := Rule.follows_of_returns h hpos hcount hm hrun
  have hmatch : r.Matches start v :=
    (Rule.member_iff h hbudget' ((listStart_spec h.real).2.2.1.trans hle)).mp hmember
  have h' := hmatch.admits h
  obtain ⟨t₀, t, hcreate', hnext, hnew⟩ := Rule.exists_resumed h' hpos hcount hbudget
    ((hmatch.congr_start le_rfl).mp hmatch) hpass
  obtain ⟨k, hk⟩ := hcreate'.exists_bound
  obtain ⟨j, hj⟩ := hnext.exists_bound
  obtain ⟨S', -, hlive', -⟩ := ((Series.Reachable.create hk).next hj).live hr h'.real
  obtain ⟨zs, hplays''⟩ := hlive'.exists_plays
  -- behind the value, both series return what follows on it
  obtain rfl : ys = zs := hplays'.eq_of_canReturn hplays'' fun vs => by
    rw [hold, hnew]
    exact Course.isChain_congr le_rfl fun x w hx => Rule.leadsTo_congr_start h hbudget' hmatch hle hx
  exact ⟨t₀, hcreate', hdrop ▸ Series.plays_cons_iff.mpr ⟨t, hnext, hplays''⟩⟩

/-- Tuesdays and Thursdays of every other week, in January: the series goes on from its second day,
a Thursday, with the Tuesday twelve days later. -/
theorem resumes_from_any_value_thursday :
    let r : Rule := { untilBound := some (.ofDate ⟨2024, 1, 31⟩), freq := .weekly, interval := 2,
                      byDay := [.every .tu, .every .th] }
    let start : Value := .ofDate ⟨2024, 1, 2⟩
    let second : Value := .ofDate ⟨2024, 1, 4⟩
    ∃ s₀ xs t₀, Settles (fun n => Series.create n r start .utc 4) (.ok s₀) ∧ s₀.Plays xs ∧
      xs.get? 1 = some second ∧ xs.get? 2 = some (.ofDate ⟨2024, 1, 16⟩) ∧
      Settles (fun n => Series.create n r second .utc 4) (.ok t₀) ∧ t₀.Plays (xs.drop 1) := by
  intro r start second
  obtain ⟨s₀, xs, hcreate, hplays, hresumes⟩ := resumes_from_any_value (show r.Valid by decide)
    (show start.IsReal by decide) (show r.freq.isSubDaily = true → start.hasTime = true by decide)
    rfl rfl 4
  -- what is played is computed
  obtain ⟨s₁, s, s', hcreate', hrun, -⟩ := Series.returns_of_wholeRunOf
    (show Series.wholeRunOf 50 9 r start .utc 4 = some [start, second, .ofDate ⟨2024, 1, 16⟩,
      .ofDate ⟨2024, 1, 18⟩, .ofDate ⟨2024, 1, 30⟩] by decide +kernel)
  obtain rfl := Series.create_unique hcreate hcreate'
  obtain ⟨m, hm⟩ := hplays.canReturn_iff.mp ⟨s, hrun⟩
  have hget : ∀ n v, [start, second, .ofDate ⟨2024, 1, 16⟩, .ofDate ⟨2024, 1, 18⟩,
      .ofDate ⟨2024, 1, 30⟩][n]? = some v → xs.get? n = some v := by
    intro n v hv
    rw [← hm, Stream'.Seq.getElem?_take] at hv
    split_ifs at hv
    exact hv
  obtain ⟨t₀, hcreate'', hplays'⟩ := hresumes 1 second (hget 1 second rfl)
  exact ⟨_, xs, t₀, hcreate, hplays, hget 1 second rfl, hget 2 _ rfl, hcreate'', hplays'⟩

end Recurrence
