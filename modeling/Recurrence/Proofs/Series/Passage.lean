/-
Recurrence/Proofs/Series/Passage.lean

What a series goes through, from its beginning and from a target on.

A series goes through a set of values if each of its runs returns a segment of the set, and a run
that has ended without the years giving up has returned all of it (`Series.GoesThrough`).  A new
series goes through some set, and moved to a target it goes through what of this set is not before
the target (`Rule.exists_goesThrough`).  Where months are passed over, the set is what the series
tracks; where they are not, because of a count or of positions, it consists of what is played.
-/
import Recurrence.Proofs.Series.Guarded
import Recurrence.Proofs.Series.Plays
import Recurrence.Proofs.Skipping

namespace Recurrence

variable {s s' s'' : Series} {F : Value → Prop} {vs : List Value} {xs : Values} {v w target : Value}

namespace Series

/-- The runs of a series return one real value of its kind after another from a set, leaving none
out on the way, and those that end before the years give up return them all. -/
structure GoesThrough (s : Series) (F : Value → Prop) : Prop where
  isReal : ∀ {vs s'}, s.Returns vs s' → ∀ v ∈ vs, v.IsReal ∧ v.hasTime = s.hasTime
  segment : ∀ {vs s'}, s.Returns vs s' → Segment F vs
  complete : ∀ {vs s' s''}, s.Returns vs s' → s'.Ends s'' → s''.source.halted = false →
    ∀ u, F u → u ∈ vs

/-- A run whose next value is not before an end has left out nothing before it. -/
theorem GoesThrough.mem_of_next (hs : s.GoesThrough F) (hrun : s.Returns vs s')
    (hnext : s'.Returns [w] s'') (hw : ¬ w < target) (hv : F v) (hlt : v < target) : v ∈ vs := by
  have hmem := (hs.segment (hrun.append hnext)).closed w (by simp) v hv (hlt.le.trans (not_lt.mp hw))
  rcases List.mem_append.mp hmem with hmem | hmem
  · exact hmem
  · exact absurd hlt (List.mem_singleton.mp hmem ▸ hw)

/-! ### What is played -/

/-- What a series returns whose instances are guarded are real values of its kind. -/
theorem Guarded.isReal {K : Course} {e : Ending} {P : Value → Prop} (hK : K.Begins)
    (h : s.Guarded K e P) (hrun : s.Returns vs s') : ∀ v ∈ vs, v.IsReal ∧ v.hasTime = s.hasTime := by
  intro v hv
  obtain ⟨hreal, hkind⟩ := ((h.returns hK hrun).2 v hv).2.isReal hK
  exact ⟨hreal, hkind.trans h.kind⟩

/-- What it returns by stepping alone is ascending. -/
theorem Guarded.plays {K : Course} {e : Ending} {P : Value → Prop} (hK : K.Begins)
    (h : s.Guarded K e P) (hplays : s.Plays xs) :
    xs.Pairwise (· < ·) ∧ ∀ v ∈ xs, v.IsReal ∧ v.hasTime = s.hasTime := by
  have hall : ∀ n, (xs.take n).Pairwise (· < ·) ∧
      ∀ v ∈ xs.take n, v.IsReal ∧ v.hasTime = s.hasTime := by
    intro n
    obtain ⟨s', hrun, -⟩ := hplays n
    have hreal := h.isReal hK hrun
    refine ⟨(h.returns hK hrun).1.imp_of_mem fun {u v} hu hv hlt => ?_, hreal⟩
    exact (Value.lt_iff_key ((hreal u hu).2.trans (hreal v hv).2.symm)).mpr hlt
  constructor
  · intro i j hij u hu v hv
    have hget : ∀ k x, k < j + 1 → xs.get? k = some x → (xs.take (j + 1))[k]? = some x := by
      intro k x hk hx
      rw [Stream'.Seq.getElem?_take, if_pos hk, hx]
    obtain ⟨hi, rfl⟩ := List.getElem?_eq_some_iff.mp (hget i u (by omega) hu)
    obtain ⟨hj, rfl⟩ := List.getElem?_eq_some_iff.mp (hget j v (by omega) hv)
    exact List.pairwise_iff_getElem.mp (hall (j + 1)).1 i j hi hj hij
  · intro v hv
    obtain ⟨k, hk⟩ := Stream'.Seq.mem_iff_exists_get?.mp hv
    exact (hall (k + 1)).2 v (Stream'.Seq.get?_mem_take (Nat.lt_succ_self k) hk.symm)

/-- **A series goes through what it plays**, if that ascends. -/
theorem Plays.goesThrough (h : s.Plays xs) (hxs : xs.Pairwise (· < ·))
    (hreal : ∀ {vs s'}, s.Returns vs s' → ∀ v ∈ vs, v.IsReal ∧ v.hasTime = s.hasTime) :
    s.GoesThrough (· ∈ xs) where
  isReal := hreal
  segment := by
    intro vs s' hrun
    obtain ⟨htake, -⟩ := h.returns hrun
    have hget : ∀ {i v}, vs[i]? = some v → xs.get? i = some v := by
      intro i v hi
      rw [← htake, Stream'.Seq.getElem?_take] at hi
      split_ifs at hi
      exact hi
    refine ⟨List.pairwise_iff_getElem.mpr fun i j hi hj hij => ?_, fun v hv => ?_, ?_⟩
    · exact hxs i j hij _ (hget (List.getElem?_eq_getElem hi)) _ (hget (List.getElem?_eq_getElem hj))
    · obtain ⟨i, hi⟩ := List.mem_iff_getElem?.mp hv
      exact Stream'.Seq.get?_mem (hget hi)
    · -- a value that is not later stands before the other one, so it has been returned too
      intro v hv w hw hle
      obtain ⟨i, hi⟩ := List.mem_iff_getElem?.mp hv
      obtain ⟨j, hj⟩ := Stream'.Seq.mem_iff_exists_get?.mp hw
      have hji : j ≤ i := by
        by_contra hlt
        exact (hxs i j (not_le.mp hlt) v (hget hi) w hj.symm).not_ge hle
      rw [← htake]
      exact Stream'.Seq.get?_mem_take (hji.trans_lt (List.getElem?_eq_some_iff.mp hi).1) hj.symm
  complete := by
    intro vs s' s'' hrun hend _ u hu
    obtain ⟨htake, hdrop⟩ := h.returns hrun
    have hnil := hdrop.unique (plays_nil_iff.mpr ⟨s'', hend⟩)
    obtain ⟨n, hn⟩ := Stream'.Seq.mem_iff_exists_get?.mp hu
    rw [← htake]
    refine Stream'.Seq.get?_mem_take (not_le.mp fun hle => ?_) hn.symm
    have hget : (xs.drop vs.length).get? (n - vs.length) = some u := by
      rw [Stream'.Seq.drop_get?, Nat.add_sub_cancel' hle, hn]
    rw [hnil] at hget
    exact absurd hget (by simp)

end Series

/-! ### What is tracked -/

/-- **A series goes through what it tracks**, if its source is a chain and nothing is counted. -/
theorem Course.goesThrough {K : Course} (hS : K.freeSupply.Fits s) (h : K.freeSupply.Tracks s F)
    (hcount : ∀ {vs s' s''}, s.Returns vs s' → s'.Ends s'' → ∀ m, s''.ending ≠ .count m)
    (hreal : ∀ {vs s'}, s.Returns vs s' → ∀ v ∈ vs, v.IsReal ∧ v.hasTime = s.hasTime) :
    s.GoesThrough F where
  isReal := hreal
  segment hrun := by
    obtain ⟨-, -, F', -, hsegment⟩ := h.returns hS hrun
    exact (hsegment.resolve_left id).1
  complete hrun hend hgoes u hu := by
    refine h.all_returned hS hrun hend id (fun R _ hover => ?_) (hcount hrun hend) hu
    exact absurd (hover.1.symm.trans hgoes) (by simp)

/-! ### New series -/

namespace Rule

variable {r : Rule} {start : Value} {zone : Zone} {budget : Int}

/-- Where months may be passed over, a new series goes through what it tracks. -/
theorem exists_tracked (h : r.Admits start) (hbudget : 0 ≤ budget)
    (hz : start.hasTime = true → zone.Steady) {startUtc : Value}
    (hutc : start.toUtc zone = .ok startUtc) (ht : target.IsReal)
    (hkind : target.hasTime = start.hasTime) (hcount : r.count = none) (hpos : r.bySetPos = [])
    {n : Nat} (hn : Series.create n r start zone budget = some (.ok s)) :
    ∃ s₁ F, Settles (fun n => s.advanceTo n target) (.ok (), s₁) ∧ s.GoesThrough F ∧
      s₁.GoesThrough fun u => F u ∧ ¬ u < target := by
  have hK := begins_course h hbudget
  have hguarded := Series.guarded_create h hbudget hutc hn
  obtain ⟨s, F, hcreate, hfits, -, hstart, hzone, htracks, -⟩ :=
    (begins_chain h hbudget hpos (Course.ties_free _ start)).create_of_kind h hz
  obtain rfl := Series.create_unique hcreate hn
  have hround : s.roundTarget target = target :=
    Series.roundTarget_of_kind (by rw [hkind, Series.hasTime, hstart]; exact id)
  have haims : (s.roundTarget target).Aims s.zone s.hasTime := by
    rw [hround, hzone, Series.hasTime, hstart]
    cases htimed : start.hasTime with
    | false => exact Value.aims_of_untimed zone (hkind.trans htimed)
    | true => exact Value.aims_of_kind (hz htimed) (hkind.trans htimed) (.inr (.inr ht))
  obtain ⟨a, s₁, F', hmove, hrule₁, htracks', hexact⟩ := Course.advanceTo hK hfits htracks target
  obtain ⟨rfl, hF'⟩ := hexact haims
  rw [hround] at hF'
  obtain rfl : F' = fun u => F u ∧ ¬ u < target := funext fun u => propext (hF' u)
  obtain ⟨m, hm⟩ := hmove.exists_bound
  have hreach := Series.Reachable.create hn
  have hguarded₁ := hguarded.advanceTo hK hm
  exact ⟨s₁, F, hmove,
    Course.goesThrough hfits htracks
      (fun hrun hend => ((hreach.returns hrun).ends hend).not_count h.valid hcount)
      (hguarded.isReal hK),
    Course.goesThrough (hfits.of_sameRule hrule₁) htracks'
      (fun hrun hend => (((hreach.advanceTo hm).returns hrun).ends hend).not_count h.valid hcount)
      (hguarded₁.isReal hK)⟩

/-- Where no month is passed over, a new series goes through what it plays. -/
theorem exists_played (h : r.Admits start) (hbudget : 0 ≤ budget) {startUtc : Value}
    (hutc : start.toUtc zone = .ok startUtc) (hkind : target.hasTime = start.hasTime)
    (hskips : s.skipsMonths = false) {n : Nat}
    (hn : Series.create n r start zone budget = some (.ok s)) :
    ∃ s₁ F, Settles (fun n => s.advanceTo n target) (.ok (), s₁) ∧ s.GoesThrough F ∧
      s₁.GoesThrough fun u => F u ∧ ¬ u < target := by
  have hK := begins_course h hbudget
  have hguarded := Series.guarded_create h hbudget hutc hn
  obtain ⟨S, hS, hlive, -, hstart, -⟩ := live_of_create h hbudget hn
  have hround : s.roundTarget target = target :=
    Series.roundTarget_of_kind (by rw [hkind, Series.hasTime, hstart]; exact id)
  obtain ⟨xs, hplays⟩ := hlive.exists_plays
  have hxs := (hguarded.plays hK hplays).1
  obtain ⟨s₁, hmove, -, -⟩ : ∃ s₁, Settles (fun n => s.advanceTo n target) (.ok (), s₁) ∧
      s.SameRule s₁ ∧ S.Live s₁ :=
    hlive.advanceTo hS fun hmay => absurd (hskips.symm.trans hmay) (by simp)
  obtain ⟨m, hm⟩ := hmove.exists_bound
  obtain ⟨xs', hdrops, hplays'⟩ := hplays.advanceTo hskips hm
  rw [hround] at hdrops
  have hguarded₁ := hguarded.advanceTo hK hm
  have hgoes := hplays'.goesThrough (hdrops.ascending hxs) (hguarded₁.isReal hK)
  have hmem : (· ∈ xs') = fun u => u ∈ xs ∧ ¬ u < target :=
    funext fun u => propext (hdrops.mem_iff hxs)
  exact ⟨s₁, (· ∈ xs), hmove, hplays.goesThrough hxs (hguarded.isReal hK), hmem ▸ hgoes⟩

/-- **A new series** goes through some set of values from its start on, and moved to a target it goes
through those that are not before the target.  Its zone is a steady one, or it consists of dates. -/
theorem exists_goesThrough (h : r.Admits start) (hbudget : 0 ≤ budget)
    (hz : start.hasTime = true → zone.Steady) {startUtc : Value}
    (hutc : start.toUtc zone = .ok startUtc) (ht : target.IsReal)
    (hkind : target.hasTime = start.hasTime) :
    ∃ s₀ s₁ F, Settles (fun n => Series.create n r start zone budget) (.ok s₀) ∧
      Settles (fun n => s₀.advanceTo n target) (.ok (), s₁) ∧ s₀.GoesThrough F ∧
      s₁.GoesThrough (fun u => F u ∧ ¬ u < target) ∧ s₀.start = start ∧
      ∀ vs s, s₀.Returns vs s → ∀ v ∈ vs, ¬ v < startUtc := by
  obtain ⟨s₀, hcreate⟩ := exists_create h hbudget zone
  obtain ⟨n, hn⟩ := hcreate.exists_bound
  obtain ⟨S, -, -, hrule, hstart, -⟩ := live_of_create h hbudget hn
  have hguarded := Series.guarded_create h hbudget hutc hn
  have hfrom : ∀ vs s, s₀.Returns vs s → ∀ v ∈ vs, ¬ v < startUtc :=
    fun vs s hrun v hv => ((hguarded.returns (begins_course h hbudget) hrun).2 v hv).1
  by_cases hskips : s₀.skipsMonths = true
  · obtain ⟨hcount, hpos⟩ : r.count = none ∧ r.bySetPos = [] := by
      rw [Series.skipsMonths, hrule] at hskips
      simpa using hskips
    obtain ⟨s₁, F, hmove, hs₀, hs₁⟩ := exists_tracked h hbudget hz hutc ht hkind hcount hpos hn
    exact ⟨s₀, s₁, F, hcreate, hmove, hs₀, hs₁, hstart, hfrom⟩
  · obtain ⟨s₁, F, hmove, hs₀, hs₁⟩ := exists_played h hbudget hutc hkind (by simpa using hskips) hn
    exact ⟨s₀, s₁, F, hcreate, hmove, hs₀, hs₁, hstart, hfrom⟩

end Rule

end Recurrence
