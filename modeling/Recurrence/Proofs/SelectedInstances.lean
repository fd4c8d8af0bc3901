/-
Recurrence/Proofs/SelectedInstances.lean

What a rule with positions returns.

From each period in phase the positions pick some of the values that match the rest of
the rule.  The first period counts in full although the start lies inside it; only a first
week begins at the date of the start.  What has been picked, period by period and from the
start on, are the instances of the rule (`Rule.instances`).  A series returns exactly these
as long as the years do not give up (`selected_instances`).
-/
import Recurrence.Proofs.Series.Allowance
import Recurrence.Proofs.Series.Selected
import Recurrence.Proofs.Series.States

namespace Recurrence

/-- The values in the period of a number that match a rule, in ascending order.  A first week
begins at the date of the start. -/
noncomputable def Rule.matchesIn (r : Rule) (start : Value) (n : Int) : List Value :=
  listing {v | r.Matches start v ∧ r.periodNumber v = n ∧
    (r.freq = .weekly → start.date.key ≤ v.date.key)}

/-- What the positions of a rule pick from its first `k` periods in phase, from the start on. -/
noncomputable def Rule.instances (r : Rule) (start : Value) (k : Nat) : List Value :=
  ((List.range k).flatMap fun i : Nat =>
    picked r.bySetPos (r.matchesIn start (r.periodNumber start + i * r.interval))).filter
      (start ≤ ·)

variable {r : Rule} {start v w : Value} {budget n : Int} {k : Nat}

namespace Rule

/-! ### The periods of a selection -/

/-- **The group of a period** from that of the start on consists of its matches. -/
theorem matchesIn_eq_group (h : r.Admits start) (hbudget : 0 ≤ budget) (hpos : r.bySetPos ≠ [])
    (hn : r.periodNumber start ≤ n) :
    r.matchesIn start n = (r.course start budget).group r.periodNumber n := by
  unfold matchesIn Course.group
  congr 1
  ext v
  constructor
  · rintro ⟨hm, rfl, hweek⟩
    exact ⟨(member_iff h hbudget
      (listStart_le_of_periodNumber h.real hpos hm.1 hm.2.1 hn hweek)).mpr hm, rfl⟩
  · rintro ⟨hm, rfl⟩
    refine ⟨(member_iff h hbudget (listStart_le_of_member h hbudget hpos hm hn)).mp hm, rfl,
      fun hf => ?_⟩
    have hdate := date_le_of_member h hbudget hm
    rw [listStart_eq_periodStart hpos, hf] at hdate
    exact hdate

/-- What is picked from a period in phase is selected, and nothing else of it is. -/
theorem mem_picked_matchesIn (h : r.Admits start) (hbudget : 0 ≤ budget) (hpos : r.bySetPos ≠ [])
    (i : Nat) :
    v ∈ picked r.bySetPos (r.matchesIn start (r.periodNumber start + i * r.interval)) ↔
      (r.selectedSupply start budget).Member v ∧
        r.periodNumber v = r.periodNumber start + i * r.interval := by
  have hd := divides h hbudget
  have hK := begins_course h hbudget
  have hinterval := h.interval_pos
  have hnonneg : 0 ≤ (i : Int) * r.interval := Int.mul_nonneg (by omega) (by omega)
  rw [matchesIn_eq_group h hbudget hpos (by omega)]
  constructor
  · exact fun hv => ⟨hd.selected_of_mem hK hv, ((hd.mem_group hK).mp (mem_of_mem_picked hv)).2⟩
  · rintro ⟨hv, hn⟩
    rw [← hn]
    exact hv

/-- The instances are the selected members from the start on, up to some period. -/
theorem mem_instances (h : r.Admits start) (hbudget : 0 ≤ budget) (hpos : r.bySetPos ≠ []) :
    v ∈ r.instances start k ↔ (r.selectedSupply start budget).Member v ∧ start ≤ v ∧
      ∃ i < k, r.periodNumber v = r.periodNumber start + i * r.interval := by
  simp only [instances, List.mem_filter, List.mem_flatMap, List.mem_range, decide_eq_true_eq,
    mem_picked_matchesIn h hbudget hpos]
  constructor
  · rintro ⟨⟨i, hi, hv, hn⟩, hle⟩
    exact ⟨hv, hle, i, hi, hn⟩
  · rintro ⟨hv, hle, i, hi, hn⟩
    exact ⟨⟨i, hi, hv, hn⟩, hle⟩

/-- Every selected member from the start on lies in a period in phase. -/
theorem exists_period (h : r.Admits start) (hbudget : 0 ≤ budget)
    (hv : (r.selectedSupply start budget).Member v) (hle : start ≤ v) :
    ∃ i : Nat, r.periodNumber v = r.periodNumber start + i * r.interval := by
  have hm := (member_iff h hbudget ((listStart_spec h.real).2.2.1.trans hle)).mp
    (hv.member (divides h hbudget) (begins_course h hbudget))
  obtain ⟨hfrom, i, hi⟩ := hm.2.2.1
  have := h.interval_pos
  have hnonneg : 0 ≤ i := by
    by_contra hneg
    have : r.interval * i < 0 := Int.mul_neg_of_pos_of_neg (by omega) (by omega)
    omega
  refine ⟨i.toNat, ?_⟩
  rw [Int.toNat_of_nonneg hnonneg, Int.mul_comm]
  omega

/-- **The instances of the first periods** are a segment of all selected members from the start
on. -/
theorem segment_instances (h : r.Admits start) (hbudget : 0 ≤ budget) (hpos : r.bySetPos ≠ [])
    (k : Nat) : Segment (fun u => (r.selectedSupply start budget).Member u ∧ start ≤ u)
      (r.instances start k) where
  ascending := by
    have hd := divides h hbudget
    have hK := begins_course h hbudget
    refine List.Pairwise.filter _ (List.pairwise_flatMap.mpr ⟨fun i _ => ?_, ?_⟩)
    · exact pairwise_picked (pairwise_listing _)
    · refine List.pairwise_lt_range.imp ?_
      intro i j hij v hv w hw
      obtain ⟨hvm, hvn⟩ := (mem_picked_matchesIn h hbudget hpos i).mp hv
      obtain ⟨hwm, hwn⟩ := (mem_picked_matchesIn h hbudget hpos j).mp hw
      have hinterval := h.interval_pos
      have hphase : (i : Int) * r.interval < j * r.interval :=
        Int.mul_lt_mul_of_pos_right (by omega) (by omega)
      refine lt_of_not_ge fun hle => ?_
      have := hd.mono w v (hwm.member hd hK) (hvm.member hd hK) hle
      omega
  mem v hv := by
    obtain ⟨hm, hle, -⟩ := (mem_instances h hbudget hpos).mp hv
    exact ⟨hm, hle⟩
  closed v hv w hw hle := by
    have hd := divides h hbudget
    have hK := begins_course h hbudget
    obtain ⟨hm, -, i, hi, hn⟩ := (mem_instances h hbudget hpos).mp hv
    obtain ⟨j, hj⟩ := exists_period h hbudget hw.1 hw.2
    refine (mem_instances h hbudget hpos).mpr ⟨hw.1, hw.2, j, ?_, hj⟩
    have hmono := hd.mono w v (hw.1.member hd hK) (hm.member hd hK) hle
    rw [hj, hn] at hmono
    have hpos := h.interval_pos
    have : (j : Int) ≤ i := le_of_mul_le_mul_right (by omega) (show 0 < r.interval by omega)
    omega

/-- Any selected members from the start on are instances of the first so many periods. -/
theorem exists_forall_mem_instances (h : r.Admits start) (hbudget : 0 ≤ budget)
    (hpos : r.bySetPos ≠ []) (vs : List Value)
    (hvs : ∀ v ∈ vs, (r.selectedSupply start budget).Member v ∧ start ≤ v) :
    ∃ k, ∀ v ∈ vs, v ∈ r.instances start k := by
  induction vs with
  | nil => exact ⟨0, by simp⟩
  | cons v vs ih =>
    obtain ⟨k, hk⟩ := ih fun w hw => hvs w (.tail _ hw)
    obtain ⟨hv, hle⟩ := hvs v List.mem_cons_self
    obtain ⟨i, hi⟩ := exists_period h hbudget hv hle
    refine ⟨max k (i + 1), List.forall_mem_cons.mpr ⟨?_, fun w hw => ?_⟩⟩
    · exact (mem_instances h hbudget hpos).mpr ⟨hv, hle, i, by omega, hi⟩
    · obtain ⟨hwm, hwle, j, hj, hwn⟩ := (mem_instances h hbudget hpos).mp (hk w hw)
      exact (mem_instances h hbudget hpos).mpr ⟨hwm, hwle, j, by omega, hwn⟩

end Rule

/-! ### The series -/

/-- What a new series with positions and without an end tracks. -/
theorem left_selectedSupply_iff (hcount : r.count = none) (huntil : r.untilBound = none)
    (u : Value) : (r.selectedSupply start budget).Left (.ofRule r) .utc (start ≤ ·) u ↔
      (r.selectedSupply start budget).Member u ∧ start ≤ u := by
  have hending : Ending.ofRule r = .never := by simp [Ending.ofRule, hcount, huntil]
  constructor
  · rintro ⟨w, hw, hle, -, rfl⟩
    exact ⟨hw, hle⟩
  · rintro ⟨hu, hle⟩
    refine ⟨u, hu, hle, ?_, rfl⟩
    rw [hending]
    rintro last ⟨⟩

/-- **Selection is exact.**  A series of a valid rule with positions, without a count and an end,
can be created wherever the rule can use the start, and it always has an answer.  As long as the
years have not given up, what it has returned is a beginning of the instances of the rule, and
once it has ended it has returned them all. -/
theorem selected_instances (hr : r.Valid) (hreal : start.IsReal) (hpos : r.bySetPos ≠ [])
    (hcount : r.count = none) (huntil : r.untilBound = none) (hbudget : 1 ≤ budget) :
    ((r.freq.isSubDaily = true → start.hasTime = true) →
      ∃ s₀, Settles (fun n => Series.create n r start .utc budget) (.ok s₀)) ∧
    ∀ (bound : Nat) (s₀ s : Series) (vs : List Value),
      Series.create bound r start .utc budget = some (.ok s₀) → s₀.Returns vs s →
        s.Proceeds ∧
        (s.source.halted = false → ∃ k, vs <+: r.instances start k) ∧
        ∀ s', s.Ends s' → s'.source.halted = false → ∀ k, r.instances start k <+: vs := by
  have hbudget' : 0 ≤ budget := by omega
  have hutc : Zone.Steady .utc := trivial
  refine ⟨fun hsub => ?_, fun bound s₀ s vs hcreate hrun => ?_⟩
  · have hadmits : r.Admits start := ⟨hr, hreal, hsub⟩
    obtain ⟨s₀, F, hsettles, -⟩ :=
      (Rule.begins_selection hadmits hbudget' hpos).create hadmits hutc
    exact ⟨s₀, hsettles⟩
  have hadmits := Series.admits_of_create hr hreal hcreate
  obtain ⟨s₁, F, hsettles, hfits, hrule, -, -, htracks, hF⟩ :=
    (Rule.begins_selection hadmits hbudget' hpos).create hadmits hutc
  obtain rfl : s₀ = s₁ :=
    Except.ok.inj (Patient.eq_of_settles (Series.patient_create r start .utc budget) hsettles hcreate)
  obtain ⟨hrule, hastray, F', htracks', hsegment⟩ := htracks.returns hfits hrun
  have hfits' := hfits.of_sameRule hrule
  -- before the years give up, the values that are tracked are the instances
  have hF : s.source.halted = false →
      ∀ u, F u ↔ (r.selectedSupply start budget).Member u ∧ start ≤ u := fun hs u =>
    ((hF.resolve_left fun h => absurd ((hastray h).symm.trans hs) (by simp)) u).trans
      (left_selectedSupply_iff hcount huntil u)
  refine ⟨htracks'.proceeds hfits', fun hs => ?_, fun s' hend hs' k => ?_⟩
  · have hsegment := (hsegment.resolve_left fun h => absurd (h.symm.trans hs) (by simp)).1.congr
      fun u => (hF hs u).symm
    obtain ⟨k, hk⟩ := Rule.exists_forall_mem_instances hadmits hbudget' hpos vs hsegment.mem
    exact ⟨k, hsegment.prefix_of_subset (Rule.segment_instances hadmits hbudget' hpos k) hk⟩
  · have hnot : ¬ (r.selectedSupply start budget).Astray s'.source := fun h =>
      absurd (h.symm.trans hs') (by simp)
    have hs : s.source.halted = false :=
      Bool.eq_false_iff.mpr fun h => hnot ((htracks'.ends hfits' hend).2.1 h)
    have hsegment := (hsegment.resolve_left fun h => absurd (h.symm.trans hs) (by simp)).1.congr
      fun u => (hF hs u).symm
    refine (Rule.segment_instances hadmits hbudget' hpos k).prefix_of_all hsegment fun u hu => ?_
    refine htracks.all_returned hfits hrun hend hnot ?_
      ((((Series.Reachable.create hcreate).returns hrun).ends hend).not_count hr hcount)
      ((hF hs u).mpr hu)
    rintro R u (hhalted | hover) ⟨w, hw, hR, -⟩
    · exact hnot hhalted
    · exact hover w hw hR

/-- The first `k` instances of a new series, and whether the years have given up by then. -/
def Series.firstRunOf (bound k : Nat) (r : Rule) (start : Value) (zone : Zone) (budget : Int) :
    Option (List Value × Bool) :=
  match create bound r start zone budget with
  | some (.ok s) => (firstRun bound k s).map fun (vs, s) => (vs, s.source.halted)
  | _ => none

theorem Series.returns_of_firstRunOf {bound k : Nat} {zone : Zone} {vs : List Value} {halted : Bool}
    (h : firstRunOf bound k r start zone budget = some (vs, halted)) :
    ∃ s₀ s, create bound r start zone budget = some (.ok s₀) ∧ s₀.Returns vs s ∧
      s.source.halted = halted := by
  unfold firstRunOf at h
  split at h
  · next s₀ hcreate =>
    obtain ⟨⟨ws, s⟩, hrun, hws⟩ := Option.map_eq_some_iff.mp h
    obtain ⟨rfl, rfl⟩ := Prod.mk.inj hws
    exact ⟨s₀, s, hcreate, returns_of_firstRun hrun, rfl⟩
  · exact absurd h (by simp)

/-- The first and the last Monday or Friday of every other month: in the first month, the first
of these days lies before the start and still counts. -/
theorem selected_instances_mondays_fridays :
    let r : Rule :=
      { interval := 2, byDay := [.every .mo, .every .fr], bySetPos := [1, -1], freq := .monthly }
    let start : Value := .ofDate ⟨2024, 1, 10⟩
    let vs : List Value := [.ofDate ⟨2024, 1, 29⟩, .ofDate ⟨2024, 3, 1⟩, .ofDate ⟨2024, 3, 29⟩]
    ∃ s₀ s, Series.create 100 r start .utc 100 = some (.ok s₀) ∧ s₀.Returns vs s ∧ s.Proceeds ∧
      ∃ k, vs <+: r.instances start k := by
  intro r start vs
  obtain ⟨s₀, s, hcreate, hrun, hhalted⟩ := Series.returns_of_firstRunOf
    (show Series.firstRunOf 100 3 r start .utc 100 = some (vs, false) by decide +kernel)
  obtain ⟨hproceeds, hinstances, -⟩ := (selected_instances (show r.Valid by decide)
    (show start.IsReal by decide) (show r.bySetPos ≠ [] by decide) rfl rfl
    (show (1 : Int) ≤ 100 by decide)).2 100 s₀ s vs hcreate hrun
  exact ⟨s₀, s, hcreate, hrun, hproceeds, hinstances hhalted⟩

end Recurrence
