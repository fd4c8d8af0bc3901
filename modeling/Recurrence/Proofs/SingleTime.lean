/-
Recurrence/Proofs/SingleTime.lean

Setting the only time of day once and for all.

Where a rule leaves only one time of day, its candidates are dates with this time, and no
generator runs below the day.  The lists of times would begin at the start, so on its first day
this chain hands out candidates that the full chain leaves out.  All of these lie before the start
(`Rule.member_fieldwiseCourse_iff`), and in earlier periods than its own if there are positions
(`Rule.group_fieldwiseCourse`), so they are dropped without having been counted.

So the series over both chains take their instances from one set, and agree
(`Series.TakesFrom.prefix_or`).
-/
import Recurrence.Proofs.SelectedInstances
import Recurrence.Proofs.Series.Agreement

namespace Recurrence

variable {r : Rule} {start v : Value} {zone : Zone} {budget : Int}

/-! ### Candidates that are put together field by field -/

namespace Rule

/-- The candidates of a rule with a time of day, put together by the generators of all six fields
even where there is only one time of day. -/
def fieldwise (r : Rule) (start : Value) (budget : Int) : Candidates :=
  ⟨(r.plan start budget).chain, .ofValue (r.listStart start),
    .ofAll (r.plan start budget).timeFilters, true, if r.bySetPos.isEmpty then some 0 else none⟩

/-- They are those of the rule unless there is only one time of day. -/
theorem candidates_eq_fieldwise (htime : start.hasTime = true)
    (hsingle : (r.plan start budget).singleTime? = none) :
    r.candidates start budget = r.fieldwise start budget := by
  rcases candidates_cases r start budget with ⟨ht, -⟩ | ⟨t, -, hs, -⟩ | ⟨-, hc⟩
  · exact absurd (ht.symm.trans htime) (by simp)
  · exact absurd (hs.symm.trans hsingle) (by simp)
  · exact hc

theorem unstarted_fieldwise (r : Rule) (start : Value) (budget : Int) :
    (r.fieldwiseCourse start budget).Unstarted (r.fieldwise start budget) where
  chain_eq := rfl
  rest_eq := rfl
  filter_eq := rfl
  hasTime_eq := rfl
  credited_eq := rfl

theorem first_fieldwise (r : Rule) (start : Value) (budget : Int) :
    (r.fieldwiseCourse start budget).blueprint.start[0]? = some start.date.year := by
  show some (r.listStart start).date.year = _
  rw [year_listStart]

/-- **The members field by field** are the matches from the start of the lists on. -/
theorem member_fieldwiseCourse_iff (h : r.Admits start) (hbudget : 0 ≤ budget)
    (htime : start.hasTime = true) : (r.fieldwiseCourse start budget).Member v ↔
      r.listStart start ≤ v ∧ r.Matches start v := by
  have hlist : (r.listStart start).hasTime = true :=
    (listStart_spec (r := r) h.real).2.1.trans htime
  constructor
  · intro hm
    have hv := (begins_fieldwiseCourse h hbudget).isReal hm.1
    have ht : v.hasTime = true := hm.1.hasTime
    obtain ⟨hstart, hagrees⟩ := (member_fieldwiseCourse_iff_agrees h hbudget hv ht).mp hm
    have hle := le_of_path_le hlist ht hstart
    exact ⟨hle, (matches_iff h budget hv (ht.trans htime.symm) hle).mpr hagrees⟩
  · rintro ⟨hle, hm⟩
    have ht : v.hasTime = true := hm.2.1.trans htime
    exact (member_fieldwiseCourse_iff_agrees h hbudget hm.1 ht).mpr
      ⟨Value.take_path_le (hlist.trans ht.symm) hle 6, (matches_iff h budget hm.1 hm.2.1 hle).mp hm⟩

/-- From the start of the lists on, both chains have the same members. -/
theorem member_iff_fieldwise (h : r.Admits start) (hbudget : 0 ≤ budget)
    (htime : start.hasTime = true) (hle : r.listStart start ≤ v) :
    (r.course start budget).Member v ↔ (r.fieldwiseCourse start budget).Member v := by
  rw [member_iff h hbudget hle, member_fieldwiseCourse_iff h hbudget htime, and_iff_right hle]

/-! ### Periods -/

theorem divides_fieldwise (h : r.Admits start) (hbudget : 0 ≤ budget) :
    (r.fieldwiseCourse start budget).Divides r.periodNumber (periodKey r.freq r.weekStart) :=
  divides_members (begins_fieldwiseCourse h hbudget) fun _ => rfl

/-- **The periods from the start's on** have the same members in both chains. -/
theorem group_fieldwiseCourse (h : r.Admits start) (hbudget : 0 ≤ budget)
    (htime : start.hasTime = true) (hpos : r.bySetPos ≠ []) {n : Int}
    (hn : r.periodNumber start ≤ n) : (r.fieldwiseCourse start budget).group r.periodNumber n =
      (r.course start budget).group r.periodNumber n := by
  unfold Course.group
  congr 1
  ext v
  constructor
  · rintro ⟨hm, rfl⟩
    have hle := ((member_fieldwiseCourse_iff h hbudget htime).mp hm).1
    exact ⟨(member_iff_fieldwise h hbudget htime hle).mpr hm, rfl⟩
  · rintro ⟨hm, rfl⟩
    have hle := listStart_le_of_member h hbudget hpos hm hn
    exact ⟨(member_iff_fieldwise h hbudget htime hle).mp hm, rfl⟩

/-- Field by field, the periods before that of the start have no members, and those from it on are
as even as before. -/
theorem even_fieldwise (h : r.Admits start) (hbudget : 0 ≤ budget) (htime : start.hasTime = true)
    (hpos : r.bySetPos ≠ []) (hday : r.freq.WithinDay) :
    (r.fieldwiseCourse start budget).Even r.periodNumber := by
  have hfrom : ∀ {n}, (r.fieldwiseCourse start budget).group r.periodNumber n ≠ [] →
      r.periodNumber start ≤ n := by
    intro n hn
    obtain ⟨v, hv⟩ := List.exists_mem_of_ne_nil _ hn
    obtain ⟨hm, rfl⟩ :=
      ((divides_fieldwise h hbudget).mem_group (begins_fieldwiseCourse h hbudget)).mp hv
    exact ((member_fieldwiseCourse_iff h hbudget htime).mp hm).2.2.2.1.1
  intro n m hn hm
  have hn' := group_fieldwiseCourse h hbudget htime hpos (hfrom hn)
  have hm' := group_fieldwiseCourse h hbudget htime hpos (hfrom hm)
  rw [hn', hm']
  exact even_course h hbudget hpos hday n m (hn' ▸ hn) (hm' ▸ hm)

/-- From the start on, the positions select the same values in both chains. -/
theorem selected_iff_fieldwise (h : r.Admits start) (hbudget : 0 ≤ budget)
    (htime : start.hasTime = true) (hpos : r.bySetPos ≠ []) (hv : v.IsReal)
    (hkind : v.hasTime = start.hasTime) (hle : start ≤ v) :
    (r.course start budget).Selected r.periodNumber r.bySetPos v ↔
      (r.fieldwiseCourse start budget).Selected r.periodNumber r.bySetPos v := by
  have hnumber : r.periodNumber start ≤ r.periodNumber v :=
    periodNumber_mono h.real hv hkind.symm hle
  rw [Course.Selected, Course.Selected, group_fieldwiseCourse h hbudget htime hpos hnumber]

/-- **What the two chains supply** is the same from the start on. -/
theorem exists_supplies (h : r.Admits start) (hbudget : 0 ≤ budget) (htime : start.hasTime = true) :
    ∃ S S' : Supply, S.Begins r start budget ∧ S.Honest ∧ S'.Lawful r start ∧
      S'.SetsUp r start (r.fieldwise start budget) ∧ S'.Honest ∧
      ∀ w, w.IsReal → w.hasTime = start.hasTime → start ≤ w → (S.Member w ↔ S'.Member w) := by
  have hK := begins_fieldwiseCourse h hbudget
  have hunstarted := unstarted_fieldwise r start budget
  have hfirst := first_fieldwise r start budget
  by_cases hpos : r.bySetPos = []
  · let Tied : Int → (Value → Prop) → Prop := fun _ _ => True
    have hT := (r.fieldwiseCourse start budget).ties_free start
    refine ⟨(r.course start budget).supply Tied, (r.fieldwiseCourse start budget).supply Tied,
      begins_chain h hbudget hpos (Course.ties_free _ start), Course.honest_supply _ _,
      hK.lawful_supply htime hT, hunstarted.setsUp_chain hK hfirst hpos hT,
      Course.honest_supply _ _, fun w _ _ hle => ?_⟩
    exact member_iff_fieldwise h hbudget htime ((listStart_spec h.real).2.2.1.trans hle)
  · have hd := divides_fieldwise h hbudget
    have hcredited : (r.fieldwiseCourse start budget).credited = none :=
      if_neg (by simpa using hpos)
    exact ⟨r.selectedSupply start budget,
      (r.fieldwiseCourse start budget).selectedSupply r.periodNumber r.bySetPos,
      begins_selection h hbudget hpos, Course.honest_selectedSupply _ _ _,
      hK.lawful_selectedSupply hcredited htime hd hpos,
      hunstarted.setsUp_selection hK hfirst hd hpos fun hu =>
        even_fieldwise h hbudget htime hpos (withinDay_of_uniform hu),
      Course.honest_selectedSupply _ _ _, fun w hw hkind =>
        selected_iff_fieldwise h hbudget htime hpos hw hkind⟩

end Rule

/-! ### Series that are driven field by field -/

namespace Series

/-- The series of a rule with a time of day, driven by the generators of all six fields even where
there is only one time of day. -/
def createFieldwise (bound : Nat) (r : Rule) (start : Value) (zone : Zone) (budget : Int) :
    Option (Except SeriesError Series) :=
  let c := r.fieldwise start budget
  if !r.reaches start then some (.ok { unstarted r start zone c with finished := true })
  else ofCandidates bound r start zone c

/-- It is the series of the rule unless there is only one time of day. -/
theorem create_eq_createFieldwise (h : r.Admits start) (htime : start.hasTime = true)
    (hsingle : (r.plan start budget).singleTime? = none) (n : Nat) :
    create n r start zone budget = createFieldwise n r start zone budget := by
  unfold create createFieldwise
  simp only [h.not_subDaily_date, Bool.false_eq_true, if_false]
  show (if !r.reaches start then
      some (.ok { unstarted r start zone (r.candidates start budget) with finished := true })
    else ofCandidates n r start zone (r.candidates start budget)) = _
  rw [Rule.candidates_eq_fieldwise htime hsingle]

/-- **Driven field by field**, a new series takes its instances from what is left. -/
theorem exists_createFieldwise {S : Supply} (hr : r.Admits start) (hz : zone.Steady)
    (hlawful : S.Lawful r start) (hruns : S.SetsUp r start (r.fieldwise start budget))
    (hhonest : S.Honest)
    (hunreachable : r.reaches start = false → ∀ w, S.Member w → ¬ start ≤ w) :
    ∃ s, Settles (fun n => createFieldwise n r start zone budget) (.ok s) ∧
      s.TakesFrom (S.Left (.ofRule r) zone (start ≤ ·)) r.count := by
  cases hreach : r.reaches start with
  | true =>
    simp only [createFieldwise, hreach, Bool.not_true, Bool.false_eq_true, if_false]
    obtain ⟨s, F, hsettles, hfits, -, -, -, htracks, hF⟩ :=
      hruns.ofCandidates hlawful hr.real fun _ => hz
    obtain ⟨n, hn⟩ := hsettles.exists_bound
    exact ⟨s, hsettles, allowance_ofCandidates hr.valid hn ▸
      htracks.takesFrom hfits hhonest (hF.imp_right fun hF u => (hF u).symm)⟩
  | false =>
    simp only [createFieldwise, hreach, Bool.not_false, if_true]
    refine ⟨_, settles_const _, ?_⟩
    rw [← allowance_unstarted hr.valid start zone (r.fieldwise start budget)]
    exact (Supply.tracks_of_stopped zone (.inr (hunreachable hreach))).takesFrom
      ⟨hlawful, fun _ => hz⟩ hhonest (.inr fun _ => Iff.rfl)

end Series

/-- **Setting the only time of day once and for all changes nothing.**  Take any valid rule and any
start with real fields and a time of day, in UTC or at a fixed offset; whether the rule leaves only
one time of day makes no difference here.  The series of the rule can be created, and so can the
series that is driven by the generators of all six fields.  Both always have an answer.  As long as
the years have given up in neither, what they have returned is the same as far as both runs go, and
one that has ended has not returned less than the other. -/
theorem single_time_changes_nothing (hr : r.Valid) (hreal : start.IsReal)
    (htime : start.hasTime = true) (hbudget : 0 ≤ budget) (hz : zone.Steady) :
    ∃ s₀ t₀, Settles (fun n => Series.create n r start zone budget) (.ok s₀) ∧
      Settles (fun n => Series.createFieldwise n r start zone budget) (.ok t₀) ∧
      ∀ vs ws s t, s₀.Returns vs s → t₀.Returns ws t → s.Proceeds ∧ t.Proceeds ∧
        (s.source.halted = false → t.source.halted = false → (vs <+: ws ∨ ws <+: vs) ∧
          (∀ s', s.Ends s' → s'.source.halted = false → ws <+: vs) ∧
          ∀ t', t.Ends t' → t'.source.halted = false → vs <+: ws) := by
  have hadmits : r.Admits start := ⟨hr, hreal, fun _ => htime⟩
  obtain ⟨S, S', hbegins, hhonest, hlawful', hruns', hhonest', hsame⟩ :=
    Rule.exists_supplies hadmits hbudget htime
  have hleft : S'.Left (.ofRule r) zone (start ≤ ·) = S.Left (.ofRule r) zone (start ≤ ·) :=
    funext fun u => propext (Supply.left_congr hbegins.lawful hlawful' hsame _ zone u).symm
  obtain ⟨s₀, hcreate, hs⟩ := hbegins.exists_takesFrom hhonest hadmits hz
  obtain ⟨t₀, hcreate', ht⟩ := Series.exists_createFieldwise hadmits hz hlawful' hruns' hhonest'
    fun hreach w hw hle => by
      obtain ⟨hw', hkind⟩ := hlawful'.member w hw
      exact hbegins.unreachable hreach w ((hsame w hw' hkind hle).mpr hw) hle
  rw [hleft] at ht
  refine ⟨s₀, t₀, hcreate, hcreate', fun vs ws s t hvs hws =>
    ⟨hs.proceeds hvs, ht.proceeds hws, fun hgoes hgoes' => ⟨?_, ?_, ?_⟩⟩⟩
  · exact hs.prefix_or ht hvs hws hgoes hgoes'
  · exact fun s' hend hgoes'' => hs.prefix_of_ends ht hvs hws hend hgoes'' hgoes'
  · exact fun t' hend hgoes'' => ht.prefix_of_ends hs hws hvs hend hgoes'' hgoes

/-- At nine o'clock, from ten o'clock on, an hour ahead of UTC: the chain of dates begins with a
candidate before the start, the full chain a day later, and both series return the same two
mornings. -/
theorem single_time_changes_nothing_every_morning :
    let r : Rule := { count := some 2, byHour := [9], byMinute := [0], bySecond := [0],
                      bySetPos := [1], freq := .hourly }
    let start : Value := .ofDateTime ⟨2024, 1, 30⟩ ⟨10, 0, 0⟩
    let values : List Value :=
      [.ofDateTime ⟨2024, 1, 31⟩ ⟨8, 0, 0⟩, .ofDateTime ⟨2024, 2, 1⟩ ⟨8, 0, 0⟩]
    (r.plan start 100).singleTime? = some ⟨9, 0, 0⟩ ∧
    ∃ s₀ t₀ s, Settles (fun n => Series.create n r start (.fixed 3600) 100) (.ok s₀) ∧
      Settles (fun n => Series.createFieldwise n r start (.fixed 3600) 100) (.ok t₀) ∧
      s₀.Returns values s ∧ s.source.halted = false ∧
      ∀ ws t, t₀.Returns ws t → t.source.halted = false → values <+: ws ∨ ws <+: values := by
  intro r start values
  obtain ⟨s₀, t₀, hcreate, hcreate', hagree⟩ := single_time_changes_nothing
    (show r.Valid by decide) (show start.IsReal by decide) rfl (show (0 : Int) ≤ 100 by decide)
    (show Zone.Steady (.fixed 3600) from ⟨by decide, by decide⟩)
  obtain ⟨s₁, s, hcreate₁, hrun, hgoes⟩ := Series.returns_of_firstRunOf
    (show Series.firstRunOf 100 2 r start (.fixed 3600) 100 = some (values, false) by
      decide +kernel)
  obtain rfl := Series.create_unique hcreate hcreate₁
  exact ⟨by decide +kernel, _, t₀, s, hcreate, hcreate', hrun, hgoes, fun ws t hws hgoes' =>
    ((hagree values ws s t hrun hws).2.2 hgoes hgoes').1⟩

end Recurrence
