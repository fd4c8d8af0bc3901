/-
Recurrence/Proofs/Series/Chain.lean

The chain of a rule, from its first run on.

The first run fills all fields but the finest.  After it the chain awaits every member
of its course, or the years have given up already (`Course.Unstarted.run`).  A rule without
positions takes its instances from the chain itself (`Rule.begins_chain`).
-/
import Recurrence.Proofs.Series.Start

namespace Recurrence

variable {r : Rule} {start v : Value} {budget base y : Int}

/-- Whatever lies in the year of the start or later lies behind the first day of that year. -/
theorem low_of_year (start : Value) (hv : v.IsReal) (hle : start.date.year ≤ v.date.year) :
    Gregorian.dayNumber start.date.year 1 1 * 86400 ≤ v.instant := by
  have hbounds := Course.instant_bounds hv
  have hfirst := Gregorian.dayNumber_first_le hle
  omega

/-! ### The first run -/

namespace Course

variable {K : Course} {c : Candidates}

/-- Candidates of a course that have not been asked for any value yet. -/
structure Unstarted (K : Course) (c : Candidates) : Prop where
  chain_eq : c.chain = K.blueprint.chain
  rest_eq : c.fields.toList.drop K.size = K.rest
  filter_eq : c.filter = K.filter
  hasTime_eq : c.hasTime = K.hasTime
  credited_eq : c.credited = K.credited

/-- They stand before all values of the course. -/
theorem Unstarted.holds (h : K.Unstarted c) (hK : K.Begins)
    (hfirst : ∀ s ∈ K.blueprint.start[0]?, base < s) : K.Holds base 0 c none where
  stands := h.chain_eq ▸ hK.blueprint.stands hfirst c.fields
  rest_eq := h.rest_eq
  filter_eq := h.filter_eq
  hasTime_eq := h.hasTime_eq
  credited_eq := h.credited_eq

/-- The values of a course lie in its first year or later. -/
theorem Begins.year_le (hK : K.Begins) (hfirst : K.blueprint.start[0]? = some y)
    (hv : K.Builds v) : y ≤ v.date.year :=
  (hv.wants hK).2 rfl _ hfirst

/-- **The first run** of the chain leads to all members, unless the years give up. -/
theorem Unstarted.run (h : K.Unstarted c) (hK : K.Begins)
    (hfirst : K.blueprint.start[0]? = some y) :
    (∃ c', Settles (fun n => c.run n (c.chain.length - 1) 0) (.value, c') ∧
        K.Awaits (y - 1) c' fun w => y ≤ w.date.year) ∨
      ∃ c', Settles (fun n => c.run n (c.chain.length - 1) 0) (.halt, c') ∧ c'.gaveUp = true ∧
        K.Exhausted (y - 1) fun w => K.Builds w := by
  have hsize := hK.two_le_size
  have hbefore : ∀ s ∈ K.blueprint.start[0]?, y - 1 < s := by
    rw [hfirst]
    rintro _ ⟨⟩
    omega
  have hholds := h.holds hK hbefore
  have hlen : c.chain.length = K.size := hholds.stands.length_chain
  have hall : ∀ w, K.Ahead 0 c none w := by
    intro w
    rw [Course.Ahead, beyond_none_iff]
    simp
  rw [hlen]
  rcases hholds.run hK (n := K.size - 1) (by omega) (by omega) (by omega) (fun _ => rfl) with
    ⟨c', hrun, hholds', -, hsame⟩ | ⟨c', hrun, hgave, hex⟩
  · refine .inl ⟨c', hrun, none, hholds', fun w hw => ?_⟩
    rw [← hsame w hw, iff_true_right (hall w)]
    exact hK.year_le hfirst hw
  · exact .inr ⟨c', hrun, hgave, hex.mono fun w hw => ⟨hw, hall w⟩⟩

/-- **A chain sets itself up** as the source of a rule without positions. -/
theorem Unstarted.setsUp_chain (h : K.Unstarted c) (hK : K.Begins)
    (hfirst : K.blueprint.start[0]? = some start.date.year) (hpos : r.bySetPos = [])
    {Tied : Int → (Value → Prop) → Prop} (hT : K.Ties start Tied) :
    (K.supply Tied).SetsUp r start c := by
  have hplain : ∀ c, Series.sourceOf r c = .plain c := by
    intro c
    rw [Series.sourceOf, hpos]
    rfl
  simp only [Supply.SetsUp, hplain]
  rcases h.run hK hfirst with ⟨c', hrun, hawaits⟩ | ⟨c', hrun, hgave, hex⟩
  · refine .inl ⟨c', _, Gregorian.dayNumber start.date.year 1 1 * 86400, hrun,
      ⟨c', _, rfl, hawaits, hT.begins⟩, ?_, ?_, ?_⟩
    · exact fun v w _ hlt hv => hv.trans (Value.year_le_of_le hlt.le)
    · exact fun w _ hle => Value.year_le_of_le hle
    · exact fun w hw _ hle => low_of_year start hw hle
  · exact .inr ⟨c', hrun, hgave, _, hT.fresh _, hex.mono fun w hw => hw.1.1⟩

end Course

/-! ### The chain of a rule -/

namespace Rule

theorem year_listStart (r : Rule) (start : Value) :
    (r.listStart start).date.year = start.date.year := by
  have hsame : (r.listStart start).path.take 1 = start.path.take 1 := take_path_listStart (.inl rfl)
  exact (List.cons.inj hsame).1

theorem chain_candidates (r : Rule) (start : Value) (budget : Int) :
    (r.candidates start budget).chain = (r.course start budget).blueprint.chain := by
  show (r.candidates start budget).chain =
    ⟨.years (r.years start budget), []⟩ :: (r.candidates start budget).chain.tail
  rcases candidates_cases r start budget with ⟨-, hc⟩ | ⟨t, -, -, hc⟩ | ⟨-, hc⟩ <;> rw [hc] <;> rfl

/-- Before the first run no year has been asked for. -/
theorem not_gaveUp_candidates (r : Rule) (start : Value) (hbudget : 0 ≤ budget) :
    (r.candidates start budget).gaveUp = false := by
  unfold Candidates.gaveUp
  rw [chain_candidates]
  exact decide_eq_false (show ¬ budget < 0 by omega)

/-- The chain begins in the year of the start. -/
theorem first_start (r : Rule) (start : Value) (budget : Int) :
    (r.course start budget).blueprint.start[0]? = some start.date.year := by
  show ((r.listStart start).path.take (r.candidates start budget).chain.length)[0]? = _
  rw [List.getElem?_take_of_lt]
  · exact congrArg some (year_listStart r start)
  · rw [chain_candidates]
    exact Nat.succ_pos _

/-- The generator of the years comes to a year. -/
def Visits (r : Rule) (start : Value) (budget : Int) (y : Int) : Prop :=
  start.date.year ≤ y ∧ (r.years start budget).Names y

theorem wants_iff_visits : (r.course start budget).blueprint.years.Wants
    (r.course start budget).blueprint.start y ↔ r.Visits start budget y := by
  have hfirst := first_start r start budget
  constructor
  · exact fun ⟨hnames, hfrom⟩ => ⟨hfrom rfl _ hfirst, hnames⟩
  · rintro ⟨hle, hnames⟩
    refine ⟨hnames, fun _ s hs => ?_⟩
    obtain rfl : start.date.year = s := Option.some.inj (hfirst.symm.trans hs)
    exact hle

/-- The members of a rule lie in the year of the start or later. -/
theorem year_le_of_builds (h : r.Admits start) (hbudget : 0 ≤ budget)
    (hv : (r.course start budget).Builds v) : start.date.year ≤ v.date.year :=
  (begins_course h hbudget).year_le (first_start r start budget) hv

/-- The candidates of a rule are those of its course, before the first run. -/
theorem unstarted_candidates (r : Rule) (start : Value) (budget : Int) :
    (r.course start budget).Unstarted (r.candidates start budget) where
  chain_eq := chain_candidates r start budget
  rest_eq := by
    show (r.candidates start budget).fields.toList.drop (r.course start budget).size =
      (r.candidates start budget).fields.toList.drop (r.candidates start budget).chain.length
    rw [chain_candidates]
    rfl
  filter_eq := rfl
  hasTime_eq := rfl
  credited_eq := rfl

/-- The first run of a rule's chain leads to all members, unless the years give up. -/
theorem run_candidates (h : r.Admits start) (hbudget : 0 ≤ budget) :
    (∃ c, Settles (fun n => (r.candidates start budget).run n
          ((r.candidates start budget).chain.length - 1) 0) (.value, c) ∧
        (r.course start budget).Awaits (start.date.year - 1) c
          fun w => start.date.year ≤ w.date.year) ∨
      ∃ c, Settles (fun n => (r.candidates start budget).run n
          ((r.candidates start budget).chain.length - 1) 0) (.halt, c) ∧ c.gaveUp = true ∧
        (r.course start budget).Exhausted (start.date.year - 1)
          fun w => (r.course start budget).Builds w :=
  (unstarted_candidates r start budget).run (begins_course h hbudget) (first_start r start budget)

/-- Where the steps of a rule cannot meet its listed times, it has no members from the start on. -/
theorem not_member_of_not_reaches (h : r.Admits start) (hbudget : 0 ≤ budget)
    (hreach : r.reaches start = false) (hv : (r.course start budget).Member v) : ¬ start ≤ v := by
  intro hle
  have hm := (member_iff h hbudget ((listStart_spec h.real).2.2.1.trans hle)).mp hv
  rw [reaches_of_matches h hm] at hreach
  exact absurd hreach (by simp)

/-- **A rule without positions** takes its instances from its chain. -/
theorem begins_chain (h : r.Admits start) (hbudget : 0 ≤ budget) (hpos : r.bySetPos = [])
    {Tied : Int → (Value → Prop) → Prop} (hT : (r.course start budget).Ties start Tied) :
    ((r.course start budget).supply Tied).Begins r start budget where
  lawful := (begins_course h hbudget).lawful_supply (course_hasTime r start budget).symm hT
  unreachable hreach _ hw := not_member_of_not_reaches h hbudget hreach hw
  run := (unstarted_candidates r start budget).setsUp_chain (begins_course h hbudget)
    (first_start r start budget) hpos hT

end Rule

end Recurrence
