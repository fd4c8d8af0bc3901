/-
Recurrence/Proofs/WeekStart.lean

Where the start of weeks does not matter.

Weeks play a part in the numbers that they have in a year, in weekly rules that list weekdays
and leave weeks out, and in weekly rules that choose among the candidates of a week.  Elsewhere
the day on which weeks start is looked at in vain: the candidates of a rule are the same
whatever it is (`Rule.candidates_withWeekStart`).

Only a weekly rule that lists no weekday and chooses positions still tells its periods apart by
weeks.  All its candidates fall on the weekday of the start.  Two of them lie in one week only if
they lie on one day, and that is so whatever day weeks start on (`Rule.sameWeek_iff_of_member`).
-/
import Recurrence.Proofs.DateTargets
import Recurrence.Proofs.Meaning.Periods
import Recurrence.Proofs.Series.Likeness
import Recurrence.Proofs.Soundness

namespace Recurrence

variable {r : Rule} {start genStart v w : Value} {budget : Int} {n : Nat}

/-- The start of weeks has a meaning in a rule: it numbers the weeks of a year, or it lists
weekdays and leaves out weeks or chooses within them. -/
def Rule.LooksAtWeeks (r : Rule) : Prop :=
  r.byWeekNo ≠ [] ∨ r.freq = .weekly ∧ r.byDay ≠ [] ∧ (1 < r.interval ∨ r.bySetPos ≠ [])

instance (r : Rule) : Decidable r.LooksAtWeeks := by
  unfold Rule.LooksAtWeeks
  infer_instance

/-! ### The same candidates -/

namespace Rule

/-- A rule with weeks that start on another day. -/
abbrev withWeekStart (r : Rule) (weekStart : Weekday) : Rule := { r with weekStart }

theorem dayGenerator_withWeekStart (hno : r.byWeekNo = []) (weekStart : Weekday)
    (start genStart : Value) :
    dayGenerator (r.withWeekStart weekStart) start genStart = dayGenerator r start genStart := by
  unfold dayGenerator
  rw [show drivingDayPart (r.withWeekStart weekStart) = drivingDayPart r from rfl]
  cases hpart : drivingDayPart r with
  | none => rfl
  | some part =>
    cases part with
    | byWeekNo => exact absurd hno (hasPart_of_driving hpart)
    | byDay => rfl
    | byMonthDay => rfl
    | byYearDay => rfl

theorem dayFilter_withWeekStart (hno : r.byWeekNo = []) (weekStart : Weekday) :
    dayFilter (r.withWeekStart weekStart) = dayFilter r := by
  funext part
  cases part with
  | byWeekNo => simp [dayFilter, hno]
  | byDay => rfl
  | byMonthDay => rfl
  | byYearDay => rfl

theorem weekFilter_eq_none (h : ¬ r.LooksAtWeeks) (start : Value) : weekFilter r start = none := by
  refine if_neg ?_
  rintro ⟨hfreq, hpart, hinterval⟩
  exact h (.inr ⟨hfreq, hasPart_of_driving hpart, .inl hinterval⟩)

theorem reaches_withWeekStart (weekStart : Weekday) (start : Value) :
    (r.withWeekStart weekStart).reaches start = r.reaches start := by
  refine reaches_congr ?_ ?_ (fun field => ?_) start
  exacts [rfl, rfl, .refl (r.clockValues field)]

/-- **The candidates are the same** whatever day weeks start on. -/
theorem candidates_withWeekStart (hr : r.Valid) (h : ¬ r.LooksAtWeeks) (weekStart : Weekday)
    (start : Value) (budget : Int) :
    (r.withWeekStart weekStart).candidates start budget = r.candidates start budget := by
  have hno : r.byWeekNo = [] := by_contra fun hno => h (.inl hno)
  have hfilters : dayFilters (r.withWeekStart weekStart) start = dayFilters r start := by
    unfold dayFilters
    rw [dayFilter_withWeekStart hno, weekFilter_eq_none h,
      weekFilter_eq_none (r := r.withWeekStart weekStart) h]
    rfl
  have hpacer (month day hour minute second : Generator) :
      Plan.pacerOf (r.withWeekStart weekStart) start month day hour minute second =
        Plan.pacerOf r start month day hour minute second := by
    unfold Plan.pacerOf
    by_cases hinterval : r.interval = 1
    · rw [if_pos hinterval, if_pos hinterval]
    · rw [if_neg hinterval, if_neg hinterval]
      cases hfreq : r.freq with
      | weekly =>
        have hbyDay : r.byDay = [] := by
          by_contra hbyDay
          have := hr.1
          exact h (.inr ⟨hfreq, hbyDay, .inl (by omega)⟩)
        simp [hbyDay]
      | secondly => rfl
      | minutely => rfl
      | hourly => rfl
      | daily => rfl
      | monthly => rfl
      | yearly => rfl
  have hplan : Plan.ofRule (r.withWeekStart weekStart) start (r.listStart start) budget =
      Plan.ofRule r start (r.listStart start) budget := by
    simp only [Plan.ofRule, dayGenerator_withWeekStart hno, hfilters, hpacer, reaches_withWeekStart]
    rfl
  show Series.candidates _ start (Plan.ofRule (r.withWeekStart weekStart) start
    (r.listStart start) budget) = _
  rw [hplan]
  rfl

/-! ### Periods -/

theorem periodKey_withWeekStart (h : r.freq ≠ .weekly) (weekStart : Weekday) (v : Value) :
    periodKey r.freq weekStart v = periodKey r.freq r.weekStart v := by
  cases hfreq : r.freq with
  | weekly => exact absurd hfreq h
  | _ => rfl

/-- The candidates of a weekly rule that lists no weekdays fall on the weekday of the start. -/
theorem weekday_of_member (h : r.Admits start) (hbudget : 0 ≤ budget) (hfreq : r.freq = .weekly)
    (hbyDay : r.byDay = []) (hpos : r.bySetPos ≠ []) (hm : (r.course start budget).Member v) :
    v.date.dayNumber % 7 = start.date.dayNumber % 7 := by
  obtain ⟨hv, hkind⟩ := member_isReal h hbudget hm
  have hday : ¬ r.freq.WithinDay := by simp [Frequency.WithinDay, hfreq]
  have hle := listStart_le_of_date h.real hpos hday hv hkind (date_le_of_member h hbudget hm)
  obtain ⟨-, -, -, -, hkeeps, -⟩ := (member_iff h hbudget hle).mp hm
  exact weekday_eq_weekday_iff.mp (hkeeps.1 hfreq hbyDay)

/-- Days that lie whole weeks apart lie in one week only if they are the same, whatever day weeks
start on. -/
theorem weekStart_eq_iff {m n : Int} (h : m % 7 = n % 7) (weekday : Int) :
    Gregorian.weekStart m weekday = Gregorian.weekStart n weekday ↔ m = n := by
  unfold Gregorian.weekStart
  omega

/-- **Candidates of one weekday** make up the same weeks whatever day weeks start on. -/
theorem sameWeek_iff_of_member (h : r.Admits start) (hbudget : 0 ≤ budget)
    (hfreq : r.freq = .weekly) (hbyDay : r.byDay = []) (hpos : r.bySetPos ≠ [])
    (weekStart : Weekday) (hv : (r.course start budget).Member v)
    (hw : (r.course start budget).Member w) :
    periodKey r.freq r.weekStart v = periodKey r.freq r.weekStart w ↔
      periodKey r.freq weekStart v = periodKey r.freq weekStart w := by
  have hsame := (weekday_of_member h hbudget hfreq hbyDay hpos hv).trans
    (weekday_of_member h hbudget hfreq hbyDay hpos hw).symm
  simp only [hfreq, periodKey, List.cons.injEq, and_true, weekStart_eq_iff hsame]

end Rule

/-! ### Candidates that are the same -/

/-- A patient operation goes in step with itself. -/
theorem Patient.rel_self {α : Type*} {Q : α → α → Prop} {op : Nat → Option α} (hp : Patient op)
    {a : α} (ha : Settles op a) (hQ : Q a a) (n : Nat) : Option.Rel Q (op n) (op n) := by
  cases hn : op n with
  | none => exact .none
  | some b =>
    obtain rfl := Patient.eq_of_settles hp ha hn
    exact .some hQ

theorem rel_refl {α : Type*} {Q : α → α → Prop} (hQ : ∀ a, Q a a) (x : Option α) :
    Option.Rel Q x x := by
  cases x with
  | none => exact .none
  | some a => exact .some (hQ a)

/-- Candidates go in step with themselves. -/
theorem Candidates.eq_lockstep : Candidates.Lockstep (Same fun _ => True) Eq Eq where
  next n c c' h := by
    subst h
    refine rel_refl (fun a => ?_) _
    obtain ⟨_ | _ | v, c⟩ := a
    · exact .failed rfl
    · exact .ended c c
    · exact .value ⟨rfl, trivial⟩ rfl
  credit _ _ h := h ▸ rfl
  skipMonths n l l' c c' hl h := by
    subst hl h
    exact rel_refl (fun a => ⟨rfl, .inr rfl⟩) _

/-- Candidates of a course go in step with themselves, and hand out members alone. -/
theorem Course.Begins.lockstep {K : Course} (hK : K.Begins) :
    Candidates.Lockstep (Same K.Member) Eq fun c c' =>
      c = c' ∧ ∃ base R, K.Awaits base c R where
  next n c c' h := by
    obtain ⟨rfl, base, R, hawaits⟩ := h
    obtain ⟨answer, hsettles, -⟩ := hawaits.next hK
    refine Patient.rel_self (patient_nextCandidate c) hsettles ?_ n
    obtain ⟨m, hm⟩ := hsettles.exists_bound
    obtain ⟨answer, c₁⟩ := answer
    rcases hawaits.of_next hK hm with ⟨v, rfl, hv, hsource⟩ | rfl
    · exact .value ⟨rfl, hv⟩ ⟨rfl, hsource⟩
    · exact .ended _ _
  credit c c' h := by
    obtain ⟨rfl, base, R, hawaits⟩ := h
    exact ⟨rfl, _, R, hawaits.credit hK⟩
  skipMonths n l l' c c' hl h := by
    subst hl
    obtain ⟨rfl, base, R, hawaits⟩ := h
    obtain ⟨s, hsettles, hlands⟩ := hawaits.skipMonths hK l
    refine Patient.rel_self (Series.patient_skipMonths c l) hsettles ⟨rfl, ?_⟩ n
    rcases hlands with ⟨-, base', -, hawaits'⟩ | ⟨hhalt, -⟩
    · exact .inr ⟨rfl, base', _, hawaits'⟩
    · exact .inl hhalt

/-- What holds of no candidates goes in step. -/
theorem Candidates.empty_lockstep :
    Candidates.Lockstep (Same fun _ => False) Eq fun _ _ => False :=
  ⟨fun _ _ _ h => h.elim, fun _ _ h => h.elim, fun _ _ _ _ _ _ h => h.elim⟩

/-- **Where weeks are not looked at, their start does not matter.**  Take a valid rule without week
numbers that is not a weekly rule with weekdays and an interval or positions, any start with real
fields, any zone and any budget.  Whatever day weeks start on, no calls tell the difference: the
same values are returned, the same is said about more of them, and nothing is left at the same
call.  A weekly rule without weekdays that chooses positions is among these rules. -/
theorem week_start_does_not_matter {r : Rule} (hr : r.Valid) (hweeks : ¬ r.LooksAtWeeks)
    (weekStart : Weekday) {start : Value} (hreal : start.IsReal) (zone : Zone) (budget : Int) :
    r.AnswersLike { r with weekStart } start zone budget := by
  have hcandidates := Rule.candidates_withWeekStart hr hweeks weekStart start budget
  have hreach := (Rule.reaches_withWeekStart (r := r) weekStart start).symm
  have hacts {P : Value → Prop} (hkey : r.bySetPos.isEmpty = false → ∀ v w, P v → P w →
      (periodKey r.freq r.weekStart v = periodKey r.freq r.weekStart w ↔
        periodKey r.freq weekStart v = periodKey r.freq weekStart w)) :
      r.ActsLike P (r.withWeekStart weekStart) :=
    ⟨rfl, rfl, rfl, rfl, rfl, fun _ => rfl, hkey⟩
  by_cases hgroups : r.freq = .weekly ∧ r.bySetPos ≠ []
  · obtain ⟨hfreq, hpos⟩ := hgroups
    have hbyDay : r.byDay = [] := by_contra fun hbyDay => hweeks (.inr ⟨hfreq, hbyDay, .inr hpos⟩)
    have hadmits : r.Admits start := ⟨hr, hreal, by simp [hfreq, Frequency.isSubDaily,
      Frequency.isFinerThan, Frequency.rank]⟩
    rcases lt_or_ge budget 0 with hbudget | hbudget
    · -- without any budget the years give up at once, and nothing is ever asked
      obtain ⟨c, hrun⟩ := Rule.run_candidates_of_lt_one r start (show budget < 1 by omega)
      refine (hacts fun _ _ _ hv => hv.elim).answersLike Candidates.empty_lockstep hr hreal zone
        hreach fun n => ?_
      rw [hcandidates]
      exact Patient.rel_self (Series.patient_candidatesRun _ _ _) hrun ⟨rfl, .inl rfl⟩ n
    · have hK := Rule.begins_course hadmits hbudget
      refine (hacts fun _ _ _ => Rule.sameWeek_iff_of_member hadmits hbudget hfreq hbyDay hpos
        weekStart).answersLike hK.lockstep hr hreal zone hreach fun n => ?_
      rw [hcandidates]
      rcases Rule.run_candidates hadmits hbudget with ⟨c, hrun, hawaits⟩ | ⟨c, hrun, -⟩
      · exact Patient.rel_self (Series.patient_candidatesRun _ _ _) hrun
          ⟨rfl, .inr ⟨rfl, _, _, hawaits⟩⟩ n
      · exact Patient.rel_self (Series.patient_candidatesRun _ _ _) hrun ⟨rfl, .inl rfl⟩ n
  · have hfreq : r.bySetPos.isEmpty = false → r.freq ≠ .weekly := fun hpos hfreq =>
      hgroups ⟨hfreq, by simpa using hpos⟩
    refine (hacts fun hpos v w _ _ => ?_).answersLike Candidates.eq_lockstep hr hreal zone hreach
      fun n => ?_
    · rw [Rule.periodKey_withWeekStart (hfreq hpos) weekStart,
        Rule.periodKey_withWeekStart (hfreq hpos) weekStart]
    · rw [hcandidates]
      exact rel_refl (fun a => ⟨rfl, .inr rfl⟩) _

/-- Every other week on the weekday of the start, twice a day, and of these the last: what weeks
that start on Monday answer, weeks that start on Thursday answer too. -/
theorem week_start_does_not_matter_every_other_week :
    let r : Rule := { freq := .weekly, interval := 2, byHour := [9, 17], bySetPos := [-1] }
    let start : Value := .ofDateTime ⟨2024, 1, 3⟩ ⟨12, 0, 0⟩
    (r.Valid ∧ ¬ r.LooksAtWeeks ∧ start.IsReal) ∧
      r.AnswersLike { r with weekStart := .th } start .utc 100 ∧
      Series.answersOf 60 [.next, .next, .advanceTo (.ofDate ⟨2024, 2, 10⟩), .next] r start .utc 100 =
        some ([.value (.ofDateTime ⟨2024, 1, 3⟩ ⟨17, 0, 0⟩), .value (.ofDateTime ⟨2024, 1, 17⟩ ⟨17, 0, 0⟩),
          .moved, .value (.ofDateTime ⟨2024, 2, 14⟩ ⟨17, 0, 0⟩)], false) := by
  intro r start
  have hvalid : r.Valid := by decide
  have hweeks : ¬ r.LooksAtWeeks := by decide
  have hreal : start.IsReal := by decide
  exact ⟨⟨hvalid, hweeks, hreal⟩, week_start_does_not_matter hvalid hweeks .th hreal .utc 100,
    by decide +kernel⟩

end Recurrence
