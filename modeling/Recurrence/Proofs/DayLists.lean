/-
Recurrence/Proofs/DayLists.lean

Lists of days, as listings and as filters.

A list of days of a rule is read in two ways.  As a generator it computes the days of one
month after the other; as a filter it is asked about single dates.  The two have no formula
in common, and yet they agree: the days that are listed for a month ascend, and they are
those that the filter accepts (`day_lists_agree`).

For weekdays both are what counting gives.  A date is the n-th of its weekday if n dates of
this weekday lie in its month or year up to it, and the n-th from last if n of them lie
there from it on (`Date.isNth_iff`).
-/
import Mathlib.Data.Set.Card
import Recurrence.Proofs.Meaning.Fields

namespace Recurrence

variable {d e : Date} {inYear : Bool} {n : Int}

/-! ### Counting weekdays -/

namespace Date

/-- The dates of the weekday of a date, in its month or in its year. -/
def peers (d : Date) (inYear : Bool) : Set Date :=
  {e | e.IsReal ∧ e.year = d.year ∧ (inYear = false → e.month = d.month) ∧ e.weekday = d.weekday}

/-- A date is the n-th of its weekday in its month or year or, if n is negative, the n-th from
last. -/
def IsNth (d : Date) (inYear : Bool) (n : Int) : Prop :=
  n = ({e ∈ d.peers inYear | e.dayNumber ≤ d.dayNumber}.ncard : Int) ∨
    n = -({e ∈ d.peers inYear | d.dayNumber ≤ e.dayNumber}.ncard : Int)

/-- The months and years are intervals of day numbers. -/
theorem same_period_iff (inYear : Bool) (hd : d.IsReal) (he : e.IsReal) :
    e.year = d.year ∧ (inYear = false → e.month = d.month) ↔
      d.dayNumber - (d.dayWithin inYear).1 ≤ e.dayNumber ∧
        e.dayNumber < d.dayNumber - (d.dayWithin inYear).1 + (d.dayWithin inYear).2 := by
  cases inYear with
  | true =>
    have hfirst : d.dayNumber - d.dayOfYear = Gregorian.dayNumber d.year 1 1 := by
      unfold dayOfYear Gregorian.dayOfYear dayNumber
      omega
    simp only [dayWithin, if_true, Bool.true_eq_false, false_implies, and_true, hfirst,
      ← Gregorian.dayNumber_succ_year]
    rw [← yearOfDayNumber_dayNumber he, Gregorian.yearOfDayNumber_eq_iff]
  | false =>
    have hfirst : d.dayNumber - (d.day - 1) = Gregorian.dayNumber d.year d.month 1 := by
      rw [dayNumber_eq]
      omega
    simp only [dayWithin, Bool.false_eq_true, if_false, true_implies, hfirst]
    constructor
    · rintro ⟨hyear, hmonth⟩
      have hday := he.2.2.1
      have hle := he.day_le
      rw [dayNumber_eq, hyear, hmonth] at *
      omega
    · rintro ⟨hlo, hhi⟩
      -- the date of the month that has this day number is the only one that has it
      have hreal : (⟨d.year, d.month, e.dayNumber - Gregorian.dayNumber d.year d.month 1 + 1⟩ :
          Date).IsReal := isReal_iff.mpr ⟨hd.1, hd.2.1, by dsimp only; omega, by dsimp only; omega⟩
      have hnumber := dayNumber_eq ⟨d.year, d.month,
        e.dayNumber - Gregorian.dayNumber d.year d.month 1 + 1⟩
      dsimp only at hnumber
      rw [dayNumber_injective he hreal (by omega)]
      exact ⟨rfl, rfl⟩

/-- Dates at so many steps of a fixed length are so many. -/
theorem ncard_of_steps {S : Set Date} (first step : Int) {k : Nat} (hstep : step ≠ 0)
    (hS : ∀ e, e ∈ S ↔ e.IsReal ∧ ∃ i : Nat, i < k ∧ e.dayNumber = first + step * i) :
    S.ncard = k := by
  refine Set.ncard_eq_of_bijective (fun i _ => ofDayNumber (first + step * i)) ?_ ?_ ?_
  · intro e he
    obtain ⟨hreal, i, hi, hn⟩ := (hS e).mp he
    exact ⟨i, hi, by rw [← hn, ofDayNumber_dayNumber hreal]⟩
  · intro i hi
    exact (hS _).mpr ⟨isReal_ofDayNumber _, i, hi, dayNumber_ofDayNumber _⟩
  · intro i j _ _ hij
    have hn := congrArg dayNumber hij
    rw [dayNumber_ofDayNumber, dayNumber_ofDayNumber, Int.add_right_inj] at hn
    exact_mod_cast Int.eq_of_mul_eq_mul_left hstep hn

/-- **An ordinal names a date** exactly if the date is the one that counting finds. -/
theorem isNth_iff (hd : d.IsReal) : d.IsNth inYear n ↔ OrdinalNames inYear d n := by
  have hwithin := (same_period_iff inYear hd hd).mp ⟨rfl, fun _ => rfl⟩
  have hpeers : ∀ e : Date, e ∈ d.peers inYear ↔ e.IsReal ∧
      (d.dayNumber - (d.dayWithin inYear).1 ≤ e.dayNumber ∧
        e.dayNumber < d.dayNumber - (d.dayWithin inYear).1 + (d.dayWithin inYear).2) ∧
      e.dayNumber % 7 = d.dayNumber % 7 := by
    intro e
    refine and_congr_right fun he => ?_
    rw [← and_assoc, same_period_iff inYear hd he, weekday_eq_weekday_iff]
  unfold IsNth OrdinalNames
  generalize d.dayWithin inYear = within at *
  obtain ⟨day, count⟩ := within
  dsimp only at *
  -- up to the date there is one a week, and so there is from it on
  have hupTo : {e ∈ d.peers inYear | e.dayNumber ≤ d.dayNumber}.ncard = (day / 7 + 1).toNat := by
    refine ncard_of_steps d.dayNumber (-7) (by omega) fun e => ?_
    rw [Set.mem_ofPred_eq, hpeers, and_assoc]
    refine and_congr_right fun _ => ?_
    constructor
    · rintro ⟨⟨⟨hlo, -⟩, hmod⟩, hle⟩
      exact ⟨((d.dayNumber - e.dayNumber) / 7).toNat, by omega, by omega⟩
    · rintro ⟨i, hi, hn⟩
      omega
  have hfrom : {e ∈ d.peers inYear | d.dayNumber ≤ e.dayNumber}.ncard =
      ((count - 1 - day) / 7 + 1).toNat := by
    refine ncard_of_steps d.dayNumber 7 (by omega) fun e => ?_
    rw [Set.mem_ofPred_eq, hpeers, and_assoc]
    refine and_congr_right fun _ => ?_
    constructor
    · rintro ⟨⟨⟨-, hhi⟩, hmod⟩, hle⟩
      exact ⟨((e.dayNumber - d.dayNumber) / 7).toNat, by omega, by omega⟩
    · rintro ⟨i, hi, hn⟩
      omega
  rw [hupTo, hfrom, Int.toNat_of_nonneg (by omega), Int.toNat_of_nonneg (by omega)]

end Date

/-! ### Lists of days -/

namespace DayList

/-- The numbers and ordinals of a list of days are in the ranges that rules allow. -/
def Within : DayList → Prop
  | weekdays es _ => ∀ e ∈ es, e.Valid
  | monthDays ns => ∀ n ∈ ns, ListPart.monthDay.admits n = true
  | yearDays ns => ∀ n ∈ ns, ListPart.yearDay.admits n = true
  | weekNumbers ns _ => ∀ n ∈ ns, ListPart.weekNo.admits n = true

/-- The filter that is made of a list of days.  Days of the month are kept in a table. -/
def filter? : DayList → Except Undefined Filter
  | monthDays ns => Filter.ofMonthDays? ns
  | l => .ok l.filter

theorem checkPositions_eq_ok {ns : List Int} {p : Filter}
    (h : ∀ n ∈ ns, 0 ≤ n ∧ n < Undefined.distant) : Filter.checkPositions ns p = .ok p := by
  have hchecks : ns.forM Undefined.checkPosition = .ok () := by
    induction ns with
    | nil => rfl
    | cons n ns ih =>
      obtain ⟨⟨h0, hlt⟩, hns⟩ := List.forall_mem_cons.mp h
      simp only [List.forM, Filter.checkPosition_ok h0 hlt]
      exact ih hns
  rw [Filter.checkPositions, hchecks]
  rfl

/-- Within the ranges, there is always a filter. -/
theorem filter?_eq_ok {l : DayList} (hl : l.Within) : l.filter? = .ok l.filter := by
  cases l with
  | weekdays es inYear => rfl
  | yearDays ns => rfl
  | weekNumbers ns weekStart => rfl
  | monthDays ns =>
    refine checkPositions_eq_ok fun n hn => ?_
    obtain ⟨m, hm, rfl⟩ := List.mem_map.mp hn
    have hrange := hl m hm
    simp only [ListPart.admits, ListPart.isSigned, ListPart.high, if_true, Bool.and_eq_true,
      decide_eq_true_eq] at hrange
    unfold Undefined.distant
    omega

end DayList

/-- **Listing, filtering and counting agree.**  Take any list of weekdays, with or without
ordinals that count within the month or the year, of days of the month, of days of the year or
of weeks, within the ranges of rules and for any start of the week.  Take any month of any year.
A filter can be made of the list.  The days that are listed for the month ascend strictly, and
they are exactly those of its days that the filter accepts, at any time of day.  Of weekdays,
these are the dates whose weekday is listed without an ordinal, or with one that says how many
dates of this weekday lie in its month or year up to it or, if negative, from it on. -/
theorem day_lists_agree (l : DayList) (hl : l.Within) (f : Fields)
    (hmonth : 1 ≤ f.month ∧ f.month ≤ 12) :
    ∃ p, l.filter? = .ok p ∧ (l.listing.values f).Pairwise (· < ·) ∧
      (∀ (day : Int) (time : Option TimeOfDay), day ∈ l.listing.values f ↔
        (1 ≤ day ∧ day ≤ Gregorian.monthLength f.year f.month) ∧
          p.accepts ⟨⟨f.year, f.month, day⟩, time⟩ = .ok true) ∧
      ∀ es inYear, l = .weekdays es inYear → ∀ day : Int, day ∈ l.listing.values f ↔
        (1 ≤ day ∧ day ≤ Gregorian.monthLength f.year f.month) ∧
          ∃ e ∈ es, e.weekday = (⟨f.year, f.month, day⟩ : Date).weekday ∧
            ∀ n ∈ e.ordinal, (⟨f.year, f.month, day⟩ : Date).IsNth inYear n := by
  have hnames : ∀ day : Int, day ∈ l.listing.values f ↔
      (1 ≤ day ∧ day ≤ Gregorian.monthLength f.year f.month) ∧
        (⟨f.year, f.month, day⟩ : Date).IsReal ∧ l.Names ⟨f.year, f.month, day⟩ := by
    intro day
    constructor
    · intro h
      have hday := DayList.values_within h
      have hreal : (⟨f.year, f.month, day⟩ : Date).IsReal :=
        Date.isReal_iff.mpr ⟨hmonth.1, hmonth.2, hday⟩
      exact ⟨hday, hreal, (DayList.mem_values hreal rfl rfl).mp h⟩
    · rintro ⟨-, hreal, h⟩
      exact (DayList.mem_values (d := ⟨f.year, f.month, day⟩) hreal rfl rfl).mpr h
  have hreal : ∀ day : Int, 1 ≤ day ∧ day ≤ Gregorian.monthLength f.year f.month →
      (⟨f.year, f.month, day⟩ : Date).IsReal := fun day hday =>
    Date.isReal_iff.mpr ⟨hmonth.1, hmonth.2, hday⟩
  refine ⟨l.filter, DayList.filter?_eq_ok hl, Listing.pairwise_values _ _, fun day time => ?_, ?_⟩
  · rw [hnames]
    refine and_congr_right fun hday => ?_
    rw [and_iff_right (hreal day hday)]
    exact (DayList.passes (v := ⟨⟨f.year, f.month, day⟩, time⟩) (hreal day hday)).symm
  · rintro es inYear rfl day
    rw [hnames]
    refine and_congr_right fun hday => ?_
    rw [and_iff_right (hreal day hday)]
    refine exists_congr fun e => and_congr_right fun _ => and_congr_right fun _ => ?_
    exact forall₂_congr fun n _ => (Date.isNth_iff (hreal day hday)).symm

/-- The last Sunday of the year 2000 is its 53rd.  Of the list that names it, beside the first
Friday, December has this day alone. -/
theorem day_lists_agree_last_sunday :
    let l : DayList := .weekdays [⟨some 53, .su⟩, ⟨some 1, .fr⟩] true
    let f : Fields := { year := 2000, month := 12 }
    (l.Within ∧ 1 ≤ f.month ∧ f.month ≤ 12) ∧ l.listing.values f = [31] ∧
      (∃ p, l.filter? = .ok p ∧ p.accepts (.ofDate ⟨2000, 12, 31⟩) = .ok true) ∧
      (⟨2000, 12, 31⟩ : Date).IsNth true 53 := by
  intro l f
  have hwithin : l.Within := by
    simp only [l, DayList.Within, List.forall_mem_cons, List.not_mem_nil, false_implies,
      implies_true, and_true]
    decide
  have hvalues : l.listing.values f = [31] := by decide +kernel
  have hmem : (31 : Int) ∈ l.listing.values f := by
    rw [hvalues]
    exact List.mem_singleton_self _
  obtain ⟨p, hp, -, hfilter, hcounts⟩ := day_lists_agree l hwithin f (by decide)
  refine ⟨⟨hwithin, by decide⟩, hvalues, ⟨p, hp, ((hfilter 31 none).mp hmem).2⟩, ?_⟩
  obtain ⟨-, e, he, hweekday, hnth⟩ := (hcounts _ true rfl 31).mp hmem
  simp only [List.mem_cons, List.not_mem_nil, or_false] at he
  rcases he with rfl | rfl
  · exact hnth 53 rfl
  · exact absurd hweekday (by decide)

end Recurrence
