/-
Recurrence/Proofs/Calendar/ValueOrder.lean

Values are in a linear order, and for real values it is the order of time.

Values are compared by their key and then by their kind, so they are ordered as
the lists `Value.rank`.  Among values of one kind the key alone decides.  Real
fields stay within their ranges, so real dates compare as their day numbers
(`Date.key_lt_iff`), real times as their seconds, and real values of one kind as
their instants (`Value.lt_iff_instant`).
-/
import Recurrence.Calendar.Carry
import Recurrence.Proofs.Calendar.Gregorian
import Recurrence.Proofs.Path

namespace Recurrence

namespace Value

/-- The key of a value with its kind behind it. -/
def rank (v : Value) : List Int := v.key ++ [if v.hasTime then 1 else 0]

@[simp] theorem length_key (v : Value) : v.key.length = 6 := by
  obtain ⟨d, _ | t⟩ := v <;> rfl

theorem lt_iff_rank {v w : Value} : v < w ↔ v.rank < w.rank := by
  have hl : v.key.length = w.key.length := by simp
  show Before v w ↔ _
  rw [rank, rank, append_lt_append_iff hl, Before, hasTime, hasTime]
  cases v.time <;> cases w.time <;> simp [List.cons_lt_cons_iff]

theorem rank_injective : Function.Injective rank := by
  intro v w h
  obtain ⟨⟨y, m, d⟩, t⟩ := v
  obtain ⟨⟨y', m', d'⟩, t'⟩ := w
  rcases t with - | ⟨a, b, c⟩ <;> rcases t' with - | ⟨a', b', c'⟩ <;>
    simp_all [rank, key, Date.key, TimeOfDay.key, hasTime]

theorem le_iff_rank {v w : Value} : v ≤ w ↔ v.rank ≤ w.rank := by
  show v < w ∨ v = w ↔ _
  rw [lt_iff_rank, le_iff_lt_or_eq, rank_injective.eq_iff]

instance : LinearOrder Value where
  le_refl v := le_iff_rank.mpr le_rfl
  le_trans u v w h h' := le_iff_rank.mpr ((le_iff_rank.mp h).trans (le_iff_rank.mp h'))
  le_antisymm v w h h' :=
    rank_injective (le_antisymm (le_iff_rank.mp h) (le_iff_rank.mp h'))
  lt_iff_le_not_ge v w := by rw [lt_iff_rank, le_iff_rank, le_iff_rank, lt_iff_le_not_ge]
  le_total v w := by rw [le_iff_rank, le_iff_rank]; exact le_total _ _
  toDecidableLE := inferInstance
  toDecidableEq := inferInstance
  toDecidableLT := inferInstance

theorem lt_iff_key {v w : Value} (h : v.hasTime = w.hasTime) : v < w ↔ v.key < w.key := by
  have hl : v.key.length = w.key.length := by simp
  rw [lt_iff_rank, rank, rank, append_lt_append_iff hl, h]
  simp

theorem key_injective {v w : Value} (h : v.hasTime = w.hasTime) (hk : v.key = w.key) : v = w := by
  apply rank_injective
  rw [rank, rank, hk, h]

theorem le_iff_key {v w : Value} (h : v.hasTime = w.hasTime) : v ≤ w ↔ v.key ≤ w.key := by
  rw [le_iff_lt_or_eq, le_iff_lt_or_eq, lt_iff_key h]
  exact or_congr_right ⟨fun hv => hv ▸ rfl, key_injective h⟩

theorem year_le_of_le {v w : Value} (h : v ≤ w) : v.date.year ≤ w.date.year := by
  rcases h with (hkey | ⟨hkey, -⟩) | rfl
  · rcases List.cons_lt_cons_iff.mp hkey with hy | ⟨hy, -⟩
    · exact hy.le
    · exact hy.le
  · exact (List.cons.inj hkey).1.le
  · exact le_rfl

end Value

/-! ### Real dates and times -/

theorem key_lt_iff_three {a b c a' b' c' : Int} :
    [a, b, c] < [a', b', c'] ↔ a < a' ∨ a = a' ∧ (b < b' ∨ b = b' ∧ c < c') := by
  simp [List.cons_lt_cons_iff]

theorem Date.key_lt_iff {d e : Date} (hd : d.IsReal) (he : e.IsReal) :
    d.key < e.key ↔ d.dayNumber < e.dayNumber := by
  have hdl := hd.day_le
  have hel := he.day_le
  have mono : ∀ {a b : Date}, a.IsReal → b.IsReal → a.day ≤ Gregorian.monthLength a.year a.month →
      a.key < b.key → a.dayNumber < b.dayNumber := by
    intro a b ha hb hal h
    obtain ⟨h1, h12, h1d, -⟩ := ha
    obtain ⟨h1', h12', h1d', -⟩ := hb
    rw [dayNumber_eq, dayNumber_eq]
    by_cases hmonth : 12 * a.year + a.month < 12 * b.year + b.month
    · have := Gregorian.dayNumber_month_lt hmonth
      omega
    · have hlt := key_lt_iff_three.mp h
      have hy : a.year = b.year := by omega
      have hm : a.month = b.month := by omega
      rw [hy, hm]
      omega
  constructor
  · exact mono hd he hdl
  · intro h
    rcases lt_trichotomy d.key e.key with hk | hk | hk
    · exact hk
    · have : d.dayNumber = e.dayNumber := by
        simp only [Date.key, List.cons.injEq, and_true] at hk
        rw [Date.dayNumber, Date.dayNumber, hk.1, hk.2.1, hk.2.2]
      omega
    · have := mono he hd hel hk
      omega

theorem TimeOfDay.key_lt_iff {t u : TimeOfDay} (ht : t.IsReal) (hu : u.IsReal) :
    t.key < u.key ↔ t.seconds < u.seconds := by
  obtain ⟨h1, h2, h3, h4, h5, h6⟩ := ht
  obtain ⟨k1, k2, k3, k4, k5, k6⟩ := hu
  unfold TimeOfDay.seconds TimeOfDay.key
  rw [key_lt_iff_three]
  omega

theorem TimeOfDay.IsReal.seconds_bounds {t : TimeOfDay} (ht : t.IsReal) :
    0 ≤ t.seconds ∧ t.seconds < secondsPerDay := by
  obtain ⟨h1, h2, h3, h4, h5, h6⟩ := ht
  unfold TimeOfDay.seconds secondsPerDay
  omega

theorem Date.dayNumber_injective {d e : Date} (hd : d.IsReal) (he : e.IsReal)
    (h : d.dayNumber = e.dayNumber) : d = e := by
  rw [← Date.ofDayNumber_dayNumber hd, h, Date.ofDayNumber_dayNumber he]

/-- With more behind them, dates compare by day first. -/
theorem Date.key_append_lt_iff {d e : Date} (hd : d.IsReal) (he : e.IsReal) {x y : List Int} :
    d.key ++ x < e.key ++ y ↔
      d.dayNumber < e.dayNumber ∨ d.dayNumber = e.dayNumber ∧ x < y := by
  have hkey : d.key = e.key ↔ d.dayNumber = e.dayNumber := by
    constructor
    · intro hk
      simp only [Date.key, List.cons.injEq, and_true] at hk
      rw [Date.dayNumber, Date.dayNumber, hk.1, hk.2.1, hk.2.2]
    · intro hk
      rw [Date.dayNumber_injective hd he hk]
  rw [append_lt_append_iff (show d.key.length = e.key.length from rfl), Date.key_lt_iff hd he, hkey]

theorem Value.timeOrMidnight_isReal {v : Value} (hv : v.IsReal) : v.timeOrMidnight.IsReal := by
  obtain ⟨d, _ | t⟩ := v
  · show TimeOfDay.midnight.IsReal
    decide
  · exact hv.2 t rfl

/-- The bounds of the fields that a real value has below its year, apart from the day. -/
theorem Value.IsReal.field_bounds {v : Value} (hv : v.IsReal) :
    1 ≤ v.date.month ∧ v.date.month ≤ 12 ∧
      0 ≤ v.timeOrMidnight.hour ∧ v.timeOrMidnight.hour < 24 ∧
      0 ≤ v.timeOrMidnight.minute ∧ v.timeOrMidnight.minute < 60 ∧
      0 ≤ v.timeOrMidnight.second ∧ v.timeOrMidnight.second < 60 :=
  ⟨hv.1.1, hv.1.2.1, Value.timeOrMidnight_isReal hv⟩

theorem instantOf_add_second (d : Date) (t : TimeOfDay) (n : Int) :
    instantOf d { t with second := t.second + n } = instantOf d t + n := by
  simp only [instantOf, TimeOfDay.seconds]
  omega

/-- **Carrying keeps the number of seconds** and makes all fields real. -/
theorem carryFields_spec (d : Date) (t : TimeOfDay) :
    (carryFields d t).1.IsReal ∧ (carryFields d t).2.IsReal ∧
      instantOf (carryFields d t).1 (carryFields d t).2 = instantOf d t := by
  simp only [carryFields]
  refine ⟨Date.isReal_ofDayNumber _, ?_, ?_⟩
  · simp only [TimeOfDay.IsReal]
    omega
  · simp only [instantOf, Date.dayNumber_ofDayNumber, TimeOfDay.seconds, secondsPerDay]
    omega

/-- The seconds from the start of day 0 to a value, plain dates counting as midnight. -/
def Value.instant (v : Value) : Int := instantOf v.date v.timeOrMidnight

theorem Value.lt_iff_instant {v w : Value} (hv : v.IsReal) (hw : w.IsReal)
    (h : v.hasTime = w.hasTime) : v < w ↔ v.instant < w.instant := by
  obtain ⟨d, t⟩ := v
  obtain ⟨e, u⟩ := w
  have hd : d.IsReal := hv.1
  have he : e.IsReal := hw.1
  rw [lt_iff_key h]
  rcases t with - | t <;> rcases u with - | u
  · show d.key ++ [-1, 0, 0] < e.key ++ [-1, 0, 0] ↔ _
    rw [Date.key_append_lt_iff hd he]
    simp only [lt_irrefl, and_false, or_false, Value.instant, Value.timeOrMidnight, instantOf,
      Option.getD_none, secondsPerDay]
    omega
  · simp [Value.hasTime] at h
  · simp [Value.hasTime] at h
  · have ht : t.IsReal := hv.2 t rfl
    have hu : u.IsReal := hw.2 u rfl
    have bt := ht.seconds_bounds
    have bu := hu.seconds_bounds
    show d.key ++ t.key < e.key ++ u.key ↔ _
    rw [Date.key_append_lt_iff hd he, TimeOfDay.key_lt_iff ht hu]
    simp only [Value.instant, Value.timeOrMidnight, instantOf, Option.getD_some]
    unfold secondsPerDay at *
    omega

/-- Real values of one kind are told apart by their instants. -/
theorem Value.eq_of_instant {v w : Value} (hv : v.IsReal) (hw : w.IsReal) (h : v.hasTime = w.hasTime)
    (heq : v.instant = w.instant) : v = w := by
  apply le_antisymm <;> rw [← not_lt]
  · rw [lt_iff_instant hw hv h.symm]
    omega
  · rw [lt_iff_instant hv hw h]
    omega

end Recurrence
