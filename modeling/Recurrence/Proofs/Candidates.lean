/-
Recurrence/Proofs/Candidates.lean

What the candidates of a course are, one by one.

At any time the candidates stand somewhere in the tree of their course, and some of
the course's values still lie ahead.  `Course.Awaits` names these values.  Asked for
the next candidate, the chain ends on the first member among them, and then awaits
what comes after it; or it gives up, and then all members that are left come after
as many years as the budget holds (`Course.Awaits.next`).
-/
import Mathlib.Order.Interval.Finset.Basic
import Mathlib.Data.Int.ConditionallyCompleteOrder
import Mathlib.Data.Int.Interval
import Recurrence.Proofs.Course

namespace Recurrence

/-- Whether the generator of the years has given up. -/
def Candidates.gaveUp (c : Candidates) : Bool :=
  match c.chain with
  | ⟨.years y, _⟩ :: _ => decide (y.remaining < 0)
  | _ => false

@[simp] theorem Candidates.fields_creditOwn (c : Candidates) :
    c.creditOwn.fields = c.fields := by
  unfold creditOwn
  cases c.credited <;> rfl

namespace Course

variable {K : Course} {base : Int} {i n : Nat} {c c' : Candidates} {last : Option Int}
  {R R' : Value → Prop} {last' : Option Int}

/-! ### Standing in the tree -/

/-- The candidates stand in the tree of the course, and it is the turn of generator `i`. -/
structure Holds (K : Course) (base : Int) (i : Nat) (c : Candidates) (last : Option Int) :
    Prop where
  stands : (K.blueprint.mechanism base).Stands i c.chain c.fields last
  rest_eq : c.fields.toList.drop K.size = K.rest
  filter_eq : c.filter = K.filter
  hasTime_eq : c.hasTime = K.hasTime
  credited_eq : c.credited = K.credited

/-- Whether a value still lies ahead. -/
def Ahead (K : Course) (i : Nat) (c : Candidates) (last : Option Int) (v : Value) : Prop :=
  Beyond (c.fields.toList.take i) last (v.key.take K.size)

/-- As many years as the budget holds have passed one after another since the year `base`, and
all values that are left come after them. -/
def Exhausted (K : Course) (base : Int) (left : Value → Prop) : Prop :=
  ∃ ys : List Int, (ys.length : Int) = K.blueprint.years.budget ∧ ys.Pairwise (· < ·) ∧
    (∀ y ∈ ys, K.blueprint.years.Wants K.blueprint.start y ∧ base < y ∧
      ∀ z, K.blueprint.years.Wants K.blueprint.start z → base < z → z ≤ y → z ∈ ys) ∧
    ∀ v, left v → ∀ y ∈ ys, y < v.date.year

theorem Exhausted.mono {left left' : Value → Prop} (h : K.Exhausted base left)
    (hle : ∀ v, left' v → left v) : K.Exhausted base left' := by
  obtain ⟨ys, hlen, hasc, hys, hleft⟩ := h
  exact ⟨ys, hlen, hasc, hys, fun v hv => hleft v (hle v hv)⟩

theorem length_take_fields (hK : K.Begins) (hi : i ≤ K.size) (f : Fields) :
    (f.toList.take i).length = i := by
  have := hK.blueprint.size_le
  rw [List.length_take, Fields.length_toList]
  unfold size at hi
  omega

/-- The mechanism's path is the beginning of the fields. -/
theorem path_take (hi : i ≤ K.size) (f : Fields) :
    ((K.blueprint.mechanism base).path f).take i = f.toList.take i :=
  Blueprint.path_take hi f

theorem Holds.of_stands {f : Fields} {chain : List Generator} (h : K.Holds base i c last)
    (hs : (K.blueprint.mechanism base).Stands n chain f last')
    (hrest : (K.blueprint.mechanism base).rest f = (K.blueprint.mechanism base).rest c.fields) :
    K.Holds base n { c with chain, fields := f } last' where
  stands := hs
  rest_eq := hrest.trans h.rest_eq
  filter_eq := h.filter_eq
  hasTime_eq := h.hasTime_eq
  credited_eq := h.credited_eq

/-- The turn may pass back to a coarser generator. -/
theorem Holds.up (hK : K.Begins) (hi : i < K.size) (h : K.Holds base (i + 1) c last) :
    K.Holds base i c c.fields.toList[i]? := by
  have hs := h.stands.up (hK.blueprint.lawful base) hi
  have hget : ((K.blueprint.mechanism base).path c.fields)[i]? = c.fields.toList[i]? :=
    List.getElem?_take_of_lt hi
  rw [hget] at hs
  exact { h with stands := hs }

/-- What lies ahead of a chain lies ahead of the first path that it finds. -/
theorem ahead_iff_of_first (hK : K.Begins) (hi : i ≤ n) (hn : n ≤ K.size)
    (hlast : i = n → last = none)
    (hfirst : Beyond (c.fields.toList.take i) last (c'.fields.toList.take n))
    (hleast : ∀ q, K.blueprint.tree.Node q → q.length = n →
      Beyond (c.fields.toList.take i) last q → c'.fields.toList.take n ≤ q)
    {v : Value} (hv : K.Builds v) : K.Ahead i c last v ↔ K.Ahead n c' none v := by
  obtain ⟨q, hq, hql, rfl⟩ := hv
  have hlen := length_take_fields hK (hi.trans hn) c.fields
  have hlen' := length_take_fields hK hn c'.fields
  have hqn : (q.take n).length = n := by
    rw [List.length_take, hql]
    omega
  rw [Ahead, Ahead, hK.take_key_value hql, beyond_none_iff, hlen',
    ← beyond_take_iff (n := n) (by omega) (fun h => hlast (by omega))]
  constructor
  · exact hleast (q.take n) (hq.take n) hqn
  · intro hle
    rcases hi.lt_or_eq with hlt | rfl
    · exact hfirst.mono hle (by rw [hlen, hlen']; exact hlt) (by omega)
    · rw [hlast rfl, beyond_none_iff, hlen, List.take_take, Nat.min_self] at hfirst ⊢
      exact hfirst.trans hle

/-- Once the years have given up, what lay ahead comes after those that they counted. -/
theorem exhausted_of_gone (hK : K.Begins) (hpos : 0 < n) (hi : i ≤ n) (hn : n ≤ K.size)
    (hlast : i = n → last = none) {y : YearStepper} {step : Step}
    (hgone : K.blueprint.years.Gone K.blueprint.start base y last' step)
    (hleft : ∀ q, K.blueprint.tree.Node q → q.length = n →
      Beyond (c.fields.toList.take i) last q → Beyond [] last' q) :
    K.Exhausted base fun v => K.Builds v ∧ K.Ahead i c last v := by
  obtain ⟨-, -, ys, hys, hcount⟩ := hgone
  have hlen := length_take_fields hK (hi.trans hn) c.fields
  refine ⟨ys, hcount, hys.ascending, fun u hu => ?_, ?_⟩
  · obtain ⟨hwants, hbase, hpast⟩ := (hys.mem_iff u).mp hu
    refine ⟨hwants, hbase, fun z hz hbase hle => (hys.mem_iff z).mpr ⟨hz, hbase, fun hz' => ?_⟩⟩
    exact hpast fun w hw => (hz' w hw).trans_le hle
  · rintro _ ⟨⟨q, hq, hql, rfl⟩, hb⟩ u hu
    rw [Ahead, hK.take_key_value hql, ← beyond_take_iff (n := n) (by omega)
      (fun h => hlast (by omega))] at hb
    have hfirst : (q.take n)[0]? = some (K.value q).date.year := by
      rw [List.getElem?_take_of_lt hpos, hK.year_value hql]
    have hpast : Past last' (K.value q).date.year := by
      rcases hleft (q.take n) (hq.take n) (by rw [List.length_take, hql]; omega) hb with
        hlt | ⟨-, hpast⟩
      · simp at hlt
      · exact hpast _ hfirst
    by_contra hle
    exact ((hys.mem_iff u).mp hu).2.2 fun w hw => (hpast w hw).trans_le (not_lt.mp hle)

/-- **A run of the chain ends** on the first path ahead, and what lay ahead of it still
does; or the years give up. -/
theorem Holds.run (hK : K.Begins) (h : K.Holds base i c last) (hpos : 0 < n) (hi : i ≤ n)
    (hn : n ≤ K.size) (hlast : i = n → last = none) :
    (∃ c', Settles (fun m => c.run m n i) (.value, c') ∧ K.Holds base n c' none ∧
        Beyond (c.fields.toList.take i) last (c'.fields.toList.take n) ∧
        ∀ v, K.Builds v → (K.Ahead i c last v ↔ K.Ahead n c' none v)) ∨
      ∃ c', Settles (fun m => c.run m n i) (.halt, c') ∧ c'.gaveUp = true ∧
        K.Exhausted base fun v => K.Builds v ∧ K.Ahead i c last v := by
  obtain ⟨⟨step, chain, f⟩, hrun, hrest, hout⟩ :=
    Mechanism.run_settles (hK.blueprint.lawful base) hn hi hlast h.stands
  have hsettles : Settles (fun m => c.run m n i) (step, { c with chain, fields := f }) :=
    hrun.map _
  simp only [Mechanism.ahead, path_take (hi.trans hn), path_take hn] at hout
  rcases hout with ⟨rfl, hs, hfirst, hleast⟩ | ⟨hstep, g, last', hg, ⟨y, rfl, hgone⟩, hleft⟩
  · refine .inl ⟨_, hsettles, h.of_stands hs hrest, hfirst, fun v hv => ?_⟩
    refine ahead_iff_of_first hK hi hn hlast ?_ ?_ hv
    · exact hfirst
    · exact hleast
  · obtain rfl := hgone.1
    refine .inr ⟨_, hsettles, ?_, exhausted_of_gone hK hpos hi hn hlast hgone hleft⟩
    cases chain with
    | nil => simp at hg
    | cons g' chain =>
      obtain rfl : g' = ⟨.years y, []⟩ := by simpa using hg
      simpa [Candidates.gaveUp] using hgone.2.1

/-! ### The next candidate -/

/-- The candidates await the values of the course with `R`. -/
def Awaits (K : Course) (base : Int) (c : Candidates) (R : Value → Prop) : Prop :=
  ∃ last, K.Holds base (K.size - 1) c last ∧
    ∀ v, K.Builds v → (R v ↔ K.Ahead (K.size - 1) c last v)

theorem Awaits.congr (h : K.Awaits base c R) (hR : ∀ v, K.Builds v → (R' v ↔ R v)) :
    K.Awaits base c R' := by
  obtain ⟨last, hs, hahead⟩ := h
  exact ⟨last, hs, fun v hv => (hR v hv).trans (hahead v hv)⟩

/-- The year stepper of a chain that stands below the year. -/
theorem Holds.years (hi : 0 < i) (h : K.Holds base i c last) :
    ∃ y rest k, c.chain = ⟨.years y, []⟩ :: rest ∧
      K.blueprint.years.At K.blueprint.start base y (some c.fields.year) k := by
  have hlen := h.stands.length_chain
  cases hc : c.chain with
  | nil =>
    rw [hc] at hlen
    exact absurd hlen (by simp [Blueprint.mechanism])
  | cons g rest =>
    obtain ⟨k, y, rfl, hat⟩ := h.stands.settled 0 hi g (by rw [hc]; rfl)
    have hyear : ((K.blueprint.mechanism base).path c.fields)[0]? = some c.fields.year := by
      show (c.fields.toList.take (K.blueprint.below.length + 1))[0]? = _
      rw [List.getElem?_take_of_lt (Nat.succ_pos _)]
      rfl
    rw [hyear] at hat
    exact ⟨y, rest, k, rfl, hat⟩

theorem Awaits.not_gaveUp (hK : K.Begins) (h : K.Awaits base c R) : c.gaveUp = false := by
  obtain ⟨last, hs, -⟩ := h
  have := hK.two_le_size
  obtain ⟨y, rest, k, hc, hat⟩ := hs.years (by omega)
  have := hat.remaining_nonneg
  simp [Candidates.gaveUp, hc]
  omega

/-- Filling the budget up changes nothing but the account. -/
theorem Awaits.credit (hK : K.Begins) (h : K.Awaits base c R) :
    K.Awaits c.fields.year (c.credit 0) R := by
  obtain ⟨last, hs, hahead⟩ := h
  have := hK.two_le_size
  exact ⟨last, ⟨hK.blueprint.refill_stands (by omega) hs.stands, hs.rest_eq, hs.filter_eq,
    hs.hasTime_eq, hs.credited_eq⟩, hahead⟩

/-- After the chain has put a value together, it awaits what comes after that value. -/
theorem Holds.awaits (hK : K.Begins) (h : K.Holds base K.size c none) :
    K.Builds (c.fields.toValue c.hasTime) ∧
      K.Awaits base c (c.fields.toValue c.hasTime < ·) := by
  have hsize := hK.two_le_size
  have hlen := length_take_fields hK le_rfl c.fields
  have hvalue : c.fields.toValue c.hasTime = K.value (c.fields.toList.take K.size) := by
    rw [h.hasTime_eq, toValue_eq h.rest_eq]
  have hnode : K.blueprint.tree.Node (c.fields.toList.take K.size) := by
    have := h.stands.node
    rwa [path_take le_rfl] at this
  have hup : K.Holds base (K.size - 1) c c.fields.toList[K.size - 1]? := by
    refine Holds.up hK (by omega) (?_ : K.Holds base (K.size - 1 + 1) c none)
    rw [Nat.sub_add_cancel (by omega)]
    exact h
  rw [hvalue]
  refine ⟨⟨_, hnode, hlen, rfl⟩, _, hup, ?_⟩
  · rintro _ ⟨q, -, hq, rfl⟩
    have hlt : K.size - 1 < c.fields.toList.length := by
      have := hK.blueprint.size_le
      rw [Fields.length_toList]
      unfold size
      omega
    have hlen' := length_take_fields hK (show K.size - 1 ≤ K.size by omega) c.fields
    show K.value (c.fields.toList.take K.size) < K.value q ↔ _
    rw [hK.value_lt_iff hlen hq, Ahead, hK.take_key_value hq, List.getElem?_eq_getElem hlt,
      beyond_some_iff (by omega), hlen', ← take_succ_eq hlt, Nat.sub_add_cancel (by omega),
      List.take_of_length_le hq.le]

/-! ### How long the search can take -/

open Classical in
/-- The years wanted after the year `base` and up to another. -/
noncomputable def passedYears (K : Course) (base year : Int) : Finset Int :=
  (Finset.Ioc base year).filter (K.blueprint.years.Wants K.blueprint.start)

theorem mem_passedYears {year y : Int} : y ∈ K.passedYears base year ↔
    (base < y ∧ y ≤ year) ∧ K.blueprint.years.Wants K.blueprint.start y := by
  classical
  rw [passedYears, Finset.mem_filter, Finset.mem_Ioc]

/-- The budget that was full in the year `base` lasts to the year of a value. -/
def Lasts (K : Course) (base : Int) (v : Value) : Prop :=
  ((K.passedYears base v.date.year).card : Int) ≤ K.blueprint.years.budget

/-- It has lasted to the year in which a chain stands. -/
theorem Holds.lasts (hi : 0 < i) (h : K.Holds base i c last) {v : Value}
    (hyear : c.fields.year = v.date.year) : K.Lasts base v := by
  obtain ⟨y, rest, k, hc, hat⟩ := h.years hi
  obtain ⟨ys, hys, hcount⟩ := hat.account
  have hremaining := hat.remaining_nonneg
  have hcard : (K.passedYears base v.date.year).card = ys.length := by
    rw [← List.toFinset_card_of_nodup (hys.ascending.imp fun h => h.ne)]
    congr 1
    ext u
    rw [mem_passedYears, List.mem_toFinset, hys.mem_iff, past_some, not_lt, hyear]
    tauto
  unfold Lasts
  omega

/-- The most seconds that a year can have. -/
def yearSeconds : Nat := 366 * 86400

/-- The seconds since the start of its year that a value lies at, and so many more for
each year that has passed. -/
noncomputable def rank (K : Course) (base : Int) (v : Value) : Nat :=
  (K.passedYears base v.date.year).card * yearSeconds +
    (v.instant - Gregorian.dayNumber v.date.year 1 1 * 86400).toNat

theorem instant_bounds {v : Value} (hv : v.IsReal) :
    Gregorian.dayNumber v.date.year 1 1 * 86400 ≤ v.instant ∧
      v.instant < Gregorian.dayNumber v.date.year 1 1 * 86400 + yearSeconds := by
  have hyear := Date.IsReal.year_bounds hv.1
  have hlen := Gregorian.yearLength_le v.date.year
  rw [Gregorian.dayNumber_succ_year] at hyear
  have htime := (Value.timeOrMidnight_isReal hv).seconds_bounds
  simp only [Value.instant, instantOf, yearSeconds, secondsPerDay] at htime ⊢
  omega

theorem Builds.wants (hK : K.Begins) {v : Value} (hv : K.Builds v) :
    K.blueprint.years.Wants K.blueprint.start v.date.year := by
  obtain ⟨q, hn, hq, rfl⟩ := hv
  have hyear := hK.year_value hq
  have := hK.two_le_size
  have hchild := hn.child (show 0 < q.length by omega)
  rw [List.getElem?_eq_getElem (by omega), Option.some.injEq] at hyear
  rw [hyear] at hchild
  exact hchild

/-- Each value ranks higher than those before it. -/
theorem rank_lt (hK : K.Begins) {v w : Value} (hv : K.Builds v) (hw : K.Builds w) (hlt : v < w)
    (hbase : v.date.year < w.date.year → base < w.date.year) :
    K.rank base v < K.rank base w := by
  have hkind : v.hasTime = w.hasTime := by rw [hv.hasTime, hw.hasTime]
  have bv := instant_bounds (hK.isReal hv)
  have bw := instant_bounds (hK.isReal hw)
  have hinstant := (Value.lt_iff_instant (hK.isReal hv) (hK.isReal hw) hkind).mp hlt
  unfold rank
  rcases (Value.year_le_of_le hlt.le).lt_or_eq with hyear | hyear
  · have hcard : (K.passedYears base v.date.year).card + 1 ≤
        (K.passedYears base w.date.year).card := by
      apply Finset.card_lt_card
      refine ⟨?_, ?_⟩
      · intro y hy
        rw [mem_passedYears] at hy ⊢
        exact ⟨⟨hy.1.1, hy.1.2.trans hyear.le⟩, hy.2⟩
      · intro hsub
        have := mem_passedYears.mp (hsub (mem_passedYears.mpr ⟨⟨hbase hyear, le_rfl⟩, hw.wants hK⟩))
        omega
    have := Nat.mul_le_mul_right yearSeconds hcard
    rw [Nat.add_mul] at this
    omega
  · rw [hyear] at bv ⊢
    omega

/-- What lies in the year of a chain ranks within its budget. -/
theorem Holds.rank_le (hi : 0 < i) (h : K.Holds base i c last) {v : Value}
    (hv : v.IsReal) (hyear : c.fields.year = v.date.year) :
    (K.rank base v : Int) ≤ (K.blueprint.years.budget + 1) * yearSeconds := by
  have hlasts := h.lasts hi hyear
  have hbounds := instant_bounds hv
  unfold rank
  have : ((K.passedYears base v.date.year).card : Int) * yearSeconds ≤
      K.blueprint.years.budget * yearSeconds :=
    Int.mul_le_mul_of_nonneg_right hlasts (by omega)
  push_cast
  rw [Int.add_mul]
  omega

/-- Where a chain has given up, the budget did not last to any value that is left. -/
theorem Exhausted.not_lasts (hK : K.Begins) {left : Value → Prop} (h : K.Exhausted base left)
    (hbudget : 1 ≤ K.blueprint.years.budget) {v : Value} (hv : K.Builds v) (hleft : left v) :
    ¬ K.Lasts base v := by
  obtain ⟨ys, hlen, hasc, hys, hbefore⟩ := h
  -- the years that have passed and the year of the value are one more than the budget
  have hbase : base < v.date.year := by
    obtain ⟨y, hy⟩ := List.exists_mem_of_length_pos (l := ys) (by omega)
    exact (hys y hy).2.1.trans (hbefore v hleft y hy)
  have hsub : ys.toFinset ∪ {v.date.year} ⊆ K.passedYears base v.date.year := by
    intro y hy
    rw [Finset.mem_union, List.mem_toFinset, Finset.mem_singleton] at hy
    rw [mem_passedYears]
    rcases hy with hy | rfl
    · exact ⟨⟨(hys y hy).2.1, (hbefore v hleft y hy).le⟩, (hys y hy).1⟩
    · exact ⟨⟨hbase, le_rfl⟩, hv.wants hK⟩
  have hdisjoint : Disjoint ys.toFinset {v.date.year} := by
    rw [Finset.disjoint_singleton_right, List.mem_toFinset]
    exact fun hmem => lt_irrefl _ (hbefore v hleft _ hmem)
  have hcard := Finset.card_le_card hsub
  rw [Finset.card_union_of_disjoint hdisjoint, Finset.card_singleton,
    List.toFinset_card_of_nodup (hasc.imp fun h => h.ne)] at hcard
  unfold Lasts
  omega

/-- What is left where a chain has given up lies in later years than any value to which the budget
lasted. -/
theorem Exhausted.year_lt (hK : K.Begins) {left : Value → Prop} (h : K.Exhausted base left)
    (hbudget : 1 ≤ K.blueprint.years.budget) {u w : Value} (hu : K.Builds u)
    (hlasts : K.Lasts base u) (hw : left w) : u.date.year < w.date.year := by
  by_contra hle
  -- the years that have passed come before the year of `w`, so they would come before that of `u`
  have hbefore : K.Exhausted base (· = u) := by
    obtain ⟨ys, hlen, hasc, hys, hleft⟩ := h
    refine ⟨ys, hlen, hasc, hys, ?_⟩
    rintro _ rfl y hy
    exact (hleft w hw y hy).trans_le (not_lt.mp hle)
  exact hbefore.not_lasts hK hbudget hu rfl hlasts

/-- The years behind that of a chain come after the one in which the budget was full. -/
theorem Holds.base_lt (hK : K.Begins) (hi : 0 < i) (h : K.Holds base i c last) {w : Value}
    (hw : K.Builds w) (hlt : c.fields.year < w.date.year) : base < w.date.year := by
  obtain ⟨y, rest, k, -, hat⟩ := h.years hi
  exact hat.base_lt _ (hw.wants hK) (past_some.mpr hlt)

/-- Among the values that are awaited, later ones rank higher and within the budget. -/
theorem Awaits.rank (hK : K.Begins) (h : K.Awaits base c R) {v : Value} (hv : K.Builds v)
    (hyear : c.fields.year = v.date.year) :
    (K.rank base v : Int) ≤ (K.blueprint.years.budget + 1) * yearSeconds ∧
      ∀ w, K.Builds w → v < w → K.rank base v < K.rank base w := by
  obtain ⟨last, hs, -⟩ := h
  have hsize := hK.two_le_size
  refine ⟨hs.rank_le (by omega) (hK.isReal hv) hyear, fun w hw hlt => ?_⟩
  exact rank_lt hK hv hw hlt fun hlt => hs.base_lt hK (by omega) hw (hyear ▸ hlt)

/-! ### The next candidate -/

/-- The year in which the budget was last full, after a value. -/
def baseAfter (K : Course) (base : Int) (v : Value) : Int :=
  if K.credited.isSome then v.date.year else base

theorem Awaits.creditOwn (hK : K.Begins) (hc : c.credited = K.credited) {v : Value}
    (hv : c.fields.year = v.date.year) (h : K.Awaits base c R) :
    K.Awaits (K.baseAfter base v) c.creditOwn R := by
  unfold Candidates.creditOwn baseAfter
  rw [hc]
  cases hcredited : K.credited with
  | none => exact h
  | some i =>
    obtain rfl := hK.credited i (by rw [hcredited]; rfl)
    have := h.credit hK
    rwa [hv] at this

theorem patient_attempt (c : Candidates) : Patient fun n => c.attempt n := by
  have hadvance : Patient fun n => c.advance n :=
    Patient.map (patient_run Generator.patient_generate _ _ _ _) _
  apply Patient.after hadvance
  · intro n hn
    simp only [Candidates.attempt, hn]
  · intro m n b a _ hm hn ht
    simpa only [Candidates.attempt, hm, hn] using ht

theorem patient_nextCandidate (c : Candidates) : Patient fun n => c.next n :=
  fun hmn h => patient_loop patient_attempt c hmn h

/-- What the search for a candidate that awaits the values with `R` comes to. -/
def NextIs (K : Course) (base : Int) (R : Value → Prop)
    (answer : Except Undefined (Option Value) × Candidates) : Prop :=
  (∃ v, answer.1 = .ok (some v) ∧ IsLeast {w | K.Member w ∧ R w} v ∧
      answer.2.fields.year = v.date.year ∧ K.Lasts base v ∧
      K.Awaits (K.baseAfter base v) answer.2 (v < ·)) ∨
    answer.1 = .ok none ∧ answer.2.gaveUp = true ∧ K.Exhausted base fun w => K.Member w ∧ R w

/-- Where a chain has put a value together, that value and what comes after it lie ahead. -/
theorem Holds.ahead_iff (hK : K.Begins) (h : K.Holds base K.size c none) {w : Value}
    (hw : K.Builds w) : K.Ahead K.size c none w ↔ c.fields.toValue c.hasTime ≤ w := by
  obtain ⟨q, -, hq, rfl⟩ := hw
  have hlen := length_take_fields hK le_rfl c.fields
  rw [Ahead, hK.take_key_value hq, beyond_none_iff, hlen, List.take_of_length_le hq.le,
    h.hasTime_eq, toValue_eq h.rest_eq, hK.value_le_iff hlen hq]

/-- **A step of the chain** puts together the first value ahead, unless the years give up. -/
theorem Awaits.advance (hK : K.Begins) (h : K.Awaits base c R) :
    (∃ c', Settles (fun n => c.advance n) (.value, c') ∧ K.Holds base K.size c' none ∧
        ∀ w, K.Builds w → (R w ↔ c'.fields.toValue c'.hasTime ≤ w)) ∨
      ∃ c', Settles (fun n => c.advance n) (.halt, c') ∧ c'.gaveUp = true ∧
        K.Exhausted base fun w => K.Builds w ∧ R w := by
  obtain ⟨last, hs, hahead⟩ := h
  have hsize := hK.two_le_size
  have hlength : c.chain.length = K.size := hs.stands.length_chain
  unfold Candidates.advance
  rw [hlength]
  rcases hs.run hK (n := K.size) (by omega) (by omega) le_rfl (fun h => by omega) with
    ⟨c', hrun, hs', -, hsame⟩ | ⟨c', hrun, hgave, hex⟩
  · refine .inl ⟨c', hrun, hs', fun w hw => ?_⟩
    rw [hahead w hw, hsame w hw, hs'.ahead_iff hK hw]
  · exact .inr ⟨c', hrun, hgave, hex.mono fun w hw => ⟨hw.1, (hahead w hw.1).mp hw.2⟩⟩

/-- A search for the next of the members with `R`: the values with `R'` are still to come, and they
rank so high that at most `k` ranks are left to go through. -/
structure Seeks (K : Course) (base : Int) (R : Value → Prop) (k : Nat) (c : Candidates)
    (R' : Value → Prop) : Prop where
  awaits : K.Awaits base c R'
  same : ∀ w, K.Member w → (R w ↔ R' w)
  rank : ∀ w, K.Builds w → R' w → (K.blueprint.years.budget + 1) * yearSeconds < K.rank base w + k

/-- **Each attempt** ends the search, or moves on to a higher rank. -/
theorem Seeks.attempt (hK : K.Begins) {k : Nat} (h : K.Seeks base R k c R') :
    Progresses Candidates.attempt (fun k c => ∃ R', K.Seeks base R k c R') (K.NextIs base R)
      k c := by
  have hsize := hK.two_le_size
  rcases h.awaits.advance hK with ⟨c', hadvance, hs, hR'⟩ | ⟨c', hadvance, hgave, hex⟩
  · obtain ⟨hbuilds, hawaits⟩ := hs.awaits hK
    have hyear : c'.fields.year = (c'.fields.toValue c'.hasTime).date.year := by
      unfold Fields.toValue
      cases c'.hasTime <;> rfl
    rcases hK.accepts hbuilds with ⟨haccepts, hmember⟩ | ⟨haccepts, hmember⟩
    · refine .inl ⟨(.ok (some (c'.fields.toValue c'.hasTime)), c'.creditOwn), ?_,
        .inl ⟨_, rfl, ?_, ?_, hs.lasts (by omega) hyear,
          hawaits.creditOwn hK hs.credited_eq hyear⟩⟩
      · filter_upwards [hadvance] with n hn
        rw [← hs.filter_eq] at haccepts
        simp only [Candidates.attempt, hn, haccepts]
      · refine ⟨⟨hmember, (h.same _ hmember).mpr ((hR' _ hbuilds).mpr le_rfl)⟩, fun w hw => ?_⟩
        exact (hR' w hw.1.1).mp ((h.same w hw.1).mp hw.2)
      · rw [Candidates.fields_creditOwn]
        exact hyear
    · obtain ⟨hwithin, hgrows⟩ := hawaits.rank hK hbuilds hyear
      refine .inr ⟨c', ((K.blueprint.years.budget + 1) * yearSeconds -
        K.rank base (c'.fields.toValue c'.hasTime)).toNat, ?_, ?_, _, hawaits, ?_, ?_⟩
      · filter_upwards [hadvance] with n hn
        rw [← hs.filter_eq] at haccepts
        simp only [Candidates.attempt, hn, haccepts]
      · have := h.rank _ hbuilds ((hR' _ hbuilds).mpr le_rfl)
        omega
      · -- the refused value is no member, so no member is lost with it
        intro w hw
        have hne : c'.fields.toValue c'.hasTime ≠ w := by
          rintro rfl
          exact hmember hw
        rw [h.same w hw, hR' w hw.1, lt_iff_le_and_ne]
        exact (and_iff_left hne).symm
      · intro w hw hlt
        have := hgrows w hw hlt
        omega
  · refine .inl ⟨(.ok none, c'), ?_, .inr ⟨rfl, hgave, hex.mono fun w hw => ?_⟩⟩
    · filter_upwards [hadvance] with n hn
      simp only [Candidates.attempt, hn]
    · exact ⟨hw.1.1, (h.same w hw.1).mp hw.2⟩

/-- **The next candidate** is the first member ahead, unless the years give up. -/
theorem Awaits.next (hK : K.Begins) (h : K.Awaits base c R) :
    ∃ answer, Settles (fun n => c.next n) answer ∧ K.NextIs base R answer := by
  have hstart : K.Seeks base R ((K.blueprint.years.budget + 1) * yearSeconds + 1).toNat c R :=
    ⟨h, fun _ _ => Iff.rfl, fun _ _ _ => by omega⟩
  -- a candidate that the filter refuses moves on to a higher rank, and ranks are bounded
  exact loop_settles patient_attempt (fun k c => ∃ R', K.Seeks base R k c R') (K.NextIs base R)
    (fun _ _ ⟨_, hseeks⟩ => hseeks.attempt hK) ⟨R, hstart⟩

end Course

end Recurrence
