/-
Recurrence/Proofs/SetSearch.lean

When a recurrence set has an answer.

A search over a set drops one excluded value after another, and no budget bounds how many: the
budget of a rule watches the years of that rule alone.  A set whose rule is its own exception rule
is searched for ever (`set_search_never_ends`).  This is the only way in which a search can fail to
end.  In every state that calls lead to, a look ahead has an answer unless infinitely many values
are still to come and all of them that are new are excluded (`set_search_ends`).
-/
import Recurrence.Proofs.Cursor.Search
import Recurrence.Proofs.Series.Endless
import Recurrence.Proofs.Series.Moves
import Recurrence.Set.Basic

namespace Recurrence

/-! ### Real values -/

namespace Value

variable {v w : Value}

/-- No time of day has the key of a plain date. -/
theorem hasTime_eq_of_key (hv : v.IsReal) (hw : w.IsReal) (h : v.key = w.key) :
    v.hasTime = w.hasTime := by
  obtain ⟨d, _ | t⟩ := v <;> obtain ⟨e, _ | x⟩ := w
  · rfl
  · have hx := (hw.2 x rfl).1
    have hour : (-1 : Int) = x.hour := by simp_all [key, Date.key, TimeOfDay.key]
    omega
  · have ht := (hv.2 t rfl).1
    have hour : t.hour = -1 := by simp_all [key, Date.key, TimeOfDay.key]
    omega
  · rfl

/-- Real values of all kinds are in the order of their keys. -/
theorem le_iff_key_of_isReal (hv : v.IsReal) (hw : w.IsReal) : v ≤ w ↔ v.key ≤ w.key := by
  have hlt : w < v ↔ w.key < v.key := by
    refine or_iff_left ?_
    rintro ⟨hkey, hnone, hsome⟩
    have hkind := hasTime_eq_of_key hw hv hkey
    simp [hasTime, hnone, hsome] at hkind
  rw [← not_lt, hlt, not_lt]

/-- **Real values are sparse**. -/
theorem sparse_isReal : Sparse Value.IsReal where
  order _ _ := le_iff_key_of_isReal
  between u v _ _ := (finite_years u.date.year v.date.year).subset fun _ hw =>
    ⟨hw.1, year_le_of_le hw.2.1, year_le_of_le hw.2.2⟩

end Value

/-! ### The cursors of a set -/

/-- An operation on cursors answers as that on a part of them, one bound later. -/
theorem Settles.lift {σ τ α : Type} (into : σ → τ) {op : Nat → Answer σ α} {op' : Nat → Answer τ α}
    {a : Except SeriesError α} {s : σ} (h : Settles op (a, s))
    (hop : ∀ n, op' (n + 1) = (op n).lift into) : Settles op' (a, into s) := by
  obtain ⟨k, hk⟩ := Filter.eventually_atTop.mp h
  filter_upwards [Filter.eventually_ge_atTop (k + 1)] with n hn
  obtain ⟨n, rfl⟩ : ∃ j, n = j + 1 := ⟨n - 1, by omega⟩
  rw [hop, Answer.lift, hk n (by omega), Option.map_some]

namespace RecurrenceSet

variable {s : RecurrenceSet} {rs : List Rule} {ds : List Value} {c c' : Cursor} {S : Values}
  {m : Merged Cursor} {u v : Value}

/-- The rules of a set are valid, and all its dates have real fields. -/
structure Valid (s : RecurrenceSet) : Prop where
  start : s.start.IsReal
  rules : ∀ r ∈ s.rules, r.Valid
  exRules : ∀ r ∈ s.exRules, r.Valid
  dates : ∀ v ∈ s.dates, v.IsReal
  exDates : ∀ v ∈ s.exDates, v.IsReal

/-- The states of the cursors over a set, whatever they have been asked before. -/
inductive Reachable (s : RecurrenceSet) : Cursor → Prop where
  | cursor {n : Nat} {c : Cursor} (h : s.cursor n = some (.ok c)) : Reachable s c
  | hasNext {n : Nat} {c c' : Cursor} {a : Except SeriesError Bool} (hc : Reachable s c)
      (h : (Cursor.ops n).hasNext c = some (a, c')) : Reachable s c'
  | next {n : Nat} {c c' : Cursor} {a : Except SeriesError Value} (hc : Reachable s c)
      (h : (Cursor.ops n).next c = some (a, c')) : Reachable s c'
  | advanceTo {n : Nat} {c c' : Cursor} {target : Value} {a : Except SeriesError Unit}
      (hc : Reachable s c) (h : (Cursor.ops n).advanceTo c target = some (a, c')) : Reachable s c'

/-- A series of an exception rule returns a value in some state, or it is an exception date. -/
def Excludes (s : RecurrenceSet) (v : Value) : Prop :=
  (∃ r ∈ s.exRules, ∃ t t', Series.Reachable r s.start s.zone s.budget t ∧
    Settles (fun n => t.next n) (.ok v, t')) ∨ v ∈ s.exDates

/-- A series of one of some rules, in any state, or a cursor over some dates stands before a
sequence. -/
inductive Serves (s : RecurrenceSet) (rs : List Rule) (ds : List Value) :
    Cursor → Values → Prop where
  | series {r : Rule} {t : Series} {S : Values} (hr : r ∈ rs)
      (ht : Series.Reachable r s.start s.zone s.budget t) (hS : t.Plays S) :
      Serves s rs ds (.series t) S
  | dates {d : DateCursor} {S : Values} (hd : d.rest.Pairwise (· < ·) ∧ S = .ofList d.rest)
      (hmem : ∀ v ∈ S, v ∈ ds) : Serves s rs ds (.dates d) S

theorem Serves.of_subset {es : List Value} (h : s.Serves rs ds c S) (hsub : ∀ u ∈ ds, u ∈ es) :
    s.Serves rs es c S := by
  cases h with
  | series hr ht hS => exact .series hr ht hS
  | dates hd hmem => exact .dates hd fun v hv => hsub v (hmem v hv)

theorem Serves.ascending_isReal (hreal : s.start.IsReal) (hrs : ∀ r ∈ rs, r.Valid)
    (hds : ∀ v ∈ ds, v.IsReal) (h : s.Serves rs ds c S) :
    S.Pairwise (· < ·) ∧ ∀ v ∈ S, v.IsReal := by
  cases h with
  | series hr ht hS => exact ht.plays (hrs _ hr) hreal hS
  | dates hd hmem => exact ⟨DateCursor.laws.ascending _ _ hd, fun v hv => hds v (hmem v hv)⟩

/-- **The cursors of a set** keep the laws of members that may be asked to move anywhere. -/
theorem rovingLaws (hreal : s.start.IsReal) (hrs : ∀ r ∈ rs, r.Valid) (hds : ∀ v ∈ ds, v.IsReal) :
    RovingLaws Cursor.ops (s.Serves rs ds) where
  ascending c S h := (h.ascending_isReal hreal hrs hds).1
  hasNext c S h := by
    cases h with
    | series hr ht hS =>
      obtain ⟨B, -, hlive, -⟩ := ht.live (hrs _ hr) hreal
      obtain ⟨t', hsettles, -⟩ := hlive.hasNext
      obtain ⟨n, hn⟩ := hsettles.exists_bound
      obtain ⟨hS', hhead⟩ := hS.hasNext hn
      rw [hhead] at hsettles
      exact ⟨_, hsettles.lift Cursor.series fun _ => rfl, .series hr (ht.hasNext hn) hS'⟩
    | dates hd hmem =>
      obtain ⟨d', hsettles, hd'⟩ := DateCursor.laws.hasNext _ _ hd
      exact ⟨_, hsettles.lift Cursor.dates fun _ => rfl, .dates hd' hmem⟩
  next c v S h := by
    cases h with
    | series hr ht hS =>
      obtain ⟨t', hsettles, hS'⟩ := Series.plays_cons_iff.mp hS
      obtain ⟨n, hn⟩ := hsettles.exists_bound
      exact ⟨_, hsettles.lift Cursor.series fun _ => rfl, .series hr (ht.next hn) hS'⟩
    | dates hd hmem =>
      obtain ⟨d', hsettles, hd'⟩ := DateCursor.laws.next _ _ _ hd
      exact ⟨_, hsettles.lift Cursor.dates fun _ => rfl,
        .dates hd' fun u hu => hmem u (Stream'.Seq.mem_cons_of_mem v hu)⟩
  advanceTo c S target _ htarget := htarget.elim
  moves c S target h := by
    cases h with
    | series hr ht hS =>
      obtain ⟨a, t', hsettles, ht', ⟨S', hS'⟩, hfails⟩ := ht.exists_moved (hrs _ hr) hreal target
      refine ⟨a, _, S', hsettles.lift Cursor.series fun _ => rfl, .series hr ht' hS', fun e he => ?_⟩
      obtain ⟨why, hwhy, -⟩ := hfails e he
      exact ⟨why, hwhy⟩
    | dates hd hmem =>
      obtain ⟨d', S', hdrops, hsettles, hd'⟩ := DateCursor.laws.advanceTo _ _ target hd trivial
      refine ⟨_, _, S', hsettles.lift Cursor.dates fun _ => rfl, .dates hd' fun u hu => ?_, by simp⟩
      exact hmem u ((hdrops.mem_iff (DateCursor.laws.ascending _ _ hd)).mp hu).1

/-- In UTC every target has a wall-clock value, so they may be moved anywhere. -/
theorem movingLaws (hzone : s.zone = .utc) (hreal : s.start.IsReal) (hrs : ∀ r ∈ rs, r.Valid)
    (hds : ∀ v ∈ ds, v.IsReal) : MovingLaws Cursor.ops (s.Serves rs ds) where
  toCursorLaws := (rovingLaws hreal hrs hds).toCursorLaws
  moves c S target h := by
    cases h with
    | series hr ht hS =>
      obtain ⟨a, t', hsettles, ht', ⟨S', hS'⟩, hfails⟩ := ht.exists_moved (hrs _ hr) hreal target
      cases a with
      | error e =>
        obtain ⟨why, -, herror⟩ := hfails e rfl
        rw [hzone] at herror
        exact absurd herror (by simp [Value.fromUtc])
      | ok _ => exact ⟨_, S', hsettles.lift Cursor.series fun _ => rfl, .series hr ht' hS'⟩
    | dates hd hmem =>
      obtain ⟨d', S', hdrops, hsettles, hd'⟩ := DateCursor.laws.advanceTo _ _ target hd trivial
      exact ⟨_, S', hsettles.lift Cursor.dates fun _ => rfl, .dates hd' fun u hu =>
        hmem u ((hdrops.mem_iff (DateCursor.laws.ascending _ _ hd)).mp hu).1⟩

/-- Where the series move exactly, so do all cursors. -/
theorem exactLaws (hreal : s.start.IsReal) (hrs : ∀ r ∈ rs, r.Valid) (hds : ∀ v ∈ ds, v.IsReal) :
    CursorLaws Cursor.ops (s.Serves rs ds) fun target =>
      ∀ r ∈ rs, r.MovesTo s.start s.zone s.budget target where
  ascending := (rovingLaws hreal hrs hds).ascending
  hasNext := (rovingLaws hreal hrs hds).hasNext
  next := (rovingLaws hreal hrs hds).next
  advanceTo c S target h hmoves := by
    cases h with
    | series hr ht hS =>
      obtain ⟨t', S', hsettles, hS', hdrops⟩ := hmoves _ hr _ _ ht hS
      obtain ⟨n, hn⟩ := hsettles.exists_bound
      exact ⟨_, S', hdrops, hsettles.lift Cursor.series fun _ => rfl,
        .series hr (ht.advanceTo hn) hS'⟩
    | dates hd hmem =>
      obtain ⟨d', S', hdrops, hsettles, hd'⟩ := DateCursor.laws.advanceTo _ _ target hd trivial
      refine ⟨_, S', hdrops, hsettles.lift Cursor.dates fun _ => rfl, .dates hd' fun u hu => ?_⟩
      exact hmem u ((hdrops.mem_iff (DateCursor.laws.ascending _ _ hd)).mp hu).1

/-- **The members of a set** can be searched. -/
theorem Valid.searchable (hs : s.Valid) (hzone : s.zone = .utc) :
    Merged.Searchable Cursor.ops (s.Serves s.rules s.dates) (s.Serves s.exRules s.exDates)
      Value.IsReal s.Excludes where
  included := movingLaws hzone hs.start hs.rules hs.dates
  excluded := movingLaws hzone hs.start hs.exRules hs.exDates
  sparse := Value.sparse_isReal
  fits c S h := (h.ascending_isReal hs.start hs.rules hs.dates).2
  bars c S h v hv := by
    cases h with
    | series hr ht hS =>
      obtain ⟨t, t', ht', hsettles⟩ := hS.exists_next ht hv
      exact .inl ⟨_, hr, t, t', ht', hsettles⟩
    | dates hd hmem => exact .inr (hmem v hv)

/-! ### New cursors -/

/-- Some dates make one ascending cursor over their UTC values, or none if there are no dates. -/
theorem exists_listedOf (hds : ∀ v ∈ ds, v.IsReal) (rs : List Rule) : ∃ us cs,
    s.listedOf ds = .ok cs ∧ (∀ u, u ∈ us ↔ ∃ v ∈ ds, v.toUtc s.zone = .ok u) ∧
      ∃ Ss, List.Forall₂ (s.Serves rs us) cs Ss := by
  obtain ⟨us, hus, hasc, hmem⟩ := DateCursor.exists_ofList s.zone hds
  unfold listedOf
  split_ifs
  · exact ⟨us, [], rfl, hmem, [], .nil⟩
  · exact ⟨us, [.dates ⟨us, us⟩], by rw [hus]; rfl, hmem, [.ofList us],
      .cons (.dates ⟨hasc, rfl⟩ fun v hv => mem_ofList.mp hv) .nil⟩

/-- In UTC they are the dates themselves. -/
theorem exists_listedOf_utc (hzone : s.zone = .utc) (hds : ∀ v ∈ ds, v.IsReal) (rs : List Rule) :
    ∃ cs, s.listedOf ds = .ok cs ∧ ∃ Ss, List.Forall₂ (s.Serves rs ds) cs Ss := by
  obtain ⟨us, cs, hcs, hmem, Ss, hSs⟩ := exists_listedOf hds rs
  refine ⟨cs, hcs, Ss, hSs.imp fun c S h => h.of_subset fun u hu => ?_⟩
  obtain ⟨v, hv, hto⟩ := (hmem u).mp hu
  rw [hzone] at hto
  exact Except.ok.inj hto ▸ hv

/-- A series of a valid rule can be created, or the rule is refused for the start. -/
theorem exists_create {r : Rule} (hr : r.Valid) (hreal : s.start.IsReal) :
    ∃ a, Settles (fun n => Series.create n r s.start s.zone s.budget) a := by
  by_cases hsub : s.start.hasTime = false ∧ r.freq.isSubDaily = true
  · refine ⟨.error (.rule (.invalid (.needsTimeOfDay r.freq) (some r.text))), ?_⟩
    filter_upwards with n
    simp [Series.create, hsub.1, hsub.2]
  · have hadmits : r.Admits s.start := ⟨hr, hreal, fun hs => by simpa [hs] using hsub⟩
    obtain ⟨-, t, hcreate, -⟩ := Rule.exists_live hadmits s.zone s.budget
    exact ⟨_, hcreate⟩

/-- The series of some valid rules can be created, or one of them is refused. -/
theorem exists_seriesOf (hreal : s.start.IsReal) (hrs : ∀ r ∈ rs, r.Valid) (ds : List Value)
    {rs' : List Rule} (hsub : ∀ r ∈ rs', r ∈ rs) : ∃ a, Settles (fun n => s.seriesOf n rs') a ∧
      ∀ cs, a = .ok cs → ∃ Ss, List.Forall₂ (s.Serves rs ds) cs Ss := by
  induction rs' with
  | nil =>
    refine ⟨.ok [], settles_const _, ?_⟩
    rintro _ ⟨⟩
    exact ⟨[], .nil⟩
  | cons r rs' ih =>
    rw [List.forall_mem_cons] at hsub
    obtain ⟨a, hcreate⟩ := exists_create (s := s) (hrs r hsub.1) hreal
    cases a with
    | error e =>
      refine ⟨.error e, ?_, by simp⟩
      filter_upwards [hcreate] with n hn
      simp only [seriesOf, hn]
    | ok t =>
      obtain ⟨a, hrest, hserves⟩ := ih hsub.2
      refine ⟨a.map (.series t :: ·), ?_, fun cs hcs => ?_⟩
      · filter_upwards [hcreate, hrest] with n hn hn'
        simp only [seriesOf, hn, hn', Option.map_some]
      · obtain ⟨cs', rfl, rfl⟩ := map_eq_ok_iff.mp hcs
        obtain ⟨n, hn⟩ := hcreate.exists_bound
        have ht := Series.Reachable.create hn
        obtain ⟨B, -, hlive, -⟩ := ht.live (hrs r hsub.1) hreal
        obtain ⟨S, hS⟩ := hlive.exists_plays
        obtain ⟨Ss, hSs⟩ := hserves cs' rfl
        exact ⟨S :: Ss, .cons (.series hsub.1 ht hS) hSs⟩

/-- **A cursor over a set** can be made, or a rule is refused. -/
theorem Valid.exists_cursor (hs : s.Valid) (hzone : s.zone = .utc) :
    ∃ a, Settles (fun n => s.cursor n) a ∧ ∀ c, a = .ok c → ∃ m, c = .merged m ∧
      m.lastKey = none ∧ m.Seeks (s.Serves s.rules s.dates) (s.Serves s.exRules s.exDates)
        Value.IsReal s.Excludes := by
  obtain ⟨a, hrules, hincluded⟩ :=
    exists_seriesOf hs.start hs.rules s.dates fun r hr => hr
  cases a with
  | error e =>
    refine ⟨.error e, ?_, by simp⟩
    filter_upwards [hrules] with n hn
    simp only [cursor, hn]
  | ok rules =>
    obtain ⟨b, hexRules, hexcluded⟩ :=
      exists_seriesOf hs.start hs.exRules s.exDates fun r hr => hr
    cases b with
    | error e =>
      refine ⟨.error e, ?_, by simp⟩
      filter_upwards [hrules, hexRules] with n hn hn'
      simp only [cursor, hn, hn']
    | ok exRules =>
      obtain ⟨Ss, hSs⟩ := hincluded _ rfl
      obtain ⟨Es, hEs⟩ := hexcluded _ rfl
      obtain ⟨dates, hdates, Ds, hDs⟩ := exists_listedOf_utc hzone hs.dates s.rules
      obtain ⟨exDates, hexDates, Fs, hFs⟩ := exists_listedOf_utc hzone hs.exDates s.exRules
      have hbarred : ∀ c ∈ exRules ++ exDates, ∃ S, s.Serves s.exRules s.exDates c S := by
        intro c hc
        obtain ⟨S, -, hS⟩ := exists_rel_of_mem_left (List.rel_append hEs hFs) hc
        exact ⟨S, hS⟩
      obtain ⟨m, hcreate, hlast, hm⟩ :=
        Merged.create_seeks (hs.searchable hzone) (List.rel_append hSs hDs) hbarred
      refine ⟨.ok (.merged m), ?_, ?_⟩
      · filter_upwards [hrules, hexRules, hcreate] with n hn hn' hn''
        simp only [cursor, hn, hn', hdates, hexDates, Cursor.merge, hn'', Option.map_some]
        rfl
      · rintro _ ⟨⟩
        exact ⟨m, rfl, hlast, hm⟩

theorem patient_seriesOf (s : RecurrenceSet) (rs : List Rule) :
    Patient fun n => s.seriesOf n rs := by
  induction rs with
  | nil => exact patient_const _
  | cons r rs ih =>
    intro j n b hle hj
    unfold seriesOf at hj ⊢
    dsimp only at hj ⊢
    cases hcreate : Series.create j r s.start s.zone s.budget with
    | none => simp [hcreate] at hj
    | some a =>
      have hn : Series.create n r s.start s.zone s.budget = some a :=
        Series.patient_create r s.start s.zone s.budget hle hcreate
      rw [hcreate] at hj
      rw [hn]
      cases a with
      | error e => exact hj
      | ok t => exact Patient.map ih _ hle hj

theorem patient_cursor (s : RecurrenceSet) : Patient fun n => s.cursor n := by
  intro j n b hle hj
  unfold cursor at hj ⊢
  dsimp only at hj ⊢
  cases hrules : s.seriesOf j s.rules with
  | none => simp [hrules] at hj
  | some a =>
    have hn : s.seriesOf n s.rules = some a := patient_seriesOf s s.rules hle hrules
    rw [hrules] at hj
    rw [hn]
    cases a with
    | error e => exact hj
    | ok rules =>
      dsimp only at hj ⊢
      cases hexRules : s.seriesOf j s.exRules with
      | none => simp [hexRules] at hj
      | some a =>
        have hn : s.seriesOf n s.exRules = some a := patient_seriesOf s s.exRules hle hexRules
        rw [hexRules] at hj
        rw [hn]
        cases a with
        | error e => exact hj
        | ok exRules =>
          dsimp only at hj ⊢
          cases hdates : s.listedOf s.dates with
          | error e => rwa [hdates] at hj
          | ok dates =>
            cases hexDates : s.listedOf s.exDates with
            | error e => rwa [hdates, hexDates] at hj
            | ok exDates =>
              rw [hdates, hexDates] at hj
              obtain ⟨r, hr, rfl⟩ := Option.map_eq_some_iff.mp hj
              exact Option.map_eq_some_iff.mpr ⟨r, (Cursor.extends_ops hle).create hr, rfl⟩

/-! ### All states -/

/-- A merged cursor over the members of a set whose queue is in order. -/
def Ordered (s : RecurrenceSet) (c : Cursor) : Prop :=
  ∃ m, c = .merged m ∧ m.Seeks (s.Serves s.rules s.dates) (s.Serves s.exRules s.exDates)
    Value.IsReal s.Excludes

/-- **In all states** that calls lead to the queue is in order. -/
theorem Reachable.ordered (hs : s.Valid) (hzone : s.zone = .utc) (hc : s.Reachable c) :
    s.Ordered c := by
  have hM := hs.searchable hzone
  induction hc with
  | cursor h =>
    obtain ⟨a, hsettles, hordered⟩ := hs.exists_cursor hzone
    obtain ⟨m, rfl, -, hm⟩ := hordered _ (Patient.eq_of_settles s.patient_cursor hsettles h).symm
    exact ⟨m, rfl, hm⟩
  | @hasNext n c c' a hc h ih =>
    obtain ⟨m, rfl, hm⟩ := ih
    cases n with
    | zero => exact absurd h (by simp [Cursor.ops])
    | succ n =>
      obtain ⟨m', hn, rfl⟩ := Answer.exists_of_lift h
      exact ⟨m', rfl, hm.hasNext hM Cursor.extends_ops hn⟩
  | @next n c c' a hc h ih =>
    obtain ⟨m, rfl, hm⟩ := ih
    cases n with
    | zero => exact absurd h (by simp [Cursor.ops])
    | succ n =>
      obtain ⟨m', hn, rfl⟩ := Answer.exists_of_lift h
      exact ⟨m', rfl, hm.next hM Cursor.extends_ops hn⟩
  | @advanceTo n c c' target a hc h ih =>
    obtain ⟨m, rfl, hm⟩ := ih
    cases n with
    | zero => exact absurd h (by simp [Cursor.ops])
    | succ n =>
      obtain ⟨m', hn, rfl⟩ := Answer.exists_of_lift h
      exact ⟨m', rfl, hm.advanceTo hM Cursor.extends_ops hn⟩

/-- Nothing is held, infinitely many values are to come, and those of them that are new are all
excluded. -/
def Starves (s : RecurrenceSet) (m : Merged Cursor) : Prop :=
  m.pending = none ∧ {v | m.ToCome Cursor.ops v}.Infinite ∧
    ∀ v, m.ToCome Cursor.ops v → m.IsNew v → s.Excludes v

end RecurrenceSet

/-- **When a search over a set ends.**  Take a set of valid rules and exception rules, and of dates
and exception dates with real fields, in UTC.  A cursor over it can be made, or a rule is refused
for the start.  The cursor is a merged one, and in whatever state calls have led it to, a look ahead
has an answer, and does not fail.  There is one exception: nothing is held, infinitely many values
are still to come, and each of them that comes after the last one is excluded. -/
theorem set_search_ends {s : RecurrenceSet} (hs : s.Valid) (hzone : s.zone = .utc) :
    (∃ a, Settles (fun n => s.cursor n) a) ∧ ∀ c, s.Reachable c → ∃ m, c = .merged m ∧
      (¬ s.Starves m → ∃ b c', Settles (fun n => (Cursor.ops n).hasNext c) (.ok b, c')) := by
  constructor
  · obtain ⟨a, hsettles, -⟩ := hs.exists_cursor hzone
    exact ⟨a, hsettles⟩
  · intro c hc
    obtain ⟨m, rfl, hm⟩ := hc.ordered hs hzone
    refine ⟨m, rfl, fun hstarves => ?_⟩
    obtain ⟨b, m', hsettles⟩ := hm.exists_hasNext (hs.searchable hzone) Cursor.extends_ops (by
      intro hpending hinfinite
      by_contra hnone
      push Not at hnone
      exact hstarves ⟨hpending, hinfinite, hnone⟩)
    exact ⟨b, _, hsettles.lift Cursor.merged fun _ => rfl⟩

/-- A day off a daily set: only finitely many values are excluded, so the search ends. -/
theorem set_search_ends_day_off :
    let s : RecurrenceSet :=
      { start := .ofDate ⟨2024, 1, 1⟩, zone := .utc, budget := 100, rules := [{ freq := .daily }]
        dates := [.ofDateTime ⟨2024, 1, 1⟩ ⟨9, 0, 0⟩], exDates := [.ofDate ⟨2024, 1, 1⟩] }
    (s.Valid ∧ s.zone = .utc) ∧ ∃ m, s.Reachable (.merged m) ∧ ¬ s.Starves m ∧
      ∃ b c', Settles (fun n => (Cursor.ops n).hasNext (.merged m)) (.ok b, c') := by
  intro s
  have hs : s.Valid := ⟨by decide, by decide, by decide, by decide, by decide⟩
  have hmade : (s.cursor 50).any Except.isOk = true := by decide +kernel
  obtain ⟨a, ha, hok⟩ := (Option.any_eq_true _ _).mp hmade
  cases a with
  | error e => exact absurd hok (by simp [Except.isOk, Except.toBool])
  | ok c =>
    obtain ⟨_, hsettles, hordered⟩ := hs.exists_cursor rfl
    obtain ⟨m, rfl, hlast, -⟩ := hordered c (Patient.eq_of_settles s.patient_cursor hsettles ha).symm
    have hreach : s.Reachable (.merged m) := .cursor ha
    have hstarves : ¬ s.Starves m := by
      rintro ⟨-, hinfinite, hall⟩
      refine hinfinite ((Set.finite_singleton (.ofDate ⟨2024, 1, 1⟩ : Value)).subset fun v hv => ?_)
      -- nothing has come yet, so all values to come are new
      obtain ⟨r, hr, -⟩ | hv := hall v hv (by simp [Merged.IsNew, hlast])
      · exact absurd hr List.not_mem_nil
      · exact List.mem_singleton.mp hv
    obtain ⟨m', heq, hends⟩ := (set_search_ends hs rfl).2 _ hreach
    obtain rfl : m = m' := by simpa using heq
    exact ⟨⟨hs, rfl⟩, m, hreach, hstarves, hends hstarves⟩

/-! ### Searches that do not end -/

namespace RecurrenceSet

variable {s : RecurrenceSet} {rs : List Rule} {ds : List Value}

/-- **A set whose rule is its exception rule** too is searched for ever if the rule has positions
and no end, and each year has instances of two periods. -/
theorem hasNext_eq_none {r : Rule} {start : Value} {budget : Int} (hr : r.Admits start)
    (hbudget : 1 ≤ budget) (hpos : r.bySetPos ≠ []) (hcount : r.count = none)
    (huntil : r.untilBound = none) (hfill : r.FillsYears start) :
    ∃ c, Settles (fun n => cursor { start, zone := .utc, budget, rules := [r], exRules := [r] } n)
        (.ok c) ∧ ∀ n, (Cursor.ops n).hasNext c = none := by
  set s : RecurrenceSet := { start, zone := .utc, budget, rules := [r], exRules := [r] } with hs
  obtain ⟨-, t, hcreate, -⟩ := Rule.exists_live hr .utc budget
  obtain ⟨bound, hbound⟩ := hcreate.exists_bound
  have ht := Series.Reachable.create hbound
  obtain ⟨B, -, hlive, -, hstart, -⟩ := ht.live hr.valid hr.real
  obtain ⟨S, hS⟩ := hlive.exists_plays
  have hendless := hS.endless hfill hr.valid hr.real hbudget hpos hcount huntil hbound
  have hserves : s.Serves [r] [] (.series t) S := .series (List.mem_singleton_self r) ht hS
  have hL : CursorLaws Cursor.ops (s.Serves [r] []) fun v =>
      ∀ r' ∈ [r], r'.MovesTo start .utc budget v :=
    exactLaws hr.real (by simpa using hr.valid) (by simp)
  have hkind : ∀ S' ∈ [S], ∀ v ∈ S', v.hasTime = start.hasTime := by
    obtain ⟨K, e, P, hK, hguarded⟩ := ht.exists_guarded hr.valid hr.real
    rintro _ (_ | ⟨_, ⟨⟩⟩) v hv
    exact hstart ▸ ((hguarded.plays hK hS).2 v hv).2
  -- both the queue and the excluded cursor hand out the same sequence, so nothing remains
  obtain ⟨m, T, hmake, hstands, hT, hmem, hremains⟩ :=
    Merged.create_stands hL (.cons hserves .nil) (.cons hserves .nil) hkind
  refine ⟨.merged m, ?_, fun n => ?_⟩
  · filter_upwards [hcreate, hmake] with n hn hn'
    simp [hs, cursor, seriesOf, listedOf, hn, Cursor.merge, hn', Except.map]
  · have hmore : ∃ i, ¬ (T i).Terminates := by
      obtain ⟨v, hv⟩ := Option.isSome_iff_exists.mp (Stream'.Seq.not_terminates_iff.mp hendless 0)
      have hv : v ∈ S := Stream'.Seq.mem_iff_exists_get?.mpr ⟨0, hv.symm⟩
      obtain ⟨i, hi⟩ := (hmem v).mpr ⟨S, List.mem_singleton_self S, hv⟩
      refine ⟨i, ?_⟩
      rcases hT i with hnil | hS'
      · exact absurd (hnil ▸ hi) (Stream'.Seq.notMem_nil v)
      · rwa [List.mem_singleton.mp hS']
    cases n with
    | zero => rfl
    | succ n =>
      have hmoves : ∀ v : Value, v.hasTime = start.hasTime →
          ∀ r' ∈ [r], r'.MovesTo start .utc budget v := by
        rintro v hv _ (_ | ⟨_, ⟨⟩⟩)
        exact Rule.movesTo hr.valid hr.real (.inr hpos) fun ht => hv.symm.trans ht
      have hnone := hstands.hasNext_eq_none hL ⟨fun u v hu hv => hu.trans hv.symm, hmoves⟩
        Cursor.extends_ops (fun u hu => ((hremains u).mp hu).2 ((hremains u).mp hu).1) hmore n
      simp only [Cursor.ops, hnone]
      rfl

end RecurrenceSet

/-- Every day, less every day: in its first state the search for a value has no answer under any
bound. -/
theorem set_search_never_ends :
    let r : Rule := { bySetPos := [1], freq := .daily }
    let s : RecurrenceSet :=
      { start := .ofDate ⟨2024, 1, 1⟩, zone := .utc, budget := 100, rules := [r], exRules := [r] }
    s.Valid ∧ s.zone = .utc ∧ ∃ c, s.Reachable c ∧ ∀ n, (Cursor.ops n).hasNext c = none := by
  intro r s
  have hvalid : r.Valid := by decide
  have hreal : s.start.IsReal := by decide
  obtain ⟨c, hcreate, hnone⟩ := RecurrenceSet.hasNext_eq_none
    (⟨hvalid, hreal, by decide⟩ : r.Admits s.start) (show (1 : Int) ≤ 100 by decide) (by decide) rfl
    rfl (Rule.fillsYears_daily 2024)
  obtain ⟨n, hn⟩ := hcreate.exists_bound
  have hset : s.Valid :=
    ⟨hreal, by simpa [s] using hvalid, by simpa [s] using hvalid, by simp [s], by simp [s]⟩
  exact ⟨hset, rfl, c, .cursor hn, hnone⟩

end Recurrence
