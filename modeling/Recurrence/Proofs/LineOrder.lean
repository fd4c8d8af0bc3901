/-
Recurrence/Proofs/LineOrder.lean

Content lines whose order does not matter, and where it does.

A text with its lines in another order, or with its lists of dates spread over other lines, is read
as a set with the same parts (`RecurrenceSet.Rearranges.exists_readLines`).  A cursor over one of
the sets can be made if one over the other can, and both have the same members, in whatever order
(`RecurrenceSet.MadeOf.perm`).

The order of the exception rules does not matter then, and listed dates are sorted anyway.  The
order of the rules decides which of several series with the same value is the first to move on.  No
call can tell as long as moves to a target drop exactly what is before it
(`line_order_does_not_matter`).  Where they do not, a series that lags behind by one value may
return another one after a move than the series that has moved on (`line_order_matters`).
-/
import Recurrence.Proofs.ContentLines
import Recurrence.Proofs.Cursor.Reordered
import Recurrence.Proofs.SetSearch

namespace Recurrence

open Text (Chars)

variable {s s' : RecurrenceSet} {rs rs' : List Rule} {ds ds' : List Value} {cs : List Cursor}
  {c c' : Cursor} {n : Nat} {start target : Value} {zone : Zone} {budget : Int} {text text' : Chars}

/-! ### Calls of a merged cursor -/

namespace Cursor

/-- Asked one call after another, a cursor gives these answers. -/
def Answers (c : Cursor) (calls : List CursorCall) (answers : List CursorAnswer) : Prop :=
  ∃ c', Settles (fun n => (ops n).askAll calls c) (answers, c')

/-- Cursors of every kind answer patiently. -/
theorem patient_askAll (calls : List CursorCall) (c : Cursor) :
    Patient fun n => (ops n).askAll calls c := by
  refine CursorOps.patient_askAll (fun call c => ?_) calls c
  cases call with
  | hasNext => exact Patient.map (fun hle hb => (extends_ops hle).hasNext hb) _
  | next => exact Patient.map (fun hle hb => (extends_ops hle).next hb) _
  | advanceTo target => exact Patient.map (fun hle hb => (extends_ops hle).advanceTo hb) _

/-- A merged cursor is asked under a bound that its members are asked under the one before. -/
theorem ask_merged (n : Nat) (call : CursorCall) (m : Merged Cursor) :
    (ops (n + 1)).ask call (.merged m) =
      ((Merged.ops ops n).ask call m).map fun (a, m) => (a, .merged m) := by
  cases call <;>
    simp only [ops, CursorOps.ask, Merged.ops, Answer.lift, Option.map_map, Function.comp_def]

/-- **What keeps up answers alike**, as long as all calls return. -/
theorem Answers.of_keepsUp {Target : Value → Prop} {R : Merged Cursor → Merged Cursor → Prop}
    (hR : Merged.KeepsUp ops Target R) {m m' : Merged Cursor} (h : R m m')
    {calls : List CursorCall} {answers : List CursorAnswer}
    (hreturns : List.Forall₂ CursorCall.Returns calls answers)
    (haims : ∀ call ∈ calls, call.Aims Target) (hc : (Cursor.merged m).Answers calls answers) :
    (Cursor.merged m').Answers calls answers := by
  obtain ⟨c', hsettles⟩ := hc
  obtain ⟨n, hn⟩ := hsettles.exists_bound
  clear hsettles
  induction hreturns generalizing m m' with
  | nil => exact ⟨_, settles_const _⟩
  | @cons call a calls answers hreturn _ ih =>
    rw [List.forall_mem_cons] at haims
    cases n with
    | zero => exact absurd hn (by cases call <;> simp [CursorOps.askAll, CursorOps.ask, ops])
    | succ n =>
      rw [CursorOps.askAll, ask_merged] at hn
      cases hask : (Merged.ops ops n).ask call m with
      | none => simp [hask] at hn
      | some r =>
        obtain ⟨a', m₁⟩ := r
        rw [hask] at hn
        obtain ⟨⟨answers', c₁⟩, hrest, heq⟩ := Option.map_eq_some_iff.mp hn
        obtain ⟨hcons, rfl⟩ := Prod.mk.inj heq
        obtain ⟨rfl, rfl⟩ := List.cons_eq_cons.mp hcons
        obtain ⟨m₁', hask', h₁⟩ := hR.ask h haims.1 hreturn hask
        obtain ⟨c₂, hrest'⟩ := ih h₁ haims.2 hrest
        refine ⟨c₂, ?_⟩
        obtain ⟨k, hk⟩ := Filter.eventually_atTop.mp hask'
        filter_upwards [hrest', Filter.eventually_ge_atTop (k + 1)] with j hj hle
        obtain ⟨j, rfl⟩ : ∃ i, j = i + 1 := ⟨j - 1, by omega⟩
        have hask : (Merged.ops ops j).ask call m' = some (a', m₁') := hk j (by omega)
        rw [CursorOps.askAll, ask_merged, hask, Option.map_some]
        dsimp only
        rw [hj, Option.map_some]

end Cursor

/-! ### The members of a set -/

namespace RecurrenceSet

/-- The series of some rules, and the cursor over some dates. -/
def MadeOf (s : RecurrenceSet) (n : Nat) (rs : List Rule) (ds : List Value) (cs : List Cursor) :
    Prop :=
  ∃ series dates, s.seriesOf n rs = some (.ok series) ∧ s.listedOf ds = .ok dates ∧
    cs = series ++ dates

/-- **A cursor over a set is made** of its members. -/
theorem cursor_eq_ok_iff : s.cursor n = some (.ok c) ↔ ∃ included excluded m,
    s.MadeOf n s.rules s.dates included ∧ s.MadeOf n s.exRules s.exDates excluded ∧
      Merged.create (Cursor.ops n) included excluded = some (.ok m) ∧ c = .merged m := by
  constructor
  · intro h
    unfold cursor at h
    cases hrules : s.seriesOf n s.rules with
    | none => simp [hrules] at h
    | some a =>
      obtain _ | rules := a
      · simp [hrules] at h
      rw [hrules] at h
      dsimp only at h
      cases hexRules : s.seriesOf n s.exRules with
      | none => simp [hexRules] at h
      | some a =>
        obtain _ | exRules := a
        · simp [hexRules] at h
        rw [hexRules] at h
        dsimp only at h
        cases hdates : s.listedOf s.dates with
        | error e => simp [hdates] at h
        | ok dates =>
          cases hexDates : s.listedOf s.exDates with
          | error e => simp [hdates, hexDates] at h
          | ok exDates =>
            rw [hdates, hexDates] at h
            obtain ⟨r, hr, heq⟩ := Option.map_eq_some_iff.mp h
            obtain ⟨m, rfl, rfl⟩ := map_eq_ok_iff.mp heq
            exact ⟨_, _, m, ⟨rules, dates, hrules, hdates, rfl⟩,
              ⟨exRules, exDates, hexRules, hexDates, rfl⟩, hr, rfl⟩
  · rintro ⟨_, _, m, ⟨rules, dates, hrules, hdates, rfl⟩,
      ⟨exRules, exDates, hexRules, hexDates, rfl⟩,
      hm, rfl⟩
    simp only [cursor, hrules, hexRules, hdates, hexDates, Cursor.merge, hm, Option.map_some,
      Except.map]

theorem seriesOf_eq_ok_iff : s.seriesOf n rs = some (.ok cs) ↔ List.Forall₂ (fun r c =>
    ∃ t, Series.create n r s.start s.zone s.budget = some (.ok t) ∧ c = .series t) rs cs := by
  induction rs generalizing cs with
  | nil =>
    rw [List.forall₂_nil_left_iff]
    exact ⟨fun h => (Except.ok.inj (Option.some.inj h)).symm, fun h => h ▸ rfl⟩
  | cons r rs ih =>
    rw [seriesOf, List.forall₂_cons_left_iff]
    constructor
    · intro h
      cases hcreate : Series.create n r s.start s.zone s.budget with
      | none => simp [hcreate] at h
      | some a =>
        obtain _ | t := a
        · simp [hcreate] at h
        · rw [hcreate] at h
          obtain ⟨a, ha, heq⟩ := Option.map_eq_some_iff.mp h
          obtain ⟨cs', rfl, rfl⟩ := map_eq_ok_iff.mp heq
          exact ⟨_, cs', ⟨t, rfl, rfl⟩, ih.mp ha, rfl⟩
    · rintro ⟨_, cs', ⟨t, hcreate, rfl⟩, hrest, rfl⟩
      rw [hcreate]
      dsimp only
      rw [ih.mpr hrest]
      rfl

/-- Listed dates are sorted. -/
theorem listedOf_perm (hds : ∀ v ∈ ds, v.IsReal) (hperm : ds.Perm ds') :
    s.listedOf ds' = s.listedOf ds := by
  obtain ⟨us, hus, hasc, hmem⟩ := DateCursor.exists_ofList s.zone hds
  obtain ⟨us', hus', hasc', hmem'⟩ :=
    DateCursor.exists_ofList s.zone fun v hv => hds v (hperm.mem_iff.mpr hv)
  obtain rfl : us' = us :=
    eq_of_mem_iff hasc' hasc fun u => by simp only [hmem, hmem', hperm.mem_iff]
  have hempty : ds'.isEmpty = ds.isEmpty := by
    rw [Bool.eq_iff_iff, List.isEmpty_iff, List.isEmpty_iff, ← List.length_eq_zero_iff,
      ← List.length_eq_zero_iff, hperm.length_eq]
  rw [listedOf, listedOf, hempty, hus, hus']

namespace MadeOf

/-- The members of sets with the same start, zone and budget are made alike. -/
theorem congr (hstart : s'.start = s.start) (hzone : s'.zone = s.zone)
    (hbudget : s'.budget = s.budget) (h : s.MadeOf n rs ds cs) : s'.MadeOf n rs ds cs := by
  obtain ⟨series, dates, hseries, hdates, rfl⟩ := h
  refine ⟨series, dates, ?_, by rw [listedOf, hzone]; exact hdates, rfl⟩
  rw [seriesOf_eq_ok_iff, hstart, hzone, hbudget]
  exact seriesOf_eq_ok_iff.mp hseries

theorem mono {k : Nat} (hle : n ≤ k) (h : s.MadeOf n rs ds cs) : s.MadeOf k rs ds cs := by
  obtain ⟨series, dates, hseries, hdates, rfl⟩ := h
  exact ⟨series, dates, patient_seriesOf s rs hle hseries, hdates, rfl⟩

/-- **Parts in another order** make the same members in another order. -/
theorem perm (h : s.MadeOf n rs ds cs) (hds : ∀ v ∈ ds, v.IsReal) (hrules : rs.Perm rs')
    (hdates : ds.Perm ds') :
    ∃ cs', s.MadeOf n rs' ds' cs' ∧ cs.Perm cs' ∧ (rs' = rs → cs' = cs) := by
  obtain ⟨series, dates, hseries, hlisted, rfl⟩ := h
  by_cases heq : rs' = rs
  · exact ⟨_, ⟨series, dates, heq ▸ hseries, (listedOf_perm hds hdates).trans hlisted, rfl⟩, .rfl,
      fun _ => rfl⟩
  · obtain ⟨series', hall, hperm⟩ :=
      List.perm_comp_forall₂ hrules.symm (seriesOf_eq_ok_iff.mp hseries)
    exact ⟨_, ⟨series', dates, seriesOf_eq_ok_iff.mpr hall, (listedOf_perm hds hdates).trans hlisted,
      rfl⟩, hperm.symm.append_right dates, fun h => absurd h heq⟩

/-- **The members of a set** serve its rules and the UTC values of its dates. -/
theorem serves (h : s.MadeOf n rs ds cs) (hreal : s.start.IsReal) (hrs : ∀ r ∈ rs, r.Valid)
    (hds : ∀ v ∈ ds, v.IsReal) :
    ∃ us Ss, (∀ u ∈ us, u.IsReal) ∧ List.Forall₂ (s.Serves rs us) cs Ss := by
  obtain ⟨series, dates, hseries, hlisted, rfl⟩ := h
  obtain ⟨us, dates', hdates, hmem, Ds, hDs⟩ := exists_listedOf (s := s) hds rs
  obtain rfl : dates = dates' := Except.ok.inj (hlisted.symm.trans hdates)
  obtain ⟨a, hsettles, hserves⟩ := exists_seriesOf hreal hrs us fun r hr => hr
  obtain ⟨Ss, hSs⟩ :=
    hserves _ (Patient.eq_of_settles (patient_seriesOf s rs) hsettles hseries).symm
  refine ⟨us, Ss ++ Ds, fun u hu => ?_, List.rel_append hSs hDs⟩
  obtain ⟨v, hv, hto⟩ := (hmem u).mp hu
  obtain ⟨u', hto', hu', -⟩ := Value.toUtc_spec s.zone (hds v hv)
  exact Except.ok.inj (hto'.symm.trans hto) ▸ hu'

end MadeOf

/-! ### Sets with the same parts -/

/-- The cursors over a set drop exactly what is before the target when they are moved to it. -/
def MovesTo (s : RecurrenceSet) (target : Value) : Prop :=
  target.KeyDecides false ∧ ∀ r ∈ s.rules, r.MovesTo s.start s.zone s.budget target

theorem MovesTo.lt_iff (h : s.MovesTo target) (v : Value) : v < target ↔ v.key < target.key := by
  cases htime : v.hasTime with
  | false => exact h.1.lt_iff htime
  | true => exact Value.KeyDecides.lt_iff (.inl rfl : target.KeyDecides true) htime

theorem SameParts.movesTo (h : SameParts s s') (hmoves : s.MovesTo target) : s'.MovesTo target := by
  refine ⟨hmoves.1, fun r hr => ?_⟩
  rw [h.start, h.zone, h.budget]
  exact hmoves.2 r (h.rules.mem_iff.mpr hr)

/-- **The cursors over sets with the same parts** are made alike, and answer alike. -/
theorem SameParts.exists_cursor (hs : s.Valid) (h : SameParts s s')
    (hc : s.cursor n = some (.ok c)) : ∃ c', Settles (fun n => s'.cursor n) (.ok c') ∧
      ∀ calls answers, List.Forall₂ CursorCall.Returns calls answers →
        (s'.rules = s.rules ∨ ∀ call ∈ calls, call.Aims s.MovesTo) →
        c.Answers calls answers → c'.Answers calls answers := by
  obtain ⟨included, excluded, m, hincluded, hexcluded, hm, rfl⟩ := cursor_eq_ok_iff.mp hc
  obtain ⟨us, Ss, hus, hleft⟩ := hincluded.serves hs.start hs.rules hs.dates
  obtain ⟨ws, Xs, hws, hbarred⟩ := hexcluded.serves hs.start hs.exRules hs.exDates
  obtain ⟨included', hincluded', hperm, hsame⟩ := hincluded.perm hs.dates h.rules h.dates
  obtain ⟨excluded', hexcluded', hperm', -⟩ := hexcluded.perm hs.exDates h.exRules h.exDates
  have hleft' : ∀ c ∈ included, ∃ S, s.Serves s.rules us c S := by
    intro c hc
    obtain ⟨S, -, hS⟩ := exists_rel_of_mem_left hleft hc
    exact ⟨S, hS⟩
  have hbarred' : ∀ c ∈ excluded, ∃ X, s.Serves s.exRules ws c X := by
    intro c hc
    obtain ⟨X, -, hX⟩ := exists_rel_of_mem_left hbarred hc
    exact ⟨X, hX⟩
  have hexcluding := rovingLaws hs.start hs.exRules hws
  have hexact : CursorLaws Cursor.ops (s.Serves s.rules us) s.MovesTo :=
    (exactLaws hs.start hs.rules hus).restrict fun _ h => h.2
  have hfits : ∀ S ∈ Ss, ∀ v ∈ S, v.IsReal := by
    intro S hS
    obtain ⟨c, -, hc⟩ := exists_rel_of_mem hleft hS
    exact (hc.ascending_isReal hs.start hs.rules hus).2
  obtain ⟨m', T, T', hsettles, hahead⟩ :=
    Merged.SameAhead.create Cursor.extends_ops hexact hexcluding
    hleft hfits hbarred' hperm hperm' hm
  refine ⟨.merged m', ?_, fun calls answers hreturns hcalls hanswers => ?_⟩
  · obtain ⟨k, hk⟩ := hsettles.exists_bound
    have hcreate : Merged.create (Cursor.ops (max n k)) included' excluded' = some (.ok m') :=
      (Cursor.extends_ops (Nat.le_max_right n k)).create hk
    exact Patient.settles s'.patient_cursor (cursor_eq_ok_iff.mpr ⟨included', excluded', m',
      (hincluded'.mono (Nat.le_max_left n k)).congr h.start h.zone h.budget,
      (hexcluded'.mono (Nat.le_max_left n k)).congr h.start h.zone h.budget, hcreate, rfl⟩)
  · rcases hcalls with hrules | haims
    · obtain rfl := hsame hrules
      have hroving := rovingLaws hs.start hs.rules hus
      obtain ⟨m'', hm', hfront⟩ :=
        Merged.SameFront.create Cursor.extends_ops hexact hexcluding hleft'
        hbarred' hperm' hm
      have hpatient : Patient fun n => Merged.create (Cursor.ops n) included' excluded' :=
        fun hle hb => (Cursor.extends_ops hle).create hb
      obtain rfl : m'' = m' := Except.ok.inj (hpatient.eq_of_settles hsettles hm')
      exact hanswers.of_keepsUp (Merged.SameFront.keepsUp Cursor.extends_ops hroving hexcluding)
        hfront hreturns fun _ _ _ _ => trivial
    · exact hanswers.of_keepsUp
        (Merged.SameAhead.keepsUp Cursor.extends_ops hexact Value.sparse_isReal hexcluding
          fun target htarget v _ => htarget.lt_iff v) ⟨T, T', hahead⟩ hreturns haims

/-- What a cursor over the lines of a text answers to some calls under a bound. -/
def answersOf (bound : Nat) (calls : List CursorCall) (s : RecurrenceSet) (text : Chars) :
    Option (List CursorAnswer) := do
  let s ← (s.addLines text).toOption
  let c ← (← s.cursor bound).toOption
  let (answers, _) ← (Cursor.ops bound).askAll calls c
  return answers

/-- What is answered under a bound is answered. -/
theorem exists_of_answersOf {calls : List CursorCall} {answers : List CursorAnswer}
    (h : answersOf n calls s text = some answers) : ∃ s' c, s.addLines text = .ok s' ∧
      Settles (fun n => s'.cursor n) (.ok c) ∧ c.Answers calls answers := by
  obtain ⟨s', hs', h⟩ := Option.bind_eq_some_iff.mp h
  obtain ⟨a, ha, h⟩ := Option.bind_eq_some_iff.mp h
  obtain ⟨c, hc, h⟩ := Option.bind_eq_some_iff.mp h
  obtain ⟨⟨answers', c'⟩, hrun, h⟩ := Option.bind_eq_some_iff.mp h
  obtain rfl : answers' = answers := Option.some.inj h
  obtain rfl := toOption_eq_some_iff.mp hc
  exact ⟨s', c, toOption_eq_some_iff.mp hs', Patient.settles s'.patient_cursor ha, c',
    Patient.settles (Cursor.patient_askAll calls c) hrun⟩

end RecurrenceSet

/-- **The order of lines.**  Take a text that is read as a set, for a start with real fields, and
another text with the same lines, but in another order, or with lists of dates spread over other
lines of their property.  The other text is read as well, and a cursor over the one set can be made
exactly if a cursor over the other can.  Both cursors give the same answers to calls that return,
whatever the targets, if the rules of both texts are in the same order.  If they are not, they give
the same answers as long as the series of the rules drop, when they are moved to one of the targets,
exactly what is before it. -/
theorem line_order_does_not_matter (hreal : start.IsReal)
    (haccept : RecurrenceSet.addLines { start, zone, budget } text = .ok s)
    (hlines : RecurrenceSet.Rearranges (Text.lines text) (Text.lines text')) :
    ∃ s', RecurrenceSet.addLines { start, zone, budget } text' = .ok s' ∧
      ((∃ c, Settles (fun n => s.cursor n) (.ok c)) ↔
        ∃ c', Settles (fun n => s'.cursor n) (.ok c')) ∧
      ∀ c c', Settles (fun n => s.cursor n) (.ok c) → Settles (fun n => s'.cursor n) (.ok c') →
        ∀ calls answers, List.Forall₂ CursorCall.Returns calls answers →
          (s'.rules = s.rules ∨ ∀ call ∈ calls, call.Aims s.MovesTo) →
          (c.Answers calls answers ↔ c'.Answers calls answers) := by
  rw [RecurrenceSet.addLines_eq] at haccept
  obtain ⟨s', haccept', hparts⟩ := hlines.exists_readLines haccept
  have hbare : RecurrenceSet.Valid { start, zone, budget } :=
    ⟨hreal, by simp, by simp, by simp, by simp⟩
  have hs := hbare.readLines haccept
  have hs' := hbare.readLines haccept'
  refine ⟨s', haccept', ⟨?_, ?_⟩, fun c c' hc hc' calls answers hreturns hcalls => ⟨?_, ?_⟩⟩
  · rintro ⟨c, hc⟩
    obtain ⟨n, hn⟩ := hc.exists_bound
    obtain ⟨c', hc', -⟩ := hparts.exists_cursor hs hn
    exact ⟨c', hc'⟩
  · rintro ⟨c', hc'⟩
    obtain ⟨n, hn⟩ := hc'.exists_bound
    obtain ⟨c, hc, -⟩ := hparts.symm.exists_cursor hs' hn
    exact ⟨c, hc⟩
  · obtain ⟨n, hn⟩ := hc.exists_bound
    obtain ⟨c₁, hc₁, hall⟩ := hparts.exists_cursor hs hn
    obtain rfl : c' = c₁ := Except.ok.inj (hc'.unique hc₁)
    exact hall calls answers hreturns hcalls
  · obtain ⟨n, hn⟩ := hc'.exists_bound
    obtain ⟨c₁, hc₁, hall⟩ := hparts.symm.exists_cursor hs' hn
    obtain rfl : c = c₁ := Except.ok.inj (hc.unique hc₁)
    refine hall calls answers hreturns (hcalls.imp Eq.symm fun haims call hcall target heq => ?_)
    exact hparts.movesTo (haims call hcall target heq)

/-- Two counted rules and a list of exception dates: with the rules the other way round and the list
spread over two lines, a cursor that is moved past the first instance goes on alike. -/
theorem line_order_does_not_matter_counted :
    let s : RecurrenceSet := { start := .ofDate ⟨2024, 1, 1⟩, zone := .utc, budget := 100 }
    let three := "RRULE:FREQ=DAILY;COUNT=3".toList
    let two := "RRULE:FREQ=DAILY;COUNT=2".toList
    let text := Text.joined ['\n'] [three, two, "EXDATE:20240102,20240104".toList]
    let text' := Text.joined ['\n'] ["EXDATE:20240104".toList, two, "EXDATE:20240102".toList, three]
    let calls : List CursorCall :=
      [.next, .advanceTo (.ofDate ⟨2024, 1, 2⟩), .hasNext, .next, .hasNext]
    let answers : List CursorAnswer := [.value (.ofDate ⟨2024, 1, 1⟩), .moved, .more true,
      .value (.ofDate ⟨2024, 1, 3⟩), .more false]
    ∃ s₁ s₂ c₁ c₂, s.addLines text = .ok s₁ ∧ s.addLines text' = .ok s₂ ∧
      Settles (fun n => s₁.cursor n) (.ok c₁) ∧ Settles (fun n => s₂.cursor n) (.ok c₂) ∧
      c₁.Answers calls answers ∧ c₂.Answers calls answers := by
  intro s three two text text' calls answers
  have hreal : s.start.IsReal := by decide
  have hheads : SetProperty.exDates.Heads "EXDATE".toList :=
    ⟨.inr rfl, by decide, by decide +kernel⟩
  have hlines : RecurrenceSet.Rearranges (Text.lines text) (Text.lines text') := by
    have hperm : (Text.lines text).Perm
        (("EXDATE".toList ++ ':' :: ("20240102".toList ++ ',' :: "20240104".toList)) ::
          [three, two]) := by
      decide +kernel
    have hperm' : (("EXDATE".toList ++ ':' :: "20240102".toList) ::
        ("EXDATE".toList ++ ':' :: "20240104".toList) :: [three, two]).Perm (Text.lines text') := by
      decide +kernel
    exact (RecurrenceSet.Rearranges.perm hperm).trans
      ((RecurrenceSet.Rearranges.split hheads hheads hheads _ _ _).trans (.perm hperm'))
  have hanswers : RecurrenceSet.answersOf 20 calls s text = some answers := by decide +kernel
  obtain ⟨s₁, c₁, haccept, hc₁, hanswers⟩ := RecurrenceSet.exists_of_answersOf hanswers
  obtain ⟨s₂, haccept', hcreates, hsame⟩ := line_order_does_not_matter hreal haccept hlines
  obtain ⟨c₂, hc₂⟩ := hcreates.mp ⟨c₁, hc₁⟩
  -- all rules have a count, so their series move exactly
  have hcount : (s.addLines text).toOption.any (fun s₁ => s₁.start = s.start ∧
      ∀ r ∈ s₁.rules, r.Valid ∧ r.count.isSome) = true := by decide +kernel
  have haims : ∀ call ∈ calls, call.Aims s₁.MovesTo := by
    rw [haccept] at hcount
    obtain ⟨hstart, hrules⟩ : s₁.start = s.start ∧ ∀ r ∈ s₁.rules, r.Valid ∧ r.count.isSome := by
      simpa [Except.toOption] using hcount
    rintro call hcall target rfl
    obtain rfl : target = .ofDate ⟨2024, 1, 2⟩ := by simpa [calls] using hcall
    refine ⟨.inr (by decide), fun r hr => ?_⟩
    exact Rule.movesTo (hrules r hr).1 (hstart ▸ hreal) (.inl (hrules r hr).2)
      fun ht => absurd ht (by decide)
  exact ⟨s₁, s₂, c₁, c₂, haccept, haccept', hc₁, hc₂, hanswers,
    (hsame c₁ c₂ hc₁ hc₂ calls answers (by simp [calls, answers, CursorCall.Returns])
      (.inr haims)).mp hanswers⟩

/-- **Where the order of the rules matters.**  An evening series five hours behind UTC and the first
instance of it, as another series.  Asked for an instance, the series of the first line moves on.
If this is the one that goes on, it has the instance of the first of February waiting when it is
moved to this date, and keeps it.  If it is the other one, it is moved itself, and skips this
instance with the days before it, which are in January on the wall clock. -/
theorem line_order_matters :
    let s : RecurrenceSet :=
      { start := .ofDateTime ⟨2024, 1, 30⟩ ⟨21, 0, 0⟩, zone := .fixed (-18000), budget := 100 }
    let text := "RRULE:FREQ=DAILY;COUNT=1\nRRULE:FREQ=DAILY".toList
    let text' := "RRULE:FREQ=DAILY\nRRULE:FREQ=DAILY;COUNT=1".toList
    let calls : List CursorCall := [.next, .advanceTo (.ofDate ⟨2024, 2, 1⟩), .next]
    s.start.IsReal ∧ (Text.lines text).Perm (Text.lines text') ∧
      RecurrenceSet.answersOf 20 calls s text = some [.value (.ofDateTime ⟨2024, 1, 31⟩ ⟨2, 0, 0⟩),
        .moved, .value (.ofDateTime ⟨2024, 2, 2⟩ ⟨2, 0, 0⟩)] ∧
      RecurrenceSet.answersOf 20 calls s text' = some [.value (.ofDateTime ⟨2024, 1, 31⟩ ⟨2, 0, 0⟩),
        .moved, .value (.ofDateTime ⟨2024, 2, 1⟩ ⟨2, 0, 0⟩)] := by
  decide +kernel

end Recurrence
