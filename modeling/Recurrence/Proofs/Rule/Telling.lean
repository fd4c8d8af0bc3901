/-
Recurrence/Proofs/Rule/Telling.lean

Rules told part by part.

Each part of a text sets its own fields and no others, so after some parts have been read the rule
so far has these parts right and the others at their defaults, whatever the order.  Parts that were
left out by the writer are at their defaults anyway; extensions change nothing.
-/
import Recurrence.Proofs.Rule.Items

namespace Recurrence

open Text (Chars SpellsItems)

variable {r : Rule} {text : String} {told : List PartName} {part : TextPart} {parts : List TextPart}

/-! ### Rules with some of their parts -/

/-- The parts of a rule that have been told, the others at their defaults. -/
def RuleParts.keeping (r : RuleParts) (told : List PartName) : RuleParts where
  interval := if .interval ∈ told then r.interval else 1
  count := if .count ∈ told then r.count else none
  untilBound := if .untilBound ∈ told then r.untilBound else none
  bySecond := if .list .second ∈ told then r.bySecond else []
  byMinute := if .list .minute ∈ told then r.byMinute else []
  byHour := if .list .hour ∈ told then r.byHour else []
  byDay := if .byDay ∈ told then r.byDay else []
  byMonthDay := if .list .monthDay ∈ told then r.byMonthDay else []
  byYearDay := if .list .yearDay ∈ told then r.byYearDay else []
  byWeekNo := if .list .weekNo ∈ told then r.byWeekNo else []
  byMonth := if .list .month ∈ told then r.byMonth else []
  bySetPos := if .list .setPos ∈ told then r.bySetPos else []
  weekStart := if .weekStart ∈ told then r.weekStart else .mo

@[simp] theorem RuleParts.keeping_nil {r : RuleParts} : r.keeping [] = {} := by
  simp [keeping]

/-- Once all parts that are written have been told, the rule is complete. -/
theorem Rule.keeping_eq_self (h : ∀ p, r.items p ≠ [] → p ∈ told) :
    r.keeping told = r.toRuleParts := by
  have hleft : ∀ p, p ∉ told → r.items p = [] := fun p => not_imp_comm.mp (h p)
  have hlist : ∀ p, (if .list p ∈ told then r.values p else []) = r.values p := fun p =>
    ite_eq_left_iff.mpr fun hp => (List.map_eq_nil_iff.mp (hleft (.list p) hp)).symm
  refine RuleParts.ext ?_ ?_ ?_ (hlist .second) (hlist .minute) (hlist .hour) ?_ (hlist .monthDay)
    (hlist .yearDay) (hlist .weekNo) (hlist .month) (hlist .setPos) ?_ <;>
    refine ite_eq_left_iff.mpr fun hp => ?_
  · have := hleft .interval hp
    simp only [items, ite_eq_left_iff, List.cons_ne_nil, imp_false, not_not] at this
    exact this.symm
  · have := hleft .count hp
    simp only [items, List.map_eq_nil_iff, Option.toList_eq_nil_iff] at this
    exact this.symm
  · have := hleft .untilBound hp
    simp only [items, List.map_eq_nil_iff, Option.toList_eq_nil_iff] at this
    exact this.symm
  · exact (List.map_eq_nil_iff.mp (hleft .byDay hp)).symm
  · have := hleft .weekStart hp
    simp only [items, ite_eq_left_iff, List.cons_ne_nil, imp_false, not_not] at this
    exact this.symm

/-! ### Reading one part -/

theorem add_list {s : RuleParts} {p : ListPart} {value : Chars} :
    s.add text ⟨p.name, value⟩ = (readIntegers p.name value).map (s.withValues p) := by
  cases p <;> rfl

/-- A list part is read from every spelling of it. -/
theorem readIntegers_items (hr : r.Expressible) {p : ListPart} {value : Chars}
    (h : SpellsItems (r.items (.list p)) value) :
    readIntegers p.name value = .ok (r.values p) :=
  h.mapM_eq_ok fun n hn _ hpiece =>
    readInteger_item hpiece (ListPart.isShort_of_admits (hr.valid.admits p n hn)) p.name

/-- **Every part of a rule is read** from every spelling of it, and sets its own fields only. -/
theorem add_part (hr : r.Expressible) (p : PartName) {value : Chars}
    (h : SpellsItems (r.items p) value) :
    (r.keeping told).add text ⟨p.name, value⟩ = .ok (r.keeping (told ++ [p])) := by
  have hne := h.items_ne_nil
  cases p with
  | freq =>
    have hkeep : r.keeping (told ++ [.freq]) = r.keeping told := by simp [RuleParts.keeping]
    rw [hkeep]
    rfl
  | untilBound =>
    obtain ⟨v, hv⟩ : ∃ v, r.untilBound = some v := by
      rw [← Option.ne_none_iff_exists']
      exact fun hnone => hne (by simp [Rule.items, hnone])
    have hitem : SpellsItems [Rule.untilChars v] value := by simpa [Rule.items, hv] using h
    have hread := Value.read_item hitem.singleton (hr.ending v hv)
    show (Value.read value).bind _ = _
    rw [hread]
    simp [RuleParts.keeping, hv, Except.bind, pure, Except.pure]
  | count =>
    obtain ⟨n, hn⟩ : ∃ n, r.count = some n := by
      rw [← Option.ne_none_iff_exists']
      exact fun hnone => hne (by simp [Rule.items, hnone])
    have hitem : SpellsItems [Text.integer n] value := by simpa [Rule.items, hn] using h
    have hread := readInteger_item hitem.singleton (hr.count n hn) "COUNT"
    show (readInteger "COUNT" value).bind _ = _
    rw [hread]
    simp [RuleParts.keeping, hn, Except.bind, pure, Except.pure]
  | interval =>
    have hone : r.interval ≠ 1 := fun h1 => hne (by simp [Rule.items, h1])
    have hitem : SpellsItems [Text.integer r.interval] value := by simpa [Rule.items, hone] using h
    have hread := readInteger_item hitem.singleton hr.interval "INTERVAL"
    show (readInteger "INTERVAL" value).bind _ = _
    rw [hread]
    simp [RuleParts.keeping, Except.bind, pure, Except.pure]
  | list p =>
    show (r.keeping told).add text ⟨p.name, value⟩ = _
    rw [add_list, readIntegers_items hr h]
    cases p <;> simp [RuleParts.keeping, RuleParts.withValues, RuleParts.values, Except.map]
  | byDay =>
    have hread : readDayEntries value = .ok r.byDay :=
      h.mapM_eq_ok fun e he _ hpiece => WeekdayNum.read_item hpiece (hr.valid.2.2.2.2 e he)
    show (readDayEntries value).bind _ = _
    rw [hread]
    simp [RuleParts.keeping, Except.bind, pure, Except.pure]
  | weekStart =>
    have hmo : r.weekStart ≠ .mo := fun hmo => hne (by simp [Rule.items, hmo])
    have hitem : SpellsItems [r.weekStart.code.toList] value := by simpa [Rule.items, hmo] using h
    simp [RuleParts.add, PartName.name, Weekday.read_item hitem.singleton, RuleParts.keeping]

/-! ### Reading all parts -/

/-- Whether a part of a text has the name of an extension. -/
def TextPart.IsExtension (part : TextPart) : Prop := "X-".toList <+: part.name.toList

/-- No part of a rule has the name of an extension. -/
theorem PartName.not_isExtension (p : PartName) : ¬"X-".toList <+: p.name.toList :=
  have h : ∀ p ∈ all, ¬"X-".toList <+: p.name.toList := by decide
  h p p.mem_all

/-- An extension changes nothing. -/
theorem add_extension {s : RuleParts} (h : part.IsExtension) : s.add text part = .ok s := by
  have hname : ∀ p : PartName, part.name ≠ p.name := fun p hp => p.not_isExtension (hp ▸ h)
  obtain ⟨name, value⟩ := part
  unfold RuleParts.add
  split
  · exact absurd ‹_› (hname .freq)
  · exact absurd ‹_› (hname .interval)
  · exact absurd ‹_› (hname .count)
  · exact absurd ‹_› (hname .untilBound)
  · exact absurd ‹_› (hname .byDay)
  · exact absurd ‹_› (hname .weekStart)
  · have hlist : ListPart.ofName? name = none :=
      List.find?_eq_none.mpr fun p _ hp => hname (.list p) (beq_iff_eq.mp hp).symm
    simp only [hlist]
    exact if_pos (Text.afterStart?_isSome_iff.mpr h)

/-- Whether a part of a text says what a rule says, or is an extension. -/
def Rule.Tells (r : Rule) (part : TextPart) : Prop :=
  (∃ p : PartName, part.name = p.name ∧ SpellsItems (r.items p) part.value) ∨ part.IsExtension

/-- The rule so far, after any parts of it. -/
theorem foldlM_add (hr : r.Expressible) (h : ∀ part ∈ parts, r.Tells part) :
    parts.foldlM (RuleParts.add text) (r.keeping told) =
      .ok (r.keeping (told ++ parts.filterMap fun part => PartName.ofName? part.name)) := by
  induction parts generalizing told with
  | nil => simp [pure, Except.pure]
  | cons part parts ih =>
    obtain ⟨hpart, hparts⟩ := List.forall_mem_cons.mp h
    rw [List.foldlM_cons, bind_eq_ok_iff]
    obtain ⟨p, hname, hvalue⟩ | hext := hpart
    · refine ⟨r.keeping (told ++ [p]), ?_, ?_⟩
      · have hadd : (r.keeping told).add text ⟨p.name, part.value⟩ = _ := add_part hr p hvalue
        rwa [← hname] at hadd
      · rw [ih hparts, List.filterMap_cons_some (by rw [hname, PartName.ofName?_name]),
          List.append_assoc, List.singleton_append]
    · refine ⟨r.keeping told, add_extension hext, ?_⟩
      have hnone : PartName.ofName? part.name = none := by
        refine List.find?_eq_none.mpr fun p _ hp => p.not_isExtension ?_
        rwa [beq_iff_eq.mp hp]
      rw [ih hparts, List.filterMap_cons, hnone]

/-- The frequency is found whatever stands before it. -/
theorem readFrequency_of_tells (htells : ∀ part ∈ parts, r.Tells part)
    (hfreq : ∃ part ∈ parts, part.name = "FREQ") : readFrequency text parts = .ok r.freq := by
  unfold readFrequency
  cases hfind : parts.find? fun part => part.name == "FREQ" with
  | none =>
    obtain ⟨part, hpart, hname⟩ := hfreq
    exact absurd (beq_iff_eq.mpr hname) (List.find?_eq_none.mp hfind part hpart)
  | some part =>
    have hfound := List.find?_some hfind
    have hname : part.name = PartName.freq.name := beq_iff_eq.mp hfound
    obtain ⟨p, hp, hvalue⟩ | hext := htells part (List.mem_of_find?_eq_some hfind)
    · obtain rfl : p = .freq := PartName.name_injective (hp.symm.trans hname)
      have hread := Frequency.read_item (SpellsItems.singleton hvalue) hvalue.trim_eq
      simp only [hread]
    · exact absurd (hname ▸ hext) PartName.freq.not_isExtension

/-- **A rule is read** from parts that tell it, in any order, as long as all parts that would be
written are among them. -/
theorem parse_of_tells (hr : r.Expressible) (hsplit : splitRule text.toList = .ok parts)
    (htells : ∀ part ∈ parts, r.Tells part)
    (hall : ∀ p ∈ r.writtenParts, ∃ part ∈ parts, part.name = p.name) :
    Rule.parse text = .ok r := by
  have hfreq : readFrequency text parts = .ok r.freq :=
    readFrequency_of_tells htells (hall .freq r.freq_mem_writtenParts)
  have hparts : parts.foldlM (RuleParts.add text) {} = .ok r.toRuleParts := by
    have hfold : parts.foldlM (RuleParts.add text) (r.keeping []) = _ := foldlM_add hr htells
    rw [RuleParts.keeping_nil, Rule.keeping_eq_self] at hfold
    · exact hfold
    · intro p hp
      obtain ⟨part, hpart, hname⟩ := hall p (Rule.mem_writtenParts.mpr hp)
      exact List.mem_filterMap.mpr ⟨part, hpart, by rw [hname, PartName.ofName?_name]⟩
  have hbuild : ruleOfParts text r.freq parts = .ok r := by
    rw [ruleOfParts, hparts]
    exact RuleDraft.build_of_valid hr.valid
  have hblank : Text.trim text.toList ≠ [] := by
    intro hnil
    have hnone : splitRule text.toList = .ok [] := by
      rw [splitRule, ruleBody, hnil]
      rfl
    obtain ⟨part, hpart, -⟩ := hall .freq r.freq_mem_writtenParts
    rw [Except.ok.inj (hsplit.symm.trans hnone)] at hpart
    cases hpart
  rw [Rule.parse, if_neg hblank, hsplit]
  show (readFrequency text parts).bind _ = _
  rw [hfreq]
  show (ruleOfParts text r.freq parts).mapError _ = _
  rw [hbuild]
  rfl

end Recurrence
