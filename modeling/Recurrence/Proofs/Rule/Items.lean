/-
Recurrence/Proofs/Rule/Items.lean

The items of a written rule.

A rule is written in up to fourteen parts, each with a name and one or more items.  Names and items
are words.  Here each kind of item is read on its own, from any spelling of it: frequencies, weekday
codes, integers, ends, and weekdays with an ordinal.
-/
import Recurrence.Proofs.Calendar.Written
import Recurrence.Proofs.Rule.Validity
import Recurrence.Proofs.Text.Spelled
import Recurrence.Rule.Parser
import Recurrence.Rule.Printer

namespace Recurrence

open Text (Chars IsWord SpellsItem)

variable {r : Rule} {piece : Chars}

/-! ### Parts -/

/-- The parts of a written rule. -/
inductive PartName where
  | freq | untilBound | count | interval | list (p : ListPart) | byDay | weekStart
deriving DecidableEq

namespace PartName

/-- The name of a part in rule texts. -/
def name : PartName → String
  | freq => "FREQ" | untilBound => "UNTIL" | count => "COUNT" | interval => "INTERVAL"
  | list p => p.name | byDay => "BYDAY" | weekStart => "WKST"

/-- All parts in the order in which they are written. -/
def all : List PartName :=
  [freq, untilBound, count, interval, list .second, list .minute, list .hour, byDay,
    list .monthDay, list .yearDay, list .weekNo, list .month, list .setPos, weekStart]

/-- The part that a name in capitals stands for. -/
def ofName? (s : String) : Option PartName := all.find? fun p => p.name == s

theorem mem_all (p : PartName) : p ∈ all := by
  cases p with
  | list p => cases p <;> decide
  | _ => decide

theorem nodup_all : all.Nodup := by decide

@[simp] theorem ofName?_name (p : PartName) : ofName? p.name = some p :=
  have h : ∀ p ∈ all, ofName? p.name = some p := by decide
  h p p.mem_all

theorem name_injective : Function.Injective name := by
  intro p q h
  have := congrArg ofName? h
  rwa [ofName?_name, ofName?_name, Option.some.injEq] at this

theorem isWord_name (p : PartName) : IsWord p.name.toList :=
  have h : ∀ p ∈ all, IsWord p.name.toList := by decide
  h p p.mem_all

end PartName

namespace Rule

/-- The items of the value of a part, none if the part is left out. -/
def items (r : Rule) : PartName → List Chars
  | .freq => [r.freq.name.toList]
  | .untilBound => r.untilBound.toList.map untilChars
  | .count => r.count.toList.map Text.integer
  | .interval => if r.interval = 1 then [] else [Text.integer r.interval]
  | .list p => (r.values p).map Text.integer
  | .byDay => r.byDay.map WeekdayNum.chars
  | .weekStart => if r.weekStart = .mo then [] else [r.weekStart.code.toList]

/-- The parts that a rule is written with. -/
def writtenParts (r : Rule) : List PartName := PartName.all.filter fun p => r.items p ≠ []

theorem mem_writtenParts {p : PartName} : p ∈ r.writtenParts ↔ r.items p ≠ [] := by
  simp [writtenParts, PartName.mem_all]

theorem freq_mem_writtenParts (r : Rule) : .freq ∈ r.writtenParts :=
  mem_writtenParts.mpr (List.cons_ne_nil _ _)

theorem partChars_eq_filterMap (r : Rule) :
    r.partChars = PartName.all.filterMap fun p => listPart? p.name (r.items p) := by
  have hone : ∀ (name : String) (item : Chars),
      listPart? name [item] = some (namedPart name item) := by
    intro name item
    simp [listPart?, Text.joined]
  have huntil : (r.untilBound.map fun v => namedPart "UNTIL" (untilChars v)) =
      listPart? "UNTIL" (r.items .untilBound) := by
    rw [items]
    cases r.untilBound with
    | none => rfl
    | some v => exact (hone _ _).symm
  have hcount : (r.count.map fun n => namedPart "COUNT" (Text.integer n)) =
      listPart? "COUNT" (r.items .count) := by
    rw [items]
    cases r.count with
    | none => rfl
    | some n => exact (hone _ _).symm
  have hinterval : (if r.interval = 1 then none
      else some (namedPart "INTERVAL" (Text.integer r.interval))) =
      listPart? "INTERVAL" (r.items .interval) := by
    rw [items]
    split_ifs
    · rfl
    · exact (hone _ _).symm
  have hwkst : (if r.weekStart = .mo then none
      else some (namedPart "WKST" r.weekStart.code.toList)) =
      listPart? "WKST" (r.items .weekStart) := by
    rw [items]
    split_ifs
    · rfl
    · exact (hone _ _).symm
  rw [partChars, huntil, hcount, hinterval, hwkst, ← hone "FREQ"]
  rfl

/-- The written parts, each from its name and its items. -/
theorem partChars_eq (r : Rule) : r.partChars =
    r.writtenParts.map fun p => namedPart p.name (Text.joined [','] (r.items p)) := by
  rw [partChars_eq_filterMap, writtenParts]
  induction PartName.all with
  | nil => rfl
  | cons p ps ih =>
    by_cases hp : r.items p = []
    · rw [List.filterMap_cons_none (by rw [listPart?, if_pos hp]), ih,
        List.filter_cons_of_neg (by simpa using hp)]
    · rw [List.filterMap_cons_some (by rw [listPart?, if_neg hp]), ih,
        List.filter_cons_of_pos (by simpa using hp), List.map_cons]

end Rule

/-! ### Rules that can be written -/

/-- Whether a rule is valid, ends in a real moment of the years 1 to 9999 if it has an end, and has
no number that is too long for a text.  Only the interval and the count can be. -/
structure Rule.Expressible (r : Rule) : Prop where
  valid : r.Valid
  ending : ∀ v ∈ r.untilBound, v.Representable
  interval : Text.IsShort r.interval
  count : ∀ n ∈ r.count, Text.IsShort n

theorem ListPart.isShort_of_admits {p : ListPart} {n : Int} (h : p.admits n = true) :
    Text.IsShort n := by
  refine Text.isShort_of_natAbs_lt ?_
  have := admits_iff.mp h
  cases p <;> simp only [InRange] at this <;> omega

/-! ### Items as words -/

theorem Weekday.isWord_code (d : Weekday) : IsWord d.code.toList := by cases d <;> decide

theorem Frequency.isWord_name (f : Frequency) : IsWord f.name.toList := by cases f <;> decide

theorem WeekdayNum.isWord_chars (e : WeekdayNum) : IsWord e.chars := by
  obtain ⟨_ | n, d⟩ := e
  · exact d.isWord_code
  · exact (IsWord.integer n).append d.isWord_code

theorem Value.isWord_untilChars {v : Value} (hv : v.Representable) : IsWord (Rule.untilChars v) := by
  constructor
  · obtain ⟨-, hy, hy'⟩ := hv
    have hyear := Text.length_zeroFilled (w := 4) (n := v.date.year) (by omega) (by decide) (by omega)
    refine List.ne_nil_of_length_pos ?_
    simp only [Rule.untilChars, Value.chars, Date.chars, List.length_append]
    omega
  · intro c hc
    rw [Rule.untilChars, List.mem_append] at hc
    obtain hc | hc := hc
    · obtain hdigit | rfl := Value.mem_chars hv hc
      · exact Text.isRuleChar_of_isDigit hdigit
      · decide
    · split_ifs at hc
      · rw [List.mem_singleton.mp hc]
        decide
      · cases hc

/-- Names and items are words. -/
theorem Rule.isWord_of_mem_items (hr : r.Expressible) (p : PartName) :
    ∀ item ∈ r.items p, IsWord item := by
  intro item hitem
  cases p with
  | freq =>
    rw [List.mem_singleton.mp hitem]
    exact r.freq.isWord_name
  | untilBound =>
    obtain ⟨v, hv, rfl⟩ := List.mem_map.mp hitem
    exact Value.isWord_untilChars (hr.ending v (Option.mem_toList.mp hv))
  | count | list p =>
    obtain ⟨n, -, rfl⟩ := List.mem_map.mp hitem
    exact .integer n
  | interval =>
    rw [items] at hitem
    split_ifs at hitem
    · cases hitem
    · exact List.mem_singleton.mp hitem ▸ .integer r.interval
  | byDay =>
    obtain ⟨e, -, rfl⟩ := List.mem_map.mp hitem
    exact e.isWord_chars
  | weekStart =>
    rw [items] at hitem
    split_ifs at hitem
    · cases hitem
    · exact List.mem_singleton.mp hitem ▸ r.weekStart.isWord_code

/-! ### Reading an item -/

theorem Frequency.read_item {f : Frequency} (h : SpellsItem f.name.toList piece)
    (htrim : Text.trim piece = piece) :
    ofName? (String.ofList (Text.upper piece)) = some f := by
  have := h.upper_trim f.isWord_name
  rw [htrim] at this
  rw [this, String.ofList_toList, ofName?_name]

theorem Weekday.read_item {d : Weekday} (h : SpellsItem d.code.toList piece) :
    ofText? piece = some d := by
  rw [ofText?, h.upper_trim d.isWord_code, String.ofList_toList, ofCode?_code]

theorem readInteger_item {n : Int} (h : SpellsItem (Text.integer n) piece) (hn : Text.IsShort n)
    (name : String) : readInteger name piece = .ok n := by
  rw [readInteger, h.readInteger? hn]

theorem Value.read_item {v : Value} (h : SpellsItem (Rule.untilChars v) piece)
    (hv : v.Representable) : Value.read piece = .ok v := by
  have hz : (if v.hasTime then ['Z'] else []) = [] ∨
      v.hasTime = true ∧ (if v.hasTime then ['Z'] else []) = ['Z'] := by
    cases v.hasTime <;> simp
  simp only [Value.read, h.upper_trim (Value.isWord_untilChars hv), Rule.untilChars,
    Value.ofChars?_chars hv hz]

/-- The ordinal of a written entry and what follows it. -/
theorem WeekdayNum.readOrdinal?_chars {e : WeekdayNum} (he : e.Valid) :
    readOrdinal? e.chars = some (e.ordinal, e.weekday.code.toList) := by
  obtain ⟨_ | n, d⟩ := e
  · cases d <;> decide
  · have hn := ordinalAdmitted_iff.mp (he n rfl)
    have hlen : (Text.digits n.natAbs).length ≤ 2 :=
      (Nat.length_toDigits_le_iff (by decide) (by decide)).mpr (by omega)
    have hpos : 0 < (Text.digits n.natAbs).length := Nat.length_toDigits_pos
    have hcode : d.code.toList.takeWhile Text.isDecimalDigit = [] := by cases d <;> decide
    have hdigits : (Text.digits n.natAbs ++ d.code.toList).takeWhile Text.isDecimalDigit =
        Text.digits n.natAbs := by
      rw [List.takeWhile_append_of_pos fun c hc =>
        Text.isDecimalDigit_of_isDigit (Text.isDigit_of_mem_digits hc), hcode, List.append_nil]
    simp only [readOrdinal?, chars, Text.splitSign_integer_append, hdigits]
    rw [if_pos (by omega), Text.digitsValue_digits, Text.sign_mul_natAbs, List.drop_left]

theorem WeekdayNum.read_item {e : WeekdayNum} (h : SpellsItem e.chars piece) (he : e.Valid) :
    WeekdayNum.read piece = .ok e := by
  have hparts : readParts? piece = some (e.ordinal, e.weekday) := by
    rw [readParts?, h.upper_trim e.isWord_chars, readOrdinal?_chars he]
    simp
  rw [WeekdayNum.read, hparts]
  obtain ⟨_ | n, d⟩ := e
  · rfl
  · exact if_pos (he n rfl)

/-! ### What is read -/

/-- What is read as a date or date-time is representable. -/
theorem Value.representable_of_read {v : Value} {cs : Chars}
    (h : Value.read cs = .ok v) : v.Representable := by
  unfold Value.read Value.ofChars? at h
  cases hfields : readFields? (Text.upper (Text.trim cs)) with
  | none => simp [hfields] at h
  | some w =>
    simp only [hfields] at h
    cases hcheck : w.check with
    | error e => simp [hcheck, Except.toOption] at h
    | ok w' =>
      obtain ⟨rfl, hw⟩ := Value.check_eq_ok_iff.mp hcheck
      simp only [hcheck, Except.toOption] at h
      exact Except.ok.inj h ▸ hw

/-- What is read as a weekday entry is valid. -/
theorem WeekdayNum.valid_of_read {e : WeekdayNum} {cs : Chars} (h : WeekdayNum.read cs = .ok e) :
    e.Valid := by
  unfold WeekdayNum.read at h
  cases hparts : readParts? cs with
  | none => simp [hparts] at h
  | some parts =>
    obtain ⟨ordinal, d⟩ := parts
    simp only [hparts] at h
    cases ordinal with
    | none =>
      obtain rfl := Except.ok.inj h
      rintro _ ⟨⟩
    | some n =>
      simp only [of] at h
      split_ifs at h with hn
      obtain rfl := Except.ok.inj h
      rintro _ ⟨⟩
      exact hn

/-- What is read as an integer is short. -/
theorem isShort_of_readInteger {name : String} {n : Int} {cs : Chars}
    (h : readInteger name cs = .ok n) : Text.IsShort n := by
  unfold readInteger at h
  cases hread : Text.readInteger? cs with
  | none => simp [hread] at h
  | some m =>
    simp only [hread] at h
    exact Except.ok.inj h ▸ Text.isShort_of_readInteger? hread

end Recurrence
