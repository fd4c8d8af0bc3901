/-
Recurrence/Proofs/Rule/CanonicalForm.lean

The canonical form of accepted texts.

The reader accepts far more than the writer gives: digits of all scripts, signs, underscores,
blanks, any order, extensions.  But every part that it accepts is within its range when the part is
read or when the rule is built from all of them.  So whatever was accepted can be written, and what
is written is read as the same rule.
-/
import Recurrence.Proofs.Rule.Spelling

namespace Recurrence

open Text (Chars)

variable {r : Rule} {s s' : RuleParts} {text : String} {part : TextPart} {parts : List TextPart}

/-- Whether all parts of a rule are in the ranges that are documented for them. -/
structure RuleParts.InRange (r : RuleParts) : Prop where
  interval : 1 ≤ r.interval
  count : ∀ n ∈ r.count, 1 ≤ n
  ending : ∀ v ∈ r.untilBound, v.Representable
  one_end : r.count = none ∨ r.untilBound = none
  lists : ∀ p, ∀ n ∈ r.values p, p.InRange n
  ordinals : ∀ e ∈ r.byDay, ∀ n ∈ e.ordinal, (1 ≤ n ∧ n ≤ 53) ∨ (-53 ≤ n ∧ n ≤ -1)

theorem Rule.Expressible.inRange (hr : r.Expressible) : r.InRange where
  interval := hr.valid.1
  count := hr.valid.2.1
  ending := hr.ending
  one_end := hr.valid.2.2.1
  lists := fun p n hn => ListPart.admits_iff.mp (hr.valid.admits p n hn)
  ordinals := fun e he n hn => ordinalAdmitted_iff.mp (hr.valid.2.2.2.2 e he n hn)

/-! ### What is read can be written -/

/-- What is known of the parts of a rule before they have been checked together. -/
structure RuleParts.Readable (s : RuleParts) : Prop where
  interval : Text.IsShort s.interval
  count : ∀ n ∈ s.count, Text.IsShort n
  ending : ∀ v ∈ s.untilBound, v.Representable
  days : ∀ e ∈ s.byDay, e.Valid

theorem RuleParts.readable_default : RuleParts.Readable {} where
  interval := by decide
  count := by rintro _ ⟨⟩
  ending := by rintro _ ⟨⟩
  days := by rintro _ ⟨⟩

/-- List parts are not among what is known. -/
theorem RuleParts.Readable.withValues (hs : s.Readable) (p : ListPart) (ns : List Int) :
    (s.withValues p ns).Readable := by
  cases p <;> exact ⟨hs.interval, hs.count, hs.ending, hs.days⟩

/-- **Reading one more part** keeps the rule readable. -/
theorem RuleParts.Readable.add (hs : s.Readable) (h : s.add text part = .ok s') : s'.Readable := by
  unfold RuleParts.add at h
  split at h
  · exact Except.ok.inj h ▸ hs
  · obtain ⟨n, hn, h⟩ := bind_eq_ok_iff.mp h
    obtain rfl := Except.ok.inj h
    exact { hs with interval := isShort_of_readInteger hn }
  · obtain ⟨n, hn, h⟩ := bind_eq_ok_iff.mp h
    obtain rfl := Except.ok.inj h
    exact { hs with count := by rintro _ ⟨⟩; exact isShort_of_readInteger hn }
  · obtain ⟨v, hv, h⟩ := bind_eq_ok_iff.mp h
    obtain rfl := Except.ok.inj h
    exact { hs with ending := by rintro _ ⟨⟩; exact Value.representable_of_read hv }
  · obtain ⟨es, hes, h⟩ := bind_eq_ok_iff.mp h
    obtain rfl := Except.ok.inj h
    refine { hs with days := fun e he => ?_ }
    obtain ⟨piece, -, hread⟩ := (mem_iff_of_mapM hes).mp he
    exact WeekdayNum.valid_of_read hread
  · split at h
    · exact Except.ok.inj h ▸ ⟨hs.interval, hs.count, hs.ending, hs.days⟩
    · cases h
  · split at h
    · obtain ⟨ns, -, h⟩ := bind_eq_ok_iff.mp h
      exact Except.ok.inj h ▸ hs.withValues _ ns
    · split_ifs at h
      exact Except.ok.inj h ▸ hs

/-- **Whatever is read can be written.** -/
theorem Rule.expressible_of_parse (h : Rule.parse text = .ok r) : r.Expressible := by
  unfold Rule.parse at h
  split_ifs at h
  obtain ⟨parts, -, h⟩ := bind_eq_ok_iff.mp h
  obtain ⟨freq, -, h⟩ := bind_eq_ok_iff.mp h
  obtain ⟨s, hfold, hbuild⟩ := bind_eq_ok_iff.mp (mapError_eq_ok_iff.mp h)
  have hs : s.Readable :=
    foldlM_invariant (P := fun _ s => s.Readable) (fun _ _ _ _ hs h => hs.add h)
      RuleParts.readable_default hfold
  obtain ⟨-, hparts, -⟩ := RuleDraft.build_eq_ok_iff.mp hbuild
  obtain rfl : s = r.toRuleParts := hparts
  exact ⟨RuleDraft.valid_of_build hbuild hs.days, hs.ending, hs.interval, hs.count⟩

/-- The text of a rule is read as that rule. -/
theorem Rule.parse_text (hr : r.Expressible) : Rule.parse r.text = .ok r := by
  obtain ⟨parts, hsplit, htells, hall⟩ := (Rule.Spelling.plain hr).exists_parts hr
  rw [Rule.Spelling.text_plain] at hsplit
  exact parse_of_tells hr hsplit htells hall

/-- No rule but an expressible one is read from its text, so nothing can be left out of what makes a
rule expressible. -/
theorem Rule.parse_text_iff : Rule.parse r.text = .ok r ↔ r.Expressible :=
  ⟨expressible_of_parse, parse_text⟩

/-! ### The canonical form -/

/-- **Accepted texts have a stable canonical form.**  A rule that is read from a text is within the
documented ranges, and its numbers are short enough to be written; its text is read as the same rule
again.  So writing, reading and writing once more gives no other text. -/
theorem canonical_form_of_accepted (h : Rule.parse text = .ok r) :
    r.InRange ∧ Text.IsShort r.interval ∧ (∀ n ∈ r.count, Text.IsShort n) ∧
      Rule.parse r.text = .ok r ∧ (Rule.parse r.text).map Rule.text = .ok r.text := by
  have hr := Rule.expressible_of_parse h
  have hread := Rule.parse_text_iff.mpr hr
  refine ⟨hr.inRange, hr.interval, hr.count, hread, ?_⟩
  rw [hread]
  rfl

theorem canonical_form_of_accepted_digits :
    Rule.parse "freq=ſecondly;x-a=b;interval=+0_2;UNTIL=٢٠٢٤٠١٠٢" =
        .ok { freq := .secondly, interval := 2, untilBound := some (.ofDate ⟨2024, 1, 2⟩) } ∧
      Rule.parse "FREQ=SECONDLY;UNTIL=20240102;INTERVAL=2" =
        .ok { freq := .secondly, interval := 2, untilBound := some (.ofDate ⟨2024, 1, 2⟩) } := by
  have h : Rule.parse "freq=ſecondly;x-a=b;interval=+0_2;UNTIL=٢٠٢٤٠١٠٢" =
      .ok { freq := .secondly, interval := 2, untilBound := some (.ofDate ⟨2024, 1, 2⟩) } := by
    decide +kernel
  have htext : Rule.text
      { freq := .secondly, interval := 2, untilBound := some (.ofDate ⟨2024, 1, 2⟩) } =
      "FREQ=SECONDLY;UNTIL=20240102;INTERVAL=2" := by decide +kernel
  exact ⟨h, htext ▸ (canonical_form_of_accepted h).2.2.2.1⟩

end Recurrence
