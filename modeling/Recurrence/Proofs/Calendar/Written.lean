/-
Recurrence/Proofs/Calendar/Written.lean

Written dates and date-times.

The fields of a value of the years 1 to 9999 fit into the widths of the basic format, so the reader
finds each at its place: four digits for the year, two for everything else, and the letter T before
a time.  Whether a final Z follows the time does not matter.
-/
import Recurrence.Calendar.BasicFormat
import Recurrence.Proofs.Calendar.Checked
import Recurrence.Proofs.Text.Numbers

namespace Recurrence

open Text (Chars)

variable {v : Value} {cs z : Chars} {n : Int} {w : Nat}

/-! ### Fields -/

/-- A field is read from the start of a text that it was written to. -/
theorem takeNumber?_zeroFilled (hw : 0 < w) (hn : 0 ≤ n) (hlt : n < 10 ^ w) :
    takeNumber? w (Text.zeroFilled w n ++ cs) = some (n, cs) := by
  have hlen := Text.length_zeroFilled hn hw hlt
  have hdigits : (Text.zeroFilled w n).all Text.isDecimalDigit = true :=
    List.all_eq_true.mpr fun c hc =>
      Text.isDecimalDigit_of_isDigit (Text.isDigit_of_mem_zeroFilled hn hc)
  rw [takeNumber?, List.take_left' hlen, List.drop_left' hlen, if_pos ⟨hlen, hdigits⟩,
    Text.digitsValue_zeroFilled hn]

theorem readTime?_chars {t : TimeOfDay} (ht : t.IsReal) (hz : z = [] ∨ z = ['Z']) :
    readTime? (t.chars ++ z) = some t := by
  obtain ⟨hh, hh', hm, hm', hs, hs'⟩ := ht
  simp only [readTime?, TimeOfDay.chars, List.append_assoc]
  rw [takeNumber?_zeroFilled (by decide) hh (by omega)]
  simp only [Option.bind_eq_bind, Option.bind_some]
  rw [takeNumber?_zeroFilled (by decide) hm (by omega)]
  simp only [Option.bind_some]
  rw [takeNumber?_zeroFilled (by decide) hs (by omega)]
  exact if_pos hz

/-! ### Values -/

theorem readFields?_chars (hv : v.Representable) (hz : z = [] ∨ v.hasTime = true ∧ z = ['Z']) :
    readFields? (v.chars ++ z) = some v := by
  obtain ⟨⟨⟨hm, hm', hd, hd'⟩, ht⟩, hy, hy'⟩ := hv
  have hlen := (Gregorian.monthLengthWithin_bounds v.date.year v.date.month).2
  simp only [readFields?, Value.chars, Date.chars, List.append_assoc]
  rw [takeNumber?_zeroFilled (by decide) (by omega) (by omega)]
  simp only [Option.bind_eq_bind, Option.bind_some]
  rw [takeNumber?_zeroFilled (by decide) (by omega) (by omega)]
  simp only [Option.bind_some]
  rw [takeNumber?_zeroFilled (by decide) (by omega) (by omega)]
  obtain ⟨d, _ | t⟩ := v
  · obtain rfl : z = [] := hz.resolve_right fun h => by simp [Value.hasTime] at h
    rfl
  · show (readTime? (t.chars ++ z)).map (Value.ofDateTime d) = some ⟨d, some t⟩
    rw [readTime?_chars (ht t rfl) (hz.imp_right And.right)]
    rfl

/-- **A value is read from what is written for it**, with a final Z or without. -/
theorem Value.ofChars?_chars (hv : v.Representable)
    (hz : z = [] ∨ v.hasTime = true ∧ z = ['Z']) : Value.ofChars? (v.chars ++ z) = some v := by
  rw [Value.ofChars?, readFields?_chars hv hz]
  show v.check.toOption = some v
  rw [Value.check_eq_ok_iff.mpr ⟨rfl, hv⟩]
  rfl

/-- The characters of a written value: digits, and the letter before a time. -/
theorem Value.mem_chars (hv : v.Representable) {c : Char} (hc : c ∈ v.chars) :
    c.isDigit = true ∨ c = 'T' := by
  obtain ⟨⟨⟨hm, -, hd, -⟩, ht⟩, hy, -⟩ := hv
  rw [Value.chars, Date.chars, List.mem_append, List.mem_append, List.mem_append] at hc
  obtain ((hc | hc) | hc) | hc := hc
  · exact .inl (Text.isDigit_of_mem_zeroFilled (by omega) hc)
  · exact .inl (Text.isDigit_of_mem_zeroFilled (by omega) hc)
  · exact .inl (Text.isDigit_of_mem_zeroFilled (by omega) hc)
  obtain ⟨d, _ | t⟩ := v
  · exact absurd hc List.not_mem_nil
  · obtain ⟨hh, -, hm, -, hs, -⟩ := ht t rfl
    simp only [TimeOfDay.chars, List.mem_cons, List.mem_append] at hc
    obtain hc | (hc | hc) | hc := hc
    · exact .inr hc
    · exact .inl (Text.isDigit_of_mem_zeroFilled hh hc)
    · exact .inl (Text.isDigit_of_mem_zeroFilled hm hc)
    · exact .inl (Text.isDigit_of_mem_zeroFilled hs hc)

end Recurrence
