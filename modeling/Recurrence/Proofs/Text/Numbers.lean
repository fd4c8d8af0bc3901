/-
Recurrence/Proofs/Text/Numbers.lean

Written numbers and read numbers.

An integer is read from what was written for it, and a number filled with zeros to a width has just
that many digits as long as it is below the power of ten.  The reader takes more than the writer
gives, but nothing it takes has more digits than the longest number; so what it takes can be written
and read again.
-/
import Mathlib.Data.Nat.Digits.Defs
import Recurrence.Proofs.Text.Capitals
import Recurrence.Proofs.Text.Pieces

namespace Recurrence.Text

variable {c : Char} {cs : Chars} {n : Int} {w : Nat}

/-- Whether an integer has no more digits than a number in a text may have.  Longer ones are neither
read nor written. -/
def IsShort (n : Int) : Prop := (digits n.natAbs).length ≤ maxDigits

instance (n : Int) : Decidable (IsShort n) := by unfold IsShort; infer_instance

/-! ### Digits -/

theorem isDigit_iff : c.isDigit = true ↔ 48 ≤ c.toNat ∧ c.toNat ≤ 57 :=
  Bool.and_eq_true_iff.trans (and_congr decide_eq_true_iff decide_eq_true_iff)

theorem isAlpha_of_isDigit (hc : c.isDigit = true) : c.isAlpha = false := by
  rw [isDigit_iff] at hc
  rw [← Bool.not_eq_true, isAlpha_iff]
  omega

theorem isBlank_of_isDigit (hc : c.isDigit = true) : isBlank c = false := by
  have hcodes : ∀ n ∈ blankCodes, ¬(48 ≤ n ∧ n ≤ 57) := by decide
  rw [← Bool.not_eq_true]
  exact fun h => hcodes c.toNat (by simpa [isBlank] using h) (isDigit_iff.mp hc)

theorem digitValue?_of_isDigit (hc : c.isDigit = true) : digitValue? c = some (c.toNat - 48) := by
  rw [isDigit_iff] at hc
  rw [digitValue?, zeroDigits, List.find?_cons_of_pos (by simp; omega)]
  rfl

theorem isDecimalDigit_of_isDigit (hc : c.isDigit = true) : isDecimalDigit c = true := by
  rw [isDecimalDigit, digitValue?_of_isDigit hc]
  rfl

theorem isDigit_of_mem_digits {n : Nat} (hc : c ∈ digits n) : c.isDigit = true :=
  Nat.isDigit_of_mem_toDigits (by decide) (by decide) hc

theorem digits_ne_nil {n : Nat} : digits n ≠ [] := List.ne_nil_of_length_pos Nat.length_toDigits_pos

theorem digitsValue_of_isDigit (hcs : ∀ c ∈ cs, c.isDigit = true) :
    digitsValue cs = Nat.ofDigitChars 10 cs 0 := by
  suffices hgen : ∀ k, cs.foldl (fun n c => 10 * n + (digitValue? c).getD 0) k =
      Nat.ofDigitChars 10 cs k from hgen 0
  induction cs with
  | nil => intro k; rfl
  | cons c cs ih =>
    intro k
    obtain ⟨hc, hcs⟩ := List.forall_mem_cons.mp hcs
    rw [List.foldl_cons, ih hcs, Nat.ofDigitChars_cons, digitValue?_of_isDigit hc]
    rfl

theorem digitsValue_digits (n : Nat) : digitsValue (digits n) = n := by
  rw [digitsValue_of_isDigit fun c hc => isDigit_of_mem_digits hc]
  exact Nat.ofDigitChars_ten_toDigits

/-- So many digits write a number below that power of ten. -/
theorem digitsValue_lt (cs : Chars) : digitsValue cs < 10 ^ cs.length := by
  suffices hgen : ∀ k b, k < b →
      cs.foldl (fun n c => 10 * n + (digitValue? c).getD 0) k < b * 10 ^ cs.length by
    simpa [digitsValue] using hgen 0 1 (by decide)
  have hdigit : ∀ c, (digitValue? c).getD 0 ≤ 9 := by
    intro c
    cases h : digitValue? c with
    | none => exact Nat.zero_le 9
    | some d =>
      obtain ⟨z, hz, rfl⟩ := Option.map_eq_some_iff.mp h
      have := List.find?_some hz
      simp only [Bool.and_eq_true, decide_eq_true_eq] at this
      show c.toNat - z ≤ 9
      omega
  induction cs with
  | nil => intro k b hk; simpa using hk
  | cons c cs ih =>
    intro k b hk
    have := ih (10 * k + (digitValue? c).getD 0) (10 * b) (by have := hdigit c; omega)
    rw [List.foldl_cons, List.length_cons, Nat.pow_succ]
    calc _ < 10 * b * 10 ^ cs.length := this
      _ = b * (10 ^ cs.length * 10) := by ring

theorem isShort_of_natAbs_lt (hn : n.natAbs < 1000) : IsShort n := by
  have hlen : (digits n.natAbs).length ≤ 3 :=
    (Nat.length_toDigits_le_iff (by decide) (by decide)).mpr hn
  exact hlen.trans (by decide)

/-! ### Writing -/

theorem zeroFilled_of_nonneg (hn : 0 ≤ n) :
    zeroFilled w n = List.replicate (w - (digits n.toNat).length) '0' ++ digits n.toNat := by
  rw [zeroFilled, if_neg (by omega)]
  rfl

theorem isDigit_of_mem_zeroFilled (hn : 0 ≤ n) (hc : c ∈ zeroFilled w n) : c.isDigit = true := by
  rw [zeroFilled_of_nonneg hn, List.mem_append] at hc
  obtain hc | hc := hc
  · rw [List.eq_of_mem_replicate hc]
    rfl
  · exact isDigit_of_mem_digits hc

theorem digitsValue_zeroFilled (hn : 0 ≤ n) : (digitsValue (zeroFilled w n) : Int) = n := by
  rw [digitsValue_of_isDigit fun c hc => isDigit_of_mem_zeroFilled hn hc, zeroFilled_of_nonneg hn,
    Nat.ofDigitChars_append, Nat.ofDigitChars_replicate_zero, Nat.mul_zero, digits,
    Nat.ofDigitChars_ten_toDigits]
  omega

theorem length_zeroFilled (hn : 0 ≤ n) (hw : 0 < w) (hlt : n < 10 ^ w) :
    (zeroFilled w n).length = w := by
  have hlen : (digits n.toNat).length ≤ w := by
    refine (Nat.length_toDigits_le_iff (by decide) hw).mpr ?_
    zify
    rwa [Int.toNat_of_nonneg hn]
  rw [zeroFilled_of_nonneg hn, List.length_append, List.length_replicate]
  omega

theorem integer_of_nonneg (hn : 0 ≤ n) : integer n = digits n.natAbs := by
  rw [integer, zeroFilled_of_nonneg hn, Nat.zero_sub, List.replicate_zero, List.nil_append,
    show n.toNat = n.natAbs by omega]

theorem integer_of_neg (hn : n < 0) : integer n = '-' :: digits n.natAbs := by
  rw [integer, zeroFilled, if_pos hn]
  simp [List.leftpad]

theorem mem_integer (hc : c ∈ integer n) : c = '-' ∨ c.isDigit = true := by
  obtain hn | hn := Int.lt_or_le n 0
  · rw [integer_of_neg hn, List.mem_cons] at hc
    exact hc.imp_right isDigit_of_mem_digits
  · rw [integer_of_nonneg hn] at hc
    exact .inr (isDigit_of_mem_digits hc)

/-! ### Reading -/

theorem groupedDigits?_of_isDigit (hcs : ∀ c ∈ cs, c.isDigit = true) (hne : cs ≠ []) :
    groupedDigits? cs = some cs := by
  -- An underscore among the characters would not be a digit.
  fun_induction groupedDigits? cs with
  | case1 => exact absurd rfl hne
  | case2 c hc => rfl
  | case3 c hc => exact absurd (isDecimalDigit_of_isDigit (hcs c List.mem_cons_self)) hc
  | case4 c d cs hc ih => exact absurd (hcs '_' (by simp)) (by decide)
  | case5 c d cs hc => exact absurd (hcs '_' (by simp)) (by decide)
  | case6 c d cs _ hc ih =>
    rw [ih (List.forall_mem_cons.mp hcs).2 (List.cons_ne_nil d cs)]
    rfl
  | case7 c d cs _ hc => exact absurd (isDecimalDigit_of_isDigit (hcs c List.mem_cons_self)) hc

theorem splitSign_cons_of_isDigit (hc : c.isDigit = true) : splitSign (c :: cs) = (1, c :: cs) := by
  unfold splitSign
  split
  · next h => exact absurd ((List.cons.inj h).1 ▸ hc) (by decide)
  · next h => exact absurd ((List.cons.inj h).1 ▸ hc) (by decide)
  · rfl

/-- The sign and the digits of a written integer. -/
theorem splitSign_integer_append (n : Int) (cs : Chars) :
    splitSign (integer n ++ cs) = (if n < 0 then -1 else 1, digits n.natAbs ++ cs) := by
  obtain hn | hn := Int.lt_or_le n 0
  · rw [integer_of_neg hn, if_pos hn]
    rfl
  · rw [integer_of_nonneg hn, if_neg (by omega)]
    cases hds : digits n.natAbs with
    | nil => exact absurd hds digits_ne_nil
    | cons c ds =>
      exact splitSign_cons_of_isDigit (isDigit_of_mem_digits (hds ▸ List.mem_cons_self))

theorem sign_mul_natAbs (n : Int) : (if n < 0 then -1 else 1) * (n.natAbs : Int) = n := by
  split_ifs <;> omega

/-- **An integer is read from what is written for it**, unless it is too long. -/
theorem readInteger?_integer (hn : IsShort n) : readInteger? (integer n) = some n := by
  have htrim : trimBy isNumberBlank (integer n) = integer n := by
    refine trimBy_eq_self fun c hc => ?_
    obtain rfl | hc := mem_integer hc
    · decide
    · rw [isNumberBlank, isBlank_of_isDigit hc, Bool.false_and]
  have hsplit := splitSign_integer_append n []
  rw [List.append_nil, List.append_nil] at hsplit
  have hdigits := groupedDigits?_of_isDigit (fun c hc => isDigit_of_mem_digits hc)
    (digits_ne_nil (n := n.natAbs))
  simp only [readInteger?, htrim, hsplit, hdigits]
  rw [if_neg (Nat.not_lt.mpr hn), digitsValue_digits, sign_mul_natAbs]

/-- Blanks around a number do not matter if they are spaces. -/
theorem readInteger?_trim (hcs : ∀ c ∈ cs, isBlank c = true → c = ' ') :
    readInteger? (trim cs) = readInteger? cs := by
  have htrim : trim cs = trimBy isNumberBlank cs := by
    refine trimBy_congr fun c hc => ?_
    cases hblank : isBlank c with
    | false => rw [isNumberBlank, hblank, Bool.false_and]
    | true => rw [hcs c hc hblank]; decide
  rw [readInteger?, readInteger?, htrim, trimBy_trimBy]

/-- **What is read is short.** -/
theorem isShort_of_readInteger? (h : readInteger? cs = some n) : IsShort n := by
  have hsign : ∀ ds, (splitSign ds).1.natAbs = 1 := by
    intro ds
    unfold splitSign
    split <;> rfl
  unfold readInteger? at h
  revert h
  dsimp only
  split
  · simp
  · next ds _ =>
    split_ifs with hlen
    · simp
    · intro h
      have hvalue : n.natAbs = digitsValue ds := by
        rw [← Option.some.inj h, Int.natAbs_mul, hsign, Nat.one_mul, Int.natAbs_natCast]
      refine (Nat.length_toDigits_le_iff (by decide) (by decide)).mpr ?_
      calc n.natAbs = digitsValue ds := hvalue
        _ < 10 ^ ds.length := digitsValue_lt ds
        _ ≤ 10 ^ maxDigits := Nat.pow_le_pow_right (by decide) (Nat.not_lt.mp hlen)

end Recurrence.Text
