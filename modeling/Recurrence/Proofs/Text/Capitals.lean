/-
Recurrence/Proofs/Text/Capitals.lean

Texts that are the same but for the case of their letters.

Only the letters of ASCII are meant: two texts are the same but for case if they become equal once
these letters are in capitals.  Such texts have the same blanks, digits and separators at the same
places, and putting them in capitals by the full rule gives the same text.
-/
import Mathlib.Data.List.Forall2
import Recurrence.Text.Number
import Recurrence.Text.Upper

namespace Recurrence.Text

variable {c d : Char} {cs ds : Chars}

/-- Whether two texts are equal up to the case of ASCII letters. -/
def SameButCase (cs ds : Chars) : Prop := cs.map Char.toUpper = ds.map Char.toUpper

instance (cs ds : Chars) : Decidable (SameButCase cs ds) := by unfold SameButCase; infer_instance

theorem SameButCase.refl (cs : Chars) : SameButCase cs cs := rfl

/-! ### Letters -/

theorem toNat_toUpper :
    c.toUpper.toNat = if 97 ≤ c.toNat ∧ c.toNat ≤ 122 then c.toNat - 32 else c.toNat := by
  have hlower : ('a'.val ≤ c.val ∧ c.val ≤ 'z'.val) ↔ 97 ≤ c.toNat ∧ c.toNat ≤ 122 := Iff.rfl
  unfold Char.toUpper
  split
  · next h =>
    rw [if_pos (hlower.mp h)]
    show (c.val + ('A'.val - 'a'.val)).toNat = c.val.toNat - 32
    have h97 : 97 ≤ c.val.toNat := h.1
    have h122 : c.val.toNat ≤ 122 := h.2
    rw [UInt32.toNat_add, show ('A'.val - 'a'.val).toNat = 2 ^ 32 - 32 from rfl]
    omega
  · next h => rw [if_neg (mt hlower.mpr h)]

theorem isUpper_iff : c.isUpper = true ↔ 65 ≤ c.toNat ∧ c.toNat ≤ 90 := decide_eq_true_iff

theorem isLower_iff : c.isLower = true ↔ 97 ≤ c.toNat ∧ c.toNat ≤ 122 :=
  Bool.and_eq_true_iff.trans (and_congr decide_eq_true_iff decide_eq_true_iff)

theorem isAlpha_iff :
    c.isAlpha = true ↔ (65 ≤ c.toNat ∧ c.toNat ≤ 90) ∨ (97 ≤ c.toNat ∧ c.toNat ≤ 122) :=
  Bool.or_eq_true_iff.trans (or_congr isUpper_iff isLower_iff)

/-- What is no letter has no other case. -/
theorem eq_of_toUpper_eq (h : c.toUpper = d.toUpper) (hc : c.isAlpha = false) : d = c := by
  have hnat := congrArg Char.toNat h
  have hc' : ¬ c.isAlpha = true := by simp [hc]
  rw [isAlpha_iff] at hc'
  rw [toNat_toUpper, toNat_toUpper] at hnat
  refine Char.toNat_inj.mp ?_
  split_ifs at hnat <;> omega

theorem upperChar_eq_of_toUpper_eq (h : c.toUpper = d.toUpper) : upperChar c = upperChar d := by
  have hnat := congrArg Char.toNat h
  rw [toNat_toUpper, toNat_toUpper] at hnat
  unfold upperChar
  by_cases hc : c.toNat < 0x80
  · have hd : d.toNat < 0x80 := by split_ifs at hnat <;> omega
    rw [if_pos hc, if_pos hd, h]
  · have hd : d = c := eq_of_toUpper_eq h (by rw [← Bool.not_eq_true, isAlpha_iff]; omega)
    rw [hd]

theorem isAlpha_of_isBlank (hc : isBlank c = true) : c.isAlpha = false := by
  have hcodes : ∀ n ∈ blankCodes, ¬((65 ≤ n ∧ n ≤ 90) ∨ (97 ≤ n ∧ n ≤ 122)) := by decide
  rw [← Bool.not_eq_true, isAlpha_iff]
  exact hcodes c.toNat (by simpa [isBlank] using hc)

namespace SameButCase

/-- What is no letter stands in both texts or in none. -/
theorem mem_iff (h : SameButCase cs ds) (hc : c.isAlpha = false) : c ∈ cs ↔ c ∈ ds := by
  have key : ∀ {cs ds : Chars}, SameButCase cs ds → c ∈ cs → c ∈ ds := by
    intro cs ds h hmem
    obtain ⟨d, hd, heq⟩ := List.mem_map.mp (h ▸ List.mem_map_of_mem (f := Char.toUpper) hmem)
    exact eq_of_toUpper_eq heq.symm hc ▸ hd
  exact ⟨key h, key h.symm⟩

theorem forall₂ (h : SameButCase cs ds) :
    List.Forall₂ (fun c d => c.toUpper = d.toUpper) cs ds := by
  have heq : List.Forall₂ Eq (cs.map Char.toUpper) (ds.map Char.toUpper) := by
    rwa [List.forall₂_eq_eq_eq]
  exact List.forall₂_map_right_iff.mp (List.forall₂_map_left_iff.mp heq)

/-- Both texts are the same in capitals. -/
theorem upper_eq (h : SameButCase cs ds) : upper cs = upper ds := by
  have hpairs := h.forall₂
  clear h
  induction hpairs with
  | nil => rfl
  | cons hcd _ ih =>
    rw [upper, upper, List.flatMap_cons, List.flatMap_cons, upperChar_eq_of_toUpper_eq hcd]
    exact congrArg _ ih

/-- A text without letters has no other spelling. -/
theorem eq_of_no_letter (h : SameButCase cs ds) (hcs : ∀ c ∈ cs, c.isAlpha = false) : ds = cs := by
  have hpairs := h.forall₂
  clear h
  induction hpairs with
  | nil => rfl
  | cons hcd _ ih =>
    obtain ⟨hc, hcs⟩ := List.forall_mem_cons.mp hcs
    rw [eq_of_toUpper_eq hcd hc, ih hcs]

end SameButCase

/-! ### Texts in capitals -/

theorem upper_append : upper (cs ++ ds) = upper cs ++ upper ds := List.flatMap_append

/-- Texts without small letters are in capitals already. -/
theorem upper_eq_self (hcs : ∀ c ∈ cs, c.toNat < 97) : upper cs = cs := by
  induction cs with
  | nil => rfl
  | cons c cs ih =>
    obtain ⟨hc, hcs⟩ := List.forall_mem_cons.mp hcs
    have hupper : c.toUpper = c := Char.toNat_inj.mp (by rw [toNat_toUpper, if_neg (by omega)])
    rw [upper, List.flatMap_cons, upperChar, if_pos (by omega), hupper]
    exact congrArg (c :: ·) (ih hcs)

end Recurrence.Text
