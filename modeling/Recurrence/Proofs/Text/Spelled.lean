/-
Recurrence/Proofs/Text/Spelled.lean

Words and the ways to spell them.

Rules are written in words of capitals, digits and minus signs.  A word may be spelled with letters
of either case and with spaces around it, and so may each of several words with commas between them.
A reader that trims such a text and puts it in capitals is back at the word.
-/
import Recurrence.Proofs.Outcomes
import Recurrence.Proofs.Text.Numbers

namespace Recurrence.Text

variable {c : Char} {cs ds value : Chars} {items items' : List Chars}

/-! ### Words -/

/-- Whether a character is a capital, a digit or the minus sign. -/
def isRuleChar (c : Char) : Bool := c.isUpper || c.isDigit || c == '-'

/-- Whether a text is a word. -/
def IsWord (cs : Chars) : Prop := cs ≠ [] ∧ ∀ c ∈ cs, isRuleChar c = true

instance (cs : Chars) : Decidable (IsWord cs) :=
  decidable_of_iff (cs ≠ [] ∧ cs.all isRuleChar = true) (by simp [IsWord])

theorem isRuleChar_iff : isRuleChar c = true ↔
    (65 ≤ c.toNat ∧ c.toNat ≤ 90) ∨ (48 ≤ c.toNat ∧ c.toNat ≤ 57) ∨ c = '-' := by
  rw [isRuleChar, Bool.or_eq_true, Bool.or_eq_true, isUpper_iff, isDigit_iff, beq_iff_eq, or_assoc]

theorem isRuleChar_of_isDigit (hc : c.isDigit = true) : isRuleChar c = true := by
  rw [isRuleChar, hc, Bool.or_true, Bool.true_or]

theorem isBlank_of_isRuleChar (hc : isRuleChar c = true) : isBlank c = false := by
  have hcodes : ∀ n ∈ blankCodes, ¬((65 ≤ n ∧ n ≤ 90) ∨ (48 ≤ n ∧ n ≤ 57) ∨ n = 45) := by decide
  rw [← Bool.not_eq_true]
  refine fun h => hcodes c.toNat (by simpa [isBlank] using h) ?_
  exact (isRuleChar_iff.mp hc).imp_right (Or.imp_right fun h => congrArg Char.toNat h)

namespace IsWord

theorem isBlank (h : IsWord cs) : ∀ c ∈ cs, isBlank c = false :=
  fun c hc => isBlank_of_isRuleChar (h.2 c hc)

theorem upper_eq (h : IsWord cs) : upper cs = cs := by
  refine upper_eq_self fun c hc => ?_
  obtain h | h | rfl := isRuleChar_iff.mp (h.2 c hc)
  · omega
  · omega
  · decide

/-- No word has a separator. -/
theorem notMem (h : IsWord cs) (hc : isRuleChar c = false) : c ∉ cs :=
  fun hmem => by simp [h.2 c hmem] at hc

theorem append (h : IsWord cs) (h' : IsWord ds) : IsWord (cs ++ ds) := by
  refine ⟨fun heq => h.1 (List.append_eq_nil_iff.mp heq).1, fun c hc => ?_⟩
  exact (List.mem_append.mp hc).elim (h.2 c) (h'.2 c)

theorem integer (n : Int) : IsWord (integer n) := by
  refine ⟨fun h => ?_, fun c hc => ?_⟩
  · obtain hn | hn := Int.lt_or_le n 0
    · simp [integer_of_neg hn] at h
    · exact digits_ne_nil (integer_of_nonneg hn ▸ h)
  · obtain rfl | hc := mem_integer hc
    · decide
    · exact isRuleChar_of_isDigit hc

end IsWord

/-! ### Spellings of a word -/

/-- Whether a text is another with letters of either case and with spaces around it. -/
def Respelled (cs ds : Chars) : Prop :=
  ∃ before after ds', SameButCase cs ds' ∧
    ds = List.replicate before ' ' ++ ds' ++ List.replicate after ' '

theorem Respelled.refl (cs : Chars) : Respelled cs cs :=
  ⟨0, 0, cs, .refl cs, by simp⟩

/-- Nothing but spaces, and letters for letters, comes into a respelled text. -/
theorem Respelled.eq_space_or_mem (h : Respelled cs ds) (hc : c.isAlpha = false) (hmem : c ∈ ds) :
    c = ' ' ∨ c ∈ cs := by
  obtain ⟨before, after, ds', hsame, rfl⟩ := h
  rw [List.mem_append, List.mem_append] at hmem
  obtain (hmem | hmem) | hmem := hmem
  · exact .inl (List.eq_of_mem_replicate hmem)
  · exact .inr ((hsame.mem_iff hc).mpr hmem)
  · exact .inl (List.eq_of_mem_replicate hmem)

/-- Whether a piece of a value spells an item: trimmed it does, and the blanks around are spaces. -/
def SpellsItem (item piece : Chars) : Prop :=
  SameButCase item (trim piece) ∧ ∀ c ∈ piece, isBlank c = true → c = ' '

/-- **A word is found by trimming** in what it is respelled as. -/
theorem Respelled.spellsItem (h : Respelled cs ds) (hcs : IsWord cs) : SpellsItem cs ds := by
  constructor
  · obtain ⟨before, after, ds', hsame, rfl⟩ := h
    have hblank : ∀ c ∈ ds', isBlank c = false := by
      intro c hc
      rw [← Bool.not_eq_true]
      intro hb
      have := hcs.isBlank c ((hsame.mem_iff (isAlpha_of_isBlank hb)).mpr hc)
      simp [hb] at this
    rwa [trim_spaces, trim, trimBy_eq_self hblank]
  · intro c hmem hb
    refine (h.eq_space_or_mem (isAlpha_of_isBlank hb) hmem).resolve_right fun hc => ?_
    simp [hcs.isBlank c hc] at hb

namespace SpellsItem

theorem upper_trim (h : SpellsItem cs ds) (hcs : IsWord cs) : upper (trim ds) = cs :=
  h.1.upper_eq.symm.trans hcs.upper_eq

theorem trim_ne_nil (h : SpellsItem cs ds) (hcs : IsWord cs) : trim ds ≠ [] :=
  fun hnil => hcs.1 (by rw [← h.upper_trim hcs, hnil]; rfl)

/-- **An integer is read** from every spelling of it, unless it is too long. -/
theorem readInteger? {n : Int} (h : SpellsItem (integer n) ds) (hn : IsShort n) :
    readInteger? ds = some n := by
  have hletters : ∀ c ∈ integer n, c.isAlpha = false := by
    intro c hc
    obtain rfl | hc := mem_integer hc
    · decide
    · exact isAlpha_of_isDigit hc
  rw [← readInteger?_trim h.2, h.1.eq_of_no_letter hletters, readInteger?_integer hn]

end SpellsItem

/-! ### Spellings of several words -/

/-- Whether a trimmed value spells items with commas between them. -/
structure SpellsItems (items : List Chars) (value : Chars) : Prop where
  pieces : List.Forall₂ SpellsItem items (pieces ',' value)
  trim_eq : trim value = value

/-- **Words are found** in what they are respelled as, once the whole of it has been trimmed. -/
theorem SpellsItems.of_respelled (hitems : ∀ item ∈ items, IsWord item) (hne : items ≠ [])
    (h : List.Forall₂ Respelled items items') : SpellsItems items (trim (joined [','] items')) := by
  have hspells : List.Forall₂ SpellsItem items items' :=
    ((List.forall₂_and_left _ _).mpr ⟨hitems, h⟩).imp fun _ _ h => h.2.spellsItem h.1
  have hcomma : ∀ item ∈ items', ',' ∉ item := by
    intro ds hds hmem
    obtain ⟨cs, hcs, hrespelled⟩ := exists_rel_of_mem h hds
    obtain hspace | hmem := hrespelled.eq_space_or_mem (by decide) hmem
    · exact absurd hspace (by decide)
    · exact (hitems cs hcs).notMem (by decide) hmem
  have hne' : items' ≠ [] := by
    rintro rfl
    exact hne (List.forall₂_nil_right_iff.mp h)
  have hspaces : ∀ piece ∈ Text.pieces ',' (trim (joined [','] items')), ∀ c ∈ piece,
      Text.isBlank c = true → c = ' ' := by
    intro piece hpiece c hc hb
    have hvalue : c ∈ joined [','] items' := by
      obtain ⟨l, r, -, -, heq⟩ := exists_eq_append_trimBy Text.isBlank (joined [','] items')
      rw [heq]
      exact List.mem_append_left r (List.mem_append_right l (mem_of_mem_pieces hpiece hc))
    obtain hc | ⟨ds, hds, hc⟩ := mem_of_mem_joined hvalue
    · rw [List.mem_singleton.mp hc] at hb
      exact absurd hb (by decide)
    · obtain ⟨cs, -, hcs⟩ := exists_rel_of_mem hspells hds
      exact hcs.2 c hc hb
  have hsame : List.Forall₂ (fun item piece => SameButCase item (trim piece)) items
      (Text.pieces ',' (trim (joined [','] items'))) := by
    have hmap := map_trim_pieces_trim (show isBlank ',' = false by decide) (joined [','] items')
    rw [pieces_joined hcomma hne'] at hmap
    rw [← List.forall₂_map_right_iff, hmap, List.forall₂_map_right_iff]
    exact hspells.imp fun _ _ h => h.1
  refine ⟨?_, trim_trim⟩
  have hflip := (List.forall₂_and_left _ _).mpr ⟨hspaces, List.Forall₂.flip hsame⟩
  exact List.Forall₂.flip (hflip.imp fun _ _ h => ⟨h.2, h.1⟩)

namespace SpellsItems

theorem items_ne_nil (h : SpellsItems items value) : items ≠ [] := by
  rintro rfl
  exact pieces_ne_nil (List.forall₂_nil_left_iff.mp h.pieces)

/-- The value of a part with one item spells that item. -/
theorem singleton (h : SpellsItems [cs] value) : SpellsItem cs value := by
  obtain ⟨piece, hspells, hpieces⟩ :
      ∃ piece, SpellsItem cs piece ∧ Text.pieces ',' value = [piece] := by
    have := h.pieces
    rw [List.forall₂_cons_left_iff] at this
    obtain ⟨piece, rest, hspells, hrest, heq⟩ := this
    exact ⟨piece, hspells, by rw [heq, List.forall₂_nil_left_iff.mp hrest]⟩
  have hvalue : value = piece := by
    rw [← joined_pieces ',' value, hpieces]
    simp [joined]
  rwa [hvalue]

theorem ne_nil (h : SpellsItems items value) (hitems : ∀ item ∈ items, IsWord item) :
    value ≠ [] := by
  rintro rfl
  obtain ⟨cs, hcs, hspells⟩ := exists_rel_of_mem h.pieces (List.mem_singleton_self [])
  exact hspells.trim_ne_nil (hitems cs hcs) rfl

/-- **The items are read** if each of them is. -/
theorem mapM_eq_ok {ε α : Type} {f : Chars → Except ε α} {write : α → Chars} {as : List α}
    (h : SpellsItems (as.map write) value)
    (hf : ∀ a ∈ as, ∀ piece, SpellsItem (write a) piece → f piece = .ok a) :
    (Text.pieces ',' value).mapM f = .ok as := by
  rw [mapM_eq_ok_iff]
  have hpieces := (List.forall₂_and_left _ _).mpr ⟨hf, List.forall₂_map_left_iff.mp h.pieces⟩
  exact List.Forall₂.flip (hpieces.imp fun _ _ h => h.1 _ h.2)

end SpellsItems

end Recurrence.Text
