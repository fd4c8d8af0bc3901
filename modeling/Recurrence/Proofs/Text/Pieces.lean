/-
Recurrence/Proofs/Text/Pieces.lean

Texts that are cut and trimmed.

Trimming takes a run of blanks from either end, so it does not see what is put around a text as
long as that is blank.  Cutting at a separator undoes putting together with it if no piece has it.
The readers do both, the whole text first and its pieces afterwards; as no separator is blank, the
first trimming may as well be left out.
-/
import Mathlib.Data.List.Basic
import Mathlib.Data.List.TakeWhile
import Recurrence.Text.Blank

namespace Recurrence.Text

variable {p q : Char → Bool} {sep : Char} {cs ds l r name value : Chars} {ps : List Chars}

/-! ### Trimming -/

theorem trimBy_append_left (hl : ∀ c ∈ l, p c = true) : trimBy p (l ++ cs) = trimBy p cs := by
  rw [trimBy, List.dropWhile_append_of_pos hl, trimBy]

theorem trimBy_append_right (hr : ∀ c ∈ r, p c = true) : trimBy p (cs ++ r) = trimBy p cs := by
  unfold trimBy
  rw [List.dropWhile_append]
  split
  · next h => rw [List.isEmpty_iff.mp h, List.dropWhile_eq_nil_iff.mpr hr]
  · rw [List.reverse_append, List.dropWhile_append_of_pos (by simpa using hr)]

/-- What trimming takes away is a run of its class at either end. -/
theorem exists_eq_append_trimBy (p : Char → Bool) (cs : Chars) :
    ∃ l r, (∀ c ∈ l, p c = true) ∧ (∀ c ∈ r, p c = true) ∧ cs = l ++ trimBy p cs ++ r := by
  refine ⟨cs.takeWhile p, ((cs.dropWhile p).reverse.takeWhile p).reverse,
    fun c hc => List.mem_takeWhile_imp hc,
    fun c hc => List.mem_takeWhile_imp (List.mem_reverse.mp hc), ?_⟩
  rw [trimBy, List.append_assoc, ← List.reverse_append, List.takeWhile_append_dropWhile,
    List.reverse_reverse, List.takeWhile_append_dropWhile]

@[simp] theorem trimBy_trimBy : trimBy p (trimBy p cs) = trimBy p cs := by
  obtain ⟨l, r, hl, hr, hcs⟩ := exists_eq_append_trimBy p cs
  conv_rhs => rw [hcs, trimBy_append_right hr, trimBy_append_left hl]

theorem trimBy_eq_nil_iff : trimBy p cs = [] ↔ ∀ c ∈ cs, p c = true := by
  obtain ⟨l, r, hl, hr, hcs⟩ := exists_eq_append_trimBy p cs
  constructor
  · intro h c hc
    rw [hcs, h, List.append_nil, List.mem_append] at hc
    exact hc.elim (hl c) (hr c)
  · intro h
    rw [trimBy, List.dropWhile_eq_nil_iff.mpr h]
    rfl

theorem dropWhile_eq_self (hcs : ∀ c ∈ cs, p c = false) : cs.dropWhile p = cs := by
  cases cs with
  | nil => rfl
  | cons c cs => exact List.dropWhile_cons_of_neg (by simp [hcs c List.mem_cons_self])

/-- A text without characters of the class stays as it is. -/
theorem trimBy_eq_self (hcs : ∀ c ∈ cs, p c = false) : trimBy p cs = cs := by
  rw [trimBy, dropWhile_eq_self hcs,
    dropWhile_eq_self fun c hc => hcs c (List.mem_reverse.mp hc), List.reverse_reverse]

/-- A text that trimming leaves alone has nothing to take away at either end. -/
theorem dropWhile_of_trimBy_eq_self (h : trimBy p ds = ds) :
    ds.dropWhile p = ds ∧ ds.reverse.dropWhile p = ds.reverse := by
  have hlast : ((ds.dropWhile p).reverse.dropWhile p).length ≤ (ds.dropWhile p).length := by
    simpa using ((ds.dropWhile p).reverse.dropWhile_suffix p).length_le
  have hlen : ((ds.dropWhile p).reverse.dropWhile p).length = ds.length := by
    rw [← List.length_reverse, ← trimBy, h]
  have hdrop : ds.dropWhile p = ds := (ds.dropWhile_suffix p).eq_of_length_le (hlen ▸ hlast)
  rw [trimBy, hdrop, List.reverse_eq_iff] at h
  exact ⟨hdrop, h⟩

/-- Behind a trimmed text only the end of what follows is taken away. -/
theorem exists_trimBy_append (hds : trimBy p ds = ds) (hne : ds ≠ []) (cs : Chars) :
    ∃ kept r, (∀ c ∈ r, p c = true) ∧ cs = kept ++ r ∧ trimBy p (ds ++ cs) = ds ++ kept := by
  obtain ⟨hfirst, hlast⟩ := dropWhile_of_trimBy_eq_self hds
  refine ⟨(cs.reverse.dropWhile p).reverse, (cs.reverse.takeWhile p).reverse,
    fun c hc => List.mem_takeWhile_imp (List.mem_reverse.mp hc), ?_, ?_⟩
  · rw [← List.reverse_append, List.takeWhile_append_dropWhile, List.reverse_reverse]
  · have hhead : (ds ++ cs).dropWhile p = ds ++ cs := by
      rw [List.dropWhile_append, hfirst, if_neg (by simpa using hne)]
    have hend : (cs.reverse ++ ds.reverse).dropWhile p = cs.reverse.dropWhile p ++ ds.reverse := by
      rw [List.dropWhile_append]
      split
      · next h => rw [List.isEmpty_iff.mp h, List.nil_append, hlast]
      · rfl
    rw [trimBy, hhead, List.reverse_append, hend, List.reverse_append, List.reverse_reverse]

/-- Around a character that stays, trimming takes from the left of what is before it and from the
right of what is behind it. -/
theorem exists_trim_append_cons (hsep : isBlank sep = false) (l r : Chars) :
    ∃ bl l' r' br, (∀ c ∈ bl, isBlank c = true) ∧ (∀ c ∈ br, isBlank c = true) ∧ l = bl ++ l' ∧
      r = r' ++ br ∧ trim (l ++ sep :: r) = l' ++ sep :: r' := by
  refine ⟨l.takeWhile isBlank, l.dropWhile isBlank, (r.reverse.dropWhile isBlank).reverse,
    (r.reverse.takeWhile isBlank).reverse, fun c hc => List.mem_takeWhile_imp hc,
    fun c hc => List.mem_takeWhile_imp (List.mem_reverse.mp hc),
    List.takeWhile_append_dropWhile.symm, ?_, ?_⟩
  · rw [← List.reverse_append, List.takeWhile_append_dropWhile, List.reverse_reverse]
  · have hstop : ∀ xs ys : Chars, (xs ++ sep :: ys).dropWhile isBlank =
        xs.dropWhile isBlank ++ sep :: ys := by
      intro xs ys
      rw [List.dropWhile_append]
      split
      · next h =>
        rw [List.isEmpty_iff.mp h, List.nil_append, List.dropWhile_cons_of_neg (by simp [hsep])]
      · rfl
    rw [trim, trimBy, hstop, List.reverse_append, List.reverse_cons, List.append_assoc,
      List.singleton_append, hstop, List.reverse_append, List.reverse_cons, List.reverse_reverse,
      List.append_assoc, List.singleton_append]

theorem trimBy_congr (h : ∀ c ∈ cs, p c = q c) : trimBy p cs = trimBy q cs := by
  have hdrop : ∀ ds : Chars, (∀ c ∈ ds, p c = q c) → ds.dropWhile p = ds.dropWhile q := by
    intro ds hds
    induction ds with
    | nil => rfl
    | cons c ds ih =>
      obtain ⟨hc, hds⟩ := List.forall_mem_cons.mp hds
      rw [List.dropWhile_cons, List.dropWhile_cons, hc, ih hds]
  rw [trimBy, trimBy, hdrop cs h, hdrop]
  intro c hc
  exact h c ((List.dropWhile_suffix q).mem (List.mem_reverse.mp hc))

@[simp] theorem trim_trim : trim (trim cs) = trim cs := trimBy_trimBy

theorem isBlank_space : isBlank ' ' = true := by decide

/-- Spaces around a text are blanks around it. -/
theorem trim_spaces (k n : Nat) :
    trim (List.replicate k ' ' ++ cs ++ List.replicate n ' ') = trim cs := by
  have hspace : ∀ k, ∀ c ∈ List.replicate k ' ', isBlank c = true := by
    rintro k c hc
    rw [List.eq_of_mem_replicate hc, isBlank_space]
  rw [trim, trimBy_append_right (hspace n), trimBy_append_left (hspace k), trim]

/-! ### Cutting at a separator -/

theorem cut_append (h : sep ∉ name) : cut sep (name ++ sep :: value) = (name, some value) := by
  induction name with
  | nil => simp [cut]
  | cons c name ih =>
    obtain ⟨hc, hname⟩ := not_or.mp (mt List.mem_cons.mpr h)
    simp [cut, Ne.symm hc, ih hname]

theorem cut_eq_some_iff :
    cut sep cs = (name, some value) ↔ cs = name ++ sep :: value ∧ sep ∉ name := by
  refine ⟨fun h => ?_, fun h => h.1 ▸ cut_append h.2⟩
  induction cs generalizing name with
  | nil => simp [cut] at h
  | cons c cs ih =>
    simp only [cut] at h
    split_ifs at h with hc
    · obtain ⟨rfl, hrest⟩ := Prod.mk.inj h
      exact ⟨by rw [hc, Option.some.inj hrest, List.nil_append], List.not_mem_nil⟩
    · obtain ⟨rfl, hrest⟩ := Prod.mk.inj h
      obtain ⟨hcs, hsep⟩ := ih (Prod.ext rfl hrest)
      exact ⟨congrArg (c :: ·) hcs, by simp [hsep, Ne.symm hc]⟩

/-- Blanks before a text are blanks before what is cut off it first. -/
theorem cut_append_left (hl : sep ∉ l) (cs : Chars) :
    (cut sep (l ++ cs)).1 = l ++ (cut sep cs).1 := by
  induction l with
  | nil => rfl
  | cons c l ih =>
    obtain ⟨hc, hl⟩ := not_or.mp (mt List.mem_cons.mpr hl)
    simp [cut, Ne.symm hc, ih hl]

theorem afterStart?_isSome_iff : (afterStart? ds cs).isSome = true ↔ ds <+: cs := by
  induction ds generalizing cs with
  | nil => simp [afterStart?]
  | cons d ds ih =>
    cases cs with
    | nil => simp [afterStart?]
    | cons c cs =>
      rw [afterStart?, List.cons_prefix_cons]
      split_ifs with hdc
      · simp [hdc, ih]
      · simp [hdc]

/-! ### Pieces -/

theorem pieces_ne_nil : pieces sep cs ≠ [] := by
  cases cs with
  | nil => simp [pieces]
  | cons c cs =>
    rw [pieces]
    split
    · simp
    · split <;> simp

@[simp] theorem pieces_cons_self : pieces sep (sep :: cs) = [] :: pieces sep cs := by
  cases h : pieces sep cs with
  | nil => exact absurd h pieces_ne_nil
  | cons first rest => simp [pieces, h]

theorem pieces_cons_of_ne {c : Char} (hc : c ≠ sep) :
    pieces sep (c :: cs) = (pieces sep cs).modifyHead (c :: ·) := by
  cases h : pieces sep cs with
  | nil => exact absurd h pieces_ne_nil
  | cons first rest => simp [pieces, h, hc]

/-- A list that is put together from two is cut into the pieces of both. -/
theorem pieces_append_cons (sep : Char) (cs ds : Chars) :
    pieces sep (cs ++ sep :: ds) = pieces sep cs ++ pieces sep ds := by
  induction cs with
  | nil => simp [pieces]
  | cons c cs ih =>
    by_cases hc : c = sep
    · rw [hc, List.cons_append, pieces_cons_self, pieces_cons_self, ih, List.cons_append]
    · rw [List.cons_append, pieces_cons_of_ne hc, pieces_cons_of_ne hc, ih]
      cases h : pieces sep cs with
      | nil => exact absurd h pieces_ne_nil
      | cons first rest => rfl

theorem pieces_eq_splitOn : pieces sep cs = cs.splitOn sep := by
  induction cs with
  | nil => rfl
  | cons c cs ih =>
    rw [List.splitOn, List.splitOnP_cons_eq_if_modifyHead]
    by_cases hc : c = sep
    · simp [hc, ih, List.splitOn]
    · simp [pieces_cons_of_ne hc, hc, ih, List.splitOn]

/-- **Cutting undoes putting together**, if no piece has the separator. -/
theorem pieces_joined (hps : ∀ p ∈ ps, sep ∉ p) (hne : ps ≠ []) :
    pieces sep (joined [sep] ps) = ps :=
  pieces_eq_splitOn.trans (List.splitOn_intercalate sep hps hne)

theorem joined_pieces (sep : Char) (cs : Chars) : joined [sep] (pieces sep cs) = cs := by
  rw [pieces_eq_splitOn]
  exact List.intercalate_splitOn sep

theorem joined_cons_cons {p p' : Chars} :
    joined ds (p :: p' :: ps) = p ++ ds ++ joined ds (p' :: ps) := by
  simp [joined]

theorem mem_joined_of_mem {p : Chars} (hp : p ∈ ps) {c : Char} (hc : c ∈ p) : c ∈ joined ds ps := by
  induction ps with
  | nil => cases hp
  | cons p' ps ih =>
    cases ps with
    | nil => simpa [joined, List.mem_singleton.mp hp] using hc
    | cons p'' ps =>
      rw [joined_cons_cons, List.mem_append]
      obtain rfl | hp := List.mem_cons.mp hp
      · exact .inl (List.mem_append_left _ hc)
      · exact .inr (ih hp)

theorem mem_of_mem_joined {c : Char} (hc : c ∈ joined ds ps) : c ∈ ds ∨ ∃ p ∈ ps, c ∈ p := by
  induction ps with
  | nil => simp [joined] at hc
  | cons p ps ih =>
    cases ps with
    | nil => exact .inr ⟨p, List.mem_singleton_self p, by simpa [joined] using hc⟩
    | cons p' ps =>
      rw [joined_cons_cons, List.mem_append, List.mem_append] at hc
      obtain (hc | hc) | hc := hc
      · exact .inr ⟨p, List.mem_cons_self, hc⟩
      · exact .inl hc
      · obtain hc | ⟨q, hq, hc⟩ := ih hc
        · exact .inl hc
        · exact .inr ⟨q, List.mem_cons_of_mem p hq, hc⟩

theorem mem_of_mem_pieces {p : Chars} (hp : p ∈ pieces sep cs) {c : Char} (hc : c ∈ p) : c ∈ cs :=
  joined_pieces sep cs ▸ mem_joined_of_mem hp hc

/-- What follows the first piece begins with the separator, if anything does. -/
theorem exists_joined_cons (sep : Char) (p : Chars) (ps : List Chars) : ∃ tail,
    joined [sep] (p :: ps) = p ++ tail ∧ (tail = [] ∨ ∃ rest, tail = sep :: rest) := by
  cases ps with
  | nil => exact ⟨[], by simp [joined], .inl rfl⟩
  | cons p' ps =>
    exact ⟨sep :: joined [sep] (p' :: ps), by rw [joined_cons_cons]; simp, .inr ⟨_, rfl⟩⟩

/-- What is put before a text is put before its first piece. -/
theorem pieces_append_left (hl : sep ∉ l) (cs : Chars) :
    pieces sep (l ++ cs) = (pieces sep cs).modifyHead (l ++ ·) := by
  induction l with
  | nil => cases h : pieces sep cs <;> simp [h]
  | cons c l ih =>
    obtain ⟨hc, hl⟩ := not_or.mp (mt List.mem_cons.mpr hl)
    rw [List.cons_append, pieces_cons_of_ne (Ne.symm hc), ih hl]
    cases pieces sep cs <;> simp

/-- What is put after a text is put after its last piece. -/
theorem pieces_append_right (hr : sep ∉ r) (cs : Chars) : ∃ init last,
    pieces sep cs = init ++ [last] ∧ pieces sep (cs ++ r) = init ++ [last ++ r] := by
  induction cs with
  | nil =>
    have := pieces_append_left hr []
    exact ⟨[], [], rfl, by simpa [pieces] using this⟩
  | cons c cs ih =>
    obtain ⟨init, last, hcs, hcsr⟩ := ih
    by_cases hc : c = sep
    · subst hc
      exact ⟨[] :: init, last, by simp [hcs], by simp [hcsr]⟩
    · rw [List.cons_append, pieces_cons_of_ne hc, pieces_cons_of_ne hc, hcs, hcsr]
      cases init with
      | nil => exact ⟨[], c :: last, rfl, rfl⟩
      | cons first init => exact ⟨(c :: first) :: init, last, rfl, rfl⟩

/-! ### Pieces of trimmed texts -/

theorem map_trim_pieces_append_left (hl : ∀ c ∈ l, isBlank c = true) (hsep : isBlank sep = false) :
    (pieces sep (l ++ cs)).map trim = (pieces sep cs).map trim := by
  rw [pieces_append_left (fun h => by simp [hl sep h] at hsep) cs]
  cases pieces sep cs with
  | nil => rfl
  | cons first rest => exact congrArg (· :: rest.map trim) (trimBy_append_left hl)

theorem map_trim_pieces_append_right (hr : ∀ c ∈ r, isBlank c = true) (hsep : isBlank sep = false) :
    (pieces sep (cs ++ r)).map trim = (pieces sep cs).map trim := by
  have hmem : sep ∉ r := fun h => by simp [hr sep h] at hsep
  obtain ⟨init, last, hcs, hcsr⟩ := pieces_append_right hmem cs
  have hlast : trim (last ++ r) = trim last := trimBy_append_right hr
  rw [hcs, hcsr, List.map_append, List.map_append, List.map_singleton, List.map_singleton, hlast]

/-- **Trimming a whole text** changes its pieces only by blanks around them. -/
theorem map_trim_pieces_trim (hsep : isBlank sep = false) (cs : Chars) :
    (pieces sep (trim cs)).map trim = (pieces sep cs).map trim := by
  obtain ⟨l, r, hl, hr, hcs⟩ := exists_eq_append_trimBy isBlank cs
  conv_rhs => rw [hcs, map_trim_pieces_append_right hr hsep, map_trim_pieces_append_left hl hsep]
  rfl

end Recurrence.Text
