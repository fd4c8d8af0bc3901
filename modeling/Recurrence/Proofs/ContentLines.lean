/-
Recurrence/Proofs/ContentLines.lean

Content lines in another order.

Every line adds to the parts of a set behind what is there already, and what it adds does not depend
on what that is (`RecurrenceSet.addLine_eq`).  So lines in another order give the same parts in
another order.  A list of dates is cut at its commas, and blanks do not matter around its items; so
it may as well be spread over several lines of the same property (`RecurrenceSet.addLine_items`).
-/
import Recurrence.Proofs.ListedDates
import Recurrence.Proofs.Rule.CanonicalForm
import Recurrence.Proofs.SetSearch
import Recurrence.Proofs.Text.Pieces

namespace Recurrence

open Text (Chars)

variable {zone : Zone} {s s' s'' t : RecurrenceSet} {p : SetProperty}
  {head items items' item value cs ds : Chars} {ls ls' : List Chars} {vs : List Value}

/-! ### Listed dates -/

theorem readListedDate_trim (zone : Zone) (item : Chars) :
    readListedDate zone (Text.trim item) = readListedDate zone item := by
  simp only [readListedDate, Value.read, Text.trim_trim]

/-- Lists with the same items, up to blanks around them, are read alike. -/
theorem readListedDates_congr
    (h : (Text.pieces ',' cs).map Text.trim = (Text.pieces ',' ds).map Text.trim) :
    readListedDates zone cs = readListedDates zone ds := by
  have htrimmed : ∀ cs, readListedDates zone cs =
      (((Text.pieces ',' cs).map Text.trim).filter fun item => item ≠ []).mapM
        (readListedDate zone) := by
    intro cs
    rw [List.filter_map, List.mapM_map]
    simp only [readListedDates, readListedDate_trim, Function.comp_def]
  rw [htrimmed, htrimmed, h]

/-- A list that is put together from two has the dates of the first before those of the second. -/
theorem readListedDates_append_eq_ok_iff :
    readListedDates zone (items ++ ',' :: items') = .ok vs ↔
      ∃ us ws, readListedDates zone items = .ok us ∧ readListedDates zone items' = .ok ws ∧
        vs = us ++ ws := by
  simp only [readListedDates, Text.pieces_append_cons, List.filter_append, mapM_append_eq_ok_iff]

/-! ### Lines -/

/-- The beginnings of lines that list dates of a property, up to the first colon. -/
structure SetProperty.Heads (p : SetProperty) (head : Chars) : Prop where
  lists : p.ListsDates
  colon : ':' ∉ head
  names : ofHead? head = some p

namespace RecurrenceSet

/-- A set with more dates of a property. -/
def addListed (s : RecurrenceSet) (p : SetProperty) (vs : List Value) : RecurrenceSet :=
  match p with
  | .dates => s.addDates vs
  | .exDates => s.addExDates vs
  | .rule | .exRule => s

/-- A line that lists dates adds the dates of its list. -/
theorem addLine_items (h : p.Heads head) :
    s.addLine (Text.trim (head ++ ':' :: items)) = .ok s' ↔
      ∃ vs, readListedDates s.zone items = .ok vs ∧ s' = s.addListed p vs := by
  obtain ⟨bl, head', items', br, hbl, hbr, rfl, rfl, htrim⟩ :=
    Text.exists_trim_append_cons (show Text.isBlank ':' = false by decide) head items
  have hcut : Text.cut ':' (head' ++ ':' :: items') = (head', some items') :=
    Text.cut_append fun hmem => h.colon (List.mem_append_right bl hmem)
  have hsemicolon : ';' ∉ bl := fun hmem => absurd (hbl _ hmem) (by decide)
  have hname : SetProperty.ofHead? head' = some p := by
    rw [← h.names, SetProperty.ofHead?, SetProperty.ofHead?, Text.cut_append_left hsemicolon,
      Text.trim, Text.trim, Text.trimBy_append_left hbl]
  have hitems : readListedDates s.zone (items' ++ br) = readListedDates s.zone items' :=
    readListedDates_congr (Text.map_trim_pieces_append_right hbr (by decide))
  rw [htrim, hitems, addLine_eq_ok_iff]
  constructor
  · rintro ⟨_, _, q, heq, hq, hadds⟩
    obtain ⟨rfl, hvalue⟩ := Prod.mk.inj (hcut.symm.trans heq)
    obtain rfl := Option.some.inj hvalue
    obtain rfl := Option.some.inj (hname.symm.trans hq)
    rcases h.lists with rfl | rfl <;> exact hadds
  · intro hadds
    refine ⟨_, _, p, hcut, hname, ?_⟩
    rcases h.lists with rfl | rfl <;> exact hadds

/-- **A list over two lines** adds the same dates as on one line. -/
theorem addLine_split {head' head'' : Chars} (h : p.Heads head) (h' : p.Heads head')
    (h'' : p.Heads head'') :
    s.addLine (Text.trim (head ++ ':' :: (items ++ ',' :: items'))) = .ok s' ↔
      ∃ s₁, s.addLine (Text.trim (head' ++ ':' :: items)) = .ok s₁ ∧
        s₁.addLine (Text.trim (head'' ++ ':' :: items')) = .ok s' := by
  have hzone : ∀ vs, (s.addListed p vs).zone = s.zone := fun vs => by cases p <;> rfl
  have happend : ∀ vs vs', (s.addListed p vs).addListed p vs' = s.addListed p (vs ++ vs') := by
    intro vs vs'
    rcases h.lists with rfl | rfl <;> simp [addListed, addDates, addExDates]
  simp only [addLine_items h, addLine_items h', addLine_items h'', readListedDates_append_eq_ok_iff]
  constructor
  · rintro ⟨_, ⟨vs, vs', hvs, hvs', rfl⟩, rfl⟩
    exact ⟨_, ⟨vs, hvs, rfl⟩, vs', by rwa [hzone], (happend vs vs').symm⟩
  · rintro ⟨_, ⟨vs, hvs, rfl⟩, vs', hvs', rfl⟩
    exact ⟨vs ++ vs', ⟨vs, vs', hvs, hzone vs ▸ hvs', rfl⟩, happend vs vs'⟩

/-! ### What lines add -/

/-- A set without parts, for the same start and zone. -/
def bare (s : RecurrenceSet) : RecurrenceSet :=
  { start := s.start, zone := s.zone, budget := s.budget }

/-- A set with the parts of another behind its own. -/
def append (s t : RecurrenceSet) : RecurrenceSet :=
  { s with
    rules := s.rules ++ t.rules
    exRules := s.exRules ++ t.exRules
    dates := s.dates ++ t.dates
    exDates := s.exDates ++ t.exDates }

/-- **What a line adds** does not depend on what is there already. -/
theorem addLine_eq_ok_iff_bare {line : Chars} :
    s.addLine line = .ok s' ↔ ∃ t, s.bare.addLine line = .ok t ∧ s' = s.append t := by
  simp only [addLine_eq_ok_iff]
  constructor
  · rintro ⟨head, value, p, hcut, hname, hadds⟩
    cases p with
    | rule | exRule =>
      obtain ⟨r, hr, rfl⟩ := hadds
      exact ⟨_, ⟨head, value, _, hcut, hname, r, hr, rfl⟩,
        by simp [addRule, addExRule, append, bare]⟩
    | dates | exDates =>
      obtain ⟨vs, hvs, rfl⟩ := hadds
      exact ⟨_, ⟨head, value, _, hcut, hname, vs, hvs, rfl⟩,
        by simp [addDates, addExDates, append, bare]⟩
  · rintro ⟨t, ⟨head, value, p, hcut, hname, hadds⟩, rfl⟩
    refine ⟨head, value, p, hcut, hname, ?_⟩
    cases p with
    | rule | exRule =>
      obtain ⟨r, hr, rfl⟩ := hadds
      exact ⟨r, hr, by simp [addRule, addExRule, append, bare]⟩
    | dates | exDates =>
      obtain ⟨vs, hvs, rfl⟩ := hadds
      exact ⟨vs, hvs, by simp [addDates, addExDates, append, bare]⟩

/-- Some lines add up what each of them adds. -/
theorem foldlM_addLine_eq_ok_iff : ls.foldlM addLine s = .ok s' ↔
    ∃ ts, List.Forall₂ (fun line t => s.bare.addLine line = .ok t) ls ts ∧
      s' = ts.foldl append s := by
  induction ls generalizing s with
  | nil =>
    simp only [List.forall₂_nil_left_iff, exists_eq_left, List.foldl_nil, List.foldlM_nil]
    exact ⟨fun h => (Except.ok.inj h).symm, fun h => h ▸ rfl⟩
  | cons line ls ih =>
    rw [List.foldlM_cons, bind_eq_ok_iff]
    constructor
    · rintro ⟨s₁, hline, hrest⟩
      obtain ⟨t, ht, rfl⟩ := addLine_eq_ok_iff_bare.mp hline
      obtain ⟨ts, hts, rfl⟩ := ih.mp hrest
      exact ⟨t :: ts, .cons ht hts, rfl⟩
    · rintro ⟨_, hall, rfl⟩
      obtain ⟨t, ts, ht, hts, rfl⟩ := List.forall₂_cons_left_iff.mp hall
      exact ⟨s.append t, addLine_eq_ok_iff_bare.mpr ⟨t, ht, rfl⟩, ih.mpr ⟨ts, hts, rfl⟩⟩

theorem foldl_append (s : RecurrenceSet) (ts : List RecurrenceSet) : ts.foldl append s =
    { s with
      rules := s.rules ++ ts.flatMap rules
      exRules := s.exRules ++ ts.flatMap exRules
      dates := s.dates ++ ts.flatMap dates
      exDates := s.exDates ++ ts.flatMap exDates } := by
  induction ts generalizing s with
  | nil => simp
  | cons t ts ih =>
    rw [List.foldl_cons, ih]
    simp [append]

/-! ### The same parts in another order -/

/-- Two sets for the same start, zone and budget that differ at most in the order of their parts. -/
structure SameParts (s s' : RecurrenceSet) : Prop where
  start : s'.start = s.start
  zone : s'.zone = s.zone
  budget : s'.budget = s.budget
  rules : s.rules.Perm s'.rules
  exRules : s.exRules.Perm s'.exRules
  dates : s.dates.Perm s'.dates
  exDates : s.exDates.Perm s'.exDates

namespace SameParts

theorem refl (s : RecurrenceSet) : SameParts s s := ⟨rfl, rfl, rfl, .rfl, .rfl, .rfl, .rfl⟩

theorem symm (h : SameParts s s') : SameParts s' s :=
  ⟨h.start.symm, h.zone.symm, h.budget.symm, h.rules.symm, h.exRules.symm, h.dates.symm,
    h.exDates.symm⟩

theorem trans (h : SameParts s s') (h' : SameParts s' s'') : SameParts s s'' :=
  ⟨h'.start.trans h.start, h'.zone.trans h.zone, h'.budget.trans h.budget,
    h.rules.trans h'.rules, h.exRules.trans h'.exRules, h.dates.trans h'.dates,
    h.exDates.trans h'.exDates⟩

end SameParts

theorem sameParts_foldl_append {ts ts' : List RecurrenceSet} (h : ts.Perm ts')
    (s : RecurrenceSet) : SameParts (ts.foldl append s) (ts'.foldl append s) := by
  rw [foldl_append, foldl_append]
  exact ⟨rfl, rfl, rfl, (h.flatMap_right _).append_left _, (h.flatMap_right _).append_left _,
    (h.flatMap_right _).append_left _, (h.flatMap_right _).append_left _⟩

/-! ### Lines that are rearranged -/

/-- Add what some lines say, with blanks around them; blank lines are skipped. -/
def readLines (s : RecurrenceSet) (ls : List Chars) : Except SeriesError RecurrenceSet :=
  ((ls.map Text.trim).filter fun line => line ≠ []).foldlM addLine s

theorem addLines_eq (s : RecurrenceSet) (text : Chars) :
    s.addLines text = s.readLines (Text.lines text) := rfl

/-- A line in front is read first, unless it is blank. -/
theorem readLines_cons_eq_ok_iff {line : Chars} (hne : Text.trim line ≠ []) :
    s.readLines (line :: ls) = .ok s' ↔
      ∃ s₁, s.addLine (Text.trim line) = .ok s₁ ∧ s₁.readLines ls = .ok s' := by
  simp only [readLines, List.map_cons]
  rw [List.filter_cons_of_pos (by simpa using hne), List.foldlM_cons, bind_eq_ok_iff]

/-- Lines that are put in another order, where a list of dates may be spread over two lines of its
property, and lists of two lines of one property may be joined. -/
inductive Rearranges : List Chars → List Chars → Prop where
  | perm {ls ls' : List Chars} (h : ls.Perm ls') : Rearranges ls ls'
  | split {p : SetProperty} {head head' head'' : Chars} (h : p.Heads head) (h' : p.Heads head')
      (h'' : p.Heads head'') (items items' : Chars) (ls : List Chars) :
      Rearranges ((head ++ ':' :: (items ++ ',' :: items')) :: ls)
        ((head' ++ ':' :: items) :: (head'' ++ ':' :: items') :: ls)
  | join {p : SetProperty} {head head' head'' : Chars} (h : p.Heads head) (h' : p.Heads head')
      (h'' : p.Heads head'') (items items' : Chars) (ls : List Chars) :
      Rearranges ((head' ++ ':' :: items) :: (head'' ++ ':' :: items') :: ls)
        ((head ++ ':' :: (items ++ ',' :: items')) :: ls)
  | trans {ls ls' ls'' : List Chars} (h : Rearranges ls ls') (h' : Rearranges ls' ls'') :
      Rearranges ls ls''

theorem trim_items_ne_nil (head items : Chars) : Text.trim (head ++ ':' :: items) ≠ [] := by
  obtain ⟨bl, head', items', br, -, -, -, -, htrim⟩ :=
    Text.exists_trim_append_cons (show Text.isBlank ':' = false by decide) head items
  rw [htrim]
  simp

/-- A list over two lines is read as on one line. -/
theorem readLines_split {head' head'' : Chars} (h : p.Heads head) (h' : p.Heads head')
    (h'' : p.Heads head'') :
    s.readLines ((head ++ ':' :: (items ++ ',' :: items')) :: ls) = .ok s' ↔
      s.readLines ((head' ++ ':' :: items) :: (head'' ++ ':' :: items') :: ls) = .ok s' := by
  simp only [readLines_cons_eq_ok_iff (trim_items_ne_nil _ _), addLine_split h h' h'']
  constructor
  · rintro ⟨s₂, ⟨s₁, h₁, h₂⟩, hrest⟩
    exact ⟨s₁, h₁, s₂, h₂, hrest⟩
  · rintro ⟨s₁, h₁, s₂, h₂, hrest⟩
    exact ⟨s₂, ⟨s₁, h₁, h₂⟩, hrest⟩

/-- **Rearranged lines** are read as well, as a set with the same parts in another order. -/
theorem Rearranges.exists_readLines (h : Rearranges ls ls') (hread : s.readLines ls = .ok s') :
    ∃ s'', s.readLines ls' = .ok s'' ∧ SameParts s' s'' := by
  induction h generalizing s' with
  | perm h =>
    obtain ⟨ts, hts, rfl⟩ := foldlM_addLine_eq_ok_iff.mp hread
    obtain ⟨ts', hts', hperm⟩ := List.perm_comp_forall₂ ((h.map _).filter _).symm hts
    exact ⟨_, foldlM_addLine_eq_ok_iff.mpr ⟨ts', hts', rfl⟩, sameParts_foldl_append hperm.symm s⟩
  | split h h' h'' => exact ⟨s', (readLines_split h h' h'').mp hread, .refl s'⟩
  | join h h' h'' => exact ⟨s', (readLines_split h h' h'').mpr hread, .refl s'⟩
  | trans _ _ ih ih' =>
    obtain ⟨s₁, hread₁, h₁⟩ := ih hread
    obtain ⟨s₂, hread₂, h₂⟩ := ih' hread₁
    exact ⟨s₂, hread₂, h₁.trans h₂⟩

/-! ### What accepted lines say -/

/-- A line adds valid rules and dates with real fields. -/
theorem valid_of_addLine {line : Chars} (hreal : s.start.IsReal)
    (h : s.bare.addLine line = .ok t) : t.Valid := by
  have hbare : s.bare.Valid :=
    ⟨hreal, by simp [bare], by simp [bare], by simp [bare], by simp [bare]⟩
  have hrule : ∀ {r value}, readLineRule value = .ok r → r.Valid := fun hr =>
    (Rule.expressible_of_parse (mapError_eq_ok_iff.mp hr)).valid
  have hdates : ∀ {vs value}, readListedDates s.zone value = .ok vs → ∀ v ∈ vs, v.IsReal := by
    intro vs value hvs v hv
    obtain ⟨item, -, hitem⟩ := (mem_iff_of_mapM hvs).mp hv
    exact isReal_of_readListedDate hitem
  obtain ⟨head, value, p, -, -, hadds⟩ := addLine_eq_ok_iff.mp h
  cases p with
  | rule =>
    obtain ⟨r, hr, rfl⟩ := hadds
    exact { hbare with rules := by simpa [addRule, bare] using hrule hr }
  | exRule =>
    obtain ⟨r, hr, rfl⟩ := hadds
    exact { hbare with exRules := by simpa [addExRule, bare] using hrule hr }
  | dates =>
    obtain ⟨vs, hvs, rfl⟩ := hadds
    exact { hbare with dates := by simpa [addDates, bare] using hdates hvs }
  | exDates =>
    obtain ⟨vs, hvs, rfl⟩ := hadds
    exact { hbare with exDates := by simpa [addExDates, bare] using hdates hvs }

/-- A set that is read has valid rules and dates with real fields, if it had before. -/
theorem Valid.readLines (hs : s.Valid) (h : s.readLines ls = .ok s') : s'.Valid := by
  obtain ⟨ts, hts, rfl⟩ := foldlM_addLine_eq_ok_iff.mp h
  have hall : ∀ t ∈ ts, t.Valid := by
    intro t ht
    obtain ⟨line, -, hline⟩ := exists_rel_of_mem hts ht
    exact valid_of_addLine hs.start hline
  rw [foldl_append]
  refine ⟨hs.start, ?_, ?_, ?_, ?_⟩
  all_goals
    simp only [List.forall_mem_append, List.forall_mem_flatMap]
  · exact ⟨hs.rules, fun t ht => (hall t ht).rules⟩
  · exact ⟨hs.exRules, fun t ht => (hall t ht).exRules⟩
  · exact ⟨hs.dates, fun t ht => (hall t ht).dates⟩
  · exact ⟨hs.exDates, fun t ht => (hall t ht).exDates⟩

end RecurrenceSet

end Recurrence
