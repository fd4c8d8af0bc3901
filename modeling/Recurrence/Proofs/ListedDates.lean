/-
Recurrence/Proofs/ListedDates.lean

Dates that a text lists in UTC.

A set keeps its dates in wall-clock time.  A date that is written in UTC is turned into it when the
text is read, and turned back when a cursor over the set begins.  What the cursor has is thus the
first UTC value at which the clocks of the zone show what they show at the written one
(`listed_in_utc`).  This is the written value, but for those that lie in the second pass of an
overlap: they are moved to the first pass (`listed_in_utc_moves`).
-/
import Recurrence.Proofs.Calendar.Overlaps
import Recurrence.Proofs.Cursor.Members
import Recurrence.Proofs.Outcomes
import Recurrence.Proofs.Rule.Items
import Recurrence.Set.Lines

namespace Recurrence

open Text (Chars)

variable {zone : Zone} {start v u : Value} {budget : Int} {s s' : RecurrenceSet} {p : SetProperty}
  {line text item : Chars} {vs us : List Value}

/-! ### Lines -/

namespace SetProperty

/-- Whether a property lists dates. -/
def ListsDates (p : SetProperty) : Prop := p = .dates ∨ p = .exDates

/-- The property that the beginning of a line names, up to its first colon. -/
def ofHead? (head : Chars) : Option SetProperty :=
  ofName? (String.ofList (Text.upper (Text.trim (Text.cut ';' head).1)))

/-- What the value of a line adds to a set under a property. -/
def Adds (p : SetProperty) (s : RecurrenceSet) (value : Chars) (s' : RecurrenceSet) : Prop :=
  match p with
  | .rule => ∃ r, readLineRule value = .ok r ∧ s' = s.addRule r
  | .exRule => ∃ r, readLineRule value = .ok r ∧ s' = s.addExRule r
  | .dates => ∃ vs, readListedDates s.zone value = .ok vs ∧ s' = s.addDates vs
  | .exDates => ∃ vs, readListedDates s.zone value = .ok vs ∧ s' = s.addExDates vs

end SetProperty

/-- **A line is read** if it names a property and its value is one for it. -/
theorem RecurrenceSet.addLine_eq_ok_iff : s.addLine line = .ok s' ↔ ∃ head value p,
    Text.cut ':' line = (head, some value) ∧ SetProperty.ofHead? head = some p ∧
      p.Adds s value s' := by
  unfold addLine
  cases hcut : Text.cut ':' line with
  | mk head value =>
    cases value with
    | none => simp
    | some value =>
      dsimp only
      have hread : ∀ {α : Type} {x : Except SeriesError α} {f : α → RecurrenceSet},
          f <$> x = .ok s' ↔ ∃ a, x = .ok a ∧ s' = f a := fun {α x f} =>
        map_eq_ok_iff.trans (exists_congr fun a => and_congr_right fun _ => eq_comm)
      have hofHead : SetProperty.ofHead? head =
          SetProperty.ofName? (String.ofList (Text.upper (Text.trim (Text.cut ';' head).1))) := rfl
      cases hname : SetProperty.ofName? (String.ofList (Text.upper (Text.trim (Text.cut ';' head).1))) with
      | none => simp [hofHead, hname]
      | some p => cases p <;> simp [hofHead, hname, hread, SetProperty.Adds]

/-! ### Items of a text -/

namespace RecurrenceSet

/-- The dates of a set that belong to a property. -/
def listed (s : RecurrenceSet) : SetProperty → List Value
  | .dates => s.dates
  | .exDates => s.exDates
  | .rule | .exRule => []

/-- The items that a line lists under a property. -/
def itemsOfLine (p : SetProperty) (line : Chars) : List Chars :=
  match Text.cut ':' line with
  | (_, none) => []
  | (head, some value) =>
    if SetProperty.ofName? (String.ofList (Text.upper (Text.trim (Text.cut ';' head).1))) = some p then
      (Text.pieces ',' value).filter fun item => Text.trim item ≠ []
    else []

/-- The items that the lines of a text list under a property. -/
def itemsOf (p : SetProperty) (text : Chars) : List Chars :=
  (((Text.lines text).map Text.trim).filter fun line => line ≠ []).flatMap (itemsOfLine p)

/-- The dates of a line are those that its items write. -/
theorem addLine_listed (hp : p.ListsDates) (h : s.addLine line = .ok s') : s'.zone = s.zone ∧
    ∃ vs, (itemsOfLine p line).mapM (readListedDate s.zone) = .ok vs ∧
      s'.listed p = s.listed p ++ vs := by
  obtain ⟨head, value, q, hcut, hname, hadds⟩ := addLine_eq_ok_iff.mp h
  have hitems : itemsOfLine p line =
      if SetProperty.ofHead? head = some p then
        (Text.pieces ',' value).filter fun item => Text.trim item ≠ []
      else [] := by
    simp only [itemsOfLine, hcut]
    rfl
  rw [hitems, hname]
  -- a line adds to its own property alone
  cases q with
  | rule =>
    obtain ⟨r, -, rfl⟩ := hadds
    rcases hp with rfl | rfl <;> exact ⟨rfl, [], rfl, (List.append_nil _).symm⟩
  | exRule =>
    obtain ⟨r, -, rfl⟩ := hadds
    rcases hp with rfl | rfl <;> exact ⟨rfl, [], rfl, (List.append_nil _).symm⟩
  | dates =>
    obtain ⟨vs, hvs, rfl⟩ := hadds
    rcases hp with rfl | rfl
    · exact ⟨rfl, vs, hvs, rfl⟩
    · exact ⟨rfl, [], rfl, (List.append_nil _).symm⟩
  | exDates =>
    obtain ⟨vs, hvs, rfl⟩ := hadds
    rcases hp with rfl | rfl
    · exact ⟨rfl, [], rfl, (List.append_nil _).symm⟩
    · exact ⟨rfl, vs, hvs, rfl⟩

/-- **The dates of a set** that is read from a text are those that the items of the text write. -/
theorem addLines_listed (hp : p.ListsDates) (h : s.addLines text = .ok s') : s'.zone = s.zone ∧
    ∃ vs, (itemsOf p text).mapM (readListedDate s.zone) = .ok vs ∧
      s'.listed p = s.listed p ++ vs := by
  refine foldlM_invariant (P := fun lines (s' : RecurrenceSet) => s'.zone = s.zone ∧
    ∃ vs, (lines.flatMap (itemsOfLine p)).mapM (readListedDate s.zone) = .ok vs ∧
      s'.listed p = s.listed p ++ vs) ?_ ⟨rfl, [], rfl, (List.append_nil _).symm⟩ h
  rintro lines line s₁ s₂ ⟨hzone, vs, hvs, hlisted⟩ hline
  obtain ⟨hzone', vs', hvs', hlisted'⟩ := addLine_listed hp hline
  refine ⟨hzone'.trans hzone, vs ++ vs', ?_, ?_⟩
  · rw [List.flatMap_append, List.flatMap_singleton]
    exact mapM_append_eq_ok_iff.mpr ⟨vs, vs', hvs, hzone ▸ hvs', rfl⟩
  · rw [hlisted', hlisted, List.append_assoc]

end RecurrenceSet

/-! ### Real values -/

/-- Real UTC values have real wall-clock values. -/
theorem Value.isReal_of_fromUtc {l : Value} (hv : v.IsReal) (h : v.fromUtc zone = .ok l) :
    l.IsReal := by
  obtain ⟨d, _ | t⟩ := v
  · cases zone <;> exact Except.ok.inj h ▸ hv
  · cases zone with
    | utc => exact Except.ok.inj h ▸ hv
    | _ =>
      obtain ⟨n, -, h⟩ := bind_eq_ok_iff.mp h
      obtain ⟨o, -, h⟩ := bind_eq_ok_iff.mp h
      exact Except.ok.inj h ▸ (moved_spec hv rfl o rfl).1

/-- A listed date is the value that is written, in wall-clock time if it is written in UTC. -/
theorem readListedDate_eq_ok_iff {l : Value} : readListedDate zone item = .ok l ↔
    ∃ v, Value.read item = .ok v ∧
      if (Text.upper (Text.trim item)).getLast? = some 'Z' then v.fromUtc zone = .ok l else v = l := by
  unfold readListedDate
  rw [bind_eq_ok_iff]
  refine exists_congr fun v => and_congr mapError_eq_ok_iff ?_
  split_ifs
  · exact mapError_eq_ok_iff
  · exact ⟨Except.ok.inj, fun h => h ▸ rfl⟩

theorem isReal_of_readListedDate {l : Value} (h : readListedDate zone item = .ok l) : l.IsReal := by
  obtain ⟨v, hread, h⟩ := readListedDate_eq_ok_iff.mp h
  have hv := (Value.representable_of_read hread).1
  split_ifs at h
  · exact Value.isReal_of_fromUtc hv h
  · exact h ▸ hv

/-! ### Dates in UTC -/

/-- What a listed item stands for: the UTC value of the wall-clock value that is kept of it. -/
def ItemMeans (zone : Zone) (item : Chars) (u : Value) : Prop :=
  ∃ l, readListedDate zone item = .ok l ∧ l.toUtc zone = .ok u

/-- Whether an item is written in UTC, in the years that offsets cannot lead out of. -/
def WritesInUtc (item : Chars) (v : Value) : Prop :=
  Value.read item = .ok v ∧ v.hasTime = true ∧ (Text.upper (Text.trim item)).getLast? = some 'Z' ∧
    3 ≤ v.date.year ∧ v.date.year ≤ 9997

instance (item : Chars) (v : Value) : Decidable (WritesInUtc item v) := by
  unfold WritesInUtc
  infer_instance

/-- **A date written in UTC** stands for the first UTC value at which the clocks of the zone show
the same. -/
theorem itemMeans_of_writesInUtc (hshort : zone.Short) (hspaced : zone.Spaced)
    (hitem : WritesInUtc item v) : ∃ u, (∀ w, ItemMeans zone item w ↔ w = u) ∧ u.IsReal ∧
      u.hasTime = true ∧ IsLeast {t | zone.shownAt t = zone.shownAt v.instant} u.instant := by
  obtain ⟨hread, ht, hZ, hlow, hhigh⟩ := hitem
  obtain ⟨l, u, hfrom, -, hto, hu, hut, hleast⟩ := Value.toUtc_of_fromUtc hshort hspaced
    (Value.representable_of_read hread).1 ht hlow hhigh
  have hkept : ∀ l', readListedDate zone item = .ok l' ↔ l' = l := by
    intro l'
    simp only [readListedDate_eq_ok_iff, hread, if_pos hZ]
    constructor
    · rintro ⟨_, ⟨⟩, h⟩
      exact (Except.ok.inj (hfrom.symm.trans h)).symm
    · rintro rfl
      exact ⟨v, rfl, hfrom⟩
  refine ⟨u, fun w => ?_, hu, hut, hleast⟩
  simp only [ItemMeans, hkept, exists_eq_left, hto, Except.ok.injEq]
  exact eq_comm

/-- **Listed dates.**  Take a zone whose offsets are shorter than a day and whose transitions, if
any, are at least two days apart, and a text that is read as a set in it.  The dates that the text
lists for a property make one cursor over the UTC values that its items stand for, and no others.
An item that is written in UTC, with a year from 3 to 9997, stands for one value: the first one in
UTC at which the clocks of the zone show what they show at the written one.  This is the written
one itself, unless the clocks have shown the same before. -/
theorem listed_in_utc (hshort : zone.Short) (hspaced : zone.Spaced)
    (haccept : RecurrenceSet.addLines { start, zone, budget } text = .ok s) (hp : p.ListsDates)
    (hlists : RecurrenceSet.itemsOf p text ≠ []) :
    (∃ c, s.listedOf (s.listed p) = .ok [.dates c] ∧
      ∀ u, u ∈ c.values ↔ ∃ item ∈ RecurrenceSet.itemsOf p text, ItemMeans zone item u) ∧
    ∀ item v, WritesInUtc item v → ∃ u, (∀ w, ItemMeans zone item w ↔ w = u) ∧
      u.IsReal ∧ u.hasTime = true ∧
      IsLeast {t | zone.shownAt t = zone.shownAt v.instant} u.instant ∧
      ((∀ t < v.instant, zone.shownAt t ≠ zone.shownAt v.instant) → u = v) := by
  refine ⟨?_, fun item v hitem => ?_⟩
  · obtain ⟨hzone, vs, hvs, hlisted⟩ := RecurrenceSet.addLines_listed hp haccept
    have hlisted : s.listed p = vs := by rcases hp with rfl | rfl <;> exact hlisted
    have hzone : s.zone = zone := hzone
    have hmem : ∀ l, l ∈ vs ↔ ∃ item ∈ RecurrenceSet.itemsOf p text,
        readListedDate zone item = .ok l := fun l => mem_iff_of_mapM hvs
    have hreal : ∀ l ∈ vs, l.IsReal := by
      intro l hl
      obtain ⟨item, -, hread⟩ := (hmem l).mp hl
      exact isReal_of_readListedDate hread
    obtain ⟨us, hc, -, hvalues⟩ := DateCursor.exists_ofList zone hreal
    refine ⟨⟨us, us⟩, ?_, fun u => ?_⟩
    · have hne : vs ≠ [] := by
        rintro rfl
        exact hlists (List.forall₂_nil_right_iff.mp (mapM_eq_ok_iff.mp hvs))
      unfold RecurrenceSet.listedOf
      rw [hlisted, hzone, if_neg (by simpa using hne), hc]
      rfl
    · rw [hvalues]
      simp only [hmem, ItemMeans]
      constructor
      · rintro ⟨l, ⟨item, hitem, hread⟩, hto⟩
        exact ⟨item, hitem, l, hread, hto⟩
      · rintro ⟨item, hitem, l, hread, hto⟩
        exact ⟨l, ⟨item, hitem, hread⟩, hto⟩
  · obtain ⟨u, hmeans, hu, hut, hleast⟩ := itemMeans_of_writesInUtc hshort hspaced hitem
    refine ⟨u, hmeans, hu, hut, hleast, fun hfirst => ?_⟩
    obtain ⟨hread, ht, -⟩ := hitem
    have hv := (Value.representable_of_read hread).1
    have hle : u.instant ≤ v.instant := hleast.2 rfl
    have heq : u.instant = v.instant := le_antisymm hle (not_lt.mp fun hlt => hfirst _ hlt hleast.1)
    have hkind : u.hasTime = v.hasTime := hut.trans ht.symm
    exact le_antisymm (not_lt.mp fun hlt => by
        rw [Value.lt_iff_instant hv hu hkind.symm] at hlt; omega)
      (not_lt.mp fun hlt => by rw [Value.lt_iff_instant hu hv hkind] at hlt; omega)

/-- Noon of a day on which the clocks are put back early in the morning: the set has the date that is
written. -/
theorem listed_in_utc_noon :
    let zone : Zone := .shifting (-25200) [⟨739193 * 86400 + 32400, -28800⟩]
    let start : Value := .ofDateTime ⟨2024, 1, 1⟩ ⟨9, 0, 0⟩
    let noon : Value := .ofDateTime ⟨2024, 11, 3⟩ ⟨12, 0, 0⟩
    ∃ s c, RecurrenceSet.addLines { start, zone, budget := 100 } "RDATE:20241103T120000Z".toList =
      .ok s ∧ s.listedOf s.dates = .ok [.dates c] ∧ noon ∈ c.values := by
  intro zone start noon
  have hitems : RecurrenceSet.itemsOf .dates "RDATE:20241103T120000Z".toList =
      ["20241103T120000Z".toList] := by decide +kernel
  obtain ⟨s, hs⟩ := exists_eq_ok_of_isSome (show (RecurrenceSet.addLines { start, zone, budget := 100 }
    "RDATE:20241103T120000Z".toList).toOption.isSome = true by decide +kernel)
  obtain ⟨⟨c, hc, hvalues⟩, hmeans⟩ := listed_in_utc (show zone.Short by decide)
    (show zone.Spaced by decide) hs (.inl rfl) (by rw [hitems]; exact List.cons_ne_nil _ _)
  obtain ⟨u, hu, -, -, -, hfirst⟩ := hmeans "20241103T120000Z".toList noon (by decide +kernel)
  -- the clocks do not show noon twice
  have hnoon : noon.instant = 739193 * 86400 + 43200 := by decide +kernel
  obtain rfl : u = noon := hfirst fun t ht => by
    simp only [hnoon, Zone.shownAt, zone, Zone.offsetAtInstant, List.foldl_cons, List.foldl_nil] at ht ⊢
    split_ifs <;> omega
  refine ⟨s, c, hs, hc, (hvalues _).mpr ⟨_, ?_, (hu _).mpr rfl⟩⟩
  rw [hitems]
  exact List.mem_singleton_self _

/-- **In the second pass of an overlap** the written date is moved.  Where the clocks are put back
by an hour at nine in UTC, a set that lists half past nine has half past eight and nothing else. -/
theorem listed_in_utc_moves :
    let zone : Zone := .shifting (-25200) [⟨739193 * 86400 + 32400, -28800⟩]
    let start : Value := .ofDateTime ⟨2024, 1, 1⟩ ⟨9, 0, 0⟩
    let text := "RDATE:20241103T093000Z".toList
    zone.Short ∧ zone.Spaced ∧
      (∃ item ∈ RecurrenceSet.itemsOf .dates text,
        WritesInUtc item (.ofDateTime ⟨2024, 11, 3⟩ ⟨9, 30, 0⟩)) ∧
      (do let s ← (RecurrenceSet.addLines { start, zone, budget := 100 } text).toOption
          let c ← (← s.cursor 20).toOption
          let (answers, _) ← (Cursor.ops 20).askAll [.next, .hasNext] c
          return answers) =
        some [.value (.ofDateTime ⟨2024, 11, 3⟩ ⟨8, 30, 0⟩), .more false] := by
  decide +kernel

end Recurrence
