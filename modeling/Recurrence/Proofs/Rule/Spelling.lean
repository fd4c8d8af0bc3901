/-
Recurrence/Proofs/Rule/Spelling.lean

The spellings of a rule.

A spelling of a rule is made from its text.  The parts may come in any order; letters may have
either case and spaces may stand around names and items; empty segments and extensions may be put
between the parts, and the name of the property before all of them.  Reading any spelling gives the
rule back.

Each segment of a spelling is read on its own.  That no name occurs twice is the only condition on
all of them together, and it does not depend on their order.
-/
import Mathlib.Data.List.Nodup
import Recurrence.Proofs.Rule.Segments
import Recurrence.Proofs.Rule.Telling

namespace Recurrence

open Text (Chars IsWord Respelled SpellsItems SameButCase)

variable {r : Rule}

/-! ### Segments -/

/-- Whether a segment spells a written part: its name and each item of its value. -/
def SpellsPart (part segment : Chars) : Prop :=
  ∃ name value name' items', Text.cut '=' part = (name, some value) ∧ Respelled name name' ∧
    List.Forall₂ Respelled (Text.pieces ',' value) items' ∧
    segment = name' ++ '=' :: Text.joined [','] items'

/-- An extension of a rule text: a name that begins with X-, and a value that is not blank. -/
structure Extension where
  name : Chars
  value : Chars
  starts : "X-".toList <+: Text.upper (Text.trim name)
  present : Text.trim value ≠ []
  no_equals : '=' ∉ name
  no_semicolon : ';' ∉ name ∧ ';' ∉ value

namespace Extension

/-- The name by which extensions are told apart. -/
def key (e : Extension) : Chars := Text.upper (Text.trim e.name)

/-- An extension as a segment. -/
def chars (e : Extension) : Chars := e.name ++ '=' :: e.value

end Extension

/-- A spelling of a rule. -/
structure Rule.Spelling (r : Rule) where
  /-- The name of the property, or nothing. -/
  lead : Chars
  lead_eq : lead = [] ∨ SameButCase "RRULE:".toList lead
  /-- The parts of the text of the rule, each spelled in its way. -/
  written : List Chars
  written_spell : List.Forall₂ SpellsPart (Text.pieces ';' r.text.toList) written
  /-- Extensions with names of their own. -/
  extensions : List Extension
  distinct : (extensions.map Extension.key).Nodup
  /-- The widths of empty segments. -/
  gaps : List Nat
  /-- All segments in the order of the spelling. -/
  segments : List Chars
  segments_perm : segments.Perm
    (written ++ extensions.map Extension.chars ++ gaps.map fun width => List.replicate width ' ')

/-- The text of a spelling. -/
def Rule.Spelling.text (s : r.Spelling) : String :=
  String.ofList (s.lead ++ Text.joined [';'] s.segments)

/-! ### The text of a rule -/

/-- The parts of the text of a rule are its written parts. -/
theorem Rule.pieces_text (hr : r.Expressible) : Text.pieces ';' r.text.toList =
    r.writtenParts.map fun p => namedPart p.name (Text.joined [','] (r.items p)) := by
  rw [Rule.text, String.toList_ofList, Rule.chars, partChars_eq]
  refine Text.pieces_joined ?_ ?_
  · intro part hpart hmem
    obtain ⟨p, -, rfl⟩ := List.mem_map.mp hpart
    rw [namedPart, List.mem_append, List.mem_cons] at hmem
    obtain hmem | hmem | hmem := hmem
    · exact p.isWord_name.notMem (by decide) hmem
    · exact absurd hmem (by decide)
    · obtain hmem | ⟨item, hitem, hmem⟩ := Text.mem_of_mem_joined hmem
      · exact absurd hmem (by decide)
      · exact (Rule.isWord_of_mem_items hr p item hitem).notMem (by decide) hmem
  · exact List.ne_nil_of_mem (List.mem_map_of_mem r.freq_mem_writtenParts)

/-! ### Reading a segment -/

/-- Whether a segment is blank, or a part that tells a rule. -/
structure Rule.TellsSegment (r : Rule) (segment : Chars) : Prop where
  no_semicolon : ';' ∉ segment
  isSegment : IsSegment segment
  tells : ∀ part ∈ readPart? segment, r.Tells part

theorem Rule.tellsSegment_of_part {segment : Chars} {part : TextPart} (hsemi : ';' ∉ segment)
    (hread : readPart? segment = some part) (htells : r.Tells part) : r.TellsSegment segment where
  no_semicolon := hsemi
  isSegment := .inr (Option.isSome_iff_exists.mpr ⟨part, hread⟩)
  tells := fun _ hpart => Option.some.inj (hread.symm.trans hpart) ▸ htells

/-- **A written part is read** from every segment that spells it. -/
theorem SpellsPart.read (hr : r.Expressible) {p : PartName} (hp : r.items p ≠ []) {segment : Chars}
    (h : SpellsPart (namedPart p.name (Text.joined [','] (r.items p))) segment) :
    ';' ∉ segment ∧
      ∃ value, readPart? segment = some ⟨p.name, value⟩ ∧ SpellsItems (r.items p) value := by
  have hwords := Rule.isWord_of_mem_items hr p
  obtain ⟨name, value, name', items', hcut, hname, hitems, rfl⟩ := h
  rw [namedPart, Text.cut_append (p.isWord_name.notMem (by decide))] at hcut
  obtain ⟨rfl, hvalue⟩ := Prod.mk.inj hcut
  obtain rfl := Option.some.inj hvalue
  rw [Text.pieces_joined (fun item hitem => (hwords item hitem).notMem (by decide)) hp] at hitems
  have habsent : ∀ c, c.isAlpha = false → Text.isRuleChar c = false → c ≠ ' ' →
      c ∉ name' ∧ ∀ item ∈ items', c ∉ item := by
    intro c halpha hrule hspace
    refine ⟨fun hc => ?_, fun item hitem hc => ?_⟩
    · exact (hname.eq_space_or_mem halpha hc).elim hspace (p.isWord_name.notMem hrule)
    · obtain ⟨item', hitem', hrespelled⟩ := exists_rel_of_mem hitems hitem
      exact (hrespelled.eq_space_or_mem halpha hc).elim hspace ((hwords item' hitem').notMem hrule)
  have hspells := SpellsItems.of_respelled hwords hp hitems
  have hupper := (hname.spellsItem p.isWord_name).upper_trim p.isWord_name
  constructor
  · have hsemi := habsent ';' (by decide) (by decide) (by decide)
    rw [List.mem_append, List.mem_cons, not_or, not_or]
    refine ⟨hsemi.1, by decide, fun hmem => ?_⟩
    obtain hmem | ⟨item, hitem, hmem⟩ := Text.mem_of_mem_joined hmem
    · exact absurd hmem (by decide)
    · exact hsemi.2 item hitem hmem
  · refine ⟨_, ?_, hspells⟩
    rw [readPart?_append (habsent '=' (by decide) (by decide) (by decide)).1, hupper,
      if_neg (not_or.mpr ⟨p.isWord_name.1, hspells.ne_nil hwords⟩), String.ofList_toList]

/-- **An extension is read** as one. -/
theorem Extension.read (e : Extension) :
    readPart? e.chars = some ⟨String.ofList e.key, Text.trim e.value⟩ := by
  have hne : Text.upper (Text.trim e.name) ≠ [] := by
    intro hnil
    have := e.starts
    rw [hnil] at this
    exact absurd (List.prefix_nil.mp this) (by decide)
  rw [chars, readPart?_append e.no_equals, if_neg (not_or.mpr ⟨hne, e.present⟩), key]

theorem Extension.notMem_chars (e : Extension) : ';' ∉ e.chars := by
  rw [chars, List.mem_append, List.mem_cons, not_or, not_or]
  exact ⟨e.no_semicolon.1, by decide, e.no_semicolon.2⟩

theorem Extension.isExtension (e : Extension) (value : Chars) :
    TextPart.IsExtension ⟨String.ofList e.key, value⟩ := by
  have hkey : (String.ofList e.key).toList = e.key := String.toList_ofList
  show "X-".toList <+: (String.ofList e.key).toList
  rw [hkey]
  exact e.starts

/-- No name of a part that tells a rule begins as the name of the property does. -/
theorem Rule.Tells.head?_name {part : TextPart} (h : r.Tells part) :
    part.name.toList.head? ≠ some 'R' := by
  obtain ⟨p, hname, -⟩ | hext := h
  · have h : ∀ p ∈ PartName.all, p.name.toList.head? ≠ some 'R' := by decide
    exact hname ▸ h p p.mem_all
  · obtain ⟨rest, hrest⟩ := hext
    rw [← hrest]
    simp

/-! ### Reading a spelling -/

namespace Rule.Spelling

/-- The written segments are read as the written parts, in their order. -/
theorem written_read (s : r.Spelling) (hr : r.Expressible) :
    List.Forall₂ (fun p segment => ';' ∉ segment ∧
        ∃ value, readPart? segment = some ⟨p.name, value⟩ ∧ SpellsItems (r.items p) value)
      r.writtenParts s.written := by
  have hspell := s.written_spell
  rw [Rule.pieces_text hr, List.forall₂_map_left_iff] at hspell
  have hitems : ∀ p ∈ r.writtenParts, r.items p ≠ [] := fun p => Rule.mem_writtenParts.mp
  exact ((List.forall₂_and_left _ _).mpr ⟨hitems, hspell⟩).imp fun _ _ h => h.2.read hr h.1

theorem mem_segments {s : r.Spelling} {segment : Chars} (h : segment ∈ s.segments) :
    segment ∈ s.written ∨ (∃ e ∈ s.extensions, e.chars = segment) ∨
      ∃ width ∈ s.gaps, List.replicate width ' ' = segment := by
  have := s.segments_perm.mem_iff.mp h
  rwa [List.mem_append, List.mem_append, List.mem_map, List.mem_map, or_assoc] at this

/-- Every segment of a spelling is blank or tells the rule. -/
theorem tellsSegment (s : r.Spelling) (hr : r.Expressible) :
    ∀ segment ∈ s.segments, r.TellsSegment segment := by
  intro segment h
  obtain h | ⟨e, -, rfl⟩ | ⟨width, -, rfl⟩ := mem_segments h
  · obtain ⟨p, -, hsemi, value, hread, hvalue⟩ := exists_rel_of_mem (s.written_read hr) h
    exact Rule.tellsSegment_of_part hsemi hread (.inl ⟨p, rfl, hvalue⟩)
  · exact Rule.tellsSegment_of_part e.notMem_chars e.read (.inr (e.isExtension _))
  · have hblank : Text.trim (List.replicate width ' ') = [] :=
      Text.trimBy_eq_nil_iff.mpr fun c hc => by
        rw [List.eq_of_mem_replicate hc, Text.isBlank_space]
    refine ⟨fun hmem => absurd (List.eq_of_mem_replicate hmem) (by decide), .inl hblank, ?_⟩
    rw [readPart?_of_blank hblank]
    rintro _ ⟨⟩

/-- The names of the parts of a spelling, but for their order. -/
theorem names_perm (s : r.Spelling) (hr : r.Expressible) :
    ((s.segments.filterMap readPart?).map TextPart.name).Perm
      (r.writtenParts.map PartName.name ++
        (s.extensions.map Extension.key).map String.ofList) := by
  have hwritten : (s.written.filterMap readPart?).map TextPart.name =
      r.writtenParts.map PartName.name := by
    have hread := s.written_read hr
    generalize r.writtenParts = parts, s.written = segments at hread ⊢
    induction hread with
    | nil => rfl
    | cons h _ ih =>
      obtain ⟨-, value, hread, -⟩ := h
      rw [List.filterMap_cons_some hread, List.map_cons, List.map_cons, ih]
  have hextensions : ((s.extensions.map Extension.chars).filterMap readPart?).map TextPart.name =
      (s.extensions.map Extension.key).map String.ofList := by
    induction s.extensions with
    | nil => rfl
    | cons e es ih =>
      rw [List.map_cons, List.filterMap_cons_some e.read, List.map_cons, ih, List.map_cons,
        List.map_cons]
  have hgaps : (s.gaps.map fun width => List.replicate width ' ').filterMap readPart? = [] := by
    refine List.filterMap_eq_nil_iff.mpr fun segment h => ?_
    obtain ⟨width, -, rfl⟩ := List.mem_map.mp h
    exact readPart?_of_notMem fun hmem => absurd (List.eq_of_mem_replicate hmem) (by decide)
  have hperm := (s.segments_perm.filterMap readPart?).map TextPart.name
  rwa [List.filterMap_append, List.filterMap_append, hgaps, List.append_nil, List.map_append,
    hwritten, hextensions] at hperm

/-- No two parts of a spelling have the same name. -/
theorem names_nodup (s : r.Spelling) (hr : r.Expressible) :
    ((s.segments.filterMap readPart?).map TextPart.name).Nodup := by
  rw [(s.names_perm hr).nodup_iff, List.nodup_append]
  refine ⟨?_, ?_, ?_⟩
  · exact List.Nodup.map PartName.name_injective (PartName.nodup_all.filter _)
  · exact List.Nodup.map (fun _ _ => String.ofList_injective) s.distinct
  · rintro name hname name' hname' rfl
    obtain ⟨p, -, rfl⟩ := List.mem_map.mp hname
    obtain ⟨key, hkey, hp⟩ := List.mem_map.mp hname'
    obtain ⟨e, -, rfl⟩ := List.mem_map.mp hkey
    exact p.not_isExtension (hp ▸ e.isExtension [])

/-- **A spelling is cut into parts** that tell the rule, every written part among them. -/
theorem exists_parts (s : r.Spelling) (hr : r.Expressible) : ∃ parts,
    splitRule s.text.toList = .ok parts ∧ (∀ part ∈ parts, r.Tells part) ∧
      ∀ p ∈ r.writtenParts, ∃ part ∈ parts, part.name = p.name := by
  have htells := s.tellsSegment hr
  have hwritten : ∀ p ∈ r.writtenParts,
      ∃ part ∈ s.segments.filterMap readPart?, part.name = p.name := by
    intro p hp
    exact List.mem_map.mp
      ((s.names_perm hr).mem_iff.mpr (List.mem_append_left _ (List.mem_map_of_mem hp)))
  have hlead : SameButCase "RRULE:".toList s.lead ∨ s.lead = [] ∧
      ¬"RRULE:".toList <+: Text.upper (Text.trim (Text.joined [';'] s.segments)) := by
    refine s.lead_eq.symm.imp_right fun hlead => ⟨hlead, ?_⟩
    cases hsegments : s.segments with
    | nil => decide
    | cons segment segments =>
      have hfirst := htells segment (hsegments ▸ List.mem_cons_self)
      exact not_prefix_upper_trim hfirst.isSegment fun part hpart =>
        (hfirst.tells part hpart).head?_name
  have hne : s.segments ≠ [] := by
    intro hnil
    obtain ⟨part, hpart, -⟩ := hwritten .freq r.freq_mem_writtenParts
    rw [hnil] at hpart
    cases hpart
  refine ⟨_, ?_, fun part hpart => ?_, hwritten⟩
  · rw [text, String.toList_ofList]
    exact splitRule_eq_ok
      (map_trim_pieces_ruleBody (fun segment h => (htells segment h).no_semicolon) hne hlead)
      (fun segment h => (htells segment h).isSegment) (s.names_nodup hr)
  · obtain ⟨segment, hsegment, hread⟩ := List.mem_filterMap.mp hpart
    exact (htells segment hsegment).tells part hread

/-- The text of a rule is a spelling of it. -/
def plain (hr : r.Expressible) : r.Spelling where
  lead := []
  lead_eq := .inl rfl
  written := Text.pieces ';' r.text.toList
  written_spell := by
    refine List.forall₂_same.mpr fun part hpart => ?_
    rw [Rule.pieces_text hr] at hpart
    obtain ⟨p, -, rfl⟩ := List.mem_map.mp hpart
    exact ⟨p.name.toList, _, p.name.toList, _, Text.cut_append (p.isWord_name.notMem (by decide)),
      .refl _, List.forall₂_same.mpr fun item _ => .refl item, by rw [Text.joined_pieces]; rfl⟩
  extensions := []
  distinct := List.nodup_nil
  gaps := []
  segments := Text.pieces ';' r.text.toList
  segments_perm := by simp

theorem text_plain (hr : r.Expressible) : (plain hr).text = r.text := by
  rw [text, plain, List.nil_append, Text.joined_pieces, String.ofList_toList]

end Rule.Spelling

/-! ### Every spelling -/

/-- **Reading undoes writing under every spelling.**  Take a valid rule whose end, if it has one, is
a real date or date-time of the years 1 to 9999.  Its interval and its count are short: numbers of
more digits are neither written nor read.  Then every spelling of the rule is read, and what is read
is that rule. -/
theorem reads_every_spelling (hr : r.Expressible) (s : r.Spelling) : Rule.parse s.text = .ok r := by
  obtain ⟨parts, hsplit, htells, hall⟩ := s.exists_parts hr
  exact parse_of_tells hr hsplit htells hall

/-- Mondays and last Fridays. -/
def mondays : Rule := { freq := .monthly, byDay := [⟨none, .mo⟩, ⟨some (-1), .fr⟩] }

/-- A careless spelling of Mondays and last Fridays. -/
def mondaysSpelling : mondays.Spelling where
  lead := "rrule:".toList
  lead_eq := .inr (by decide)
  written := [" freq=Monthly".toList, "ByDay = mo,-1Fr ".toList]
  written_spell := by
    have hparts : Text.pieces ';' mondays.text.toList =
        ["FREQ=MONTHLY".toList, "BYDAY=MO,-1FR".toList] := by decide +kernel
    rw [hparts]
    refine .cons ⟨"FREQ".toList, "MONTHLY".toList, " freq".toList, ["Monthly".toList], by decide,
      ⟨1, 0, "freq".toList, by decide, rfl⟩, ?_, by decide⟩ (.cons ⟨"BYDAY".toList,
      "MO,-1FR".toList, "ByDay ".toList, [" mo".toList, "-1Fr ".toList], by decide,
      ⟨0, 1, "ByDay".toList, by decide, rfl⟩, ?_, by decide⟩ .nil)
    · exact .cons ⟨0, 0, "Monthly".toList, by decide, rfl⟩ .nil
    · exact .cons ⟨1, 0, "mo".toList, by decide, rfl⟩
        (.cons ⟨0, 1, "-1Fr".toList, by decide, rfl⟩ .nil)
  extensions := [⟨"X-note".toList, "a=b".toList, by decide, by decide, by decide, by decide⟩]
  distinct := by decide
  gaps := [0]
  segments := ["ByDay = mo,-1Fr ".toList, [], "X-note=a=b".toList, " freq=Monthly".toList]
  segments_perm := by decide

theorem reads_every_spelling_mondays :
    Rule.parse "rrule:ByDay = mo,-1Fr ;;X-note=a=b; freq=Monthly" = .ok mondays := by
  have htext : mondaysSpelling.text = "rrule:ByDay = mo,-1Fr ;;X-note=a=b; freq=Monthly" := by
    decide +kernel
  have hmondays : mondays.Expressible :=
    ⟨by decide, by rintro _ ⟨⟩, by decide, by rintro _ ⟨⟩⟩
  exact htext ▸ reads_every_spelling hmondays mondaysSpelling

end Recurrence
