/-
Recurrence/Proofs/Rule/Segments.lean

From a rule text to its parts.

A text is a beginning, which may be left out, and segments with semicolons between them.  A segment
is blank or a part; the reader is not troubled by blanks around either.  So the parts of a text are
the parts of its segments one by one, unless two have the same name.
-/
import Recurrence.Proofs.Outcomes
import Recurrence.Proofs.Text.Spelled
import Recurrence.Rule.Parser

namespace Recurrence

open Text (Chars)

variable {raw raw' name value lead text : Chars} {raws segments : List Chars} {part : TextPart}

/-! ### Parts of segments -/

/-- A segment is read as a part just if it is a name and a value, neither blank, with an equals sign
between them. -/
theorem readPart?_eq_some_iff : readPart? raw = some part ↔
    ∃ name value, raw = name ++ '=' :: value ∧ '=' ∉ name ∧ Text.upper (Text.trim name) ≠ [] ∧
      Text.trim value ≠ [] ∧
      part = ⟨String.ofList (Text.upper (Text.trim name)), Text.trim value⟩ := by
  unfold readPart?
  cases hcut : Text.cut '=' raw with
  | mk name rest =>
    cases rest with
    | none =>
      refine iff_of_false (by simp) ?_
      rintro ⟨name', value, rfl, hname, -⟩
      rw [Text.cut_append hname] at hcut
      cases hcut
    | some value =>
      obtain ⟨hraw, hname⟩ := Text.cut_eq_some_iff.mp hcut
      simp only
      split_ifs with hnil
      · refine iff_of_false (by simp) ?_
        rintro ⟨name', value', rfl, hname', hne, hne', -⟩
        rw [Text.cut_append hname'] at hcut
        obtain ⟨rfl, hvalue⟩ := Prod.mk.inj hcut
        exact hnil.elim hne (Option.some.inj hvalue ▸ hne')
      · obtain ⟨hne, hne'⟩ := not_or.mp hnil
        constructor
        · intro h
          exact ⟨name, value, hraw, hname, hne, hne', (Option.some.inj h).symm⟩
        · rintro ⟨name', value', rfl, hname', -, -, rfl⟩
          rw [Text.cut_append hname'] at hcut
          obtain ⟨rfl, hvalue⟩ := Prod.mk.inj hcut
          rw [Option.some.inj hvalue]

theorem readPart?_append (hname : '=' ∉ name) : readPart? (name ++ '=' :: value) =
    if Text.upper (Text.trim name) = [] ∨ Text.trim value = [] then none
    else some ⟨String.ofList (Text.upper (Text.trim name)), Text.trim value⟩ := by
  rw [readPart?, Text.cut_append hname]

theorem readPart?_of_notMem (h : '=' ∉ raw) : readPart? raw = none := by
  refine Option.eq_none_iff_forall_ne_some.mpr fun part hpart => ?_
  obtain ⟨name, value, rfl, -⟩ := readPart?_eq_some_iff.mp hpart
  exact h (by simp)

/-- Blanks around a segment do not matter. -/
theorem readPart?_trim : readPart? (Text.trim raw) = readPart? raw := by
  obtain ⟨l, r, hl, hr, hraw⟩ := Text.exists_eq_append_trimBy Text.isBlank raw
  have hequals : Text.isBlank '=' = false := by decide
  have hl' : '=' ∉ l := fun h => by simp [hl _ h] at hequals
  have hr' : '=' ∉ r := fun h => by simp [hr _ h] at hequals
  by_cases hmem : '=' ∈ Text.trim raw
  · obtain ⟨name, value, htrim, hname⟩ := List.eq_append_cons_of_mem hmem
    have hraw' : raw = (l ++ name) ++ '=' :: (value ++ r) := by
      rw [hraw, ← Text.trim, htrim]
      simp
    have hname' : '=' ∉ l ++ name := by simp [hl', hname]
    have htrimName : Text.trim (l ++ name) = Text.trim name := Text.trimBy_append_left hl
    have htrimValue : Text.trim (value ++ r) = Text.trim value := Text.trimBy_append_right hr
    rw [htrim, readPart?_append hname]
    conv_rhs => rw [hraw', readPart?_append hname', htrimName, htrimValue]
  · have hmem' : '=' ∉ raw := by
      rw [hraw]
      simp only [List.mem_append, not_or]
      exact ⟨⟨hl', hmem⟩, hr'⟩
    rw [readPart?_of_notMem hmem, readPart?_of_notMem hmem']

theorem readPart?_of_blank (h : Text.trim raw = []) : readPart? raw = none := by
  rw [← readPart?_trim, h]
  rfl

/-- Whether a segment is blank or a part. -/
def IsSegment (raw : Chars) : Prop := Text.trim raw = [] ∨ (readPart? raw).isSome = true

/-- **The parts of a text** are those of its segments, if no two have the same name. -/
theorem readParts_eq_ok {whole : String} {seen : List String} (hraws : ∀ raw ∈ raws, IsSegment raw)
    (hnodup : ((raws.filterMap readPart?).map TextPart.name).Nodup)
    (hseen : ∀ part ∈ raws.filterMap readPart?, part.name ∉ seen) :
    readParts whole raws seen = .ok (raws.filterMap readPart?) := by
  induction raws generalizing seen with
  | nil => rfl
  | cons raw raws ih =>
    obtain ⟨hraw, hraws⟩ := List.forall_mem_cons.mp hraws
    by_cases hblank : Text.trim raw = []
    · rw [List.filterMap_cons_none (readPart?_of_blank hblank)] at hnodup hseen ⊢
      rw [readParts, if_pos hblank, ih hraws hnodup hseen]
    · obtain ⟨part, hpart⟩ := Option.isSome_iff_exists.mp (hraw.resolve_left hblank)
      rw [List.filterMap_cons_some hpart] at hnodup hseen ⊢
      rw [List.map_cons, List.nodup_cons] at hnodup
      obtain ⟨hfirst, hrest⟩ := List.forall_mem_cons.mp hseen
      have hread : readParts whole raws (part.name :: seen) = .ok (raws.filterMap readPart?) := by
        refine ih hraws hnodup.2 fun part' hpart' hmem => ?_
        obtain heq | hmem := List.mem_cons.mp hmem
        · exact hnodup.1 (List.mem_map.mpr ⟨part', hpart', heq⟩)
        · exact hrest part' hpart' hmem
      simp only [readParts, if_neg hblank, hpart, if_neg hfirst, hread]
      rfl

theorem isSegment_trim : IsSegment (Text.trim raw) ↔ IsSegment raw := by
  rw [IsSegment, IsSegment, readPart?_trim, Text.trim_trim]

/-! ### Segments of a text -/

/-- Without the beginning, a text begins with its first name or with a semicolon. -/
theorem not_prefix_upper_trim (hraw : IsSegment raw)
    (hname : ∀ part ∈ readPart? raw, part.name.toList.head? ≠ some 'R') :
    ¬"RRULE:".toList <+: Text.upper (Text.trim (Text.joined [';'] (raw :: segments))) := by
  obtain ⟨tail, hjoined, htail⟩ := Text.exists_joined_cons ';' raw segments
  rw [hjoined]
  obtain hblank | hpart := hraw
  · have htrim : Text.trim (raw ++ tail) = Text.trim tail :=
      Text.trimBy_append_left (Text.trimBy_eq_nil_iff.mp hblank)
    rw [htrim]
    obtain rfl | ⟨rest, rfl⟩ := htail
    · decide
    · obtain ⟨kept, -, -, -, hkept⟩ := Text.exists_trimBy_append
        (show Text.trimBy Text.isBlank [';'] = [';'] by decide) (by decide) rest
      have hsemi : Text.upper (Text.trim (';' :: rest)) = ';' :: Text.upper kept := by
        rw [show Text.trim (';' :: rest) = [';'] ++ kept from hkept, Text.upper_append]
        rfl
      rw [hsemi]
      intro h
      exact absurd (List.cons_prefix_cons.mp h).1 (by decide)
  · obtain ⟨part, hpart⟩ := Option.isSome_iff_exists.mp hpart
    have hhead := hname part hpart
    obtain ⟨name, value, rfl, -, hne, -, rfl⟩ := readPart?_eq_some_iff.mp hpart
    obtain ⟨l, r, hl, -, hsplit⟩ := Text.exists_eq_append_trimBy Text.isBlank name
    have hne' : Text.trim name ≠ [] := fun h => hne (by rw [h]; rfl)
    obtain ⟨kept, -, -, -, hkept⟩ := Text.exists_trimBy_append
      (show Text.trimBy Text.isBlank (Text.trim name) = Text.trim name from Text.trim_trim) hne'
      (r ++ '=' :: value ++ tail)
    have hcs : name ++ '=' :: value ++ tail =
        l ++ (Text.trim name ++ (r ++ '=' :: value ++ tail)) := by
      conv_lhs => rw [hsplit]
      simp [Text.trim]
    have htrim : Text.trim (name ++ '=' :: value ++ tail) = Text.trim name ++ kept := by
      rw [hcs, Text.trim, Text.trimBy_append_left hl]
      exact hkept
    rw [htrim, Text.upper_append]
    intro h
    rw [String.toList_ofList] at hhead
    cases hupper : Text.upper (Text.trim name) with
    | nil => exact hne hupper
    | cons c cs =>
      rw [hupper] at h hhead
      exact hhead (congrArg some (List.cons_prefix_cons.mp h).1.symm)

/-- **The pieces of a text are its segments**, but for blanks around them. -/
theorem map_trim_pieces_ruleBody (hsegments : ∀ raw ∈ segments, ';' ∉ raw) (hne : segments ≠ [])
    (hlead : Text.SameButCase "RRULE:".toList lead ∨
      lead = [] ∧ ¬"RRULE:".toList <+: Text.upper (Text.trim (Text.joined [';'] segments))) :
    (Text.pieces ';' (ruleBody (lead ++ Text.joined [';'] segments))).map Text.trim =
      segments.map Text.trim := by
  have hpieces := Text.pieces_joined hsegments hne
  obtain hlead | ⟨rfl, hno⟩ := hlead
  · have hblank : ∀ c ∈ lead, Text.isBlank c = false := by
      intro c hc
      rw [← Bool.not_eq_true]
      intro hb
      have hmem := (hlead.mem_iff (Text.isAlpha_of_isBlank hb)).mpr hc
      have hall : "RRULE:".toList.all (fun c => !Text.isBlank c) = true := by decide
      have hc := List.all_eq_true.mp hall c hmem
      simp [hb] at hc
    have hlen : lead.length = 6 := by simpa using hlead.forall₂.length_eq.symm
    obtain ⟨kept, r, hr, hbody, htrim⟩ := Text.exists_trimBy_append (Text.trimBy_eq_self hblank)
      (List.ne_nil_of_length_pos (by omega)) (Text.joined [';'] segments)
    have hstart : (Text.afterStart? "RRULE:".toList (Text.upper (lead ++ kept))).isSome = true := by
      rw [Text.afterStart?_isSome_iff, Text.upper_append, ← hlead.upper_eq]
      exact List.prefix_append _ _
    have hruleBody : ruleBody (lead ++ Text.joined [';'] segments) = kept := by
      rw [ruleBody, Text.trim, htrim, if_pos hstart]
      exact List.drop_left' hlen
    rw [hruleBody, ← hpieces, hbody,
      Text.map_trim_pieces_append_right hr (by decide)]
  · have hruleBody : ruleBody ([] ++ Text.joined [';'] segments) =
        Text.trim (Text.joined [';'] segments) := by
      rw [ruleBody, List.nil_append, if_neg fun h => hno (Text.afterStart?_isSome_iff.mp h)]
    rw [hruleBody, Text.map_trim_pieces_trim (by decide), hpieces]

/-- **A text is cut into parts** if its segments are parts or blank and no two parts have the same
name. -/
theorem splitRule_eq_ok
    (hpieces : (Text.pieces ';' (ruleBody text)).map Text.trim = segments.map Text.trim)
    (hsegments : ∀ raw ∈ segments, IsSegment raw)
    (hnodup : ((segments.filterMap readPart?).map TextPart.name).Nodup) :
    splitRule text = .ok (segments.filterMap readPart?) := by
  have hfilter : ∀ raws : List Chars, (raws.map Text.trim).filterMap readPart? =
      raws.filterMap readPart? := by
    intro raws
    rw [List.filterMap_map]
    exact List.filterMap_congr fun raw _ => readPart?_trim
  have hparts : (Text.pieces ';' (ruleBody text)).filterMap readPart? =
      segments.filterMap readPart? := by
    rw [← hfilter, hpieces, hfilter]
  have hraws : ∀ raw ∈ Text.pieces ';' (ruleBody text), IsSegment raw := by
    intro raw hraw
    have hmem : Text.trim raw ∈ segments.map Text.trim := hpieces ▸ List.mem_map_of_mem hraw
    obtain ⟨segment, hsegment, heq⟩ := List.mem_map.mp hmem
    exact isSegment_trim.mp (heq ▸ isSegment_trim.mpr (hsegments segment hsegment))
  rw [splitRule, ← hparts]
  rw [← hparts] at hnodup
  exact readParts_eq_ok hraws hnodup fun _ _ => List.not_mem_nil

end Recurrence
