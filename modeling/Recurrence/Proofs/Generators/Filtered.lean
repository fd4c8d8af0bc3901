/-
Recurrence/Proofs/Generators/Filtered.lean

Generators below the year, with their filters.

A source that answers rightly still does so behind filters: the numbers that they
refuse are skipped within one answer.  The source may then have used more than the
generator has handed out, but nothing that the filters would pass
(`Generator.At`).
-/
import Recurrence.Expansion.Generator
import Recurrence.Proofs.Generators.Filters
import Recurrence.Proofs.Generators.Listers
import Recurrence.Proofs.Generators.Steppers
import Recurrence.Proofs.Generators.Years
import Recurrence.Proofs.Patience

namespace Recurrence

/-! ### Sources below the year -/

namespace FieldSource

/-- The field that a source fills. -/
def field : FieldSource → Field
  | years _ => .year
  | slots g => g.unit.field
  | listed l => l.listing.field

/-- The children of a node that a source names. -/
def Names : FieldSource → List Int → Int → Prop
  | years g, _, n => g.Names n
  | slots g, p, n => g.Names p n
  | listed l, p, n => l.Names p n

/-- A source below the year that has not been asked yet. -/
def Begins (start : List Int) : FieldSource → Prop
  | years _ => False
  | slots g => g.Begins start
  | listed l => l.Begins start

/-- What a source that was the first one at first remembers. -/
inductive At (start p : List Int) : FieldSource → FieldSource → Option Int → Nat → Prop
  | slots {g₀ g last k} (h : g₀.At start p g last k) : At start p (.slots g₀) (.slots g) last k
  | listed {l₀ l last k} (h : l₀.At start p l last k) : At start p (.listed l₀) (.listed l) last k

variable {s₀ s : FieldSource} {start p q : List Int} {last : Option Int} {k : Nat}

/-- **A source below the year answers rightly.** -/
theorem At.generate (hb : s₀.Begins start) {f : Fields} (hf : f.toList.take s₀.field.level = p)
    (h : At start p s₀ s last k) :
    Answers s₀.field (fun n => s₀.Names p n ∧ FromStart start p n) (At start p s₀) last k f
      (s.generate f) := by
  cases h with
  | slots h =>
    rcases h.generate hb hf with ⟨v, g', k', heq, hv, hat, hk⟩ | ⟨g', k', heq, hnone, hat⟩
    · exact .inl ⟨v, .slots g', k', by rw [FieldSource.generate, heq]; rfl, hv, .slots hat, hk⟩
    · exact .inr ⟨.slots g', k', by rw [FieldSource.generate, heq], hnone, .slots hat⟩
  | listed h =>
    rcases h.generate hf with ⟨v, g', k', heq, hv, hat, hk⟩ | ⟨g', k', heq, hnone, hat⟩
    · exact .inl ⟨v, .listed g', k', by rw [FieldSource.generate, heq]; rfl, hv, .listed hat, hk⟩
    · exact .inr ⟨.listed g', k', by rw [FieldSource.generate, heq], hnone, .listed hat⟩

/-- In a later period a source has used nothing. -/
theorem At.later (hb : s₀.Begins start) (hl : s₀.field.level < start.length)
    (hp : p.length = s₀.field.level) (hq : q.length = s₀.field.level) (np : calendarTree.Node p)
    (nq : calendarTree.Node q) (hpq : p < q) (h : At start p s₀ s last k) :
    ∃ k', At start q s₀ s none k' := by
  cases h with
  | slots h =>
    obtain ⟨k', h'⟩ := h.later hp hq np nq hpq
    exact ⟨k', .slots h'⟩
  | listed h =>
    obtain ⟨k', h'⟩ := h.later hb hl hq hpq
    exact ⟨k', .listed h'⟩

/-- A source that has not been asked is ready for every node from the start on. -/
theorem Begins.ready (hb : s₀.Begins start) (hl : s₀.field.level < start.length)
    (hs : calendarTree.Node start) (hp : p.length = s₀.field.level) (np : calendarTree.Node p)
    (hle : start.take s₀.field.level ≤ p) : ∃ k, At start p s₀ s₀ none k := by
  cases s₀ with
  | years g => exact absurd hb id
  | slots g =>
    obtain ⟨k, h⟩ := Stepper.Begins.ready hb hl hs hp np hle
    exact ⟨k, .slots h⟩
  | listed l =>
    obtain ⟨k, h⟩ := Lister.Begins.ready hb hl hp
    exact ⟨k, .listed h⟩

end FieldSource

/-! ### Behind filters -/

namespace Generator

/-- The children of a node that a generator names: those of its source that its filters
pass. -/
def Names (g : Generator) (p : List Int) (n : Int) : Prop :=
  g.source.Names p n ∧ ∀ q ∈ g.filters, q.Passes (.ofDate (Fields.ofPath (p ++ [n])).date)

/-- A generator below the year that has not been asked yet.  Only days are filtered. -/
structure Begins (g : Generator) (start : List Int) : Prop where
  source : g.source.Begins start
  within : ∀ p n, p.length = g.source.field.level → calendarTree.Node p → g.source.Names p n →
    calendarTree p n
  days : g.filters ≠ [] → g.source.field = .day
  decides : ∀ q ∈ g.filters, q.Decides

/-- What a generator that was `g₀` at first remembers below the node `p`. -/
structure At (g₀ : Generator) (start p : List Int) (g : Generator) (last : Option Int) (k : Nat) :
    Prop where
  filters_eq : g.filters = g₀.filters
  source : ∃ last', FieldSource.At start p g₀.source g.source last' k ∧
    ∀ n, g₀.Names p n → FromStart start p n → (Past last n ↔ Past last' n)

variable {g₀ g : Generator} {start p q : List Int} {last : Option Int} {k : Nat}

theorem set_set (f : Fields) (field : Field) (m n : Int) :
    (f.set field m).set field n = f.set field n := by
  cases field <;> rfl

theorem exists_set (f : Fields) (field : Field) : ∃ n, f = f.set field n :=
  ⟨f.get field, by cases field <;> rfl⟩

theorem take_level_set (f : Fields) (field : Field) (n : Int) :
    (f.set field n).toList.take field.level = f.toList.take field.level := by
  cases field <;> rfl

theorem date_set_day (f : Fields) (n : Int) :
    (Fields.ofPath (f.toList.take 2 ++ [n])).date = (f.set .day n).date := rfl

/-- The filters have an answer for every day that the source hands out. -/
theorem Begins.acceptsAll (hb : g₀.Begins start) {f : Fields}
    (hf : f.toList.take g₀.source.field.level = p) (np : calendarTree.Node p) {v : Int}
    (hv : g₀.source.Names p v) :
    (Filter.acceptsAll g₀.filters (.ofDate (f.set g₀.source.field v).date) = .ok true ∧
        g₀.Names p v) ∨
      (Filter.acceptsAll g₀.filters (.ofDate (f.set g₀.source.field v).date) = .ok false ∧
        ¬ g₀.Names p v) := by
  rcases eq_or_ne g₀.filters [] with hnil | hne
  · refine .inl ⟨by rw [hnil, Filter.acceptsAll], hv, ?_⟩
    rw [hnil]
    simp
  · -- only generators of days have filters, and these are asked for the date that is put together
    have hday := hb.days hne
    have hdate : (Fields.ofPath (p ++ [v])).date = (f.set g₀.source.field v).date := by
      rw [← hf, hday]
      exact date_set_day f v
    have hlen : p.length = g₀.source.field.level := by
      rw [← hf, hday]
      rfl
    have hreal : (Value.ofDate (f.set g₀.source.field v).date).IsReal := by
      refine ⟨?_, by simp [Value.ofDate]⟩
      have hnode := Tree.node_concat.mpr ⟨np, hb.within p v hlen np hv⟩
      rw [← hf, hday] at hnode
      rw [hday]
      exact node_day.mp hnode
    obtain ⟨b, hbool⟩ := Filter.acceptsAll_decides hb.decides hreal
    cases b with
    | true =>
      refine .inl ⟨hbool, hv, ?_⟩
      rw [hdate]
      exact Filter.acceptsAll_eq_ok_true.mp hbool
    | false =>
      refine .inr ⟨hbool, ?_⟩
      rintro ⟨-, hpass⟩
      rw [hdate] at hpass
      rw [Filter.acceptsAll_eq_ok_true.mpr hpass] at hbool
      exact absurd hbool (by simp)

/-- What a generator that has used the numbers up to `last` answers: the next number that it names,
or that none is left.  A rollover may leave the field itself at a number that was refused. -/
def Answered (g₀ : Generator) (start p : List Int) (last : Option Int) (k : Nat) (f : Fields)
    (r : Step × Generator × Fields) : Prop :=
  (∃ v g' k', r = (.value, g', f.set g₀.source.field v) ∧
      IsNext (fun n => g₀.Names p n ∧ FromStart start p n) last v ∧
      g₀.At start p g' (some v) k' ∧ k' < k) ∨
    ∃ u g' k', r = (.rollover, g', f.set g₀.source.field u) ∧
      (∀ n, g₀.Names p n ∧ FromStart start p n → ¬ Past last n) ∧ g₀.At start p g' last k'

theorem Answered.mono {f : Fields} {j : Nat} {r : Step × Generator × Fields}
    (h : g₀.Answered start p last j f r) (hjk : j ≤ k) : g₀.Answered start p last k f r := by
  refine h.imp_left ?_
  rintro ⟨v, g', k', hr, hv, hat, hk⟩
  exact ⟨v, g', k', hr, hv, hat, hk.trans_le hjk⟩

/-- **One attempt** answers rightly, or a refused number leaves the generator where it was, with
less to hand out. -/
theorem At.attempt (hb : g₀.Begins start) {f : Fields}
    (hf : f.toList.take g₀.source.field.level = p) (np : calendarTree.Node p)
    (h : g₀.At start p g last k) :
    (∃ r, Generator.attempt g.filters (g.source, f) = .done r ∧ g₀.Answered start p last k f r) ∨
      ∃ s v k', Generator.attempt g.filters (g.source, f) = .again (s, f.set g₀.source.field v) ∧
        g₀.At start p ⟨s, g.filters⟩ last k' ∧ k' < k := by
  obtain ⟨last', hat, hlast⟩ := h.source
  rcases hat.generate hb.source hf with ⟨v, s', k', heq, hv, hat', hk⟩ | ⟨s', k', heq, hnone, hat'⟩
  · rcases hb.acceptsAll hf np hv.holds.1 with ⟨haccepts, hnames⟩ | ⟨haccepts, hnames⟩
    · refine .inl ⟨(.value, ⟨s', g.filters⟩, f.set g₀.source.field v), ?_,
        .inl ⟨v, ⟨s', g.filters⟩, k', rfl, ⟨⟨hnames, hv.holds.2⟩, ?_, fun n hn hpast => ?_⟩, ?_, hk⟩⟩
      · simp only [Generator.attempt, heq, h.filters_eq, haccepts]
      · exact (hlast v hnames hv.holds.2).mpr hv.past
      · exact hv.least n ⟨hn.1.1, hn.2⟩ ((hlast n hn.1 hn.2).mp hpast)
      · exact ⟨h.filters_eq, some v, hat', fun n _ _ => Iff.rfl⟩
    · -- the number that is refused is none that is wanted, so nothing is lost with it
      refine .inr ⟨s', v, k', ?_, ⟨h.filters_eq, some v, hat', fun n hn hfrom => ?_⟩, hk⟩
      · simp only [Generator.attempt, heq, h.filters_eq, haccepts]
      · rw [hlast n hn hfrom, past_some]
        constructor
        · intro hpast
          refine lt_of_le_of_ne (hv.least n ⟨hn.1, hfrom⟩ hpast) ?_
          rintro rfl
          exact hnames hn
        · intro hlt w hw
          exact (hv.past w hw).trans hlt
  · refine .inl ⟨(.rollover, ⟨s', g.filters⟩, f), ?_, ?_⟩
    · simp only [Generator.attempt, heq]
    · obtain ⟨u, hu⟩ := exists_set f g₀.source.field
      refine .inr ⟨u, ⟨s', g.filters⟩, k', by rw [← hu], fun n hn hpast => ?_, ?_⟩
      · exact hnone n ⟨hn.1.1, hn.2⟩ ((hlast n hn.1 hn.2).mp hpast)
      · exact ⟨h.filters_eq, last', hat', hlast⟩

/-- Attempts come to an answer: the numbers that are refused only set the field again. -/
theorem At.answers (hb : g₀.Begins start) {f : Fields}
    (hf : f.toList.take g₀.source.field.level = p) (np : calendarTree.Node p)
    (h : g₀.At start p g last k) :
    ∃ r, Settles (fun n => g.generate n f) r ∧ g₀.Answered start p last k f r := by
  refine loop_settles (fun s => patient_const (some (Generator.attempt g.filters s)))
    (fun j s => (∃ u, s.2 = f.set g₀.source.field u) ∧ j ≤ k ∧ g₀.At start p ⟨s.1, g.filters⟩ last j)
    (g₀.Answered start p last k f) ?_ (k := k) ⟨exists_set f _, le_rfl, h⟩
  rintro j ⟨s, f'⟩ ⟨⟨u, rfl⟩, hjk, hat⟩
  have hf' : (f.set g₀.source.field u).toList.take g₀.source.field.level = p := by
    rw [take_level_set, hf]
  rcases hat.attempt hb hf' np with ⟨r, hturn, hr⟩ | ⟨s', v, k', hturn, hat', hk⟩
  · simp only [Answered, set_set] at hr
    refine .inl ⟨r, ?_, Answered.mono hr hjk⟩
    simp only [hturn]
    exact settles_const _
  · rw [set_set] at hturn
    refine .inr ⟨(s', f.set g₀.source.field v), k', ?_, hk, ⟨v, rfl⟩, by omega, hat'⟩
    simp only [hturn]
    exact settles_const _

/-- **A generator below the year answers rightly**, up to the field itself, which a
rollover may leave at a number that was refused. -/
theorem At.generate (hb : g₀.Begins start) {f : Fields}
    (hf : f.toList.take g₀.source.field.level = p) (np : calendarTree.Node p)
    (h : g₀.At start p g last k) :
    (∃ v g' k', Settles (fun n => g.generate n f) (.value, g', f.set g₀.source.field v) ∧
        IsNext (fun n => g₀.Names p n ∧ FromStart start p n) last v ∧
        g₀.At start p g' (some v) k' ∧ k' < k) ∨
      ∃ u g' k', Settles (fun n => g.generate n f) (.rollover, g', f.set g₀.source.field u) ∧
        (∀ n, g₀.Names p n ∧ FromStart start p n → ¬ Past last n) ∧ g₀.At start p g' last k' := by
  obtain ⟨r, hr, ⟨v, g', k', rfl, h⟩ | ⟨u, g', k', rfl, h⟩⟩ := h.answers hb hf np
  · exact .inl ⟨v, g', k', hr, h⟩
  · exact .inr ⟨u, g', k', hr, h⟩

theorem patient_generate (g : Generator) (f : Fields) : Patient fun n => g.generate n f := by
  intro m n a hmn h
  exact patient_loop (fun s => patient_const (some (attempt g.filters s))) (g.source, f) hmn h

/-- In a later period a generator has used nothing. -/
theorem At.later (hb : g₀.Begins start) (hl : g₀.source.field.level < start.length)
    (hp : p.length = g₀.source.field.level) (hq : q.length = g₀.source.field.level)
    (np : calendarTree.Node p) (nq : calendarTree.Node q) (hpq : p < q)
    (h : g₀.At start p g last k) : ∃ k', g₀.At start q g none k' := by
  obtain ⟨last', hat, -⟩ := h.source
  obtain ⟨k', hat'⟩ := hat.later hb.source hl hp hq np nq hpq
  exact ⟨k', h.filters_eq, none, hat', fun n _ _ => Iff.rfl⟩

/-- A generator that has not been asked is ready for every node from the start on. -/
theorem Begins.ready (hb : g₀.Begins start) (hl : g₀.source.field.level < start.length)
    (hs : calendarTree.Node start) (hp : p.length = g₀.source.field.level)
    (np : calendarTree.Node p) (hle : start.take g₀.source.field.level ≤ p) :
    ∃ k, g₀.At start p g₀ none k := by
  obtain ⟨k, hat⟩ := hb.source.ready hl hs hp np hle
  exact ⟨k, rfl, none, hat, fun n _ _ => Iff.rfl⟩

end Generator

end Recurrence
