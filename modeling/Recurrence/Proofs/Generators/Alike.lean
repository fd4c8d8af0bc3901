/-
Recurrence/Proofs/Generators/Alike.lean

Generators that cannot be told apart.

What a chain does depends on its data only through a few functions: the values that a listing
has in a period, and whether a filter accepts a value.  Listings and filters that agree in
these are alike.  Asked for the next value, generators over alike data fill the fields in the
same way and are alike again, so odometers and candidates over them go in step
(`Candidates.alike_lockstep`).
-/
import Recurrence.Proofs.Generators.Lockstep
import Recurrence.Proofs.Series.Likeness

namespace Recurrence

/-! ### Listings and filters -/

/-- Listings with the same values in every period. -/
structure Listing.Alike (l l' : Listing) : Prop where
  field : l.field = l'.field
  periodKey : ∀ f, l.periodKey f = l'.periodKey f
  values : ∀ f, l.values f = l'.values f
  singleValue : l.singleValue? = l'.singleValue?

/-- Filters that accept the same values. -/
structure Filter.Alike (p p' : Filter) : Prop where
  isAlways : p.isAlways = p'.isAlways
  accepts : ∀ v, p.accepts v = p'.accepts v

theorem Listing.Alike.refl (l : Listing) : l.Alike l := ⟨rfl, fun _ => rfl, fun _ => rfl, rfl⟩

theorem Filter.Alike.refl (p : Filter) : p.Alike p := ⟨rfl, fun _ => rfl⟩

theorem Filter.acceptsAll_alike {ps ps' : List Filter} (h : List.Forall₂ Filter.Alike ps ps')
    (v : Value) : acceptsAll ps v = acceptsAll ps' v := by
  induction h with
  | nil => rfl
  | cons head _ ih => simp only [acceptsAll, head.accepts v, ih]

/-- All of several filters together accept the same as all of filters like these. -/
theorem Filter.ofAll_alike {ps ps' : List Filter} (h : List.Forall₂ Filter.Alike ps ps') :
    (ofAll ps).Alike (ofAll ps') := by
  have hkept : List.Forall₂ Filter.Alike (ps.filter fun p => !p.isAlways)
      (ps'.filter fun p => !p.isAlways) :=
    List.rel_filter (fun p p' hp => by simp [hp.isAlways]) h
  unfold ofAll
  generalize ps.filter _ = qs at hkept ⊢
  generalize ps'.filter _ = qs' at hkept ⊢
  cases hkept with
  | nil => exact .refl _
  | cons head tail =>
    cases tail with
    | nil => exact head
    | cons head' tail' =>
      refine ⟨rfl, fun v => ?_⟩
      simp only [accepts]
      exact acceptsAll_alike (.cons head (.cons head' tail')) v

/-! ### Generators -/

/-- Generators that hand out alike listings, and have come equally far. -/
inductive Lister.Alike : Lister → Lister → Prop where
  | intro {g : Lister} {l : Listing} (h : g.listing.Alike l) : Lister.Alike g { g with listing := l }

/-- Sources of the same values. -/
inductive FieldSource.Alike : FieldSource → FieldSource → Prop where
  | years (g : YearStepper) : FieldSource.Alike (.years g) (.years g)
  | slots (g : Stepper) : FieldSource.Alike (.slots g) (.slots g)
  | listed {g g' : Lister} (h : g.Alike g') : FieldSource.Alike (.listed g) (.listed g')

/-- Generators over alike sources, with alike filters behind them. -/
structure Generator.Alike (g g' : Generator) : Prop where
  source : g.source.Alike g'.source
  filters : List.Forall₂ Filter.Alike g.filters g'.filters

theorem Lister.Alike.generate {g g' : Lister} (h : g.Alike g') (f : Fields) :
    SameAnswer Lister.Alike Eq (g.generate f) (g'.generate f) := by
  obtain ⟨hl⟩ := h
  rename_i l
  have hvalues : g.available f = { g with listing := l }.available f := by
    simp only [available, hl.periodKey, hl.values]
  simp only [Lister.generate, ← hvalues, ← hl.periodKey, ← hl.field]
  cases g.available f with
  | nil => exact ⟨_, ⟨hl⟩, rfl⟩
  | cons n rest => exact ⟨_, ⟨hl⟩, rfl⟩

theorem FieldSource.Alike.generate {s s' : FieldSource} (h : s.Alike s') (f : Fields) :
    SameAnswer FieldSource.Alike Eq (s.generate f) (s'.generate f) := by
  cases h with
  | years g => exact ⟨_, .years _, rfl⟩
  | slots g => exact ⟨_, .slots _, rfl⟩
  | listed h => exact (h.generate f).map fun _ _ h => .listed h

namespace Generator.Alike

variable {g g' : Generator}

theorem refl (g : Generator) : g.Alike g := by
  refine ⟨?_, List.forall₂_same.mpr fun p _ => .refl p⟩
  cases g.source with
  | years g => exact .years g
  | slots g => exact .slots g
  | listed g => exact .listed ⟨.refl g.listing⟩

/-- **Generators that are alike** fill the fields in the same way, and stay alike. -/
theorem generate (n : Nat) (f : Fields) (h : g.Alike g') :
    Option.Rel (SameAnswer Generator.Alike Eq) (g.generate n f) (g'.generate n f) := by
  refine generate_rel ?_ ?_ (fun _ _ hs => ⟨hs, h.filters⟩) n h.source rfl
  · rintro s s' f _ hs rfl
    exact hs.generate f
  · rintro f _ rfl
    exact Filter.acceptsAll_alike h.filters (.ofDate f.date)

theorem refill (h : g.Alike g') : g.refill.Alike g'.refill := by
  obtain ⟨source, filters⟩ := g
  obtain ⟨source', filters'⟩ := g'
  obtain ⟨hsource, hfilters⟩ := h
  cases hsource with
  | years g => exact ⟨.years _, hfilters⟩
  | slots g => exact ⟨.slots g, hfilters⟩
  | listed h => exact ⟨.listed h, hfilters⟩

theorem filtered (h : g.Alike g') {p p' : Filter} (hp : p.Alike p') :
    (g.filtered p).Alike (g'.filtered p') :=
  ⟨h.source, List.rel_append h.filters (.cons hp .nil)⟩

theorem pacer? (h : g.Alike g') : g.pacer? = g'.pacer? := by
  obtain ⟨source, filters⟩ := g
  obtain ⟨source', filters'⟩ := g'
  obtain ⟨hsource, hfilters⟩ := h
  cases hsource <;> cases hfilters <;> rfl

theorem singleValue? (h : g.Alike g') : g.singleValue? = g'.singleValue? := by
  obtain ⟨source, filters⟩ := g
  obtain ⟨source', filters'⟩ := g'
  obtain ⟨hsource, hfilters⟩ := h
  cases hsource with
  | years g => cases hfilters <;> rfl
  | slots g => cases hfilters <;> rfl
  | listed h =>
    obtain ⟨hl⟩ := h
    cases hfilters with
    | nil => exact hl.singleValue
    | cons _ _ => rfl

end Generator.Alike

/-- Generators that are alike go in step, on the same fields. -/
theorem Generator.alike_lockstep : Generator.Lockstep Generator.Alike Eq Eq where
  generate n _ _ f _ h hf := hf ▸ h.generate n f
  refill _ _ h := h.refill
  stands _ _ _ _ hf hl := by
    subst hf hl
    exact ⟨.rfl, .rfl, .rfl⟩

/-! ### Candidates -/

namespace Candidates

/-- Candidates of alike generators, with alike filters behind them. -/
inductive Alike : Candidates → Candidates → Prop where
  | intro {c : Candidates} {chain : List Generator} {filter : Filter}
      (hchain : List.Forall₂ Generator.Alike c.chain chain) (hfilter : c.filter.Alike filter) :
      Alike c { c with chain, filter }

variable {c c' : Candidates}

/-- Candidates that are alike are in step. -/
theorem Alike.inStep (h : c.Alike c') :
    InStep Generator.Alike Eq (Same fun _ => True) c c' := by
  obtain ⟨hchain, hfilter⟩ := h
  exact ⟨hchain, rfl, rfl, fun f f' hf => ⟨hf ▸ rfl, trivial⟩, fun v v' hv => hv.1 ▸ hfilter.accepts v⟩

theorem Alike.chain_length (h : c.Alike c') : c.chain.length = c'.chain.length :=
  h.inStep.chain_length

theorem Alike.run (n count index : Nat) (h : c.Alike c') :
    Option.Rel (SameRun (InStep Generator.Alike Eq (Same fun _ => True))) (c.run n count index)
      (c'.run n count index) :=
  h.inStep.run Generator.alike_lockstep n count index

/-- **Candidates that are alike go in step.** -/
theorem alike_lockstep : Candidates.Lockstep (Same fun _ => True) Eq
    (InStep Generator.Alike Eq (Same fun _ => True)) :=
  InStep.lockstep Generator.alike_lockstep

end Candidates

end Recurrence
