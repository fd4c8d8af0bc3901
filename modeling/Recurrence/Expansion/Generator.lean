/-
Recurrence/Expansion/Generator.lean

The generators of the six fields.

A generator steps through years, steps through a smaller unit, or hands out
listed values.  Filters may stand behind it: then the values that do not pass
are skipped at once, before any finer field is filled, so that parts of a rule
that concern the date are checked once a day and not for every time of it.
-/
import Recurrence.Expansion.Filter
import Recurrence.Expansion.Loop
import Recurrence.Expansion.Pacing

namespace Recurrence

/-- Where the values of a field come from, before filters. -/
inductive FieldSource where
  | years (g : YearStepper)
  | slots (g : Stepper)
  | listed (g : Lister)
deriving DecidableEq

/-- The next value of a field. -/
def FieldSource.generate (s : FieldSource) (f : Fields) : Step × FieldSource × Fields :=
  match s with
  | years g => let (step, g, f) := g.generate f; (step, .years g, f)
  | slots g => let (step, g, f) := g.generate f; (step, .slots g, f)
  | listed g => let (step, g, f) := g.generate f; (step, .listed g, f)

/-- A generator with the filters behind it, the innermost first. -/
structure Generator where
  source : FieldSource
  filters : List Filter := []

namespace Generator

/-- The generator with one more filter behind it. -/
def filtered (g : Generator) (p : Filter) : Generator :=
  { g with filters := g.filters ++ [p] }

/-- One try of a generator: a value that the filters refuse is skipped. -/
def attempt (filters : List Filter) (s : FieldSource × Fields) :
    Turn (FieldSource × Fields) (Step × Generator × Fields) :=
  let (step, source, f) := s.1.generate s.2
  match step with
  | .value =>
    match Filter.acceptsAll filters (.ofDate f.date) with
    | .ok true => .done (.value, ⟨source, filters⟩, f)
    | .ok false => .again (source, f)
    | .error why => .done (.undefined why, ⟨source, filters⟩, f)
  | step => .done (step, ⟨source, filters⟩, f)

/-- Fill the field with the next value that passes the filters. -/
def generate (bound : Nat) (g : Generator) (f : Fields) : Option (Step × Generator × Fields) :=
  loop (fun s => some (attempt g.filters s)) bound (g.source, f)

/-! ### What a generator is capable of -/

/-- The only value of every period, if there is only one and nothing filters
it. -/
def singleValue? (g : Generator) : Option Int :=
  match g.source, g.filters with
  | .listed l, [] => l.listing.singleValue?
  | _, _ => none

/-- Whether the generator gives up after too many idle years. -/
def hasBudget (g : Generator) : Bool :=
  match g.source, g.filters with
  | .years _, [] => true
  | _, _ => false

/-- What the generator tells about the years that hold its slots. -/
def pacer? (g : Generator) : Option Pacer :=
  match g.source, g.filters with
  | .slots s, [] => some (.slots s)
  | _, _ => none

/-- The generator with its budget of idle years filled up, if it has one. -/
def refill (g : Generator) : Generator :=
  match g.source with
  | .years y => { g with source := .years y.refill }
  | _ => g

/-- The generator paced by another, if it steps through years. -/
def pacedBy (g : Generator) (p : Pacer) : Generator :=
  match g.source with
  | .years y => { g with source := .years { y with pacer := some p } }
  | _ => g

/-- A generator as it is shown. -/
def text (g : Generator) : String :=
  let inner := match g.source with
    | .years s => s.text
    | .slots s => s.text
    | .listed s => s.listing.text
  g.filters.foldl (fun s _ => "FilteredDayGenerator(" ++ s ++ ")") inner

end Generator

end Recurrence
