/-
Recurrence/Expansion/Selection.lean

Choosing among the candidates of each period by their position.

Candidates are gathered a period at a time: as long as their key stays the
same they belong together, and the first one of the next period is held back
for the next round.  Of a period those at the listed positions are selected,
negative positions counting from its end.  Where all positions are positive,
the candidates beyond the greatest one are dropped as they come.

Where all periods have equally many candidates, a period that selects nothing
ends the series, since no other would select anything either.

The candidates may come from any source and be of any kind.
-/
import Recurrence.Calendar.Ascending
import Recurrence.Calendar.Week
import Recurrence.Expansion.Loop

namespace Recurrence

/-- How a source is asked for its next candidate. -/
abbrev NextOf (σ α ε : Type) := σ → Option (Except ε (Option α) × σ)

/-- The candidates and what is known about them so far. -/
structure Selection (σ α : Type) where
  source : σ
  positions : List Int
  /-- Whether all periods have equally many candidates. -/
  uniform : Bool
  /-- The first candidate of the next period, if it has been seen. -/
  heldBack : Option α := none
  /-- Selected candidates that have not been handed out. -/
  pending : List α := []
  finished : Bool := false

/-- The elements at the listed positions, ascending and each once. -/
def selectPositions (positions : List Int) (candidates : List α) : List α :=
  let items := candidates.toArray
  let count : Int := items.size
  let indexes := ascendingInts (positions.map fun p => Gregorian.positionFromStart p count)
  (indexes.filter fun i => 1 ≤ i && i ≤ count).filterMap fun i => items[(i - 1).toNat]?

/-- How many candidates of a period need to be kept; none if all of them. -/
def keptOfPeriod (positions : List Int) : Option Nat :=
  if positions.all fun p => 0 < p then some (positions.foldl max 0).toNat else none

namespace Selection

/-- A period in the middle of being gathered: the candidates so far, the last one
first, and how many more to keep. -/
structure Gathering (σ α : Type) where
  source : σ
  kept : List α
  room : Option Nat

/-- A gathered period: its candidates, and the first one of the next period or
none if there is no next. -/
structure Period (σ α : Type) where
  source : σ
  candidates : List α
  following : Option α

variable {σ α ε κ : Type} [DecidableEq κ]

/-- Look at one more candidate of the period with a given key. -/
def gatherTurn (next : NextOf σ α ε) (key : α → κ) (k : κ) (g : Gathering σ α) :
    Option (Turn (Gathering σ α) (Except ε (Period σ α) × σ)) :=
  match next g.source with
  | none => none
  | some (.error e, source) => some (.done (.error e, source))
  | some (.ok none, source) => some (.done (.ok ⟨source, g.kept.reverse, none⟩, source))
  | some (.ok (some v), source) =>
    if key v ≠ k then some (.done (.ok ⟨source, g.kept.reverse, some v⟩, source))
    else match g.room with
      | none => some (.again ⟨source, v :: g.kept, none⟩)
      | some 0 => some (.again ⟨source, g.kept, some 0⟩)
      | some (n + 1) => some (.again ⟨source, v :: g.kept, some n⟩)

/-- The first candidate of the next period. -/
def first (next : NextOf σ α ε) (s : Selection σ α) : Option (Except ε (Option α) × σ) :=
  match s.heldBack with
  | some v => some (.ok (some v), s.source)
  | none => next s.source

/-- Gather the next period; an empty list if there is none. -/
def collect (next : NextOf σ α ε) (key : α → κ) (bound : Nat) (s : Selection σ α) :
    Option (Except ε (List α) × Selection σ α) :=
  match s.first next with
  | none => none
  | some (.error e, source) => some (.error e, { s with source, heldBack := none })
  | some (.ok none, source) => some (.ok [], { s with source, heldBack := none })
  | some (.ok (some v), source) =>
    let room := (keptOfPeriod s.positions).map fun n => n - 1
    match loop (gatherTurn next key (key v)) bound ⟨source, [v], room⟩ with
    | none => none
    | some (.error e, source) => some (.error e, { s with source, heldBack := none })
    | some (.ok p, _) =>
      some (.ok p.candidates,
        { s with
          source := p.source, heldBack := p.following,
          finished := s.finished || p.following.isNone })

/-- Hand out a selected candidate, or gather one more period. -/
def turn (next : NextOf σ α ε) (credit : σ → σ) (key : α → κ) (bound : Nat) (s : Selection σ α) :
    Option (Turn (Selection σ α) (Except ε (Option α) × Selection σ α)) :=
  match s.pending with
  | v :: pending => some (.done (.ok (some v), { s with pending }))
  | [] =>
    if s.finished then some (.done (.ok none, s))
    else match s.collect next key bound with
      | none => none
      | some (.error e, s) => some (.done (.error e, s))
      | some (.ok candidates, s) =>
        if candidates.isEmpty then some (.done (.ok none, { s with finished := true }))
        else match selectPositions s.positions candidates with
          | [] =>
            if s.uniform then some (.done (.ok none, { s with finished := true }))
            else some (.again s)
          | pending => some (.again { s with pending, source := credit s.source })

/-- The next selected candidate, or none once there is no more. -/
def next (nextCandidate : NextOf σ α ε) (credit : σ → σ) (key : α → κ) (bound : Nat)
    (s : Selection σ α) : Option (Except ε (Option α) × Selection σ α) :=
  loop (turn nextCandidate credit key bound) bound s

end Selection

end Recurrence
