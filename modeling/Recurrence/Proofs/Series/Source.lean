/-
Recurrence/Proofs/Series/Source.lean

What a series knows of the source of its instances.

The instances of a series come either from a chain of generators or from a selection
among its candidates.  A supply says for one kind of source which values belong to
it, which of them it still awaits, and what its state tells once it has none left.
The rest of the theory of a series looks at its source through a supply alone
(`Supply.Lawful`).

A source may go astray: from the moment the generator of the years gives up, a
selection hands out what it has gathered by then, which need not be what it would
have selected.  A chain never does (`Course.supply`).
-/
import Recurrence.Proofs.Series.Patience

namespace Recurrence

/-- Whether the generator of the years has given up on a source.  A selection fills the
budget up again after the last period that it has gathered; it knows by then that no
candidate follows. -/
def InstanceSource.halted : InstanceSource → Bool
  | .plain c => c.gaveUp
  | .selected s => s.source.gaveUp || (s.finished && s.heldBack.isNone)

/-- What is known about a kind of source. -/
structure Supply where
  /-- The values that belong to a source. -/
  Member : Value → Prop
  /-- A source still has all members with a property. -/
  Awaits : InstanceSource → (Value → Prop) → Prop
  /-- A source that had all members with a property hands out no more. -/
  Over : InstanceSource → (Value → Prop) → Prop
  /-- A source hands out values that need not be the next members. -/
  Astray : InstanceSource → Prop

namespace Supply

/-- What a source that awaits the members with `R` answers: the first of them, unless it
has gone astray, or none. -/
def Gives (S : Supply) (timed : Bool) (src : InstanceSource) (R : Value → Prop)
    (answer : Except Undefined (Option Value)) (src' : InstanceSource) : Prop :=
  (S.Astray src → S.Astray src') ∧
    ((∃ v, answer = .ok (some v) ∧ (v.IsReal ∧ v.hasTime = timed ∧ R v) ∧ S.Awaits src' (v < ·) ∧
        (S.Astray src' ∨ IsLeast {w | S.Member w ∧ R w} v)) ∨
      answer = .ok none ∧ S.Over src' R)

/-- A supply tells the truth about the sources of a rule with some start. -/
structure Lawful (S : Supply) (r : Rule) (start : Value) : Prop where
  member : ∀ v, S.Member v → v.IsReal ∧ v.hasTime = start.hasTime
  next : ∀ src R, S.Awaits src R → ∃ answer src',
    Settles (fun n => src.next r n) (answer, src') ∧ S.Gives start.hasTime src R answer src'
  over_from : ∀ src R, S.Over src R → S.Over src fun w => R w ∧ start ≤ w

/-- As long as the years have not given up, a source does not go astray, and it is over only if no
member is left. -/
structure Honest (S : Supply) : Prop where
  straight : ∀ {src}, src.halted = false → ¬ S.Astray src
  none_left : ∀ {src R}, src.halted = false → S.Over src R → ∀ w, S.Member w → ¬ R w

end Supply

/-! ### Chains -/

namespace Course

variable {K : Course} {r : Rule}

/-- What ties the year in which the budget was last full to the values that are awaited:
a relation that holds at the start and that a candidate keeps. -/
structure Ties (K : Course) (start : Value) (Tied : Int → (Value → Prop) → Prop) : Prop where
  begins : Tied (start.date.year - 1) fun w => start.date.year ≤ w.date.year
  after : ∀ base R v, Tied base R → Tied (K.baseAfter base v) (v < ·)
  within : ∀ base R, Tied base R → Tied base fun w => R w ∧ start ≤ w
  fresh : ∀ base, Tied base (start ≤ ·)

/-- The supply of a chain. -/
def supply (K : Course) (Tied : Int → (Value → Prop) → Prop) : Supply where
  Member := K.Member
  Awaits src R := ∃ c base, src = .plain c ∧ K.Awaits base c R ∧ Tied base R
  Over src R := src.halted = true ∧ ∃ base, Tied base R ∧
    K.Exhausted base fun w => K.Member w ∧ R w
  Astray _ := False

/-- **The supply of a chain is lawful.** -/
theorem Begins.lawful_supply (hK : K.Begins) {Tied : Int → (Value → Prop) → Prop} {start : Value}
    (hstart : start.hasTime = K.hasTime) (hT : K.Ties start Tied) :
    (K.supply Tied).Lawful r start where
  member v hv := ⟨hK.isReal hv.1, hv.1.hasTime.trans hstart.symm⟩
  next := by
    rintro src R ⟨c, base, rfl, hawaits, htied⟩
    obtain ⟨⟨answer, c'⟩, hsettles, h⟩ := hawaits.next hK
    refine ⟨answer, .plain c', hsettles.map fun a => (a.1, InstanceSource.plain a.2),
      False.elim, ?_⟩
    rcases h with ⟨v, rfl, hleast, -, -, hawaits'⟩ | ⟨rfl, hgave, hex⟩
    · have hkind : v.hasTime = K.hasTime := hleast.1.1.1.hasTime
      exact .inl ⟨v, rfl, ⟨hK.isReal hleast.1.1.1, hkind.trans hstart.symm, hleast.1.2⟩,
        ⟨c', _, rfl, hawaits', hT.after base R v htied⟩, .inr hleast⟩
    · exact .inr ⟨rfl, hgave, base, htied, hex⟩
  over_from := by
    rintro src R ⟨hhalted, base, htied, hex⟩
    exact ⟨hhalted, base, hT.within base R htied, hex.mono fun w hw => ⟨hw.1, hw.2.1⟩⟩

/-- A chain is over only if the years have given up. -/
theorem honest_supply (K : Course) (Tied : Int → (Value → Prop) → Prop) : (K.supply Tied).Honest where
  straight _ := id
  none_left hgoes hover := absurd (hover.1.symm.trans hgoes) (by simp)

/-- Nothing is tied. -/
theorem ties_free (K : Course) (start : Value) : K.Ties start fun _ _ => True :=
  ⟨trivial, fun _ _ _ _ => trivial, fun _ _ _ => trivial, fun _ => trivial⟩

/-- The budget was last full in no earlier year than that of any value from the start on
that is not awaited any more. -/
def TiedToYear (K : Course) (start : Value) (base : Int) (R : Value → Prop) : Prop :=
  ∀ w, w.hasTime = K.hasTime → start ≤ w → ¬ R w → w.date.year ≤ base

/-- Where each candidate fills the budget up, it was last full in the year of the last
candidate. -/
theorem ties_toYear {start : Value} (hcredited : K.credited.isSome = true) :
    K.Ties start (K.TiedToYear start) where
  begins w _ hle hyear := absurd (Value.year_le_of_le hle) hyear
  after base _ v _ w _ _ hle := by
    rw [baseAfter, if_pos hcredited]
    exact Value.year_le_of_le (not_lt.mp hle)
  within base R h w hw hle hR := h w hw hle fun hRw => hR ⟨hRw, hle⟩
  fresh base w _ hle hnot := absurd hle hnot

end Course

end Recurrence
