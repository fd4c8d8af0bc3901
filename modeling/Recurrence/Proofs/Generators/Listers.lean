/-
Recurrence/Proofs/Generators/Listers.lean

Listers hand out the values of their list, in every period.

A lister keeps what is left of one period.  The invariant `Lister.At` looks only at
what it would hand out next (`Lister.available`), whether this has been kept or is
computed afresh: it is the ascending list of the numbers not used so far.
-/
import Recurrence.Proofs.Calendar.Ascending
import Recurrence.Proofs.Generators.Answers

namespace Recurrence

/-! ### Ascending values -/

theorem pairwise_daysOfMonth (year month : Int) :
    (daysOfMonth year month).Pairwise (· < ·) := by
  rw [daysOfMonth, List.pairwise_map]
  refine List.pairwise_lt_range.imp ?_
  intro a b h
  omega

theorem mem_daysOfMonth {year month d : Int} :
    d ∈ daysOfMonth year month ↔ 1 ≤ d ∧ d ≤ Gregorian.monthLength year month := by
  simp only [daysOfMonth, List.mem_map, List.mem_range]
  constructor
  · rintro ⟨k, hk, rfl⟩
    omega
  · intro h
    exact ⟨(d - 1).toNat, by omega, by omega⟩

/-- **The values of a listing come in ascending order.** -/
theorem Listing.pairwise_values (l : Listing) (f : Fields) : (l.values f).Pairwise (· < ·) := by
  cases l with
  | weekNumbers ns weekStart => exact (pairwise_daysOfMonth _ _).filter _
  | months | monthDays | yearDays | weekdays | clock =>
    exact pairwise_ascendingInts _

namespace Lister

/-- The children of a node that are listed. -/
def Names (l : Lister) (p : List Int) (n : Int) : Prop := n ∈ l.listing.values (.ofPath p)

/-- A lister that has not been asked yet. -/
structure Begins (l : Lister) (start : List Int) : Prop where
  startPeriod_eq : l.startPeriod = start.take l.listing.field.level
  floor_eq : ∀ s ∈ start[l.listing.field.level]?, l.floor = s
  period_eq : l.period = none

/-- What a lister that was `l₀` at first remembers below the node `p`, having used its
children up to `last`. -/
structure At (l₀ : Lister) (start p : List Int) (l : Lister) (last : Option Int) (k : Nat) :
    Prop where
  listing_eq : l.listing = l₀.listing
  startPeriod_eq : l.startPeriod = l₀.startPeriod
  floor_eq : l.floor = l₀.floor
  remembered : ∀ q ∈ l.period, q ≤ p
  ascending : (l.available (.ofPath p)).Pairwise (· < ·)
  mem_iff : ∀ n, n ∈ l.available (.ofPath p) ↔ (l₀.Names p n ∧ FromStart start p n) ∧ Past last n
  room : (l.available (.ofPath p)).length ≤ k

variable {l₀ l : Lister} {start p q : List Int} {last : Option Int} {k : Nat}

/-! ### What is available -/

theorem periodKey_ofPath (l : Listing) (hp : p.length = l.field.level) :
    l.periodKey (.ofPath p) = p := by
  rw [Listing.periodKey_eq_take, ← hp, Fields.take_ofPath (hp.trans_le l.field.level_lt.le)]

theorem available_ofPath (l : Lister) (f : Fields) :
    l.available (.ofPath (f.toList.take l.listing.field.level)) = l.available f := by
  have hp := f.length_take_level l.listing.field
  simp only [available, periodKey_ofPath _ hp, Listing.values_ofPath, Listing.periodKey_eq_take]

/-- What has been kept of a period is what is available in it. -/
theorem available_kept (l : Lister) (rest : List Int) (hp : p.length = l.listing.field.level) :
    { l with period := some p, rest }.available (.ofPath p) = rest := by
  simp [available, periodKey_ofPath l.listing hp]

/-- In a period that is not the one kept, the whole list is available from the start on. -/
theorem mem_available_fresh (hb : l₀.Begins start) (hl : l₀.listing.field.level < start.length)
    (hp : p.length = l₀.listing.field.level) (listing_eq : l.listing = l₀.listing)
    (startPeriod_eq : l.startPeriod = l₀.startPeriod) (floor_eq : l.floor = l₀.floor)
    (hne : l.period ≠ some p) (n : Int) :
    n ∈ l.available (.ofPath p) ↔ l₀.Names p n ∧ FromStart start p n := by
  have hfloor := hb.floor_eq _ (List.getElem?_eq_getElem hl)
  simp only [available, listing_eq, startPeriod_eq, floor_eq, periodKey_ofPath _ hp, if_neg hne,
    hb.startPeriod_eq, hfloor, Names, FromStart, hp, List.getElem?_eq_getElem hl, Option.mem_some_iff,
    forall_eq']
  split_ifs with h
  · simp [h]
  · simp [h]

theorem pairwise_available_fresh (hne : l.period ≠ some p)
    (hp : p.length = l.listing.field.level) : (l.available (.ofPath p)).Pairwise (· < ·) := by
  simp only [available, periodKey_ofPath _ hp, if_neg hne]
  split_ifs
  · exact (l.listing.pairwise_values _).filter _
  · exact l.listing.pairwise_values _

/-- In a period that is not the one kept, a lister has used nothing. -/
theorem fresh (hb : l₀.Begins start) (hl : l₀.listing.field.level < start.length)
    (hp : p.length = l₀.listing.field.level) (listing_eq : l.listing = l₀.listing)
    (startPeriod_eq : l.startPeriod = l₀.startPeriod) (floor_eq : l.floor = l₀.floor)
    (hlt : ∀ q ∈ l.period, q < p) : ∃ k, At l₀ start p l none k := by
  have hne : l.period ≠ some p := fun h => lt_irrefl p (hlt p h)
  refine ⟨_, listing_eq, startPeriod_eq, floor_eq, fun q hq => (hlt q hq).le,
    pairwise_available_fresh hne (by rw [listing_eq]; exact hp), ?_, le_rfl⟩
  intro n
  rw [mem_available_fresh hb hl hp listing_eq startPeriod_eq floor_eq hne, and_iff_left (past_none n)]

/-! ### Answers -/

/-- A lister that keeps the numbers after `last` stands there. -/
theorem At.keep (h : At l₀ start p l last k) (hp : p.length = l.listing.field.level)
    {rest : List Int} {last' : Option Int}
    (hrest : Unused (fun n => l₀.Names p n ∧ FromStart start p n) last' rest) :
    At l₀ start p { l with period := some p, rest } last' rest.length where
  listing_eq := h.listing_eq
  startPeriod_eq := h.startPeriod_eq
  floor_eq := h.floor_eq
  remembered := by
    rintro q ⟨⟩
    exact le_rfl
  ascending := by
    rw [available_kept l rest hp]
    exact hrest.ascending
  mem_iff := by
    rw [available_kept l rest hp]
    exact hrest.mem_iff
  room := by rw [available_kept l rest hp]

/-- **A lister answers rightly**: with the next listed number, or with a rollover. -/
theorem At.generate {f : Fields} (hf : f.toList.take l₀.listing.field.level = p)
    (h : At l₀ start p l last k) :
    Answers l₀.listing.field (fun n => l₀.Names p n ∧ FromStart start p n) (At l₀ start p) last k f
      (l.generate f) := by
  have hp : p.length = l.listing.field.level := by
    rw [← hf, h.listing_eq, Fields.length_take_level]
  have hkey : l.listing.periodKey f = p := by
    rw [Listing.periodKey_eq_take, h.listing_eq, hf]
  have havail : l.available f = l.available (.ofPath p) := by
    rw [← available_ofPath, h.listing_eq, hf]
  have hunused : Unused (fun n => l₀.Names p n ∧ FromStart start p n) last
      (l.available (.ofPath p)) := ⟨h.ascending, h.mem_iff⟩
  have hroom := h.room
  -- what is available are the numbers that are left, in ascending order
  simp only [Lister.generate, hkey, havail]
  cases hav : l.available (.ofPath p) with
  | nil =>
    rw [hav] at hunused
    exact .inr ⟨{ l with period := some p, rest := [] }, 0, rfl, fun u => hunused.not_past,
      h.keep hp hunused⟩
  | cons v rest =>
    rw [hav] at hunused hroom
    refine .inl ⟨v, { l with period := some p, rest }, rest.length, by simp only [h.listing_eq],
      hunused.isNext, h.keep hp hunused.tail, ?_⟩
    rw [List.length_cons] at hroom
    omega

/-- In a later period a lister has used nothing. -/
theorem At.later (hb : l₀.Begins start) (hl : l₀.listing.field.level < start.length)
    (hq : q.length = l₀.listing.field.level) (hpq : p < q) (h : At l₀ start p l last k) :
    ∃ k', At l₀ start q l none k' :=
  fresh hb hl hq h.listing_eq h.startPeriod_eq h.floor_eq
    fun r hr => lt_of_le_of_lt (h.remembered r hr) hpq

/-- A lister that has not been asked is ready for every node. -/
theorem Begins.ready (hb : l₀.Begins start) (hl : l₀.listing.field.level < start.length)
    (hp : p.length = l₀.listing.field.level) : ∃ k, At l₀ start p l₀ none k :=
  fresh hb hl hp rfl rfl rfl (by simp [hb.period_eq])

end Lister

end Recurrence
