/-
Recurrence/Rule/Basic.lean

Recurrence rules.

A rule has a frequency, an interval, possibly an end, lists that restrict or
multiply its instances, and a weekday on which weeks start.  A draft is a rule
whose frequency may be missing and whose parts may be out of range; building
it gives the rule or all that is wrong with it, in a fixed order.  A built
rule is valid, and the lists are kept as they were given: with their order
and with repetitions.
-/
import Recurrence.Calendar.Zone
import Recurrence.Rule.WeekdayNum

namespace Recurrence

/-- The parts of a rule beside its frequency. -/
@[ext] structure RuleParts where
  interval : Int := 1
  count : Option Int := none
  untilBound : Option Value := none
  bySecond : List Int := []
  byMinute : List Int := []
  byHour : List Int := []
  byDay : List WeekdayNum := []
  byMonthDay : List Int := []
  byYearDay : List Int := []
  byWeekNo : List Int := []
  byMonth : List Int := []
  bySetPos : List Int := []
  weekStart : Weekday := .mo
deriving DecidableEq

/-- A rule whose parts have not been checked; without a frequency none is
known. -/
structure RuleDraft extends RuleParts where
  freq : Option Frequency
deriving DecidableEq

/-- A recurrence rule. -/
@[ext] structure Rule extends RuleParts where
  freq : Frequency
deriving DecidableEq

namespace RuleParts

/-- The values of a list part. -/
def values (r : RuleParts) : ListPart → List Int
  | .second => r.bySecond | .minute => r.byMinute | .hour => r.byHour
  | .monthDay => r.byMonthDay | .yearDay => r.byYearDay | .weekNo => r.byWeekNo
  | .month => r.byMonth | .setPos => r.bySetPos

/-- The same parts with other values of a list part. -/
def withValues (r : RuleParts) (part : ListPart) (ns : List Int) : RuleParts :=
  match part with
  | .second => { r with bySecond := ns }
  | .minute => { r with byMinute := ns }
  | .hour => { r with byHour := ns }
  | .monthDay => { r with byMonthDay := ns }
  | .yearDay => { r with byYearDay := ns }
  | .weekNo => { r with byWeekNo := ns }
  | .month => { r with byMonth := ns }
  | .setPos => { r with bySetPos := ns }

/-- Whether some weekday of the rule has an ordinal. -/
def hasOrdinals (r : RuleParts) : Bool := r.byDay.any fun e => e.ordinal.isSome

/-! ### What is wrong with the parts -/

/-- The first value of a list part that is out of its range. -/
def listFault (r : RuleParts) (part : ListPart) : Option PartFault :=
  ((r.values part).find? fun n => !part.admits n).map (.listValue part)

/-- The interval, unless it is positive. -/
def intervalFault (r : RuleParts) : Option PartFault :=
  if r.interval < 1 then some (.interval r.interval) else none

/-- The count, unless it is positive. -/
def countFault (r : RuleParts) : Option PartFault :=
  match r.count with
  | some n => if n < 1 then some (.count n) else none
  | none => none

/-- The faults of all parts, in the order in which they are reported. -/
def faults (r : RuleParts) : List PartFault :=
  [r.intervalFault, r.countFault, r.listFault .second, r.listFault .minute, r.listFault .hour,
    r.listFault .monthDay, r.listFault .yearDay, r.listFault .weekNo, r.listFault .month,
    r.listFault .setPos].filterMap id

/-- Whether the parts are those of a rule. -/
def Valid (r : RuleParts) : Prop :=
  1 ≤ r.interval ∧ (∀ n ∈ r.count, 1 ≤ n) ∧ (r.count = none ∨ r.untilBound = none) ∧
    (∀ p ∈ ListPart.all, ∀ n ∈ r.values p, p.admits n = true) ∧ ∀ e ∈ r.byDay, e.Valid

instance (r : RuleParts) : Decidable r.Valid := by unfold Valid; infer_instance

end RuleParts

/-- The rule of a draft.  That count and end exclude each other is only looked
at when all else is in order. -/
def RuleDraft.build (d : RuleDraft) : Except RuleError Rule :=
  let fail (faults : List PartFault) : Except RuleError Rule :=
    .error (.invalid (.parts faults) none)
  match d.freq with
  | none => fail (.frequency :: d.faults)
  | some freq =>
    if d.faults ≠ [] then fail d.faults
    else if d.count.isSome && d.untilBound.isSome then fail [.countAndUntil]
    else .ok { d.toRuleParts with freq }

end Recurrence
