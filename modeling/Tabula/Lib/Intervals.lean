import Mathlib.Order.Lattice
import Mathlib.Tactic.Common

/-!
# Intervals that meet

Closed intervals of a linear order, as pairs of their ends. Two of them meet when
neither lies behind the other.

The one fact needed about them is why a hull can be wider than the interval it was
chosen by. Take every interval that meets a given one, and an interval that meets
neither: it lies on one side of the given one, and from there it cannot be between the
given one and an interval that reaches into it. So it lies on the same side of all of
them (`Intervals.Below.of_meet`, `Intervals.Below.of_meet_left`).
-/

namespace Intervals

variable {α : Type*} [LinearOrder α] {a b c : α × α}

/-- The intervals have a point in common. -/
def Meet (a b : α × α) : Prop := a.1 ≤ b.2 ∧ b.1 ≤ a.2

/-- The first interval lies before the second. -/
def Below (a b : α × α) : Prop := a.2 < b.1

theorem not_meet_iff : ¬Meet a b ↔ Below b a ∨ Below a b := by
  rw [Meet, not_and_or, not_le, not_le, Below, Below]

/-- What lies before an interval lies before one that reaches into it. -/
theorem Below.of_meet (h : Below c a) (hc : c.1 ≤ c.2) (hab : Meet a b) (hbc : ¬Meet b c) :
    Below c b := by
  refine (not_meet_iff.mp hbc).resolve_right fun hb => ?_
  exact absurd (hab.1.trans_lt (hb.trans_le hc)) (not_lt.mpr h.le)

/-- What lies behind an interval lies behind one that reaches into it. -/
theorem Below.of_meet_left (h : Below a c) (hc : c.1 ≤ c.2) (hab : Meet a b) (hbc : ¬Meet b c) :
    Below b c := by
  refine (not_meet_iff.mp hbc).resolve_left fun hb => ?_
  exact absurd ((hc.trans_lt hb).trans_le hab.2) (not_lt.mpr (le_of_lt h))

end Intervals
