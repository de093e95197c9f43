import Mathlib

/-! Regions of memory.

A region is a range of addresses. Two regions are apart when no address is in both, and a region lies inside
another when all its addresses do; an empty one is apart from every region and inside every one. What lies inside
regions that are apart is apart. -/
namespace Nia.Lib

/-- A range of addresses. -/
structure Region where
  start : Nat
  size : Nat

namespace Region

def stop (region : Region) : Nat := region.start + region.size

/-- No address is in both. -/
def Apart (region other : Region) : Prop :=
  region.size = 0 ∨ other.size = 0 ∨ region.stop ≤ other.start ∨ other.stop ≤ region.start

/-- Every address of the one is in the other. -/
def Inside (region outer : Region) : Prop :=
  region.size = 0 ∨ (outer.start ≤ region.start ∧ region.stop ≤ outer.stop)

variable {region region' other outer outer' : Region}

theorem Apart.symm (h : Apart region other) : Apart other region := by
  obtain h | h | h | h := h
  · exact Or.inr (Or.inl h)
  · exact Or.inl h
  · exact Or.inr (Or.inr (Or.inr h))
  · exact Or.inr (Or.inr (Or.inl h))

theorem Apart.of_inside (h : Apart outer other) (hinside : Inside region outer) : Apart region other := by
  obtain hempty | ⟨hstart, hstop⟩ := hinside
  · exact Or.inl hempty
  · obtain h | h | h | h := h
    · refine Or.inl ?_
      simp only [stop] at hstop
      omega
    · exact Or.inr (Or.inl h)
    · exact Or.inr (Or.inr (Or.inl (Nat.le_trans hstop h)))
    · exact Or.inr (Or.inr (Or.inr (Nat.le_trans h hstart)))

/-- What lies inside regions that are apart is apart. -/
theorem Apart.of_inside_of_inside (h : Apart outer outer') (hinside : Inside region outer)
    (hinside' : Inside region' outer') : Apart region region' :=
  ((h.of_inside hinside).symm.of_inside hinside').symm

end Region

end Nia.Lib
