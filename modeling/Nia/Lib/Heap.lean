import Mathlib

/-! Binary heaps in an array.

A heap is a property of positions only: `le i j` says that what is at `i` is at most what is at `j`. An exchange of two
positions then is a renaming of positions. One position may be out of order with its children while an element sinks
(`Sinking`); it stays the only one until the element rests. -/
namespace Nia.Lib.Heap

/-- The children of a position. -/
def IsChild (parent child : Nat) : Prop := child = parent * 2 + 1 ∨ child = parent * 2 + 2

theorem IsChild.lt {parent child : Nat} (h : IsChild parent child) : parent < child := by
  rw [IsChild] at h
  omega

theorem IsChild.unique {parent other child : Nat} (h : IsChild parent child) (hother : IsChild other child) :
    other = parent := by
  rw [IsChild] at h hother
  omega

/-- From `low` on, every position is at least its children in front of `count`. -/
def Ordered (le : Nat → Nat → Prop) (low count : Nat) : Prop :=
  ∀ parent child, IsChild parent child → low ≤ parent → child < count → le child parent

/-- The same but for one position; its children are at most its parent. -/
structure Sinking (le : Nat → Nat → Prop) (low count hole : Nat) : Prop where
  except : ∀ parent child, IsChild parent child → low ≤ parent → parent ≠ hole → child < count → le child parent
  across : ∀ parent child, IsChild parent hole → low ≤ parent → IsChild hole child → child < count → le child parent

/-- The order after an exchange. -/
def exchanged (le : Nat → Nat → Prop) (i j : Nat) : Nat → Nat → Prop :=
  fun a b => le (Equiv.swap i j a) (Equiv.swap i j b)

section

variable {le : Nat → Nat → Prop} {low count hole : Nat}

/-- Where no position has children. -/
theorem ordered_leaves (le : Nat → Nat → Prop) (count : Nat) : Ordered le (count / 2) count := by
  intro parent child hchild hlow hcount
  rw [IsChild] at hchild
  omega

/-- A new position in front of a heap. -/
theorem Ordered.sinking (h : Ordered le (hole + 1) count) : Sinking le hole count hole where
  except parent child hchild hlow hne := h parent child hchild (by omega)
  across parent child hhole hlow := absurd hhole.lt (by omega)

/-- The last position of a heap, put in the place of the first. -/
theorem Ordered.exchanged (h : Ordered le 0 (count + 1)) : Sinking (exchanged le 0 count) 0 count 0 where
  except parent child hchild hlow hne hcount := by
    have hlt := hchild.lt
    rw [Heap.exchanged, Equiv.swap_apply_of_ne_of_ne (by omega) (by omega),
      Equiv.swap_apply_of_ne_of_ne (by omega) (by omega)]
    exact h parent child hchild hlow (by omega)
  across parent child hhole := absurd hhole.lt (by omega)

/-- The element rests. -/
theorem Sinking.rest (h : Sinking le low count hole)
    (hrest : ∀ child, IsChild hole child → child < count → le child hole) : Ordered le low count := by
  intro parent child hchild hlow hcount
  by_cases hne : parent = hole
  · subst hne
    exact hrest child hchild hcount
  · exact h.except parent child hchild hlow hne hcount

/-- The element goes on to a child that is at least the other. -/
theorem Sinking.sink (h : Sinking le low count hole) (hlow : low ≤ hole) {largest : Nat}
    (hlargest : IsChild hole largest) (hcount : largest < count)
    (hmax : ∀ child, IsChild hole child → child < count → le child largest) (hle : le hole largest) :
    Sinking (exchanged le hole largest) low count largest := by
  have hlt := hlargest.lt
  constructor
  · intro parent child hchild hparent hne hchildCount
    have hchildLt := hchild.lt
    rw [exchanged]
    by_cases hhole : parent = hole
    · subst hhole
      rw [Equiv.swap_apply_left]
      by_cases hsame : child = largest
      · subst hsame
        rwa [Equiv.swap_apply_right]
      · rw [Equiv.swap_apply_of_ne_of_ne (by omega) hsame]
        exact hmax child hchild hchildCount
    · rw [Equiv.swap_apply_of_ne_of_ne hhole hne]
      by_cases hsame : child = hole
      · subst hsame
        rw [Equiv.swap_apply_left]
        exact h.across parent largest hchild hparent hlargest hcount
      · have hother : child ≠ largest := by
          rintro rfl
          exact hhole (hlargest.unique hchild)
        rw [Equiv.swap_apply_of_ne_of_ne hsame hother]
        exact h.except parent child hchild hparent hhole hchildCount
  · intro parent child hparent _ hchild hchildCount
    obtain rfl := hlargest.unique hparent
    have hchildLt := hchild.lt
    rw [exchanged, Equiv.swap_apply_left, Equiv.swap_apply_of_ne_of_ne (by omega) (by omega)]
    exact h.except largest child hchild (by omega) (by omega) hchildCount

/-- The first position of a heap is at least all others. -/
theorem Ordered.le_zero (h : Ordered le 0 count) (hrefl : ∀ i < count, le i i)
    (htrans : ∀ i j k, j < count → le i j → le j k → le i k) {i : Nat} (hi : i < count) : le i 0 := by
  induction i using Nat.strongRecOn with
  | _ i ih =>
    by_cases hzero : i = 0
    · subst hzero
      exact hrefl 0 hi
    · have hchild : IsChild ((i - 1) / 2) i := by
        rw [IsChild]
        omega
      have hlt := hchild.lt
      exact htrans i _ 0 (by omega) (h _ i hchild (Nat.zero_le _) hi) (ih _ hlt (by omega))

end

end Nia.Lib.Heap
