import Nia.Lib.Trapping

/-! The in-place stable sort of the standard library's slices.

A run owns the elements of one slice and whatever the comparator reaches (`Env`): a comparator is called on two
elements, answers with an `Ordering`, and may change its own state. Reading or writing outside the slice and
subtracting a larger number trap; a trap is `none`, and so is a recursion deeper than the fuel, which is more than the
length of the range. Every sum of the source is an index of the slice or its length, so that it is never beyond `usize`:
one beyond the length is a trap here. -/
namespace Nia.Slice

/-- The elements of the slice, and the state of the comparator. -/
structure Env (T σ : Type) where
  items : List T
  heap : σ

/-- Code that works on the slice. -/
abbrev Code (T σ α : Type) := Lib.Trapping.Code (Env T σ) α

/-- `&Fun(&T, &T) cmp::Ordering`. -/
abbrev Comparator (T σ : Type) := T → T → StateM σ Ordering

variable {T σ : Type}

def trap {α : Type} : Code T σ α := fun _ => none

/-- `items[index]`. -/
def read (index : Nat) : Code T σ T := fun env => env.items[index]?.map (·, env)

/-- `items[index] = value`. -/
def write (index : Nat) (value : T) : Code T σ Unit := fun env =>
  if index < env.items.length then some ((), { env with items := env.items.set index value }) else none

/-- `left - right`. -/
def minus (left right : Nat) : Code T σ Nat := fun env => if right ≤ left then some (left - right, env) else none

/-- A sum of the source, which the slice bounds. -/
def within (sum : Nat) : Code T σ Unit := fun env => if sum ≤ env.items.length then some ((), env) else none

variable (compare : Comparator T σ)

/-- `compare(left, right)`. -/
def ask (left right : T) : Code T σ Ordering := fun env =>
  let answer := compare left right env.heap
  some (answer.1, { env with heap := answer.2 })

/-! ### Rotations -/

def swapAt (left right : Nat) : Code T σ Unit :=
  if left ≠ right then do
    let temporary ← read left
    let other ← read right
    write left other
    write right temporary
  else pure ()

def reverseRange (left right : Nat) : Code T σ Unit :=
  if left < right then
    let right := right - 1
    if left ≥ right then pure ()
    else do
      swapAt left right
      within (left + 1)
      reverseRange (left + 1) right
  else pure ()
termination_by right - left

def rotateRange (start middle stop : Nat) : Code T σ Unit :=
  if start = middle ∨ middle = stop then pure ()
  else do
    reverseRange start middle
    reverseRange middle stop
    reverseRange start stop

/-! ### Bounds -/

/-- A binary search that goes on behind an element whose comparison with the value `passes`. -/
def boundRange (passes : Ordering → Bool) (compare : Comparator T σ) (value : T) (low high : Nat) : Code T σ Nat :=
  if low < high then do
    let middle := low + (high - low) / 2
    within middle
    if passes (← ask compare (← read middle) value) then do
      within (middle + 1)
      boundRange passes compare value (middle + 1) high
    else boundRange passes compare value low middle
  else pure low
termination_by high - low

def lowerBoundRange (value : T) (start stop : Nat) : Code T σ Nat :=
  boundRange (· == .lt) compare value start stop

def upperBoundRange (value : T) (start stop : Nat) : Code T σ Nat :=
  boundRange (· != .gt) compare value start stop

/-! ### The sort -/

/-- Where the two halves are cut. -/
def cuts (start middle stop : Nat) : Code T σ (Nat × Nat) := do
  let leftLength ← minus middle start
  let rightLength ← minus stop middle
  if leftLength > rightLength then do
    let first := start + leftLength / 2
    within first
    let second ← lowerBoundRange compare (← read first) middle stop
    pure (first, second)
  else do
    let second := middle + rightLength / 2
    within second
    let first ← upperBoundRange compare (← read second) start middle
    pure (first, second)

/-- Two elements. -/
def mergePair (start middle : Nat) : Code T σ Unit := do
  if (← ask compare (← read middle) (← read start)) = .lt then swapAt start middle else pure ()

def stableMergeRange (compare : Comparator T σ) : (fuel : Nat) → (start middle stop : Nat) → Code T σ Unit
  | 0, _, _, _ => trap
  | fuel + 1, start, middle, stop =>
    if start = middle ∨ middle = stop then pure ()
    else do
      if (← minus stop start) = 2 then mergePair compare start middle
      else do
        let (firstCut, secondCut) ← cuts compare start middle stop
        let newMiddle := firstCut + (← minus secondCut middle)
        within newMiddle
        rotateRange firstCut middle secondCut
        stableMergeRange compare fuel start firstCut newMiddle
        stableMergeRange compare fuel newMiddle secondCut stop

def stableSortRange (compare : Comparator T σ) : (fuel : Nat) → (start stop : Nat) → Code T σ Unit
  | 0, _, _ => trap
  | fuel + 1, start, stop => do
    if (← minus stop start) < 2 then pure ()
    else do
      let middle := start + (← minus stop start) / 2
      within middle
      stableSortRange compare fuel start middle
      stableSortRange compare fuel middle stop
      stableMergeRange compare (stop - start + 1) start middle stop

/-- `sortBy`, from the state a comparator is in to the sorted elements and the comparator's state. -/
def sortBy (items : List T) (heap : σ) : Option (List T × σ) :=
  (stableSortRange compare (items.length + 1) 0 items.length ⟨items, heap⟩).map fun (_, env) => (env.items, env.heap)

end Nia.Slice
