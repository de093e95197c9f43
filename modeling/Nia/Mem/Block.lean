import Nia.Lib.Region

/-! Addresses, layouts and blocks of memory.

Addresses and sizes are those of `usize`, which has the width of the target; sums that may leave its range are
checked. A layout has a power of two as its alignment, which is all that its constructor lets through. -/
namespace Nia.Mem

open Lib

/-- The width of addresses and of `usize`. -/
class Target where
  bits : Nat
  known : bits = 32 ∨ bits = 64

def usizeLimit [Target] : Nat := 2 ^ Target.bits

/-- `mem::Error`. -/
inductive Error where
  | invalid
  | invalidAlignment
  | outOfMemory
  | system
  | leak
  deriving DecidableEq, Repr

def checkedAdd [Target] (value other : Nat) : Option Nat :=
  if value + other < usizeLimit then some (value + other) else none

/-- Clearing the lowest set bit leaves zero. -/
def isPowerOfTwo (value : Nat) : Bool := value != 0 && value &&& (value - 1) == 0

def alignForward [Target] (value align : Nat) : Option Nat :=
  if align = 0 ∨ isPowerOfTwo align = false then none
  else
    let remainder := value % align
    if remainder = 0 then some value else checkedAdd value (align - remainder)

/-- `Layout`. -/
structure Layout where
  size : Nat
  align : Nat
  pow : isPowerOfTwo align = true
  deriving DecidableEq

def Layout.init (size align : Nat) : Except Error Layout :=
  if h : isPowerOfTwo align = true then .ok ⟨size, align, h⟩ else .error .invalidAlignment

def Layout.isEmpty (layout : Layout) : Bool := layout.size == 0

/-- `Block`. -/
structure Block where
  ptr : Nat
  layout : Layout
  releasePtr : Nat
  releaseSize : Nat
  deriving DecidableEq

namespace Block

def init (ptr : Nat) (layout : Layout) : Block := ⟨ptr, layout, ptr, layout.size⟩

def empty (layout : Layout) : Block := init layout.align layout

def withLayout (block : Block) (layout : Layout) : Block := { block with layout }

def size (block : Block) : Nat := block.layout.size

def align (block : Block) : Nat := block.layout.align

def isEmpty (block : Block) : Bool := block.layout.isEmpty

/-- The memory of a block. -/
def region (block : Block) : Region := ⟨block.ptr, block.size⟩

/-- What the allocator is given back in the end. -/
def release (block : Block) : Nat × Nat := (block.releasePtr, block.releaseSize)

end Block

/-- Two blocks without a common byte. -/
def ApartBlocks (block other : Block) : Prop := Region.Apart block.region other.region

theorem ApartBlocks.symm {block other : Block} (h : ApartBlocks block other) : ApartBlocks other block :=
  Region.Apart.symm h

/-- The end of some blocks. -/
def topOf (blocks : List Block) : Nat := blocks.foldr (fun block top => max (block.ptr + block.size) top) 0

theorem le_topOf {blocks : List Block} {other : Block} (h : other ∈ blocks) :
    other.ptr + other.size ≤ topOf blocks := by
  induction blocks with
  | nil => cases h
  | cons block rest ih =>
    obtain rfl | hrest := List.mem_cons.mp h
    · exact Nat.le_max_left _ _
    · exact Nat.le_trans (ih hrest) (Nat.le_max_right _ _)

/-- A block behind some blocks is apart from them. -/
theorem apart_topOf {blocks : List Block} {other : Block} {layout : Layout} {start : Nat} (h : other ∈ blocks)
    (hstart : topOf blocks ≤ start) : ApartBlocks (Block.init start layout) other :=
  Or.inr (Or.inr (Or.inr ((le_topOf h).trans hstart)))

/-! ### Cleanup -/

/-- `CleanupAccumulator::attempt`. -/
def attempt (failure : Option Error) (result : Except Error Unit) : Option Error :=
  match result, failure with
  | .error error, none => some error
  | _, _ => failure

/-- `CleanupAccumulator::finish`. -/
def finish : Option Error → Except Error Unit
  | some error => .error error
  | none => .ok ()

/-! ### Checked sums -/

variable [Target]

theorem checkedAdd_eq_some {value other sum : Nat} (h : checkedAdd value other = some sum) : sum = value + other := by
  rw [checkedAdd] at h
  split at h
  · exact (Option.some.inj h).symm
  · cases h

/-- The next multiple. -/
theorem alignForward_eq_some {value align aligned : Nat} (h : alignForward value align = some aligned) :
    value ≤ aligned ∧ aligned < value + align ∧ aligned % align = 0 := by
  rw [alignForward] at h
  split at h
  · cases h
  · rename_i halign
    have hpos : 0 < align := Nat.pos_of_ne_zero fun hzero => halign (Or.inl hzero)
    dsimp only at h
    split at h
    · rename_i hremainder
      cases h
      exact ⟨Nat.le_refl _, Nat.lt_add_of_pos_right hpos, hremainder⟩
    · rename_i hremainder
      have hlt := Nat.mod_lt value hpos
      obtain rfl := checkedAdd_eq_some h
      refine ⟨Nat.le_add_right _ _, by omega, ?_⟩
      have hdiv := Nat.div_add_mod value align
      have hsum : value + (align - value % align) = align * (value / align + 1) := by
        rw [Nat.mul_add, Nat.mul_one]
        omega
      rw [hsum, Nat.mul_mod_right]

end Nia.Mem
