import Mathlib

/-! Primitive types, target architectures and integer constants.

Constant evaluation carries an integer as 128 raw bits plus a signedness flag
(`IntConst`), independent of the primitive type it will end up in. The value such
a pair denotes is an ordinary integer (`IntConst.value`); every conversion of the
source is stated here by what it does to that integer, so that later modules
never look at the bits again. -/
namespace Nia.Ty

/-- Primitive scalar types understood by the language. -/
inductive PrimitiveTy where
  | i8 | i16 | i32 | i64 | i128 | isize
  | u8 | u16 | u32 | u64 | u128 | usize
  | f32 | f64 | bool | char | never
  deriving DecidableEq, Repr

/-- Target architectures. -/
inductive Arch where
  | x86 | x86_64 | aarch64
  deriving DecidableEq, Repr

/-- Pointer width in bits. -/
def Arch.pointerWidth : Arch → Nat
  | .x86 => 32
  | .x86_64 | .aarch64 => 64

namespace PrimitiveTy

def isInteger : PrimitiveTy → Bool
  | .i8 | .i16 | .i32 | .i64 | .i128 | .isize
  | .u8 | .u16 | .u32 | .u64 | .u128 | .usize => true
  | .f32 | .f64 | .bool | .char | .never => false

def isSignedInteger : PrimitiveTy → Bool
  | .i8 | .i16 | .i32 | .i64 | .i128 | .isize => true
  | _ => false

/-- The integer width, using the artifact width for pointer integers. -/
def integerBits (pointerWidth : Nat) : PrimitiveTy → Option Nat
  | .i8 | .u8 => some 8
  | .i16 | .u16 => some 16
  | .i32 | .u32 => some 32
  | .i64 | .u64 => some 64
  | .i128 | .u128 => some 128
  | .isize | .usize => some pointerWidth
  | .f32 | .f64 | .bool | .char | .never => none

end PrimitiveTy

/-! ### 128-bit integers -/

def i128Min : Int := -2 ^ 127
def i128Max : Int := 2 ^ 127 - 1
def u128Max : Int := 2 ^ 128 - 1

/-- `i128::checked_add`. -/
def checkedAddI128 (a b : Int) : Option Int :=
  if i128Min ≤ a + b ∧ a + b ≤ i128Max then some (a + b) else none

/-- `u128::checked_add`. -/
def checkedAddU128 (a b : BitVec 128) : Option (BitVec 128) :=
  if a.toNat + b.toNat < 2 ^ 128 then some (a + b) else none

/-- Integer bits plus signedness, independent of a concrete primitive width. -/
structure IntConst where
  bits : BitVec 128
  signed : Bool
  deriving DecidableEq, Repr

namespace IntConst

def signedBits (bits : BitVec 128) : IntConst := ⟨bits, true⟩

/-- The signed constant of an `i128`. -/
def fromI128 (value : Int) : IntConst := signedBits (BitVec.ofInt 128 value)

def unsigned (bits : BitVec 128) : IntConst := ⟨bits, false⟩

variable (c : IntConst)

/-- Converts to `i128` when the unsigned value fits. -/
def asI128 : Option Int :=
  if c.signed then some c.bits.toInt
  else if (c.bits.toNat : Int) ≤ i128Max then some c.bits.toNat else none

/-- How a constant is printed in diagnostics. -/
def display : String :=
  if c.signed then toString c.bits.toInt else toString c.bits.toNat

/-- Whether the constant is representable by a primitive integer. -/
def fitsPrimitiveInt (primitive : PrimitiveTy) (pointerWidth : Nat) : Bool :=
  match primitive.integerBits pointerWidth with
  | none => false
  | some bits =>
    if ¬ (1 ≤ bits ∧ bits ≤ 128) then false
    else if primitive.isSignedInteger then
      match c.asI128 with
      | none => false
      | some value =>
        bits == 128 || (decide (-2 ^ (bits - 1) ≤ value) && decide (value ≤ 2 ^ (bits - 1) - 1))
    else
      let value : Option Nat :=
        if c.signed then c.asI128.bind fun value => if 0 ≤ value then some value.toNat else none
        else some c.bits.toNat
      value.any fun value => bits == 128 || decide (value < 2 ^ bits)

/-- The integer a constant denotes. -/
def value : Int := if c.signed then c.bits.toInt else c.bits.toNat

/-- The largest integer a constant of one signedness can denote. -/
def cap (signed : Bool) : Int := if signed then i128Max else u128Max

theorem value_le_cap : c.value ≤ cap c.signed := by
  unfold value cap i128Max u128Max
  have hi := BitVec.toInt_lt (x := c.bits)
  have hn := c.bits.isLt
  split <;> omega

theorem asI128_eq : c.asI128 = if c.value ≤ i128Max then some c.value else none := by
  have hle := value_le_cap c
  unfold asI128
  cases hs : c.signed
  · simp [value, hs]
  · simp only [value, cap, hs, if_true] at hle ⊢
    rw [if_pos hle]

theorem fromI128_value (v : Int) (hmin : i128Min ≤ v) (hmax : v ≤ i128Max) :
    (fromI128 v).value = v := by
  unfold i128Min at hmin
  unfold i128Max at hmax
  simp only [value, fromI128, signedBits, if_true, BitVec.toInt_ofInt]
  apply Int.bmod_eq_of_le <;> norm_num <;> omega

@[simp] theorem fromI128_signed (v : Int) : (fromI128 v).signed = true := rfl

@[simp] theorem unsigned_signed (b : BitVec 128) : (unsigned b).signed = false := rfl

end IntConst

end Nia.Ty
