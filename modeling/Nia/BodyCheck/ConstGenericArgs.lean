import Nia.Literals.Decode
import Nia.Ty.IntCast
import Nia.Ty.Tree

/-! Const generic arguments of a call.

An argument of a const parameter is checked against the parameter's type and then stored by
its cast to that type, so that equal arguments are one value. A literal is checked and cast
once; an evaluated expression is checked and cast where its value is taken over and then,
with every other argument, checked and cast again. The second check reads the cast: below
128 bits the cast of a negative integer denotes another integer, outside the type, and the
argument is refused (`constGenericInt_iff`). -/
namespace Nia.BodyCheck

open Nia.Ty

/-- The value of an evaluated const expression, as far as a const parameter looks at it. -/
inductive EvaluatedConst where
  | int (value : IntConst)
  | bool (value : Bool)
  | other

/-- A bracketed argument in the place of a const parameter. An expression that is neither
a literal nor a name is given by the result of evaluating it. -/
inductive BracketArg where
  | integer (text : String)
  | bool (value : Bool)
  | ident (name : SymbolId)
  | evaluated (value : Option EvaluatedConst)
  | typeName (name : SymbolId)
  | otherType

/-- What the check knows of the parameter: the primitive its type normalizes to, if it is
one, and the pointer width of the target. -/
structure Expected where
  primitive : Option PrimitiveTy
  pointerWidth : Nat

variable {M : Type}

namespace Expected

variable (expected : Expected)

def constGenericTypeAcceptsInt (value : IntConst) : Bool :=
  match expected.primitive with
  | none => false
  | some primitive => value.fitsPrimitiveInt primitive expected.pointerWidth

def castConstGenericInt (value : IntConst) : Option IntConst :=
  match expected.primitive with
  | none => none
  | some primitive => value.castToPrimitiveInt primitive expected.pointerWidth

def constGenericTypeIsPrimitive (primitive : PrimitiveTy) : Bool :=
  expected.primitive == some primitive

/-- `u32::try_from`, then `char::from_u32`. -/
def charFromBits (bits : BitVec 128) : Option Char :=
  if bits.toNat < 2 ^ 32 then Lexer.Scan.charFromU32 bits.toNat else none

def constGenericValueFromConstValue : EvaluatedConst → Option (ConstValue M)
  | .int value =>
    if expected.constGenericTypeIsPrimitive .char then (charFromBits value.bits).map .char
    else if !expected.constGenericTypeAcceptsInt value then none
    else (expected.castConstGenericInt value).map .int
  | .bool value => if expected.constGenericTypeIsPrimitive .bool then some (.bool value) else none
  | .other => none

def constGenericValueMatchesType : ConstValue M → Bool
  | .genericParam _ | .constExpr _ => true
  | .int value => expected.constGenericTypeAcceptsInt value
  | .bool _ => expected.constGenericTypeIsPrimitive .bool
  | .char _ => expected.constGenericTypeIsPrimitive .char

/-- The constant of an integer literal. -/
def literalInt (text : String) : Option IntConst :=
  (Literals.evalIntLiteral text).toOption.map fun value => .unsigned (BitVec.ofNat 128 value)

/-- The value an argument stands for before it is checked. -/
def argumentValue : BracketArg → Option (ConstValue M)
  | .integer text => (literalInt text).map .int
  | .bool value => some (.bool value)
  | .ident name | .typeName name => some (.genericParam name)
  | .evaluated value => value.bind expected.constGenericValueFromConstValue
  | .otherType => none

/-- The last step for every argument: the check against the type, and the cast of an integer. -/
def settle (value : ConstValue M) : Option (ConstValue M) :=
  if !expected.constGenericValueMatchesType value then none
  else
    match value with
    | .int value => (expected.castConstGenericInt value).map .int
    | value => some value

def constGenericValueFromBracketArg (arg : BracketArg) : Option (ConstValue M) :=
  (expected.argumentValue arg).bind expected.settle

end Expected

/-! ### Integer arguments -/

/-- The integer an argument gives, by a literal or by evaluation. -/
def BracketArg.integerConst : BracketArg → Option IntConst
  | .integer text => Expected.literalInt text
  | .evaluated (some (.int value)) => some value
  | _ => none

/-- What an accepted integer is promised: its cast is of the type and denotes the same integer, and it is what
every argument that gives the integer is stored as. -/
structure Represented (M : Type) (primitive : PrimitiveTy) (pointerWidth : Nat) (c cast : IntConst) : Prop where
  castsTo : c.castToPrimitiveInt primitive pointerWidth = some cast
  fits : cast.fitsPrimitiveInt primitive pointerWidth = true
  sameValue : cast.value = c.value
  stored : ∀ arg : BracketArg, arg.integerConst = some c →
    Expected.constGenericValueFromBracketArg ⟨some primitive, pointerWidth⟩ arg = some (.int cast : ConstValue M)

namespace Expected

variable {primitive : PrimitiveTy} {pointerWidth : Nat} {c cast : IntConst}

section

variable (hfits : c.fitsPrimitiveInt primitive pointerWidth = true)
include hfits

section

variable (hcast : c.castToPrimitiveInt primitive pointerWidth = some cast)
include hcast

theorem settle_int : settle ⟨some primitive, pointerWidth⟩ (.int c) = some (.int cast : ConstValue M) := by
  simp [settle, constGenericValueMatchesType, constGenericTypeAcceptsInt, castConstGenericInt, hfits, hcast]

theorem fromConstValue_int :
    constGenericValueFromConstValue ⟨some primitive, pointerWidth⟩ (.int c) = some (.int cast : ConstValue M) := by
  have hchar : primitive ≠ .char := by
    rintro rfl
    simp [IntConst.fitsPrimitiveInt, PrimitiveTy.integerBits] at hfits
  simp [constGenericValueFromConstValue, constGenericTypeIsPrimitive, constGenericTypeAcceptsInt,
    castConstGenericInt, hfits, hcast, hchar]

/-- An integer whose cast fits and casts to itself is stored as that cast, however it is given. -/
theorem fromBracketArg_int (hfits' : cast.fitsPrimitiveInt primitive pointerWidth = true)
    (hcast' : cast.castToPrimitiveInt primitive pointerWidth = some cast)
    (arg : BracketArg) (harg : arg.integerConst = some c) :
    constGenericValueFromBracketArg ⟨some primitive, pointerWidth⟩ arg = some (.int cast : ConstValue M) := by
  unfold constGenericValueFromBracketArg
  match arg, harg with
  | .integer text, harg =>
    have hliteral : literalInt text = some c := harg
    rw [argumentValue, hliteral]
    exact settle_int hfits hcast
  | .evaluated (some (.int value)), harg =>
    obtain rfl : value = c := Option.some.inj harg
    rw [argumentValue, Option.bind_some, fromConstValue_int hfits hcast]
    exact settle_int hfits' hcast'

end

end

end Expected

/-- **Two accepted integers are equal exactly when their casts are. The cast of an accepted integer is accepted again,
and represents the integer, exactly when it is not negative or the type has 128 bits.** -/
theorem constGenericInt_iff (M : Type) (primitive : PrimitiveTy) (pointerWidth : Nat) {c : IntConst}
    (hfits : c.fitsPrimitiveInt primitive pointerWidth = true) :
    (∀ c' : IntConst, c'.fitsPrimitiveInt primitive pointerWidth = true →
      (c.value = c'.value ↔
        c.castToPrimitiveInt primitive pointerWidth = c'.castToPrimitiveInt primitive pointerWidth)) ∧
    (∀ cast, c.castToPrimitiveInt primitive pointerWidth = some cast →
      (cast.fitsPrimitiveInt primitive pointerWidth = true ↔
        0 ≤ c.value ∨ primitive.integerBits pointerWidth = some 128)) ∧
    ((∃ cast, Represented M primitive pointerWidth c cast) ↔
      0 ≤ c.value ∨ primitive.integerBits pointerWidth = some 128) := by
  obtain ⟨w, hbits, hc⟩ := (IntConst.fitsPrimitiveInt_iff c primitive pointerWidth).mp hfits
  have hcast := c.castToPrimitiveInt_eq hbits hc.le
  have hwidth : primitive.integerBits pointerWidth = some 128 ↔ w = 128 := by rw [hbits, Option.some.injEq]
  have hagain : (IntConst.lowBits primitive.isSignedInteger w c.value).fitsPrimitiveInt primitive pointerWidth = true ↔
      0 ≤ c.value ∨ w = 128 := by
    rw [← IntConst.inRange_lowBits_iff hc.pos hc.le hc.inRange, IntConst.fitsPrimitiveInt_iff, hbits]
    simp only [Option.some.injEq, exists_eq_left']
    exact ⟨fun h => h.inRange, fun h => ⟨hc.pos, hc.le, h⟩⟩
  refine ⟨fun c' hfits' => ?_, fun cast h => ?_, ?_⟩
  · obtain ⟨w', hbits', hc'⟩ := (IntConst.fitsPrimitiveInt_iff c' primitive pointerWidth).mp hfits'
    obtain rfl : w = w' := Option.some.inj (hbits.symm.trans hbits')
    rw [hcast, c'.castToPrimitiveInt_eq hbits hc.le, Option.some.injEq,
      IntConst.lowBits_inj hc.pos hc.le hc.inRange hc'.inRange]
  · obtain rfl := Option.some.inj (hcast.symm.trans h)
    rw [hagain, hwidth]
  · rw [hwidth]
    constructor
    · rintro ⟨cast, h⟩
      obtain rfl := Option.some.inj (hcast.symm.trans h.castsTo)
      exact (IntConst.value_lowBits_eq_iff hc.le hc.inRange).mp h.sameValue
    · intro hcond
      have hvalue := (IntConst.value_lowBits_eq_iff hc.le hc.inRange).mpr hcond
      have hfitsCast := hagain.mpr hcond
      have hcastCast := (IntConst.lowBits primitive.isSignedInteger w c.value).castToPrimitiveInt_eq hbits hc.le
      rw [hvalue] at hcastCast
      exact ⟨_, hcast, hfitsCast, hvalue, Expected.fromBracketArg_int hfits hcast hfitsCast hcastCast⟩

theorem constGenericInt_five :
    (IntConst.fromI128 5).fitsPrimitiveInt .i8 64 = true ∧ 0 ≤ (IntConst.fromI128 5).value ∧
      ∃ cast, Represented Nat .i8 64 (.fromI128 5) cast :=
  have hfits : (IntConst.fromI128 5).fitsPrimitiveInt .i8 64 = true := by decide
  have hvalue : 0 ≤ (IntConst.fromI128 5).value := by decide
  ⟨hfits, hvalue, (constGenericInt_iff Nat .i8 64 hfits).2.2.mpr (Or.inl hvalue)⟩

/-- The cast of `-1` to `i8` denotes 255, which `i8` does not have: the argument is refused. -/
theorem minus_one_refused :
    (IntConst.fromI128 (-1)).fitsPrimitiveInt .i8 64 = true ∧
      (IntConst.fromI128 (-1)).castToPrimitiveInt .i8 64 = some (.signedBits 255) ∧
      (IntConst.signedBits 255).value = 255 ∧
      (IntConst.signedBits 255).fitsPrimitiveInt .i8 64 = false ∧
      Expected.constGenericValueFromBracketArg ⟨some .i8, 64⟩ (.evaluated (some (.int (.fromI128 (-1))))) =
        (none : Option (ConstValue Nat)) := by
  decide

end Nia.BodyCheck
