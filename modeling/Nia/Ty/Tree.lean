import Nia.Ty.Kind

/-! Types as the compiler handles them before they are closed.

The type store hands out one handle per structural kind, so a type is the tree of kinds
below its handle; here generic parameters, unevaluated lengths and unevaluated const
arguments are still part of it. Most of the compiler treats the composite kinds alike: it
works on the component types from left to right and puts the kind together again. A type is
therefore a head, which holds everything of its kind that is not a type, above its
components in the order in which the source visits them. -/
namespace Nia.Ty

variable {M : Type}

/-- A const expression that is not evaluated yet. -/
structure GlobalConstExprId (M : Type) where
  moduleId : M
  constExprId : UInt64
  deriving DecidableEq

/-- The value of a const argument. -/
inductive ConstValue (M : Type) where
  | genericParam (name : SymbolId)
  | constExpr (id : GlobalConstExprId M)
  | int (value : IntConst)
  | bool (value : Bool)
  | char (value : Char)
  deriving DecidableEq

inductive LayoutBuiltin where
  | size | align
  deriving DecidableEq, Repr

/-- An array length. The operand of a layout builtin is a component of the array type. -/
inductive ArrayLenTy (M : Type) where
  | infer
  | genericParam (name : SymbolId)
  | constValue (value : UInt64)
  | constExpr (id : GlobalConstExprId M)
  | builtin (builtin : LayoutBuiltin)
  deriving DecidableEq

inductive RangeKind where
  | exclusive | inclusive | fromStart | to | toInclusive | full
  deriving DecidableEq, Repr

/-- Types without components. -/
inductive LeafTy where
  | error
  | constOnly
  | opaqueTy
  | primitive (primitive : PrimitiveTy)
  | vector (elem : PrimitiveTy) (lanes : UInt32)
  | builtinType (builtin : BuiltinType)
  deriving DecidableEq

/-- The key of an associated type binding and the number of its type arguments. -/
structure BindingHead (M : Type) where
  traitId : Option (TraitId M)
  name : SymbolId
  args : Nat
  deriving DecidableEq

/-- The `owner_instance` of a closure state, up to its types. -/
structure OwnerHead (M : Type) where
  argModuleId : M
  hasSelf : Bool
  deriving DecidableEq

/-- Composite kinds, up to their component types. Numbers say how the components are
split where the order alone does not. -/
inductive TyHead (M : Type) where
  | tuple
  | pointer (isReadonly : Bool)
  | volatilePointer (isReadonly : Bool)
  | slice (isReadonly : Bool)
  | slicePointee
  /-- The operand of a layout builtin, then the element. -/
  | array (len : ArrayLenTy M)
  | range (kind : RangeKind)
  /-- The parameters, then the return type. -/
  | functionPointer (isVariadic : Bool) (abi : FunctionPointerAbi)
  /-- The receiver, the arguments, the const arguments, the parameters, the return type. -/
  | functionItem (defId : GlobalDefId M) (argModuleId : M) (hasSelf : Bool) (args : Nat)
      (isVariadic : Bool)
  | callable (isReadonly : Bool)
  | callablePointee
  /-- The owner's receiver, arguments and const arguments, then the captures, the parameters, the return type. -/
  | closureState (closureId : ClosureId M) (owner : Option (OwnerHead M)) (captures params : Nat)
  | optional
  | errorUnion
  /-- The arguments, then the const arguments. -/
  | nominal (defId : GlobalDefId M)
  | builtinTrait (traitId : BuiltinTrait)
  /-- The arguments, the const arguments, then each binding with its own and its type. -/
  | traitObject (isReadonly : Bool) (traitId : TraitId M) (args : Nat) (bindings : List (BindingHead M))
  | traitObjectPointee (traitId : TraitId M) (args : Nat) (bindings : List (BindingHead M))
  /-- The self type, the arguments, then the const arguments. -/
  | projection (traitId : TraitId M) (name : SymbolId)
  deriving DecidableEq

mutual

inductive OpenTy (M : Type) where
  | leaf (kind : LeafTy)
  | genericParam (name : SymbolId)
  | selfParam
  | node (head : TyHead M) (parts : Parts M)
  deriving DecidableEq

/-- Component types and const arguments, each of which carries its type. -/
inductive Parts (M : Type) where
  | nil
  | ty (ty : OpenTy M) (rest : Parts M)
  | const (value : ConstValue M) (ty : OpenTy M) (rest : Parts M)
  deriving DecidableEq

end

/-- Converts a const argument into an array length. -/
def arrayLenFromConstArg : ConstValue M → Option (ArrayLenTy M)
  | .int value => do
      let value ← if value.signed then value.asI128 else some (value.bits.toNat : Int)
      if 0 ≤ value ∧ value < 2 ^ 64 then some (.constValue (UInt64.ofNat value.toNat)) else none
  | .genericParam name => some (.genericParam name)
  | .constExpr id => some (.constExpr id)
  | .bool _ | .char _ => none

end Nia.Ty
