import Nia.Ty.IntConst

/-! Names of types.

What the kinds of types hold besides types: the definitions, closures and traits they name, the builtin ones, and the
convention of a function pointer. `M` is the type of module handles of the session. -/
namespace Nia.Ty

inductive BuiltinType where
  | asmConfig | asmInputs | asmOutputs
  deriving DecidableEq, Repr

inductive BuiltinTrait where
  | add | sub | mul | div | rem | neg | not | bitNot | bitAnd | bitOr | bitXor | shl | shr
  | eq | ord | sized | unsized | deref | derefMut | index | indexMut | slice | sliceMut
  | iterable | iterator | simd | simdMask | intoError
  deriving DecidableEq, Repr

inductive FunctionPointerAbi where
  | nia | c
  deriving DecidableEq, Repr

/-- The stable hash of a symbol. -/
abbrev SymbolId := UInt64

structure GlobalDefId (M : Type) where
  moduleId : M
  defId : UInt64
  deriving DecidableEq

structure ClosureId (M : Type) where
  owner : GlobalDefId M
  ordinal : UInt32
  deriving DecidableEq

inductive TraitId (M : Type) where
  | source (defId : GlobalDefId M)
  | builtin (traitId : BuiltinTrait)
  deriving DecidableEq

end Nia.Ty
