import Nia.Lib.Encoding
import Nia.Ty.Kind

/-! What the fingerprint encoder writes of a function body.

The tables give, for every node of the function IR and of the types in it, the
tag that opens it and the fields written after it, in the order the encoder
writes them. Fields are named after the encoder's own methods. Field-less
enumerations are written by their discriminant. Spans and the names of locals
are left out; the name of a field initialiser is kept as data that is not
written. A body is a tree over this signature, so it has exactly the data the
tables list. -/
namespace Nia.Codegen.Fingerprint
open Nia.Lib.Encoding Nia.Ty

/-! ### Data -/

/-- A string whose length is a `usize`. -/
abbrev Text := {text : String // text.utf8ByteSize < 2 ^ 64}

abbrev Bytes := {bytes : List UInt8 // bytes.length < 2 ^ 64}

structure TypeLayout where
  size : UInt64
  align : UInt64
  deriving DecidableEq

inductive SyntaxKind where
  | module | item | stmt | expr | type | pattern | param | anySyntax | token
  deriving DecidableEq

inductive NodePosition where
  | span (start stop : UInt64)
  | childPath (path : List UInt32)
  | childPathRange (start stop : List UInt32)
  deriving DecidableEq

/-- The source-backed identity of a const expression. -/
inductive ConstExprSite where
  | node (sourceId : Nat) (kind : SyntaxKind) (position : NodePosition) (revision : Nat)
  | synthetic (index : UInt32)
  deriving DecidableEq

def pathLabel (path : List UInt32) : String :=
  "_".intercalate (path.map fun step => toString step.toNat)

def SyntaxKind.number : SyntaxKind → Nat
  | .module => 0
  | .item => 1
  | .stmt => 2
  | .expr => 3
  | .type => 4
  | .pattern => 5
  | .param => 6
  | .anySyntax => 7
  | .token => 8

def NodePosition.label : NodePosition → String
  | .span start stop => "span_" ++ toString start.toNat ++ "_" ++ toString stop.toNat
  | .childPath path => "path_" ++ pathLabel path
  | .childPathRange start stop => "range_" ++ pathLabel start ++ "_" ++ pathLabel stop

/-- `stable_label`: the source and its revision are not part of it. -/
def ConstExprSite.stableLabel : ConstExprSite → String
  | .node _ kind position _ => "kind_" ++ toString kind.number ++ "_" ++ position.label
  | .synthetic index => "synthetic_" ++ toString index.toNat

/-- An identity whose label fits into memory. -/
abbrev ConstExprId := {site : ConstExprSite // site.stableLabel.utf8ByteSize < 2 ^ 64}

structure GlobalConstExprId (M : Type) where
  moduleId : M
  constExprId : ConstExprId

/-- Sorts of written data. -/
inductive Leaf where
  | discriminant | bool | u32 | u64 | intConst | text | bytes | moduleId | globalDef
  | globalConstExpr | optionalU32 | optionalByte | optionalGlobalDef | optionalTypeLayout
  deriving DecidableEq

def Value (M : Type) : Leaf → Type
  | .discriminant => UInt8
  | .bool => Bool
  | .u32 => UInt32
  | .u64 => UInt64
  | .intConst => IntConst
  | .text => Text
  | .bytes => Bytes
  | .moduleId => M
  | .globalDef => GlobalDefId M
  | .globalConstExpr => GlobalConstExprId M
  | .optionalU32 => Option UInt32
  | .optionalByte => Option UInt8
  | .optionalGlobalDef => Option (GlobalDefId M)
  | .optionalTypeLayout => Option TypeLayout

/-! ### Nodes -/

/-- What the encoder has a method or a nested match for. -/
inductive Cat where
  | functionBody | functionLocal | scope | block | functionOp | memorySource | terminator | switchArm
  | forHeader | expr | exprKind | scalar | builtinValue | asmInput | asmOutput | asmClobber | asmOption
  | atomic | arrayElements | functionField | unionByte | unionRelocation | callee | operatorOp | place
  | placeBase | placeElem | ty | tyKind | ownerInstance | typeBinding | traitId | constArg | constValue
  | arrayLen
  deriving DecidableEq

inductive FunctionOp where
  | binding | storeLocal | memoryIntrinsic | expr | defer
  deriving DecidableEq

inductive MemorySource where
  | slice | byte
  deriving DecidableEq

inductive Terminator where
  | error | branch | next | ifElse | switch | tryValue | loop | ret | tail
  deriving DecidableEq

inductive ForHeader where
  | infinite | condition
  deriving DecidableEq

inductive ExprKind where
  | error | integer | float | string | byteString | char | byteChar | bool | null | callerLocation
  | localVar | global | constGeneric | associatedConstProjection | globalInstance | function
  | enumConstructor | functionInstance | enumVariant | enumVariantTag | enumTag | enumPayloadField
  | builtinValue | trap | range | rangeBound | inlineAsm | atomic | loadUnaligned | splat
  | extractElement | insertElement | bitmask | bitIntrinsic | charFromU32 | staticArrayPointer
  | arrayLiteral | tuple | tupleField | structLiteral | unionLiteral | unionStorageLiteral | unary
  | optionalSome | errorOk | errorErr | taggedUnionTag | taggedUnionPayload | tryExpr | addrOf | binary
  | assign | discard | cast | traitObjectUpcast | traitObjectCoercion | callableCoercion
  | functionCallable | closureFunctionPointer | call | field | index | slice
  deriving DecidableEq

inductive BuiltinValue where
  | usize | layout | fieldOffset | int
  deriving DecidableEq

inductive Atomic where
  | load | store | rmw | cmpxchg | fence
  deriving DecidableEq

inductive ArrayElements where
  | list | repeated
  deriving DecidableEq

inductive Callee where
  | tracked | closureEntry | function | functionInstance | method | traitMethod
  | traitAssociatedFunction | dynamicTraitMethod | builtinMethod | builtinTraitMethodCall
  | builtinOperator | functionPointer | callable
  deriving DecidableEq

inductive OperatorOp where
  | unary | binary
  deriving DecidableEq

inductive PlaceBase where
  | localVar | global | globalInstance | deref | error
  deriving DecidableEq

inductive PlaceElem where
  | field | index | error | tupleField
  deriving DecidableEq

inductive TyForm where
  | error | constOnly | primitive | pointer | volatilePointer | slice | slicePointee | array | vector
  | range | functionPointer | optional | errorUnion | nominal | builtinType | builtinTrait
  | traitObject | traitObjectPointee | projection | genericParam | selfParam | opaqueTy | tuple
  | closureState | callable | callablePointee | functionItem
  /-- A handle that the index does not know. -/
  | missing
  deriving DecidableEq

inductive TraitRef where
  | source | builtin
  deriving DecidableEq

inductive ConstValue where
  | genericParam | constExpr | int | bool | char
  deriving DecidableEq

inductive ArrayLen where
  | infer | genericParam | constValue | constExpr | builtin
  deriving DecidableEq

/-- The alternatives of a node; the others have one form, without a tag. -/
def Kind : Cat → Type
  | .functionOp => FunctionOp
  | .memorySource => MemorySource
  | .terminator => Terminator
  | .forHeader => ForHeader
  | .exprKind => ExprKind
  | .builtinValue => BuiltinValue
  | .atomic => Atomic
  | .arrayElements => ArrayElements
  | .callee => Callee
  | .operatorOp => OperatorOp
  | .placeBase => PlaceBase
  | .placeElem => PlaceElem
  | .tyKind => TyForm
  | .traitId => TraitRef
  | .constValue => ConstValue
  | .arrayLen => ArrayLen
  | _ => Unit

/-! ### What each method writes -/

namespace Encoder

abbrev Written := Field Cat Leaf

def discriminant : Written := .leaf .discriminant
def bool : Written := .leaf .bool
def u32 : Written := .leaf .u32
def usize : Written := .leaf .u64
def u64 : Written := .leaf .u64
def symbol : Written := .leaf .u64
def localId : Written := .leaf .u32
def blockId : Written := .leaf .u32
def scopeId : Written := .leaf .u32
def optionalBlock : Written := .leaf .optionalU32
def optionalScope : Written := .leaf .optionalU32
def intConst : Written := .leaf .intConst
def text : Written := .leaf .text
def bytes : Written := .leaf .bytes
def moduleId : Written := .leaf .moduleId
def globalDef : Written := .leaf .globalDef
def optionalGlobalDef : Written := .leaf .optionalGlobalDef
def globalConstExpr : Written := .leaf .globalConstExpr
def ty : Written := .child .ty
def types : Written := .list .ty
def optionalTy : Written := .option .ty
def constArgs : Written := .list .constArg
def traitId : Written := .child .traitId
def expr : Written := .child .expr
def exprs : Written := .list .expr
def optionalExpr : Written := .option .expr
def place : Written := .child .place

end Encoder

open Encoder

def functionOpFields : FunctionOp → List Written
  | .binding => [localId, ty, optionalExpr, bool]
  | .storeLocal => [localId, expr]
  | .memoryIntrinsic => [discriminant, ty, expr, .child .memorySource]
  | .expr => [expr]
  | .defer => [.list .scope, .list .block, blockId]

def terminatorFields : Terminator → List Written
  | .error => []
  | .branch => [blockId]
  | .next => [blockId]
  | .ifElse => [expr, blockId, blockId]
  | .switch => [expr, .list .switchArm, optionalBlock, blockId]
  | .tryValue => [expr, discriminant, optionalExpr, localId, blockId]
  | .loop => [.child .forHeader, blockId, blockId, blockId]
  | .ret => [optionalExpr]
  | .tail => [optionalExpr]

def exprKindFields : ExprKind → List Written
  | .error => []
  | .integer => [text]
  | .float => [text]
  | .string => [.list .scalar]
  | .byteString => [bytes]
  | .char => [u32]
  | .byteChar => [text]
  | .bool => [bool]
  | .null => []
  | .callerLocation => [text, u32, u32]
  | .localVar => [localId]
  | .global => [globalDef]
  | .constGeneric => [.child .constArg]
  | .associatedConstProjection => [ty, traitId, types, constArgs, symbol]
  | .globalInstance => [globalDef, moduleId, types, constArgs]
  | .function => [globalDef]
  | .enumConstructor => [globalDef]
  | .functionInstance => [globalDef, moduleId, optionalTy, types, constArgs]
  | .enumVariant => [globalDef, exprs]
  | .enumVariantTag => [globalDef]
  | .enumTag => [expr]
  | .enumPayloadField => [expr, globalDef, usize]
  | .builtinValue => [.child .builtinValue]
  | .trap => []
  | .range => [optionalExpr, optionalExpr, bool]
  | .rangeBound => [expr, discriminant]
  | .inlineAsm => [text, .list .asmInput, .list .asmOutput, .list .asmClobber, .list .asmOption]
  | .atomic => [.child .atomic]
  | .loadUnaligned => [ty, expr]
  | .splat => [expr]
  | .extractElement => [expr, expr]
  | .insertElement => [expr, expr, expr]
  | .bitmask => [expr]
  | .bitIntrinsic => [discriminant, expr]
  | .charFromU32 => [expr]
  | .staticArrayPointer => [moduleId, usize, usize, expr, bool]
  | .arrayLiteral => [.child .arrayElements]
  | .tuple => [exprs]
  | .tupleField => [expr, usize]
  | .structLiteral => [globalDef, .list .functionField]
  | .unionLiteral => [globalDef, .child .functionField]
  | .unionStorageLiteral => [.list .unionByte, .list .unionRelocation]
  | .unary => [discriminant, expr]
  | .optionalSome => [expr]
  | .errorOk => [expr]
  | .errorErr => [expr]
  | .taggedUnionTag => [expr]
  | .taggedUnionPayload => [expr]
  | .tryExpr => [expr]
  | .addrOf => [place]
  | .binary => [expr, discriminant, expr]
  | .assign => [place, discriminant, expr]
  | .discard => [expr]
  | .cast => [expr, ty]
  | .traitObjectUpcast => [expr, ty, ty]
  | .traitObjectCoercion => [expr, ty, ty]
  | .callableCoercion => [expr, globalDef, u32]
  | .functionCallable => [expr]
  | .closureFunctionPointer => [globalDef, u32]
  | .call => [.child .callee, exprs]
  | .field => [expr, globalDef]
  | .index => [expr, expr]
  | .slice => [expr, optionalExpr, optionalExpr, bool, bool]

def builtinValueFields : BuiltinValue → List Written
  | .usize => [u64]
  | .layout => [discriminant, ty]
  | .fieldOffset => [ty, globalDef]
  | .int => [intConst]

def atomicFields : Atomic → List Written
  | .load => [ty, expr, discriminant]
  | .store => [ty, expr, expr, discriminant]
  | .rmw => [ty, expr, discriminant, expr, discriminant]
  | .cmpxchg => [ty, expr, expr, expr, discriminant, discriminant, bool]
  | .fence => [discriminant]

def arrayElementsFields : ArrayElements → List Written
  | .list => [exprs]
  | .repeated => [expr, .child .arrayLen]

def calleeFields : Callee → List Written
  | .tracked => [text, u32, u32, .child .callee]
  | .closureEntry => [globalDef, u32, expr]
  | .function => [globalDef]
  | .functionInstance => [globalDef, moduleId, optionalTy, types, constArgs]
  | .method => [globalDef, moduleId, optionalTy, types, constArgs, discriminant, expr]
  | .traitMethod =>
    [globalDef, globalDef, symbol, ty, types, constArgs, types, constArgs, discriminant, expr]
  | .traitAssociatedFunction => [globalDef, globalDef, symbol, ty, types, constArgs, types, constArgs]
  | .dynamicTraitMethod =>
    [ty, traitId, globalDef, symbol, types, constArgs, usize, types, ty, discriminant, expr]
  | .builtinMethod => [discriminant, ty, expr]
  | .builtinTraitMethodCall => [discriminant, discriminant, ty, types, expr]
  | .builtinOperator => [discriminant, .child .operatorOp]
  | .functionPointer => [expr]
  | .callable => [expr]

def placeBaseFields : PlaceBase → List Written
  | .localVar => [localId]
  | .global => [globalDef]
  | .globalInstance => [globalDef, moduleId, types, constArgs]
  | .deref => [expr]
  | .error => []

def placeElemFields : PlaceElem → List Written
  | .field => [globalDef]
  | .index => [expr]
  | .error => []
  | .tupleField => [usize]

def tyFormFields : TyForm → List Written
  | .error => []
  | .constOnly => []
  | .primitive => [discriminant]
  | .pointer => [bool, ty]
  | .volatilePointer => [bool, ty]
  | .slice => [bool, ty]
  | .slicePointee => [ty]
  | .array => [.child .arrayLen, ty]
  | .vector => [discriminant, u32]
  | .range => [discriminant, optionalTy]
  | .functionPointer => [types, ty, bool, discriminant]
  | .optional => [ty]
  | .errorUnion => [ty, ty]
  | .nominal => [globalDef, types, constArgs]
  | .builtinType => [discriminant]
  | .builtinTrait => [discriminant, types]
  | .traitObject => [bool, traitId, types, constArgs, .list .typeBinding]
  | .traitObjectPointee => [traitId, types, constArgs, .list .typeBinding]
  | .projection => [ty, traitId, types, constArgs, symbol]
  | .genericParam => [symbol]
  | .selfParam => []
  | .opaqueTy => []
  | .tuple => [types]
  | .closureState => [globalDef, u32, .option .ownerInstance, types, types, ty]
  | .callable => [bool, types, ty]
  | .callablePointee => [types, ty]
  | .functionItem => [globalDef, moduleId, optionalTy, types, constArgs, types, ty, bool]
  | .missing => [u32]

def traitRefFields : TraitRef → List Written
  | .source => [globalDef]
  | .builtin => [discriminant]

def constValueFields : ConstValue → List Written
  | .genericParam => [symbol]
  | .constExpr => [globalConstExpr]
  | .int => [intConst]
  | .bool => [bool]
  | .char => [u32]

def arrayLenFields : ArrayLen → List Written
  | .infer => []
  | .genericParam => [symbol]
  | .constValue => [u64]
  | .constExpr => [globalConstExpr]
  | .builtin => [discriminant, ty]

def fields : {c : Cat} → Kind c → List Written
  | .functionBody, _ => [.list .functionLocal, .list .scope, .list .block, blockId, ty]
  | .functionLocal, _ => [localId, discriminant, ty]
  | .scope, _ => [scopeId, optionalScope]
  | .block, _ => [blockId, scopeId, .list .functionOp, .child .terminator]
  | .functionOp, op => functionOpFields op
  | .memorySource, _ => [expr]
  | .terminator, terminator => terminatorFields terminator
  | .switchArm, _ => [expr, blockId]
  | .forHeader, .infinite => []
  | .forHeader, .condition => [expr]
  | .expr, _ => [ty, .child .exprKind]
  | .exprKind, kind => exprKindFields kind
  | .scalar, _ => [u32]
  | .builtinValue, value => builtinValueFields value
  | .asmInput, _ => [text, expr]
  | .asmOutput, _ => [text, place]
  | .asmClobber, _ => [text]
  | .asmOption, _ => [discriminant]
  | .atomic, atomic => atomicFields atomic
  | .arrayElements, elems => arrayElementsFields elems
  -- the name of the field is not written
  | .functionField, _ => [.unwritten .text, optionalGlobalDef, expr]
  | .unionByte, _ => [.leaf .optionalByte]
  | .unionRelocation, _ => [usize, usize, moduleId, usize, usize, expr]
  | .callee, callee => calleeFields callee
  | .operatorOp, _ => [discriminant]
  | .place, _ => [ty, .child .placeBase, .list .placeElem]
  | .placeBase, base => placeBaseFields base
  | .placeElem, elem => placeElemFields elem
  | .ty, _ => [.child .tyKind, .leaf .optionalTypeLayout]
  | .tyKind, form => tyFormFields form
  | .ownerInstance, _ => [moduleId, optionalTy, types, constArgs]
  | .typeBinding, _ => [.option .traitId, types, constArgs, symbol, ty]
  | .traitId, traitId => traitRefFields traitId
  | .constArg, _ => [ty, .child .constValue]
  | .constValue, value => constValueFields value
  | .arrayLen, len => arrayLenFields len

/-! ### Tags -/

def functionOpTag : FunctionOp → UInt8
  | .binding => 0
  | .storeLocal => 1
  | .memoryIntrinsic => 2
  | .expr => 3
  | .defer => 4

def memorySourceTag : MemorySource → UInt8
  | .slice => 0
  | .byte => 1

def terminatorTag : Terminator → UInt8
  | .error => 0
  | .branch => 1
  | .next => 2
  | .ifElse => 3
  | .switch => 4
  | .tryValue => 5
  | .loop => 6
  | .ret => 7
  | .tail => 8

def forHeaderTag : ForHeader → UInt8
  | .infinite => 0
  | .condition => 1

/-- Two kinds of expression have the tag 51. -/
def exprKindTag : ExprKind → UInt8
  | .error => 0
  | .integer => 1
  | .float => 2
  | .string => 3
  | .byteString => 4
  | .char => 5
  | .byteChar => 6
  | .bool => 7
  | .null => 8
  | .callerLocation => 51
  | .localVar => 9
  | .global => 10
  | .constGeneric => 11
  | .associatedConstProjection => 70
  | .globalInstance => 12
  | .function => 13
  | .enumConstructor => 60
  | .functionInstance => 14
  | .enumVariant => 15
  | .enumVariantTag => 51
  | .enumTag => 52
  | .enumPayloadField => 53
  | .builtinValue => 16
  | .trap => 17
  | .range => 18
  | .rangeBound => 19
  | .inlineAsm => 20
  | .atomic => 21
  | .loadUnaligned => 22
  | .splat => 23
  | .extractElement => 24
  | .insertElement => 25
  | .bitmask => 26
  | .bitIntrinsic => 27
  | .charFromU32 => 28
  | .staticArrayPointer => 29
  | .arrayLiteral => 30
  | .tuple => 55
  | .tupleField => 56
  | .structLiteral => 31
  | .unionLiteral => 32
  | .unionStorageLiteral => 54
  | .unary => 33
  | .optionalSome => 34
  | .errorOk => 35
  | .errorErr => 36
  | .taggedUnionTag => 37
  | .taggedUnionPayload => 38
  | .tryExpr => 39
  | .addrOf => 40
  | .binary => 41
  | .assign => 42
  | .discard => 43
  | .cast => 44
  | .traitObjectUpcast => 45
  | .traitObjectCoercion => 46
  | .callableCoercion => 57
  | .functionCallable => 59
  | .closureFunctionPointer => 58
  | .call => 47
  | .field => 48
  | .index => 49
  | .slice => 50

def builtinValueTag : BuiltinValue → UInt8
  | .usize => 0
  | .layout => 1
  | .fieldOffset => 2
  | .int => 3

def atomicTag : Atomic → UInt8
  | .load => 0
  | .store => 1
  | .rmw => 2
  | .cmpxchg => 3
  | .fence => 4

def arrayElementsTag : ArrayElements → UInt8
  | .list => 0
  | .repeated => 1

def calleeTag : Callee → UInt8
  | .tracked => 12
  | .closureEntry => 10
  | .function => 0
  | .functionInstance => 1
  | .method => 2
  | .traitMethod => 3
  | .traitAssociatedFunction => 4
  | .dynamicTraitMethod => 5
  | .builtinMethod => 6
  | .builtinTraitMethodCall => 7
  | .builtinOperator => 8
  | .functionPointer => 9
  | .callable => 11

def operatorOpTag : OperatorOp → UInt8
  | .unary => 0
  | .binary => 1

def placeBaseTag : PlaceBase → UInt8
  | .localVar => 0
  | .global => 1
  | .globalInstance => 2
  | .deref => 3
  | .error => 4

def placeElemTag : PlaceElem → UInt8
  | .field => 0
  | .index => 1
  | .error => 2
  | .tupleField => 3

def tyFormTag : TyForm → UInt8
  | .error => 0
  | .constOnly => 1
  | .primitive => 2
  | .pointer => 3
  | .volatilePointer => 4
  | .slice => 5
  | .slicePointee => 6
  | .array => 7
  | .vector => 8
  | .range => 9
  | .functionPointer => 10
  | .optional => 11
  | .errorUnion => 12
  | .nominal => 13
  | .builtinType => 14
  | .builtinTrait => 15
  | .traitObject => 16
  | .traitObjectPointee => 17
  | .projection => 18
  | .genericParam => 19
  | .selfParam => 20
  | .opaqueTy => 21
  | .tuple => 22
  | .closureState => 23
  | .callable => 24
  | .callablePointee => 25
  | .functionItem => 26
  | .missing => 255

def traitRefTag : TraitRef → UInt8
  | .source => 0
  | .builtin => 1

def constValueTag : ConstValue → UInt8
  | .genericParam => 0
  | .constExpr => 1
  | .int => 2
  | .bool => 3
  | .char => 4

def arrayLenTag : ArrayLen → UInt8
  | .infer => 0
  | .genericParam => 1
  | .constValue => 2
  | .constExpr => 3
  | .builtin => 4

/-- The tag of a node, which nodes of one form only do not have. -/
def header : {c : Cat} → Kind c → List UInt8
  | .functionOp, op => [functionOpTag op]
  | .memorySource, source => [memorySourceTag source]
  | .terminator, terminator => [terminatorTag terminator]
  | .forHeader, header => [forHeaderTag header]
  | .exprKind, kind => [exprKindTag kind]
  | .builtinValue, value => [builtinValueTag value]
  | .atomic, atomic => [atomicTag atomic]
  | .arrayElements, elems => [arrayElementsTag elems]
  | .callee, callee => [calleeTag callee]
  | .operatorOp, op => [operatorOpTag op]
  | .placeBase, base => [placeBaseTag base]
  | .placeElem, elem => [placeElemTag elem]
  | .tyKind, form => [tyFormTag form]
  | .traitId, traitId => [traitRefTag traitId]
  | .constValue, value => [constValueTag value]
  | .arrayLen, len => [arrayLenTag len]
  | .functionBody, _ | .functionLocal, _ | .scope, _ | .block, _ | .switchArm, _ | .expr, _ | .scalar, _
  | .asmInput, _ | .asmOutput, _ | .asmClobber, _ | .asmOption, _ | .functionField, _ | .unionByte, _
  | .unionRelocation, _ | .place, _ | .ty, _ | .ownerInstance, _ | .typeBinding, _ | .constArg, _ => []

/-- The function IR as the encoder sees it; `M` is the type of module handles. -/
def irSignature (M : Type) : Signature where
  Cat := Cat
  Kind := Kind
  Leaf := Leaf
  Value := Value M
  fields := fields

abbrev FunctionBody (M : Type) := Tree (irSignature M) Cat.functionBody

end Nia.Codegen.Fingerprint
