import Mathlib

/-! The source syntax, as the parser leaves it.

A node is a label with its parts. The label is the form of the node with the data it holds besides
other nodes, and says of which categories its parts are. A pass over the syntax is then a table over
the labels and one recursion over the nodes. Statements stand in blocks and in arms of `match`;
blocks stand in expressions; expressions stand in statements, patterns and attributes, and in types,
as array lengths and const arguments. The nodes to which semantic passes attach facts have a key.
Spans, spellings of types and what no modelled pass reads are left out. -/
namespace Nia.Ast

/-- `SymbolId`: an interned name is its text. -/
abbrev SymbolId := String

/-- `VersionedNodeKey`. -/
abbrev NodeKey := Nat

inductive PathSegmentKind where
  | name (symbol : SymbolId)
  | root
  | super
  | selfValue
  deriving DecidableEq, Repr

inductive ConditionBinaryOp where
  | eq | ne | and | or
  deriving DecidableEq, Repr

/-- `ConditionExpr`: the argument of an `@[if]` attribute. -/
inductive ConditionExpr where
  | bool (value : Bool)
  | integer (text : String)
  | string (text : String)
  | ident (name : SymbolId)
  | not (expr : ConditionExpr)
  | binary (lhs : ConditionExpr) (op : ConditionBinaryOp) (rhs : ConditionExpr)
  deriving DecidableEq, Repr

inductive ProfileKind where
  | debug | release
  deriving DecidableEq, Repr

inductive LocalBindingKind where
  | letBinding (isMutable : Bool)
  | const
  deriving DecidableEq, Repr

/-- Types without parts. -/
inductive TypeLeaf where
  | error | selfType | opaqueType | never | infer
  deriving DecidableEq, Repr

/-- Types with one part. -/
inductive ElemForm where
  | pointer (isReadonly : Bool)
  | volatilePointer (isReadonly : Bool)
  | slice (isReadonly : Bool)
  | slicePointee
  | optional
  deriving DecidableEq, Repr

inductive FunctionForm where
  | functionPointer (isVariadic isExternal : Bool)
  | callable
  deriving DecidableEq, Repr

/-- Expressions without parts, other than names. -/
inductive Atom where
  | error | integer (text : String) | float (text : String) | string (parts : List String)
  | byteString (parts : List String) | char (text : String) | byteChar (text : String)
  | raw (text : String) | bool (value : Bool) | null | pathRoot (kind : PathSegmentKind) | underscore
  | omittedMember (name : SymbolId)
  deriving DecidableEq, Repr

inductive UnaryOp where
  | neg | not | bitNot | refReadOnly | ref | deref
  deriving DecidableEq, Repr

inductive BinaryOp where
  | mul | div | rem | add | sub | shl | shr | lt | le | gt | ge | eq | ne | bitAnd | bitXor | bitOr | and | or
  deriving DecidableEq, Repr

inductive AssignOp where
  | assign | add | sub | shl | shr | mul | div | rem | bitAnd | bitXor | bitOr
  deriving DecidableEq, Repr

/-- The categories of nodes; `list` and `opt` are the `Vec` and the `Option` of a category. -/
inductive Kind where
  | type | segment | typeArg | expr | bracketArg | capture | param | fieldInit | clause | arm
  | pattern | patternField | attribute | stmt | stmtKind | block
  | generic | predicate | field | variant | function | associatedValue | method | item | itemKind
  | list (kind : Kind)
  | opt (kind : Kind)
  deriving DecidableEq, Repr

/-- The forms of nodes, with what a node holds besides its parts. -/
inductive Label : Kind → Type where
  | nil {k : Kind} : Label (.list k)
  | cons {k : Kind} : Label (.list k)
  | none {k : Kind} : Label (.opt k)
  | some {k : Kind} : Label (.opt k)
  -- `TypeKind`
  | typeLeaf (leaf : TypeLeaf) : Label .type
  | typePath : Label .type
  | typeProjection (name : SymbolId) : Label .type
  | typeElem (form : ElemForm) : Label .type
  | typeArray : Label .type
  | typeTuple : Label .type
  | typeRange (inclusive : Bool) : Label .type
  | typeFunction (form : FunctionForm) : Label .type
  | typeErrorUnion : Label .type
  -- `TypePathSegment` and `TypeArg`
  | segment (segment : PathSegmentKind) : Label .segment
  | argType : Label .typeArg
  | argConst : Label .typeArg
  | argTypeOrConst : Label .typeArg
  | argAssocName (key : SymbolId) : Label .typeArg
  | argAssocProjection : Label .typeArg
  -- `ExprKind`
  | atom (atom : Atom) : Label .expr
  | ident (key : NodeKey) (name : SymbolId) : Label .expr
  | selfValue (key : NodeKey) : Label .expr
  | typeTarget (key : NodeKey) : Label .expr
  | traitTarget (key : NodeKey) : Label .expr
  | bracketSuffix : Label .expr
  | tuple : Label .expr
  | closure : Label .expr
  | arrayList : Label .expr
  | arrayRepeat : Label .expr
  | typedStructLiteral : Label .expr
  | qualifiedStructLiteral : Label .expr
  | omittedAggregateLiteral : Label .expr
  | unary (op : UnaryOp) : Label .expr
  | optionalSome : Label .expr
  | errorOk : Label .expr
  | errorErr : Label .expr
  | tryExpr : Label .expr
  | binary (op : BinaryOp) : Label .expr
  | assign (op : AssignOp) : Label .expr
  | cast : Label .expr
  | call : Label .expr
  | qualified (key : NodeKey) (name : SymbolId) : Label .expr
  | fieldAccess (name : SymbolId) : Label .expr
  | tupleField (index : Nat) : Label .expr
  | index : Label .expr
  | indexRange (inclusive : Bool) : Label .expr
  | range (inclusive : Bool) : Label .expr
  | blockExpr : Label .expr
  | ifExpr : Label .expr
  | ifPattern : Label .expr
  | ifPatternChain : Label .expr
  | matchExpr : Label .expr
  -- the parts of expressions
  | bracketArg : Label .bracketArg
  | capture (name : SymbolId) (key : NodeKey) : Label .capture
  | param (receiver : Bool) (name : Option SymbolId) (key : NodeKey) : Label .param
  | fieldInit (name : SymbolId) : Label .fieldInit
  | clausePattern : Label .clause
  | clauseCondition : Label .clause
  -- `MatchArm` with each `MatchArmBody`
  | armExpr : Label .arm
  | armStmt : Label .arm
  | armBlock : Label .arm
  -- `PatternKind`
  | patWildcard : Label .pattern
  | patBind (name : SymbolId) (key : NodeKey) (isMutable : Bool) : Label .pattern
  | patPointer : Label .pattern
  | patMutPointer : Label .pattern
  | patOptionalSome : Label .pattern
  | patOptionalNull : Label .pattern
  | patErrorOk : Label .pattern
  | patErrorErr : Label .pattern
  | patTuple : Label .pattern
  | patNominalTuple : Label .pattern
  | patNominalNamed (rest : Bool) : Label .pattern
  | patExpr : Label .pattern
  | patRange (inclusive : Bool) : Label .pattern
  | patternField (name : SymbolId) : Label .patternField
  -- `AttributeKind`
  | attrIf (condition : ConditionExpr) : Label .attribute
  | attrProfile (profile : ProfileKind) : Label .attribute
  | attrTest : Label .attribute
  | attrMeta (path : List SymbolId) : Label .attribute
  -- `Stmt`, `StmtKind` and `Block`
  | stmt : Label .stmt
  | binding (kind : LocalBindingKind) : Label .stmtKind
  | static (name : SymbolId) (key : NodeKey) : Label .stmtKind
  | using : Label .stmtKind
  | exprStmt : Label .stmtKind
  | returnStmt : Label .stmtKind
  | breakStmt : Label .stmtKind
  | continueStmt : Label .stmtKind
  | defer : Label .stmtKind
  | forIn : Label .stmtKind
  | whileStmt : Label .stmtKind
  | loopStmt : Label .stmtKind
  | block : Label .block
  -- the parts of items
  | genericType (name : SymbolId) : Label .generic
  | genericConst (name : SymbolId) : Label .generic
  | predicate : Label .predicate
  | field (name : SymbolId) : Label .field
  | variantUnit (name : SymbolId) : Label .variant
  | variantTuple (name : SymbolId) : Label .variant
  | variantNamed (name : SymbolId) : Label .variant
  | function (name : SymbolId) : Label .function
  | associatedValue (name : SymbolId) : Label .associatedValue
  | method : Label .method
  -- `Item` and `ItemKind`
  | item : Label .item
  | itemModule (name : SymbolId) : Label .itemKind
  | itemUsing : Label .itemKind
  | itemStruct (name : SymbolId) : Label .itemKind
  | itemUnion (name : SymbolId) : Label .itemKind
  | itemTrait (name : SymbolId) : Label .itemKind
  | itemExtend : Label .itemKind
  | itemEnum (name : SymbolId) : Label .itemKind
  | itemTypeAlias (name : SymbolId) : Label .itemKind
  | itemFunction : Label .itemKind
  | itemBinding (name : SymbolId) : Label .itemKind

/-- The categories of the parts of a node, in the order of the source's fields. -/
@[reducible]
def Label.parts : {k : Kind} → Label k → List Kind
  | _, @Label.cons k => [k, .list k]
  | _, @Label.some k => [k]
  | _, .typePath => [.list .segment]
  | _, .typeProjection _ => [.type, .type]
  | _, .typeElem _ => [.type]
  | _, .typeArray => [.opt .expr, .type]
  | _, .typeTuple => [.list .type]
  | _, .typeRange _ => [.opt .type, .opt .type]
  | _, .typeFunction _ => [.list .type, .opt .type]
  | _, .typeErrorUnion => [.type, .type]
  | _, .segment _ => [.list .typeArg]
  | _, .argType => [.type]
  | _, .argConst => [.expr]
  | _, .argTypeOrConst => [.type, .expr]
  | _, .argAssocName _ => [.type]
  | _, .argAssocProjection => [.type, .type]
  | _, .typeTarget _ => [.type]
  | _, .traitTarget _ => [.type, .type]
  | _, .bracketSuffix => [.expr, .list .bracketArg]
  | _, .tuple => [.list .expr]
  | _, .closure => [.list .capture, .list .param, .expr]
  | _, .arrayList => [.list .expr]
  | _, .arrayRepeat => [.expr, .expr]
  | _, .typedStructLiteral => [.type, .list .fieldInit]
  | _, .qualifiedStructLiteral => [.expr, .list .fieldInit]
  | _, .omittedAggregateLiteral => [.list .fieldInit]
  | _, .unary _ => [.expr]
  | _, .optionalSome => [.expr]
  | _, .errorOk => [.expr]
  | _, .errorErr => [.expr]
  | _, .tryExpr => [.expr]
  | _, .binary _ => [.expr, .expr]
  | _, .assign _ => [.expr, .expr]
  | _, .cast => [.expr, .type]
  | _, .call => [.expr, .list .expr]
  | _, .qualified _ _ => [.expr]
  | _, .fieldAccess _ => [.expr]
  | _, .tupleField _ => [.expr]
  | _, .index => [.expr, .expr]
  | _, .indexRange _ => [.expr, .opt .expr, .opt .expr]
  | _, .range _ => [.opt .expr, .opt .expr]
  | _, .blockExpr => [.block]
  | _, .ifExpr => [.expr, .block, .opt .expr]
  | _, .ifPattern => [.expr, .pattern, .block, .opt .expr]
  | _, .ifPatternChain => [.list .clause, .block, .opt .expr]
  | _, .matchExpr => [.expr, .list .arm]
  | _, .bracketArg => [.opt .expr, .opt .type]
  | _, .capture _ _ => [.expr]
  | _, .param _ _ _ => [.opt .type]
  | _, .fieldInit _ => [.expr]
  | _, .clausePattern => [.expr, .pattern]
  | _, .clauseCondition => [.expr]
  | _, .armExpr => [.list .pattern, .expr]
  | _, .armStmt => [.list .pattern, .stmt]
  | _, .armBlock => [.list .pattern, .block]
  | _, .patPointer => [.pattern]
  | _, .patMutPointer => [.pattern]
  | _, .patOptionalSome => [.pattern]
  | _, .patErrorOk => [.pattern]
  | _, .patErrorErr => [.pattern]
  | _, .patTuple => [.list .pattern]
  | _, .patNominalTuple => [.expr, .list .pattern]
  | _, .patNominalNamed _ => [.expr, .list .patternField]
  | _, .patExpr => [.expr]
  | _, .patRange _ => [.expr, .expr]
  | _, .patternField _ => [.pattern]
  | _, .attrMeta _ => [.list .expr]
  | _, .stmt => [.list .attribute, .stmtKind]
  | _, .binding _ => [.pattern, .opt .type, .opt .expr]
  | _, .static _ _ => [.opt .type, .opt .expr]
  | _, .exprStmt => [.expr]
  | _, .returnStmt => [.opt .expr]
  | _, .defer => [.expr]
  | _, .forIn => [.pattern, .expr, .block]
  | _, .whileStmt => [.expr, .block]
  | _, .loopStmt => [.block]
  | _, .block => [.list .stmt, .opt .expr]
  | _, .genericConst _ => [.type]
  | _, .predicate => [.type, .list .type]
  | _, .field _ => [.type, .list .attribute]
  | _, .variantUnit _ => [.opt .expr]
  | _, .variantTuple _ => [.list .type, .opt .expr]
  | _, .variantNamed _ => [.list .field, .opt .expr]
  | _, .function _ => [.list .generic, .list .predicate, .list .param, .opt .type, .opt .block]
  | _, .associatedValue _ => [.opt .type, .opt .expr]
  | _, .method => [.list .attribute, .function]
  | _, .item => [.list .attribute, .itemKind]
  | _, .itemStruct _ => [.list .generic, .list .predicate, .list .field]
  | _, .itemUnion _ => [.list .generic, .list .predicate, .list .field]
  | _, .itemTrait _ => [.list .generic, .list .type, .list .predicate, .list .type, .list .method]
  | _, .itemExtend =>
    [.list .generic, .type, .opt .type, .list .predicate, .list .type, .list .associatedValue, .list .method]
  | _, .itemEnum _ => [.opt .type, .list .variant]
  | _, .itemTypeAlias _ => [.list .generic, .list .predicate, .opt .type]
  | _, .itemFunction => [.function]
  | _, .itemBinding _ => [.opt .type, .opt .expr]
  | _, _ => []

mutual

/-- A node of the syntax. -/
inductive Node : Kind → Type where
  | mk {k : Kind} (label : Label k) (parts : Nodes label.parts) : Node k

/-- The parts of a node. -/
inductive Nodes : List Kind → Type where
  | nil : Nodes []
  | cons {k : Kind} {ks : List Kind} (head : Node k) (tail : Nodes ks) : Nodes (k :: ks)

end

namespace Nodes

variable {k k' : Kind} {ks : List Kind}

def head : Nodes (k :: ks) → Node k
  | .cons head _ => head

def tail : Nodes (k :: ks) → Nodes ks
  | .cons _ tail => tail

/-- The second part. -/
def second (parts : Nodes (k :: k' :: ks)) : Node k' := parts.tail.head

end Nodes

def Node.ofList {k : Kind} : List (Node k) → Node (.list k)
  | [] => .mk .nil .nil
  | head :: tail => .mk .cons (.cons head (.cons (ofList tail) .nil))

def Node.ofOption {k : Kind} : Option (Node k) → Node (.opt k)
  | none => .mk .none .nil
  | some value => .mk .some (.cons value .nil)

/-! ### Induction -/

theorem Nodes.eq_pair {k k' : Kind} : (parts : Nodes [k, k']) →
    ∃ first second, parts = .cons first (.cons second .nil)
  | .cons first (.cons second .nil) => ⟨first, second, rfl⟩

/-- Induction over the parts of a node. -/
@[elab_as_elim, induction_eliminator]
theorem Nodes.parts_induct {motive : {ks : List Kind} → Nodes ks → Prop} (nil : motive .nil)
    (cons : ∀ {k : Kind} {ks : List Kind} (head : Node k) (tail : Nodes ks), motive tail →
      motive (.cons head tail)) {ks : List Kind} : (parts : Nodes ks) → motive parts
  | .nil => nil
  | .cons head tail => cons head tail (parts_induct nil cons tail)

/-- Every part has the property. -/
def Nodes.Each (P : {k : Kind} → Node k → Prop) {ks : List Kind} : Nodes ks → Prop
  | .nil => True
  | .cons head tail => P head ∧ tail.Each P

mutual

/-- A property of every node whose parts have it is a property of every node. -/
theorem Node.induct {P : {k : Kind} → Node k → Prop}
    (step : ∀ {k : Kind} (label : Label k) (parts : Nodes label.parts), parts.Each P → P (.mk label parts))
    {k : Kind} : (node : Node k) → P node
  | .mk label parts => step label parts (Nodes.each_of_step step parts)

theorem Nodes.each_of_step {P : {k : Kind} → Node k → Prop}
    (step : ∀ {k : Kind} (label : Label k) (parts : Nodes label.parts), parts.Each P → P (.mk label parts))
    {ks : List Kind} : (parts : Nodes ks) → parts.Each P
  | .nil => trivial
  | .cons head tail => ⟨Node.induct step head, Nodes.each_of_step step tail⟩

end

end Nia.Ast
