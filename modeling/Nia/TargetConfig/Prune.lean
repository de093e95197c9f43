import Nia.TargetConfig.Condition

/-! Pruning the statements that are inactive for a target.

The active items of a module are selected by their attributes. An item in which the canonical walk
finds a statement with a conditional attribute is then rewritten: pruning enters the bodies of
functions and the values of extensions, and leaves out the statements whose attributes are inactive.
Which parts of a node it enters is a table (`Pruner.enters`), as is what the walk visits
(`Pruner.walks`). -/
namespace Nia.TargetConfig.Pruner

open Nia.Ast

variable (pruner : Pruner)

/-- A statement whose attributes are not active. -/
def inactive {k : Kind} : Node k → Bool
  | .mk .stmt parts => !pruner.attributesActive parts.head
  | _ => false

/-! ### Rewriting -/

def emptyBlock : Node .block := .mk .block (.cons (.ofList []) (.cons (.ofOption none) .nil))

/-- The node holds an inactive statement directly: as the head of a list, or as an arm. -/
def holdsDirectly {k : Kind} : (label : Label k) → Nodes label.parts → Bool
  | .cons, parts => pruner.inactive parts.head
  | .armStmt, parts => pruner.inactive parts.second
  | _, _ => false

/-- The node without that statement: the rest of the list, or an arm with an empty block. -/
def without {k : Kind} : (label : Label k) → Nodes label.parts → Node k
  | .cons, parts => parts.second
  | .armStmt, parts => .mk .armBlock (.cons parts.head (.cons emptyBlock .nil))
  | label, parts => .mk label parts

/-- A node from its rewritten parts. -/
def assemble {k : Kind} (label : Label k) (parts rewritten : Nodes label.parts) : Node k :=
  if pruner.holdsDirectly label parts then without label rewritten else .mk label rewritten

section
variable (enters : {k : Kind} → Label k → List Bool)

mutual

/-- Rewrites a node from the bottom up, in the parts that are entered. -/
def rewrite {k : Kind} : Node k → Node k
  | .mk label parts => pruner.assemble label parts (rewriteParts (enters label) parts)

def rewriteParts {ks : List Kind} : List Bool → Nodes ks → Nodes ks
  | _, .nil => .nil
  | entered, .cons head tail =>
    .cons (if entered.headD false then rewrite head else head) (rewriteParts entered.tail tail)

end

end

/-! ### Pruning -/

/-- Which of its parts `prune_item`, `prune_block`, `prune_stmt`, `prune_expr`, `prune_pattern` and
their helpers enter in a node. -/
def enters {k : Kind} : Label k → List Bool
  | .cons => [true, true]
  | .some => [true]
  -- `prune_item`
  | .item => [false, true]
  | .itemFunction => [true]
  | .itemTrait _ => [false, false, false, false, true]
  | .itemExtend => [false, false, false, false, false, true, true]
  | .associatedValue _ => [false, true]
  | .method => [false, true]
  | .function _ => [false, false, false, false, true]
  -- `prune_block` and `prune_stmt`
  | .block => [true, true]
  | .stmt => [false, true]
  | .binding _ => [false, false, true]
  | .static _ _ => [false, true]
  | .exprStmt => [true]
  | .returnStmt => [true]
  | .defer => [true]
  | .forIn => [false, true, true]
  | .whileStmt => [true, true]
  | .loopStmt => [true]
  -- `prune_expr`
  | .blockExpr => [true]
  | .ifExpr => [true, true, true]
  | .ifPattern => [true, true, true, true]
  | .ifPatternChain => [true, true, true]
  | .clausePattern => [true, true]
  | .clauseCondition => [true]
  | .unary _ => [true]
  | .binary _ => [true, true]
  | .assign _ => [true, true]
  | .cast => [true, false]
  | .call => [true, true]
  | .bracketSuffix => [true, true]
  | .bracketArg => [true, false]
  | .tuple => [true]
  | .arrayList => [true]
  | .arrayRepeat => [true, true]
  | .typedStructLiteral => [false, true]
  | .fieldInit _ => [true]
  | .qualified _ _ => [true]
  | .fieldAccess _ => [true]
  | .index => [true, true]
  | .indexRange _ => [true, true, true]
  | .range _ => [true, true]
  | .matchExpr => [true, true]
  | .armExpr => [true, true]
  | .armStmt => [true, true]
  | .armBlock => [true, true]
  -- `prune_pattern`
  | .patPointer => [true]
  | .patMutPointer => [true]
  | .patOptionalSome => [true]
  | .patErrorOk => [true]
  | .patErrorErr => [true]
  | .patTuple => [true]
  | .patNominalTuple => [true, true]
  | .patNominalNamed _ => [true, true]
  | .patternField _ => [true]
  | .patExpr => [true]
  | .patRange _ => [true, true]
  -- everything else, among it closures, optional and error constructors, `try`, tuple fields, and
  -- the literals with a qualified or an omitted type
  | _ => []

/-- `prune_item` and what it calls. -/
def prune {k : Kind} (node : Node k) : Node k := pruner.rewrite enters node

/-! ### Modules -/

/-- The parts that the visitors of the compiler do not visit: the expression reading of an ambiguous
type argument, the key of an associated type, and the attributes of fields and methods. -/
def walks {k : Kind} : Label k → List Bool
  | .argTypeOrConst => [true, false]
  | .argAssocProjection => [false, true]
  | .field _ => [true, false]
  | .method => [false, true]
  | label => label.parts.map fun _ => true

def isConditional : Marker → Bool
  | .metadata => false
  | _ => true

/-- A statement with an `@[if]`, profile or test attribute. -/
def conditional {k : Kind} : Node k → Bool
  | .mk .stmt parts => (markers parts.head).any isConditional
  | _ => false

mutual

/-- `ConditionalStatementVisitor`. -/
def visit {k : Kind} : Node k → Bool
  | .mk label parts => conditional (.mk label parts) || visitParts (walks label) parts

def visitParts {ks : List Kind} : List Bool → Nodes ks → Bool
  | _, .nil => false
  | walked, .cons head tail => walked.headD false && visit head || visitParts walked.tail tail

end

/-- `item_needs_nested_pruning`. -/
def needsNestedPruning (item : Node .item) : Bool := visit item

/-- `item_is_active`, over the markers in their order. -/
def markersActive : List Marker → Option Bool
  | [] => some true
  | .ifCondition condition :: rest =>
    (pruner.evalBool condition).bind fun holds => if holds then markersActive rest else some false
  | .profile profile :: rest =>
    if profileMatches profile pruner.profile then markersActive rest else some false
  | .test :: rest => if pruner.mode = .test then markersActive rest else some false
  | .metadata :: rest => markersActive rest

/-- `item_is_active`; without a value the item is malformed. -/
def itemIsActive : Node .item → Option Bool
  | .mk .item parts =>
    if 1 < (markers parts.head).countP isProfile ∨ 1 < (markers parts.head).count .test then none
    else pruner.markersActive (markers parts.head)

/-- `active_items`; a malformed item is a diagnostic, and the module has no active items then. -/
def activeItems (items : List (Node .item)) : List (Node .item) :=
  if items.all fun item => (pruner.itemIsActive item).isSome then
    items.filter fun item => pruner.itemIsActive item = some true
  else []

/-- `prune_item_tree`. -/
def pruneItemTree (items : List (Node .item)) : List (Node .item) :=
  let active := pruner.activeItems items
  if active.any needsNestedPruning then
    active.map fun item => if needsNestedPruning item then pruner.prune item else item
  else active

end Nia.TargetConfig.Pruner
