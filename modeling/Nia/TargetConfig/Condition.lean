import Nia.Ast.Syntax
import Nia.Ty.Literals

/-! Which attributes are active for a target, a build profile and a compilation mode.

A condition is evaluated to a value; one that fails to evaluate, or is not a boolean, makes its
owner inactive, as does a profile or a test marker that is repeated. -/
namespace Nia.TargetConfig

open Nia.Ast

/-! ### Conditions -/

structure Target where
  arch : String
  vendor : String
  os : String
  env : String
  endian : String
  pointerWidth : Nat

inductive BuildProfile where
  | debug | release
  deriving DecidableEq, Repr

inductive CompilationMode where
  | normal | test
  deriving DecidableEq, Repr

inductive ConditionValue where
  | bool (value : Bool)
  | int (value : Nat)
  | string (value : String)
  deriving DecidableEq, Repr

/-- `Pruner`, without the diagnostics. -/
structure Pruner where
  config : Target
  profile : BuildProfile
  mode : CompilationMode

namespace Pruner

variable (pruner : Pruner)

/-- `ConditionEvaluator::new`. -/
def values : List (SymbolId × ConditionValue) :=
  [("arch", .string pruner.config.arch), ("vendor", .string pruner.config.vendor),
    ("os", .string pruner.config.os), ("env", .string pruner.config.env),
    ("endian", .string pruner.config.endian), ("pointerWidth", .int pruner.config.pointerWidth)]

def asBool : ConditionValue → Option Bool
  | .bool value => some value
  | _ => none

/-- `ConditionEvaluator::eval`; an error is a diagnostic and no value. -/
def eval : ConditionExpr → Option ConditionValue
  | .bool value => some (.bool value)
  | .integer text => (Ty.evalIntLiteral text).map .int
  | .string text => (Ty.evalStringLiteral text).map .string
  | .ident name => pruner.values.lookup name
  | .not expr => ((eval expr).bind asBool).map fun value => .bool !value
  | .binary lhs op rhs =>
    match op with
    | .eq => (eval lhs).bind fun value => (eval rhs).map fun other => .bool (value = other)
    | .ne => (eval lhs).bind fun value => (eval rhs).map fun other => .bool (value ≠ other)
    | .and =>
      ((eval lhs).bind asBool).bind fun value =>
        if value then ((eval rhs).bind asBool).map .bool else some (.bool false)
    | .or =>
      ((eval lhs).bind asBool).bind fun value =>
        if value then some (.bool true) else ((eval rhs).bind asBool).map .bool

/-- `eval_bool`. -/
def evalBool (expr : ConditionExpr) : Option Bool := (pruner.eval expr).bind asBool

def profileMatches : ProfileKind → BuildProfile → Bool
  | .debug, .debug => true
  | .release, .release => true
  | _, _ => false

/-! ### Attributes -/

/-- `AttributeKind`, as far as it says when its owner is active. -/
inductive Marker where
  | ifCondition (condition : ConditionExpr)
  | profile (profile : ProfileKind)
  | test
  | metadata
  deriving DecidableEq, Repr

mutual

/-- The markers of a list of attributes. -/
def markers {k : Kind} : Node k → List Marker
  | .mk label parts =>
    match label with
    | .cons => markersOf parts
    | .attrIf condition => [.ifCondition condition]
    | .attrProfile profile => [.profile profile]
    | .attrTest => [.test]
    | .attrMeta _ => [.metadata]
    | _ => []

def markersOf {ks : List Kind} : Nodes ks → List Marker
  | .nil => []
  | .cons head tail => markers head ++ markersOf tail

end

def isProfile : Marker → Bool
  | .profile _ => true
  | _ => false

def markerActive : Marker → Bool
  | .ifCondition condition => pruner.evalBool condition = some true
  | .profile profile => profileMatches profile pruner.profile
  | .test => pruner.mode = .test
  | .metadata => true

/-- `attributes_active`. -/
def attributesActive (attributes : Node (.list .attribute)) : Bool :=
  decide ((markers attributes).countP isProfile ≤ 1) && decide ((markers attributes).count .test ≤ 1) &&
    (markers attributes).all pruner.markerActive

end Pruner

end Nia.TargetConfig
