import Nia.Lib.Chase
import Nia.Lib.Checks

/-! The scopes of a function body.

A scope names its parent, or is a root. The validator keeps the parents in a map, refuses a list in which an id
occurs twice, and then checks each scope: the parent is a scope of the list and another one, and two pointers
that follow the parents at different speeds do not meet. The walk ends on every list, and a list passes exactly
when all parents are scopes of the list and every scope leads to a root (`validateScopes_exact`). -/
namespace Nia.FunctionIr.Validate
open Lib.Chase

abbrev FunctionScopeId := Nat

abbrev Span := Nat × Nat

/-- A scope, with its parent where it has one. -/
structure FunctionScope where
  id : FunctionScopeId
  parent : Option FunctionScopeId
  span : Span

structure FunctionIrError where
  span : Span
  message : String

/-- `FunctionIrValidator`, of which the scopes and the map of their parents. -/
structure FunctionIrValidator where
  scopes : List FunctionScope
  scopeParents : FunctionScopeId → Option (Option FunctionScopeId)

namespace FunctionIrValidator

/-- Enters the scopes into the map. -/
def enter : List FunctionScope → (FunctionScopeId → Option (Option FunctionScopeId)) →
    Except FunctionIrError (FunctionScopeId → Option (Option FunctionScopeId))
  | [], parents => .ok parents
  | scope :: rest, parents =>
    if (parents scope.id).isSome then .error ⟨scope.span, "duplicate function scope id"⟩
    else enter rest (Function.update parents scope.id (some scope.parent))

/-- `FunctionIrValidator::new`: the parents by id; an id may stand once only. -/
def new (scopes : List FunctionScope) : Except FunctionIrError FunctionIrValidator := do
  return ⟨scopes, ← enter scopes fun _ => none⟩

variable (validator : FunctionIrValidator)

/-- `require_scope`: the id is one of the scopes. -/
def requireScope (scope : FunctionScopeId) (span : Span) (what : String) : Except FunctionIrError Unit :=
  if (validator.scopeParents scope).isSome then .ok ()
  else .error ⟨span, what ++ " references missing scope `" ++ toString scope ++ "`"⟩

def scopeParent (scope : FunctionScopeId) : Option FunctionScopeId := (validator.scopeParents scope).join

/-- The loop, with fuel. -/
def validateScopeParentChain (fuel : Nat) (scope : FunctionScope) : Check FunctionIrError Unit :=
  let slow := validator.scopeParent scope.id
  let fast := slow.bind validator.scopeParent
  (race validator.scopeParent fuel slow fast).map fun met =>
    if met then .error ⟨scope.span, "scope parent chain contains a cycle"⟩ else .ok ()

/-- The checks of the parent a scope names. -/
def validateParent (scope : FunctionScope) : Except FunctionIrError Unit :=
  match scope.parent with
  | none => .ok ()
  | some parent => do
    validator.requireScope parent scope.span "scope parent"
    if parent = scope.id then .error ⟨scope.span, "scope cannot parent itself"⟩

/-- The part of `validate_body_shape` that is about scopes. -/
def validateScopes (fuel : Nat) : Check FunctionIrError Unit :=
  validator.scopes.forM fun scope => do
    liftM (validator.validateParent scope)
    validator.validateScopeParentChain fuel scope

end FunctionIrValidator

/-! ### Scopes that lead to a root -/

/-- Following the parents from a scope of the list ends at a scope without a parent. -/
inductive Rooted (scopes : List FunctionScope) : FunctionScopeId → Prop where
  | root {scope : FunctionScope} (hscope : scope ∈ scopes) (hparent : scope.parent = none) : Rooted scopes scope.id
  | child {scope : FunctionScope} {parent : FunctionScopeId} (hscope : scope ∈ scopes)
      (hparent : scope.parent = some parent) (h : Rooted scopes parent) : Rooted scopes scope.id

/-- Every parent is a scope of the list. -/
def ParentsNamed (scopes : List FunctionScope) : Prop :=
  ∀ scope ∈ scopes, ∀ parent ∈ scope.parent, ∃ named ∈ scopes, named.id = parent

/-! ### The map of parents -/

namespace FunctionIrValidator

variable {scopes : List FunctionScope} {validator : FunctionIrValidator}

/-- Scopes that were entered were all new, have their own parents now, and the others are as before. -/
theorem enter_eq_ok {before parents : FunctionScopeId → Option (Option FunctionScopeId)}
    (h : enter scopes before = .ok parents) : (∀ scope ∈ scopes, before scope.id = none) ∧
      (∀ scope ∈ scopes, parents scope.id = some scope.parent) ∧
      ∀ id, (∀ scope ∈ scopes, scope.id ≠ id) → parents id = before id := by
  induction scopes generalizing before with
  | nil =>
    cases h
    simp
  | cons scope rest ih =>
    unfold enter at h
    split at h
    · cases h
    · next hfresh =>
      obtain ⟨hbefore, hparents, hother⟩ := ih h
      have hne : ∀ other ∈ rest, other.id ≠ scope.id := by
        intro other hother' heq
        have := hbefore other hother'
        rw [heq, Function.update_self] at this
        cases this
      refine ⟨?_, ?_, ?_⟩
      · refine List.forall_mem_cons.mpr ⟨by simpa using hfresh, fun other hmem => ?_⟩
        have := hbefore other hmem
        rwa [Function.update_of_ne (hne other hmem)] at this
      · refine List.forall_mem_cons.mpr ⟨?_, hparents⟩
        rw [hother scope.id hne, Function.update_self]
      · intro id hid
        obtain ⟨hfirst, hrest⟩ := List.forall_mem_cons.mp hid
        rw [hother id hrest, Function.update_of_ne hfirst.symm]

/-- What the map says, for a validator that was made. -/
structure Made (scopes : List FunctionScope) (validator : FunctionIrValidator) : Prop where
  scopes_eq : validator.scopes = scopes
  parents : ∀ scope ∈ scopes, validator.scopeParents scope.id = some scope.parent
  missing : ∀ id, (∀ scope ∈ scopes, scope.id ≠ id) → validator.scopeParents id = none

/-- A validator that was made knows the parent of each scope. -/
theorem made (h : new scopes = .ok validator) : Made scopes validator := by
  obtain ⟨parents, hparents, hvalidator⟩ := Lib.Checks.bind_eq_ok.mp h
  obtain rfl := Lib.Checks.pure_eq_ok.mp hvalidator
  obtain ⟨-, hlisted, hother⟩ := enter_eq_ok hparents
  exact ⟨rfl, hlisted, hother⟩

theorem Made.scopeParent (h : Made scopes validator) {scope : FunctionScope} (hscope : scope ∈ scopes) :
    validator.scopeParent scope.id = scope.parent := by
  rw [FunctionIrValidator.scopeParent, h.parents scope hscope]
  rfl

/-- The ids it knows are those of the scopes. -/
theorem Made.isSome_iff (h : Made scopes validator) (id : FunctionScopeId) :
    (validator.scopeParents id).isSome ↔ ∃ scope ∈ scopes, scope.id = id := by
  constructor
  · intro hsome
    by_contra hnone
    rw [h.missing id fun scope hscope hid => hnone ⟨scope, hscope, hid⟩] at hsome
    cases hsome
  · rintro ⟨scope, hscope, rfl⟩
    rw [h.parents scope hscope]
    rfl

/-- Only finitely many ids have a parent. -/
theorem Made.finite (h : Made scopes validator) : {id | (validator.scopeParent id).isSome}.Finite := by
  refine (List.finite_toSet (scopes.map FunctionScope.id)).subset fun id hid => ?_
  have hsome : (validator.scopeParents id).isSome := by
    cases hparent : validator.scopeParents id with
    | none => simp [FunctionIrValidator.scopeParent, hparent] at hid
    | some parent => rfl
  obtain ⟨scope, hscope, rfl⟩ := (h.isSome_iff id).mp hsome
  exact List.mem_map_of_mem hscope

/-! ### Chains and roots -/

/-- From a rooted scope the walk ends. -/
theorem Made.exists_end (h : Made scopes validator) {id : FunctionScopeId} (hrooted : Rooted scopes id) :
    ∃ n, after validator.scopeParent (some id) n = none := by
  induction hrooted with
  | root hscope hparent => exact ⟨1, (h.scopeParent hscope).trans hparent⟩
  | child hscope hparent _ ih =>
    obtain ⟨n, hn⟩ := ih
    refine ⟨1 + n, ?_⟩
    rw [after_add, ← hparent, ← h.scopeParent hscope] at *
    exact hn

/-- Where the parents are all named, a walk that ends has reached a root. -/
theorem Made.rooted (h : Made scopes validator) (hnamed : ParentsNamed scopes) {n : Nat} {scope : FunctionScope}
    (hscope : scope ∈ scopes) (hend : after validator.scopeParent (some scope.id) n = none) :
    Rooted scopes scope.id := by
  induction n generalizing scope with
  | zero => cases hend
  | succ n ih =>
    cases hparent : scope.parent with
    | none => exact .root hscope hparent
    | some parent =>
      obtain ⟨named, hmem, rfl⟩ := hnamed scope hscope parent hparent
      refine .child hscope hparent (ih hmem ?_)
      rw [Nat.add_comm, after_add] at hend
      have hfirst : after validator.scopeParent (some scope.id) 1 = some named.id :=
        (h.scopeParent hscope).trans hparent
      rwa [hfirst] at hend

/-! ### The checks -/

/-- The race of the two walks halts, without an error exactly when the walk ends. -/
theorem validateScopeParentChain_halts (h : Made scopes validator) (scope : FunctionScope) :
    Halts (validator.validateScopeParentChain · scope)
      (∃ n, after validator.scopeParent (some scope.id) n = none) := by
  obtain ⟨steps, met, hrace, hmet⟩ := race_halts (some scope.id) h.finite
  refine ⟨steps, _, fun fuel hfuel => congrArg (Option.map _) (hrace fuel hfuel), ?_⟩
  cases met <;> simp [← hmet]

/-- A parent is accepted when it is named and not the scope itself. -/
theorem validateParent_eq_ok (h : Made scopes validator) (scope : FunctionScope) :
    validator.validateParent scope = .ok () ↔
      ∀ parent ∈ scope.parent, (∃ named ∈ scopes, named.id = parent) ∧ parent ≠ scope.id := by
  unfold validateParent requireScope
  cases scope.parent with
  | none => simp
  | some parent =>
    rw [Lib.Checks.then_eq_ok]
    simp [h.isSome_iff parent, pure, Except.pure]

/-- **On every list of scopes the walk ends, and it accepts the list exactly when every parent is a scope of the
list and every scope leads to a scope without a parent.** -/
theorem validateScopes_exact (scopes : List FunctionScope) (validator : FunctionIrValidator)
    (hnew : new scopes = .ok validator) :
    ∃ steps, ∃ result : Except FunctionIrError Unit,
      (∀ fuel, steps ≤ fuel → validator.validateScopes fuel = some result) ∧
        (result = .ok () ↔ ParentsNamed scopes ∧ ∀ scope ∈ scopes, Rooted scopes scope.id) := by
  have h := made hnew
  have hhalts : Halts validator.validateScopes _ := Halts.forM fun scope _ =>
    (Halts.ofExcept (validator.validateParent scope)).bind (validateScopeParentChain_halts h scope)
  refine hhalts.congr ?_
  rw [h.scopes_eq]
  simp only [validateParent_eq_ok h]
  constructor
  · intro hchecks
    have hnamed : ParentsNamed scopes := fun scope hscope parent hparent =>
      ((hchecks scope hscope).1 parent hparent).1
    refine ⟨hnamed, fun scope hscope => ?_⟩
    obtain ⟨n, hn⟩ := (hchecks scope hscope).2
    exact h.rooted hnamed hscope hn
  · rintro ⟨hnamed, hrooted⟩ scope hscope
    obtain ⟨n, hn⟩ := h.exists_end (hrooted scope hscope)
    refine ⟨fun parent hparent => ⟨hnamed scope hscope parent hparent, ?_⟩, n, hn⟩
    -- A scope that is its own parent has no end.
    rintro rfl
    have hself : ∀ n, after validator.scopeParent (some scope.id) n = some scope.id := fun n =>
      Function.iterate_fixed ((h.scopeParent hscope).trans hparent) n
    rw [hself] at hn
    cases hn

/-- A cycle of two scopes behind a tail. -/
def tailAndCycle : List FunctionScope := [⟨0, some 1, (0, 9)⟩, ⟨1, some 2, (1, 8)⟩, ⟨2, some 1, (2, 7)⟩]

theorem validateScopes_exact_tail : ∃ validator, new tailAndCycle = .ok validator ∧
    ∃ steps, ∃ result : Except FunctionIrError Unit,
      (∀ fuel, steps ≤ fuel → validator.validateScopes fuel = some result) ∧
        (result = .ok () ↔ ParentsNamed tailAndCycle ∧ ∀ scope ∈ tailAndCycle, Rooted tailAndCycle scope.id) :=
  ⟨_, rfl, validateScopes_exact _ _ rfl⟩

end FunctionIrValidator

end Nia.FunctionIr.Validate
