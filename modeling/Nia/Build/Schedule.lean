import Mathlib

/-! The waves of the scheduler of build actions.

A plan has actions and steps under stable keys; a step selects an action and names the steps it depends on,
and several steps may select one action. A step is ready when every step it names is finished, and the actions
of the ready steps that have not run yet are handed over together, as one wave. How a wave ends is up to the
environment. A step whose action failed is never finished, so its dependents do not become ready; without
`keep_going` the first wave with a failure is the last. -/
namespace Nia.Build.Plan

/-! ### Plans -/

/-- A package and a name in it. -/
structure NodeKey where
  package : String
  name : String
  deriving DecidableEq

abbrev ActionKey := NodeKey
abbrev StepKey := NodeKey

/-- The kinds of actions, without what they read and write. -/
inductive ActionKind where
  | compilerCheck
  | compilerEmit
  | externalCommand
  | runExecutable
  | testExecutable
  | generatedFile
  | installArtifact
  | aggregate
  | uncacheable

structure PlanAction where
  key : ActionKey
  kind : ActionKind

structure PlanStep where
  key : StepKey
  action : ActionKey

/-- What the scheduler reads of a `BuildPlan`. -/
structure BuildPlan where
  steps : List PlanStep

/-! ### Outcomes -/

/-- `ActionOutcome`, with what the cache reports and what a failure carries. -/
inductive ActionOutcome (C F : Type) where
  | succeeded (cache : Option C)
  | cancelled
  | failed (error : F)

/-- `ActionFailure`. -/
structure ActionFailure (F : Type) where
  action : ActionKey
  test : Bool
  error : F

/-- The errors of the scheduler; the batch has its own. -/
inductive CoordinatorError (E F : Type) where
  | inconsistentPlan (owner missing : String)
  | batch (error : E)
  | action (error : F)
  | failures (failures : List (ActionFailure F))

/-- `from_failures`: the one failure of an action that is no test stands for itself. -/
def CoordinatorError.fromFailures {E F : Type} : List (ActionFailure F) → CoordinatorError E F
  | [failure] => if failure.test then .failures [failure] else .action failure.error
  | several => .failures several

/-- `ExecutionReport`. -/
structure ExecutionReport (C : Type) where
  steps : List StepKey
  actions : List ActionKey
  actionCache : List (ActionKey × C)

/-- The name of a step in a message. -/
def quoted (kind name : String) : String := kind ++ " `" ++ name ++ "`"

section Schedule

variable {C E F : Type} (plan : BuildPlan)

/-! ### Waves -/

/-- What the loop carries. -/
structure Progress (C F : Type) where
  indegree : Nat → Nat
  ready : List Nat
  /-- The actions handed over so far, in order. -/
  executed : List ActionKey
  failed : List ActionKey
  failures : List (ActionFailure F)
  report : ExecutionReport C

/-- Takes note of how one action ended, and whether it was cancelled. -/
def noteOutcome (noted : Progress C F × Bool) : PlanAction × ActionOutcome C F → Progress C F × Bool
  | (action, .succeeded cache) =>
    ({ noted.1 with report := { noted.1.report with
        actionCache := noted.1.report.actionCache ++ (cache.map (action.key, ·)).toList } }, noted.2)
  | (_, .cancelled) => (noted.1, true)
  | (action, .failed error) =>
    ({ noted.1 with
        failed := action.key :: noted.1.failed
        failures := noted.1.failures ++ [⟨action.key, action.kind matches .testExecutable, error⟩] }, noted.2)

/-- Counts a finished step off its dependents. -/
def countDown (steps : List PlanStep) : List Nat → (Nat → Nat) × List Nat →
    Except (CoordinatorError E F) ((Nat → Nat) × List Nat)
  | [], counted => .ok counted
  | dependent :: rest, (indegree, ready) =>
    match indegree dependent with
    | 0 => .error (.inconsistentPlan
        (quoted "step" (steps[dependent]?.elim "" fun step => step.key.name)) "valid dependency degree")
    | left + 1 => countDown steps rest
        (Function.update indegree dependent left, if left = 0 then dependent :: ready else ready)

/-- Finishes the steps of a wave whose action did not fail. -/
def finishSteps (dependents : Nat → List Nat) : List (PlanStep × Nat) → Progress C F →
    Except (CoordinatorError E F) (Progress C F)
  | [], progress => .ok progress
  | (step, index) :: rest, progress =>
    if step.action ∈ progress.failed then finishSteps dependents rest progress
    else do
      let (indegree, ready) ← countDown plan.steps (dependents index) (progress.indegree, progress.ready)
      finishSteps dependents rest { progress with
        indegree, ready, report := { progress.report with steps := progress.report.steps ++ [step.key] } }

/-- What follows the outcomes of a wave: an error, or the loop goes on. -/
def afterBatch (keepGoing : Bool) (dependents : Nat → List Nat) (wave : List (PlanStep × Nat))
    (actions : List PlanAction)
    (outcomes : List (ActionOutcome C F)) (progress : Progress C F) : Except (CoordinatorError E F) (Progress C F) :=
  if outcomes.length ≠ actions.length then
    .error (.inconsistentPlan "coordinator action batch" "one outcome per scheduled action")
  else
    let (progress, cancelled) := (actions.zip outcomes).foldl noteOutcome (progress, false)
    if cancelled || !keepGoing && !progress.failures.isEmpty then
      if progress.failures.isEmpty then
        .error (.inconsistentPlan "coordinator action batch" "failure cause for cancelled actions")
      else .error (.fromFailures progress.failures)
    else
      finishSteps plan dependents wave { progress with report := { progress.report with
        actions := progress.report.actions ++
          (actions.map PlanAction.key).filter fun key => key ∉ progress.failed } }

/-- The failure that an outcome adds to the report. -/
def failureOf : PlanAction × ActionOutcome C F → Option (ActionFailure F)
  | (action, .failed error) => some ⟨action.key, action.kind matches .testExecutable, error⟩
  | _ => none

/-- Failures are reported in the order of the actions. -/
theorem failures_noteOutcomes (pairs : List (PlanAction × ActionOutcome C F)) (noted : Progress C F × Bool) :
    (pairs.foldl noteOutcome noted).1.failures = noted.1.failures ++ pairs.filterMap failureOf := by
  induction pairs generalizing noted with
  | nil => simp
  | cons pair rest ih =>
    obtain ⟨action, outcome⟩ := pair
    rw [List.foldl_cons, ih]
    cases outcome with
    | succeeded cache => rfl
    | cancelled => rfl
    | failed error => exact List.append_assoc ..

end Schedule

end Nia.Build.Plan
