import Nia.Build.Schedule
import Nia.Lib.Checks

/-! One wave of actions on concurrent workers.

The workers of a wave share the lowest position at which an action failed. A worker reads it
before it starts and as often as it likes while it runs, and gives up when an action before
its own has failed; a worker whose action failed lowers it before it reports. Steps of
different workers interleave in any order. What is shared is always the position of an
action that fails (`Batch.Sound`), so the first action that fails finds nothing below it:
it is never given up, and is the first failure that the wave reports. -/
namespace Nia.Build.Plan

section Batch

variable {C F : Type}

/-! ### Workers -/

/-- Where a worker stands. An action whose execution failed is not reported before the failure is shared. -/
inductive Worker (C F : Type) where
  | waiting
  | running
  | failing (error : F)
  | finished (outcome : ActionOutcome C F)

/-- The shared position, absent while it is `usize::MAX`, and the workers by their positions. -/
structure Batch (C F : Type) where
  earliestFailure : Option Nat
  worker : Nat → Worker C F

def Batch.initial : Batch C F := ⟨none, fun _ => .waiting⟩

/-- What a worker does next. -/
inductive Move where
  /-- `execute_scheduled_action` tests for cancellation and starts. -/
  | start
  /-- A test within the execution finds the action cancelled, and the execution returns a cancellation error. -/
  | interrupt
  /-- The execution returns its own result. -/
  | complete
  /-- The failure is shared and reported. -/
  | record
  deriving DecidableEq, Repr

structure Event where
  position : Nat
  move : Move
  deriving DecidableEq, Repr

namespace Batch

def isCancelled (enabled : Bool) (position : Nat) (batch : Batch C F) : Bool :=
  enabled && batch.earliestFailure.any fun earliest => decide (earliest < position)

def cancelLaterActions (enabled : Bool) (position : Nat) (batch : Batch C F) : Batch C F :=
  if enabled then { batch with earliestFailure := some (batch.earliestFailure.elim position (min position)) } else batch

def set (batch : Batch C F) (position : Nat) (worker : Worker C F) : Batch C F :=
  { batch with worker := Function.update batch.worker position worker }

/-- One step of `execute_scheduled_action`; the results of the executions are given. -/
def step (enabled : Bool) (result : Nat → Except F (Option C)) (batch : Batch C F) (event : Event) :
    Option (Batch C F) :=
  match event.move, batch.worker event.position with
  | .start, .waiting =>
    some (batch.set event.position
      (if batch.isCancelled enabled event.position then .finished .cancelled else .running))
  | .interrupt, .running =>
    if batch.isCancelled enabled event.position then some (batch.set event.position (.finished .cancelled)) else none
  | .complete, .running =>
    match result event.position with
    | .ok cache => some (batch.set event.position (.finished (.succeeded cache)))
    | .error error => some (batch.set event.position (.failing error))
  | .record, .failing error =>
    some ((batch.cancelLaterActions enabled event.position).set event.position (.finished (.failed error)))
  | _, _ => none

/-- What the workers of a wave report, in the order of the positions. -/
def outcomes (count : Nat) (batch : Batch C F) : Option (List (ActionOutcome C F)) :=
  (List.range count).mapM fun position =>
    match batch.worker position with
    | .finished outcome => some outcome
    | _ => none

end Batch

/-- `execute_action_batch` under one interleaving of its workers. -/
def executeActionBatch (enabled : Bool) (result : Nat → Except F (Option C)) (count : Nat) (schedule : List Event) :
    Option (List (ActionOutcome C F)) := do
  let batch ← schedule.foldlM (Batch.step enabled result) Batch.initial
  batch.outcomes count

/-! ### What the workers share -/

namespace Batch

variable {result : Nat → Except F (Option C)} {enabled : Bool} {batch batch' : Batch C F}

@[simp] theorem set_earliestFailure (batch : Batch C F) (position : Nat) (worker : Worker C F) :
    (batch.set position worker).earliestFailure = batch.earliestFailure := rfl

@[simp] theorem set_worker_self (batch : Batch C F) (position : Nat) (worker : Worker C F) :
    (batch.set position worker).worker position = worker := Function.update_self ..

variable {position other : Nat}

theorem set_worker_of_ne (batch : Batch C F) (worker : Worker C F) (h : other ≠ position) :
    (batch.set position worker).worker other = batch.worker other := Function.update_of_ne h ..

/-- The action at a position has failed and is reported so. -/
def FailedAt (batch : Batch C F) (position : Nat) : Prop :=
  ∃ error, batch.worker position = .finished (.failed error)

/-- What a worker's state says about the result of its action. -/
def Agrees (result : Nat → Except F (Option C)) (batch : Batch C F) (position : Nat) : Worker C F → Prop
  | .waiting | .running => True
  | .failing error | .finished (.failed error) => result position = .error error
  | .finished (.succeeded cache) => result position = .ok cache
  | .finished .cancelled => ∃ earlier < position, batch.FailedAt earlier

/-- What is shared is the position of a reported failure. -/
structure Sound (result : Nat → Except F (Option C)) (batch : Batch C F) : Prop where
  shared : ∀ earliest, batch.earliestFailure = some earliest → batch.FailedAt earliest
  agrees : ∀ position, Agrees result batch position (batch.worker position)

/-- The step of a worker that has not finished, by what it did. -/
inductive Stepped (enabled : Bool) (result : Nat → Except F (Option C)) (batch : Batch C F) (position : Nat) :
    Batch C F → Prop where
  | runs : Stepped enabled result batch position (batch.set position .running)
  | givesUp (hcancelled : batch.isCancelled enabled position = true) :
    Stepped enabled result batch position (batch.set position (.finished .cancelled))
  | succeeds {cache : Option C} (hresult : result position = .ok cache) :
    Stepped enabled result batch position (batch.set position (.finished (.succeeded cache)))
  | fails {error : F} (hresult : result position = .error error) :
    Stepped enabled result batch position (batch.set position (.failing error))
  | records {error : F} (hworker : batch.worker position = .failing error) :
    Stepped enabled result batch position
      ((batch.cancelLaterActions enabled position).set position (.finished (.failed error)))

theorem stepped_of_step {event : Event} (h : batch.step enabled result event = some batch') :
    (∀ outcome, batch.worker event.position ≠ .finished outcome) ∧
      Stepped enabled result batch event.position batch' := by
  obtain ⟨position, move⟩ := event
  unfold step at h
  dsimp only at h ⊢
  cases hworker : batch.worker position with
  | waiting =>
    refine ⟨fun _ => nofun, ?_⟩
    cases move <;> simp only [hworker, Option.some.injEq, reduceCtorEq] at h
    subst h
    split
    · next hcancelled => exact .givesUp hcancelled
    · exact .runs
  | running =>
    refine ⟨fun _ => nofun, ?_⟩
    cases move <;> simp only [hworker, reduceCtorEq] at h
    · split_ifs at h with hcancelled
      obtain rfl := Option.some.inj h
      exact .givesUp hcancelled
    · cases hresult : result position with
      | ok cache =>
        simp only [hresult, Option.some.injEq] at h
        exact h ▸ .succeeds hresult
      | error error =>
        simp only [hresult, Option.some.injEq] at h
        exact h ▸ .fails hresult
  | failing error =>
    refine ⟨fun _ => nofun, ?_⟩
    cases move <;> simp only [hworker, Option.some.injEq, reduceCtorEq] at h
    exact h ▸ .records hworker
  | finished outcome => cases move <;> simp [hworker] at h

/-- A reported failure stays one while others move. -/
theorem FailedAt.set {worker : Worker C F} (h : batch.FailedAt other)
    (hopen : ∀ outcome, batch.worker position ≠ .finished outcome) : (batch.set position worker).FailedAt other := by
  obtain ⟨error, herror⟩ := h
  refine ⟨error, ?_⟩
  rw [set_worker_of_ne, herror]
  rintro rfl
  exact hopen _ herror

theorem Agrees.set {worker : Worker C F} {state : Worker C F}
    (h : Agrees result batch other state) (hopen : ∀ outcome, batch.worker position ≠ .finished outcome) :
    Agrees result (batch.set position worker) other state := by
  match state, h with
  | .waiting, _ | .running, _ => trivial
  | .failing _, h | .finished (.failed _), h | .finished (.succeeded _), h => exact h
  | .finished .cancelled, ⟨earlier, hlt, hfailed⟩ => exact ⟨earlier, hlt, hfailed.set hopen⟩

theorem Sound.set {worker : Worker C F} (h : Sound result batch)
    (hopen : ∀ outcome, batch.worker position ≠ .finished outcome) (hworker : Agrees result batch position worker) :
    Sound result (batch.set position worker) where
  shared earliest hearliest := (h.shared earliest hearliest).set hopen
  agrees other := by
    by_cases hother : other = position
    · subst hother
      rw [set_worker_self]
      exact hworker.set hopen
    · rw [set_worker_of_ne _ _ hother]
      exact (h.agrees other).set hopen

/-- An action that is cancelled comes after one that has failed. -/
theorem Sound.failedAt_of_isCancelled (h : Sound result batch)
    (hcancelled : batch.isCancelled enabled position = true) : ∃ earlier < position, batch.FailedAt earlier := by
  unfold isCancelled at hcancelled
  simp only [Bool.and_eq_true, Option.any_eq_true, decide_eq_true_eq] at hcancelled
  obtain ⟨-, earliest, hearliest, hlt⟩ := hcancelled
  exact ⟨earliest, hlt, h.shared earliest hearliest⟩

/-- A failure that is shared is reported, as those were that it is compared with. -/
theorem Sound.record {error : F} (h : Sound result batch) (hworker : batch.worker position = .failing error) :
    Sound result ((batch.cancelLaterActions enabled position).set position (.finished (.failed error))) := by
  have hopen : ∀ outcome, batch.worker position ≠ .finished outcome := by
    intro outcome hfinished
    rw [hworker] at hfinished
    cases hfinished
  have hagrees := h.agrees position
  rw [hworker] at hagrees
  have hset : Sound result (batch.set position (.finished (.failed error))) := h.set hopen hagrees
  cases enabled with
  | false => exact hset
  | true =>
    refine ⟨fun earliest hearliest => ?_, hset.agrees⟩
    have hself : (batch.set position (.finished (.failed error))).FailedAt position := ⟨error, by simp⟩
    cases hbefore : batch.earliestFailure with
    | none =>
      obtain rfl : position = earliest := by simpa [cancelLaterActions, hbefore] using hearliest
      exact hself
    | some before =>
      obtain rfl : min position before = earliest := by simpa [cancelLaterActions, hbefore] using hearliest
      rcases min_choice position before with hmin | hmin <;> rw [hmin]
      · exact hself
      · exact hset.shared before hbefore

theorem Sound.step {event : Event} (h : Sound result batch) (hstep : batch.step enabled result event = some batch') :
    Sound result batch' := by
  obtain ⟨hopen, hstepped⟩ := stepped_of_step hstep
  cases hstepped with
  | runs => exact h.set hopen trivial
  | givesUp hcancelled => exact h.set hopen (h.failedAt_of_isCancelled hcancelled)
  | succeeds hresult => exact h.set hopen hresult
  | fails hresult => exact h.set hopen hresult
  | records hworker => exact h.record hworker

theorem sound_initial : Sound result (initial : Batch C F) := ⟨nofun, fun _ => trivial⟩

/-- Whatever the interleaving, what is shared is sound. -/
theorem Sound.run {schedule : List Event} (h : Sound result batch)
    (hrun : schedule.foldlM (Batch.step enabled result) batch = some batch') : Sound result batch' := by
  induction schedule generalizing batch with
  | nil => exact Option.some.inj hrun ▸ h
  | cons event rest ih =>
    rw [List.foldlM_cons] at hrun
    obtain ⟨middle, hstep, hrest⟩ := Option.bind_eq_some_iff.mp hrun
    exact ih (h.step hstep) hrest

end Batch

/-! ### What a wave reports -/

variable {count : Nat} {outcomes : List (ActionOutcome C F)}

/-- Once every worker has finished, the report holds what each of them returned. -/
theorem Batch.outcomes_eq_some {batch : Batch C F} (h : batch.outcomes count = some outcomes) :
    outcomes.length = count ∧
      ∀ position outcome, outcomes[position]? = some outcome → batch.worker position = .finished outcome := by
  induction count generalizing outcomes with
  | zero =>
    obtain rfl : [] = outcomes := by simpa [Batch.outcomes] using h
    simp
  | succ count ih =>
    unfold Batch.outcomes at h
    rw [List.range_succ, List.mapM_append] at h
    obtain ⟨before, hbefore, h⟩ := Option.bind_eq_some_iff.mp h
    obtain ⟨hlength, hworkers⟩ := ih hbefore
    cases hworker : batch.worker count with
    | finished last =>
      obtain rfl : before ++ [last] = outcomes := by simpa [hworker] using h
      refine ⟨by simp [hlength], fun position outcome houtcome => ?_⟩
      rcases Nat.lt_trichotomy position count with hlt | rfl | hgt
      · rw [List.getElem?_append_left (by omega)] at houtcome
        exact hworkers position outcome houtcome
      · rw [← hlength, List.getElem?_concat_length, Option.some.injEq] at houtcome
        rw [hworker, houtcome]
      · rw [List.getElem?_eq_none (by simp; omega)] at houtcome
        cases houtcome
    | waiting | running | failing _ => simp [hworker] at h

/-- What one wave reports: each action ends with its own result or is cancelled, and then comes after a failure. -/
structure Reported (result : Nat → Except F (Option C)) (count : Nat) (outcomes : List (ActionOutcome C F)) : Prop where
  length : outcomes.length = count
  succeeded : ∀ (i : Nat) cache, outcomes[i]? = some (.succeeded cache) → result i = .ok cache
  failed : ∀ (i : Nat) error, outcomes[i]? = some (.failed error) → result i = .error error
  cancelled : ∀ i : Nat, outcomes[i]? = some .cancelled → ∃ j < i, ∃ error, outcomes[j]? = some (.failed error)

variable {result : Nat → Except F (Option C)}

theorem reported_of_executeActionBatch {enabled : Bool} {schedule : List Event}
    (h : executeActionBatch enabled result count schedule = some outcomes) : Reported result count outcomes := by
  obtain ⟨batch, hrun, houtcomes⟩ := Option.bind_eq_some_iff.mp h
  have hsound := Batch.sound_initial.run hrun
  obtain ⟨hlength, hworkers⟩ := Batch.outcomes_eq_some houtcomes
  have hagrees : ∀ i outcome, outcomes[i]? = some outcome → batch.Agrees result i (.finished outcome) := by
    intro i outcome hi
    rw [← hworkers i outcome hi]
    exact hsound.agrees i
  refine ⟨hlength, fun i cache => hagrees i _, fun i error => hagrees i _, fun i hi => ?_⟩
  obtain ⟨j, hlt, error, hj⟩ := hagrees i _ hi
  have hi' := (List.getElem?_eq_some_iff.mp hi).1
  obtain ⟨outcome, houtcome⟩ : ∃ outcome, outcomes[j]? = some outcome :=
    ⟨_, List.getElem?_eq_getElem (hlt.trans hi')⟩
  refine ⟨j, hlt, error, ?_⟩
  obtain rfl := Worker.finished.inj ((hworkers j outcome houtcome).symm.trans hj)
  exact houtcome

/-- Before the first result that is an error, every action succeeds. -/
theorem Reported.succeeded_before (h : Reported result count outcomes) {i : Nat}
    (hbefore : ∀ j < i, ∃ cache, result j = .ok cache) {j : Nat} (hj : j < i) {outcome : ActionOutcome C F}
    (houtcome : outcomes[j]? = some outcome) : ∃ cache, outcome = .succeeded cache := by
  cases outcome with
  | succeeded cache => exact ⟨cache, rfl⟩
  | failed error =>
    obtain ⟨cache, hcache⟩ := hbefore j hj
    cases hcache.symm.trans (h.failed j error houtcome)
  | cancelled =>
    obtain ⟨k, hk, error, herror⟩ := h.cancelled j houtcome
    obtain ⟨cache, hcache⟩ := hbefore k (hk.trans hj)
    cases hcache.symm.trans (h.failed k error herror)

/-- The first result that is an error is reported as a failure. -/
theorem Reported.failed_first (h : Reported result count outcomes) {i : Nat} (hi : i < count)
    (hbefore : ∀ j < i, ∃ cache, result j = .ok cache) {error : F} (herror : result i = .error error) :
    outcomes[i]? = some (.failed error) := by
  have hlt : i < outcomes.length := h.length ▸ hi
  have hget := List.getElem?_eq_getElem hlt
  cases houtcome : outcomes[i] with
  | succeeded cache => cases herror.symm.trans (h.succeeded i cache (houtcome ▸ hget))
  | failed other =>
    have hother := h.failed i other (houtcome ▸ hget)
    obtain rfl : error = other := Except.error.inj (herror.symm.trans hother)
    exact houtcome ▸ hget
  | cancelled =>
    obtain ⟨j, hj, other, hother⟩ := h.cancelled i (houtcome ▸ hget)
    obtain ⟨cache, hcache⟩ := hbefore j hj
    cases hcache.symm.trans (h.failed j other hother)

/-- The failures of a wave begin with that of the first action that fails. -/
theorem Reported.failures_eq {actions : List PlanAction} (h : Reported result actions.length outcomes) {i : Nat}
    {action : PlanAction} (haction : actions[i]? = some action)
    (hbefore : ∀ j < i, ∃ cache, result j = .ok cache) {error : F} (herror : result i = .error error) :
    ∃ rest, (actions.zip outcomes).filterMap failureOf =
      ⟨action.key, action.kind matches .testExecutable, error⟩ :: rest := by
  obtain ⟨hi, -⟩ := List.getElem?_eq_some_iff.mp haction
  have hfailed := h.failed_first hi hbefore herror
  have hpair : (actions.zip outcomes)[i]? = some (action, .failed error) := by
    rw [List.getElem?_zip_eq_some]
    exact ⟨haction, hfailed⟩
  obtain ⟨hlt, hget⟩ := List.getElem?_eq_some_iff.mp hpair
  have hsplit : (actions.zip outcomes).filterMap failureOf = ((actions.zip outcomes).take i).filterMap failureOf ++
      ((action, .failed error) :: (actions.zip outcomes).drop (i + 1)).filterMap failureOf := by
    rw [← hget, ← List.drop_eq_getElem_cons hlt, ← List.filterMap_append, List.take_append_drop]
  have hnone : ((actions.zip outcomes).take i).filterMap failureOf = [] := by
    rw [List.filterMap_eq_nil_iff]
    intro pair hpair
    obtain ⟨j, hj, rfl⟩ := List.mem_iff_getElem.mp hpair
    rw [List.length_take] at hj
    have hj' : j < outcomes.length := by
      rw [List.length_zip] at hj
      omega
    obtain ⟨cache, hcache⟩ := h.succeeded_before hbefore (by omega) (List.getElem?_eq_getElem hj')
    simp [failureOf, hcache]
  rw [hsplit, hnone]
  exact ⟨_, rfl⟩

variable {E : Type} {plan : BuildPlan} {dependents : Nat → List Nat} {wave : List (PlanStep × Nat)}
  {progress progress' : Progress C F}

theorem failures_of_finishSteps (h : finishSteps (E := E) plan dependents wave progress = .ok progress') :
    progress'.failures = progress.failures := by
  induction wave generalizing progress with
  | nil =>
    cases h
    rfl
  | cons entry rest ih =>
    rw [finishSteps] at h
    split_ifs at h with hfailed
    · exact ih h
    · obtain ⟨⟨indegree, ready⟩, -, h⟩ := Lib.Checks.bind_eq_ok.mp h
      have hrest := ih h
      exact hrest

/-- Without `keep_going`, the loop goes on only after waves without a failure. -/
theorem failures_eq_nil_of_afterBatch {actions : List PlanAction}
    (h : afterBatch (E := E) plan false dependents wave actions outcomes progress = .ok progress') :
    progress'.failures = [] := by
  unfold afterBatch at h
  split_ifs at h with hlength
  generalize (actions.zip outcomes).foldl noteOutcome (progress, false) = noted at h
  obtain ⟨after, cancelled⟩ := noted
  dsimp only at h
  split_ifs at h with hstop
  rw [failures_of_finishSteps h]
  simpa using (not_or.mp (mt (Bool.or_eq_true _ _).mpr hstop)).2

/-- **Whatever the interleaving of a wave's workers, the first action that fails is not cancelled and is the first
failure reported, and an action is cancelled only after one that failed.** The failures of a wave follow those
before it, and there are none: the loop goes on only after a wave without a failure. -/
theorem firstFailure_deterministic (result : Nat → Except F (Option C)) (actions : List PlanAction)
    {schedule : List Event} {outcomes : List (ActionOutcome C F)}
    (h : executeActionBatch true result actions.length schedule = some outcomes) :
    (∀ i : Nat, outcomes[i]? = some .cancelled → ∃ j < i, ∃ error, outcomes[j]? = some (.failed error)) ∧
    (∀ i action error, actions[i]? = some action → result i = .error error →
      (∀ j < i, ∃ cache, result j = .ok cache) →
      outcomes[i]? = some (.failed error) ∧
      ∀ (E : Type) (plan : BuildPlan) (dependents : Nat → List Nat) (wave : List (PlanStep × Nat))
        (progress : Progress C F), ∃ rest,
        afterBatch (E := E) plan false dependents wave actions outcomes progress =
          .error (.fromFailures (progress.failures ++
            ⟨action.key, action.kind matches .testExecutable, error⟩ :: rest))) ∧
    ∀ (E : Type) (plan : BuildPlan) (dependents : Nat → List Nat) (wave : List (PlanStep × Nat))
      (progress progress' : Progress C F),
      afterBatch (E := E) plan false dependents wave actions outcomes progress = .ok progress' →
        progress'.failures = [] := by
  have hreported := reported_of_executeActionBatch h
  refine ⟨hreported.cancelled, fun i action error haction herror hbefore => ?_,
    fun E plan dependents wave progress progress' hgoes => failures_eq_nil_of_afterBatch hgoes⟩
  obtain ⟨hi, -⟩ := List.getElem?_eq_some_iff.mp haction
  refine ⟨hreported.failed_first hi hbefore herror, fun E plan dependents wave progress => ?_⟩
  obtain ⟨rest, hrest⟩ := hreported.failures_eq haction hbefore herror
  refine ⟨rest, ?_⟩
  have hfailures := failures_noteOutcomes (actions.zip outcomes) (progress, false)
  rw [hrest] at hfailures
  unfold afterBatch
  rw [if_neg (not_not_intro hreported.length)]
  generalize (actions.zip outcomes).foldl noteOutcome (progress, false) = noted at hfailures ⊢
  obtain ⟨after, cancelled⟩ := noted
  dsimp only at hfailures ⊢
  simp [hfailures]

/-- Three actions of which two fail; the second of them is done first, and the third never starts. -/
theorem firstFailure_three :
    executeActionBatch true (fun i => if i = 2 then .ok none else .error i : Nat → Except Nat (Option Unit)) 3
        [⟨0, .start⟩, ⟨1, .start⟩, ⟨1, .complete⟩, ⟨1, .record⟩, ⟨2, .start⟩, ⟨0, .complete⟩, ⟨0, .record⟩] =
      some [.failed 0, .failed 1, .cancelled] ∧
    ∃ j < 2, ∃ error, [ActionOutcome.failed 0, .failed 1, (.cancelled : ActionOutcome Unit Nat)][j]? =
      some (.failed error) := by
  have hrun : executeActionBatch true
      (fun i => if i = 2 then .ok none else .error i : Nat → Except Nat (Option Unit)) 3
        [⟨0, .start⟩, ⟨1, .start⟩, ⟨1, .complete⟩, ⟨1, .record⟩, ⟨2, .start⟩, ⟨0, .complete⟩, ⟨0, .record⟩] =
      some [.failed 0, .failed 1, .cancelled] := rfl
  let action : PlanAction := ⟨⟨"root", "action"⟩, .aggregate⟩
  exact ⟨hrun, (firstFailure_deterministic _ [action, action, action] hrun).1 2 rfl⟩

end Batch

end Nia.Build.Plan
