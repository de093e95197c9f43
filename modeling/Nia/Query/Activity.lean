import Mathlib

/-! Threads that share a session, between queries and retirements.

A call of `get`, `get_many`, `map_tasks` or `run_tasks` holds an activity of the session. The first activity of a
thread waits while a retirement is admitted and is counted; those inside it are counted by the thread's own depth
only. A retirement closes the admission, waits until the count is zero, runs its body, and opens the admission
again. Inside a thread's own activity it is refused.

A call with two or more tasks submits a batch and stays on its thread until every task is settled. It runs tasks
of its own batch, and the workers of the executor take the others, on threads with no activity of their own.
What a provider, a task or a retirement body calls is open: every thread whose own code runs may make any call.
How many tasks run at once is open too. -/
namespace Nia.Query.Activity

/-- What stands on a thread's call stack. -/
inductive Frame where
  /-- A `QueryActivityGuard`. -/
  | activity
  /-- The loop of `run_tasks_inner` over a batch. -/
  | batch (id : Nat)
  /-- A task of a batch. -/
  | task (id : Nat)
  /-- The code under a `QueryRetirementGuard`. -/
  | retirement
  deriving DecidableEq, Repr

/-- The three loops that wait for `activity_ready`. -/
inductive Wait where
  /-- `enter_activity`, for the end of a retirement. -/
  | admission
  /-- `enter_retirement`, for the end of another retirement. -/
  | retiring
  /-- `enter_retirement`, for the end of every activity. -/
  | draining
  deriving DecidableEq, Repr

/-- A thread: its frames, innermost first, and its entry for the session in `QUERY_ACTIVITY_DEPTHS`. -/
structure Thread where
  worker : Bool
  frames : List Frame := []
  depth : Nat := 0
  wait : Option Wait := none
  deriving DecidableEq, Repr

structure Batch where
  queued : Nat := 0
  unsettled : Nat := 0
  deriving DecidableEq, Repr

/-- The `activity` state of a session, its threads and its batches. -/
structure Session (n : Nat) where
  active : Nat := 0
  retiring : Bool := false
  threads : Fin n → Thread
  batches : Nat → Batch := fun _ => {}
  next : Nat := 0

inductive Action (n : Nat) where
  /-- Calls `enter_activity`. -/
  | enter (i : Fin n)
  /-- The wait in `enter_activity` ends. -/
  | letIn (i : Fin n)
  /-- Drops a `QueryActivityGuard`. -/
  | leave (i : Fin n)
  /-- `submit_all`. -/
  | submit (i : Fin n) (tasks : Nat)
  /-- A worker takes a task. -/
  | take (i : Fin n) (id : Nat)
  /-- The owner of a batch takes one of its tasks. -/
  | help (i : Fin n)
  /-- A task returns and is settled. -/
  | settle (i : Fin n)
  /-- The loop of `run_tasks_inner` ends. -/
  | complete (i : Fin n)
  /-- Calls `enter_retirement`. -/
  | retire (i : Fin n)
  /-- The first wait in `enter_retirement` ends. -/
  | close (i : Fin n)
  /-- The second wait in `enter_retirement` ends. -/
  | drained (i : Fin n)
  /-- Drops a `QueryRetirementGuard`. -/
  | reopen (i : Fin n)
  deriving DecidableEq, Repr

variable {n : Nat}

/-- The thread runs code of a caller, a provider, a task or a retirement body. -/
def Thread.calls (thread : Thread) : Bool :=
  thread.wait.isNone && match thread.frames with
  | [] => !thread.worker
  | .batch _ :: _ => false
  | _ => true

def Thread.push (thread : Thread) (frame : Frame) : Thread :=
  { thread with frames := frame :: thread.frames, wait := none }

/-- `enter_query_activity`. -/
def Thread.deeper (thread : Thread) : Thread := { thread.push .activity with depth := thread.depth + 1 }

/-- The thread runs a task. -/
def Thread.InTask (thread : Thread) : Prop := ∃ id, Frame.task id ∈ thread.frames

namespace Session

def set (s : Session n) (i : Fin n) (thread : Thread) : Session n :=
  { s with threads := Function.update s.threads i thread }

def setBatch (s : Session n) (id : Nat) (batch : Batch) : Session n :=
  { s with batches := Function.update s.batches id batch }

/-- The outermost activity of a thread, admitted. -/
def admitted (s : Session n) (i : Fin n) : Session n :=
  { s.set i (s.threads i).deeper with active := s.active + 1 }

def enterActivity (s : Session n) (i : Fin n) : Session n :=
  let thread := s.threads i
  if 0 < thread.depth then s.set i thread.deeper
  else if s.retiring then s.set i { thread with wait := some .admission }
  else s.admitted i

/-- `leave_query_activity`, and the end of an outermost activity. -/
def leaveActivity (s : Session n) (i : Fin n) (rest : List Frame) : Session n :=
  let thread := s.threads i
  let left := s.set i { thread with frames := rest, depth := thread.depth - 1 }
  if thread.depth = 1 then { left with active := s.active - 1 } else left

/-- A retirement closes the admission. -/
def closed (s : Session n) (i : Fin n) : Session n :=
  { s.set i { s.threads i with wait := some .draining } with retiring := true }

/-- `enter_retirement`; inside an activity of the thread it is an error. -/
def enterRetirement (s : Session n) (i : Fin n) : Session n :=
  let thread := s.threads i
  if 0 < thread.depth then s
  else if s.retiring then s.set i { thread with wait := some .retiring }
  else s.closed i

/-- A thread starts to run a queued task. -/
def start (s : Session n) (i : Fin n) (id : Nat) : Session n :=
  let batch := s.batches id
  (s.set i ((s.threads i).push (.task id))).setBatch id { batch with queued := batch.queued - 1 }

/-- One step of one thread. -/
def step (s : Session n) : Action n → Option (Session n)
  | .enter i => if (s.threads i).calls then some (s.enterActivity i) else none
  | .letIn i =>
    if (s.threads i).wait = some .admission ∧ s.retiring = false then some (s.admitted i) else none
  | .leave i =>
    match (s.threads i).wait, (s.threads i).frames with
    | none, .activity :: rest => some (s.leaveActivity i rest)
    | _, _ => none
  | .submit i tasks =>
    match (s.threads i).wait, (s.threads i).frames with
    | none, .activity :: _ =>
      -- A single task runs where it was submitted.
      if 2 ≤ tasks then
        some { (s.set i ((s.threads i).push (.batch s.next))).setBatch s.next ⟨tasks, tasks⟩ with
          next := s.next + 1 }
      else none
    | _, _ => none
  | .take i id =>
    match (s.threads i).wait, (s.threads i).frames with
    | none, [] => if (s.threads i).worker ∧ 0 < (s.batches id).queued then some (s.start i id) else none
    | _, _ => none
  | .help i =>
    match (s.threads i).wait, (s.threads i).frames with
    | none, .batch id :: _ => if 0 < (s.batches id).queued then some (s.start i id) else none
    | _, _ => none
  | .settle i =>
    match (s.threads i).wait, (s.threads i).frames with
    | none, .task id :: rest =>
      let batch := s.batches id
      some ((s.set i { s.threads i with frames := rest }).setBatch id
        { batch with unsettled := batch.unsettled - 1 })
    | _, _ => none
  | .complete i =>
    match (s.threads i).wait, (s.threads i).frames with
    | none, .batch id :: rest =>
      if (s.batches id).unsettled = 0 then some (s.set i { s.threads i with frames := rest }) else none
    | _, _ => none
  | .retire i => if (s.threads i).calls then some (s.enterRetirement i) else none
  | .close i =>
    if (s.threads i).wait = some .retiring ∧ s.retiring = false then some (s.closed i) else none
  | .drained i =>
    if (s.threads i).wait = some .draining ∧ s.active = 0 then
      some (s.set i ((s.threads i).push .retirement)) else none
  | .reopen i =>
    match (s.threads i).wait, (s.threads i).frames with
    | none, .retirement :: rest =>
      some { s.set i { s.threads i with frames := rest } with retiring := false }
    | _, _ => none

/-- A run of steps. -/
def run (s : Session n) : List (Action n) → Option (Session n)
  | [] => some s
  | action :: actions => (s.step action).bind fun s' => s'.run actions

/-- A session nothing has been asked of, with some of the threads as the executor's workers. -/
def opened (worker : Fin n → Bool) : Session n := { threads := fun i => { worker := worker i } }

/-! ### What is claimed of a state -/

/-- While a retirement body runs, no query or task of the session does. -/
def Excluded (s : Session n) : Prop :=
  ∀ r, .retirement ∈ (s.threads r).frames →
    ∀ i, .activity ∉ (s.threads i).frames ∧ ¬(s.threads i).InTask

/-- A retirement waits for the activity of a thread whose batch waits for a task that waits for a retirement. -/
def Wedged (s : Session n) : Prop :=
  ∃ r owner task id, (s.threads r).wait = some .draining ∧ .batch id ∈ (s.threads owner).frames ∧
    .task id ∈ (s.threads task).frames ∧ (s.threads task).wait ≠ none

/-- A task on a thread with no activity of its own neither asks for a query while the admission is closed nor
retires. -/
def Admissible (s : Session n) : Action n → Prop
  | .enter i => (s.threads i).InTask → (s.threads i).depth = 0 → s.retiring = false
  | .retire i => (s.threads i).InTask → 0 < (s.threads i).depth
  | _ => True

end Session

end Nia.Query.Activity
