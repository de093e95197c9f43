import Mathlib

/-! The lock file of a build output, on Unix.

A lock is a file at a path that all contenders share. A contender creates the file exclusively, writes the
record of its owner into it and takes an advisory lock on its inode, which it keeps until the guard is
dropped; one that finds the file there may reclaim it, under the same advisory lock, when its owner is dead
or when it has no record and is old. Each step below is one call of the file system or one check, any
contender may go next, a process may die between two steps, and time passes as it likes. -/
namespace Nia.Build.Lock

/-- A file, whatever its name. -/
abbrev Inode := Nat

/-- A call of `ScopedFileLock::acquire_interruptible`, with the guard it returns. -/
abbrev Contender := Nat

/-- A process, by its identity: its number and its start time. -/
abbrev Process := Nat

/-- `STALE_AFTER`, in seconds. -/
def staleAfter : Nat := 15 * 60

/-- Where a contender is. The steps of `reclaim_stale_lock` carry whether it was called with no minimal age. -/
inductive Phase where
  | idle
  /-- At the top of the loop. -/
  | ready
  /-- `create_new` gave it the file. -/
  | created (file : Inode)
  /-- The owner record is written, the advisory lock not yet taken. -/
  | written (file : Inode)
  /-- `write_lock_owner` failed. -/
  | failing (file : Inode)
  /-- The guard is returned. -/
  | held (file : Inode)
  /-- The guard is being dropped. -/
  | dropping (file : Inode)
  /-- The guard read its own record at the path. -/
  | unlinking (file : Inode)
  /-- The guard's handle is about to close. -/
  | leaving (file : Inode)
  | opening (zero : Bool)
  | opened (zero : Bool) (file : Inode)
  /-- The reclaimer has the advisory lock. -/
  | checking (zero : Bool) (file : Inode)
  /-- It read a record at the path. -/
  | rechecking (zero : Bool) (file : Inode)
  /-- It read none. -/
  | aging (zero : Bool) (file : Inode)
  /-- It found the lock stale, because of a dead owner or for want of one. -/
  | removing (zero : Bool) (file : Inode) (dead : Bool)
  | releasing (zero : Bool) (file : Inode)
  /-- After the first attempt to reclaim. -/
  | waited
  /-- Before the sleep. -/
  | pausing
  | finished
  deriving DecidableEq

/-- The file system, the processes and the contenders. -/
structure State where
  /-- The file at the path. -/
  path : Option Inode
  /-- The owner record of a file, by the contender whose token it is. -/
  record : Inode → Option Contender
  modified : Inode → Nat
  /-- The holder of the advisory lock. -/
  locked : Inode → Option Contender
  /-- The next file that is created. -/
  fresh : Inode
  phase : Contender → Phase
  /-- When the contender started. -/
  since : Contender → Nat
  alive : Process → Bool
  now : Nat

/-- What may happen next. -/
inductive Event where
  /-- The contender does its next step. -/
  | go (a : Contender)
  /-- The contender finds that it is cancelled. -/
  | cancel (a : Contender)
  /-- The contender's next call fails. -/
  | fail (a : Contender)
  | die (p : Process)
  | pass (seconds : Nat)

variable (process : Contender → Process) (s : State) (a : Contender)

namespace State

def setPhase (phase : Phase) : State :=
  { s with phase := Function.update s.phase a phase }

section

variable (file : Inode) (holder : Option Contender)

def setLocked : State :=
  { s with locked := Function.update s.locked file holder }

@[simp, grind =]
theorem setLocked_locked (other : Inode) :
    (s.setLocked file holder).locked other = if other = file then holder else s.locked other :=
  Function.update_apply ..

@[simp, grind =]
theorem setLocked_path : (s.setLocked file holder).path = s.path := rfl

@[simp, grind =]
theorem setLocked_record : (s.setLocked file holder).record = s.record := rfl

@[simp, grind =]
theorem setLocked_fresh : (s.setLocked file holder).fresh = s.fresh := rfl

@[simp, grind =]
theorem setLocked_phase : (s.setLocked file holder).phase = s.phase := rfl

@[simp, grind =]
theorem setLocked_alive : (s.setLocked file holder).alive = s.alive := rfl

end

/-- `OpenOptions::create_new` at the path, or what follows when there is a file. -/
def createNew : State :=
  match s.path with
  | some _ => s.setPhase a (.opening false)
  | none =>
    { s with
      path := some s.fresh
      record := Function.update s.record s.fresh none
      modified := Function.update s.modified s.fresh s.now
      fresh := s.fresh + 1 }.setPhase a (.created s.fresh)

def writeRecord (file : Inode) : State :=
  { s with
    record := Function.update s.record file (some a)
    modified := Function.update s.modified file s.now }.setPhase a (.written file)

/-- `flock`, waiting. -/
def lockFile (file : Inode) : Option State :=
  if s.locked file = none then some ((s.setLocked file (some a)).setPhase a (.held file)) else none

/-- The record that is read at the path. -/
def owner : Option Contender := s.path.bind s.record

/-- Where a reclaimer goes on. -/
def afterReclaim (zero : Bool) : Phase := if zero then .pausing else .waited

/-- `lock_is_stale_by_age`. -/
def staleByAge (zero : Bool) : Bool :=
  zero || s.path.any fun file => staleAfter ≤ s.now - s.modified file

end State

open State

/-- The next step of a contender. -/
def go : Option State :=
  match s.phase a with
  | .idle => some ({ s with since := Function.update s.since a s.now }.setPhase a .ready)
  | .ready => some (s.createNew a)
  | .created file => some (s.writeRecord a file)
  | .written file => s.lockFile a file
  | .failing _ => some ({ s with path := none }.setPhase a .finished)
  | .held file => some (s.setPhase a (.dropping file))
  | .dropping file => some (s.setPhase a (if s.owner = some a then .unlinking file else .leaving file))
  | .unlinking file => some ({ s with path := none }.setPhase a (.leaving file))
  | .leaving file => some ((s.setLocked file none).setPhase a .finished)
  | .opening zero =>
    some (s.setPhase a (match s.path with | some file => .opened zero file | none => afterReclaim zero))
  | .opened zero file =>
    if s.locked file = none then some ((s.setLocked file (some a)).setPhase a (.checking zero file))
    else some (s.setPhase a (afterReclaim zero))
  | .checking zero file =>
    some (s.setPhase a (if s.owner.isSome then .rechecking zero file else .aging zero file))
  | .rechecking zero file =>
    some (s.setPhase a (match s.owner with
      | none => .removing zero file false
      | some b => if s.alive (process b) then .releasing zero file else .removing zero file true))
  | .aging zero file =>
    some (s.setPhase a (if s.staleByAge zero then .removing zero file false else .releasing zero file))
  | .removing zero file _ => some ({ s with path := none }.setPhase a (.releasing zero file))
  | .releasing zero file => some ((s.setLocked file none).setPhase a (afterReclaim zero))
  | .waited => some (s.setPhase a (if staleAfter ≤ s.now - s.since a then .opening true else .pausing))
  | .pausing => some (s.setPhase a .ready)
  | .finished => none

/-- The calls that may fail: creating the file, writing or locking it, and opening or locking it to reclaim. -/
def fail : Option State :=
  match s.phase a with
  | .ready => some (s.setPhase a .finished)
  | .created file | .written file => some (s.setPhase a (.failing file))
  | .opening zero | .opened zero _ => some (s.setPhase a (afterReclaim zero))
  | _ => none

/-- A step, if it can be done. -/
def next : Event → Option State
  | .go a => if s.alive (process a) then go process s a else none
  | .fail a => if s.alive (process a) then fail s a else none
  | .cancel a =>
    if s.alive (process a) && (s.phase a = .ready || s.phase a = .pausing) then some (s.setPhase a .finished)
    else none
  | .die p =>
    some { s with
      alive := Function.update s.alive p false
      locked := fun file => (s.locked file).filter fun a => process a ≠ p }
  | .pass seconds => some { s with now := s.now + seconds }

/-- A run of steps. -/
def run (s : State) : List Event → Option State
  | [] => some s
  | event :: rest => (next process s event).bind fun s => run s rest

/-- The contender has a guard that nobody has begun to drop, in a process that lives. -/
def Live : Prop := (∃ file, s.phase a = .held file) ∧ s.alive (process a) = true

/-- No contender has started; an old file may be there, and old records. -/
structure Initial : Prop where
  idle : ∀ a, s.phase a = .idle
  unlocked : ∀ file, s.locked file = none
  path_lt : ∀ file, s.path = some file → file < s.fresh
  record_lt : ∀ file a, s.record file = some a → file < s.fresh

/-- No file at the path, and every process alive. -/
def start : State where
  path := none
  record _ := none
  modified _ := 0
  locked _ := none
  fresh := 0
  phase _ := .idle
  since _ := 0
  alive _ := true
  now := 0

theorem initial_start : Initial start where
  idle _ := rfl
  unlocked _ := rfl
  path_lt _ h := by cases h
  record_lt _ _ h := by cases h

end Nia.Build.Lock
