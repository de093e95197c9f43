import Nia.Query.Activity
import Nia.Lib.Tally

/-! Retirements exclude queries; they wedge exactly where a task without an activity meets one.

The count of activities is the number of threads with one, and the admission is closed for exactly one thread,
which drains or runs its body (`Inv`). So a body runs when no thread has an activity, and since the owner of a
batch keeps its activity until the batch is settled, when no task runs either.

A batch holds back a retirement through its owner. The owner's thread never waits for the admission, but a
worker's does: a task there that asks for a query while the admission is closed, or that retires, is waited for by
the owner, whom the retirement waits for (`wedged_of_not_admissible`). No other step of a task waits, so a run
whose steps all avoid this is never wedged. -/
namespace Nia.Query.Activity

open Nia.Lib.Tally List Option Function

variable {n : Nat}

/-! ### The shares of a thread -/

/-- A batch is submitted inside an activity. -/
def Nested : List Frame → Prop
  | [] => True
  | .batch _ :: rest => .activity ∈ rest.head? ∧ Nested rest
  | _ :: rest => Nested rest

theorem Nested.activity_mem {frames : List Frame} (h : Nested frames) {id : Nat} (hid : .batch id ∈ frames) :
    .activity ∈ frames := by
  induction frames with
  | nil => exact absurd hid not_mem_nil
  | cons frame rest ih =>
    cases frame with
    | batch other => exact mem_cons_of_mem _ (mem_of_mem_head? h.1)
    | activity => exact mem_cons_self
    | task other | retirement =>
      exact mem_cons_of_mem _ (ih h ((mem_cons.mp hid).resolve_left nofun))

namespace Thread

/-- What a thread is alone. -/
structure Ok (thread : Thread) : Prop where
  depth : thread.depth = thread.frames.count .activity
  waiting : thread.wait ≠ none → thread.depth = 0
  nested : Nested thread.frames

/-- One for a thread with an activity. -/
def busy (thread : Thread) : Nat := if 0 < thread.depth then 1 else 0

/-- The retirement bodies on a thread. -/
def bodies (thread : Thread) : Nat := thread.frames.count .retirement

/-- One for a thread that keeps the admission closed. -/
def closes (thread : Thread) : Nat := thread.bodies + if thread.wait = some .draining then 1 else 0

/-- The tasks of a batch on a thread. -/
def running (id : Nat) (thread : Thread) : Nat := thread.frames.count (.task id)

theorem Ok.nested_tail {thread : Thread} (h : thread.Ok) {frame : Frame} {rest : List Frame}
    (hframes : thread.frames = frame :: rest) : Nested rest := by
  have hnested := h.nested
  rw [hframes] at hnested
  cases frame with
  | batch id => exact hnested.2
  | activity | task id | retirement => exact hnested

/-- A frame that is no activity is popped. -/
theorem Ok.pop {thread : Thread} (h : thread.Ok) {frame : Frame} {rest : List Frame}
    (hframes : thread.frames = frame :: rest) (hframe : frame ≠ .activity) :
    Ok { thread with frames := rest } where
  depth := by rw [h.depth, hframes, count_cons_of_ne hframe]
  waiting := h.waiting
  nested := h.nested_tail hframes

theorem busy_pos {thread : Thread} : 0 < thread.busy ↔ 0 < thread.depth := by
  unfold busy
  split <;> omega

end Thread

/-! ### The invariant -/

structure Inv (s : Session n) : Prop where
  ok : ∀ i, (s.threads i).Ok
  active : s.active = tally Thread.busy s.threads
  closed : s.retiring.toNat = tally Thread.closes s.threads
  quiet : 0 < tally Thread.bodies s.threads → s.active = 0
  tasks : ∀ id, (s.batches id).unsettled = (s.batches id).queued + tally (Thread.running id) s.threads
  owned : ∀ id, 0 < (s.batches id).unsettled → ∃ i, .batch id ∈ (s.threads i).frames
  fresh : ∀ id, s.next ≤ id → s.batches id = {}

/-- One thread changes, and what it counted for changes with it. -/
theorem Inv.moved {s s' : Session n} (h : Inv s) (i : Fin n) (thread : Thread)
    (hthreads : s'.threads = Function.update s.threads i thread) (hok : thread.Ok)
    (hactive : s'.active + (s.threads i).busy = s.active + thread.busy)
    (hclosed : s'.retiring.toNat + (s.threads i).closes = s.retiring.toNat + thread.closes)
    (hquiet : (thread.bodies ≤ (s.threads i).bodies ∧ (s'.active ≤ s.active ∨ s.retiring = false)) ∨
      s'.active = 0)
    (htasks : ∀ id, (s'.batches id).unsettled + (s.batches id).queued + (s.threads i).running id =
      (s.batches id).unsettled + (s'.batches id).queued + thread.running id)
    (howned : ∀ id, 0 < (s'.batches id).unsettled → .batch id ∈ thread.frames ∨
      (0 < (s.batches id).unsettled ∧ (.batch id ∈ (s.threads i).frames → .batch id ∈ thread.frames)))
    (hfresh : ∀ id, s'.next ≤ id → s'.batches id = {}) : Inv s' := by
  have hshare : ∀ share : Thread → Nat,
      tally share s'.threads + share (s.threads i) = tally share s.threads + share thread := by
    intro share
    rw [hthreads]
    exact tally_update share s.threads i thread
  refine ⟨fun j => ?_, ?_, ?_, fun hbodies => ?_, fun id => ?_, fun id hid => ?_, hfresh⟩
  · rw [hthreads]
    by_cases hj : j = i
    · rw [hj, update_self]
      exact hok
    · rw [update_of_ne hj]
      exact h.ok j
  · have := hshare Thread.busy
    have := h.active
    omega
  · have := hshare Thread.closes
    have := h.closed
    omega
  · obtain ⟨hless, hactive' | hopen⟩ | hnone := hquiet
    · have := hshare Thread.bodies
      have := h.quiet (by omega)
      omega
    · -- With the admission open no body runs.
      have hle : tally Thread.bodies s.threads ≤ tally Thread.closes s.threads :=
        Finset.sum_le_sum fun j _ => Nat.le_add_right _ _
      have hzero := h.closed
      have := hshare Thread.bodies
      rw [hopen, Bool.toNat_false] at hzero
      omega
    · exact hnone
  · have := hshare (Thread.running id)
    have := h.tasks id
    have := htasks id
    omega
  · have hself : .batch id ∈ thread.frames → ∃ j, .batch id ∈ (s'.threads j).frames := fun hmine =>
      ⟨i, by rw [hthreads, update_self]; exact hmine⟩
    obtain hmine | ⟨hbefore, hkept⟩ := howned id hid
    · exact hself hmine
    · obtain ⟨j, hj⟩ := h.owned id hbefore
      by_cases hne : j = i
      · exact hself (hkept (hne ▸ hj))
      · exact ⟨j, by rw [hthreads, update_of_ne hne]; exact hj⟩

/-- One thread changes in its activities and retirements only. -/
theorem Inv.called {s s' : Session n} (h : Inv s) (i : Fin n) (thread : Thread)
    (hthreads : s'.threads = Function.update s.threads i thread) (hbatches : s'.batches = s.batches)
    (hnext : s'.next = s.next) (hok : thread.Ok)
    (hactive : s'.active + (s.threads i).busy = s.active + thread.busy)
    (hclosed : s'.retiring.toNat + (s.threads i).closes = s.retiring.toNat + thread.closes)
    (hquiet : (thread.bodies ≤ (s.threads i).bodies ∧ (s'.active ≤ s.active ∨ s.retiring = false)) ∨
      s'.active = 0)
    (htasks : ∀ id, (s.threads i).running id = thread.running id)
    (howned : ∀ id, .batch id ∈ (s.threads i).frames → .batch id ∈ thread.frames) : Inv s' := by
  refine h.moved i thread hthreads hok hactive hclosed hquiet (fun id => ?_) (fun id hid => Or.inr ?_) fun id hid => ?_
  · rw [hbatches, htasks id]
  · exact ⟨hbatches ▸ hid, howned id⟩
  · rw [hbatches]
    exact h.fresh id (hnext ▸ hid)

namespace Session

theorem inv_opened (worker : Fin n → Bool) : Inv (opened worker) := by
  have hzero : ∀ share : Thread → Nat, (∀ b, share { worker := b } = 0) →
      tally share (opened worker).threads = 0 := fun share hshare => tally_const fun i => hshare (worker i)
  refine ⟨fun i => ⟨rfl, fun h => absurd rfl h, trivial⟩, ?_, ?_, ?_, fun id => ?_, fun id h => ?_, fun _ _ => rfl⟩
  · exact (hzero _ fun _ => rfl).symm
  · exact (hzero _ fun _ => rfl).symm
  · intro _
    rfl
  · exact (Nat.zero_add _).symm ▸ (hzero _ fun _ => rfl).symm
  · exact absurd h (Nat.lt_irrefl 0)

/-- A thread whose own code runs does not wait. -/
theorem wait_of_calls {thread : Thread} (h : thread.calls = true) : thread.wait = none := by
  unfold Thread.calls at h
  rw [Bool.and_eq_true, isNone_iff_eq_none] at h
  exact h.1

section

variable {s s' : Session n} (h : Inv s) {i : Fin n} {id : Nat} {rest : List Frame}
include h

/-- An activity is pushed on a thread that does not close the admission. -/
theorem inv_deeper (hwait : (s.threads i).wait ≠ some .draining)
    (hthreads : s'.threads = Function.update s.threads i (s.threads i).deeper) (hbatches : s'.batches = s.batches)
    (hnext : s'.next = s.next) (hretiring : s'.retiring = s.retiring)
    (hactive : s'.active + (s.threads i).busy = s.active + 1)
    (hopen : s'.active ≤ s.active ∨ s.retiring = false) : Inv s' := by
  have hok := h.ok i
  refine h.called i _ hthreads hbatches hnext ⟨?_, fun hne => absurd rfl hne, hok.nested⟩ ?_ ?_
    (Or.inl ⟨?_, hopen⟩) (fun id => ?_) fun id hid => mem_cons_of_mem _ hid
  · show (s.threads i).depth + 1 = List.count _ (_ :: _)
    rw [count_cons_self, hok.depth]
  · rw [hactive]
    simp [Thread.busy, Thread.deeper]
  · rw [hretiring]
    simp [Thread.closes, Thread.bodies, Thread.deeper, Thread.push, hwait]
  · simp [Thread.bodies, Thread.deeper, Thread.push]
  · simp [Thread.running, Thread.deeper, Thread.push]

theorem inv_admitted (hdepth : (s.threads i).depth = 0)
    (hwait : (s.threads i).wait ≠ some .draining) (hopen : s.retiring = false) : Inv (s.admitted i) :=
  inv_deeper h hwait rfl rfl rfl rfl (by simp [admitted, Thread.busy, hdepth]) (Or.inr hopen)

/-- A thread with no activity starts to wait, and may close the admission. -/
theorem inv_waits {wait : Wait} (hdepth : (s.threads i).depth = 0) (hwait : (s.threads i).wait ≠ some .draining)
    (hthreads : s'.threads = Function.update s.threads i { s.threads i with wait := some wait })
    (hbatches : s'.batches = s.batches) (hnext : s'.next = s.next) (hactive : s'.active = s.active)
    (hretiring : s'.retiring.toNat = s.retiring.toNat + if wait = .draining then 1 else 0) : Inv s' := by
  have hok := h.ok i
  refine h.called i _ hthreads hbatches hnext ⟨hok.depth, fun _ => hdepth, hok.nested⟩ ?_ ?_
    (Or.inl ⟨le_refl _, Or.inl hactive.le⟩) (fun id => rfl) fun id hid => hid
  · rw [hactive]
    rfl
  · rw [hretiring]
    simp only [Thread.closes, Thread.bodies, hwait, if_false, Option.some.injEq]
    omega

theorem inv_closed (hdepth : (s.threads i).depth = 0)
    (hwait : (s.threads i).wait ≠ some .draining) (hopen : s.retiring = false) : Inv (s.closed i) :=
  inv_waits h hdepth hwait rfl rfl rfl rfl (by simp [closed, hopen])

theorem inv_enterActivity (hcalls : (s.threads i).calls = true) : Inv (s.enterActivity i) := by
  have hwait : (s.threads i).wait ≠ some .draining := by simp [wait_of_calls hcalls]
  simp only [enterActivity]
  split_ifs with hdepth hretiring
  · exact inv_deeper h hwait rfl rfl rfl rfl (by simp [set, Thread.busy, hdepth]) (Or.inl (le_refl _))
  · exact inv_waits h (by omega) hwait rfl rfl rfl rfl rfl
  · exact inv_admitted h (by omega) hwait (Bool.eq_false_iff.mpr hretiring)

theorem inv_enterRetirement (hcalls : (s.threads i).calls = true) : Inv (s.enterRetirement i) := by
  have hwait : (s.threads i).wait ≠ some .draining := by simp [wait_of_calls hcalls]
  simp only [enterRetirement]
  split_ifs with hdepth hretiring
  · exact h
  · exact inv_waits h (by omega) hwait rfl rfl rfl rfl rfl
  · exact inv_closed h (by omega) hwait (Bool.eq_false_iff.mpr hretiring)

theorem inv_leaveActivity (hwait : (s.threads i).wait = none) (hframes : (s.threads i).frames = .activity :: rest) :
    Inv (s.leaveActivity i rest) := by
  have hok := h.ok i
  have hdepth : (s.threads i).depth = rest.count .activity + 1 := by
    rw [hok.depth, hframes, count_cons_self]
  have hleft : ∀ {s' : Session n},
      s'.threads = Function.update s.threads i { s.threads i with frames := rest, depth := rest.count .activity } →
      s'.batches = s.batches → s'.next = s.next → s'.retiring = s.retiring →
      s'.active + 1 = s.active + (if 0 < rest.count .activity then 1 else 0) → Inv s' := by
    intro s' hthreads hbatches hnext hretiring hactive
    refine h.called i _ hthreads hbatches hnext ⟨rfl, fun hne => absurd hwait hne, hok.nested_tail hframes⟩ ?_ ?_
      (Or.inl ⟨?_, Or.inl ?_⟩) (fun id => ?_) fun id hid => ?_
    · simp only [Thread.busy, hdepth, Nat.succ_pos, if_true, hactive]
    · simp [Thread.closes, Thread.bodies, hframes, hretiring]
    · simp [Thread.bodies, hframes]
    · split at hactive <;> omega
    · simp [Thread.running, hframes]
    · rw [hframes] at hid
      exact (mem_cons.mp hid).resolve_left nofun
  have hactive : 0 < s.active := by
    rw [h.active]
    refine Nat.lt_of_lt_of_le ?_ (le_tally Thread.busy s.threads i)
    exact Thread.busy_pos.mpr (by omega)
  simp only [leaveActivity]
  split_ifs with hone
  · refine hleft ?_ rfl rfl rfl ?_
    · simp only [set, hdepth, Nat.add_sub_cancel]
    · rw [if_neg (by omega)]
      show s.active - 1 + 1 = s.active + 0
      omega
  · refine hleft ?_ rfl rfl rfl ?_
    · simp only [set, hdepth, Nat.add_sub_cancel]
    · rw [if_pos (by omega)]
      rfl

/-- A batch is submitted under a fresh id. -/
theorem inv_submit {tasks : Nat} (hwait : (s.threads i).wait = none)
    (hframes : (s.threads i).frames = .activity :: rest) :
    Inv { (s.set i ((s.threads i).push (.batch s.next))).setBatch s.next ⟨tasks, tasks⟩ with
      next := s.next + 1 } := by
  have hok := h.ok i
  refine h.moved i ((s.threads i).push (.batch s.next)) rfl
    ⟨?_, fun hne => absurd rfl hne, ?_, hok.nested⟩ rfl ?_ (Or.inl ⟨?_, Or.inl (le_refl _)⟩)
    (fun id => ?_) (fun id hid => ?_) fun id hid => ?_
  · simp [Thread.push, hok.depth]
  · rw [hframes]
    exact rfl
  · simp [Thread.closes, Thread.bodies, Thread.push, hwait, set, setBatch]
  · simp [Thread.bodies, Thread.push]
  · by_cases hnew : id = s.next
    · simp only [hnew, setBatch, set, update_self, h.fresh s.next (le_refl _), Thread.running, Thread.push,
        count_cons_of_ne (by nofun : Frame.batch s.next ≠ .task s.next)]
      omega
    · simp only [setBatch, set, update_of_ne hnew, Thread.running, Thread.push,
        count_cons_of_ne (by nofun : Frame.batch s.next ≠ .task id)]
  · by_cases hnew : id = s.next
    · exact Or.inl (hnew ▸ mem_cons_self)
    · simp only [setBatch, set, update_of_ne hnew] at hid
      exact Or.inr ⟨hid, mem_cons_of_mem _⟩
  · have hne : id ≠ s.next := Nat.ne_of_gt hid
    simp only [setBatch, set, update_of_ne hne]
    exact h.fresh id (Nat.le_of_succ_le hid)

/-- A thread starts a task of a batch, or ends one. -/
theorem inv_task {thread : Thread} {batch : Batch} (hok : thread.Ok) (hdepth : thread.depth = (s.threads i).depth)
    (hcloses : thread.closes = (s.threads i).closes) (hbodies : thread.bodies = (s.threads i).bodies)
    (hpos : 0 < (s.batches id).unsettled) (hsame : batch.unsettled + (s.batches id).queued + (s.threads i).running id =
      (s.batches id).unsettled + batch.queued + thread.running id)
    (hothers : ∀ other ≠ id, (s.threads i).running other = thread.running other)
    (howned : ∀ other, .batch other ∈ (s.threads i).frames → .batch other ∈ thread.frames) :
    Inv ((s.set i thread).setBatch id batch) := by
  refine h.moved i thread rfl hok ?_ (by rw [hcloses]; rfl) (Or.inl ⟨hbodies.le, Or.inl (le_refl _)⟩)
    (fun other => ?_) (fun other hother => Or.inr ⟨?_, howned other⟩) fun other hother => ?_
  · rw [Thread.busy, Thread.busy, hdepth]
    rfl
  · by_cases heq : other = id
    · simpa only [heq, setBatch, set, update_self] using hsame
    · simp only [setBatch, set, update_of_ne heq, hothers other heq]
  · by_cases heq : other = id
    · exact heq ▸ hpos
    · simpa only [setBatch, set, update_of_ne heq] using hother
  · have hne : other ≠ id := by
      rintro rfl
      rw [h.fresh other hother] at hpos
      exact absurd hpos (Nat.lt_irrefl 0)
    simp only [setBatch, set, update_of_ne hne]
    exact h.fresh other hother

theorem inv_start (hwait : (s.threads i).wait = none) (hqueued : 0 < (s.batches id).queued) : Inv (s.start i id) := by
  have hok := h.ok i
  refine inv_task h ⟨?_, fun hne => absurd rfl hne, hok.nested⟩ rfl ?_ ?_ ?_ ?_ (fun other hne => ?_)
    fun other => mem_cons_of_mem _
  · simp [Thread.push, hok.depth]
  · simp [Thread.closes, Thread.bodies, Thread.push, hwait]
  · simp [Thread.bodies, Thread.push]
  · have := h.tasks id
    omega
  · simp only [Thread.running, Thread.push, count_cons_self]
    omega
  · simp [Thread.running, Thread.push, hne.symm]

/-- A task on a thread is not settled. -/
theorem unsettled_pos (hid : .task id ∈ (s.threads i).frames) : 0 < (s.batches id).unsettled := by
  have hcount : 0 < (s.threads i).running id := count_pos_iff.mpr hid
  have hle := le_tally (Thread.running id) s.threads i
  have := h.tasks id
  omega

theorem inv_settle (hframes : (s.threads i).frames = .task id :: rest) :
    Inv ((s.set i { s.threads i with frames := rest }).setBatch id
      { s.batches id with unsettled := (s.batches id).unsettled - 1 }) := by
  have hpos : 0 < (s.batches id).unsettled := unsettled_pos h (hframes ▸ mem_cons_self)
  refine inv_task h ((h.ok i).pop hframes nofun) rfl ?_ ?_ hpos ?_ (fun other hne => ?_) fun other hmem => ?_
  · simp [Thread.closes, Thread.bodies, hframes]
  · simp [Thread.bodies, hframes]
  · simp only [Thread.running, hframes, count_cons_self]
    omega
  · simp [Thread.running, hframes, hne.symm]
  · rw [hframes] at hmem
    exact (mem_cons.mp hmem).resolve_left nofun

theorem inv_complete (hframes : (s.threads i).frames = .batch id :: rest) (hsettled : (s.batches id).unsettled = 0) :
    Inv (s.set i { s.threads i with frames := rest }) := by
  have hok := h.ok i
  refine h.moved i { s.threads i with frames := rest } rfl (hok.pop hframes nofun) rfl ?_
    (Or.inl ⟨?_, Or.inl (le_refl _)⟩) (fun other => ?_) (fun other hother => Or.inr ⟨hother, fun hmem => ?_⟩)
    fun other hother => h.fresh other hother
  · simp [Thread.closes, Thread.bodies, hframes, set]
  · simp [Thread.bodies, hframes]
  · simp [Thread.running, hframes, set]
  · rw [hframes] at hmem
    refine (mem_cons.mp hmem).resolve_left fun heq => ?_
    obtain rfl := Frame.batch.inj heq
    exact absurd hsettled (Nat.ne_of_gt hother)

theorem inv_drained (hwait : (s.threads i).wait = some .draining)
    (hactive : s.active = 0) : Inv (s.set i ((s.threads i).push .retirement)) := by
  have hok := h.ok i
  refine h.called i ((s.threads i).push .retirement) rfl rfl rfl
    ⟨?_, fun hne => absurd rfl hne, hok.nested⟩ rfl ?_ (Or.inr hactive) (fun id => ?_)
    fun id hid => mem_cons_of_mem _ hid
  · simp [Thread.push, hok.depth]
  · simp only [Thread.closes, Thread.bodies, Thread.push, hwait, if_true, count_cons_self, set]
    simp
  · simp [Thread.running, Thread.push]

theorem inv_reopen (hframes : (s.threads i).frames = .retirement :: rest) :
    Inv { s.set i { s.threads i with frames := rest } with retiring := false } := by
  have hok := h.ok i
  have hretiring : s.retiring = true := by
    have hle := le_tally Thread.closes s.threads i
    have hpos : 0 < (s.threads i).closes := by simp [Thread.closes, Thread.bodies, hframes]
    have := h.closed
    exact Bool.toNat_eq_one.mp (by have := s.retiring.toNat_le; omega)
  refine h.called i { s.threads i with frames := rest } rfl rfl rfl (hok.pop hframes nofun) rfl ?_
    (Or.inl ⟨?_, Or.inl (le_refl _)⟩) (fun id => ?_) fun id hid => ?_
  · simp only [Thread.closes, Thread.bodies, hframes, count_cons_self, hretiring, Bool.toNat_true,
      Bool.toNat_false]
    omega
  · simp [Thread.bodies, hframes]
  · simp [Thread.running, hframes]
  · rw [hframes] at hid
    exact (mem_cons.mp hid).resolve_left nofun

end

/-! ### What a step can do -/

/-- The steps, with what they require. -/
inductive Moves (s : Session n) : Action n → Session n → Prop where
  | enter {i} (hcalls : (s.threads i).calls = true) : Moves s (.enter i) (s.enterActivity i)
  | letIn {i} (hwait : (s.threads i).wait = some .admission) (hopen : s.retiring = false) :
    Moves s (.letIn i) (s.admitted i)
  | leave {i rest} (hwait : (s.threads i).wait = none) (hframes : (s.threads i).frames = .activity :: rest) :
    Moves s (.leave i) (s.leaveActivity i rest)
  | submit {i tasks rest} (hwait : (s.threads i).wait = none)
    (hframes : (s.threads i).frames = .activity :: rest) :
    Moves s (.submit i tasks) { (s.set i ((s.threads i).push (.batch s.next))).setBatch s.next ⟨tasks, tasks⟩ with
      next := s.next + 1 }
  | take {i id} (hwait : (s.threads i).wait = none) (hqueued : 0 < (s.batches id).queued) :
    Moves s (.take i id) (s.start i id)
  | help {i id} (hwait : (s.threads i).wait = none) (hqueued : 0 < (s.batches id).queued) :
    Moves s (.help i) (s.start i id)
  | settle {i id rest} (hwait : (s.threads i).wait = none) (hframes : (s.threads i).frames = .task id :: rest) :
    Moves s (.settle i) ((s.set i { s.threads i with frames := rest }).setBatch id
      { s.batches id with unsettled := (s.batches id).unsettled - 1 })
  | complete {i id rest} (hwait : (s.threads i).wait = none)
    (hframes : (s.threads i).frames = .batch id :: rest) (hsettled : (s.batches id).unsettled = 0) :
    Moves s (.complete i) (s.set i { s.threads i with frames := rest })
  | retire {i} (hcalls : (s.threads i).calls = true) : Moves s (.retire i) (s.enterRetirement i)
  | close {i} (hwait : (s.threads i).wait = some .retiring) (hopen : s.retiring = false) :
    Moves s (.close i) (s.closed i)
  | drained {i} (hwait : (s.threads i).wait = some .draining) (hactive : s.active = 0) :
    Moves s (.drained i) (s.set i ((s.threads i).push .retirement))
  | reopen {i rest} (hwait : (s.threads i).wait = none) (hframes : (s.threads i).frames = .retirement :: rest) :
    Moves s (.reopen i) { s.set i { s.threads i with frames := rest } with retiring := false }

theorem moves_of_step {s s' : Session n} {action : Action n} (hstep : s.step action = some s') :
    Moves s action s' := by
  cases action with
  | enter i =>
    obtain ⟨hcalls, heq⟩ := ite_none_right_eq_some.mp hstep
    exact Option.some.inj heq ▸ .enter hcalls
  | letIn i =>
    obtain ⟨⟨hwait, hopen⟩, heq⟩ := ite_none_right_eq_some.mp hstep
    exact Option.some.inj heq ▸ .letIn hwait hopen
  | leave i =>
    simp only [step] at hstep
    split at hstep
    case h_1 hwait hframes => exact Option.some.inj hstep ▸ .leave hwait hframes
    case h_2 => cases hstep
  | submit i tasks =>
    simp only [step] at hstep
    split at hstep
    case h_1 hwait hframes =>
      obtain ⟨-, heq⟩ := ite_none_right_eq_some.mp hstep
      exact Option.some.inj heq ▸ .submit hwait hframes
    case h_2 => cases hstep
  | take i id =>
    simp only [step] at hstep
    split at hstep
    case h_1 hwait hframes =>
      obtain ⟨⟨-, hqueued⟩, heq⟩ := ite_none_right_eq_some.mp hstep
      exact Option.some.inj heq ▸ .take hwait hqueued
    case h_2 => cases hstep
  | help i =>
    simp only [step] at hstep
    split at hstep
    case h_1 hwait hframes =>
      obtain ⟨hqueued, heq⟩ := ite_none_right_eq_some.mp hstep
      exact Option.some.inj heq ▸ .help hwait hqueued
    case h_2 => cases hstep
  | settle i =>
    simp only [step] at hstep
    split at hstep
    case h_1 hwait hframes => exact Option.some.inj hstep ▸ .settle hwait hframes
    case h_2 => cases hstep
  | complete i =>
    simp only [step] at hstep
    split at hstep
    case h_1 hwait hframes =>
      obtain ⟨hsettled, heq⟩ := ite_none_right_eq_some.mp hstep
      exact Option.some.inj heq ▸ .complete hwait hframes hsettled
    case h_2 => cases hstep
  | retire i =>
    obtain ⟨hcalls, heq⟩ := ite_none_right_eq_some.mp hstep
    exact Option.some.inj heq ▸ .retire hcalls
  | close i =>
    obtain ⟨⟨hwait, hopen⟩, heq⟩ := ite_none_right_eq_some.mp hstep
    exact Option.some.inj heq ▸ .close hwait hopen
  | drained i =>
    obtain ⟨⟨hwait, hactive⟩, heq⟩ := ite_none_right_eq_some.mp hstep
    exact Option.some.inj heq ▸ .drained hwait hactive
  | reopen i =>
    simp only [step] at hstep
    split at hstep
    case h_1 hwait hframes => exact Option.some.inj hstep ▸ .reopen hwait hframes
    case h_2 => cases hstep

/-- A step keeps the invariant. -/
theorem inv_step {s s' : Session n} (h : Inv s) {action : Action n} (hstep : s.step action = some s') : Inv s' := by
  cases moves_of_step hstep with
  | enter hcalls => exact inv_enterActivity h hcalls
  | @letIn i hwait hopen => exact inv_admitted h ((h.ok i).waiting (by simp [hwait])) (by simp [hwait]) hopen
  | leave hwait hframes => exact inv_leaveActivity h hwait hframes
  | submit hwait hframes => exact inv_submit h hwait hframes
  | take hwait hqueued | help hwait hqueued => exact inv_start h hwait hqueued
  | settle hwait hframes => exact inv_settle h hframes
  | complete hwait hframes hsettled => exact inv_complete h hframes hsettled
  | retire hcalls => exact inv_enterRetirement h hcalls
  | @close i hwait hopen => exact inv_closed h ((h.ok i).waiting (by simp [hwait])) (by simp [hwait]) hopen
  | drained hwait hactive => exact inv_drained h hwait hactive
  | reopen hwait hframes => exact inv_reopen h hframes

/-! ### Exclusion -/

section

variable {s : Session n} (h : Inv s)
include h

/-- A thread with a batch, or with an activity, is counted. -/
theorem active_pos {i : Fin n} (hframe : .activity ∈ (s.threads i).frames) : 0 < s.active := by
  have hdepth : 0 < (s.threads i).depth := by
    rw [(h.ok i).depth]
    exact count_pos_iff.mpr hframe
  rw [h.active]
  exact Nat.lt_of_lt_of_le (Thread.busy_pos.mpr hdepth) (le_tally Thread.busy s.threads i)

/-- The owner of a task that runs. -/
theorem exists_owner {i : Fin n} {id : Nat} (hid : .task id ∈ (s.threads i).frames) :
    ∃ owner, .batch id ∈ (s.threads owner).frames :=
  h.owned id (unsettled_pos h hid)

theorem active_pos_of_task {i : Fin n} (hin : (s.threads i).InTask) : 0 < s.active := by
  obtain ⟨id, hid⟩ := hin
  obtain ⟨owner, howner⟩ := exists_owner h hid
  exact active_pos h ((h.ok owner).nested.activity_mem howner)

theorem active_eq_zero_of_body {r : Fin n} (hbody : .retirement ∈ (s.threads r).frames) : s.active = 0 :=
  h.quiet (Nat.lt_of_lt_of_le (count_pos_iff.mpr hbody) (le_tally Thread.bodies s.threads r))

theorem excluded_of_inv : s.Excluded := by
  intro r hbody i
  have hzero := active_eq_zero_of_body h hbody
  exact ⟨fun hframe => absurd (active_pos h hframe) (by omega),
    fun hin => absurd (active_pos_of_task h hin) (by omega)⟩

end

/-! ### Where it wedges -/

/-- With a task running, the admission is closed by a thread that still waits for the activities to end. -/
theorem exists_draining {s : Session n} (h : Inv s) {i : Fin n} (hin : (s.threads i).InTask)
    (hretiring : s.retiring = true) : ∃ r, (s.threads r).wait = some .draining := by
  have hclosed : 0 < tally Thread.closes s.threads := by
    rw [← h.closed, hretiring]
    exact Nat.one_pos
  obtain ⟨r, hr⟩ := exists_share_pos hclosed
  refine ⟨r, by_contra fun hwait => ?_⟩
  have hbody : .retirement ∈ (s.threads r).frames := by
    rw [Thread.closes, if_neg hwait] at hr
    exact count_pos_iff.mp hr
  exact absurd (active_pos_of_task h hin) (by rw [active_eq_zero_of_body h hbody]; exact Nat.lt_irrefl 0)

/-- A thread that runs a task starts to wait: the retirement that drains waits for its owner. -/
theorem wedged_of_waits {s s' : Session n} (h : Inv s) {i : Fin n} {wait : Wait} (hin : (s.threads i).InTask)
    (hthreads : s'.threads = Function.update s.threads i { s.threads i with wait := some wait })
    (hdrains : wait = .draining ∨ s.retiring = true ∧ (s.threads i).wait = none) : s'.Wedged := by
  obtain ⟨id, hid⟩ := hin
  obtain ⟨owner, howner⟩ := exists_owner h hid
  have hself : s'.threads i = { s.threads i with wait := some wait } := by
    rw [hthreads, update_self]
  have hframes : ∀ j, (s'.threads j).frames = (s.threads j).frames := by
    intro j
    by_cases hj : j = i
    · rw [hj, hself]
    · rw [hthreads, update_of_ne hj]
  have hdraining : ∃ r, (s'.threads r).wait = some .draining := by
    obtain rfl | ⟨hretiring, hnone⟩ := hdrains
    · exact ⟨i, by rw [hself]⟩
    · obtain ⟨r, hr⟩ := exists_draining h ⟨id, hid⟩ hretiring
      have hne : r ≠ i := by
        rintro rfl
        rw [hnone] at hr
        cases hr
      exact ⟨r, by rw [hthreads, update_of_ne hne]; exact hr⟩
  obtain ⟨r, hr⟩ := hdraining
  refine ⟨r, owner, i, id, hr, ?_, ?_, ?_⟩
  · rw [hframes]
    exact howner
  · rw [hframes]
    exact hid
  · rw [hself]
    exact some_ne_none wait

theorem wedged_of_not_admissible {s s' : Session n} (h : Inv s) {action : Action n}
    (hstep : s.step action = some s') (hnot : ¬s.Admissible action) : s'.Wedged := by
  cases moves_of_step hstep with
  | @enter i hcalls =>
    simp only [Admissible, Classical.not_imp, Bool.not_eq_false] at hnot
    obtain ⟨hin, hdepth, hretiring⟩ := hnot
    have hthreads : (s.enterActivity i).threads =
        Function.update s.threads i { s.threads i with wait := some .admission } := by
      rw [enterActivity, if_neg (by omega), if_pos hretiring]
      rfl
    exact wedged_of_waits h hin hthreads (Or.inr ⟨hretiring, wait_of_calls hcalls⟩)
  | @retire i hcalls =>
    simp only [Admissible, Classical.not_imp, Nat.not_lt] at hnot
    obtain ⟨hin, hdepth⟩ := hnot
    simp only [enterRetirement, if_neg (Nat.not_lt.mpr hdepth)]
    split_ifs with hretiring
    · exact wedged_of_waits h hin rfl (Or.inr ⟨hretiring, wait_of_calls hcalls⟩)
    · exact wedged_of_waits h hin rfl (Or.inl rfl)
  | letIn | leave | submit | take | help | settle | complete | close | drained | reopen => exact absurd trivial hnot

/-- No thread waits inside a task. -/
def Calm (s : Session n) : Prop := ∀ i, (s.threads i).wait ≠ none → ¬(s.threads i).InTask

theorem not_wedged_of_calm {s : Session n} (h : s.Calm) : ¬s.Wedged :=
  fun ⟨_, _, task, id, _, _, hid, hwait⟩ => h task hwait ⟨id, hid⟩

theorem Calm.update {s s' : Session n} (h : s.Calm) {i : Fin n} {thread : Thread}
    (hthreads : s'.threads = Function.update s.threads i thread) (hcalm : thread.wait ≠ none → ¬thread.InTask) :
    s'.Calm := by
  intro j
  rw [hthreads]
  by_cases hj : j = i
  · rw [hj, update_self]
    exact hcalm
  · rw [update_of_ne hj]
    exact h j

/-- A thread that goes on does not wait. -/
theorem Calm.runs {s s' : Session n} (h : s.Calm) {i : Fin n} {thread : Thread}
    (hthreads : s'.threads = Function.update s.threads i thread) (hwait : thread.wait = none) : s'.Calm :=
  h.update hthreads fun hne => absurd hwait hne

theorem calm_step {s s' : Session n} (h : s.Calm) {action : Action n} (hstep : s.step action = some s')
    (hadmissible : s.Admissible action) : s'.Calm := by
  cases moves_of_step hstep with
  | enter hcalls =>
    simp only [enterActivity]
    split_ifs with hdepth hretiring
    · exact h.runs rfl rfl
    · refine h.update rfl fun _ hin => ?_
      exact absurd hretiring (Bool.eq_false_iff.mp (hadmissible hin (by omega)))
    · exact h.runs rfl rfl
  | letIn hwait hopen => exact h.runs rfl rfl
  | leave hwait hframes =>
    simp only [leaveActivity]
    split_ifs <;> exact h.runs rfl hwait
  | submit hwait hframes => exact h.runs rfl rfl
  | take hwait hqueued => exact h.runs rfl rfl
  | help hwait hqueued => exact h.runs rfl rfl
  | settle hwait hframes => exact h.runs rfl hwait
  | complete hwait hframes hsettled => exact h.runs rfl hwait
  | retire hcalls =>
    simp only [enterRetirement]
    split_ifs with hdepth hretiring
    · exact h
    · exact h.update rfl fun _ hin => absurd (hadmissible hin) hdepth
    · exact h.update rfl fun _ hin => absurd (hadmissible hin) hdepth
  | @close i hwait hopen => exact h.update rfl fun _ => h i (by simp [hwait])
  | drained hwait hactive => exact h.runs rfl rfl
  | reopen hwait hframes => exact h.runs rfl hwait

/-! ### Runs -/

theorem run_append (s : Session n) (first second : List (Action n)) :
    s.run (first ++ second) = (s.run first).bind fun s' => s'.run second := by
  induction first generalizing s with
  | nil => rfl
  | cons action first ih =>
    simp only [cons_append, run, bind_assoc]
    congr 1
    funext s'
    exact ih s'

theorem inv_run {s s' : Session n} (h : Inv s) {actions : List (Action n)} (hrun : s.run actions = some s') :
    Inv s' := by
  induction actions generalizing s with
  | nil => exact Option.some.inj hrun ▸ h
  | cons action actions ih =>
    obtain ⟨mid, hstep, hrest⟩ := bind_eq_some_iff.mp hrun
    exact ih (inv_step h hstep) hrest

theorem calm_run {s s' : Session n} (h : s.Calm) {actions : List (Action n)} (hrun : s.run actions = some s')
    (hadmissible : ∀ before action after mid, actions = before ++ action :: after → s.run before = some mid →
      mid.Admissible action) : s'.Calm := by
  induction actions generalizing s with
  | nil => exact Option.some.inj hrun ▸ h
  | cons action actions ih =>
    obtain ⟨mid, hstep, hrest⟩ := bind_eq_some_iff.mp hrun
    refine ih (calm_step h hstep (hadmissible [] action actions s rfl rfl)) hrest ?_
    intro before action' after late hsplit hbefore
    refine hadmissible (action :: before) action' after late (by rw [hsplit]; rfl) ?_
    rw [run, hstep]
    exact hbefore

/-- **In a run from the opened session, no query or task runs beside a retirement body and no retirement is
wedged, in any state of the run, exactly if every step of it is admissible: no task on a thread without an
activity of its own asks for a query while the admission is closed, or retires.** -/
theorem excluded_unwedged_iff_admissible (worker : Fin n → Bool) (actions : List (Action n)) (final : Session n)
    (hrun : (opened worker).run actions = some final) :
    (∀ before after s, actions = before ++ after → (opened worker).run before = some s →
      s.Excluded ∧ ¬s.Wedged) ↔
    ∀ before action after s, actions = before ++ action :: after → (opened worker).run before = some s →
      s.Admissible action := by
  constructor
  · intro hsafe before action after s hsplit hbefore
    by_contra hnot
    rw [hsplit, run_append, hbefore, bind_some] at hrun
    obtain ⟨next, hstep, -⟩ := bind_eq_some_iff.mp hrun
    have hnext : (opened worker).run (before ++ [action]) = some next := by
      rw [run_append, hbefore]
      simp only [run, bind_some, hstep]
    refine (hsafe (before ++ [action]) after next (by simp [hsplit]) hnext).2 ?_
    exact wedged_of_not_admissible (inv_run (inv_opened worker) hbefore) hstep hnot
  · intro hadmissible before after s hsplit hbefore
    refine ⟨excluded_of_inv (inv_run (inv_opened worker) hbefore), not_wedged_of_calm ?_⟩
    refine calm_run (fun i hne => absurd rfl hne) hbefore fun first action rest mid hfirst hmid => ?_
    exact hadmissible first action (rest ++ after) mid (by simp [hsplit, hfirst]) hmid

/-- A batch of two tasks, one of them taken by the worker `1` while the thread `2` retires. -/
def raced : List (Action 3) :=
  [.enter 0, .submit 0 2, .take 1 0, .retire 2]

theorem raced_iff_admissible :
    (∀ before after s, raced = before ++ after → (opened (· = 1)).run before = some s →
      s.Excluded ∧ ¬s.Wedged) ↔
    ∀ before action after s, raced = before ++ action :: after → (opened (· = 1)).run before = some s →
      s.Admissible action :=
  excluded_unwedged_iff_admissible (· = 1) raced _ rfl

/-- The task asks for a query: the retirement waits for the thread `0`, which waits for the task. -/
theorem raced_wedged : ∃ s, (opened (· = 1)).run (raced ++ [.enter 1]) = some s ∧ s.Wedged :=
  ⟨_, rfl, 2, 0, 1, 0, rfl, by decide, by decide, by decide⟩

end Session

end Nia.Query.Activity
