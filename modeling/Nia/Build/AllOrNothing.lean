import Nia.Build.Recovered

/-! All or nothing.

A transaction starts on a disk of its own destinations. Faults strike the publication and then any number of
recoveries, each of which may end anywhere; the disk after that is any disk that is ever seen, since the last
process may have ended anywhere as well. -/
namespace Nia.Build.Output

open Lib.Interrupts

variable {α : Type}

/-- The disk before the transaction. -/
def Disk.initial (old : Nat → Option α) : Disk α where
  destination := old
  staged := none
  committed := none
  temporaryJournal := none
  journal := none

/-- The disk after recoveries, each with the faults that strike it. -/
def afterRecoveries : List (List (Option (Fault α))) → Disk α → Disk α
  | [], disk => disk
  | faults :: rest, disk => afterRecoveries rest (recoverInterrupted.run disk faults).state

/-- The disk after the publication and recoveries, each with the faults that strike it. -/
def history (count : Nat) (old : Nat → Option α) (new : Nat → α) (faults : List (Option (Fault α)))
    (recoveries : List (List (Option (Fault α)))) : Disk α :=
  afterRecoveries recoveries ((restoreOutputs count new).run (.initial old) faults).state

section

variable {tx : Transaction α}

theorem recoverInterrupted_consistent (hcount : 0 < tx.count) {disk : Disk α} (h : Consistent tx disk)
    (faults : List (Option (Fault α))) : Consistent tx (recoverInterrupted.run disk faults).state := by
  have hspec : Spec tx true (· = disk) recoverInterrupted _ _ := recoverInterrupted_spec hcount h nofun
  exact Triple.state (hspec.either (fun _ _ hd => hd.consistent) fun _ hd => hd.2) rfl faults

theorem afterRecoveries_consistent (hcount : 0 < tx.count) (recoveries : List (List (Option (Fault α)))) {disk : Disk α}
    (h : Consistent tx disk) : Consistent tx (afterRecoveries recoveries disk) := by
  induction recoveries generalizing disk with
  | nil => exact h
  | cons faults rest ih => exact ih (recoverInterrupted_consistent hcount h faults)

/-- Every disk that is ever seen is consistent. -/
theorem history_consistent (tx : Transaction α) (hcount : 0 < tx.count) (faults : List (Option (Fault α)))
    (recoveries : List (List (Option (Fault α)))) :
    Consistent tx (history tx.count tx.old tx.new faults recoveries) := by
  have hfresh : Fresh tx (.initial tx.old) := ⟨rfl, rfl, rfl, fun _ _ => rfl⟩
  have hpublished : Consistent tx ((restoreOutputs tx.count tx.new).run (.initial tx.old) faults).state :=
    Triple.state restoreOutputs_spec hfresh faults
  exact afterRecoveries_consistent hcount recoveries hpublished

end

/-! ### Old outputs -/

/-- The old output is at its destination or its backup is in the staging directory. -/
def Kept (old : Nat → Option α) (disk : Disk α) (i : Nat) : Prop :=
  disk.destination i = old i ∨ ∃ area, disk.staged = some area ∧ area (.backup i) = old i

/-- The transaction was committed: the staging directory is gone and every destination is new. -/
def IsCommitted (count : Nat) (new : Nat → α) (disk : Disk α) : Prop := disk.staged = none ∧ AllNew count new disk

theorem Consistent.kept {tx : Transaction α} {disk : Disk α}
    (h : Consistent tx disk) : (∀ i < tx.count, Kept tx.old disk i) ∨ IsCommitted tx.count tx.new disk := by
  cases h with
  | settled h =>
    rcases h.destinations with hold | hnew
    · exact .inl fun i hi => .inl (hold i hi)
    · exact .inr ⟨h.staged, hnew⟩
  | resting h => exact .inl fun i hi => .inl (h.destinations i hi)
  | moving place h =>
    obtain ⟨area, hstaged, hplaced⟩ := h.placed
    refine .inl fun i hi => ?_
    have hholds := hplaced i hi
    cases hplace : place i with
    | idle =>
      rw [hplace] at hholds
      exact .inl hholds.1
    | backed =>
      rw [hplace] at hholds
      exact .inr ⟨area, hstaged, hholds.2.2.2⟩
    | installed =>
      rw [hplace] at hholds
      exact .inr ⟨area, hstaged, hholds.2.2⟩
  | committed h => exact .inr ⟨h.staged, h.destinations⟩

/-- A crash while the committed directory is removed, when its backup is gone. -/
def crashInCleanup : List (Option (Fault Nat)) := List.replicate 21 none ++ [some ⟨true, fun _ => none, fun _ => true⟩]

/-- Once the transaction is committed its backups are removed: then the old output is nowhere, before the recovery
that follows succeeds. -/
theorem old_output_gone_after_commit :
    let disk := history 1 (fun _ => some 0) (fun _ => 1) crashInCleanup []
    disk.destination 0 = some 1 ∧ disk.staged.isNone ∧ (∃ area, disk.committed = some area ∧ area (.backup 0) = none) ∧
      (recoverInterrupted.run disk []).value.map Except.isOk = some true :=
  ⟨rfl, rfl, ⟨_, rfl, rfl⟩, rfl⟩

/-- **Output publication is all or nothing.** Whatever strikes the publication and the recoveries after it, at every
moment each old output is at its destination or in its backup unless the transaction was committed, and once a
recovery succeeds the destinations are all old or all new. -/
theorem published_all_or_nothing (count : Nat) (old : Nat → Option α) (new : Nat → α)
    (faults : List (Option (Fault α))) (recoveries : List (List (Option (Fault α)))) :
    let disk := history count old new faults recoveries
    ((∀ i < count, Kept old disk i) ∨ IsCommitted count new disk) ∧
      ∀ last disk' rest, recoverInterrupted.run disk last = .returned (.ok ()) disk' rest →
        AllOld count old disk' ∨ AllNew count new disk' := by
  intro disk
  rcases Nat.eq_zero_or_pos count with rfl | hcount
  · exact ⟨.inl fun i hi => absurd hi (Nat.not_lt_zero i),
      fun _ _ _ _ => .inl fun i hi => absurd hi (Nat.not_lt_zero i)⟩
  · have hconsistent := history_consistent ⟨count, old, new⟩ hcount faults recoveries
    refine ⟨hconsistent.kept, fun last disk' rest hrun => ?_⟩
    have hspec : Spec ⟨count, old, new⟩ true (· = disk) recoverInterrupted _ _ :=
      recoverInterrupted_spec hcount hconsistent nofun
    have hend := hspec disk last nofun rfl
    rw [show recoverInterrupted disk last = _ from hrun] at hend
    exact hend.1.destinations

end Nia.Build.Output
