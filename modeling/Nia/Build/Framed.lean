import Nia.Build.Publication

/-! Recovery of a journal leaves the temporary journals alone, which other processes may be writing. -/
namespace Nia.Build.Output

open Lib.Interrupts

variable {α : Type}

/-- The process leaves the temporary journal alone. -/
def Frames {β : Type} (process : Proc (Disk α) (Fault α) β) : Prop :=
  ∀ header, Triple true (fun disk => disk.temporaryJournal = header) (fun disk => disk.temporaryJournal = header)
    process fun _ disk => disk.temporaryJournal = header

section Frames

variable {β γ ε : Type} {e : ε} {operation : String} {location : Location} {cause : Option Failure}

theorem frames_pure (b : β) : Frames (α := α) (pure b) := fun _ => Triple.pure fun _ h => h

theorem Frames.bind {x : Proc (Disk α) (Fault α) β} {f : β → Proc (Disk α) (Fault α) γ} (hx : Frames x)
    (hf : ∀ b, Frames (f b)) : Frames (x >>= f) :=
  fun header => Triple.bind (hx header) fun b => hf b header

theorem Frames.bindExcept {x : ExceptT ε (Proc (Disk α) (Fault α)) β} {f : β → ExceptT ε (Proc (Disk α) (Fault α)) γ}
    (hx : Frames x) (hf : ∀ b, Frames (f b)) : Frames (x >>= f : ExceptT ε (Proc (Disk α) (Fault α)) γ) := by
  refine Frames.bind hx fun result => ?_
  cases result with
  | ok b => exact hf b
  | error e => exact frames_pure _

theorem frames_throw : Frames (throw e : ExceptT ε (Proc (Disk α) (Fault α)) β) := frames_pure _

theorem frames_throw_bind {f : β → ExceptT ε (Proc (Disk α) (Fault α)) γ} :
    Frames (throw e >>= f : ExceptT ε (Proc (Disk α) (Fault α)) γ) := frames_pure (Except.error e)

theorem frames_atomic {apply : Disk α → Except IoError (β × Disk α)}
    (h : ∀ disk value disk', apply disk = .ok (value, disk') → disk'.temporaryJournal = disk.temporaryJournal) :
    Frames (atomic apply) := by
  intro header
  refine Triple.step (fun disk hdisk => ?_) fun _ _ disk hdisk => ⟨hdisk, hdisk⟩
  cases happly : apply disk with
  | error error => exact hdisk
  | ok result => exact (h disk _ _ happly).trans hdisk

theorem frames_removal {remove : Disk α → Disk α} {torn : Fault α → Disk α → Disk α}
    (hremove : ∀ disk, (remove disk).temporaryJournal = disk.temporaryJournal)
    (htorn : ∀ fault disk, (torn fault disk).temporaryJournal = disk.temporaryJournal) : Frames (removal remove torn) :=
  fun _ => Triple.step (fun disk hdisk => (hremove disk).trans hdisk)
    fun _ fault disk hdisk => ⟨(htorn fault disk).trans hdisk, (htorn fault disk).trans hdisk⟩

theorem frames_failing {io : Io α β} (h : Frames io) : Frames (failing operation location io cause) := by
  refine Frames.bind h fun result => ?_
  cases result with
  | ok value => exact frames_pure _
  | error error => exact frames_pure _

theorem frames_inspect {look : Disk α → β} : Frames (inspect look) := by
  refine frames_atomic fun disk value disk' h => ?_
  cases h
  rfl

/-- What follows a look at the disk. -/
theorem frames_look {look : Disk α → β} {next : β → Fallible α γ} (h : ∀ found, Frames (next found)) :
    Frames (failing operation location (inspect look) cause >>= next : Fallible α γ) :=
  (frames_failing frames_inspect).bindExcept h

theorem frames_touch : Frames (touch : Io α Unit) := by
  refine frames_atomic fun disk value disk' h => ?_
  cases h
  rfl

theorem frames_moveIn {index : Nat} {entry : Entry} : Frames (moveIn (α := α) index entry) := by
  refine frames_atomic fun disk value disk' h => ?_
  split at h
  · cases h
    rfl
  · cases h

theorem frames_moveOut {index : Nat} {entry : Entry} : Frames (moveOut (α := α) entry index) := by
  refine frames_atomic fun disk value disk' h => ?_
  split at h
  · split at h
    · cases h
      rfl
    · cases h
  · cases h

theorem frames_removeDirectory {remove : Io α Unit} (h : Frames remove) :
    Frames (removeDirectory operation location remove) :=
  frames_failing (h.bindExcept fun _ => frames_touch)

theorem frames_removeStaged : Frames (removeStaged : Io α Unit) := frames_removal (fun _ => rfl) fun _ _ => rfl

theorem frames_removeCommitted : Frames (removeCommitted : Io α Unit) := frames_removal (fun _ => rfl) fun _ _ => rfl

theorem frames_removeJournal : Frames (removeJournal : Io α Unit) := frames_removal (fun _ => rfl) fun _ _ => rfl

theorem frames_rollbackSeen {index : Nat} {hadPrevious temporary backup destination : Bool} :
    Frames (rollbackSeen (α := α) index hadPrevious temporary backup destination) := by
  unfold rollbackSeen
  split_ifs
  · exact (frames_failing frames_moveIn).bindExcept fun _ => frames_failing frames_moveOut
  · exact frames_failing frames_moveOut
  · exact frames_throw
  · exact frames_pure _
  · exact frames_throw
  · exact frames_pure _
  · exact frames_failing frames_moveIn
  · exact frames_throw

theorem frames_rollbackEntries {todo : List (Nat × Bool)} : Frames (rollbackEntries (α := α) todo) := by
  induction todo with
  | nil => exact frames_pure _
  | cons entry rest ih =>
    refine Frames.bindExcept ?_ fun _ => ih
    refine frames_look fun temporary => ?_
    refine frames_look fun backup => ?_
    refine frames_look fun destination => ?_
    exact frames_rollbackSeen

theorem frames_readHeader : Frames (readHeader : Fallible α Nat) := by
  refine frames_look fun found => ?_
  cases found with
  | none => exact frames_throw
  | some count =>
    simp only
    split_ifs
    · exact frames_pure _
    · exact frames_throw

theorem frames_readPrepared (count : Nat) : Frames (readPrepared (α := α) count) := by
  refine frames_look fun found => ?_
  cases found with
  | none => exact frames_pure _
  | some hadPrevious =>
    simp only
    split_ifs
    · exact frames_pure _
    · exact frames_throw

theorem frames_recoverStaged (count : Nat) : Frames (recoverStaged (α := α) count) := by
  have hremove : ∀ operation operation', Frames (do
      removeDirectory operation .staged removeStaged
      removeDirectory operation' .journal removeJournal : Fallible α Unit) := fun _ _ =>
    (frames_removeDirectory frames_removeStaged).bindExcept fun _ => frames_removeDirectory frames_removeJournal
  refine (frames_readPrepared count).bindExcept fun found => ?_
  cases found with
  | none => exact hremove _ _
  | some hadPrevious =>
    refine Frames.bindExcept ?_ fun _ => hremove _ _
    exact frames_rollbackEntries.bindExcept fun _ => frames_failing frames_touch

theorem frames_recoverJournal : Frames (recoverJournal : Fallible α Unit) := by
  refine frames_readHeader.bindExcept fun header => ?_
  refine (frames_failing frames_touch).bindExcept fun _ => ?_
  refine frames_look fun found => ?_
  split_ifs
  · exact frames_pure _
  · refine frames_readHeader.bindExcept fun current => ?_
    split_ifs
    · exact frames_throw_bind
    · refine frames_look fun staged => ?_
      refine frames_look fun committed => ?_
      split_ifs
      · exact frames_throw
      · exact (frames_removeDirectory frames_removeCommitted).bindExcept fun _ =>
          frames_removeDirectory frames_removeJournal
      · exact frames_removeDirectory frames_removeJournal
      · exact frames_recoverStaged _

end Frames

end Nia.Build.Output
