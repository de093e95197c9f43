import Nia.Lib.Interrupts

/-! Publication of the outputs of an action.

The outputs are written to a staging directory, checked, and then moved to their destinations one after the
other; a previous output is moved to a backup in the staging directory before. A journal directory is there
from before the first write to after the last, and says once the outputs are checked which destinations had a
previous output. When every output is in place the staging directory is renamed, which commits. A failure
before that moves everything back.

The names of one transaction are fresh, so the disk shows only its own files. Moves are atomic; the removal of a
directory may be interrupted when part of its content is gone. -/
namespace Nia.Build.Output

open Lib.Interrupts

/-! ### The disk -/

/-- The entries of a staging directory. -/
inductive Entry where
  | output (index : Nat)
  | backup (index : Nat)
  deriving DecidableEq

/-- The files of a journal directory. -/
inductive Record where
  | journal
  | prepared
  | preparedTemporary
  deriving DecidableEq

/-- The content of a staging directory. -/
abbrev Area (α : Type) := Entry → Option α

/-- The content of a journal directory: `journal.bin` names the outputs, `prepared.bin` says which of them had a
previous one. -/
structure Journal where
  header : Option Nat
  prepared : Option (List Bool)
  preparedTemporary : Option (List Bool)

/-- What one transaction sees of the disk. -/
structure Disk (α : Type) where
  destination : Nat → Option α
  staged : Option (Area α)
  committed : Option (Area α)
  /-- The journal directory before it is renamed, and its `journal.bin`. -/
  temporaryJournal : Option (Option Nat)
  journal : Option Journal

/-- A crash or an I/O error, and what an interrupted removal of a directory leaves of its entries. -/
structure Fault (α : Type) where
  crash : Bool
  entries : Area α
  records : Record → Bool

inductive IoError where
  | device
  | notFound
  | invalidInput (message : String)
  | invalidData (message : String)
  deriving DecidableEq

/-- The path an error is about. -/
inductive Location where
  | destination (index : Nat)
  | entry (entry : Entry)
  | staged
  | committed
  | journal
  | temporaryJournal
  | parent
  deriving DecidableEq

/-- `staged_output_io` and `recovery_error`. -/
inductive Failure where
  | mk (operation : String) (location : Location) (error : IoError) (cause : Option Failure)

abbrev Process (α β : Type) := Proc (Disk α) (Fault α) β
abbrev Io (α β : Type) := ExceptT IoError (Proc (Disk α) (Fault α)) β
abbrev Fallible (α β : Type) := ExceptT Failure (Proc (Disk α) (Fault α)) β

section Steps

variable {α β : Type}

/-- A step that is done or not. -/
def atomic (apply : Disk α → Except IoError (β × Disk α)) : Io α β :=
  step Fault.crash
    (fun disk =>
      match apply disk with
      | .ok (value, disk') => (.ok value, disk')
      | .error error => (.error error, disk))
    fun _ disk => (.error .device, disk)

/-- The removal of a directory, which its callers take as done when the directory is not there. -/
def removal (remove : Disk α → Disk α) (torn : Fault α → Disk α → Disk α) : Io α Unit :=
  step Fault.crash (fun disk => (.ok (), remove disk)) fun fault disk => (.error .device, torn fault disk)

/-- A step that changes none of the files: syncing, locking, creating parents. -/
def touch : Io α Unit := atomic fun disk => .ok ((), disk)

/-- Looks at the disk. -/
def inspect (look : Disk α → β) : Io α β := atomic fun disk => .ok (look disk, disk)

def createStaged : Io α Unit := atomic fun disk => .ok ((), { disk with staged := some fun _ => none })

/-- What an interrupted removal leaves of a staging directory. -/
def Area.torn (area : Area α) (fault : Fault α) : Area α := fun entry => (area entry).bind fun _ => fault.entries entry

def removeStaged : Io α Unit :=
  removal (fun disk => { disk with staged := none })
    fun fault disk => { disk with staged := disk.staged.map fun area => area.torn fault }

def removeCommitted : Io α Unit :=
  removal (fun disk => { disk with committed := none })
    fun fault disk => { disk with committed := disk.committed.map fun area => area.torn fault }

def createTemporaryJournal : Io α Unit := atomic fun disk => .ok ((), { disk with temporaryJournal := some none })

def writeHeader (count : Nat) : Io α Unit :=
  atomic fun disk => .ok ((), { disk with temporaryJournal := some (some count) })

def renameJournal : Io α Unit :=
  atomic fun disk =>
    match disk.temporaryJournal with
    | some header => .ok ((), { disk with temporaryJournal := none, journal := some ⟨header, none, none⟩ })
    | none => .error .notFound

def removeTemporaryJournal : Io α Unit :=
  removal (fun disk => { disk with temporaryJournal := none })
    fun fault disk => { disk with
      temporaryJournal := disk.temporaryJournal.map fun header => if fault.records .journal then header else none }

/-- What an interrupted removal leaves of a journal directory. -/
def Journal.torn (journal : Journal) (fault : Fault α) : Journal where
  header := if fault.records .journal then journal.header else none
  prepared := if fault.records .prepared then journal.prepared else none
  preparedTemporary := if fault.records .preparedTemporary then journal.preparedTemporary else none

def removeJournal : Io α Unit :=
  removal (fun disk => { disk with journal := none })
    fun fault disk => { disk with journal := disk.journal.map fun journal => journal.torn fault }

/-- Changes the journal directory. -/
def onJournal (change : Journal → Except IoError Journal) : Io α Unit :=
  atomic fun disk =>
    match disk.journal with
    | some journal => (change journal).map fun journal => ((), { disk with journal := some journal })
    | none => .error .notFound

def writePrepared (hadPrevious : List Bool) : Io α Unit :=
  onJournal fun journal => .ok { journal with preparedTemporary := some hadPrevious }

def renamePrepared : Io α Unit :=
  onJournal fun journal =>
    match journal.preparedTemporary with
    | some hadPrevious => .ok { journal with prepared := some hadPrevious, preparedTemporary := none }
    | none => .error .notFound

def removePrepared : Io α Unit := onJournal fun journal => .ok { journal with preparedTemporary := none }

def writeEntry (entry : Entry) (value : α) : Io α Unit :=
  atomic fun disk =>
    match disk.staged with
    | some area => .ok ((), { disk with staged := some (Function.update area entry (some value)) })
    | none => .error .notFound

/-- Renames a destination to an entry of the staging directory. -/
def moveIn (index : Nat) (entry : Entry) : Io α Unit :=
  atomic fun disk =>
    match disk.staged, disk.destination index with
    | some area, some value => .ok ((), { disk with
        destination := Function.update disk.destination index none
        staged := some (Function.update area entry (some value)) })
    | _, _ => .error .notFound

/-- Renames an entry of the staging directory to a destination. -/
def moveOut (entry : Entry) (index : Nat) : Io α Unit :=
  atomic fun disk =>
    match disk.staged with
    | some area =>
      match area entry with
      | some value => .ok ((), { disk with
          destination := Function.update disk.destination index (some value)
          staged := some (Function.update area entry none) })
      | none => .error .notFound
    | none => .error .notFound

/-- Renames the staging directory. -/
def commitStaged : Io α Unit :=
  atomic fun disk =>
    match disk.staged with
    | some area => .ok ((), { disk with staged := none, committed := some area })
    | none => .error .notFound

/-- Says what failed and where. -/
def failing (operation : String) (location : Location) (io : Io α β) (cause : Option Failure) : Fallible α β :=
  ExceptT.mk (do
    match ← io.run with
    | .ok value => return .ok value
    | .error error => return .error (.mk operation location error cause))

end Steps

/-! ### Publication -/

section Publication

variable {α : Type}

/-- `OutputTransactionJournal::create`. -/
def createJournal (count : Nat) : Io α Unit := do
  touch
  createTemporaryJournal
  let written : Io α Unit := do
    writeHeader count
    touch
    renameJournal
    touch
  ExceptT.mk (do
    match ← written.run with
    | .ok () => return .ok ()
    | .error error => do
      let _ ← removeTemporaryJournal.run
      return .error error)

/-- `OutputTransactionJournal::mark_prepared`. -/
def markPrepared (hadPrevious : List Bool) : Io α Unit :=
  let written : Io α Unit := do
    writePrepared hadPrevious
    renamePrepared
    touch
  ExceptT.mk (do
    match ← written.run with
    | .ok () => return .ok ()
    | .error error => do
      let _ ← removePrepared.run
      return .error error)

/-- `OutputTransactionJournal::cleanup`. -/
def cleanupJournal : Io α Unit := do
  removeJournal
  touch

/-- `prepare_typed_staged_outputs`. -/
def prepareStagedOutputs (count : Nat) : Fallible α Unit := do
  if count = 0 then
    throw (.mk "resolve transaction root for" .parent (.invalidInput "output transaction is empty") none)
  failing "create parent directory for" .parent touch none
  failing "create staging directory for" .staged createStaged none
  ExceptT.mk (do
    match ← (createJournal count).run with
    | .ok () => return .ok ()
    | .error error => do
      let _ ← removeStaged.run
      return .error (.mk "create recovery journal for" .staged error none))

/-- `cleanup_staged_outputs`. -/
def cleanupStagedOutputs (cause : Option Failure) : Fallible α Unit := do
  failing "clean up" .staged removeStaged cause
  failing "sync cleanup directory for" .parent touch cause
  failing "clean up recovery journal for" .journal cleanupJournal cause
  match cause with
  | some cause => throw cause
  | none => return ()

/-- The checks before anything is visible: which destinations have a previous output. -/
def inspectOutputs : List Nat → Fallible α (List Bool)
  | [] => return []
  | index :: rest => do
    let staged ← failing "validate and sync staged" (.entry (.output index))
      (inspect fun disk => (disk.staged.bind fun area => area (.output index)).isSome) none
    if !staged then throw (.mk "validate and sync staged" (.entry (.output index)) .notFound none)
    failing "create parent directory for" .parent touch none
    let hadPrevious ← failing "inspect previous" (.destination index)
      (inspect fun disk => (disk.destination index).isSome) none
    return hadPrevious :: (← inspectOutputs rest)

/-- `StagedOutputPublication`. -/
structure Publication where
  index : Nat
  hadPrevious : Bool
  backedUp : Bool
  installed : Bool

/-- The entries that were not reached. -/
def untouched (entries : List (Nat × Bool)) : List Publication :=
  entries.map fun entry => ⟨entry.1, entry.2, false, false⟩

/-- Moves a previous output to its backup. -/
def backUpPrevious (index : Nat) (hadPrevious : Bool) : Process α (Except IoError Unit) :=
  if hadPrevious then (moveIn index (.backup index)).run else pure (.ok ())

/-- Moves the outputs to their destinations, and says how far it got. -/
def installOutputs : List (Nat × Bool) → Process α (List Publication × Except Failure Unit)
  | [] => return ([], .ok ())
  | (index, hadPrevious) :: rest => do
    match ← backUpPrevious index hadPrevious with
    | .error error => return (⟨index, hadPrevious, false, false⟩ :: untouched rest,
        .error (.mk "back up previous" (.destination index) error none))
    | .ok () =>
      match ← (moveOut (.output index) index).run with
      | .error error => return (⟨index, hadPrevious, hadPrevious, false⟩ :: untouched rest,
          .error (.mk "install" (.destination index) error none))
      | .ok () => do
        let (publications, result) ← installOutputs rest
        return (⟨index, hadPrevious, hadPrevious, true⟩ :: publications, result)

/-- Moves one output back. -/
def rollbackOutput (cause : Failure) (publication : Publication) : Fallible α Unit := do
  if publication.installed then
    failing "roll back installed" (.destination publication.index)
      (moveIn publication.index (.output publication.index)) (some cause)
  if publication.backedUp then
    failing "restore previous" (.destination publication.index)
      (moveOut (.backup publication.index) publication.index) (some cause)

/-- Moves the outputs back. -/
def rollbackOutputs (cause : Failure) : List Publication → Fallible α Unit
  | [] => return ()
  | publication :: rest => do
    rollbackOutput cause publication
    rollbackOutputs cause rest

/-- `rollback_staged_outputs`. -/
def rollbackStagedOutputs (publications : List Publication) (cause : Failure) : Fallible α Unit := do
  rollbackOutputs cause publications.reverse
  failing "sync rolled-back output directory for" .parent touch (some cause)
  cleanupStagedOutputs (some cause)

/-- Everything that is fallible before visible destinations are touched. -/
def prepareOutputs (count : Nat) : Fallible α (List Bool) := do
  let hadPrevious ← inspectOutputs (List.range count)
  failing "sync prepared transaction" .staged touch none
  failing "persist prepared recovery state for" .journal (markPrepared hadPrevious) none
  return hadPrevious

/-- The commit: the moves, and the rename of the staging directory. -/
def commitOutputs (entries : List (Nat × Bool)) : Process α (List Publication × Except Failure Unit) := do
  let (publications, installed) ← installOutputs entries
  match installed with
  | .error cause => return (publications, .error cause)
  | .ok () => do
    let marked : Fallible α Unit := do
      failing "sync committed output directory for" .parent touch none
      failing "mark transaction committed at" .staged commitStaged none
    return (publications, ← marked.run)

/-- `publish_staged_outputs`. -/
def publishStagedOutputs (count : Nat) : Fallible α Unit :=
  ExceptT.mk (do
    match ← (prepareOutputs count).run with
    | .error cause => (cleanupStagedOutputs (some cause)).run
    | .ok hadPrevious => do
      let (publications, committed) ← commitOutputs ((List.range count).zip hadPrevious)
      match committed with
      | .error cause => (rollbackStagedOutputs publications cause).run
      | .ok () => do
        let _ ← touch.run
        let cleaned ← removeCommitted.run
        let _ ← touch.run
        match cleaned with
        | .error _ => return .ok ()
        | .ok () => do
          let _ ← cleanupJournal.run
          return .ok ())

/-- Writes the outputs to the staging directory. -/
def writeOutputs (outputs : Nat → α) : List Nat → Fallible α Unit
  | [] => return ()
  | index :: rest => do
    failing "restore cached" (.entry (.output index)) (writeEntry (.output index) (outputs index)) none
    writeOutputs outputs rest

/-- `restore_cached_external_outputs`: the outputs are staged and published. -/
def restoreOutputs (count : Nat) (outputs : Nat → α) : Fallible α Unit := do
  prepareStagedOutputs count
  ExceptT.mk (do
    match ← (writeOutputs outputs (List.range count)).run with
    | .error cause => (cleanupStagedOutputs (some cause)).run
    | .ok () => (publishStagedOutputs count).run)

end Publication

/-! ### Recovery -/

section Recovery

variable {α : Type}

/-- `MAX_OUTPUTS`. -/
def maxOutputs : Nat := 4096

/-- `remove_directory`. -/
def removeDirectory (operation : String) (location : Location) (remove : Io α Unit) : Fallible α Unit :=
  failing operation location (do remove; touch) none

/-- `read_header`: how many outputs the journal names. -/
def readHeader : Fallible α Nat := do
  match ← failing "read journal for" .journal (inspect fun disk => disk.journal.bind Journal.header) none with
  | none => throw (.mk "read journal for" .journal .notFound none)
  | some count =>
    if 0 < count ∧ count ≤ maxOutputs then return count
    else throw (.mk "decode journal for" .journal (.invalidData "invalid output transaction journal") none)

/-- `read_prepared`. -/
def readPrepared (count : Nat) : Fallible α (Option (List Bool)) := do
  match ← failing "read prepared state for" .journal (inspect fun disk => disk.journal.bind Journal.prepared) none with
  | none => return none
  | some hadPrevious =>
    if hadPrevious.length = count ∧ count ≤ maxOutputs then return some hadPrevious
    else throw (.mk "decode prepared state for" .journal (.invalidData "invalid prepared transaction state") none)

/-- One output of `rollback_interrupted`, by what is there of it. -/
def rollbackSeen (index : Nat) (hadPrevious temporary backup destination : Bool) : Fallible α Unit := do
  if hadPrevious then
    if backup then
      if destination then
        failing "retire interrupted output for" (.destination index) (moveIn index (.output index)) none
      failing "restore previous output for" (.destination index) (moveOut (.backup index) index) none
    else if !temporary || !destination then
      throw (.mk "reconstruct previous output for" (.destination index)
        (.invalidData "prepared transaction lost its previous output or backup") none)
  else if temporary then
    if destination then
      throw (.mk "reconstruct absent output for" (.destination index)
        (.invalidData "uninstalled transaction output unexpectedly exists") none)
  else if destination then
    failing "retire newly installed output for" (.destination index) (moveIn index (.output index)) none
  else
    throw (.mk "reconstruct installed output for" (.destination index)
      (.invalidData "installed transaction output is missing") none)

/-- One output of `rollback_interrupted`. -/
def rollbackEntry (index : Nat) (hadPrevious : Bool) : Fallible α Unit := do
  let temporary ← failing "inspect output for" (.entry (.output index))
    (inspect fun disk => (disk.staged.bind fun area => area (.output index)).isSome) none
  let backup ← failing "inspect output for" (.entry (.backup index))
    (inspect fun disk => (disk.staged.bind fun area => area (.backup index)).isSome) none
  let destination ← failing "inspect output for" (.destination index)
    (inspect fun disk => (disk.destination index).isSome) none
  rollbackSeen index hadPrevious temporary backup destination

/-- The loop of `rollback_interrupted`, over the outputs from the last to the first. -/
def rollbackEntries : List (Nat × Bool) → Fallible α Unit
  | [] => return ()
  | (index, hadPrevious) :: rest => do
    rollbackEntry index hadPrevious
    rollbackEntries rest

/-- `rollback_interrupted`. -/
def rollbackInterrupted (hadPrevious : List Bool) : Fallible α Unit := do
  rollbackEntries ((List.range hadPrevious.length).zip hadPrevious).reverse
  failing "sync rolled-back directory for" .parent touch none

/-- The end of `recover_journal`, when the staging directory is there and was not renamed. -/
def recoverStaged (count : Nat) : Fallible α Unit := do
  match ← readPrepared count with
  | none =>
    removeDirectory "clean unprepared staging for" .staged removeStaged
    removeDirectory "clean unprepared journal for" .journal removeJournal
  | some hadPrevious =>
    rollbackInterrupted hadPrevious
    removeDirectory "clean rolled-back staging for" .staged removeStaged
    removeDirectory "clean rolled-back journal for" .journal removeJournal

/-- `recover_journal`, under the locks of the outputs. -/
def recoverJournal : Fallible α Unit := do
  let header ← readHeader
  failing "acquire output lock for" .parent touch none
  if !(← failing "inspect directory for" .journal (inspect fun disk => disk.journal.isSome) none) then return ()
  let current ← readHeader
  if current ≠ header then
    throw (.mk "revalidate locked journal for" .journal
      (.invalidData "output transaction journal changed while locks were acquired") none)
  let staged ← failing "inspect directory for" .staged (inspect fun disk => disk.staged.isSome) none
  let committed ← failing "inspect directory for" .committed (inspect fun disk => disk.committed.isSome) none
  if staged && committed then
    throw (.mk "resolve state for" .staged
      (.invalidData "both staged and committed transaction directories exist") none)
  else if committed then
    removeDirectory "clean accepted directory for" .committed removeCommitted
    removeDirectory "clean journal for" .journal removeJournal
  else if !staged then
    removeDirectory "clean completed journal for" .journal removeJournal
  else
    recoverStaged header

/-- `recover_interrupted_output_transactions`, when the process that ran the transaction is gone. -/
def recoverInterrupted : Fallible α Unit := do
  let temporary ← failing "scan" .journal (inspect fun disk => disk.temporaryJournal.isSome) none
  let journal ← failing "inspect journal entry for" .journal (inspect fun disk => disk.journal.isSome) none
  if temporary then
    removeDirectory "retire abandoned temporary journal in" .temporaryJournal removeTemporaryJournal
  if journal then
    recoverJournal

end Recovery

end Nia.Build.Output
