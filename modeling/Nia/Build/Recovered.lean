import Nia.Build.Framed
import Nia.Build.Published

/-! Recovery keeps the disk consistent, and cleans what it can.

Recovery reads from what is left which of the states the transaction was in, and finishes it: a committed
transaction is cleaned up, any other one is rolled back and removed. It refuses a journal directory that lost
its `journal.bin`, and a prepared transaction that lost one of its outputs; and it does not see a staging
directory without a journal. Nothing else stops it (`Recoverable`). -/
namespace Nia.Build.Output

open Lib.Interrupts

variable {α : Type} {tx : Transaction α} {faulty : Bool}

/-- A prepared transaction lost an output: it is not staged any more, and was not moved either. -/
def Lost (hadPrevious : List Bool) (area : Area α) (disk : Disk α) (i : Nat) : Prop :=
  area (.output i) = none ∧
    if hadPrevious[i]? = some true then area (.backup i) = none else disk.destination i = none

/-- What recovery needs. -/
structure Recoverable (count : Nat) (disk : Disk α) : Prop where
  bounded : disk.journal.isSome → count ≤ maxOutputs
  header : ∀ journal, disk.journal = some journal → journal.header.isSome
  journal : disk.staged.isSome → disk.journal.isSome
  outputs : ∀ journal hadPrevious area, disk.journal = some journal → journal.prepared = some hadPrevious →
    disk.staged = some area → ∀ i < count, ¬ Lost hadPrevious area disk i

/-! ### Rolling back -/

variable {pre : Disk α → Prop}

section Rollback

variable {i : Nat} {place : Nat → Place}

theorem struck_broken {process : Fallible α Unit} {good : Unit → Disk α → Prop}
    (h : Spec tx faulty pre process good (Struck tx faulty place)) :
    Spec tx faulty pre process good (Broken tx faulty) :=
  h.mono (fun _ _ hdisk => hdisk) fun _ hdisk => ⟨hdisk.1, .moving place hdisk.2⟩

theorem rollbackEntry_spec_of_seen {hadPrevious temporary backup destination : Bool}
    {good : Unit → Disk α → Prop} (hpre : ∀ disk, pre disk → Consistent tx disk)
    (htemporary : ∀ disk, pre disk → (disk.staged.bind fun area => area (.output i)).isSome = temporary)
    (hbackup : ∀ disk, pre disk → (disk.staged.bind fun area => area (.backup i)).isSome = backup)
    (hdestination : ∀ disk, pre disk → (disk.destination i).isSome = destination)
    (hseen : Spec tx faulty pre (rollbackSeen i hadPrevious temporary backup destination) good
      (Broken tx faulty)) : Spec tx faulty pre (rollbackEntry i hadPrevious) good (Broken tx faulty) := by
  have hbad : faulty = true → ∀ disk, pre disk → Broken tx faulty disk :=
    fun hfaulty disk hdisk => ⟨hfaulty, hpre disk hdisk⟩
  exact inspect_then htemporary hpre hbad (inspect_then hbackup hpre hbad (inspect_then hdestination hpre hbad hseen))

/-- An output that is being moved is moved back, wherever it is. -/
theorem rollbackEntry_moving (hi : i < tx.count) : Spec tx faulty (Moving tx place) (rollbackEntry i (tx.old i).isSome)
      (fun _ => Moving tx (Function.update place i .idle)) (Broken tx faulty) := by
  have hcrash : ∀ disk, Moving tx place disk → Consistent tx disk := fun disk => .moving place
  -- What is seen of the output is determined by its place.
  have hseen : ∀ destination output backup : Option α → Prop, (∀ d o b,
      (place i).Holds (tx.old i) (tx.new i) d o b → destination d ∧ output o ∧ backup b) →
      ∀ disk, Moving tx place disk → destination (disk.destination i) ∧
        output (disk.staged.bind fun area => area (.output i)) ∧
        backup (disk.staged.bind fun area => area (.backup i)) := by
    intro destination output backup hholds disk hdisk
    obtain ⟨area, hstaged, hplaced⟩ := hdisk.placed
    simpa [hstaged] using hholds _ _ _ (hplaced i hi)
  cases hplace : place i with
  | idle =>
    have hsame : Function.update place i .idle = place := by rw [← hplace, Function.update_eq_self]
    rw [hplace] at hseen
    have hknown := hseen (fun d => d.isSome = (tx.old i).isSome) (fun o => o.isSome = true)
      (fun b => b.isSome = false) (by rintro d o b ⟨rfl, rfl, rfl⟩; simp)
    rw [hsame]
    refine rollbackEntry_spec_of_seen hcrash (fun d h => (hknown d h).2.1) (fun d h => (hknown d h).2.2)
      (fun d h => (hknown d h).1) ?_
    cases (tx.old i).isSome with
    | true | false => exact Triple.pureExcept fun _ h => h
  | backed =>
    rw [hplace] at hseen
    have hknown := hseen (fun d => d.isSome = false) (fun o => o.isSome = true)
      (fun b => b.isSome = true ∧ (tx.old i).isSome = true)
      (by rintro d o b ⟨hold, rfl, rfl, rfl⟩; simp [hold])
    intro disk faults hfaults hdisk
    rw [(hknown disk hdisk).2.2.2]
    refine rollbackEntry_spec_of_seen hcrash (fun d h => (hknown d h).2.1) (fun d h => (hknown d h).2.2.1)
      (fun d h => (hknown d h).1) ?_ disk faults hfaults hdisk
    exact struck_broken (failing_spec (restore_spec hi hplace))
  | installed =>
    rw [hplace] at hseen
    have hknown := hseen (fun d => d.isSome = true) (fun o => o.isSome = false)
      (fun b => b.isSome = (tx.old i).isSome) (by rintro d o b ⟨rfl, rfl, rfl⟩; simp)
    refine rollbackEntry_spec_of_seen hcrash (fun d h => (hknown d h).2.1) (fun d h => (hknown d h).2.2)
      (fun d h => (hknown d h).1) ?_
    have hretire : Spec tx faulty _ _ _ _ := retire_spec hi hplace
    cases hold : tx.old i with
    | none =>
      rw [hold] at hretire
      exact struck_broken (failing_spec hretire)
    | some value =>
      have hbacked : Function.update place i (retired (tx.old i)) i = .backed := by simp [retired, hold]
      have hrestore : Spec tx faulty _ _ _ _ := restore_spec hi hbacked
      rw [Function.update_idem] at hrestore
      exact Triple.bindExcept (struck_broken (failing_spec hretire)) fun _ =>
        struck_broken (failing_spec hrestore)

/-- Of a transaction at rest there is nothing to move back. -/
theorem rollbackEntry_resting {disk : Disk α} (h : Resting tx disk) (hi : i < tx.count)
    (hstaged : faulty = false → (disk.staged.bind fun area => area (.output i)).isSome) :
    Spec tx faulty (· = disk) (rollbackEntry i (tx.old i).isSome) (fun _ => (· = disk))
      (Broken tx faulty) := by
  obtain ⟨area, harea, hbackup⟩ := h.staged
  have hcrash : ∀ d, d = disk → Consistent tx d := fun d hd => hd ▸ .resting h
  have htemporary : ∀ d, d = disk → (d.staged.bind fun area => area (.output i)).isSome =
      (disk.staged.bind fun area => area (.output i)).isSome := fun d hd => by rw [hd]
  have hnone : ∀ d, d = disk → (d.staged.bind fun area => area (.backup i)).isSome = false := by
    rintro d rfl
    simp [harea, hbackup i hi]
  have hold : ∀ d, d = disk → (d.destination i).isSome = (tx.old i).isSome := by
    rintro d rfl
    rw [h.destinations i hi]
  refine rollbackEntry_spec_of_seen hcrash htemporary hnone hold ?_
  cases hseen : (disk.staged.bind fun area => area (.output i)).isSome with
  | true =>
    cases (tx.old i).isSome with
    | true | false => exact Triple.pureExcept fun _ hd => hd
  | false =>
    have hfaulty : faulty = true := by
      cases faulty with
      | true => rfl
      | false => exact absurd (hstaged rfl) (by simp [hseen])
    cases (tx.old i).isSome with
    | true | false => exact Triple.throwExcept fun d hd => ⟨hfaulty, hcrash d hd⟩

/-- The outputs other than these were moved back. -/
def Remaining (tx : Transaction α) (todo : List Nat) (disk : Disk α) : Prop :=
  ∃ place, Moving tx place disk ∧ ∀ i < tx.count, i ∉ todo → place i = .idle

theorem rollbackEntries_moving {todo : List (Nat × Bool)}
    (htodo : ∀ entry ∈ todo, entry.1 < tx.count ∧ entry.2 = (tx.old entry.1).isSome) :
    Spec tx faulty (Remaining tx (todo.map Prod.fst)) (rollbackEntries todo)
      (fun _ => Remaining tx []) (Broken tx faulty) := by
  induction todo with
  | nil => exact Triple.pureExcept fun _ hdisk => hdisk
  | cons entry rest ih =>
    obtain ⟨index, had⟩ := entry
    obtain ⟨⟨hindex, hhad⟩, hrest⟩ := List.forall_mem_cons.mp htodo
    rintro disk faults hfaults ⟨place, hmoving, hidle⟩
    have hentry : Spec tx faulty (Moving tx place) (rollbackEntry index had) _ _ :=
      hhad ▸ rollbackEntry_moving hindex
    refine Triple.bindExcept hentry (fun _ => ?_) disk faults hfaults hmoving
    refine (ih hrest).weaken (fun d hd => ⟨_, hd, fun i hi hnot => ?_⟩) fun _ _ h => h
    by_cases heq : i = index
    · subst heq
      exact Function.update_self ..
    · rw [Function.update_of_ne heq]
      exact hidle i hi (by simp [heq, hnot])

theorem rollbackEntries_resting {disk : Disk α} (h : Resting tx disk) {todo : List (Nat × Bool)}
    (htodo : ∀ entry ∈ todo, entry.1 < tx.count ∧ entry.2 = (tx.old entry.1).isSome)
    (hstaged : faulty = false → ∀ i < tx.count, (disk.staged.bind fun area => area (.output i)).isSome) :
    Spec tx faulty (· = disk) (rollbackEntries todo) (fun _ => (· = disk)) (Broken tx faulty) := by
  induction todo with
  | nil => exact Triple.pureExcept fun _ hdisk => hdisk
  | cons entry rest ih =>
    obtain ⟨index, had⟩ := entry
    obtain ⟨⟨hindex, hhad⟩, hrest⟩ := List.forall_mem_cons.mp htodo
    have hentry : Spec tx faulty (· = disk) (rollbackEntry index had) _ _ :=
      hhad ▸ rollbackEntry_resting h hindex fun hfaulty => hstaged hfaulty index hindex
    exact Triple.bindExcept hentry fun _ => ih hrest

theorem length_hadPrevious (tx : Transaction α) : tx.hadPrevious.length = tx.count := by
  simp [Transaction.hadPrevious]

theorem rollbackInterrupted_spec (hentries : Spec tx faulty pre (rollbackEntries tx.entries.reverse)
      (fun _ => Resting tx) (Broken tx faulty)) :
    Spec tx faulty pre (rollbackInterrupted tx.hadPrevious) (fun _ => Resting tx)
      (Broken tx faulty) := by
  unfold rollbackInterrupted
  rw [length_hadPrevious]
  exact Triple.bindExcept hentries fun _ => failing_spec (touch_keeps fun _ => .resting)

end Rollback

/-! ### Recovery of one transaction -/

section Recovery

variable {disk : Disk α} {operation operation' : String} {location : Location}

/-- What is read while the disk is known. -/
theorem look_disk (h : Consistent tx disk) {β : Type} {look : Disk α → β} {value : β} (hlook : look disk = value) :
    Spec tx faulty (· = disk) (failing operation location (inspect look) none)
      (fun found d => d = disk ∧ found = value) (Broken tx faulty) :=
  failing_spec (inspect_keeps (fun _ hd => hd ▸ h) fun _ hd => by rw [hd, hlook])

theorem look_then (h : Consistent tx disk) {β γ : Type} {look : Disk α → β} {next : β → Fallible α γ}
    {good : γ → Disk α → Prop} (hnext : Spec tx faulty (· = disk) (next (look disk)) good (Broken tx faulty)) :
    Spec tx faulty (· = disk) (failing operation location (inspect look) none >>= next) good (Broken tx faulty) :=
  Triple.bindExcept (look_disk h rfl) fun _ => Triple.assume fun hfound => hfound ▸ hnext

theorem broken_of_not (h : Consistent tx disk) (hfaulty : faulty ≠ false) : ∀ d, d = disk → Broken tx faulty d := by
  rintro d rfl
  exact ⟨by simpa using hfaulty, h⟩

variable {journal : Journal}

/-- The journal that a consistent transaction left names its outputs, if it can be read. -/
theorem Consistent.header (h : Consistent tx disk) (hjournal : disk.journal = some journal)
    {m : Nat} (hm : journal.header = some m) : m = tx.count := by
  have hjournaled : ∀ {prepared}, Journaled tx disk prepared → m = tx.count := by
    rintro prepared ⟨other, hother, hheader, -⟩
    obtain rfl := Option.some.inj (hjournal.symm.trans hother)
    exact Option.some.inj (hm.symm.trans hheader)
  cases h with
  | settled h => exact h.journal journal hjournal m hm
  | resting h => exact Option.some.inj (hm.symm.trans (h.journal journal hjournal).1)
  | moving place h | committed h => exact hjournaled h.journal

theorem readHeader_spec (hcount : 0 < tx.count) (h : Consistent tx disk)
    (hjournal : disk.journal = some journal) (hrecoverable : faulty = false → Recoverable tx.count disk) :
    Spec tx faulty (· = disk) readHeader (fun found d => d = disk ∧ (found = tx.count ∧ tx.count ≤ maxOutputs))
      (Broken tx faulty) := by
  refine look_then h ?_
  rw [hjournal, Option.bind_some]
  cases hheader : journal.header with
  | none =>
    refine Triple.throwExcept (broken_of_not h fun hfaulty => ?_)
    simpa [hheader] using (hrecoverable hfaulty).header journal hjournal
  | some m =>
    obtain rfl := h.header hjournal hheader
    simp only
    split_ifs with hbounds
    · exact Triple.pureExcept fun _ hd => ⟨hd, rfl, hbounds.2⟩
    · refine Triple.throwExcept (broken_of_not h fun hfaulty => ?_)
      exact hbounds ⟨hcount, (hrecoverable hfaulty).bounded (by simp [hjournal])⟩

theorem removeDirectory_spec {good : Disk α → Prop} {remove : Io α Unit} (hgood : ∀ d, good d → Consistent tx d)
    (h : Spec tx faulty pre remove (fun _ => good) (Broken tx faulty)) :
    Spec tx faulty pre (removeDirectory operation location remove) (fun _ => good) (Broken tx faulty) :=
  failing_spec (Triple.bindExcept h fun _ => touch_keeps hgood)

/-- A transaction at rest is removed. -/
theorem removeResting_spec : Spec tx faulty (Resting tx)
      (do removeDirectory operation .staged removeStaged; removeDirectory operation' .journal removeJournal :
        Fallible α Unit)
      (fun _ => Done tx) (Broken tx faulty) :=
  Triple.bindExcept (removeDirectory_spec (fun _ => .settled) removeStaged_spec) fun _ =>
    removeDirectory_spec (fun _ hd => .settled hd.1) removeJournal_spec

/-- The entries that recovery rolls back, from the last to the first. -/
theorem mem_reverse_entries {entry : Nat × Bool} (h : entry ∈ tx.entries.reverse) :
    entry.1 < tx.count ∧ entry.2 = (tx.old entry.1).isSome :=
  mem_entries (List.mem_reverse.mp h)

theorem readPrepared_spec (h : Consistent tx disk) (hjournal : disk.journal = some journal)
    (hprepared : journal.prepared = none ∨ journal.prepared = some tx.hadPrevious) (hbounds : tx.count ≤ maxOutputs) :
    Spec tx faulty (· = disk) (readPrepared tx.count) (fun found d => d = disk ∧ found = journal.prepared)
      (Broken tx faulty) := by
  refine look_then h ?_
  rw [hjournal, Option.bind_some]
  rcases hprepared with hprepared | hprepared
  · rw [hprepared]
    exact Triple.pureExcept fun _ hd => ⟨hd, rfl⟩
  · rw [hprepared]
    simp only [length_hadPrevious, hbounds, and_self, if_true]
    exact Triple.pureExcept fun _ hd => ⟨hd, rfl⟩

/-- A transaction at rest lost the outputs that are not staged any more. -/
theorem Resting.lost_iff (h : Resting tx disk) {area : Area α} (harea : disk.staged = some area) {i : Nat}
    (hi : i < tx.count) : Lost tx.hadPrevious area disk i ↔ area (.output i) = none := by
  obtain ⟨area', harea', hbackup⟩ := h.staged
  obtain rfl := Option.some.inj (harea.symm.trans harea')
  have hhad : tx.hadPrevious[i]? = some (tx.old i).isSome := by simp [Transaction.hadPrevious, hi]
  unfold Lost
  rw [hhad, hbackup i hi, h.destinations i hi]
  cases tx.old i with
  | none => simp
  | some value => simp

theorem recoverStaged_resting (h : Resting tx disk) (hjournal : disk.journal = some journal)
    (hbounds : tx.count ≤ maxOutputs) (hrecoverable : faulty = false → Recoverable tx.count disk) :
    Spec tx faulty (· = disk) (recoverStaged tx.count) (fun _ => Done tx)
      (Broken tx faulty) := by
  obtain ⟨-, hprepared⟩ := h.journal journal hjournal
  refine Triple.bindExcept (readPrepared_spec (.resting h) hjournal hprepared hbounds) fun found => ?_
  refine Triple.assume fun hfound => ?_
  subst hfound
  rcases hprepared with hprepared | hprepared
  · rw [hprepared]
    exact removeResting_spec.weaken (fun d hd => hd ▸ h) fun _ _ h => h
  · rw [hprepared]
    refine Triple.bindExcept (rollbackInterrupted_spec ?_) fun _ => removeResting_spec
    refine (rollbackEntries_resting h (fun _ => mem_reverse_entries) ?_).mono (fun _ _ hd => hd ▸ h) fun _ hd => hd
    intro hfaulty i hi
    obtain ⟨area, harea, -⟩ := h.staged
    have hkept := (hrecoverable hfaulty).outputs journal _ area hjournal hprepared harea i hi
    rw [h.lost_iff harea hi] at hkept
    simpa [harea, Option.isSome_iff_ne_none] using hkept

theorem recoverStaged_moving {place : Nat → Place} (h : Moving tx place disk) (hbounds : tx.count ≤ maxOutputs) :
    Spec tx faulty (· = disk) (recoverStaged tx.count) (fun _ => Done tx)
      (Broken tx faulty) := by
  obtain ⟨journal, hjournal, -, hprepared⟩ := h.journal
  refine Triple.bindExcept (readPrepared_spec (.moving place h) hjournal (.inr hprepared) hbounds) fun found => ?_
  refine Triple.assume fun hfound => ?_
  rw [hfound, hprepared]
  refine Triple.bindExcept (rollbackInterrupted_spec ?_) fun _ => removeResting_spec
  refine (rollbackEntries_moving fun _ => mem_reverse_entries).weaken (fun d hd => ?_) fun result d hd => ?_
  · refine ⟨place, hd ▸ h, fun i hi hnot => absurd ?_ hnot⟩
    rw [List.map_reverse, map_fst_entries, List.mem_reverse]
    exact List.mem_range.mpr hi
  · cases result with
    | ok _ =>
      obtain ⟨place', hmoving, hidle⟩ := hd
      exact (hmoving.congr fun i hi => hidle i hi (by simp)).resting
    | error _ => exact hd

theorem recoverJournal_spec (hcount : 0 < tx.count) (h : Consistent tx disk)
    (hjournal : disk.journal = some journal) (hrecoverable : faulty = false → Recoverable tx.count disk) :
    Spec tx faulty (· = disk) recoverJournal (fun _ => Done tx) (Broken tx faulty) := by
  have hheader : Spec tx faulty _ _ _ _ := readHeader_spec hcount h hjournal hrecoverable
  refine Triple.bindExcept hheader fun header => Triple.assume fun ⟨hheader', hbounds⟩ => ?_
  subst hheader'
  refine failing_then (touch_keeps fun d hd => hd ▸ h) fun _ => look_then h ?_
  rw [hjournal]
  refine Triple.bindExcept hheader fun current => Triple.assume fun ⟨hcurrent, _⟩ => ?_
  subst hcurrent
  simp only [ne_eq, not_true_eq_false, if_false]
  refine look_then h (look_then h ?_)
  cases h with
  | settled h =>
    rw [h.staged, h.committed]
    refine (removeDirectory_spec (fun _ hd => ?_) removeJournal_spec).weaken (fun d hd => hd ▸ h) fun _ _ h => h
    exact .settled hd.1
  | resting h =>
    obtain ⟨area, hstaged, -⟩ := h.staged
    rw [hstaged, h.committed]
    exact recoverStaged_resting h hjournal hbounds hrecoverable
  | moving place h =>
    obtain ⟨area, hstaged, -⟩ := h.placed
    rw [hstaged, h.committed]
    exact recoverStaged_moving h hbounds
  | committed h =>
    rw [h.staged, h.committed]
    refine Triple.weaken ?_ (fun d hd => hd ▸ h) fun _ _ h => h
    refine Triple.bindExcept (removeDirectory_spec (fun _ => .settled) removeCommitted_spec) fun _ => ?_
    exact removeDirectory_spec (fun _ hd => .settled hd.1) removeJournal_spec

/-! ### Recovery -/

/-- The temporary journal is no part of the transaction. -/
theorem Consistent.of_temporaryJournal (h : Consistent tx disk) (header : Option (Option Nat)) :
    Consistent tx { disk with temporaryJournal := header } := by
  cases h with
  | settled h => exact .settled ⟨h.staged, h.committed, h.journal, h.destinations⟩
  | resting h => exact .resting (h.of_temporaryJournal header)
  | moving place h => exact .moving place ⟨h.committed, h.journal, h.placed⟩
  | committed h => exact .committed ⟨h.staged, h.committed, h.journal, h.destinations⟩

theorem Recoverable.of_temporaryJournal (h : Recoverable tx.count disk) (header : Option (Option Nat)) :
    Recoverable tx.count { disk with temporaryJournal := header } :=
  ⟨h.bounded, h.header, h.journal, h.outputs⟩

/-- What recovery leaves when it succeeds. -/
structure Finished (tx : Transaction α) (faulty : Bool) (disk : Disk α) : Prop where
  consistent : Consistent tx disk
  destinations : AllOld tx.count tx.old disk ∨ AllNew tx.count tx.new disk
  temporaryJournal : disk.temporaryJournal = none
  clean : faulty = false → disk.staged = none ∧ disk.committed = none ∧ disk.journal = none

/-- Without a journal there is at most a staging directory, with nothing at stake. -/
theorem Consistent.finished (h : Consistent tx disk) (hjournal : disk.journal = none)
    (htemporary : disk.temporaryJournal = none) (hrecoverable : faulty = false → Recoverable tx.count disk) :
    Finished tx faulty disk := by
  cases h with
  | settled h => exact ⟨.settled h, h.destinations, htemporary, fun _ => ⟨h.staged, h.committed, hjournal⟩⟩
  | resting h =>
    refine ⟨.resting h, .inl h.destinations, htemporary, fun hfaulty => ?_⟩
    obtain ⟨area, hstaged, -⟩ := h.staged
    have hsome := (hrecoverable hfaulty).journal (by simp [hstaged])
    simp [hjournal] at hsome
  | moving place h | committed h =>
    obtain ⟨journal, hsome, -⟩ := h.journal
    exact absurd (hjournal.symm.trans hsome) nofun

theorem recoverJournal_if_spec (hcount : 0 < tx.count) (h : Consistent tx disk)
    (htemporary : disk.temporaryJournal = none) (hrecoverable : faulty = false → Recoverable tx.count disk) :
    Spec tx faulty (· = disk) (if disk.journal.isSome then recoverJournal else pure ())
      (fun _ => Finished tx faulty) (Broken tx faulty) := by
  cases hjournal : disk.journal with
  | none => exact Triple.pureExcept fun d hd => hd ▸ h.finished hjournal htemporary hrecoverable
  | some journal =>
    refine ((recoverJournal_spec hcount h hjournal hrecoverable).and (frames_recoverJournal none)).weaken
      (fun d hd => ⟨hd, hd ▸ htemporary⟩) fun result d hd => ?_
    cases result with
    | ok _ =>
      obtain ⟨⟨hsettled, hgone⟩, hframe⟩ := hd
      exact ⟨.settled hsettled, hsettled.destinations, hframe, fun _ => ⟨hsettled.staged, hsettled.committed, hgone⟩⟩
    | error _ => exact hd.1

theorem removeTemporaryJournal_spec (h : Consistent tx disk) : Spec tx faulty (· = disk) removeTemporaryJournal
      (fun _ => (· = { disk with temporaryJournal := none })) (Broken tx faulty) := by
  refine removal_spec (fun d hd => by rw [hd]) ?_
  rintro hfaulty fault d rfl
  exact ⟨h.of_temporaryJournal _, hfaulty, h.of_temporaryJournal _⟩

/-- **Whatever strikes it, recovery leaves a consistent disk; when it succeeds the destinations are all old or all
new; and without faults it succeeds on every disk that is recoverable and removes everything.** -/
theorem recoverInterrupted_spec (hcount : 0 < tx.count) (h : Consistent tx disk)
    (hrecoverable : faulty = false → Recoverable tx.count disk) :
    Spec tx faulty (· = disk) recoverInterrupted (fun _ => Finished tx faulty)
      (Broken tx faulty) := by
  refine look_then h (look_then h ?_)
  cases htemporary : disk.temporaryJournal with
  | none => exact recoverJournal_if_spec hcount h htemporary hrecoverable
  | some header =>
    have hleft : ∀ d, d = { disk with temporaryJournal := none } → Consistent tx d := by
      rintro d rfl
      exact h.of_temporaryJournal none
    refine Triple.bindExcept (removeDirectory_spec hleft (removeTemporaryJournal_spec h)) fun _ => ?_
    exact recoverJournal_if_spec hcount (h.of_temporaryJournal none) rfl fun hfaulty =>
      (hrecoverable hfaulty).of_temporaryJournal none

end Recovery

end Nia.Build.Output
