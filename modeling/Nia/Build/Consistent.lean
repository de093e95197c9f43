import Nia.Build.Publication

/-! What a transaction leaves on the disk, at every moment.

Outside of the moves nothing is at stake: the destinations are all old or all new (`Settled`, `Resting`,
`Committed`). While outputs are moved, each of them is in one of three places, and the old output is at its
destination or in its backup (`Place.Holds`, `Moving`). Every step of publication, rollback and recovery keeps
one of these states, whether it is done, fails or is where the process ends. -/
namespace Nia.Build.Output

open Lib.Interrupts Function

/-- What a transaction is about: how many outputs, what their destinations held, and what they are to hold. -/
structure Transaction (α : Type) where
  count : Nat
  old : Nat → Option α
  new : Nat → α

section States

variable {α : Type}

def AllOld (count : Nat) (old : Nat → Option α) (disk : Disk α) : Prop := ∀ i < count, disk.destination i = old i

def AllNew (count : Nat) (new : Nat → α) (disk : Disk α) : Prop := ∀ i < count, disk.destination i = some (new i)

variable (tx : Transaction α)

/-- What `prepared.bin` says. -/
def Transaction.hadPrevious : List Bool := (List.range tx.count).map fun i => (tx.old i).isSome

/-- How far the moves of one output got. -/
inductive Place where
  | idle
  | backed
  | installed

/-- Where the old and the new output of a place are. -/
def Place.Holds (old : Option α) (new : α) (destination output backup : Option α) : Place → Prop
  | .idle => destination = old ∧ output = some new ∧ backup = none
  | .backed => old.isSome ∧ destination = none ∧ output = some new ∧ backup = old
  | .installed => destination = some new ∧ output = none ∧ backup = old

/-- The journal names the outputs. -/
def Journaled (disk : Disk α) (prepared : Option (List Bool) → Prop) : Prop :=
  ∃ journal, disk.journal = some journal ∧ journal.header = some tx.count ∧ prepared journal.prepared

/-- The outputs are being moved. -/
structure Moving (place : Nat → Place) (disk : Disk α) : Prop where
  committed : disk.committed = none
  journal : Journaled tx disk (· = some tx.hadPrevious)
  placed : ∃ area, disk.staged = some area ∧
    ∀ i < tx.count, (place i).Holds (tx.old i) (tx.new i) (disk.destination i) (area (.output i)) (area (.backup i))

/-- Nothing was moved, or everything was moved back. -/
structure Resting (disk : Disk α) : Prop where
  staged : ∃ area, disk.staged = some area ∧ ∀ i < tx.count, area (.backup i) = none
  committed : disk.committed = none
  journal : ∀ journal, disk.journal = some journal →
    journal.header = some tx.count ∧ (journal.prepared = none ∨ journal.prepared = some tx.hadPrevious)
  destinations : AllOld tx.count tx.old disk

/-- The staging directory was renamed. -/
structure Committed (disk : Disk α) : Prop where
  staged : disk.staged = none
  committed : disk.committed.isSome
  journal : Journaled tx disk fun _ => True
  destinations : AllNew tx.count tx.new disk

/-- There is no staging directory. -/
structure Settled (disk : Disk α) : Prop where
  staged : disk.staged = none
  committed : disk.committed = none
  journal : ∀ journal, disk.journal = some journal → ∀ m, journal.header = some m → m = tx.count
  destinations : AllOld tx.count tx.old disk ∨ AllNew tx.count tx.new disk

/-- The states a crash may leave behind. -/
inductive Consistent (disk : Disk α) : Prop where
  | settled (h : Settled tx disk)
  | resting (h : Resting tx disk)
  | moving (place : Nat → Place) (h : Moving tx place disk)
  | committed (h : Committed tx disk)

end States

section Steps

variable {α β : Type} {tx : Transaction α} {faulty : Bool}
variable {ε : Type} {pre bad : Disk α → Prop}

/-- A process that may fail, between consistent states. -/
abbrev Spec (tx : Transaction α) (faulty : Bool) (pre : Disk α → Prop)
    (process : ExceptT ε (Proc (Disk α) (Fault α)) β) (good : β → Disk α → Prop) (bad : Disk α → Prop) : Prop :=
  Triple faulty (Consistent tx) pre process (onEither good bad)

theorem atomic_spec {apply : Disk α → Except IoError (β × Disk α)} {good : β → Disk α → Prop}
    (hcrash : ∀ disk, pre disk → Consistent tx disk) (hbad : faulty = true → ∀ disk, pre disk → bad disk)
    (happly : ∀ disk, pre disk → ∃ value disk', apply disk = .ok (value, disk') ∧ good value disk') :
    Spec tx faulty pre (atomic apply) good bad := by
  refine Triple.step (fun disk hdisk => ?_) fun hfaulty _ disk hdisk => ⟨hcrash disk hdisk, hbad hfaulty disk hdisk⟩
  obtain ⟨value, disk', hok, hgood⟩ := happly disk hdisk
  rw [hok]
  exact hgood

theorem removal_spec {remove : Disk α → Disk α} {torn : Fault α → Disk α → Disk α} {good : Unit → Disk α → Prop}
    (hgood : ∀ disk, pre disk → good () (remove disk))
    (htorn : faulty = true → ∀ fault disk, pre disk → Consistent tx (torn fault disk) ∧ bad (torn fault disk)) :
    Spec tx faulty pre (removal remove torn) good bad :=
  Triple.step hgood htorn

theorem touch_spec (hcrash : ∀ disk, pre disk → Consistent tx disk)
    (hbad : faulty = true → ∀ disk, pre disk → bad disk) : Spec tx faulty pre touch (fun _ => pre) bad :=
  atomic_spec hcrash hbad fun disk hdisk => ⟨(), disk, rfl, hdisk⟩

/-- Looking at what is known. -/
theorem inspect_spec {look : Disk α → β} {value : β} (hlook : ∀ disk, pre disk → look disk = value)
    (hcrash : ∀ disk, pre disk → Consistent tx disk) (hbad : faulty = true → ∀ disk, pre disk → bad disk) :
    Spec tx faulty pre (inspect look) (fun found disk => pre disk ∧ found = value) bad :=
  atomic_spec hcrash hbad fun disk hdisk => ⟨look disk, disk, rfl, hdisk, hlook disk hdisk⟩

section Failing

variable {io : Io α β} {operation : String} {location : Location} {cause : Option Failure}

theorem failing_spec {good : β → Disk α → Prop} (h : Spec tx faulty pre io good bad) :
    Spec tx faulty pre (failing operation location io cause) good bad := by
  refine Triple.bind h fun result => ?_
  cases result with
  | ok value | error error => exact Triple.pure fun disk hdisk => hdisk

variable {γ : Type} {next : β → Fallible α γ} {good : γ → Disk α → Prop}

/-- What follows a call that did not fail. -/
theorem failing_then {middle : β → Disk α → Prop} (h : Spec tx faulty pre io middle bad)
    (hnext : ∀ value, Spec tx faulty (middle value) (next value) good bad) :
    Spec tx faulty pre (failing operation location io cause >>= next) good bad :=
  Triple.bindExcept (failing_spec h) hnext

/-- What follows a look at what is known. -/
theorem inspect_then {look : Disk α → β} {value : β} (hlook : ∀ disk, pre disk → look disk = value)
    (hcrash : ∀ disk, pre disk → Consistent tx disk) (hbad : faulty = true → ∀ disk, pre disk → bad disk)
    (hnext : Spec tx faulty pre (next value) good bad) :
    Spec tx faulty pre (failing operation location (inspect look) cause >>= next) good bad :=
  failing_then (inspect_spec hlook hcrash hbad) fun _ => Triple.assume fun hfound => hfound ▸ hnext

end Failing

end Steps

/-! ### Moves -/

section Moves

variable {α : Type} {tx : Transaction α} {faulty : Bool} {place : Nat → Place}
variable {i : Nat}

/-- Only the places of the outputs count. -/
theorem Moving.congr {disk : Disk α} (h : Moving tx place disk) {place' : Nat → Place}
    (hsame : ∀ i < tx.count, place i = place' i) : Moving tx place' disk := by
  obtain ⟨area, hstaged, hplaced⟩ := h.placed
  refine ⟨h.committed, h.journal, area, hstaged, fun i hi => ?_⟩
  rw [← hsame i hi]
  exact hplaced i hi

/-- A move concerns the place of its output only. -/
theorem Moving.moved {disk : Disk α} (h : Moving tx place disk) {area : Area α}
    (hstaged : disk.staged = some area) {entry : Entry} (hentry : entry = .output i ∨ entry = .backup i)
    {value value' : Option α} {place' : Place}
    (hplace : place'.Holds (tx.old i) (tx.new i) value (update area entry value' (.output i))
      (update area entry value' (.backup i))) : Moving tx (update place i place') { disk with
      destination := update disk.destination i value
      staged := some (update area entry value') } := by
  obtain ⟨area', hstaged', hplaced⟩ := h.placed
  obtain rfl := Option.some.inj (hstaged.symm.trans hstaged')
  refine ⟨h.committed, h.journal, _, rfl, fun j hj => ?_⟩
  by_cases hij : j = i
  · subst hij
    simpa using hplace
  · have houtput : Entry.output j ≠ entry := by
      rcases hentry with rfl | rfl
      · simpa using hij
      · simp
    have hbackup : Entry.backup j ≠ entry := by
      rcases hentry with rfl | rfl
      · simp
      · simpa using hij
    simpa [hij, update_of_ne houtput, update_of_ne hbackup] using hplaced j hj

/-- A move that is struck leaves everything where it was. -/
def Struck (tx : Transaction α) (faulty : Bool) (place : Nat → Place) (disk : Disk α) : Prop :=
  faulty = true ∧ Moving tx place disk

/-- The action moves the output `i` to its new place, or is struck. -/
abbrev Moves {ε : Type} (tx : Transaction α) (faulty : Bool) (place : Nat → Place) (i : Nat)
    (action : ExceptT ε (Proc (Disk α) (Fault α)) Unit) (place' : Place) : Prop :=
  Spec tx faulty (Moving tx place) action (fun _ => Moving tx (update place i place')) (Struck tx faulty place)

theorem moveIn_spec {entry : Entry} {place' : Place} (hi : i < tx.count)
    (hentry : entry = .output i ∨ entry = .backup i)
    (hmove : ∀ destination output backup, (place i).Holds (tx.old i) (tx.new i) destination output backup →
      ∃ value, destination = some value ∧ place'.Holds (tx.old i) (tx.new i) none
        (if entry = .output i then some value else output) (if entry = .backup i then some value else backup)) :
    Moves tx faulty place i (moveIn i entry) place' := by
  refine atomic_spec (fun disk => .moving place) (fun hfaulty disk hdisk => ⟨hfaulty, hdisk⟩) fun disk hdisk => ?_
  obtain ⟨area, hstaged, hplaced⟩ := hdisk.placed
  obtain ⟨value, hvalue, hholds⟩ := hmove _ _ _ (hplaced i hi)
  simp only [hstaged, hvalue]
  refine ⟨_, _, rfl, hdisk.moved hstaged hentry ?_⟩
  simpa only [update_apply, eq_comm] using hholds

theorem moveOut_spec {entry : Entry} {place' : Place} (hi : i < tx.count)
    (hentry : entry = .output i ∨ entry = .backup i)
    (hmove : ∀ destination output backup, (place i).Holds (tx.old i) (tx.new i) destination output backup →
      ∃ value, (if entry = .output i then output else backup) = some value ∧
        place'.Holds (tx.old i) (tx.new i) (some value) (if entry = .output i then none else output)
          (if entry = .backup i then none else backup)) :
    Moves tx faulty place i (moveOut entry i) place' := by
  refine atomic_spec (fun disk => .moving place) (fun hfaulty disk hdisk => ⟨hfaulty, hdisk⟩) fun disk hdisk => ?_
  obtain ⟨area, hstaged, hplaced⟩ := hdisk.placed
  obtain ⟨value, hvalue, hholds⟩ := hmove _ _ _ (hplaced i hi)
  have hsource : area entry = some value := by
    rcases hentry with rfl | rfl <;> simpa using hvalue
  simp only [hstaged, hsource]
  refine ⟨_, _, rfl, hdisk.moved hstaged hentry ?_⟩
  simpa only [update_apply, eq_comm] using hholds

theorem backUp_spec (hi : i < tx.count) (hplace : place i = .idle) (hold : (tx.old i).isSome) :
    Moves tx faulty place i (moveIn i (.backup i)) .backed := by
  refine moveIn_spec hi (.inr rfl) fun destination output backup h => ?_
  rw [hplace] at h
  obtain ⟨rfl, rfl, rfl⟩ := h
  obtain ⟨value, hvalue⟩ := Option.isSome_iff_exists.mp hold
  exact ⟨value, hvalue, by simp [Place.Holds, hvalue]⟩

theorem install_spec (hi : i < tx.count) (hplace : place i = .backed ∨ place i = .idle ∧ tx.old i = none) :
    Moves tx faulty place i (moveOut (.output i) i) .installed := by
  refine moveOut_spec hi (.inl rfl) fun destination output backup h => ?_
  rcases hplace with hplace | ⟨hplace, hnone⟩
  · rw [hplace] at h
    obtain ⟨hold, rfl, rfl, rfl⟩ := h
    exact ⟨tx.new i, by simp, by simp [Place.Holds]⟩
  · rw [hplace] at h
    obtain ⟨rfl, rfl, rfl⟩ := h
    exact ⟨tx.new i, by simp, by simp [Place.Holds, hnone]⟩

/-- Where an output is that can be installed. -/
def retired (old : Option α) : Place := if old.isSome then .backed else .idle

theorem retire_spec (hi : i < tx.count) (hplace : place i = .installed) :
    Moves tx faulty place i (moveIn i (.output i)) (retired (tx.old i)) := by
  refine moveIn_spec hi (.inl rfl) fun destination output backup h => ?_
  rw [hplace] at h
  obtain ⟨rfl, rfl, rfl⟩ := h
  refine ⟨tx.new i, rfl, ?_⟩
  cases hold : tx.old i with
  | none | some value => simp [retired, Place.Holds]

/-- Once a previous output is backed up, the new one can be installed. -/
theorem backUpPrevious_spec (hi : i < tx.count) (hplace : place i = .idle) :
    Moves tx faulty place i (backUpPrevious i (tx.old i).isSome) (retired (tx.old i)) := by
  unfold backUpPrevious
  cases hold : tx.old i with
  | none =>
    have hsame : update place i .idle = place := by rw [← hplace, update_eq_self]
    simp only [Option.isSome_none, Bool.false_eq_true, if_false, retired]
    exact Triple.pure fun disk hdisk => (hsame.symm ▸ hdisk : Moving tx (update place i .idle) disk)
  | some value => exact backUp_spec hi hplace (hold ▸ rfl)

theorem restore_spec (hi : i < tx.count) (hplace : place i = .backed) :
    Moves tx faulty place i (moveOut (.backup i) i) .idle := by
  refine moveOut_spec hi (.inr rfl) fun destination output backup h => ?_
  rw [hplace] at h
  obtain ⟨hold, rfl, rfl, rfl⟩ := h
  obtain ⟨value, hvalue⟩ := Option.isSome_iff_exists.mp hold
  exact ⟨value, by simpa using hvalue, by simp [Place.Holds, hvalue]⟩

end Moves

/-! ### Publication -/

section Publication

variable {α : Type} {tx : Transaction α} {faulty : Bool}

/-- Where the moves of an output got according to its flags. -/
def Publication.place (publication : Publication) : Place :=
  if publication.installed then .installed else if publication.backedUp then .backed else .idle

/-- The flags are those of the moves that were done. -/
structure Publication.Tracks (old : Nat → Option α) (place : Nat → Place) (publication : Publication) : Prop where
  place_eq : place publication.index = publication.place
  backedUp : publication.installed = true → publication.backedUp = (old publication.index).isSome

/-- The outputs of the publications are where their flags say, and the others where they were. -/
structure Tracked (old : Nat → Option α) (before : Nat → Place) (publications : List Publication)
    (place : Nat → Place) : Prop where
  tracks : ∀ publication ∈ publications, publication.Tracks old place
  rest : ∀ i, i ∉ publications.map Publication.index → place i = before i

theorem tracked_untouched {before : Nat → Place} {entries : List (Nat × Bool)}
    (h : ∀ entry ∈ entries, before entry.1 = .idle) :
    Tracked tx.old before (untouched entries) before := by
  refine ⟨fun publication hpublication => ?_, fun i _ => rfl⟩
  obtain ⟨entry, hentry, rfl⟩ := List.mem_map.mp hpublication
  exact ⟨h entry hentry, nofun⟩

theorem tracked_cons {before place : Nat → Place} {publication : Publication} {rest : List Publication}
    (hnew : publication.index ∉ rest.map Publication.index)
    (hbackedUp : publication.installed = true → publication.backedUp = (tx.old publication.index).isSome)
    (h : Tracked tx.old (update before publication.index publication.place) rest place) :
    Tracked tx.old before (publication :: rest) place := by
  refine ⟨List.forall_mem_cons.mpr ⟨⟨?_, hbackedUp⟩, h.tracks⟩, fun i hi => ?_⟩
  · rw [h.rest _ hnew, update_self]
  · rw [List.map_cons, List.mem_cons, not_or] at hi
    rw [h.rest i hi.2, update_of_ne hi.1]

/-- What `installOutputs` leaves: the flags say where everything is, and after a success everything is
installed. -/
def Installed (tx : Transaction α) (before : Nat → Place) (entries : List (Nat × Bool))
    (result : List Publication × Except Failure Unit) (disk : Disk α) : Prop :=
  result.1.map Publication.index = entries.map Prod.fst ∧
    ∃ place, Moving tx place disk ∧ Tracked tx.old before result.1 place ∧
      (result.2.isOk → ∀ publication ∈ result.1, publication.installed = true)

theorem map_index_untouched (entries : List (Nat × Bool)) :
    (untouched entries).map Publication.index = entries.map Prod.fst := by
  simp [untouched]

/-- The loop over the outputs, from any point of it on. -/
theorem installOutputs_spec {entries : List (Nat × Bool)} (hnodup : (entries.map Prod.fst).Nodup)
    (hentries : ∀ entry ∈ entries, entry.1 < tx.count ∧ entry.2 = (tx.old entry.1).isSome) {before : Nat → Place}
    (hbefore : ∀ entry ∈ entries, before entry.1 = .idle) :
    Triple true (Consistent tx) (Moving tx before) (installOutputs entries)
      (Installed tx before entries) := by
  induction entries generalizing before with
  | nil =>
    exact Triple.pure fun disk hdisk => ⟨rfl, before, hdisk, ⟨by simp, fun _ _ => rfl⟩, by simp⟩
  | cons entry rest ih =>
    obtain ⟨index, had⟩ := entry
    obtain ⟨hnew, hrest⟩ := List.nodup_cons.mp hnodup
    obtain ⟨⟨hindex, hhad⟩, hothers⟩ := List.forall_mem_cons.mp hentries
    obtain ⟨hidle, hidles⟩ := List.forall_mem_cons.mp hbefore
    simp only at hnew hindex hhad hidle
    subst hhad
    have hfresh : index ∉ (untouched rest).map Publication.index := by rwa [map_index_untouched]
    have hstill : ∀ place', ∀ entry ∈ rest, update before index place' entry.1 = .idle := by
      intro place' entry hentry
      have hne : entry.1 ≠ index := by
        rintro rfl
        exact hnew (List.mem_map_of_mem hentry)
      rw [update_of_ne hne]
      exact hidles entry hentry
    rw [installOutputs]
    refine Triple.bind (backUpPrevious_spec hindex hidle) fun backedUp => ?_
    cases backedUp with
    | error error =>
      refine Triple.pure fun disk hdisk => ⟨by simp [map_index_untouched], before, hdisk.2, ?_,
        by simp [Except.isOk, Except.toBool]⟩
      refine tracked_cons hfresh nofun ?_
      rw [show Publication.place _ = .idle from rfl, ← hidle, update_eq_self]
      exact tracked_untouched hidles
    | ok _ =>
      have hready : update before index (retired (tx.old index)) index = .backed ∨
          update before index (retired (tx.old index)) index = .idle ∧ tx.old index = none := by
        cases hold : tx.old index with
        | none => exact .inr ⟨by simp [retired], rfl⟩
        | some value => exact .inl (by simp [retired])
      refine Triple.bind (install_spec hindex hready) fun installed => ?_
      cases installed with
      | error error =>
        refine Triple.pure fun disk hdisk => ⟨by simp [map_index_untouched], _, hdisk.2, ?_,
          by simp [Except.isOk, Except.toBool]⟩
        refine tracked_cons hfresh nofun ?_
        rw [show Publication.place _ = retired (tx.old index) by simp [Publication.place, retired]]
        exact tracked_untouched (hstill _)
      | ok _ =>
        simp only [update_idem]
        refine Triple.bind (ih hrest hothers (hstill .installed)) fun result => ?_
        refine Triple.pure fun disk hdisk => ?_
        obtain ⟨hsame, place, hmoving, htracked, hall⟩ := hdisk
        refine ⟨by simp [hsame], place, hmoving, tracked_cons ?_ (fun _ => rfl) ?_, fun hok => ?_⟩
        · rwa [hsame]
        · exact htracked
        · exact List.forall_mem_cons.mpr ⟨rfl, hall hok⟩

/-- The outputs of the publications are still to be moved back. -/
def Rolling (tx : Transaction α) (publications : List Publication)
    (disk : Disk α) : Prop :=
  ∃ place, Moving tx place disk ∧ (∀ publication ∈ publications, publication.Tracks tx.old place) ∧
    ∀ i < tx.count, i ∉ publications.map Publication.index → place i = .idle

/-- The outputs are somewhere between their staging directory and their destinations. -/
def Between (tx : Transaction α) (disk : Disk α) : Prop :=
  ∃ place, Moving tx place disk

theorem struck_between {place : Nat → Place} {process : Fallible α Unit} {pre : Disk α → Prop}
    {good : Unit → Disk α → Prop} (h : Spec tx faulty pre process good (Struck tx faulty place)) :
    Spec tx faulty pre process good (Between tx) :=
  h.mono (fun _ _ hdisk => hdisk) fun _ hdisk => ⟨place, hdisk.2⟩

/-- An output that was tracked is put back where it was. -/
theorem rollbackOutput_spec {place : Nat → Place} {publication : Publication} (hindex : publication.index < tx.count)
    (htracks : publication.Tracks tx.old place) (cause : Failure) :
    Spec tx faulty (Moving tx place) (rollbackOutput cause publication)
      (fun _ => Moving tx (update place publication.index .idle)) (Between tx) := by
  obtain ⟨index, had, backedUp, installed⟩ := publication
  obtain ⟨hplace, hbackedUp⟩ := htracks
  unfold rollbackOutput
  simp only at hindex hplace hbackedUp ⊢
  cases installed with
  | true =>
    refine Triple.bindExcept (struck_between (failing_spec (retire_spec hindex hplace))) fun _ => ?_
    rw [hbackedUp rfl]
    cases hold : tx.old index with
    | none =>
      simp only [retired, Option.isSome_none, Bool.false_eq_true, if_false]
      exact Triple.pureExcept fun disk hdisk => hdisk
    | some value =>
      have hbacked : update place index (retired (some value)) index = .backed := by simp [retired]
      have hrestore : Spec tx faulty _ _ _ _ := restore_spec hindex hbacked
      rw [update_idem] at hrestore
      exact struck_between (failing_spec hrestore)
  | false =>
    cases backedUp with
    | true => exact struck_between (failing_spec (restore_spec hindex hplace))
    | false =>
      have hidle : place index = .idle := hplace
      rw [← hidle, update_eq_self]
      exact Triple.pureExcept fun disk hdisk => hdisk

theorem rollbackOutputs_spec {publications : List Publication} (hnodup : (publications.map Publication.index).Nodup)
    (hindex : ∀ publication ∈ publications, publication.index < tx.count) (cause : Failure) :
    Spec tx faulty (Rolling tx publications) (rollbackOutputs cause publications)
      (fun _ => Rolling tx []) (Between tx) := by
  induction publications with
  | nil => exact Triple.pureExcept fun disk hdisk => hdisk
  | cons publication rest ih =>
    obtain ⟨hnew, hrest⟩ := List.nodup_cons.mp hnodup
    obtain ⟨hfirst, hothers⟩ := List.forall_mem_cons.mp hindex
    rw [rollbackOutputs]
    refine Triple.exists_pre fun place => ?_
    rintro disk faults hfaults ⟨hmoving, htracks, hidle⟩
    obtain ⟨htracks, hleft⟩ := List.forall_mem_cons.mp htracks
    refine Triple.bindExcept (rollbackOutput_spec hfirst htracks cause) (fun _ => ?_) disk faults hfaults hmoving
    refine (ih hrest hothers).weaken (fun disk hdisk => ⟨_, hdisk, fun other hother => ?_, fun i hi hnot => ?_⟩)
      fun _ _ h => h
    · have hne : other.index ≠ publication.index := fun heq => hnew (heq ▸ List.mem_map_of_mem hother)
      obtain ⟨hplace, hbackedUp⟩ := hleft other hother
      exact ⟨by rw [update_of_ne hne, hplace], hbackedUp⟩
    · by_cases heq : i = publication.index
      · subst heq
        exact update_self ..
      · rw [update_of_ne heq]
        exact hidle i hi (by simp [heq, hnot])

/-- A fault, and a consistent disk. -/
def Broken (tx : Transaction α) (faulty : Bool) (disk : Disk α) : Prop :=
  faulty = true ∧ Consistent tx disk

section Keeps

variable {pre : Disk α → Prop} (hpre : ∀ disk, pre disk → Consistent tx disk)

include hpre in
theorem touch_keeps : Spec tx faulty pre touch (fun _ => pre) (Broken tx faulty) :=
  touch_spec hpre fun hfaulty disk hdisk => ⟨hfaulty, hpre disk hdisk⟩

include hpre in
theorem inspect_keeps {β : Type} {look : Disk α → β} {value : β} (hlook : ∀ disk, pre disk → look disk = value) :
    Spec tx faulty pre (inspect look) (fun found disk => pre disk ∧ found = value)
      (Broken tx faulty) :=
  inspect_spec hlook hpre fun hfaulty disk hdisk => ⟨hfaulty, hpre disk hdisk⟩

end Keeps

/-- Nothing is at stake, and the journal is there. -/
def Waiting (tx : Transaction α) (disk : Disk α) : Prop :=
  Resting tx disk ∧ disk.journal.isSome

theorem resting_removed {disk : Disk α} (h : Resting tx disk) : Settled tx { disk with staged := none } := by
  refine ⟨rfl, h.committed, fun journal hjournal m hm => ?_, .inl h.destinations⟩
  exact Option.some.inj (hm.symm.trans (h.journal journal hjournal).1)

theorem resting_torn {disk : Disk α} (h : Resting tx disk) (fault : Fault α) :
    Resting tx { disk with staged := disk.staged.map fun area => area.torn fault } := by
  obtain ⟨area, hstaged, hbackup⟩ := h.staged
  refine ⟨⟨area.torn fault, by simp [hstaged], fun i hi => ?_⟩, h.committed, h.journal, h.destinations⟩
  simp [Area.torn, hbackup i hi]

theorem removeStaged_spec : Spec tx faulty (Resting tx) removeStaged (fun _ => Settled tx)
      (Broken tx faulty) :=
  removal_spec (fun _ hdisk => resting_removed hdisk) fun hfaulty fault _ hdisk =>
    ⟨.resting (resting_torn hdisk fault), hfaulty, .resting (resting_torn hdisk fault)⟩

theorem settled_torn {disk : Disk α} (h : Settled tx disk) (fault : Fault α) :
    Settled tx { disk with journal := disk.journal.map fun journal => journal.torn fault } := by
  refine ⟨h.staged, h.committed, fun journal hjournal m hm => ?_, h.destinations⟩
  obtain ⟨before, hbefore, rfl⟩ := Option.map_eq_some_iff.mp hjournal
  simp only [Journal.torn] at hm
  split_ifs at hm
  exact h.journal before hbefore m hm

/-- Only the temporary journal is left. -/
def Done (tx : Transaction α) (disk : Disk α) : Prop :=
  Settled tx disk ∧ disk.journal = none

theorem removeJournal_spec : Spec tx faulty (Settled tx) removeJournal (fun _ => Done tx)
      (Broken tx faulty) := by
  refine removal_spec (fun _ hdisk => ?_) fun hfaulty fault _ hdisk =>
    ⟨.settled (settled_torn hdisk fault), hfaulty, .settled (settled_torn hdisk fault)⟩
  exact ⟨⟨hdisk.staged, hdisk.committed, nofun, hdisk.destinations⟩, rfl⟩

theorem cleanupJournal_spec : Spec tx faulty (Settled tx) cleanupJournal (fun _ => Done tx) (Broken tx faulty) :=
  Triple.bindExcept removeJournal_spec fun _ => touch_keeps fun _ hdisk => .settled hdisk.1

theorem cleanupStagedOutputs_spec {cause : Option Failure} :
    Spec tx true (Resting tx) (cleanupStagedOutputs cause) (fun _ => Consistent tx) (Broken tx true) := by
  refine failing_then removeStaged_spec fun _ => ?_
  refine failing_then (touch_keeps fun _ => .settled) fun _ => ?_
  refine failing_then cleanupJournal_spec fun _ => ?_
  cases cause with
  | none => exact Triple.pureExcept fun disk hdisk => .settled hdisk.1
  | some cause => exact Triple.throwExcept fun disk hdisk => ⟨rfl, .settled hdisk.1⟩

end Publication

end Nia.Build.Output
