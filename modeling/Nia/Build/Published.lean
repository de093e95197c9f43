import Nia.Build.Consistent

/-! Publication keeps the disk consistent.

The outputs are staged while nothing is at stake; the prepared marker is written when every output is staged
and turns the resting transaction into one whose outputs may move. A failure is followed by the rollback, which
undoes exactly the moves that were done. -/
namespace Nia.Build.Output

open Lib.Interrupts List

variable {α : Type} {tx : Transaction α}

/-! ### Staging -/

/-- Before the transaction. -/
structure Fresh (tx : Transaction α) (disk : Disk α) : Prop where
  staged : disk.staged = none
  committed : disk.committed = none
  journal : disk.journal = none
  destinations : AllOld tx.count tx.old disk

variable {disk : Disk α}

theorem Fresh.settled (h : Fresh tx disk) : Settled tx disk :=
  ⟨h.staged, h.committed, by simp [h.journal], .inl h.destinations⟩

/-- The staging directory was created, and there is no journal yet. -/
def Created (tx : Transaction α) (disk : Disk α) : Prop := Resting tx disk ∧ disk.journal = none

/-- The journal is there and not marked as prepared. -/
def Unprepared (tx : Transaction α) (disk : Disk α) : Prop :=
  Resting tx disk ∧ Journaled tx disk (· = none)

theorem createStaged_spec : Spec tx true (Fresh tx) createStaged (fun _ => Created tx) (Broken tx true) := by
  refine atomic_spec (fun _ hdisk => .settled hdisk.settled)
    (fun hfaulty _ hdisk => ⟨hfaulty, .settled hdisk.settled⟩) ?_
  intro disk hdisk
  refine ⟨_, _, rfl, ⟨⟨_, rfl, fun _ _ => rfl⟩, hdisk.committed, ?_, hdisk.destinations⟩, hdisk.journal⟩
  exact fun journal hjournal => absurd (hdisk.journal.symm.trans hjournal) nofun

/-- The temporary journal does not matter to the rest. -/
theorem Resting.of_temporaryJournal (h : Resting tx disk) (header : Option (Option Nat)) :
    Resting tx { disk with temporaryJournal := header } :=
  ⟨h.staged, h.committed, h.journal, h.destinations⟩

theorem writeJournal_spec : Spec tx true (Created tx)
      (do writeHeader tx.count; touch; renameJournal; touch : Io α Unit) (fun _ => Unprepared tx)
      (Resting tx) := by
  have htouch : ∀ {pre : Disk α → Prop}, (∀ disk, pre disk → Resting tx disk) →
      Spec tx true pre touch (fun _ => pre) (Resting tx) :=
    fun hpre => touch_spec (fun disk hdisk => .resting (hpre disk hdisk)) fun _ disk hdisk => hpre disk hdisk
  have hwrite : Spec tx true (Created tx) (writeHeader tx.count)
      (fun _ disk => Created tx disk ∧ disk.temporaryJournal = some (some tx.count)) (Resting tx) :=
    atomic_spec (fun disk hdisk => .resting hdisk.1) (fun _ disk hdisk => hdisk.1)
      fun disk hdisk => ⟨_, _, rfl, ⟨hdisk.1.of_temporaryJournal _, hdisk.2⟩, rfl⟩
  have hrename : Spec tx true
      (fun disk => Created tx disk ∧ disk.temporaryJournal = some (some tx.count)) renameJournal
      (fun _ => Unprepared tx) (Resting tx) := by
    refine atomic_spec (fun disk hdisk => .resting hdisk.1.1) (fun _ disk hdisk => hdisk.1.1) ?_
    rintro disk ⟨⟨hresting, -⟩, hheader⟩
    simp only [hheader]
    refine ⟨_, _, rfl, ⟨hresting.staged, hresting.committed, ?_, hresting.destinations⟩, _, rfl, rfl, rfl⟩
    intro journal hjournal
    cases hjournal
    exact ⟨rfl, .inl rfl⟩
  refine Triple.bindExcept hwrite fun _ => ?_
  refine Triple.bindExcept (htouch fun disk hdisk => hdisk.1.1) fun _ => ?_
  exact Triple.bindExcept hrename fun _ => htouch fun disk hdisk => hdisk.1

theorem createJournal_spec : Spec tx true (Created tx) (createJournal tx.count) (fun _ => Unprepared tx)
      (Resting tx) := by
  have hresting : ∀ disk, Created tx disk → Consistent tx disk := fun disk hdisk => .resting hdisk.1
  refine Triple.bindExcept (touch_spec hresting fun _ disk hdisk => hdisk.1) fun _ => ?_
  have hcreate : Spec tx true (Created tx) createTemporaryJournal (fun _ => Created tx)
      (Resting tx) :=
    atomic_spec hresting (fun _ disk hdisk => hdisk.1)
      fun disk hdisk => ⟨_, _, rfl, hdisk.1.of_temporaryJournal _, hdisk.2⟩
  refine Triple.bindExcept hcreate fun _ => ?_
  refine Triple.bind writeJournal_spec fun written => ?_
  cases written with
  | ok _ => exact Triple.pure fun disk hdisk => hdisk
  | error error =>
    have hremove : Spec tx true (Resting tx) removeTemporaryJournal (fun _ => Resting tx)
        (Resting tx) :=
      removal_spec (fun disk hdisk => hdisk.of_temporaryJournal _) fun _ fault disk hdisk =>
        ⟨.resting (hdisk.of_temporaryJournal _), hdisk.of_temporaryJournal _⟩
    refine Triple.bind hremove fun removed => Triple.pure fun disk hdisk => ?_
    cases removed with
    | ok _ => exact hdisk
    | error _ => exact hdisk

theorem prepareStagedOutputs_spec : Spec tx true (Fresh tx) (prepareStagedOutputs tx.count) (fun _ => Unprepared tx)
      (Broken tx true) := by
  have hfresh : ∀ disk, Fresh tx disk → Consistent tx disk := fun disk hdisk => .settled hdisk.settled
  unfold prepareStagedOutputs
  split_ifs with hcount
  · have hthrow : ∀ failure : Failure, Spec tx true (Fresh tx) (throw failure : Fallible α Unit)
        (fun _ _ => False) (Broken tx true) :=
      fun failure => Triple.throwExcept fun disk hdisk => ⟨rfl, hfresh disk hdisk⟩
    exact Triple.bindExcept (hthrow _) fun _ _ _ _ h => h.elim
  · refine failing_then (touch_keeps hfresh) fun _ => ?_
    refine failing_then createStaged_spec fun _ => ?_
    refine Triple.bind createJournal_spec fun created => ?_
    cases created with
    | ok _ => exact Triple.pure fun disk hdisk => hdisk
    | error error =>
      refine Triple.bind removeStaged_spec fun removed => Triple.pure fun disk hdisk => ?_
      cases removed with
      | ok _ => exact ⟨rfl, .settled hdisk⟩
      | error _ => exact hdisk

/-! ### Writing and checking the outputs -/

/-- The outputs other than these are in the staging directory. -/
def Writing (tx : Transaction α) (todo : List Nat) (disk : Disk α) : Prop :=
  Unprepared tx disk ∧
    ∀ area, disk.staged = some area → ∀ i < tx.count, i ∉ todo → area (.output i) = some (tx.new i)

theorem writeEntry_spec (index : Nat) (rest : List Nat) :
    Spec tx true (Writing tx (index :: rest)) (writeEntry (.output index) (tx.new index))
      (fun _ => Writing tx rest) (Resting tx) := by
  refine atomic_spec (fun disk hdisk => .resting hdisk.1.1) (fun _ disk hdisk => hdisk.1.1) ?_
  rintro disk ⟨⟨hresting, hjournal⟩, hwritten⟩
  obtain ⟨area, hstaged, hbackup⟩ := hresting.staged
  simp only [hstaged]
  refine ⟨_, _, rfl, ⟨⟨⟨_, rfl, fun i hi => ?_⟩, hresting.committed, hresting.journal, hresting.destinations⟩,
    hjournal⟩, ?_⟩
  · rw [Function.update_of_ne (by simp : Entry.backup i ≠ .output index)]
    exact hbackup i hi
  · rintro _ ⟨⟩ i hi hnot
    by_cases heq : i = index
    · subst heq
      exact Function.update_self ..
    · rw [Function.update_of_ne (by simpa using heq)]
      exact hwritten area hstaged i hi (by simp [heq, hnot])

theorem writeOutputs_spec (todo : List Nat) :
    Spec tx true (Writing tx todo) (writeOutputs tx.new todo) (fun _ => Writing tx [])
      (Resting tx) := by
  induction todo with
  | nil => exact Triple.pureExcept fun disk hdisk => hdisk
  | cons index rest ih => exact failing_then (writeEntry_spec index rest) fun _ => ih

theorem inspectOutputs_spec {todo : List Nat} (htodo : ∀ i ∈ todo, i < tx.count) :
    Spec tx true (Writing tx []) (inspectOutputs todo)
      (fun hadPrevious disk => Writing tx [] disk ∧ hadPrevious = todo.map fun i => (tx.old i).isSome)
      (Resting tx) := by
  have hcrash : ∀ disk, Writing tx [] disk → Consistent tx disk :=
    fun disk hdisk => .resting hdisk.1.1
  have hbad : true = true → ∀ disk, Writing tx [] disk → Resting tx disk :=
    fun _ disk hdisk => hdisk.1.1
  induction todo with
  | nil => exact Triple.pureExcept fun disk hdisk => ⟨hdisk, rfl⟩
  | cons index rest ih =>
    obtain ⟨hindex, hrest⟩ := forall_mem_cons.mp htodo
    rw [inspectOutputs]
    have hstaged : ∀ disk : Disk α, Writing tx [] disk →
        (disk.staged.bind fun area => area (.output index)).isSome = true := by
      intro disk hdisk
      obtain ⟨area, harea, -⟩ := hdisk.1.1.staged
      simp [harea, hdisk.2 area harea index hindex]
    have hprevious : ∀ disk : Disk α, Writing tx [] disk →
        (disk.destination index).isSome = (tx.old index).isSome := by
      intro disk hdisk
      rw [hdisk.1.1.destinations index hindex]
    refine inspect_then hstaged hcrash hbad (failing_then (touch_spec hcrash hbad) fun _ => ?_)
    refine inspect_then hprevious hcrash hbad ?_
    refine Triple.bindExcept (ih hrest) fun others => Triple.pureExcept fun disk hdisk => ?_
    exact ⟨hdisk.1, by rw [map_cons, hdisk.2]⟩

/-! ### The prepared marker -/

/-- Everything is staged and nothing was moved. -/
abbrev Ready (tx : Transaction α) : Disk α → Prop :=
  Moving tx fun _ => .idle

theorem Moving.resting (h : Ready tx disk) : Resting tx disk := by
  obtain ⟨area, hstaged, hplaced⟩ := h.placed
  obtain ⟨journal, hjournal, hheader, hprepared⟩ := h.journal
  refine ⟨⟨area, hstaged, fun i hi => (hplaced i hi).2.2⟩, h.committed, ?_, fun i hi => (hplaced i hi).1⟩
  intro other hother
  obtain rfl := Option.some.inj (hjournal.symm.trans hother)
  exact ⟨hheader, .inr hprepared⟩

/-- The marker was written under its temporary name. -/
def Marked (tx : Transaction α) (disk : Disk α) : Prop :=
  Writing tx [] disk ∧
    ∃ journal, disk.journal = some journal ∧ journal.preparedTemporary = some tx.hadPrevious

theorem Unprepared.waiting (h : Unprepared tx disk) : Waiting tx disk := by
  obtain ⟨hresting, journal, hjournal, -⟩ := h
  exact ⟨hresting, by simp [hjournal]⟩

theorem writePrepared_spec : Spec tx true (Writing tx []) (writePrepared tx.hadPrevious)
      (fun _ => Marked tx) (Waiting tx) := by
  refine atomic_spec (fun disk hdisk => .resting hdisk.1.1) (fun _ disk hdisk => hdisk.1.waiting) ?_
  rintro disk ⟨⟨hresting, journal, hjournal, hheader, hprepared⟩, hwritten⟩
  simp only [hjournal]
  refine ⟨_, _, rfl, ⟨⟨⟨hresting.staged, hresting.committed, ?_, hresting.destinations⟩,
    _, rfl, hheader, hprepared⟩, hwritten⟩, _, rfl, rfl⟩
  rintro _ ⟨⟩
  exact ⟨hheader, .inl hprepared⟩

theorem renamePrepared_spec : Spec tx true (Marked tx) renamePrepared (fun _ => Ready tx)
      (Waiting tx) := by
  refine atomic_spec (fun disk hdisk => .resting hdisk.1.1.1) (fun _ disk hdisk => hdisk.1.1.waiting) ?_
  rintro disk ⟨⟨⟨hresting, journal, hjournal, hheader, -⟩, hwritten⟩, other, hother, htemporary⟩
  obtain rfl := Option.some.inj (hjournal.symm.trans hother)
  obtain ⟨area, hstaged, hbackup⟩ := hresting.staged
  simp only [hjournal, htemporary]
  refine ⟨_, _, rfl, hresting.committed, ⟨_, rfl, hheader, rfl⟩, area, hstaged, fun i hi => ?_⟩
  exact ⟨hresting.destinations i hi, hwritten area hstaged i hi (by simp), hbackup i hi⟩

theorem removePrepared_spec : Spec tx true (Waiting tx) removePrepared (fun _ => Resting tx) (Resting tx) := by
  refine atomic_spec (fun disk hdisk => .resting hdisk.1) (fun _ disk hdisk => hdisk.1) ?_
  rintro disk ⟨hresting, hsome⟩
  obtain ⟨journal, hjournal⟩ := Option.isSome_iff_exists.mp hsome
  simp only [hjournal]
  refine ⟨_, _, rfl, hresting.staged, hresting.committed, ?_, hresting.destinations⟩
  rintro _ ⟨⟩
  exact hresting.journal journal hjournal

theorem Moving.waiting (h : Ready tx disk) : Waiting tx disk := by
  obtain ⟨journal, hjournal, -⟩ := h.journal
  exact ⟨h.resting, by simp [hjournal]⟩

theorem markPrepared_spec : Spec tx true (Writing tx []) (markPrepared tx.hadPrevious)
      (fun _ => Ready tx) (Resting tx) := by
  have hwritten : Spec tx true (Writing tx [])
      (do writePrepared tx.hadPrevious; renamePrepared; touch : Io α Unit)
      (fun _ => Ready tx) (Waiting tx) := by
    refine Triple.bindExcept writePrepared_spec fun _ => Triple.bindExcept renamePrepared_spec fun _ => ?_
    exact touch_spec (fun disk hdisk => .moving _ hdisk) fun _ disk hdisk => hdisk.waiting
  refine Triple.bind hwritten fun written => ?_
  cases written with
  | ok _ => exact Triple.pure fun disk hdisk => hdisk
  | error error =>
    refine Triple.bind removePrepared_spec fun removed => Triple.pure fun disk hdisk => ?_
    cases removed with
    | ok _ => exact hdisk
    | error _ => exact hdisk

theorem prepareOutputs_spec : Spec tx true (Writing tx []) (prepareOutputs tx.count)
      (fun had disk => Ready tx disk ∧ had = tx.hadPrevious) (Resting tx) := by
  refine Triple.bindExcept (inspectOutputs_spec fun i hi => mem_range.mp hi) fun had => ?_
  refine Triple.assume fun hhad => ?_
  obtain rfl : had = tx.hadPrevious := hhad
  refine failing_then (touch_spec (fun disk hdisk => .resting hdisk.1.1)
    fun _ disk hdisk => hdisk.1.1) fun _ => ?_
  refine failing_then markPrepared_spec fun _ => ?_
  exact Triple.pureExcept fun disk hdisk => ⟨hdisk, rfl⟩

/-! ### The commit -/

/-- The outputs with what the marker says of them. -/
def Transaction.entries (tx : Transaction α) : List (Nat × Bool) := (List.range tx.count).zip tx.hadPrevious

theorem map_fst_entries (tx : Transaction α) : tx.entries.map Prod.fst = List.range tx.count := by
  simp [Transaction.entries, Transaction.hadPrevious, map_fst_zip]

theorem mem_entries {entry : Nat × Bool} (h : entry ∈ tx.entries) :
    entry.1 < tx.count ∧ entry.2 = (tx.old entry.1).isSome := by
  rw [Transaction.entries, Transaction.hadPrevious, ← map_prod_left_eq_zip, mem_map] at h
  obtain ⟨i, hi, rfl⟩ := h
  exact ⟨mem_range.mp hi, rfl⟩

/-- What `commitOutputs` leaves: after a failure the moves can be undone. -/
def Attempted (tx : Transaction α) (result : List Publication × Except Failure Unit)
    (disk : Disk α) : Prop :=
  match result.2 with
  | .ok () => Committed tx disk
  | .error _ => result.1.map Publication.index = List.range tx.count ∧ Rolling tx result.1 disk

theorem commitStaged_spec : Spec tx true (Moving tx fun _ => .installed) commitStaged (fun _ => Committed tx)
      (Moving tx fun _ => .installed) := by
  refine atomic_spec (fun disk => .moving _) (fun _ disk hdisk => hdisk) fun disk hdisk => ?_
  obtain ⟨area, hstaged, hplaced⟩ := hdisk.placed
  obtain ⟨journal, hjournal, hheader, -⟩ := hdisk.journal
  simp only [hstaged]
  exact ⟨_, _, rfl, rfl, rfl, ⟨journal, hjournal, hheader, trivial⟩, fun i hi => (hplaced i hi).1⟩

/-- After a success every output is installed, and the flags say so. -/
theorem Installed.all {publications : List Publication}
    (h : Installed tx (fun _ => .idle) tx.entries (publications, .ok ()) disk) :
    Moving tx (fun _ => .installed) disk ∧ (publications.map Publication.index = List.range tx.count ∧
      ∀ publication ∈ publications, publication.Tracks tx.old fun _ => .installed) := by
  obtain ⟨hindices, place, hmoving, htracked, hdone⟩ := h
  rw [map_fst_entries] at hindices
  have hplace : ∀ publication ∈ publications, publication.place = .installed := by
    intro publication hpublication
    simp [Publication.place, hdone rfl publication hpublication]
  have hinstalled : ∀ i < tx.count, place i = .installed := by
    intro i hi
    obtain ⟨publication, hpublication, rfl⟩ : ∃ p ∈ publications, Publication.index p = i :=
      mem_map.mp (hindices ▸ mem_range.mpr hi)
    rw [(htracked.tracks publication hpublication).place_eq, hplace publication hpublication]
  refine ⟨hmoving.congr hinstalled, hindices, fun publication hpublication => ?_⟩
  exact ⟨(hplace publication hpublication).symm, (htracked.tracks publication hpublication).backedUp⟩

theorem commitOutputs_spec : Triple true (Consistent tx) (Ready tx) (commitOutputs tx.entries)
      (Attempted tx) := by
  have hinstall : Triple true (Consistent tx) (Ready tx) (installOutputs tx.entries)
      (Installed tx (fun _ => .idle) tx.entries) :=
    installOutputs_spec (by rw [map_fst_entries]; exact nodup_range) (fun _ => mem_entries) fun _ _ => rfl
  refine Triple.bind hinstall fun result => ?_
  obtain ⟨publications, installed⟩ := result
  cases installed with
  | error cause =>
    refine Triple.pure fun disk hdisk => ?_
    obtain ⟨hindices, place, hmoving, htracked, -⟩ := hdisk
    exact ⟨hindices.trans (map_fst_entries tx), place, hmoving, htracked.tracks,
      fun i _ hnot => htracked.rest i hnot⟩
  | ok _ =>
    refine Triple.weaken ?_ (fun _ => Installed.all) fun _ _ h => h
    refine Triple.assume fun ⟨hindices, htracks⟩ => ?_
    have hmark : Spec tx true (Moving tx fun _ => .installed)
        (do failing "sync committed output directory for" .parent touch none
            failing "mark transaction committed at" .staged commitStaged none : Fallible α Unit)
        (fun _ => Committed tx) (Moving tx fun _ => .installed) := by
      refine failing_then (touch_spec (fun disk => .moving _) fun _ _ hdisk => hdisk) fun _ => ?_
      exact failing_spec commitStaged_spec
    refine Triple.bind hmark fun marked => Triple.pure fun disk hdisk => ?_
    cases marked with
    | ok _ => exact hdisk
    | error cause =>
      refine ⟨hindices, _, hdisk, htracks, fun i hi hnot => absurd (mem_range.mpr hi) ?_⟩
      rwa [← hindices]

/-! ### The whole publication -/

theorem rollbackStagedOutputs_spec {publications : List Publication}
    (hindices : publications.map Publication.index = List.range tx.count) (cause : Failure) :
    Spec tx true (Rolling tx publications) (rollbackStagedOutputs publications cause)
      (fun _ => Consistent tx) (Broken tx true) := by
  have hback : Spec tx true (Rolling tx publications) (rollbackOutputs cause publications.reverse)
      (fun _ => Rolling tx []) (Between tx) := by
    refine (rollbackOutputs_spec ?_ ?_ cause).weaken (fun disk hdisk => ?_) fun _ _ h => h
    · rw [map_reverse, nodup_reverse, hindices]
      exact nodup_range
    · intro publication hpublication
      have hmem : publication.index ∈ publications.map Publication.index :=
        mem_map_of_mem (mem_reverse.mp hpublication)
      rw [hindices] at hmem
      exact mem_range.mp hmem
    · obtain ⟨place, hmoving, htracks, hidle⟩ := hdisk
      refine ⟨place, hmoving, fun publication h => htracks publication (mem_reverse.mp h), fun i hi hnot => ?_⟩
      exact hidle i hi (by simpa using hnot)
  have hresting : ∀ disk, Rolling tx [] disk → Resting tx disk := by
    rintro disk ⟨place, hmoving, -, hidle⟩
    exact (hmoving.congr fun i hi => hidle i hi (by simp)).resting
  refine Triple.bindExcept (hback.mono (fun _ _ h => h) fun _ hdisk => ⟨rfl, .moving _ hdisk.choose_spec⟩) fun _ => ?_
  refine failing_then (touch_keeps fun disk hdisk => .resting (hresting disk hdisk)) fun _ => ?_
  exact cleanupStagedOutputs_spec.weaken hresting fun _ _ h => h

theorem committed_torn (h : Committed tx disk) (fault : Fault α) :
    Committed tx { disk with committed := disk.committed.map fun area => area.torn fault } :=
  ⟨h.staged, by simpa using h.committed, h.journal, h.destinations⟩

theorem committed_removed (h : Committed tx disk) : Settled tx { disk with committed := none } := by
  obtain ⟨journal, hjournal, hheader, -⟩ := h.journal
  refine ⟨h.staged, rfl, fun other hother m hm => ?_, .inr h.destinations⟩
  obtain rfl := Option.some.inj (hjournal.symm.trans hother)
  exact Option.some.inj (hm.symm.trans hheader)

variable {faulty : Bool}

theorem removeCommitted_spec : Spec tx faulty (Committed tx) removeCommitted (fun _ => Settled tx)
      (Broken tx faulty) :=
  removal_spec (fun _ hdisk => committed_removed hdisk) fun hfaulty fault _ hdisk =>
    ⟨.committed (committed_torn hdisk fault), hfaulty, .committed (committed_torn hdisk fault)⟩

/-- A process after which only consistency is of interest. -/
theorem Spec.consistent {β : Type} {pre : Disk α → Prop} {process : Fallible α β}
    (h : Spec tx true pre process (fun _ => Consistent tx) (Broken tx true)) :
    Triple true (Consistent tx) pre process fun _ => Consistent tx :=
  h.either (fun _ _ hdisk => hdisk) fun _ hdisk => hdisk.2

theorem publishStagedOutputs_spec : Triple true (Consistent tx) (Writing tx []) (publishStagedOutputs tx.count)
      fun _ => Consistent tx := by
  refine Triple.bind prepareOutputs_spec fun prepared => ?_
  cases prepared with
  | error cause => exact cleanupStagedOutputs_spec.consistent
  | ok had =>
    refine Triple.assume fun hhad => ?_
    subst hhad
    refine Triple.bind commitOutputs_spec fun result => ?_
    obtain ⟨publications, committed⟩ := result
    cases committed with
    | error cause =>
      rintro disk faults hfaults ⟨hindices, hrolling⟩
      exact (rollbackStagedOutputs_spec hindices cause).consistent disk faults hfaults hrolling
    | ok _ =>
      have htouch : ∀ {pre : Disk α → Prop}, (∀ disk, pre disk → Consistent tx disk) →
          Triple true (Consistent tx) pre touch fun _ => pre :=
        fun hpre => (touch_spec hpre fun _ _ hdisk => hdisk).either (fun _ _ hdisk => hdisk) fun _ hdisk => hdisk
      refine Triple.bind (htouch fun _ => .committed) fun _ => ?_
      refine Triple.bind removeCommitted_spec fun cleaned => ?_
      cases cleaned with
      | error _ =>
        refine Triple.bind (htouch fun _ hdisk => hdisk.2) fun _ => ?_
        exact Triple.pure fun _ hdisk => hdisk.2
      | ok _ =>
        refine Triple.bind (htouch fun _ => .settled) fun _ => ?_
        refine Triple.bind cleanupJournal_spec fun removed => Triple.pure fun disk hdisk => ?_
        cases removed with
        | ok _ => exact .settled hdisk.1
        | error _ => exact hdisk.2

/-- **Whatever strikes it, the staging and publication of outputs leaves a consistent disk.** -/
theorem restoreOutputs_spec : Triple true (Consistent tx) (Fresh tx) (restoreOutputs tx.count tx.new)
      fun _ => Consistent tx := by
  refine Triple.bind prepareStagedOutputs_spec fun prepared => ?_
  cases prepared with
  | error cause => exact Triple.pure fun _ hdisk => hdisk.2
  | ok _ =>
    have hwrite : Spec tx true (Unprepared tx) (writeOutputs tx.new (List.range tx.count))
        (fun _ => Writing tx []) (Resting tx) := by
      refine (writeOutputs_spec _).weaken (fun disk hdisk => ⟨hdisk, fun area _ i hi hnot => ?_⟩) fun _ _ h => h
      exact absurd (mem_range.mpr hi) hnot
    refine Triple.bind hwrite fun written => ?_
    cases written with
    | error cause => exact cleanupStagedOutputs_spec.consistent
    | ok _ => exact publishStagedOutputs_spec

end Nia.Build.Output
