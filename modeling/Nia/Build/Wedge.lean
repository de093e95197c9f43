import Nia.Build.AllOrNothing

/-! When recovery succeeds.

On a consistent disk recovery without faults succeeds and removes everything exactly when the disk is
recoverable. What is not recoverable comes from a process that ended while it removed a directory, or between the
creation of the staging directory and of the journal, or from more outputs than a journal may name. -/
namespace Nia.Build.Output

open Lib.Interrupts

variable {α : Type} {tx : Transaction α} {disk : Disk α}

/-- Nothing is left of the transaction but its destinations. -/
structure Clean (disk : Disk α) : Prop where
  staged : disk.staged = none
  committed : disk.committed = none
  journal : disk.journal = none
  temporaryJournal : disk.temporaryJournal = none

/-- Recovery without faults succeeds and leaves nothing behind. -/
def Recovers (disk : Disk α) : Prop :=
  ∃ disk', recoverInterrupted.run disk [] = .returned (.ok ()) disk' [] ∧ Clean disk'

theorem recovers_of_recoverable (hcount : 0 < tx.count) (h : Consistent tx disk)
    (hrecoverable : Recoverable tx.count disk) : Recovers disk := by
  have hspec : Spec tx false (· = disk) recoverInterrupted _ _ :=
    recoverInterrupted_spec hcount h fun _ => hrecoverable
  obtain ⟨result, disk', hrun, hpost⟩ := Triple.exists_returned hspec rfl
  cases result with
  | error error => cases hpost.1
  | ok _ =>
    obtain ⟨hstaged, hcommitted, hjournal⟩ := hpost.clean rfl
    exact ⟨disk', hrun, hstaged, hcommitted, hjournal, hpost.temporaryJournal⟩

/-! ### What stops recovery -/

/-- Without faults the process fails. -/
abbrev Fails {β : Type} (tx : Transaction α) (disk : Disk α)
    (process : Fallible α β) : Prop :=
  Spec tx false (· = disk) process (fun _ _ => False) fun _ => True

section Fails

variable {β γ : Type}

theorem fails_throw (failure : Failure) : Fails tx disk (throw failure : Fallible α β) :=
  Triple.throwExcept fun _ _ => trivial

/-- A process that fails first fails. -/
theorem Fails.bind {x : Fallible α β} (hx : Fails tx disk x) (f : β → Fallible α γ) : Fails tx disk (x >>= f) :=
  Triple.bindExcept hx fun _ _ _ _ h => h.elim

/-- A process that fails after a step that changes nothing. -/
theorem fails_after {x : Fallible α β} {value : β} {f : β → Fallible α γ} {bad : Disk α → Prop}
    (hx : Spec tx false (· = disk) x (fun found d => d = disk ∧ found = value) bad)
    (hf : Fails tx disk (f value)) : Fails tx disk (x >>= f) := by
  have hx' : Spec tx false (· = disk) x (fun found d => d = disk ∧ found = value) fun _ => True :=
    hx.mono (fun _ _ hd => hd) fun _ _ => trivial
  refine Triple.bindExcept hx' fun found => Triple.assume fun hfound => ?_
  subst hfound
  exact hf

theorem fails_after_unit {x : Fallible α Unit} {f : Unit → Fallible α γ} {bad : Disk α → Prop}
    (hx : Spec tx false (· = disk) x (fun _ d => d = disk) bad)
    (hf : Fails tx disk (f ())) : Fails tx disk (x >>= f) := by
  have hx' : Spec tx false (· = disk) x (fun found d => d = disk ∧ found = ()) bad :=
    hx.mono (fun _ _ hd => ⟨hd, rfl⟩) fun _ hd => hd
  exact fails_after hx' hf

end Fails

variable {area : Area α} {i : Nat}

/-- The outputs of a transaction that are moved are not lost. -/
theorem Moving.not_lost {place : Nat → Place} (h : Moving tx place disk)
    (harea : disk.staged = some area) (hi : i < tx.count) : ¬ Lost tx.hadPrevious area disk i := by
  obtain ⟨area', harea', hplaced⟩ := h.placed
  obtain rfl := Option.some.inj (harea.symm.trans harea')
  have hhad : tx.hadPrevious[i]? = some (tx.old i).isSome := by simp [Transaction.hadPrevious, hi]
  have hholds := hplaced i hi
  rintro ⟨houtput, hmissing⟩
  cases hplace : place i with
  | idle =>
    rw [hplace] at hholds
    exact Option.some_ne_none _ (hholds.2.1.symm.trans houtput)
  | backed =>
    rw [hplace] at hholds
    exact Option.some_ne_none _ (hholds.2.2.1.symm.trans houtput)
  | installed =>
    rw [hplace] at hholds
    obtain ⟨hdestination, -, hbackup⟩ := hholds
    rw [hhad, hbackup, hdestination] at hmissing
    cases hold : tx.old i with
    | none => simp [hold] at hmissing
    | some value => simp [hold] at hmissing

theorem rollbackEntry_fails (h : Resting tx disk) (hi : i < tx.count)
    (harea : disk.staged = some area) (hlost : area (.output i) = none) :
    Fails tx disk (rollbackEntry i (tx.old i).isSome) := by
  obtain ⟨area', harea', hbackup⟩ := h.staged
  obtain rfl := Option.some.inj (harea.symm.trans harea')
  refine fails_after (look_disk (.resting h) (?_ : _ = false))
    (fails_after (look_disk (.resting h) (?_ : _ = false))
      (fails_after (look_disk (.resting h) (by rw [h.destinations i hi])) ?_))
  · simp [harea, hlost]
  · simp [harea, hbackup i hi]
  · cases (tx.old i).isSome with
    | true => exact fails_throw _
    | false => exact fails_throw _

theorem rollbackEntries_fails (h : Resting tx disk) (harea : disk.staged = some area)
    {todo : List (Nat × Bool)} (htodo : ∀ entry ∈ todo, entry.1 < tx.count ∧ entry.2 = (tx.old entry.1).isSome)
    (hlost : ∃ entry ∈ todo, area (.output entry.1) = none) : Fails tx disk (rollbackEntries todo) := by
  induction todo with
  | nil => simp at hlost
  | cons entry rest ih =>
    obtain ⟨index, had⟩ := entry
    obtain ⟨⟨hindex, hhad⟩, hrest⟩ := List.forall_mem_cons.mp htodo
    simp only at hindex hhad
    subst hhad
    rw [rollbackEntries]
    cases houtput : area (.output index) with
    | none => exact (rollbackEntry_fails h hindex harea houtput).bind _
    | some value =>
      have hkept : Spec tx false (· = disk) (rollbackEntry index (tx.old index).isSome) _ _ :=
        rollbackEntry_resting h hindex fun _ => by simp [harea, houtput]
      refine fails_after_unit hkept (ih hrest ?_)
      obtain ⟨entry, hentry, hnone⟩ := hlost
      rcases List.mem_cons.mp hentry with rfl | hentry
      · exact absurd (houtput.symm.trans hnone) nofun
      · exact ⟨entry, hentry, hnone⟩

theorem recoverStaged_fails (h : Resting tx disk) {journal : Journal} (hjournal : disk.journal = some journal)
    (hprepared : journal.prepared = some tx.hadPrevious) (hbounds : tx.count ≤ maxOutputs)
    (harea : disk.staged = some area) (hlost : ∃ i < tx.count, area (.output i) = none) :
    Fails tx disk (recoverStaged tx.count) := by
  refine fails_after (readPrepared_spec (.resting h) hjournal (.inr hprepared) hbounds) ?_
  rw [hprepared]
  refine Fails.bind (Fails.bind ?_ _) _
  rw [length_hadPrevious]
  refine rollbackEntries_fails h harea (fun _ => mem_reverse_entries) ?_
  obtain ⟨i, hi, hnone⟩ := hlost
  have hmem : i ∈ ((List.range tx.count).zip tx.hadPrevious).reverse.map Prod.fst := by
    rw [List.map_reverse, ← Transaction.entries, map_fst_entries, List.mem_reverse]
    exact List.mem_range.mpr hi
  obtain ⟨entry, hentry, rfl⟩ := List.mem_map.mp hmem
  exact ⟨entry, hentry, hnone⟩

/-- Only a transaction at rest can have lost an output. -/
theorem resting_of_lost (h : Consistent tx disk) {journal : Journal} (hjournal : disk.journal = some journal)
    {had : List Bool} (hprepared : journal.prepared = some had) (harea : disk.staged = some area) (hi : i < tx.count)
    (hlost : Lost had area disk i) : Resting tx disk ∧ had = tx.hadPrevious := by
  cases h with
  | settled h => exact absurd (h.staged.symm.trans harea) nofun
  | resting h =>
    refine ⟨h, ?_⟩
    rcases (h.journal journal hjournal).2 with hnone | hsome
    · exact absurd (hnone.symm.trans hprepared) nofun
    · exact Option.some.inj (hprepared.symm.trans hsome)
  | moving place h =>
    obtain ⟨other, hother, -, hsome⟩ := h.journal
    obtain rfl := Option.some.inj (hjournal.symm.trans hother)
    obtain rfl := Option.some.inj (hprepared.symm.trans hsome)
    exact absurd hlost (h.not_lost harea hi)
  | committed h => exact absurd (h.staged.symm.trans harea) nofun

/-- A journal is not recovered unless the disk is recoverable. -/
theorem recoverJournal_fails (h : Consistent tx disk) {journal : Journal}
    (hjournal : disk.journal = some journal) (hnot : ¬ Recoverable tx.count disk) : Fails tx disk recoverJournal := by
  have hread : Spec tx false (· = disk) (failing "read journal for" .journal
      (inspect fun disk => disk.journal.bind Journal.header) none)
      (fun found d => d = disk ∧ found = journal.header) (Broken tx false) :=
    look_disk h (by rw [hjournal, Option.bind_some])
  cases hheader : journal.header with
  | none =>
    rw [hheader] at hread
    exact (fails_after hread (fails_throw _)).bind _
  | some m =>
    obtain rfl := h.header hjournal hheader
    rw [hheader] at hread
    by_cases hbounds : 0 < tx.count ∧ tx.count ≤ maxOutputs
    · have hok : Spec tx false (· = disk) readHeader (fun found d => d = disk ∧ found = tx.count)
          (Broken tx false) := by
        refine Triple.bindExcept hread fun found => Triple.assume fun hfound => ?_
        subst hfound
        simp only [hbounds, and_self, if_true]
        exact Triple.pureExcept fun _ hd => ⟨hd, rfl⟩
      -- The header is fine, so an output was lost.
      obtain ⟨area, harea, i, hi, hlost⟩ : ∃ area, disk.staged = some area ∧ ∃ i < tx.count,
          ∃ hadPrevious, journal.prepared = some hadPrevious ∧ Lost hadPrevious area disk i := by
        by_contra hnone
        refine hnot ⟨fun _ => hbounds.2, fun other hother => ?_, fun _ => by simp [hjournal], ?_⟩
        · obtain rfl := Option.some.inj (hjournal.symm.trans hother)
          simp [hheader]
        · intro other had area hother hprepared harea i hi hlost
          obtain rfl := Option.some.inj (hjournal.symm.trans hother)
          exact hnone ⟨area, harea, i, hi, had, hprepared, hlost⟩
      obtain ⟨had, hprepared, hlost⟩ := hlost
      obtain ⟨hresting, rfl⟩ := resting_of_lost h hjournal hprepared harea hi hlost
      rw [hresting.lost_iff harea hi] at hlost
      refine fails_after hok (fails_after_unit (failing_spec (touch_keeps fun d hd => hd ▸ h)) ?_)
      refine fails_after (look_disk h (by rw [hjournal])) (fails_after hok ?_)
      simp only [ne_eq, not_true_eq_false, if_false]
      refine fails_after (look_disk h (by rw [harea]))
        (fails_after (look_disk h (by rw [hresting.committed])) ?_)
      exact recoverStaged_fails hresting hjournal hprepared hbounds.2 harea ⟨i, hi, hlost⟩
    · refine (fails_after hread ?_).bind _
      simp only [hbounds, if_false]
      exact fails_throw _

/-! ### Exactly -/

theorem recoverable_of_recovers (h : Consistent tx disk) (hrecovers : Recovers disk) : Recoverable tx.count disk := by
  by_contra hnot
  -- If recovery succeeds, there was no journal, and the staging directory is still there.
  have hleft : Spec tx false (· = disk) recoverInterrupted (fun _ d => d.staged.isSome) fun _ => True := by
    have hsee : ∀ {β : Type} (look : Disk α → β) operation, Spec tx false (· = disk)
        (failing operation .journal (inspect look) none) (fun found d => d = disk ∧ found = look disk)
        fun _ => True := by
      intro β look operation
      exact failing_spec (inspect_spec (fun d hd => by rw [hd]) (fun d hd => hd ▸ h) fun _ _ _ => trivial)
    have hrest : ∀ disk' : Disk α, Consistent tx disk' → ¬ Recoverable tx.count disk' →
        Spec tx false (· = disk') (if disk'.journal.isSome then recoverJournal else pure ())
          (fun _ d => d.staged.isSome) fun _ => True := by
      intro disk' h hnot
      cases hjournal : disk'.journal with
      | some journal => exact (recoverJournal_fails h hjournal hnot).mono (fun _ _ hd => hd.elim) fun _ hd => hd
      | none =>
        refine Triple.pureExcept fun d hd => ?_
        subst hd
        by_contra hstaged
        refine hnot ⟨by simp [hjournal], by simp [hjournal], fun hsome => absurd hsome hstaged, by simp [hjournal]⟩
    refine Triple.bindExcept (hsee _ _) fun temporary => Triple.assume fun htemporary => ?_
    refine Triple.bindExcept (hsee _ _) fun journal => Triple.assume fun hjournal => ?_
    subst htemporary hjournal
    cases disk.temporaryJournal with
    | none => exact hrest disk h hnot
    | some header =>
      have hremove : Spec tx false (· = disk) removeTemporaryJournal
          (fun _ => (· = { disk with temporaryJournal := none })) fun _ => True :=
        removal_spec (fun d hd => by rw [hd]) nofun
      have htouch : Spec tx false (· = { disk with temporaryJournal := none }) touch
          (fun _ => (· = { disk with temporaryJournal := none })) fun _ => True :=
        touch_spec (fun d hd => hd ▸ h.of_temporaryJournal none) nofun
      refine failing_then (Triple.bindExcept hremove fun _ => htouch) fun _ => ?_
      exact hrest _ (h.of_temporaryJournal none) fun hrecoverable => hnot ⟨hrecoverable.bounded, hrecoverable.header,
        hrecoverable.journal, hrecoverable.outputs⟩
  obtain ⟨result, disk', hrun, hpost⟩ := Triple.exists_returned hleft rfl
  obtain ⟨disk'', hrun', hclean⟩ := hrecovers
  rw [show recoverInterrupted.run disk [] = _ from hrun] at hrun'
  cases hrun'
  simp [onEither, hclean.staged] at hpost

/-- Recovery does nothing where there is no journal. -/
theorem recoverInterrupted_state (hjournal : disk.journal = none) (htemporary : disk.temporaryJournal = none)
    (faults : List (Option (Fault α))) : (recoverInterrupted.run disk faults).state = disk := by
  have hsee : ∀ {β : Type} (look : Disk α → β) operation, Triple true (· = disk) (· = disk)
      (failing operation .journal (inspect look) none)
        (onEither (fun found d => d = disk ∧ found = look disk) (· = disk)) := by
    intro β look operation
    have hinspect : Triple true (· = disk) (· = disk) (inspect look)
        (onEither (fun found d => d = disk ∧ found = look disk) (· = disk)) :=
      Triple.step (fun d hd => ⟨hd, by rw [hd]⟩) fun _ _ d hd => ⟨hd, hd⟩
    refine Triple.bind hinspect fun result => ?_
    cases result with
    | ok value | error error => exact Triple.pure fun _ hd => hd
  have hrun : Triple true (· = disk) (· = disk) recoverInterrupted (onEither (fun _ d => d = disk) (· = disk)) := by
    refine Triple.bindExcept (hsee _ _) fun temporary => Triple.assume fun hfound => ?_
    refine Triple.bindExcept (hsee _ _) fun journal => Triple.assume fun hfound' => ?_
    subst hfound hfound'
    rw [hjournal, htemporary]
    exact Triple.pureExcept fun _ hd => hd
  exact Triple.state (hrun.either (fun _ _ hd => hd) fun _ hd => hd) rfl faults

/-- A transaction without outputs does nothing. -/
theorem history_zero (old : Nat → Option α) (new : Nat → α) (faults : List (Option (Fault α)))
    (recoveries : List (List (Option (Fault α)))) : history 0 old new faults recoveries = .initial old := by
  unfold history
  rw [show ((restoreOutputs 0 new).run (.initial old) faults).state = .initial old from rfl]
  induction recoveries with
  | nil => rfl
  | cons first rest ih => rw [afterRecoveries, recoverInterrupted_state rfl rfl, ih]

/-- A crash while the journal directory is removed, when `journal.bin` is gone. -/
def crashInJournal : List (Option (Fault Nat)) :=
  List.replicate 23 none ++ [some ⟨true, fun _ => none, fun record => record ≠ .journal⟩]

/-- After a publication that ended while its journal directory was removed, recovery fails for ever. -/
theorem journal_wedges_recovery :
    let disk := history 1 (fun _ => some 0) (fun _ => 1) crashInJournal []
    (recoverInterrupted.run disk []).value.map Except.isOk = some false ∧
      ((recoverInterrupted.run disk []).state.journal.map Journal.header) = some none :=
  ⟨rfl, rfl⟩

/-- **Recovery never wedges on a disk that is recoverable, and on no other.** -/
theorem recovers_iff_recoverable (count : Nat) (old : Nat → Option α) (new : Nat → α)
    (faults : List (Option (Fault α))) (recoveries : List (List (Option (Fault α)))) :
    Recovers (history count old new faults recoveries) ↔
      Recoverable count (history count old new faults recoveries) := by
  rcases Nat.eq_zero_or_pos count with rfl | hcount
  · rw [history_zero]
    constructor
    · exact fun _ => ⟨nofun, nofun, nofun, nofun⟩
    · exact fun _ => ⟨.initial old, rfl, rfl, rfl, rfl, rfl⟩
  · have h := history_consistent ⟨count, old, new⟩ hcount faults recoveries
    exact ⟨recoverable_of_recovers h, recovers_of_recoverable hcount h⟩

end Nia.Build.Output
