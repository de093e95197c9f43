import Nia.Build.Lock

/-! Who can have the lock.

The file at the path is the one every contender goes by, and its advisory lock is what keeps reclaimers
away; but the advisory lock belongs to the inode, and the record and the removal to the path. A reclaimer
may hold the lock of a file the path no longer names, and the maker of a file has neither lock nor record
at first. As long as no step removes a file in these two situations, whoever made a file and has not given
it up finds it at the path, and there is one such file. -/
namespace Nia.Build.Lock

variable (process : Contender → Process)

/-- The file the contender created. -/
@[grind =]
def Phase.made : Phase → Option Inode
  | .created file | .written file | .failing file | .held file | .dropping file | .unlinking file
  | .leaving file => some file
  | _ => none

/-- The file that has to be at the path. -/
@[grind =]
def Phase.keeps : Phase → Option Inode
  | .created file | .written file | .held file | .dropping file | .unlinking file => some file
  | _ => none

/-- The file whose advisory lock the contender has. -/
@[grind =]
def Phase.locks : Phase → Option Inode
  | .held file | .dropping file | .unlinking file | .leaving file | .checking _ file | .rechecking _ file
  | .aging _ file | .removing _ file _ | .releasing _ file => some file
  | _ => none

/-- The file the contender has open. -/
@[grind =]
def Phase.uses : Phase → Option Inode
  | .opened _ file => some file
  | phase => phase.made.or phase.locks

variable {phase : Phase} {file : Inode}

@[grind →]
theorem Phase.uses_of_made (h : phase.made = some file) : phase.uses = some file := by
  cases phase <;> simp_all [Phase.made, Phase.uses]

@[grind →]
theorem Phase.made_of_keeps (h : phase.keeps = some file) : phase.made = some file := by
  cases phase <;> simp_all [Phase.made, Phase.keeps]

theorem Phase.locks_of_keeps (h : phase.keeps = some file) :
    phase.locks = some file ∨ phase = .created file ∨ phase = .written file := by
  cases phase <;> simp_all [Phase.locks, Phase.keeps]

/-- What holds of a contender. -/
structure Sound (s : State) (a : Contender) (phase : Phase) : Prop where
  uses_lt : ∀ file, phase.uses = some file → file < s.fresh
  recorded : ∀ file b, phase.made = some file → s.record file = some b → b = a
  locks : ∀ file, s.alive (process a) = true → phase.locks = some file → s.locked file = some a
  keeps : ∀ file, s.alive (process a) = true → phase.keeps = some file → s.path = some file
  dead : ∀ zero file, phase = .removing zero file true → s.path = some file →
    ∃ b, s.record file = some b ∧ s.alive (process b) = false

/-- Nothing is asked of a contender that has no file open. -/
theorem Sound.of_uses_none {s : State} {a : Contender} (huses : phase.uses = none) : Sound process s a phase := by
  have hmade : phase.made = none := by
    cases hmade : phase.made with
    | none => rfl
    | some file => cases huses.symm.trans (Phase.uses_of_made hmade)
  have hlocks : phase.locks = none := by
    cases phase <;> simp_all [Phase.uses, Phase.locks]
  refine ⟨fun file h => ?_, fun file b h => ?_, fun file _ h => ?_, fun file _ h => ?_, fun zero file h => ?_⟩
  · cases huses.symm.trans h
  · cases hmade.symm.trans h
  · cases hlocks.symm.trans h
  · cases hmade.symm.trans (Phase.made_of_keeps h)
  · rw [h] at huses
    cases huses

/-- What holds of the files, and of every contender but one. -/
structure Others (s : State) (a : Contender) : Prop where
  path_lt : ∀ file, s.path = some file → file < s.fresh
  record_lt : ∀ file b, s.record file = some b → file < s.fresh
  made_inj : ∀ b c file, (s.phase b).made = some file → (s.phase c).made = some file → b = c
  sound : ∀ b ≠ a, Sound process s b (s.phase b)

/-- What holds all along a careful run. -/
structure Inv (s : State) : Prop where
  path_lt : ∀ file, s.path = some file → file < s.fresh
  record_lt : ∀ file a, s.record file = some a → file < s.fresh
  made_inj : ∀ a b file, (s.phase a).made = some file → (s.phase b).made = some file → a = b
  sound : ∀ a, Sound process s a (s.phase a)

/-- The step removes no file but the one the contender has locked, or made, and a reclaimer that found no
record of an owner removes none whose maker is about to lock it. -/
def Careful (s : State) : Event → Prop
  | .go a =>
    match s.phase a with
    | .failing file => ∀ other, s.path = some other → other = file
    | .removing _ file dead => ∀ other, s.path = some other → other = file ∧
      (dead = false → ∀ b, s.alive (process b) = true → s.phase b ≠ .created file ∧ s.phase b ≠ .written file)
    | _ => True
  | _ => True

variable {process} {s s' : State} {a : Contender} {file : Inode}

theorem Inv.others (h : Inv process s) (a : Contender) : Others process s a :=
  ⟨h.path_lt, h.record_lt, h.made_inj, fun b _ => h.sound b⟩

theorem Others.setPhase (h : Others process s a) (phase : Phase)
    (hmade : ∀ file, phase.made = some file → (s.phase a).made = some file)
    (hsound : Sound process s a phase) : Inv process (s.setPhase a phase) := by
  refine ⟨h.path_lt, h.record_lt, ?_, ?_⟩
  · intro b c file hb hc
    simp only [State.setPhase, Function.update_apply] at hb hc
    refine h.made_inj b c file ?_ ?_
    · split_ifs at hb with heq
      · exact heq ▸ hmade file hb
      · exact hb
    · split_ifs at hc with heq
      · exact heq ▸ hmade file hc
      · exact hc
  · intro b
    rcases eq_or_ne b a with rfl | hne
    · simp only [State.setPhase, Function.update_self]
      exact ⟨hsound.uses_lt, hsound.recorded, hsound.locks, hsound.keeps, hsound.dead⟩
    · simp only [State.setPhase, Function.update_of_ne hne]
      have hb := h.sound b hne
      exact ⟨hb.uses_lt, hb.recorded, hb.locks, hb.keeps, hb.dead⟩

/-- A contender may go on without a file. -/
theorem Others.rest (h : Others process s a) (huses : phase.uses = none) : Inv process (s.setPhase a phase) := by
  refine h.setPhase phase (fun file hmade => ?_) (.of_uses_none process huses)
  cases huses.symm.trans (Phase.uses_of_made hmade)

theorem uses_afterReclaim (zero : Bool) : (State.afterReclaim zero).uses = none := by
  cases zero
  · rfl
  · rfl

/-- A file that nobody else has locked may be locked or unlocked. -/
theorem Others.relock (h : Others process s a) (hmine : ∀ b, s.locked file = some b → b = a)
    (holder : Option Contender) : Others process (s.setLocked file holder) a := by
  refine ⟨h.path_lt, h.record_lt, h.made_inj, fun b hne => ?_⟩
  have hb := h.sound b hne
  refine ⟨hb.uses_lt, hb.recorded, fun other halive hlocks => ?_, hb.keeps, hb.dead⟩
  have hlocked := hb.locks other halive hlocks
  simp only [State.setLocked]
  rw [Function.update_of_ne, hlocked]
  rintro rfl
  exact hne (hmine b hlocked)

/-- A file that nobody else has to keep may go. -/
theorem Others.unlink (h : Others process s a)
    (hkeeps : ∀ b ≠ a, s.alive (process b) = true → ∀ file, (s.phase b).keeps = some file → s.path ≠ some file) :
    Others process { s with path := none } a := by
  refine ⟨by simp, h.record_lt, h.made_inj, fun b hne => ?_⟩
  have hb := h.sound b hne
  refine ⟨hb.uses_lt, hb.recorded, hb.locks, fun other halive hother => ?_, by simp⟩
  exact absurd (hb.keeps other halive hother) (hkeeps b hne halive other hother)

theorem Others.writeRecord (h : Others process s a) (halive : s.alive (process a) = true)
    (hmade : (s.phase a).made = some file) (hlt : file < s.fresh)
    (hrecorded : ∀ b, s.record file = some b → b = a) (modified : Inode → Nat) :
    Others process { s with record := Function.update s.record file (some a), modified := modified } a := by
  refine ⟨h.path_lt, fun other b hrecord => ?_, h.made_inj, fun b hne => ?_⟩
  · rcases eq_or_ne other file with rfl | hother
    · exact hlt
    · simp only [Function.update_of_ne hother] at hrecord
      exact h.record_lt other b hrecord
  · have hb := h.sound b hne
    refine ⟨hb.uses_lt, fun other c hother hrecord => ?_, hb.locks, hb.keeps, fun zero other hphase hpath => ?_⟩
    · have hother' : other ≠ file := fun heq => hne (h.made_inj b a file (heq ▸ hother) hmade)
      simp only [Function.update_of_ne hother'] at hrecord
      exact hb.recorded other c hother hrecord
    · obtain ⟨c, hrecord, hdead⟩ := hb.dead zero other hphase hpath
      refine ⟨c, ?_, hdead⟩
      simp only
      rw [Function.update_of_ne, hrecord]
      rintro rfl
      rw [hrecorded c hrecord, halive] at hdead
      cases hdead

/-- The file that is created is nobody else's. -/
theorem inv_createNew (h : Inv process s) : Inv process (s.createNew a) := by
  unfold State.createNew
  cases hpath : s.path with
  | some file =>
    refine (h.others a).setPhase _ (by simp [Phase.made]) ?_
    constructor <;> grind -ring
  | none =>
    simp only [State.setPhase]
    refine ⟨by simp, fun file b hrecord => ?_, fun b c file hb hc => ?_, fun b => ?_⟩
    · simp only [Function.update_apply] at hrecord
      have hlt := h.record_lt file b
      grind -ring
    · simp only [Function.update_apply] at hb hc
      split_ifs at hb hc with hb_eq hc_eq hc_eq
      · rw [hb_eq, hc_eq]
      · have hlt := (h.sound c).uses_lt file (Phase.uses_of_made hc)
        exact absurd (Option.some.inj hb) (Nat.ne_of_gt hlt)
      · have hlt := (h.sound b).uses_lt file (Phase.uses_of_made hb)
        exact absurd (Option.some.inj hc) (Nat.ne_of_gt hlt)
      · exact h.made_inj b c file hb hc
    · obtain ⟨huses, hrecorded, hlocks, hkeeps, hdead⟩ := h.sound b
      constructor
      all_goals
        simp only [Function.update_apply]
        grind -ring

/-- A reclaimer that removes the file it has locked takes it from nobody. -/
theorem Inv.removing_keeps (h : Inv process s) {zero dead : Bool} (halive : s.alive (process a) = true)
    (hphase : s.phase a = .removing zero file dead)
    (hcareful : ∀ other, s.path = some other → other = file ∧ (dead = false →
      ∀ b, s.alive (process b) = true → s.phase b ≠ .created file ∧ s.phase b ≠ .written file))
    {b : Contender} (hne : b ≠ a) (hb : s.alive (process b) = true) {other : Inode}
    (hkeeps : (s.phase b).keeps = some other) : s.path ≠ some other := by
  intro hpath
  obtain ⟨rfl, hmakers⟩ := hcareful other hpath
  have hmine := (h.sound a).locks other halive (by rw [hphase]; rfl)
  rcases Phase.locks_of_keeps hkeeps with hlocks | hmaker
  · have htheirs := (h.sound b).locks other hb hlocks
    rw [hmine] at htheirs
    exact hne (Option.some.inj htheirs).symm
  · cases dead with
    | false =>
      have hnot := hmakers rfl b hb
      exact hmaker.elim hnot.1 hnot.2
    | true =>
      obtain ⟨c, hrecord, hdead⟩ := (h.sound a).dead zero other hphase hpath
      have hmade := Phase.made_of_keeps hkeeps
      rw [(h.sound b).recorded other c hmade hrecord, hb] at hdead
      cases hdead

/-- Steps of a contender that has made a file. -/
theorem inv_go_making (h : Inv process s) (hcareful : Careful process s (.go a))
    (halive : s.alive (process a) = true) (hgo : go process s a = some s') (hmade : (s.phase a).made ≠ none) :
    Inv process s' := by
  have hothers := h.others a
  obtain ⟨huses, hrecorded, hlocks, hkeeps, hdead⟩ := h.sound a
  unfold go at hgo
  cases hphase : s.phase a with
  | created file =>
    simp only [hphase, Option.some.injEq, State.writeRecord] at hgo
    subst hgo
    refine (hothers.writeRecord halive (by rw [hphase]; rfl) (huses file (by rw [hphase]; rfl))
      (fun b => hrecorded file b (by rw [hphase]; rfl)) _).setPhase _ (by simp [Phase.made, hphase]) ?_
    constructor <;> grind -ring
  | written file =>
    simp only [hphase, State.lockFile] at hgo
    split_ifs at hgo with hfree
    cases hgo
    refine (hothers.relock (by simp [hfree]) _).setPhase _ (by simp [Phase.made, hphase]) ?_
    constructor <;> grind -ring
  | failing file =>
    simp only [Careful, hphase] at hcareful
    simp only [hphase, Option.some.injEq] at hgo
    subst hgo
    refine (hothers.unlink fun b hne _ other hother hpath => ?_).setPhase _ (by simp [Phase.made]) ?_
    · obtain rfl := hcareful other hpath
      exact hne (h.made_inj b a other (Phase.made_of_keeps hother) (by rw [hphase]; rfl))
    · constructor <;> grind -ring
  | held file | dropping file =>
    simp only [hphase, Option.some.injEq] at hgo
    subst hgo
    refine hothers.setPhase _ (by grind -ring) ?_
    constructor <;> grind -ring
  | unlinking file =>
    simp only [hphase, Option.some.injEq] at hgo
    subst hgo
    have hmine := hkeeps file halive (by rw [hphase]; rfl)
    refine (hothers.unlink fun b hne _ other hother hpath => ?_).setPhase _ (by simp [Phase.made, hphase]) ?_
    · obtain rfl := Option.some.inj (hmine.symm.trans hpath)
      exact hne (h.made_inj b a file (Phase.made_of_keeps hother) (by rw [hphase]; rfl))
    · constructor <;> grind -ring
  | leaving file =>
    simp only [hphase, Option.some.injEq] at hgo
    subst hgo
    exact (hothers.relock (by simp [hlocks file halive (by rw [hphase]; rfl)]) _).rest rfl
  | idle | ready | opening | opened | checking | rechecking | aging | removing | releasing | waited | pausing
  | finished => exact absurd (by rw [hphase]; rfl) hmade

/-- Steps of a contender that looks at the file of another one. -/
theorem inv_go_reclaiming (h : Inv process s) (hcareful : Careful process s (.go a))
    (halive : s.alive (process a) = true) (hgo : go process s a = some s') (hmade : (s.phase a).made = none)
    (huse : (s.phase a).uses ≠ none) : Inv process s' := by
  have hothers := h.others a
  obtain ⟨huses, hrecorded, hlocks, hkeeps, hdead⟩ := h.sound a
  unfold go at hgo
  cases hphase : s.phase a with
  | opened zero file =>
    simp only [hphase] at hgo
    split_ifs at hgo with hfree
    · cases hgo
      refine (hothers.relock (by simp [hfree]) _).setPhase _ (by simp [Phase.made]) ?_
      constructor <;> grind -ring
    · cases hgo
      exact hothers.rest (uses_afterReclaim zero)
  | rechecking zero file =>
    simp only [hphase, Option.some.injEq] at hgo
    subst hgo
    refine hothers.setPhase _ (by grind -ring) ?_
    constructor <;> grind -ring [State.owner]
  | checking zero file | aging zero file =>
    simp only [hphase, Option.some.injEq] at hgo
    subst hgo
    refine hothers.setPhase _ (by grind -ring) ?_
    constructor <;> grind -ring
  | removing zero file dead =>
    simp only [Careful, hphase] at hcareful
    simp only [hphase, Option.some.injEq] at hgo
    subst hgo
    refine (hothers.unlink fun b hne hb other hother => ?_).setPhase _ (by simp [Phase.made]) ?_
    · exact h.removing_keeps halive hphase hcareful hne hb hother
    · constructor <;> grind -ring
  | releasing zero file =>
    simp only [hphase, Option.some.injEq] at hgo
    subst hgo
    exact (hothers.relock (by simp [hlocks file halive (by rw [hphase]; rfl)]) _).rest (uses_afterReclaim zero)
  | created | written | failing | held | dropping | unlinking | leaving => simp [hphase, Phase.made] at hmade
  | idle | ready | opening | waited | pausing | finished => exact absurd (by rw [hphase]; rfl) huse

/-- Steps of a contender that has no file. -/
theorem inv_go_looking (h : Inv process s) (hgo : go process s a = some s') (huse : (s.phase a).uses = none) :
    Inv process s' := by
  have hothers := h.others a
  unfold go at hgo
  cases hphase : s.phase a with
  | idle =>
    simp only [hphase, Option.some.injEq] at hgo
    subst hgo
    refine Others.rest ?_ rfl
    exact ⟨h.path_lt, h.record_lt, h.made_inj, fun b _ => ⟨(h.sound b).uses_lt, (h.sound b).recorded,
      (h.sound b).locks, (h.sound b).keeps, (h.sound b).dead⟩⟩
  | ready =>
    simp only [hphase, Option.some.injEq] at hgo
    exact hgo ▸ inv_createNew h
  | opening zero =>
    simp only [hphase, Option.some.injEq] at hgo
    subst hgo
    split
    · next file hpath =>
      refine hothers.setPhase _ (fun other h => nomatch h) ?_
      refine ⟨fun other huses => ?_, fun _ _ h => (nomatch h), fun _ _ h => (nomatch h), fun _ _ h => (nomatch h),
        fun _ _ h => nomatch h⟩
      obtain rfl := Option.some.inj huses
      exact h.path_lt file hpath
    · exact hothers.rest (uses_afterReclaim zero)
  | waited =>
    simp only [hphase, Option.some.injEq] at hgo
    subst hgo
    refine hothers.rest ?_
    split
    · rfl
    · rfl
  | pausing =>
    simp only [hphase, Option.some.injEq] at hgo
    subst hgo
    exact hothers.rest rfl
  | finished => simp [hphase] at hgo
  | created | written | failing | held | dropping | unlinking | leaving
  | opened | checking | rechecking | aging | removing | releasing =>
    simp [hphase, Phase.uses, Phase.made, Phase.locks] at huse

theorem inv_go (h : Inv process s) (hcareful : Careful process s (.go a)) (halive : s.alive (process a) = true)
    (hgo : go process s a = some s') : Inv process s' := by
  by_cases hmade : (s.phase a).made = none
  · by_cases huse : (s.phase a).uses = none
    · exact inv_go_looking h hgo huse
    · exact inv_go_reclaiming h hcareful halive hgo hmade huse
  · exact inv_go_making h hcareful halive hgo hmade

theorem inv_fail (h : Inv process s) (hfail : fail s a = some s') : Inv process s' := by
  have hothers := h.others a
  obtain ⟨huses, hrecorded, hlocks, hkeeps, hdead⟩ := h.sound a
  unfold fail at hfail
  split at hfail
  all_goals cases hfail
  all_goals
    refine hothers.setPhase _ (by grind -ring [State.afterReclaim]) ?_
    constructor <;> grind -ring [State.afterReclaim]

theorem inv_die (h : Inv process s) (p : Process) : Inv process { s with
    alive := Function.update s.alive p false
    locked := fun file => (s.locked file).filter fun a => process a ≠ p } := by
  refine ⟨h.path_lt, h.record_lt, h.made_inj, fun a => ?_⟩
  obtain ⟨huses, hrecorded, hlocks, hkeeps, hdead⟩ := h.sound a
  have hlives : ∀ b, Function.update s.alive p false (process b) = true →
      s.alive (process b) = true ∧ process b ≠ p := by grind -ring
  refine ⟨huses, hrecorded, fun file halive hfile => ?_, fun file halive hfile => ?_, fun zero file hphase hpath => ?_⟩
  · obtain ⟨halive, hne⟩ := hlives a halive
    simp [hlocks file halive hfile, hne]
  · exact hkeeps file (hlives a halive).1 hfile
  · obtain ⟨b, hrecord, hb⟩ := hdead zero file hphase hpath
    exact ⟨b, hrecord, by grind⟩

/-- **What a careful step keeps.** -/
theorem inv_next (h : Inv process s) {event : Event} (hcareful : Careful process s event)
    (hnext : next process s event = some s') : Inv process s' := by
  unfold next at hnext
  cases event with
  | go a =>
    simp only at hnext
    split_ifs at hnext with halive
    exact inv_go h hcareful halive hnext
  | cancel a =>
    simp only at hnext
    split_ifs at hnext with hready
    cases hnext
    refine (h.others a).setPhase _ (by simp [Phase.made]) ?_
    constructor <;> grind -ring
  | fail a =>
    simp only at hnext
    split_ifs at hnext
    exact inv_fail h hnext
  | die p =>
    cases hnext
    exact inv_die h p
  | pass seconds =>
    cases hnext
    exact ⟨h.path_lt, h.record_lt, h.made_inj, fun a => ⟨(h.sound a).uses_lt, (h.sound a).recorded,
      (h.sound a).locks, (h.sound a).keeps, (h.sound a).dead⟩⟩

theorem inv_of_initial (h : Initial s) : Inv process s := by
  refine ⟨h.path_lt, h.record_lt, fun a b file hmade => ?_, fun a => ?_⟩
  · simp [h.idle, Phase.made] at hmade
  · rw [h.idle]
    constructor <;> grind -ring

variable (process)

/-- Every step of the run is careful. -/
def CarefulRun (s : State) : List Event → Prop
  | [] => True
  | event :: rest => Careful process s event ∧
    match next process s event with
    | some s' => CarefulRun s' rest
    | none => True

variable {process}

theorem inv_run (h : Inv process s) {events : List Event} (hcareful : CarefulRun process s events)
    (hrun : run process s events = some s') : Inv process s' := by
  induction events generalizing s with
  | nil =>
    cases hrun
    exact h
  | cons event rest ih =>
    rw [run, Option.bind_eq_some_iff] at hrun
    obtain ⟨s₁, hnext, hrest⟩ := hrun
    rw [CarefulRun, hnext] at hcareful
    exact ih (inv_next h hcareful.1 hnext) hcareful.2 hrest

/-- **At most one guard lives** after a careful run, of any number of contenders in any number of processes. -/
theorem live_unique_of_careful {s₀ : State} (hinitial : Initial s₀) {events : List Event}
    (hcareful : CarefulRun process s₀ events) (hrun : run process s₀ events = some s) {a b : Contender}
    (ha : Live process s a) (hb : Live process s b) : a = b := by
  have hinv := inv_run (inv_of_initial hinitial) hcareful hrun
  obtain ⟨⟨file, hfile⟩, ha⟩ := ha
  obtain ⟨⟨other, hother⟩, hb⟩ := hb
  have hpath := (hinv.sound a).keeps file ha (by rw [hfile]; rfl)
  have hpath' := (hinv.sound b).keeps other hb (by rw [hother]; rfl)
  obtain rfl := Option.some.inj (hpath.symm.trans hpath')
  exact hinv.made_inj a b file (by rw [hfile]; rfl) (by rw [hother]; rfl)

/-- A guard is taken and its process dies; another contender reads the record, removes the file and takes
its place. -/
def takeover : List Event :=
  [.go 0, .go 0, .go 0, .go 0, .die 0, .go 1, .go 1, .go 1, .go 1, .go 1, .go 1, .go 1, .go 1, .go 1, .go 1, .go 1,
    .go 1, .go 1]

def takenOver : State := (run id start takeover).getD start

theorem careful_takeover : CarefulRun id start takeover := by
  refine ⟨trivial, trivial, trivial, trivial, trivial, trivial, trivial, trivial, trivial, trivial, trivial, ?_,
    trivial, trivial, trivial, trivial, trivial, trivial, trivial⟩
  exact fun other h => ⟨(Option.some.inj h).symm, fun h => by cases h⟩

theorem takeover_live_unique :
    Initial start ∧ CarefulRun id start takeover ∧ run id start takeover = some takenOver ∧
      Live id takenOver 1 ∧ ¬ Live id takenOver 2 := by
  have hlive : Live id takenOver 1 := ⟨⟨1, rfl⟩, rfl⟩
  refine ⟨initial_start, careful_takeover, rfl, hlive, fun hother => ?_⟩
  exact absurd (live_unique_of_careful initial_start careful_takeover rfl hlive hother) (by decide)

/-- A contender creates the file and does not go on. After fifteen minutes another finds no record in it,
removes it and takes its place; then the first one writes its record into the file that has no name any more,
and locks it. -/
def raced : List Event :=
  [.go 0, .go 0, .pass 900, .go 1, .go 1, .go 1, .go 1, .go 1, .go 1, .go 1, .go 1, .go 1, .go 1, .go 1, .go 1, .go 1,
    .go 0, .go 0]

theorem raced_two_live : ∃ s, run id start raced = some s ∧ Live id s 0 ∧ Live id s 1 :=
  ⟨_, rfl, ⟨⟨0, rfl⟩, rfl⟩, ⟨⟨1, rfl⟩, rfl⟩⟩

end Nia.Build.Lock
