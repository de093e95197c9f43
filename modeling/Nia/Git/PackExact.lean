import Nia.Git.Pack

/-! An accepted pack solves the equations of its entries.

The entries are read one behind the other, so their offsets ascend. Through the reading of entries and the waking of
deltas the code keeps `Progress`: the objects found so far solve their equations, and each entry is either among them
or waits. -/
namespace Nia.Git.Pack

open Lib Lib.Checks Fallible List

variable {bits : Nat} {inflate : Bytes → Nat → Except IoError (Bytes × Nat)}
  {sha1 : Bytes → Bytes} {payload : Bytes}

/-! ### Entries -/

variable {byte : UInt8} {rest : Bytes} {cursor size cursor' : Nat}

theorem readSize_le {shift size' : Nat}
    (h : readSize bits byte rest cursor size shift = .ok (size', cursor')) : cursor ≤ cursor' := by
  fun_induction readSize bits byte rest cursor size shift with
  | case1 => cases h; exact le_rfl
  | case2 => cases h
  | case3 => cases h
  | case4 => cases h
  | case5 _ _ _ _ _ _ _ _ _ _ _ ih => exact (Nat.le_succ _).trans (ih h)

theorem readDistance_le {value value' : Nat}
    (h : readDistance bits byte rest cursor value = .ok (value', cursor')) : cursor ≤ cursor' := by
  fun_induction readDistance bits byte rest cursor value with
  | case1 => cases h; exact le_rfl
  | case2 => cases h
  | case3 => cases h
  | case4 _ _ _ _ _ _ _ _ _ ih => exact (Nat.le_succ _).trans (ih h)

theorem readPackHeader_lt {offset code : Nat}
    (h : readPackHeader bits payload offset = .ok (code, size, cursor)) : offset < cursor := by
  unfold readPackHeader at h
  split at h
  · cases h
  · obtain ⟨⟨size', cursor'⟩, hsize, h⟩ := bind_eq_ok.mp h
    cases h
    exact readSize_le hsize

theorem readOfsDeltaBase_lt {offset base behind : Nat}
    (h : readOfsDeltaBase bits payload cursor offset = .ok (base, behind)) : cursor < behind := by
  unfold readOfsDeltaBase at h
  split at h
  · cases h
  · obtain ⟨⟨value, cursor'⟩, hvalue, h⟩ := bind_eq_ok.mp h
    obtain ⟨-, -, h⟩ := bind_eq_ok.mp h
    cases h
    exact readDistance_le hvalue

variable {next : Nat} {data : Bytes}

theorem readContent_eq_ok (h : readContent bits inflate payload cursor size = .ok (data, next)) :
    Content inflate payload cursor size data next := by
  obtain ⟨⟨data', used⟩, hread, h⟩ := bind_eq_ok.mp h
  obtain ⟨-, -, h⟩ := bind_eq_ok.mp h
  cases h
  obtain ⟨⟨data', used'⟩, hinflate, hread⟩ := bind_eq_ok.mp hread
  obtain ⟨⟨⟩, hsize, hread⟩ := bind_eq_ok.mp hread
  cases hread
  rw [require_eq_ok] at hsize
  exact ⟨⟨used, hinflate, rfl⟩, by omega⟩

theorem Content.unique {next' : Nat} {data' : Bytes}
    (h : Content inflate payload cursor size data next) (h' : Content inflate payload cursor size data' next') :
    data = data' ∧ next = next' := by
  obtain ⟨used, hread, rfl⟩ := h.inflates
  obtain ⟨used', hread', rfl⟩ := h'.inflates
  cases hread.symm.trans hread'
  exact ⟨rfl, rfl⟩

theorem Content.le (h : Content inflate payload cursor size data next) : cursor ≤ next := by
  obtain ⟨used, -, rfl⟩ := h.inflates
  exact Nat.le_add_right ..

theorem readBody_eq_ok {code offset : Nat} {body : Body}
    (hheader : readPackHeader bits payload offset = .ok (code, size, cursor))
    (h : readBody bits inflate payload code offset cursor size = .ok (body, next)) :
    EntryAt bits inflate payload ⟨offset, size, body⟩ next := by
  have hwhole : (do
      let content ← readContent bits inflate payload cursor size
      let kind ← packKind code
      pure (Body.whole kind content.1, content.2)) = .ok (body, next) →
      EntryAt bits inflate payload ⟨offset, size, body⟩ next := by
    intro h
    obtain ⟨⟨data, next'⟩, hcontent, h⟩ := bind_eq_ok.mp h
    obtain ⟨kind, hkind, h⟩ := bind_eq_ok.mp h
    cases h
    exact .whole hheader hkind (readContent_eq_ok hcontent)
  unfold readBody at h
  split at h
  · exact hwhole h
  · exact hwhole h
  · exact hwhole h
  · exact hwhole h
  · obtain ⟨⟨base, behind⟩, hbase, h⟩ := bind_eq_ok.mp h
    obtain ⟨⟨delta, next'⟩, hcontent, h⟩ := bind_eq_ok.mp h
    cases h
    exact .ofsDelta hheader hbase (readContent_eq_ok hcontent)
  · obtain ⟨⟨⟩, hlength, h⟩ := bind_eq_ok.mp h
    obtain ⟨⟨delta, next'⟩, hcontent, h⟩ := bind_eq_ok.mp h
    cases h
    rw [require_eq_ok] at hlength
    refine .refDelta hheader rfl ?_ (readContent_eq_ok hcontent)
    rw [length_take, length_drop]
    omega
  · cases h

theorem readEntry_eq_ok {remaining offset : Nat} {entry : Entry}
    (h : readEntry bits inflate payload remaining offset = .ok (entry, next)) :
    entry.offset = offset ∧ entry.declaredSize ≤ remaining ∧ EntryAt bits inflate payload entry next := by
  obtain ⟨⟨code, size, cursor⟩, hheader, h⟩ := bind_eq_ok.mp h
  obtain ⟨⟨⟩, hsize, h⟩ := bind_eq_ok.mp h
  obtain ⟨⟨body, next'⟩, hbody, h⟩ := bind_eq_ok.mp h
  cases h
  rw [require_eq_ok] at hsize
  exact ⟨rfl, hsize, readBody_eq_ok hheader hbody⟩

theorem EntryAt.lt {entry : Entry} (h : EntryAt bits inflate payload entry next) : entry.offset < next := by
  cases h with
  | whole hheader _ hcontent => exact (readPackHeader_lt hheader).trans_le hcontent.le
  | ofsDelta hheader hbase hcontent =>
    exact ((readPackHeader_lt hheader).trans (readOfsDeltaBase_lt hbase)).trans_le hcontent.le
  | refDelta hheader _ _ hcontent =>
    exact (readPackHeader_lt hheader).trans_le ((Nat.le_add_right _ 20).trans hcontent.le)

/-- At an offset there is one entry at most. -/
theorem EntryAt.unique {entry entry' : Entry} {next' : Nat} (h : EntryAt bits inflate payload entry next)
    (h' : EntryAt bits inflate payload entry' next') (hoffset : entry.offset = entry'.offset) :
    entry = entry' ∧ next = next' := by
  cases h with
  | whole hheader hkind hcontent =>
    cases h' with
    | whole hheader' hkind' hcontent' =>
      cases hoffset
      cases hheader.symm.trans hheader'
      cases hkind.symm.trans hkind'
      obtain ⟨rfl, rfl⟩ := hcontent.unique hcontent'
      exact ⟨rfl, rfl⟩
    | ofsDelta hheader' | refDelta hheader' =>
      cases hoffset
      cases hheader.symm.trans hheader'
      cases hkind
  | ofsDelta hheader hbase hcontent =>
    cases h' with
    | whole hheader' hkind' =>
      cases hoffset
      cases hheader.symm.trans hheader'
      cases hkind'
    | ofsDelta hheader' hbase' hcontent' =>
      cases hoffset
      cases hheader.symm.trans hheader'
      cases hbase.symm.trans hbase'
      obtain ⟨rfl, rfl⟩ := hcontent.unique hcontent'
      exact ⟨rfl, rfl⟩
    | refDelta hheader' =>
      cases hoffset
      cases hheader.symm.trans hheader'
  | refDelta hheader hbase _ hcontent =>
    cases h' with
    | whole hheader' hkind' =>
      cases hoffset
      cases hheader.symm.trans hheader'
      cases hkind'
    | ofsDelta hheader' =>
      cases hoffset
      cases hheader.symm.trans hheader'
    | refDelta hheader' hbase' _ hcontent' =>
      cases hoffset
      cases hheader.symm.trans hheader'
      obtain ⟨rfl, rfl⟩ := hcontent.unique hcontent'
      exact ⟨by rw [hbase, hbase'], rfl⟩

variable {last : Nat} {entries : List Entry}

theorem EntriesAt.unique {last' : Nat} {entries' : List Entry} (h : EntriesAt bits inflate payload cursor entries last)
    (h' : EntriesAt bits inflate payload cursor entries' last') (hlength : entries.length = entries'.length) :
    entries = entries' := by
  induction h generalizing entries' with
  | nil => exact (List.length_eq_zero_iff.mp hlength.symm).symm
  | @cons entry entries next last hentry _ ih =>
    generalize hcursor : entry.offset = cursor at h'
    cases h' with
    | nil => cases hlength
    | cons hentry' hrest' =>
      obtain ⟨rfl, rfl⟩ := hentry.unique hentry' hcursor
      rw [ih hrest' (Nat.succ.inj hlength)]

/-- Offsets ascend from the cursor. -/
theorem EntriesAt.ascending (h : EntriesAt bits inflate payload cursor entries last) :
    (∀ entry ∈ entries, cursor ≤ entry.offset) ∧ (entries.map Entry.offset).Nodup := by
  induction h with
  | nil => simp
  | cons hentry _ ih =>
    obtain ⟨hle, hnodup⟩ := ih
    have hlater : ∀ other ∈ _, _ := fun other hother => hentry.lt.trans_le (hle other hother)
    refine ⟨forall_mem_cons.mpr ⟨le_rfl, fun other hother => (hlater other hother).le⟩, ?_⟩
    rw [map_cons, nodup_cons]
    refine ⟨fun hmem => ?_, hnodup⟩
    obtain ⟨other, hother, heq⟩ := mem_map.mp hmem
    exact absurd heq (hlater other hother).ne'

/-! ### Progress -/

variable {solved : List Solved} {x : Solved}

theorem Solved.Holds.mono {more : List Solved} (h : x.Holds bits sha1 solved)
    (hsub : ∀ y ∈ solved, y ∈ more) : x.Holds bits sha1 more := by
  unfold Solved.Holds at h ⊢
  split
  · next hbody =>
    rw [hbody] at h
    exact h
  · next hbody =>
    rw [hbody] at h
    obtain ⟨b, hb, h⟩ := h
    exact ⟨b, hsub b hb, h⟩

/-- The objects are those solved. -/
structure Found (bits : Nat) (sha1 : Bytes → Bytes) (objects : List (Nat × GitObject))
    (solved : List Solved) : Prop where
  holds : ∀ x ∈ solved, x.Holds bits sha1 solved
  depth : ∀ x ∈ solved, x.depth ≤ maxDeltaDepth
  found : ∀ x ∈ solved, Association.find objects x.entry.offset = some (x.entry.offset, x.object)
  solved : ∀ found ∈ objects, ∃ x ∈ solved, x.object = found.2

theorem Found.add {objects : List (Nat × GitObject)} (h : Found bits sha1 objects solved)
    (hx : x.Holds bits sha1 solved) (hdepth : x.depth ≤ maxDeltaDepth)
    (hfresh : ∀ y ∈ solved, y.entry.offset ≠ x.entry.offset) :
    Found bits sha1 (Association.insert objects x.entry.offset x.object) (solved ++ [x]) := by
  have hsub : ∀ y ∈ solved, y ∈ solved ++ [x] := fun y hy => mem_append_left _ hy
  refine ⟨?_, ?_, ?_, ?_⟩
  · intro y hy
    rcases mem_append.mp hy with hy | hy
    · exact (h.holds y hy).mono hsub
    · rw [mem_singleton.mp hy]
      exact hx.mono hsub
  · intro y hy
    rcases mem_append.mp hy with hy | hy
    · exact h.depth y hy
    · rw [mem_singleton.mp hy]
      exact hdepth
  · intro y hy
    rcases mem_append.mp hy with hy | hy
    · rw [Association.find_insert_of_ne (hfresh y hy), h.found y hy]
    · rw [mem_singleton.mp hy, Association.find_insert_self]
  · intro found hfound
    rcases Association.mem_insert hfound with rfl | ⟨hfound, -⟩
    · exact ⟨x, by simp, rfl⟩
    · obtain ⟨y, hy, hobject⟩ := h.solved found hfound
      exact ⟨y, hsub y hy, hobject⟩

/-- The entries read so far are solved, about to be woken, or wait. -/
structure Progress (bits : Nat) (sha1 : Bytes → Bytes) (limit : Nat) (entries : List Entry)
    (todo : List (DeltaBase × PendingDelta)) (s : State) (solved : List Solved) : Prop where
  offsets : (solved.map (·.entry.offset) ++ (todo ++ s.waiting).map (·.2.offset)).Perm (entries.map Entry.offset)
  members : ∀ x ∈ solved, x.entry ∈ entries
  waits : ∀ w ∈ todo ++ s.waiting, ∃ size, ⟨w.2.offset, size, .delta w.1 w.2.instructions⟩ ∈ entries
  objects : Found bits sha1 s.objects solved
  ready : ∀ next ∈ s.ready, ∃ x ∈ solved, next = (x.entry.offset, x.depth)
  budget : s.remaining + (entries.map Entry.declaredSize).sum + (solved.map Solved.reconstructed).sum = limit

theorem progress_start (limit : Nat) : Progress bits sha1 limit [] [] { remaining := limit } [] where
  offsets := .nil
  members := nofun
  waits := nofun
  objects := ⟨nofun, nofun, nofun, nofun⟩
  ready := nofun
  budget := rfl

section Steps

variable {limit : Nat} {entries : List Entry} {todo : List (DeltaBase × PendingDelta)} {s : State}
  {solved : List Solved}

theorem Progress.ready_append (h : Progress bits sha1 limit entries todo s solved) (x : Solved) :
    ∀ next ∈ s.ready ++ [(x.entry.offset, x.depth)],
      ∃ y ∈ solved ++ [x], next = (y.entry.offset, y.depth) := by
  intro next hnext
  rcases mem_append.mp hnext with hnext | hnext
  · obtain ⟨y, hy, heq⟩ := h.ready next hnext
    exact ⟨y, mem_append_left _ hy, heq⟩
  · exact ⟨x, by simp, mem_singleton.mp hnext⟩

theorem Progress.addEntry (h : Progress bits sha1 limit entries [] s solved) {entry : Entry}
    (hfresh : ∀ other ∈ entries, other.offset ≠ entry.offset) (hsize : entry.declaredSize ≤ s.remaining) :
    ∃ solved', Progress bits sha1 limit (entries ++ [entry]) [] (s.add sha1 entry) solved' := by
  obtain ⟨offset, size, body⟩ := entry
  have hlater : ∀ other ∈ entries, other ∈ entries ++ [⟨offset, size, body⟩] :=
    fun other hother => mem_append_left _ hother
  have hoffsets := h.offsets.append_right [offset]
  have hbudget := h.budget
  have hwaits : ∀ w ∈ s.waiting,
      ∃ declared, ⟨w.2.offset, declared, .delta w.1 w.2.instructions⟩ ∈ entries ++ [⟨offset, size, body⟩] := by
    intro w hw
    obtain ⟨declared, hmem⟩ := h.waits w hw
    exact ⟨declared, hlater _ hmem⟩
  cases body with
  | whole kind data =>
    let x : Solved := ⟨⟨offset, size, .whole kind data⟩, makeObject sha1 kind data, 0⟩
    refine ⟨solved ++ [x], ?_, ?_, hwaits, ?_, h.ready_append x, ?_⟩
    · simp only [State.add, nil_append, map_append, map_cons, map_nil] at hoffsets ⊢
      refine .trans ?_ hoffsets
      rw [append_assoc, append_assoc]
      exact List.Perm.append_left _ perm_append_comm
    · intro y hy
      rcases mem_append.mp hy with hy | hy
      · exact hlater _ (h.members y hy)
      · rw [mem_singleton.mp hy]
        simp [x]
    · have hx : x.Holds bits sha1 solved := ⟨rfl, rfl⟩
      exact h.objects.add hx (Nat.zero_le _) fun y hy => hfresh _ (h.members y hy)
    · simp only [State.add, map_append, map_cons, map_nil, sum_append, sum_cons, sum_nil,
        Solved.reconstructed, x] at hsize ⊢
      omega
  | delta base instructions =>
    refine ⟨solved, ?_, fun y hy => hlater _ (h.members y hy), ?_, h.objects, h.ready, ?_⟩
    · simp only [State.add, nil_append, map_append, map_cons, map_nil] at hoffsets ⊢
      rwa [← append_assoc]
    · intro w hw
      rcases mem_append.mp (show w ∈ s.waiting ++ [(base, ⟨offset, instructions⟩)] from hw) with hw | hw
      · exact hwaits w hw
      · rw [mem_singleton.mp hw]
        exact ⟨size, by simp⟩
    · simp only [State.add, map_append, map_cons, map_nil, sum_append, sum_cons,
        sum_nil] at hsize ⊢
      omega

/-- The loop over entries. -/
theorem readEntries_progress {count : Nat} {s' : State}
    (hrun : readEntries bits inflate sha1 payload count s cursor = .ok (s', cursor'))
    (h : Progress bits sha1 limit entries [] s solved) (hbefore : ∀ entry ∈ entries, entry.offset < cursor) :
    ∃ more, more.length = count ∧ EntriesAt bits inflate payload cursor more cursor' ∧
      ∃ solved', Progress bits sha1 limit (entries ++ more) [] s' solved' := by
  induction count generalizing entries s cursor solved with
  | zero =>
    cases hrun
    exact ⟨[], rfl, .nil, solved, by rwa [append_nil]⟩
  | succ count ih =>
    obtain ⟨⟨entry, next⟩, hentry, hrest⟩ := bind_eq_ok.mp hrun
    obtain ⟨rfl, hsize, hat⟩ := readEntry_eq_ok hentry
    obtain ⟨solved', h'⟩ := h.addEntry (fun other hother => (hbefore other hother).ne) hsize
    have hbefore' : ∀ other ∈ entries ++ [entry], other.offset < next := by
      intro other hother
      rcases mem_append.mp hother with hother | hother
      · exact (hbefore other hother).trans hat.lt
      · rw [mem_singleton.mp hother]
        exact hat.lt
    obtain ⟨more, hlength, hmore, solved'', h''⟩ := ih hrest h' hbefore'
    refine ⟨entry :: more, by rw [length_cons, hlength], .cons hat hmore, solved'', ?_⟩
    rwa [append_assoc] at h''

/-! ### Waking deltas -/

/-- A limit only rejects. -/
theorem applyDelta_unlimited {base delta : Bytes} {resultLimit : Nat}
    (h : applyDelta bits base delta resultLimit = some (.ok data)) :
    applyDelta bits base delta maxObjectBytes = some (.ok data) ∧ data.length ≤ resultLimit := by
  obtain ⟨outcome, hrun, houtcome⟩ := applyDelta_returns bits base delta resultLimit
  obtain ⟨outcome', hrun', houtcome'⟩ := applyDelta_returns bits base delta maxObjectBytes
  rw [hrun, Option.some.injEq, houtcome] at h
  obtain ⟨source, target, program, hdelta, hsource, htarget, hmax, hlimit, hproduces⟩ := h
  refine ⟨?_, hlimit⟩
  rw [hrun', Option.some.injEq, houtcome']
  exact ⟨source, target, program, hdelta, hsource, htarget, hmax, hmax, hproduces⟩

/-- Code that succeeds leaves such a state. -/
def Leaves (Q : State → Prop) : Except IoError Unit → State → Prop
  | .ok _, s => Q s
  | .error _, _ => True

/-- There is a solution so far, with so many objects and deltas still to come to their turn. -/
def Reached (bits : Nat) (sha1 : Bytes → Bytes) (limit : Nat) (entries : List Entry)
    (todo : List (DeltaBase × PendingDelta)) (turns : Nat) (x : Solved) (s : State) : Prop :=
  ∃ solved, Progress bits sha1 limit entries todo s solved ∧ x ∈ solved ∧
    todo.length + s.ready.length + s.waiting.length = turns

variable {turns : Nat}

theorem Reached.object? (h : Reached bits sha1 limit entries todo turns x s) :
    s.object? x.entry.offset = some x.object := by
  obtain ⟨solved, hprogress, hx, -⟩ := h
  rw [State.object?, hprogress.objects.found x hx, Option.map_some]

theorem Reached.wake {w : DeltaBase × PendingDelta}
    (h : Reached bits sha1 limit entries (w :: todo) turns x s) (hdistinct : (entries.map Entry.offset).Nodup)
    (hnames : w.1.Names x.entry.offset x.object) (hdepth : x.depth < maxDeltaDepth)
    (hdata : applyDelta bits x.object.data w.2.instructions s.remaining = some (.ok data)) :
    Reached bits sha1 limit entries todo turns x { s with
      remaining := s.remaining - data.length
      objects := Association.insert s.objects w.2.offset (makeObject sha1 x.object.kind data)
      ready := s.ready ++ [(w.2.offset, x.depth + 1)] } := by
  obtain ⟨solved, h, hx, hturns⟩ := h
  obtain ⟨happlied, hlimit⟩ := applyDelta_unlimited hdata
  obtain ⟨size, hentry⟩ := h.waits w (mem_append_left _ (mem_cons_self ..))
  let y : Solved := ⟨⟨w.2.offset, size, .delta w.1 w.2.instructions⟩, makeObject sha1 x.object.kind data, x.depth + 1⟩
  have hfresh : ∀ z ∈ solved, z.entry.offset ≠ w.2.offset := by
    have hnodup := h.offsets.nodup_iff.mpr hdistinct
    intro z hz heq
    refine (nodup_append.mp hnodup).2.2 _ (mem_map_of_mem hz) w.2.offset ?_ heq
    simp
  refine ⟨solved ++ [y], ⟨?_, ?_, ?_, ?_, h.ready_append y, ?_⟩, mem_append_left _ hx, ?_⟩
  · refine .trans ?_ h.offsets
    simp [y]
  · intro z hz
    rcases mem_append.mp hz with hz | hz
    · exact h.members z hz
    · rw [mem_singleton.mp hz]
      exact hentry
  · exact fun other hother => h.waits other (mem_cons_of_mem _ hother)
  · have hy : y.Holds bits sha1 solved := ⟨x, hx, hnames, rfl, data, happlied, rfl⟩
    exact h.objects.add hy hdepth hfresh
  · have hbudget := h.budget
    simp only [map_append, map_cons, map_nil, sum_append, sum_cons, sum_nil,
      Solved.reconstructed, makeObject, y]
    omega
  · simp only [length_cons, length_append, length_nil] at hturns ⊢
    omega

theorem wake_returns {w : DeltaBase × PendingDelta}
    (h : Reached bits sha1 limit entries (w :: todo) turns x s) (hdistinct : (entries.map Entry.offset).Nodup)
    (hnames : w.1.Names x.entry.offset x.object) (hdepth : x.depth < maxDeltaDepth) :
    Returns (wake bits sha1 x.entry.offset x.depth w.2) s (Leaves (Reached bits sha1 limit entries todo turns x)) := by
  obtain ⟨outcome, happlied, -⟩ := applyDelta_returns bits x.object.data w.2.instructions s.remaining
  refine Returns.get (Returns.orTrap h.object? (Returns.orTrap happlied ?_))
  cases outcome with
  | error message => exact Returns.throw trivial
  | ok data =>
    refine Returns.orTrap (if_pos (applyDelta_unlimited happlied).2) ?_
    exact ⟨.ok (), _, rfl, h.wake hdistinct hnames hdepth happlied⟩

theorem wakeAll_returns (h : Reached bits sha1 limit entries todo turns x s)
    (hdistinct : (entries.map Entry.offset).Nodup) (hnames : ∀ w ∈ todo, w.1.Names x.entry.offset x.object)
    (hdepth : x.depth < maxDeltaDepth) : Returns ((todo.map Prod.snd).forM (wake bits sha1 x.entry.offset x.depth)) s
      (Leaves (Reached bits sha1 limit entries [] turns x)) := by
  induction todo generalizing s with
  | nil => exact Returns.pure h
  | cons w todo ih =>
    obtain ⟨hw, htodo⟩ := forall_mem_cons.mp hnames
    exact Returns.bind (wake_returns h hdistinct hw hdepth) (fun _ s' hs' => ih hs' htodo) fun _ _ _ => trivial

theorem wakeKey_returns {key : DeltaBase} (h : Reached bits sha1 limit entries [] turns x s)
    (hdistinct : (entries.map Entry.offset).Nodup) (hkey : key.Names x.entry.offset x.object) :
    Returns (wakeKey bits sha1 x.entry.offset x.depth key) s (Leaves (Reached bits sha1 limit entries [] turns x)) := by
  refine Returns.get ?_
  by_cases hnone : (s.waiting.filter fun waiting => decide (waiting.1 = key)).isEmpty = true
  · rw [if_pos hnone]
    exact Returns.pure h
  · rw [if_neg hnone]
    refine Returns.update ?_
    by_cases hdepth : x.depth = maxDeltaDepth
    · rw [if_pos hdepth]
      exact Returns.throw trivial
    · rw [if_neg hdepth]
      obtain ⟨solved, h, hx, hturns⟩ := h
      have hsplit := filter_append_perm (fun w : DeltaBase × PendingDelta => decide (w.1 = key)) s.waiting
      refine wakeAll_returns ⟨solved, ⟨?_, h.members, ?_, h.objects, h.ready, h.budget⟩, hx, ?_⟩ hdistinct ?_ ?_
      · exact ((hsplit.map _).append_left _).trans h.offsets
      · exact fun w hw => h.waits w (hsplit.mem_iff.mp hw)
      · have hlength := hsplit.length_eq
        simp only [length_append, length_nil] at hlength hturns ⊢
        omega
      · intro w hw
        rw [of_decide_eq_true (mem_filter.mp hw).2]
        exact hkey
      · exact lt_of_le_of_ne (h.objects.depth x hx) hdepth

theorem resolveNext_returns (h : Reached bits sha1 limit entries [] turns x s)
    (hdistinct : (entries.map Entry.offset).Nodup) :
    Returns (resolveNext bits sha1 x.entry.offset x.depth) s (Leaves (Reached bits sha1 limit entries [] turns x)) := by
  refine Returns.get (Returns.orTrap h.object? ?_)
  refine Returns.bind (wakeKey_returns h hdistinct rfl) ?_ fun _ _ _ => trivial
  exact fun _ s' hs' => wakeKey_returns hs' hdistinct rfl

/-- The loop over the queue ends, with the queue empty. -/
theorem resolveReady_returns (h : Progress bits sha1 limit entries [] s solved)
    (hdistinct : (entries.map Entry.offset).Nodup) (hturns : s.ready.length + s.waiting.length ≤ turns) :
    Returns (resolveReady bits sha1 turns) s
      (Leaves fun s' => ∃ solved', Progress bits sha1 limit entries [] s' solved') := by
  induction turns generalizing s solved with
  | zero =>
    have hready : s.ready.isEmpty = true := by
      rw [List.isEmpty_iff, ← List.length_eq_zero_iff]
      omega
    refine Returns.get ?_
    rw [if_pos hready]
    exact Returns.pure ⟨solved, h⟩
  | succ turns ih =>
    refine Returns.get ?_
    cases hready : s.ready with
    | nil => exact Returns.pure ⟨solved, h⟩
    | cons next ready =>
      obtain ⟨x, hx, rfl⟩ := h.ready next (by rw [hready]; exact mem_cons_self ..)
      have hpopped : Reached bits sha1 limit entries [] (ready.length + s.waiting.length) x { s with ready } := by
        refine ⟨solved, ⟨h.offsets, h.members, h.waits, h.objects, ?_, h.budget⟩, hx, by simp⟩
        exact fun other hother => h.ready other (by rw [hready]; exact mem_cons_of_mem _ hother)
      refine Returns.update (Returns.bind (resolveNext_returns hpopped hdistinct) ?_ fun _ _ _ => trivial)
      rintro - s' ⟨solved', h', -, hcount⟩
      refine ih h' ?_
      rw [hready, length_cons] at hturns
      rw [length_nil] at hcount
      omega

/-- Nothing waits any more: a solution. -/
theorem Progress.solution (h : Progress bits sha1 limit entries [] s solved)
    (hdistinct : (entries.map Entry.offset).Nodup) (hwaiting : s.waiting = []) :
    Solution bits sha1 limit entries solved := by
  have hoffsets := h.offsets
  rw [hwaiting, append_nil, map_nil, append_nil] at hoffsets
  have hmap : (solved.map Solved.entry).map Entry.offset = solved.map (·.entry.offset) := map_map
  have hnodup : (solved.map Solved.entry).Nodup := by
    refine List.Nodup.of_map Entry.offset ?_
    rw [hmap]
    exact hoffsets.nodup_iff.mpr hdistinct
  have hsub : (solved.map Solved.entry).Subperm entries := by
    refine subperm_of_subset hnodup fun entry hentry => ?_
    obtain ⟨x, hx, rfl⟩ := mem_map.mp hentry
    exact h.members x hx
  refine ⟨hsub.perm_of_length_le ?_, h.objects.holds, h.objects.depth, ?_⟩
  · have hlength := hoffsets.length_eq
    simp only [length_map] at hlength ⊢
    exact hlength.ge
  · have hbudget := h.budget
    omega

end Steps

/-! ### Collecting -/

theorem byId_concat (objects : List GitObject) (object : GitObject) :
    byId (objects ++ [object]) =
      (byId objects).filter (fun entry => !decide (entry.1 = object.id)) ++ [(object.id, object)] := by
  rw [byId, foldl_append]
  rfl

theorem byId_collects (objects : List GitObject) :
    ((byId objects).map Prod.fst).Nodup ∧ (∀ object ∈ objects, ∃ other, (object.id, other) ∈ byId objects) ∧
      ∀ entry ∈ byId objects, entry.1 = entry.2.id ∧ entry.2 ∈ objects := by
  induction objects using List.reverseRecOn with
  | nil => exact ⟨nodup_nil, nofun, nofun⟩
  | append_singleton objects last ih =>
    obtain ⟨hnodup, hfound, hsolved⟩ := ih
    rw [byId_concat]
    refine ⟨?_, ?_, ?_⟩
    · rw [map_append, nodup_append]
      refine ⟨hnodup.sublist (filter_sublist.map Prod.fst), nodup_singleton _, ?_⟩
      intro id hid other hother heq
      obtain ⟨entry, hentry, rfl⟩ := mem_map.mp hid
      have hne := (mem_filter.mp hentry).2
      rw [heq, mem_singleton.mp hother] at hne
      simp at hne
    · intro object hobject
      by_cases hid : object.id = last.id
      · exact ⟨last, by simp [hid]⟩
      · rcases mem_append.mp hobject with hobject | hobject
        · obtain ⟨other, hother⟩ := hfound object hobject
          exact ⟨other, mem_append_left _ (mem_filter.mpr ⟨hother, by simpa using hid⟩)⟩
        · exact absurd (congrArg GitObject.id (mem_singleton.mp hobject)) hid
    · intro entry hentry
      rcases mem_append.mp hentry with hentry | hentry
      · obtain ⟨hid, hmem⟩ := hsolved entry (mem_filter.mp hentry).1
        exact ⟨hid, mem_append_left _ hmem⟩
      · rw [mem_singleton.mp hentry]
        simp

theorem Found.collects {objects : List (Nat × GitObject)} (h : Found bits sha1 objects solved) :
    Collects solved (byId (objects.map Prod.snd)) := by
  obtain ⟨hnodup, hfound, hsolved⟩ := byId_collects (objects.map Prod.snd)
  refine ⟨hnodup, ?_, ?_⟩
  · intro x hx
    exact hfound x.object (mem_map.mpr ⟨_, Association.mem_of_find (h.found x hx), rfl⟩)
  · intro entry hentry
    obtain ⟨hid, hmem⟩ := hsolved entry hentry
    obtain ⟨found, hmem, heq⟩ := mem_map.mp hmem
    obtain ⟨x, hx, hobject⟩ := h.solved found hmem
    exact ⟨hid, x, hx, hobject.trans heq⟩

/-! ### Solutions -/

section

variable {limit : Nat} (h : Solution bits sha1 limit entries solved)
include h

theorem Solution.entry_mem (hx : x ∈ solved) : x.entry ∈ entries :=
  h.covers.mem_iff.mp (mem_map_of_mem hx)

/-- Depths descend along bases, so every object is reached from a whole one. -/
theorem Solution.reaches (hx : x ∈ solved) : Reaches bits sha1 entries x.entry x.object := by
  induction hdepth : x.depth using Nat.strongRecOn generalizing x with
  | _ depth ih =>
  have hholds := h.holds x hx
  have hentry := h.entry_mem hx
  obtain ⟨⟨offset, size, body⟩, object, _⟩ := x
  cases body with
  | whole kind data =>
    obtain ⟨hobject, -⟩ := hholds
    rw [hobject]
    exact .whole hentry
  | delta base instructions =>
    obtain ⟨b, hb, hnames, hnext, happlies⟩ := hholds
    exact .delta hentry (ih b.depth (by rw [← hdepth, hnext]; exact Nat.lt_succ_self _) hb rfl) hnames happlies

/-- While ids do not collide there is no other solution. -/
theorem Solution.unique {assigned : Nat → GitObject} (hassigned : Satisfies bits sha1 entries assigned)
    (hids : ∀ a ∈ entries, ∀ b ∈ entries, (assigned a.offset).id = (assigned b.offset).id →
      assigned a.offset = assigned b.offset) (hx : x ∈ solved) : assigned x.entry.offset = x.object := by
  induction hdepth : x.depth using Nat.strongRecOn generalizing x with
  | _ depth ih =>
  have hholds := h.holds x hx
  have hentry := h.entry_mem hx
  have hequation := hassigned _ hentry
  obtain ⟨⟨offset, size, body⟩, object, _⟩ := x
  cases body with
  | whole kind data => exact hequation.trans hholds.1.symm
  | delta base instructions =>
    obtain ⟨b, hb, hnames, hnext, data, happlied, hobject⟩ := hholds
    obtain ⟨c, hc, hnames', data', happlied', hobject'⟩ := hequation
    have hbase := ih b.depth (by rw [← hdepth, hnext]; exact Nat.lt_succ_self _) hb rfl
    have hsame : assigned c.offset = b.object := by
      cases base with
      | offset place =>
        obtain rfl : place = b.entry.offset := hnames
        rw [← (show b.entry.offset = c.offset from hnames'), hbase]
      | id id =>
        rw [← hbase]
        refine hids c hc b.entry (h.entry_mem hb) ?_
        rw [hbase, ← (show id = b.object.id from hnames), (show id = (assigned c.offset).id from hnames')]
    rw [hsame] at happlied' hobject'
    cases happlied.symm.trans happlied'
    exact hobject'.trans hobject.symm

end

/-! ### Whole packs -/

theorem readPack_eq_ok {pack : Bytes} {limit : Nat} {s : State}
    (h : readPack bits inflate sha1 pack limit = .ok s) :
    ∃ entries, Lists bits inflate pack entries ∧ (entries.map Entry.offset).Nodup ∧
      ∃ solved, Progress bits sha1 limit entries [] s solved := by
  obtain ⟨count, hheader, h⟩ := bind_eq_ok.mp h
  obtain ⟨⟨s', cursor⟩, hread, h⟩ := bind_eq_ok.mp h
  obtain ⟨⟨⟩, hend, h⟩ := bind_eq_ok.mp h
  cases h
  rw [require_eq_ok] at hend
  have hcount : declaredCount pack = count := by
    unfold readHeader at hheader
    simp only [bind_eq_ok, pure_eq_ok, require_eq_ok, exists_and_left] at hheader
    obtain ⟨-, -, -, -, -, -, _, _, _, _, _, _, hcount⟩ := hheader
    exact hcount
  obtain ⟨entries, hlength, hat, hsolved⟩ := readEntries_progress hread (progress_start limit)
    fun _ hentry => absurd hentry not_mem_nil
  rw [nil_append] at hsolved
  exact ⟨entries, ⟨hlength.trans hcount.symm, hend ▸ hat⟩, hat.ascending.2, hsolved⟩

theorem decodePackObjects_returns (pack : Bytes) (limit : Nat) :
    ∃ outcome, decodePackObjects bits inflate sha1 pack limit = some outcome ∧
      ∀ result, outcome = .ok result → ∃ entries solved, Lists bits inflate pack entries ∧
        Solution bits sha1 limit entries solved ∧ Collects solved result := by
  unfold decodePackObjects
  cases hread : readPack bits inflate sha1 pack limit with
  | error error => exact ⟨_, rfl, nofun⟩
  | ok s =>
    obtain ⟨entries, hlists, hdistinct, solved, hprogress⟩ := readPack_eq_ok hread
    obtain ⟨outcome, s', hrun, hleaves⟩ := resolveReady_returns hprogress hdistinct le_rfl
    simp only [hrun]
    cases outcome with
    | error error => exact ⟨_, rfl, nofun⟩
    | ok _ =>
      obtain ⟨solved', h⟩ := hleaves
      by_cases hwaiting : s'.waiting.isEmpty = true
      · refine ⟨_, if_pos hwaiting, fun result hresult => ⟨entries, solved', hlists, ?_, ?_⟩⟩
        · exact h.solution hdistinct (List.isEmpty_iff.mp hwaiting)
        · cases hresult
          exact h.objects.collects
      · exact ⟨_, if_neg hwaiting, nofun⟩

/-- **Decoding a pack returns. What it accepts is the solution of the equations of the entries that fill the pack, the
only one while ids do not collide, within the limits and with one object for each id. A pack with an entry that does
not lead to a whole object is rejected.** -/
theorem decodePackObjects_exact (bits : Nat) (inflate : List UInt8 → Nat → Except IoError (List UInt8 × Nat))
    (sha1 : List UInt8 → List UInt8) (pack : List UInt8) (limit : Nat) :
    (∃ outcome, decodePackObjects bits inflate sha1 pack limit = some outcome) ∧
      (∀ result, decodePackObjects bits inflate sha1 pack limit = some (.ok result) →
        ∃ entries solved, Lists bits inflate pack entries ∧ Solution bits sha1 limit entries solved ∧
          Collects solved result ∧ ∀ assigned, Satisfies bits sha1 entries assigned →
            (∀ a ∈ entries, ∀ b ∈ entries, (assigned a.offset).id = (assigned b.offset).id →
              assigned a.offset = assigned b.offset) →
            ∀ x ∈ solved, assigned x.entry.offset = x.object) ∧
      ∀ entries, Lists bits inflate pack entries →
        (∃ entry ∈ entries, ∀ object, ¬Reaches bits sha1 entries entry object) →
        ∃ error, decodePackObjects bits inflate sha1 pack limit = some (.error error) := by
  obtain ⟨outcome, hrun, houtcome⟩ := @decodePackObjects_returns bits inflate sha1 pack limit
  refine ⟨⟨outcome, hrun⟩, ?_, ?_⟩
  · intro result hresult
    obtain ⟨entries, solved, hlists, hsolution, hcollects⟩ :=
      houtcome result (Option.some.inj (hrun.symm.trans hresult))
    exact ⟨entries, solved, hlists, hsolution, hcollects,
      fun assigned hassigned hids x hx => hsolution.unique hassigned hids hx⟩
  · rintro entries hlists ⟨entry, hentry, hnone⟩
    cases outcome with
    | error error => exact ⟨error, hrun⟩
    | ok result =>
      obtain ⟨entries', solved, hlists', hsolution, -⟩ := houtcome result rfl
      obtain rfl : entries = entries' :=
        hlists.filled.unique hlists'.filled (hlists.count.trans hlists'.count.symm)
      obtain ⟨x, hx, rfl⟩ := mem_map.mp (hsolution.covers.mem_iff.mpr hentry)
      exact absurd (hsolution.reaches hx) (hnone x.object)

/-- The compressed stream of no bytes. -/
def emptyStream : Bytes := [0x78, 0x9c, 3, 0, 0, 0, 0, 1]

def inflateEmpty (input : Bytes) (_ : Nat) : Except IoError (Bytes × Nat) :=
  if emptyStream.isPrefixOf input then .ok ([], 8) else .error (invalidPacket "corrupt deflate stream")

/-- Two entries that hold the same object, the empty blob, without the digest at their end. -/
def repeatedBody : Bytes :=
  [80, 65, 67, 75, 0, 0, 0, 2, 0, 0, 0, 2] ++ 0x30 :: emptyStream ++ 0x30 :: emptyStream

def repeatedDigest : Bytes :=
  [39, 7, 46, 241, 117, 139, 76, 255, 248, 75, 221, 220, 209, 117, 106, 23, 163, 68, 50, 90]

def emptyBlobId : Bytes :=
  [230, 157, 226, 155, 178, 209, 214, 67, 75, 139, 41, 174, 119, 90, 216, 194, 228, 140, 83, 145]

/-- The digests of the pack and of `blob 0` with a zero byte. -/
def digestOf (message : Bytes) : Bytes :=
  if message = repeatedBody then repeatedDigest else if message = [98, 108, 111, 98, 32, 48, 0] then emptyBlobId else []

/-- They are one object of the result. -/
theorem repeated_object_counts_once :
    declaredCount (repeatedBody ++ repeatedDigest) = 2 ∧
      decodePackObjects 64 inflateEmpty digestOf (repeatedBody ++ repeatedDigest) 0 =
        some (.ok [(emptyBlobId, ⟨.blob, [], emptyBlobId⟩)]) := by
  refine ⟨by decide, ?_⟩
  rfl

end Nia.Git.Pack
