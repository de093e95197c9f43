import Nia.Nodes.Store

/-! What the steps on a node store keep.

The protocol of all threads: a number stands in at most one revision of a store, under one locator, which has no other
number there; revisions never lose a locator. As long as no counter has run out, every critical section keeps to it, and
so does every call. -/
namespace Nia.Nodes
open Lib.Interleaving List Function

/-- The revision holds the locator under the index. -/
def Interned (m : Memory) (revision : NodeRevision) (index : Nat) (key : VersionedNodeKey) : Prop :=
  revision.locator index m = some key

/-- How many handles a store has given out. -/
def Memory.handles (m : Memory) (store : Nat) : Nat :=
  ((m.cores store).map fun core => core.locators.entries.length).sum

/-- No counter has run out. -/
structure Limit (m : Memory) : Prop where
  stores : m.storeCount < 2 ^ 32
  handles : ∀ store, m.handles store < 2 ^ 32

/-- The table of a revision has its locators, each of them once. -/
structure NodeRevisionCore.Indexed (hashLocator : VersionedNodeKey → UInt64) (core : NodeRevisionCore) : Prop where
  table : core.byLocator = core.locators.entries.map fun entry => (entry.2.hash, entry.1)
  hashed : ∀ entry ∈ core.locators.entries, entry.2.hash = hashLocator entry.2.key
  once : ∀ entry ∈ core.locators.entries, ∀ other ∈ core.locators.entries, entry.2.key = other.2.key →
    entry.1 = other.1

/-- What every step of every thread keeps. -/
structure Good (hashLocator : VersionedNodeKey → UInt64) (m : Memory) : Prop where
  limit : Limit m
  nextStoreId : m.nextStoreId = min (m.storeCount + 1) (2 ^ 32 - 1)
  nextIndex : ∀ store, m.nextIndex store = m.handles store
  indexed : ∀ store, ∀ core ∈ m.cores store, core.Indexed hashLocator
  below : ∀ revision index key, Interned m revision index key → index < m.nextIndex revision.store
  apart : ∀ revision other index key key', revision.store = other.store → Interned m revision index key →
    Interned m other index key' → revision.number = other.number
  active : ∀ store version revision, m.revisions store version = some revision →
    revision.store = store ∧ revision.version = version ∧ revision.number < (m.cores store).length

/-- A step forgets no store, no revision and no interned name. -/
structure Later (m m' : Memory) : Prop where
  stores : m.storeCount ≤ m'.storeCount
  made : ∀ store, (m.cores store).length ≤ (m'.cores store).length
  interned : ∀ revision index key, Interned m revision index key → Interned m' revision index key

theorem Later.refl (m : Memory) : Later m m := ⟨Nat.le_refl _, fun _ => Nat.le_refl _, fun _ _ _ => id⟩

theorem Later.trans {m m' m'' : Memory} (h : Later m m') (h' : Later m' m'') : Later m m'' :=
  ⟨h.stores.trans h'.stores, fun store => (h.made store).trans (h'.made store),
    fun revision index key hkey => h'.interned revision index key (h.interned revision index key hkey)⟩

/-- What threads that share the stores may rely on. -/
def protocol (hashLocator : VersionedNodeKey → UInt64) : Protocol Memory where
  invariant := Good hashLocator
  Later := Later
  limit := Limit
  refl := .refl
  trans := .trans

/-- The store exists, and its identity is its own. -/
structure NodeStore.Exists (store : NodeStore) (m : Memory) : Prop where
  made : store.address < m.storeCount
  id : store.id = store.address + 1

/-- The store has made the revision. -/
structure NodeRevision.Of (revision : NodeRevision) (store : NodeStore) (m : Memory) : Prop where
  store : revision.store = store.address
  made : revision.number < (m.cores revision.store).length

section

variable {hashLocator : VersionedNodeKey → UInt64} {m m' : Memory} {core : NodeRevisionCore} {store : NodeStore}
  {revision other : NodeRevision} {index : Nat} {locator key : VersionedNodeKey}

/-! ### Tables -/

/-- The table by hash finds a name exactly where it is stored. -/
theorem NodeRevisionCore.find_eq_some_iff (h : core.Indexed hashLocator) :
    core.find (hashLocator locator) locator = some index ↔
      (core.locators.lookup index).map InternedLocator.key = some locator := by
  have hentry {found : UInt64 × Nat} (hfound : core.byLocator.find? (fun entry => entry.1 == hashLocator locator &&
      (core.locators.lookup entry.2).any fun interned => interned.key == locator) = some found) :
      (core.locators.lookup found.2).map InternedLocator.key = some locator := by
    have hmatch := List.find?_some hfound
    obtain ⟨interned, hlookup, hkey⟩ := (Option.any_eq_true _ _).mp (Bool.and_eq_true_iff.mp hmatch).2
    rw [hlookup, Option.map_some, beq_iff_eq.mp hkey]
  unfold NodeRevisionCore.find
  constructor
  · intro hfind
    obtain ⟨found, hfound, rfl⟩ := Option.map_eq_some_iff.mp hfind
    exact hentry hfound
  · intro hlookup
    obtain ⟨interned, hinterned, rfl⟩ := Option.map_eq_some_iff.mp hlookup
    have hmem := AList.mem_lookup_iff.mp hinterned
    have hsome : (core.byLocator.find? fun entry => entry.1 == hashLocator interned.key &&
        (core.locators.lookup entry.2).any fun other => other.key == interned.key).isSome := by
      refine List.find?_isSome.mpr ⟨(interned.hash, index), ?_, ?_⟩
      · rw [h.table]
        exact mem_map_of_mem hmem
      · have hhash : interned.hash = hashLocator interned.key := h.hashed _ hmem
        simp [hhash, hinterned]
    obtain ⟨found, hfound⟩ := Option.isSome_iff_exists.mp hsome
    obtain ⟨interned', hinterned', hkey⟩ := Option.map_eq_some_iff.mp (hentry hfound)
    rw [hfound, Option.map_some]
    exact congrArg some (h.once _ (AList.mem_lookup_iff.mp hinterned') _ hmem hkey)

theorem NodeRevisionCore.indexed_default : (default : NodeRevisionCore).Indexed hashLocator := ⟨rfl, nofun, nofun⟩

theorem NodeRevisionCore.Indexed.add (h : core.Indexed hashLocator) (hfresh : index ∉ core.locators)
    (hnew : core.find (hashLocator locator) locator = none) :
    (core.add index (hashLocator locator) locator).Indexed hashLocator := by
  have hentries : (core.locators.insert index ⟨hashLocator locator, locator⟩).entries =
      ⟨index, ⟨hashLocator locator, locator⟩⟩ :: core.locators.entries := AList.entries_insert_of_notMem hfresh
  have hother : ∀ entry ∈ core.locators.entries, entry.2.key ≠ locator := by
    intro entry hmem hkey
    have hfound := (find_eq_some_iff h).mpr (by rw [AList.mem_lookup_iff.mpr hmem, Option.map_some, hkey])
    rw [hnew] at hfound
    cases hfound
  refine ⟨?_, ?_, ?_⟩
  · rw [NodeRevisionCore.add, hentries, map_cons, h.table]
  · rw [NodeRevisionCore.add, hentries]
    exact forall_mem_cons.mpr ⟨rfl, h.hashed⟩
  · rw [NodeRevisionCore.add, hentries]
    refine forall_mem_cons.mpr ⟨forall_mem_cons.mpr ⟨fun _ => rfl, ?_⟩, fun entry hmem => ?_⟩
    · exact fun entry hmem hkey => absurd hkey.symm (hother entry hmem)
    · exact forall_mem_cons.mpr ⟨fun hkey => absurd hkey (hother entry hmem), h.once entry hmem⟩

theorem fetchIncrement_of_lt {counter : Nat} (h : counter < 2 ^ 32) : (fetchIncrement counter).1 = counter := by
  unfold fetchIncrement
  split
  · rfl
  · dsimp only
    omega

/-- A new revision holds nothing. -/
theorem core_append_default (cores : List NodeRevisionCore) (number : Nat) :
    (cores ++ [default])[number]?.getD default = cores[number]?.getD default := by
  rcases Nat.lt_trichotomy number cores.length with hlt | rfl | hgt
  · rw [List.getElem?_append_left hlt]
  · simp
  · rw [List.getElem?_eq_none (by simpa using Nat.succ_le_of_lt hgt), List.getElem?_eq_none hgt.le]

theorem sum_map_set {α : Type} (f : α → Nat) {items : List α} {number : Nat} {old : α}
    (h : items[number]? = some old) (new : α) :
    ((items.set number new).map f).sum + f old = (items.map f).sum + f new := by
  induction items generalizing number with
  | nil => cases h
  | cons item items ih =>
    cases number with
    | zero =>
      obtain rfl := Option.some.inj h
      simp only [set_cons_zero, map_cons, sum_cons]
      omega
    | succ number =>
      have hrest := ih (List.getElem?_cons_succ ▸ h)
      simp only [set_cons_succ, map_cons, sum_cons]
      omega

section

variable {hash : UInt64} (hmade : revision.number < (m.cores revision.store).length)
include hmade

theorem core_record (other : NodeRevision) : (m.record revision index hash locator).core other =
    if other.store = revision.store ∧ other.number = revision.number then (m.core revision).add index hash locator
    else m.core other := by
  rw [Memory.core, Memory.record]
  dsimp only
  rw [update_apply]
  by_cases hstore : other.store = revision.store
  · rw [if_pos hstore, List.getElem?_set]
    by_cases hnumber : revision.number = other.number
    · rw [if_pos hnumber, if_pos (hnumber ▸ hmade), if_pos ⟨hstore, hnumber.symm⟩, Option.getD_some]
    · rw [if_neg hnumber, if_neg fun hsame => hnumber hsame.2.symm, Memory.core, hstore]
  · rw [if_neg hstore, if_neg fun hsame => hstore hsame.1]
    rfl

variable (hfresh : index ∉ (m.core revision).locators)
include hfresh

theorem interned_record (other : NodeRevision) (i : Nat) (key : VersionedNodeKey) :
    Interned (m.record revision index hash locator) other i key ↔
      (other.store = revision.store ∧ other.number = revision.number) ∧ i = index ∧ key = locator ∨
        Interned m other i key := by
  rw [Interned, NodeRevision.locator, core_record hmade]
  by_cases hsame : other.store = revision.store ∧ other.number = revision.number
  · have hold : m.core other = m.core revision := by rw [Memory.core, Memory.core, hsame.1, hsame.2]
    rw [if_pos hsame, NodeRevisionCore.add, Interned, NodeRevision.locator, hold]
    by_cases hi : i = index
    · rw [hi, AList.lookup_eq_none.mpr hfresh]
      simp [hsame, eq_comm]
    · simp [AList.lookup_insert_ne hi, hi]
  · simp [hsame, Interned, NodeRevision.locator]

theorem handles_record :
    (m.record revision index hash locator).handles revision.store = m.handles revision.store + 1 := by
  have hold : (m.cores revision.store)[revision.number]? = some (m.core revision) := by
    rw [Memory.core, List.getElem?_eq_getElem hmade, Option.getD_some]
  have hlength : ((m.core revision).add index hash locator).locators.entries.length =
      (m.core revision).locators.entries.length + 1 := by
    rw [NodeRevisionCore.add, AList.entries_insert_of_notMem hfresh, length_cons]
  have hsum := sum_map_set (fun core => core.locators.entries.length) hold
    ((m.core revision).add index hash locator)
  rw [hlength] at hsum
  rw [Memory.handles, Memory.record]
  dsimp only
  rw [update_self, Memory.handles]
  omega

end

section

variable (h : Good hashLocator m)
include h

theorem Good.core_indexed (revision : NodeRevision) :
    (m.core revision).Indexed hashLocator := by
  unfold Memory.core
  cases hcore : (m.cores revision.store)[revision.number]? with
  | none => exact NodeRevisionCore.indexed_default
  | some core => exact h.indexed _ core (mem_of_getElem? hcore)

theorem Good.find_eq_some_iff :
    (m.core revision).find (hashLocator locator) locator = some index ↔ Interned m revision index locator :=
  NodeRevisionCore.find_eq_some_iff (h.core_indexed revision)

/-- A number stands for one locator. -/
theorem Good.interned_inj (hstore : revision.store = other.store)
    (hlocator : Interned m revision index locator) (hkey : Interned m other index key) : locator = key := by
  have hnumber := h.apart _ _ _ _ _ hstore hlocator hkey
  have hcore : m.core revision = m.core other := by rw [Memory.core, Memory.core, hstore, hnumber]
  rw [Interned, NodeRevision.locator, hcore] at hlocator
  exact Option.some.inj (hlocator.symm.trans hkey)

/-- A revision holds a locator under one number. -/
theorem Good.index_inj {index' : Nat} (hindex : Interned m revision index locator)
    (hindex' : Interned m revision index' locator) : index = index' :=
  Option.some.inj ((h.find_eq_some_iff.mpr hindex).symm.trans (h.find_eq_some_iff.mpr hindex'))

/-! ### Steps -/

theorem Good.new (hlimit : Limit (NodeStore.new m).2) :
    Good hashLocator (NodeStore.new m).2 ∧ Later m (NodeStore.new m).2 ∧
      (NodeStore.new m).1.Exists (NodeStore.new m).2 := by
  have hcount : m.storeCount + 1 < 2 ^ 32 := hlimit.stores
  have hid := h.nextStoreId
  refine ⟨⟨hlimit, ?_, h.nextIndex, h.indexed, h.below, h.apart, h.active⟩,
    ⟨Nat.le_succ _, fun _ => Nat.le_refl _, fun _ _ _ => id⟩, ⟨Nat.lt_succ_self _, ?_⟩⟩
  · unfold NodeStore.new fetchIncrement
    dsimp only
    split <;> dsimp only <;> omega
  · exact (fetchIncrement_of_lt (by omega)).trans (hid.trans (Nat.min_eq_left (by omega)))

/-- A step that leaves the cores alone keeps to the protocol when the revisions it leaves active were so before. -/
theorem Good.of_active {revisions : Nat → SourceVersion → Option NodeRevision}
    (hrevisions : ∀ store version revision, revisions store version = some revision →
      m.revisions store version = some revision) (activeIndices : Nat → Nat → Option SourceVersion) :
    Good hashLocator { m with revisions, activeIndices } ∧ Later m { m with revisions, activeIndices } :=
  ⟨⟨⟨h.limit.stores, h.limit.handles⟩, h.nextStoreId, h.nextIndex, h.indexed, h.below, h.apart,
    fun store version revision hactive => h.active _ _ _ (hrevisions store version revision hactive)⟩,
    ⟨Nat.le_refl _, fun _ => Nat.le_refl _, fun _ _ _ => id⟩⟩

theorem Good.activate :
    Good hashLocator (store.activate revision index m).2 ∧ Later m (store.activate revision index m).2 := by
  unfold NodeStore.activate
  split
  · exact h.of_active (fun _ _ _ => id) _
  · exact ⟨h, Later.refl m⟩

theorem Good.removeRevision (version : SourceVersion) :
    Good hashLocator (store.removeRevision version m).2 ∧ Later m (store.removeRevision version m).2 := by
  refine h.of_active (fun address version' revision hactive => ?_) m.activeIndices
  rw [update_apply] at hactive
  split at hactive
  · next haddress =>
    rw [update_apply] at hactive
    split at hactive
    · cases hactive
    · exact haddress ▸ hactive
  · exact hactive

theorem Good.acquireRevision (store : NodeStore) (version : SourceVersion) :
    Good hashLocator (store.acquireRevision version m).2 ∧ Later m (store.acquireRevision version m).2 ∧
      (store.acquireRevision version m).1.Of store (store.acquireRevision version m).2 ∧
      (store.acquireRevision version m).1.version = version := by
  unfold NodeStore.acquireRevision
  split
  · next revision hsome =>
    obtain ⟨hstore, hversion, hnumber⟩ := h.active _ _ _ hsome
    exact ⟨h, Later.refl m, ⟨hstore, hstore ▸ hnumber⟩, hversion⟩
  · dsimp only
    generalize hafter : Memory.mk _ _ _ _ _ _ = after
    have hcores : after.cores = update m.cores store.address (m.cores store.address ++ [default]) := by
      rw [← hafter]
    have hindices : after.nextIndex = m.nextIndex := by rw [← hafter]
    have hcore (revision : NodeRevision) : after.core revision = m.core revision := by
      rw [Memory.core, hcores, update_apply]
      split
      · next hstore => rw [core_append_default, Memory.core, hstore]
      · rfl
    have hinterned (revision : NodeRevision) (index : Nat) (key : VersionedNodeKey) :
        Interned after revision index key ↔ Interned m revision index key := by
      rw [Interned, NodeRevision.locator, hcore, Interned, NodeRevision.locator]
    have hhandles (address : Nat) : after.handles address = m.handles address := by
      rw [Memory.handles, hcores, update_apply]
      split
      · next haddress =>
        rw [haddress, map_append, sum_append]
        rfl
      · rfl
    have hlength (address : Nat) : (m.cores address).length ≤ (after.cores address).length := by
      rw [hcores, update_apply]
      split
      · next haddress => simp [haddress]
      · exact Nat.le_refl _
    have hmade : (m.cores store.address).length < (after.cores store.address).length := by simp [hcores]
    refine ⟨⟨⟨?_, fun address => ?_⟩, ?_, fun address => ?_, fun address core hmem => ?_, ?_, ?_, ?_⟩,
      ⟨?_, hlength, ?_⟩, ⟨rfl, hmade⟩, rfl⟩
    · rw [← hafter]
      exact h.limit.stores
    · rw [hhandles]
      exact h.limit.handles address
    · rw [← hafter]
      exact h.nextStoreId
    · rw [hhandles, hindices, h.nextIndex]
    · rw [hcores, update_apply] at hmem
      split at hmem
      · rcases mem_append.mp hmem with hold | hnew
        · exact h.indexed _ core hold
        · rw [mem_singleton.mp hnew]
          exact NodeRevisionCore.indexed_default
      · exact h.indexed _ core hmem
    · simpa only [hinterned, hindices] using h.below
    · simpa only [hinterned] using h.apart
    · intro address version' revision hactive
      rw [← hafter] at hactive
      dsimp only at hactive
      rw [update_apply] at hactive
      split at hactive
      · next haddress =>
        rw [update_apply] at hactive
        split at hactive
        · next hversion =>
          obtain rfl := Option.some.inj hactive
          exact ⟨haddress.symm, hversion.symm, haddress ▸ hmade⟩
        · obtain ⟨hstore, hversion, hnumber⟩ := h.active _ _ _ hactive
          exact ⟨hstore.trans haddress.symm, hversion, haddress ▸ hnumber.trans_le (hlength store.address)⟩
      · obtain ⟨hstore, hversion, hnumber⟩ := h.active _ _ _ hactive
        exact ⟨hstore, hversion, hnumber.trans_le (hlength address)⟩
    · rw [← hafter]
    · exact fun revision index key => (hinterned revision index key).mpr

/-- Interning keeps the invariant, and the name has its index afterwards. -/
theorem Good.intern (hof : revision.Of store m)
    (hlimit : Limit (revision.intern hashLocator store locator m).2) :
    Good hashLocator (revision.intern hashLocator store locator m).2 ∧
      Later m (revision.intern hashLocator store locator m).2 ∧
      Interned (revision.intern hashLocator store locator m).2 revision
        (revision.intern hashLocator store locator m).1 locator := by
  obtain ⟨hstore, hmade⟩ := hof
  unfold NodeRevision.intern at hlimit ⊢
  split at hlimit
  · next index hfound => exact ⟨h, Later.refl m, h.find_eq_some_iff.mp hfound⟩
  next hnew =>
  have hcount := h.limit.handles revision.store
  rw [← h.nextIndex] at hcount
  -- the counter has not run out, so that the number is new
  have hindex : (fetchIncrement (m.nextIndex store.address)).1 = m.nextIndex revision.store := by
    rw [← hstore, fetchIncrement_of_lt hcount]
  generalize hcounter : fetchIncrement (m.nextIndex store.address) = counter at hlimit hindex ⊢
  obtain ⟨index, next⟩ := counter
  dsimp only at hlimit hindex ⊢
  have hunused (other : NodeRevision) (key : VersionedNodeKey) (hother : other.store = revision.store) :
      ¬ Interned m other index key := fun hkey => by
    have hbelow := h.below _ _ _ hkey
    rw [hother, hindex] at hbelow
    exact Nat.lt_irrefl _ hbelow
  have hfresh : index ∉ (m.core revision).locators := by
    intro hmem
    obtain ⟨interned, hinterned⟩ := Option.isSome_iff_exists.mp (AList.lookup_isSome.mpr hmem)
    refine hunused revision interned.key rfl ?_
    rw [Interned, NodeRevision.locator, hinterned, Option.map_some]
  generalize hrecorded : m.record revision index (hashLocator locator) locator = recorded at hlimit ⊢
  have hcores : recorded.cores = update m.cores revision.store ((m.cores revision.store).set revision.number
      ((m.core revision).add index (hashLocator locator) locator)) := by
    rw [← hrecorded, Memory.record]
  have hlength (address : Nat) : (m.cores address).length ≤ (recorded.cores address).length := by
    rw [hcores, update_apply]
    split
    · next haddress => rw [haddress, length_set]
    · exact Nat.le_refl _
  have hinterned (other : NodeRevision) (i : Nat) (key : VersionedNodeKey) : Interned recorded other i key ↔
      (other.store = revision.store ∧ other.number = revision.number) ∧ i = index ∧ key = locator ∨
        Interned m other i key :=
    hrecorded ▸ interned_record hmade hfresh other i key
  have hhandles : recorded.handles revision.store = m.handles revision.store + 1 :=
    hrecorded ▸ handles_record hmade hfresh
  have hnext : next = m.nextIndex revision.store + 1 := by
    have hbound : recorded.handles revision.store < 2 ^ 32 := hlimit.handles revision.store
    rw [hhandles, ← h.nextIndex] at hbound
    rw [← hstore, fetchIncrement, if_pos hbound] at hcounter
    exact (Prod.mk.inj hcounter).2.symm
  refine ⟨⟨hlimit, ?_, fun address => ?_, fun address core hmem => ?_, fun other i key hkey => ?_,
    fun other other' i key key' hsame hkey hkey' => ?_, fun address version other hactive => ?_⟩,
    ⟨?_, hlength, fun other i key hkey => (hinterned other i key).mpr (.inr hkey)⟩,
    (hinterned _ _ _).mpr (.inl ⟨⟨rfl, rfl⟩, rfl, rfl⟩)⟩
  · rw [← hrecorded]
    exact h.nextStoreId
  · change update m.nextIndex store.address next address = recorded.handles address
    rw [update_apply, ← hstore]
    split
    · next haddress => rw [haddress, hhandles, hnext, h.nextIndex]
    · next haddress =>
      rw [h.nextIndex, Memory.handles, Memory.handles, hcores, update_of_ne haddress]
  · change core ∈ recorded.cores address at hmem
    rw [hcores, update_apply] at hmem
    split at hmem
    · rcases mem_or_eq_of_mem_set hmem with hold | rfl
      · exact h.indexed _ core hold
      · exact (h.core_indexed revision).add hfresh hnew
    · exact h.indexed _ core hmem
  · change i < update m.nextIndex store.address next other.store
    rw [update_apply, ← hstore]
    rcases (hinterned other i key).mp hkey with ⟨⟨hother, -⟩, rfl, -⟩ | hold
    · rw [if_pos hother, hnext, hindex]
      exact Nat.lt_succ_self _
    · have hbelow := h.below _ _ _ hold
      split
      · next hother =>
        rw [hother] at hbelow
        omega
      · exact hbelow
  · rcases (hinterned other i key).mp hkey with ⟨⟨hother, hnumber⟩, rfl, -⟩ | hold
    · rcases (hinterned other' _ key').mp hkey' with ⟨⟨-, hnumber'⟩, -⟩ | hold'
      · rw [hnumber, hnumber']
      · exact absurd hold' (hunused _ _ (hsame.symm.trans hother))
    · rcases (hinterned other' i key').mp hkey' with ⟨⟨hother', -⟩, rfl, -⟩ | hold'
      · exact absurd hold (hunused _ _ (hsame.trans hother'))
      · exact h.apart _ _ _ _ _ hsame hold hold'
  · rw [← hrecorded] at hactive
    obtain ⟨hactiveStore, hversion, hnumber⟩ := h.active _ _ _ hactive
    exact ⟨hactiveStore, hversion, hnumber.trans_le (hlength address)⟩
  · rw [← hrecorded]
    exact Nat.le_refl _

end

/-! ### Calls -/

theorem NodeRevision.Of.later (h : revision.Of store m) (hlater : Later m m') : revision.Of store m' :=
  ⟨h.store, h.made.trans_le (hlater.made _)⟩

theorem NodeStore.intern_runs (h : Good hashLocator m) (hof : revision.Of store m)
    (hversion : revision.version = locator.sourceVersion) :
    Runs (protocol hashLocator) (fun id t => id.storeId = store.id ∧ Interned t revision id.index locator)
      (store.intern hashLocator revision locator) m := by
  unfold NodeStore.intern
  rw [if_pos hversion]
  refine Runs.bind (Q := fun index t => Interned t revision index locator) h (.step fun t ht hgood hlimit => ?_)
    fun index t ht hgood hindex => ?_
  · obtain ⟨hkept, hlater, hinterned⟩ := hgood.intern (hof.later ht) hlimit
    exact ⟨hkept, hlater, fun u hu _ => hu.interned _ _ _ hinterned⟩
  · refine Runs.bind (Q := fun _ _ => True) hgood (.step fun u _ hgood _ => ?_) fun _ u hu hgood _ => ?_
    · obtain ⟨hkept, hlater⟩ := hgood.activate
      exact ⟨hkept, hlater, fun _ _ _ => trivial⟩
    · exact Runs.pure fun v hv _ => ⟨rfl, hv.interned _ _ _ (hu.interned _ _ _ hindex)⟩

/-- The revisions are of the store, and one for each version. -/
structure NodeRevisionSet.Of (revisions : NodeRevisionSet) (store : NodeStore) (m : Memory) : Prop where
  distinct : (revisions.map NodeRevision.version).Nodup
  made : ∀ revision ∈ revisions, revision.Of store m

variable {revisions more : NodeRevisionSet} {version : SourceVersion} {append : NodeStoreAppend}

theorem NodeRevisionSet.of_nil : NodeRevisionSet.Of [] store m := ⟨nodup_nil, nofun⟩

theorem NodeRevisionSet.Of.later (h : revisions.Of store m) (hlater : Later m m') : revisions.Of store m' :=
  ⟨h.distinct, fun revision hmem => (h.made revision hmem).later hlater⟩

theorem NodeRevisionSet.Of.eq_of_version (h : revisions.Of store m) (hmem : revision ∈ revisions)
    (hmem' : other ∈ revisions) (hversion : revision.version = other.version) : revision = other :=
  inj_on_of_nodup_map h.distinct hmem hmem' hversion

theorem NodeRevisionSet.Of.insert (h : revisions.Of store m) (hof : revision.Of store m) :
    (revisions.insert revision).Of store m := by
  unfold NodeRevisionSet.insert
  split
  · exact h
  · next hnew =>
    refine ⟨?_, ?_⟩
    · rw [map_append, map_singleton, ← concat_eq_append, nodup_concat]
      refine ⟨fun hmem => ?_, h.distinct⟩
      obtain ⟨existing, hexisting, hversion⟩ := mem_map.mp hmem
      exact hnew (any_eq_true.mpr ⟨existing, hexisting, beq_iff_eq.mpr hversion⟩)
    · exact forall_mem_append.mpr ⟨h.made, forall_mem_singleton.mpr hof⟩

theorem NodeRevisionSet.subset_insert : revisions ⊆ revisions.insert revision := by
  unfold NodeRevisionSet.insert
  split
  · exact List.Subset.refl _
  · exact subset_append_left _ _

theorem NodeRevisionSet.Of.extend (h : revisions.Of store m) (hmore : ∀ revision ∈ more, revision.Of store m) :
    (revisions.extend more).Of store m ∧ revisions ⊆ revisions.extend more := by
  unfold NodeRevisionSet.extend
  induction more generalizing revisions with
  | nil => exact ⟨h, List.Subset.refl _⟩
  | cons revision more ih =>
    obtain ⟨hof, hrest⟩ := forall_mem_cons.mp hmore
    obtain ⟨hextended, hsubset⟩ := ih (h.insert hof) hrest
    exact ⟨hextended, List.Subset.trans subset_insert hsubset⟩

theorem NodeRevisionSet.mem_of_revision (h : revisions.revision version = some revision) :
    revision ∈ revisions ∧ revision.version = version := by
  unfold NodeRevisionSet.revision at h
  have hversion := List.find?_some h
  exact ⟨mem_of_find?_eq_some h, beq_iff_eq.mp hversion⟩

theorem NodeRevisionSet.revision_insert (h : revisions.revision revision.version = none) :
    (revisions.insert revision).revision revision.version = some revision := by
  have hnone : ¬ (revisions.any fun existing => existing.version == revision.version) = true := by
    rw [any_eq_true]
    rintro ⟨existing, hmem, hsame⟩
    exact List.find?_eq_none.mp h existing hmem hsame
  unfold NodeRevisionSet.revision at h
  rw [NodeRevisionSet.insert, if_neg hnone, NodeRevisionSet.revision, List.find?_append, h]
  simp

/-- A locator has a handle of the store, in one of the revisions. -/
structure Appended (store : NodeStore) (revisions : NodeRevisionSet) (locator : VersionedNodeKey) (id : NodeId)
    (m : Memory) : Prop where
  store : id.storeId = store.id
  interned : ∃ revision ∈ revisions, revision.version = locator.sourceVersion ∧ Interned m revision id.index locator

section

variable (h : Good hashLocator m)
include h

theorem NodeStoreAppend.acquire_runs (append : NodeStoreAppend) (version : SourceVersion) :
    Runs (protocol hashLocator) (fun result t => result.1.Of append.store t ∧ result.1.version = version ∧
      result.2 = { append with revisions := append.revisions.insert result.1 }) (append.acquire version) m := by
  refine Runs.bind (Q := fun revision t => revision.Of append.store t ∧ revision.version = version) h
    (.step fun t _ hgood _ => ?_) fun revision t _ _ hrevision => ?_
  · obtain ⟨hkept, hlater, hof, hversion⟩ := hgood.acquireRevision append.store version
    exact ⟨hkept, hlater, fun u hu _ => ⟨hof.later hu, hversion⟩⟩
  · exact Runs.pure fun u hu _ => ⟨hrevision.1.later hu, hrevision.2, rfl⟩

theorem NodeStoreAppend.ensure_runs (hset : append.revisions.Of append.store m) :
    Runs (protocol hashLocator) (fun result t => result.store = append.store ∧
      append.revisions ⊆ result.revisions ∧ result.revisions.Of append.store t ∧
      ∃ revision, result.revisions.revision version = some revision) (append.ensure version) m := by
  unfold NodeStoreAppend.ensure
  cases hfound : append.revisions.revision version with
  | some revision => exact Runs.pure fun t ht _ => ⟨rfl, List.Subset.refl _, hset.later ht, revision, hfound⟩
  | none =>
    refine Runs.bind h (append.acquire_runs h version) fun result t ht _ hacquired => Runs.pure fun u hu _ => ?_
    obtain ⟨hof, rfl, happend⟩ := hacquired
    rw [happend]
    exact ⟨rfl, NodeRevisionSet.subset_insert, (hset.later (ht.trans hu)).insert (hof.later hu), _,
      NodeRevisionSet.revision_insert hfound⟩

theorem NodeStoreAppend.intern_runs (hset : append.revisions.Of append.store m) :
    Runs (protocol hashLocator) (fun result t => result.2.store = append.store ∧
      append.revisions ⊆ result.2.revisions ∧ result.2.revisions.Of append.store t ∧
      Appended append.store result.2.revisions locator result.1 t) (append.intern hashLocator locator) m := by
  refine Runs.bind h (ensure_runs h hset) fun after t _ hgood hensured => ?_
  obtain ⟨hstore, hsubset, hset', revision, hfound⟩ := hensured
  obtain ⟨hmem, hversion⟩ := NodeRevisionSet.mem_of_revision hfound
  rw [NodeStoreAppend.select, hfound]
  change Runs _ _ (after.store.intern hashLocator revision locator >>= fun id => pure (id, after)) t
  refine Runs.bind hgood (NodeStore.intern_runs hgood (hstore ▸ hset'.made revision hmem) hversion)
    fun id u hu _ hid => Runs.pure fun v hv _ => ?_
  exact ⟨hstore, hsubset, hset'.later (hu.trans hv), hid.1.trans (congrArg NodeStore.id hstore),
    revision, hmem, hversion, hv.interned _ _ _ hid.2⟩

/-- What a lookup finds is held by a revision, and it finds what a revision held at its start. -/
theorem NodeRevisionSet.idForLocator_runs (hset : revisions.Of store m) : Runs (protocol hashLocator) (fun answer t =>
      (∀ index, answer = some index → ∃ revision ∈ revisions, revision.version = locator.sourceVersion ∧
        Interned t revision index locator) ∧
      ∀ revision ∈ revisions, revision.version = locator.sourceVersion → ∀ index, Interned m revision index locator →
        answer = some index) (revisions.idForLocator hashLocator locator) m := by
  unfold NodeRevisionSet.idForLocator
  have hcandidate {revision : NodeRevision} : revision ∈ revisions.filter (fun revision =>
      revision.version == locator.sourceVersion) ↔ revision ∈ revisions ∧ revision.version = locator.sourceVersion := by
    rw [mem_filter, beq_iff_eq]
  cases hcandidates : revisions.filter fun revision => revision.version == locator.sourceVersion with
  | nil =>
    refine Runs.pure fun t _ _ => ⟨nofun, fun revision hmem hversion => ?_⟩
    have hnone := hcandidate.mpr ⟨hmem, hversion⟩
    rw [hcandidates] at hnone
    cases hnone
  | cons first rest =>
    obtain ⟨hfirst, hversion⟩ := hcandidate.mp (hcandidates ▸ mem_cons_self)
    -- there is one revision of a version
    obtain rfl : rest = [] := by
      have hnodup := (hset.distinct.of_map).filter fun revision => revision.version == locator.sourceVersion
      rw [hcandidates] at hnodup hcandidate
      refine eq_nil_iff_forall_not_mem.mpr fun other hother => ?_
      obtain ⟨hmem, hsame⟩ := hcandidate.mp (mem_cons_of_mem _ hother)
      rw [hset.eq_of_version hfirst hmem (hversion.trans hsame.symm)] at hnodup
      exact (nodup_cons.mp hnodup).1 hother
    refine Runs.bind h (Q := fun answer t => (∀ index, answer = some index → Interned t first index locator) ∧
      ∀ index, Interned m first index locator → answer = some index) (.read fun t ht hgood u hu _ => ⟨?_, ?_⟩)
      fun answer t _ _ hanswer => ?_
    · exact fun index hindex => hu.interned _ _ _ (hgood.find_eq_some_iff.mp hindex)
    · exact fun index hindex => hgood.find_eq_some_iff.mpr (ht.interned _ _ _ hindex)
    · have hresult : ∀ u, Later t u → (∀ index, answer = some index → ∃ revision ∈ revisions,
          revision.version = locator.sourceVersion ∧ Interned u revision index locator) ∧
          ∀ revision ∈ revisions, revision.version = locator.sourceVersion → ∀ index,
            Interned m revision index locator → answer = some index := by
        refine fun u hu => ⟨fun index hindex => ?_, fun revision hmem hsame index hindex => ?_⟩
        · exact ⟨first, hfirst, hversion, hu.interned _ _ _ (hanswer.1 index hindex)⟩
        · rw [hset.eq_of_version hmem hfirst (hsame.trans hversion.symm)] at hindex
          exact hanswer.2 index hindex
      cases answer with
      | none | some index => exact Runs.pure fun u hu _ => hresult u hu

theorem NodeStore.locator_runs (store : NodeStore) (id : NodeId) :
    Runs (protocol hashLocator) (fun answer t => ∀ key, answer = some key → id.storeId = store.id ∧
      ∃ revision, revision.store = store.address ∧ Interned t revision id.index key) (store.locator id) m := by
  unfold NodeStore.locator
  split
  · exact Runs.pure fun _ _ _ => nofun
  · next hid =>
    refine Runs.bind h (Q := fun found _ => ∀ revision, found = some revision → revision.store = store.address)
      (.read fun t _ hgood u _ _ revision hfound => ?_) fun found t _ _ hfound => ?_
    · obtain ⟨version, -, hactive⟩ := Option.bind_eq_some_iff.mp hfound
      exact (hgood.active _ _ _ hactive).1
    · cases found with
      | none => exact Runs.pure fun _ _ _ => nofun
      | some revision =>
        exact .read fun u _ _ v hv _ key hkey => ⟨not_not.mp hid, revision, hfound revision rfl, hv.interned _ _ _ hkey⟩

theorem NodeStore.retireRevision_runs (store : NodeStore) (version : SourceVersion) :
    Runs (protocol hashLocator) (fun _ _ => True) (store.retireRevision version) m := by
  refine Runs.bind h (Q := fun _ _ => True) (.step fun t _ hgood _ => ?_) fun found t _ hgood _ => ?_
  · obtain ⟨hkept, hlater⟩ := hgood.removeRevision version
    exact ⟨hkept, hlater, fun _ _ _ => trivial⟩
  · cases found with
    | none => exact Runs.pure fun _ _ _ => trivial
    | some revision =>
      refine Runs.bind hgood (Q := fun _ _ => True) (.read fun _ _ _ _ _ _ => trivial) fun indices u _ hgood _ => ?_
      refine Runs.bind hgood (Q := fun _ _ => True) (.step fun v _ hgood _ => ?_) fun _ _ _ _ _ => ?_
      · obtain ⟨hkept, hlater⟩ := hgood.of_active (fun _ _ _ hactive => hactive)
          (store.removeIndices indices v).2.activeIndices
        exact ⟨hkept, hlater, fun _ _ _ => trivial⟩
      · exact Runs.pure fun _ _ _ => trivial

end

end

end Nia.Nodes
