import Nia.Lib.Interleaving

/-! The node store.

A store gives out handles for locators. Each source revision has its own table of locators, behind a lock of its own;
the store's lock guards which revisions are active and which revision a handle belongs to, and handles are numbered by
an atomic counter. Interning publishes a handle in two critical sections and retiring a revision removes its handles in
three, so that other threads may act in between. A retired revision lives on in the products that refer to it, and the
memory keeps every revision a store has ever made. What all steps keep is that a number stands in one revision only and
under one locator, and that no revision forgets a locator. -/
namespace Nia.Nodes
open Lib.Interleaving

/-! ### Locators -/

structure SourceId where
  storeId : Nat
  index : Nat
  deriving DecidableEq

structure SourceVersion where
  id : SourceId
  revision : Nat
  deriving DecidableEq

inductive SyntaxKind
  | module | item | stmt | expr | type | pattern | param | syntaxNode | token
  deriving DecidableEq

inductive NodePosition
  | span (start stop : Nat)
  | childPath (steps : List Nat)
  | childPathRange (start stop : List Nat)
  deriving DecidableEq

structure NodeSite where
  sourceId : SourceId
  kind : SyntaxKind
  position : NodePosition
  deriving DecidableEq

structure VersionedNodeKey where
  site : NodeSite
  revision : Nat
  deriving DecidableEq

def VersionedNodeKey.sourceVersion (key : VersionedNodeKey) : SourceVersion := ⟨key.site.sourceId, key.revision⟩

/-! ### The memory -/

structure NodeId where
  storeId : Nat
  index : Nat
  deriving DecidableEq

/-- A store, shared by all its clones, which hold its identity. -/
structure NodeStore where
  address : Nat
  id : Nat

/-- A revision, shared by all that refer to it: the store that made it, its number there, and its version, which never
changes. -/
structure NodeRevision where
  store : Nat
  number : Nat
  version : SourceVersion
  deriving DecidableEq

structure InternedLocator where
  hash : UInt64
  key : VersionedNodeKey

/-- What the lock of a revision guards. An entry of the table is an index in the bucket of a hash. -/
structure NodeRevisionCore where
  byLocator : List (UInt64 × Nat)
  locators : AList fun _ : Nat => InternedLocator

instance : Inhabited NodeRevisionCore where
  default := ⟨[], ∅⟩

/-- What threads share. The maps that a store's lock guards, its counter, and the cores of all its revisions are found
by the address of the store. -/
structure Memory where
  nextStoreId : Nat := 1
  storeCount : Nat := 0
  revisions : Nat → SourceVersion → Option NodeRevision := fun _ _ => none
  activeIndices : Nat → Nat → Option SourceVersion := fun _ _ => none
  nextIndex : Nat → Nat := fun _ => 0
  cores : Nat → List NodeRevisionCore := fun _ => []

def Memory.core (m : Memory) (revision : NodeRevision) : NodeRevisionCore :=
  (m.cores revision.store)[revision.number]?.getD default

/-- An atomic counter of 32 bits, which stays at its last value: the value taken, and the counter after it. -/
def fetchIncrement (counter : Nat) : Nat × Nat :=
  if counter + 1 < 2 ^ 32 then (counter, counter + 1) else (2 ^ 32 - 1, counter)

/-! ### Critical sections -/

def NodeStore.new (m : Memory) : NodeStore × Memory :=
  (⟨m.storeCount, (fetchIncrement m.nextStoreId).1⟩,
    { m with nextStoreId := (fetchIncrement m.nextStoreId).2, storeCount := m.storeCount + 1 })

def NodeStore.acquireRevision (store : NodeStore) (version : SourceVersion) (m : Memory) : NodeRevision × Memory :=
  match m.revisions store.address version with
  | some revision => (revision, m)
  | none =>
    let revision := ⟨store.address, (m.cores store.address).length, version⟩
    (revision, { m with
      revisions := Function.update m.revisions store.address
        (Function.update (m.revisions store.address) version (some revision))
      cores := Function.update m.cores store.address (m.cores store.address ++ [default]) })

def NodeRevisionCore.find (core : NodeRevisionCore) (hash : UInt64) (locator : VersionedNodeKey) : Option Nat :=
  (core.byLocator.find? fun entry =>
    entry.1 == hash && (core.locators.lookup entry.2).any fun interned => interned.key == locator).map Prod.snd

def NodeRevisionCore.add (core : NodeRevisionCore) (index : Nat) (hash : UInt64) (locator : VersionedNodeKey) :
    NodeRevisionCore :=
  ⟨(hash, index) :: core.byLocator, core.locators.insert index ⟨hash, locator⟩⟩

/-- The memory when a revision holds one more locator. -/
def Memory.record (m : Memory) (revision : NodeRevision) (index : Nat) (hash : UInt64) (locator : VersionedNodeKey) :
    Memory :=
  { m with
    cores := Function.update m.cores revision.store
      ((m.cores revision.store).set revision.number ((m.core revision).add index hash locator)) }

/-- What `NodeRevision::intern` does under the lock of the revision. -/
def NodeRevision.intern (hashLocator : VersionedNodeKey → UInt64) (revision : NodeRevision) (store : NodeStore)
    (locator : VersionedNodeKey) (m : Memory) : Nat × Memory :=
  match (m.core revision).find (hashLocator locator) locator with
  | some index => (index, m)
  | none =>
    let (index, next) := fetchIncrement (m.nextIndex store.address)
    (index, { m.record revision index (hashLocator locator) locator with
      nextIndex := Function.update m.nextIndex store.address next })

/-- The handle becomes active unless its revision was retired meanwhile. -/
def NodeStore.activate (store : NodeStore) (revision : NodeRevision) (index : Nat) (m : Memory) : Unit × Memory :=
  if m.revisions store.address revision.version = some revision then
    ((), { m with
      activeIndices := Function.update m.activeIndices store.address
        (Function.update (m.activeIndices store.address) index (some revision.version)) })
  else ((), m)

def NodeStore.removeRevision (store : NodeStore) (version : SourceVersion) (m : Memory) :
    Option NodeRevision × Memory :=
  (m.revisions store.address version, { m with
    revisions := Function.update m.revisions store.address
      (Function.update (m.revisions store.address) version none) })

def NodeStore.removeIndices (store : NodeStore) (indices : List Nat) (m : Memory) : Unit × Memory :=
  ((), { m with
    activeIndices := Function.update m.activeIndices store.address
      (indices.foldl (fun active index => Function.update active index none) (m.activeIndices store.address)) })

/-! ### Calls -/

def NodeRevision.locator (revision : NodeRevision) (index : Nat) (m : Memory) : Option VersionedNodeKey :=
  ((m.core revision).locators.lookup index).map InternedLocator.key

def NodeStore.locator (store : NodeStore) (id : NodeId) : Program Memory (Option VersionedNodeKey) :=
  if id.storeId ≠ store.id then return none
  else do
    match ← .read fun m => (m.activeIndices store.address id.index).bind (m.revisions store.address) with
    | none => return none
    | some revision => .read (revision.locator id.index)

def NodeStore.retireRevision (store : NodeStore) (version : SourceVersion) : Program Memory Nat := do
  match ← .step (store.removeRevision version) with
  | none => return 0
  | some revision =>
    let indices ← .read fun m => (m.core revision).locators.keys
    .step (store.removeIndices indices)
    return indices.length

def NodeStore.intern (hashLocator : VersionedNodeKey → UInt64) (store : NodeStore) (revision : NodeRevision)
    (locator : VersionedNodeKey) : Program Memory NodeId := do
  let revision ← if revision.version = locator.sourceVersion then pure revision
    else .step (store.acquireRevision locator.sourceVersion)
  let index ← .step (revision.intern hashLocator store locator)
  .step (store.activate revision index)
  return ⟨store.id, index⟩

/-- The revisions of a product, one for each version. -/
abbrev NodeRevisionSet := List NodeRevision

def NodeRevisionSet.revision (revisions : NodeRevisionSet) (version : SourceVersion) : Option NodeRevision :=
  revisions.find? fun revision => revision.version == version

def NodeRevisionSet.insert (revisions : NodeRevisionSet) (revision : NodeRevision) : NodeRevisionSet :=
  if revisions.any fun existing => existing.version == revision.version then revisions else revisions ++ [revision]

def NodeRevisionSet.extend (revisions more : NodeRevisionSet) : NodeRevisionSet :=
  more.foldl NodeRevisionSet.insert revisions

def NodeRevisionSet.idForLocator (hashLocator : VersionedNodeKey → UInt64) (revisions : NodeRevisionSet)
    (locator : VersionedNodeKey) : Program Memory (Option Nat) :=
  (revisions.filter fun revision => revision.version == locator.sourceVersion).findSomeM? fun revision =>
    .read fun m => (m.core revision).find (hashLocator locator) locator

structure NodeStoreAppend where
  store : NodeStore
  revisions : NodeRevisionSet

def NodeStore.append (store : NodeStore) : NodeStoreAppend := ⟨store, []⟩

/-- Acquires the revision of a version and keeps it. -/
def NodeStoreAppend.acquire (append : NodeStoreAppend) (version : SourceVersion) :
    Program Memory (NodeRevision × NodeStoreAppend) := do
  let revision ← .step (append.store.acquireRevision version)
  return (revision, { append with revisions := append.revisions.insert revision })

/-- The first part of `intern`: there is a revision of the version. -/
def NodeStoreAppend.ensure (append : NodeStoreAppend) (version : SourceVersion) : Program Memory NodeStoreAppend :=
  match append.revisions.revision version with
  | none => do
    let (_, append) ← append.acquire version
    return append
  | some _ => return append

/-- The second part of `intern`: the revision of the version. -/
def NodeStoreAppend.select (append : NodeStoreAppend) (version : SourceVersion) :
    Program Memory (NodeRevision × NodeStoreAppend) :=
  match append.revisions.revision version with
  | some revision => return (revision, append)
  | none => append.acquire version

def NodeStoreAppend.intern (hashLocator : VersionedNodeKey → UInt64) (append : NodeStoreAppend)
    (locator : VersionedNodeKey) : Program Memory (NodeId × NodeStoreAppend) := do
  let append ← append.ensure locator.sourceVersion
  let (revision, append) ← append.select locator.sourceVersion
  let id ← append.store.intern hashLocator revision locator
  return (id, append)

end Nia.Nodes
