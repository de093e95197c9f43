import Nia.Nodes.Intern

/-! Node maps.

A map keeps its values by handle, and beside each value the locator the handle stands for. A lookup goes from a locator
to the handle that one of the map's revisions holds for it. As the revisions are one for each version, the handles of a
map stand for different locators, and the map is one from locators to values whatever other threads intern. -/
namespace Nia.Nodes
open Lib.Interleaving Function

variable {V : Type}

structure NodeMapEntry (V : Type) where
  locator : VersionedNodeKey
  value : V

structure NodeMap (V : Type) where
  store : NodeStore
  revisions : NodeRevisionSet
  nodes : AList fun _ : NodeId => NodeMapEntry V

structure NodeMapBuilder (V : Type) where
  append : NodeStoreAppend
  nodes : AList fun _ : NodeId => NodeMapEntry V

/-- The entries in the order of some iteration. -/
def Iterates (nodes : AList fun _ : NodeId => NodeMapEntry V) (entries : List (NodeMapEntry V)) : Prop :=
  entries.Perm (nodes.entries.map Sigma.snd)

def NodeMap.withStore (store : NodeStore) : NodeMap V := ⟨store, [], ∅⟩

def NodeMap.builder (store : NodeStore) : NodeMapBuilder V := ⟨store.append, ∅⟩

def NodeMap.intoBuilder (map : NodeMap V) : NodeMapBuilder V := ⟨⟨map.store, map.revisions⟩, map.nodes⟩

def NodeMapBuilder.finish (builder : NodeMapBuilder V) : NodeMap V :=
  ⟨builder.append.store, builder.append.revisions, builder.nodes⟩

def NodeMap.len (map : NodeMap V) : Nat := map.nodes.entries.length

section

variable (hashLocator : VersionedNodeKey → UInt64)

def NodeMap.nodeId (map : NodeMap V) (locator : VersionedNodeKey) : Program Memory (Option NodeId) := do
  let index ← map.revisions.idForLocator hashLocator locator
  return (index.map (NodeId.mk map.store.id)).filter fun id => (map.nodes.lookup id).isSome

def NodeMap.get (map : NodeMap V) (locator : VersionedNodeKey) : Program Memory (Option V) := do
  let id ← map.nodeId hashLocator locator
  return (id.bind map.nodes.lookup).map NodeMapEntry.value

def NodeMap.containsKey (map : NodeMap V) (locator : VersionedNodeKey) : Program Memory Bool := do
  let id ← map.nodeId hashLocator locator
  return id.isSome

/-- Another map has an equal value for the locator of an entry. -/
def NodeMap.hasEqual [BEq V] (other : NodeMap V) (entry : NodeMapEntry V) : Program Memory Bool := do
  let index ← other.revisions.idForLocator hashLocator entry.locator
  return ((index.map (NodeId.mk other.store.id)).bind other.nodes.lookup).any fun found => found.value == entry.value

/-- Equality, with the entries in the order of the iteration. -/
def NodeMap.eq [BEq V] (map other : NodeMap V) (entries : List (NodeMapEntry V)) : Program Memory Bool :=
  if map.len ≠ other.len then return false
  else entries.allM (other.hasEqual hashLocator)

def NodeMapBuilder.insert (builder : NodeMapBuilder V) (locator : VersionedNodeKey) (value : V) :
    Program Memory (Option V × NodeMapBuilder V) := do
  let (id, append) ← builder.append.intern hashLocator locator
  return ((builder.nodes.lookup id).map NodeMapEntry.value, ⟨append, builder.nodes.insert id ⟨locator, value⟩⟩)

def NodeMapBuilder.insertIfAbsent (builder : NodeMapBuilder V) (locator : VersionedNodeKey) (value : V) :
    Program Memory (NodeMapBuilder V) := do
  let (id, append) ← builder.append.intern hashLocator locator
  return ⟨append, if (builder.nodes.lookup id).isSome then builder.nodes
    else builder.nodes.insert id ⟨locator, value⟩⟩

def NodeMapBuilder.remove (builder : NodeMapBuilder V) (locator : VersionedNodeKey) :
    Program Memory (Option V × NodeMapBuilder V) := do
  match ← builder.append.revisions.idForLocator hashLocator locator with
  | none => return (none, builder)
  | some index =>
    let id : NodeId := ⟨builder.append.store.id, index⟩
    return ((builder.nodes.lookup id).map NodeMapEntry.value, { builder with nodes := builder.nodes.erase id })

def NodeMapBuilder.extend (builder : NodeMapBuilder V) (entries : List (VersionedNodeKey × V)) :
    Program Memory (NodeMapBuilder V) :=
  entries.foldlM (fun builder entry => do
    let (_, builder) ← builder.insert hashLocator entry.1 entry.2
    return builder) builder

/-- The loop of `extend_map` over the entries of a map of the same store. -/
def NodeMapBuilder.internAll (builder : NodeMapBuilder V) (entries : List (NodeMapEntry V)) :
    Program Memory (NodeMapBuilder V) :=
  entries.foldlM (fun builder entry => do
    let (id, append) ← builder.append.intern hashLocator entry.locator
    return ⟨append, builder.nodes.insert id entry⟩) builder

def NodeMapBuilder.extendMap (builder : NodeMapBuilder V) (map : NodeMap V) (entries : List (NodeMapEntry V)) :
    Program Memory (NodeMapBuilder V) :=
  if builder.append.store.id = map.store.id then
    NodeMapBuilder.internAll hashLocator
      ⟨⟨builder.append.store, builder.append.revisions.extend map.revisions⟩, builder.nodes⟩ entries
  else builder.extend hashLocator (entries.map fun entry => (entry.locator, entry.value))

end

/-! ### Maps from locators -/

/-- What a map is for: values of locators. -/
abbrev Content (V : Type) := VersionedNodeKey → Option V

/-- As many locators, and equal values. -/
def Content.Eq [BEq V] (content other : Content V) : Prop :=
  {locator | (content locator).isSome}.ncard = {locator | (other locator).isSome}.ncard ∧
    ∀ locator value, content locator = some value → ∃ value', other locator = some value' ∧ (value' == value) = true

/-- The handles stand for different locators, and the values are those of the content. -/
structure Represents (m : Memory) (store : NodeStore) (revisions : NodeRevisionSet)
    (nodes : AList fun _ : NodeId => NodeMapEntry V) (content : Content V) : Prop where
  made : store.Exists m
  set : revisions.Of store m
  appended : ∀ id entry, nodes.lookup id = some entry → Appended store revisions entry.locator id m
  values : ∀ locator value, content locator = some value ↔ ∃ id, nodes.lookup id = some ⟨locator, value⟩

section

variable {hashLocator : VersionedNodeKey → UInt64} {m m' : Memory} {store : NodeStore}
  {revisions more : NodeRevisionSet} {nodes : AList fun _ : NodeId => NodeMapEntry V} {content : Content V}
  {locator : VersionedNodeKey} {value : V} {id : NodeId} {entry : NodeMapEntry V}

theorem Appended.later (h : Appended store revisions locator id m) (hlater : Later m m') :
    Appended store revisions locator id m' := by
  obtain ⟨hstore, revision, hmem, hversion, hinterned⟩ := h
  exact ⟨hstore, revision, hmem, hversion, hlater.interned _ _ _ hinterned⟩

theorem Appended.subset (h : Appended store revisions locator id m) (hsubset : revisions ⊆ more) :
    Appended store more locator id m := by
  obtain ⟨hstore, revision, hmem, hversion, hinterned⟩ := h
  exact ⟨hstore, revision, hsubset hmem, hversion, hinterned⟩

/-- Handles of a product are equal when their locators are. -/
theorem Appended.eq_iff {locator' : VersionedNodeKey} {id' : NodeId} (hgood : Good hashLocator m)
    (hset : revisions.Of store m) (h : Appended store revisions locator id m)
    (h' : Appended store revisions locator' id' m) : id = id' ↔ locator = locator' := by
  obtain ⟨hstore, revision, hmem, hversion, hinterned⟩ := h
  obtain ⟨hstore', revision', hmem', hversion', hinterned'⟩ := h'
  constructor
  · rintro rfl
    exact hgood.interned_inj ((hset.made _ hmem).store.trans (hset.made _ hmem').store.symm) hinterned hinterned'
  · rintro rfl
    obtain rfl := hset.eq_of_version hmem hmem' (hversion.trans hversion'.symm)
    obtain ⟨storeId, index⟩ := id
    obtain ⟨storeId', index'⟩ := id'
    exact NodeId.mk.injEq _ _ _ _ ▸ ⟨hstore.trans hstore'.symm, hgood.index_inj hinterned hinterned'⟩

theorem NodeStore.Exists.later (h : store.Exists m) (hlater : Later m m') : store.Exists m' :=
  ⟨h.made.trans_le hlater.stores, h.id⟩

theorem represents_empty (h : store.Exists m) : Represents m store [] ∅ (fun _ => none : Content V) :=
  ⟨h, NodeRevisionSet.of_nil, fun _ _ hlookup => by simp at hlookup, fun _ _ => by simp⟩

/-- The content after some values were inserted, the last one first seen. -/
def Content.insertAll (content : Content V) (entries : List (VersionedNodeKey × V)) : Content V :=
  entries.foldl (fun content entry => update content entry.1 (some entry.2)) content

/-- The content after another was merged, whose values win. -/
def Content.merge (content other : Content V) : Content V := fun locator => (other locator).or (content locator)

theorem Content.insertAll_of_forall_ne {entries : List (VersionedNodeKey × V)}
    (h : ∀ entry ∈ entries, entry.1 ≠ locator) : content.insertAll entries locator = content locator := by
  induction entries generalizing content with
  | nil => rfl
  | cons entry entries ih =>
    obtain ⟨hentry, hrest⟩ := List.forall_mem_cons.mp h
    exact (ih hrest).trans (update_of_ne hentry.symm _ _)

theorem Content.insertAll_of_mem {entries : List (VersionedNodeKey × V)}
    (hsame : ∀ entry ∈ entries, entry.1 = locator → entry.2 = value) (hmem : (locator, value) ∈ entries) :
    content.insertAll entries locator = some value := by
  induction entries generalizing content with
  | nil => cases hmem
  | cons entry entries ih =>
    obtain ⟨hentry, hrest⟩ := List.forall_mem_cons.mp hsame
    by_cases hlater : (locator, value) ∈ entries
    · exact ih hrest hlater
    · obtain rfl := (List.mem_cons.mp hmem).resolve_right hlater
      change Content.insertAll (update content locator (some value)) entries locator = some value
      rw [insertAll_of_forall_ne, update_self]
      intro other hother hlocator
      have hvalue := hrest other hother hlocator
      exact hlater (hlocator ▸ hvalue ▸ hother)

section

variable (h : Represents m store revisions nodes content)
include h

theorem Represents.later (hlater : Later m m') : Represents m' store revisions nodes content :=
  ⟨h.made.later hlater, h.set.later hlater, fun id entry hlookup => (h.appended id entry hlookup).later hlater,
    h.values⟩

theorem Represents.subset (hset : more.Of store m)
    (hsubset : revisions ⊆ more) : Represents m store more nodes content :=
  ⟨h.made, hset, fun id entry hlookup => (h.appended id entry hlookup).subset hsubset, h.values⟩

/-- The handle of an entry is that of its locator. -/
theorem Represents.id_eq_iff (hgood : Good hashLocator m)
    (hid : Appended store revisions locator id m) {id' : NodeId} (hlookup : nodes.lookup id' = some entry) :
    id' = id ↔ entry.locator = locator :=
  Appended.eq_iff hgood h.set (h.appended id' entry hlookup) hid

/-- The value at the handle of a locator is that of the locator. -/
theorem Represents.lookup (hgood : Good hashLocator m)
    (hid : Appended store revisions locator id m) : (nodes.lookup id).map NodeMapEntry.value = content locator := by
  cases hlookup : nodes.lookup id with
  | some entry =>
    obtain rfl := (h.id_eq_iff hgood hid hlookup).mp rfl
    exact ((h.values _ entry.value).mpr ⟨id, hlookup⟩).symm
  | none =>
    cases hcontent : content locator with
    | none => rfl
    | some value =>
      obtain ⟨id', hentry⟩ := (h.values locator value).mp hcontent
      rw [(h.id_eq_iff hgood hid hentry).mpr rfl, hlookup] at hentry
      cases hentry

theorem Represents.put (hgood : Good hashLocator m) (hid : Appended store revisions locator id m) :
    Represents m store revisions (nodes.insert id ⟨locator, value⟩) (update content locator (some value)) := by
  refine ⟨h.made, h.set, fun id' entry hlookup => ?_, fun locator' value' => ?_⟩
  · by_cases hsame : id' = id
    · rw [hsame, AList.lookup_insert] at hlookup
      exact hsame ▸ Option.some.inj hlookup ▸ hid
    · rw [AList.lookup_insert_ne hsame] at hlookup
      exact h.appended id' entry hlookup
  · rw [update_apply]
    split
    · next hlocator =>
      subst hlocator
      constructor
      · intro hvalue
        exact ⟨id, (AList.lookup_insert nodes).trans (by rw [Option.some.inj hvalue])⟩
      · rintro ⟨id', hlookup⟩
        have hsame : id' = id := by
          by_contra hne
          rw [AList.lookup_insert_ne hne] at hlookup
          exact hne ((h.id_eq_iff hgood hid hlookup).mpr rfl)
        rw [hsame, AList.lookup_insert] at hlookup
        exact congrArg (Option.map NodeMapEntry.value) hlookup
    · next hlocator =>
      rw [h.values]
      refine exists_congr fun id' => ?_
      by_cases hsame : id' = id
      · refine iff_of_false (fun hlookup => hlocator ((h.id_eq_iff hgood hid hlookup).mp hsame)) fun hlookup => ?_
        rw [hsame, AList.lookup_insert] at hlookup
        exact hlocator (congrArg NodeMapEntry.locator (Option.some.inj hlookup)).symm
      · rw [AList.lookup_insert_ne hsame]

theorem Represents.erase (hgood : Good hashLocator m) (hid : Appended store revisions locator id m) :
    Represents m store revisions (nodes.erase id) (update content locator none) := by
  have hlookup (id' : NodeId) (entry : NodeMapEntry V) : (nodes.erase id).lookup id' = some entry ↔
      nodes.lookup id' = some entry ∧ entry.locator ≠ locator := by
    by_cases hsame : id' = id
    · rw [hsame, AList.lookup_erase]
      exact iff_of_false nofun fun hentry => hentry.2 ((h.id_eq_iff hgood hid hentry.1).mp rfl)
    · rw [AList.lookup_erase_ne hsame]
      exact (and_iff_left_of_imp fun hentry => mt (h.id_eq_iff hgood hid hentry).mpr hsame).symm
  refine ⟨h.made, h.set, fun id' entry herased => h.appended id' entry ((hlookup id' entry).mp herased).1,
    fun locator' value' => ?_⟩
  simp only [hlookup]
  rw [update_apply]
  split
  · next hlocator => exact iff_of_false nofun fun ⟨_, _, hother⟩ => hother hlocator
  · next hlocator =>
    rw [h.values]
    exact exists_congr fun _ => (and_iff_left hlocator).symm

/-- What a lookup by locator reads. -/
theorem Represents.found {answer : Option Nat} {t : Memory} (hlater : Later m t) (hgood : Good hashLocator t)
    (hfound : ∀ index, answer = some index → ∃ revision ∈ revisions, revision.version = locator.sourceVersion ∧
      Interned t revision index locator)
    (hheld : ∀ revision ∈ revisions, revision.version = locator.sourceVersion → ∀ index,
      Interned m revision index locator → answer = some index) :
    ((answer.map (NodeId.mk store.id)).bind nodes.lookup).map NodeMapEntry.value = content locator := by
  cases answer with
  | some index => exact (h.later hlater).lookup hgood ⟨rfl, hfound index rfl⟩
  | none =>
    cases hcontent : content locator with
    | none => rfl
    | some value =>
      obtain ⟨id, hlookup⟩ := (h.values locator value).mp hcontent
      obtain ⟨revision, hmem, hversion, hinterned⟩ := (h.appended id _ hlookup).interned
      cases hheld revision hmem hversion _ hinterned

variable {entries : List (NodeMapEntry V)}

/-- The entries of an iteration are the values. -/
theorem Represents.mem_iff (hiterates : Iterates nodes entries) :
    entry ∈ entries ↔ content entry.locator = some entry.value := by
  rw [hiterates.mem_iff, List.mem_map, h.values]
  constructor
  · rintro ⟨⟨id, entry⟩, hmem, rfl⟩
    exact ⟨id, AList.mem_lookup_iff.mpr hmem⟩
  · rintro ⟨id, hlookup⟩
    exact ⟨⟨id, entry⟩, AList.mem_lookup_iff.mp hlookup, rfl⟩

theorem Represents.insertAll_eq (hiterates : Iterates nodes entries) (base : Content V) :
    base.insertAll (entries.map fun entry => (entry.locator, entry.value)) = base.merge content := by
  funext locator
  rw [Content.merge]
  cases hcontent : content locator with
  | some value =>
    have hmem : (⟨locator, value⟩ : NodeMapEntry V) ∈ entries := (h.mem_iff hiterates).mpr hcontent
    refine Content.insertAll_of_mem (fun entry hentry hlocator => ?_) (List.mem_map_of_mem hmem)
    obtain ⟨found, hfound, rfl⟩ := List.mem_map.mp hentry
    obtain rfl : found.locator = locator := hlocator
    exact Option.some.inj (((h.mem_iff hiterates).mp hfound).symm.trans hcontent)
  | none =>
    refine Content.insertAll_of_forall_ne fun entry hentry hlocator => ?_
    obtain ⟨found, hfound, rfl⟩ := List.mem_map.mp hentry
    obtain rfl : found.locator = locator := hlocator
    cases ((h.mem_iff hiterates).mp hfound).symm.trans hcontent

/-- The map has one entry for each name that has a value. -/
theorem Represents.length_eq (hgood : Good hashLocator m) :
    nodes.entries.length = {locator | (content locator).isSome}.ncard := by
  have hlocators : (nodes.entries.map fun entry => entry.2.locator).Nodup := by
    refine List.Nodup.map_on (fun entry hentry other hother hlocator => ?_) nodes.nodupKeys.nodup
    obtain ⟨id, entry⟩ := entry
    obtain ⟨id', other⟩ := other
    have hlookup := AList.mem_lookup_iff.mpr hentry
    have hlookup' := AList.mem_lookup_iff.mpr hother
    obtain rfl := (h.id_eq_iff hgood (h.appended id' other hlookup') hlookup).mpr hlocator
    obtain rfl := Option.some.inj (hlookup.symm.trans hlookup')
    rfl
  have hset : {locator | (content locator).isSome} = ((nodes.entries.map fun entry => entry.2.locator).toFinset :
      Set VersionedNodeKey) := by
    ext locator
    rw [Set.mem_ofPred_eq, Option.isSome_iff_exists, Finset.mem_coe, List.mem_toFinset, List.mem_map]
    constructor
    · rintro ⟨value, hvalue⟩
      obtain ⟨id, hlookup⟩ := (h.values locator value).mp hvalue
      exact ⟨_, AList.mem_lookup_iff.mp hlookup, rfl⟩
    · rintro ⟨⟨id, entry⟩, hmem, rfl⟩
      exact ⟨entry.value, (h.values _ _).mpr ⟨id, AList.mem_lookup_iff.mpr hmem⟩⟩
  rw [hset, Set.ncard_coe_finset, List.toFinset_card_of_nodup hlocators, List.length_map]

end

/-! ### Calls -/

def NodeMapBuilder.Holds (builder : NodeMapBuilder V) (content : Content V) (m : Memory) : Prop :=
  Represents m builder.append.store builder.append.revisions builder.nodes content

def NodeMap.Holds (map : NodeMap V) (content : Content V) (m : Memory) : Prop :=
  Represents m map.store map.revisions map.nodes content

variable {builder : NodeMapBuilder V} {map other : NodeMap V} {otherContent : Content V}

section

variable (h : Good hashLocator m)
include h

section

variable (hbuilder : builder.Holds content m)
include hbuilder

theorem NodeMapBuilder.intern_runs (locator : VersionedNodeKey) :
    Runs (protocol hashLocator) (fun result t => result.2.store = builder.append.store ∧
      Represents t builder.append.store result.2.revisions builder.nodes content ∧
      Appended builder.append.store result.2.revisions locator result.1 t)
      (builder.append.intern hashLocator locator) m := by
  refine (NodeStoreAppend.intern_runs h hbuilder.set).imp fun result t ht _ hresult => ?_
  obtain ⟨hstore, hsubset, hset, happended⟩ := hresult
  exact ⟨hstore, (hbuilder.later ht).subset hset hsubset, happended⟩

theorem NodeMapBuilder.insert_runs (locator : VersionedNodeKey) (value : V) :
    Runs (protocol hashLocator) (fun result t => result.1 = content locator ∧
      result.2.Holds (update content locator (some value)) t)
      (builder.insert hashLocator locator value) m := by
  refine Runs.bind h (intern_runs h hbuilder locator) fun result t _ hgood hresult => Runs.pure fun u hu hgood' => ?_
  obtain ⟨id, store, revisions⟩ := result
  obtain ⟨rfl, hrepresents, happended⟩ := hresult
  exact ⟨hrepresents.lookup hgood happended, (hrepresents.later hu).put hgood' (happended.later hu)⟩

theorem NodeMapBuilder.insertIfAbsent_runs (locator : VersionedNodeKey) (value : V) :
    Runs (protocol hashLocator) (fun result => result.Holds
      (update content locator (some ((content locator).getD value))))
      (builder.insertIfAbsent hashLocator locator value) m := by
  refine Runs.bind h (intern_runs h hbuilder locator) fun result t _ hgood hresult => Runs.pure fun u hu hgood' => ?_
  obtain ⟨id, store, revisions⟩ := result
  obtain ⟨rfl, hrepresents, happended⟩ := hresult
  have hlookup := hrepresents.lookup hgood happended
  cases hold : builder.nodes.lookup id with
  | none =>
    rw [hold] at hlookup
    rw [← hlookup]
    exact (hrepresents.later hu).put hgood' (happended.later hu)
  | some entry =>
    rw [hold] at hlookup
    have hsame : update content locator (some entry.value) = content :=
      update_eq_self_iff.mpr hlookup
    rw [← hlookup]
    exact hsame.symm ▸ hrepresents.later hu

theorem NodeMapBuilder.remove_runs (locator : VersionedNodeKey) :
    Runs (protocol hashLocator) (fun result t => result.1 = content locator ∧
      result.2.Holds (update content locator none) t) (builder.remove hashLocator locator) m := by
  refine Runs.bind h (NodeRevisionSet.idForLocator_runs h hbuilder.set) fun answer t ht hgood hanswer => ?_
  have hvalue := hbuilder.found ht hgood hanswer.1 hanswer.2
  cases answer with
  | none =>
    have hsame : update content locator none = content := update_eq_self_iff.mpr hvalue
    exact Runs.pure fun u hu _ => ⟨hvalue, hsame.symm ▸ hbuilder.later (ht.trans hu)⟩
  | some index =>
    exact Runs.pure fun u hu hgood' => ⟨hvalue, (hbuilder.later (ht.trans hu)).erase hgood'
      ⟨rfl, (hanswer.1 index rfl).imp fun revision hrevision =>
        ⟨hrevision.1, hrevision.2.1, hu.interned _ _ _ hrevision.2.2⟩⟩⟩

theorem NodeMapBuilder.extend_runs (entries : List (VersionedNodeKey × V)) :
    Runs (protocol hashLocator) (fun result => result.Holds (content.insertAll entries))
      (builder.extend hashLocator entries) m := by
  induction entries generalizing builder content m with
  | nil => exact Runs.pure fun t ht _ => hbuilder.later ht
  | cons entry entries ih =>
    refine Runs.bind h (Q := fun result => result.Holds (update content entry.1 (some entry.2))) ?_
      fun result t _ hgood hresult => ih hgood hresult
    exact Runs.bind h (insert_runs h hbuilder entry.1 entry.2) fun result t _ _ hresult =>
      Runs.pure fun u hu _ => hresult.2.later hu

theorem NodeMapBuilder.internAll_runs (entries : List (NodeMapEntry V)) :
    Runs (protocol hashLocator) (fun result => result.Holds
      (content.insertAll (entries.map fun entry => (entry.locator, entry.value))))
      (builder.internAll hashLocator entries) m := by
  induction entries generalizing builder content m with
  | nil => exact Runs.pure fun t ht _ => hbuilder.later ht
  | cons entry entries ih =>
    refine Runs.bind h (Q := fun result => result.Holds (update content entry.locator (some entry.value))) ?_
      fun result t _ hgood hresult => ih hgood hresult
    refine Runs.bind h (intern_runs h hbuilder entry.locator) fun result t _ _ hresult =>
      Runs.pure fun u hu hgood' => ?_
    obtain ⟨id, store, revisions⟩ := result
    obtain ⟨rfl, hrepresents, happended⟩ := hresult
    exact (hrepresents.later hu).put hgood' (happended.later hu)

theorem NodeMapBuilder.extendMap_runs (hmap : map.Holds otherContent m) (hiterates : Iterates map.nodes entries) :
    Runs (protocol hashLocator) (fun result => result.Holds (content.merge otherContent))
      (builder.extendMap hashLocator map entries) m := by
  unfold NodeMapBuilder.extendMap
  rw [← hmap.insertAll_eq hiterates]
  split
  · next hid =>
    have haddress : map.store.address = builder.append.store.address := by
      have hbuilderId := hbuilder.made.id
      have hmapId := hmap.made.id
      omega
    have hmore : ∀ revision ∈ map.revisions, revision.Of builder.append.store m := fun revision hmem =>
      ⟨(hmap.set.made revision hmem).store.trans haddress, (hmap.set.made revision hmem).made⟩
    obtain ⟨hset, hsubset⟩ := hbuilder.set.extend hmore
    have hextended : NodeMapBuilder.Holds ⟨⟨builder.append.store, builder.append.revisions.extend map.revisions⟩,
        builder.nodes⟩ content m := Represents.subset hbuilder hset hsubset
    exact internAll_runs h hextended entries
  · exact extend_runs h hbuilder _

end

section

variable (hmap : map.Holds content m)
include hmap

theorem NodeMap.nodeId_runs (locator : VersionedNodeKey) :
    Runs (protocol hashLocator) (fun id _ => (id.bind fun id => map.nodes.lookup id).map NodeMapEntry.value =
      content locator ∧ id.isSome = (content locator).isSome) (map.nodeId hashLocator locator) m := by
  refine Runs.bind h (NodeRevisionSet.idForLocator_runs h hmap.set) fun answer t ht hgood hanswer =>
    Runs.pure fun _ _ _ => ?_
  rw [← hmap.found ht hgood hanswer.1 hanswer.2]
  cases answer with
  | none => exact ⟨rfl, rfl⟩
  | some index =>
    rw [Option.map_some, Option.filter_some, Option.bind_some, Option.isSome_map]
    split
    · next hsome => exact ⟨rfl, hsome.symm⟩
    · next hnone =>
      rw [Option.not_isSome_iff_eq_none.mp hnone]
      exact ⟨rfl, rfl⟩

/-- `get` answers from the content, whatever other threads intern. -/
theorem NodeMap.get_runs (locator : VersionedNodeKey) :
    Runs (protocol hashLocator) (fun answer _ => answer = content locator) (map.get hashLocator locator) m :=
  Runs.bind h (nodeId_runs h hmap locator) fun _ _ _ _ hid => Runs.pure fun _ _ _ => hid.1

theorem NodeMap.containsKey_runs (locator : VersionedNodeKey) :
    Runs (protocol hashLocator) (fun answer _ => answer = (content locator).isSome)
      (map.containsKey hashLocator locator) m :=
  Runs.bind h (nodeId_runs h hmap locator) fun _ _ _ _ hid => Runs.pure fun _ _ _ => hid.2

end

variable [BEq V]

theorem NodeMap.hasEqual_runs (hother : other.Holds otherContent m) (entry : NodeMapEntry V) :
    Runs (protocol hashLocator) (fun answer _ => answer = (otherContent entry.locator).any (· == entry.value))
      (other.hasEqual hashLocator entry) m := by
  refine Runs.bind h (NodeRevisionSet.idForLocator_runs h hother.set) fun answer t ht hgood hanswer =>
    Runs.pure fun _ _ _ => ?_
  rw [← hother.found ht hgood hanswer.1 hanswer.2, Option.any_map]

theorem NodeMap.allEqual_runs (hother : other.Holds otherContent m)
    (entries : List (NodeMapEntry V)) :
    Runs (protocol hashLocator)
      (fun answer _ => answer = entries.all fun entry => (otherContent entry.locator).any (· == entry.value))
      (entries.allM (other.hasEqual hashLocator)) m := by
  induction entries generalizing m with
  | nil => exact Runs.pure fun _ _ _ => rfl
  | cons entry entries ih =>
    refine Runs.bind h (hasEqual_runs h hother entry) fun answer t ht hgood hanswer => ?_
    rw [List.all_cons, ← hanswer]
    cases answer with
    | false => exact Runs.pure fun _ _ _ => rfl
    | true => exact ih hgood (hother.later ht)

theorem NodeMap.eq_runs (hmap : map.Holds content m)
    (hother : other.Holds otherContent m) (hiterates : Iterates map.nodes entries) :
    Runs (protocol hashLocator) (fun answer _ => answer = true ↔ content.Eq otherContent)
      (map.eq hashLocator other entries) m := by
  unfold NodeMap.eq NodeMap.len
  rw [hmap.length_eq h, hother.length_eq h]
  split
  · next hlengths => exact Runs.pure fun _ _ _ => iff_of_false nofun fun hequal => hlengths hequal.1
  · next hlengths =>
    refine (allEqual_runs h hother entries).imp fun answer _ _ _ hanswer => ?_
    rw [hanswer, List.all_eq_true]
    refine ⟨fun hall => ⟨not_not.mp hlengths, fun locator value hvalue => ?_⟩, fun hequal entry hentry => ?_⟩
    · exact (Option.any_eq_true _ _).mp (hall ⟨locator, value⟩ ((hmap.mem_iff hiterates).mpr hvalue))
    · exact (Option.any_eq_true _ _).mpr (hequal.2 _ _ ((hmap.mem_iff hiterates).mp hentry))

end

end

end Nia.Nodes
