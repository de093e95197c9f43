import Nia.Nodes.Map

/-! Threads on node stores.

Any number of calls run at once, on any stores; a step lets one of them pass one critical section. A builder belongs to
the call that uses it, while maps are shared. Beside each map and builder stands the content that the calls so far
describe: the last value inserted or merged for each locator. -/
namespace Nia.Nodes
open Lib.Interleaving List

variable {V : Type}

/-- What calls return. -/
inductive Product (V : Type) where
  | append (append : NodeStoreAppend)
  | handle (id : NodeId) (locator : VersionedNodeKey)
  | builder (builder : NodeMapBuilder V) (content : Content V)
  | map (map : NodeMap V) (content : Content V)
  /-- The locator a store found for a handle. -/
  | located (id : NodeId) (answer : Option VersionedNodeKey)
  /-- The value a map had, by its content and by its answer. -/
  | got (content : Content V) (locator : VersionedNodeKey) (answer : Option V)
  | contained (content : Content V) (locator : VersionedNodeKey) (answer : Bool)
  | compared (content other : Content V) (answer : Bool)

structure State (V : Type) where
  memory : Memory
  stores : List NodeStore
  products : List (Product V)
  running : List (Program Memory (List (Product V)))

def State.init : State V := ⟨{}, [], [], []⟩

/-- A call on a builder: what it runs, and what it does to the content. -/
inductive BuilderCall (V : Type) where
  | insert (locator : VersionedNodeKey) (value : V)
  | insertIfAbsent (locator : VersionedNodeKey) (value : V)
  | remove (locator : VersionedNodeKey)
  | extend (entries : List (VersionedNodeKey × V))
  | extendMap (map : NodeMap V) (content : Content V) (entries : List (NodeMapEntry V))

section

variable (hashLocator : VersionedNodeKey → UInt64)

def BuilderCall.run (builder : NodeMapBuilder V) (content : Content V) :
    BuilderCall V → Program Memory (List (Product V))
  | .insert locator value => do
    let (old, builder) ← builder.insert hashLocator locator value
    return [.builder builder (Function.update content locator (some value)), .got content locator old]
  | .insertIfAbsent locator value => do
    let builder ← builder.insertIfAbsent hashLocator locator value
    return [.builder builder (Function.update content locator (some ((content locator).getD value)))]
  | .remove locator => do
    let (old, builder) ← builder.remove hashLocator locator
    return [.builder builder (Function.update content locator none), .got content locator old]
  | .extend entries => do
    let builder ← builder.extend hashLocator entries
    return [.builder builder (content.insertAll entries)]
  | .extendMap map mapContent entries => do
    let builder ← builder.extendMap hashLocator map entries
    return [.builder builder (content.merge mapContent)]

/-- A map that is merged is one of the maps, its entries in any order. -/
def BuilderCall.Admissible (products : List (Product V)) : BuilderCall V → Prop
  | .extendMap map content entries => .map map content ∈ products ∧ Iterates map.nodes entries
  | _ => True

variable [BEq V]

/-- A call that shares what it uses with others. -/
inductive Shared (s : State V) : Program Memory (List (Product V)) → Prop
  | get {map content} (h : .map map content ∈ s.products) (locator : VersionedNodeKey) :
    Shared s (do return [.got content locator (← map.get hashLocator locator)])
  | containsKey {map content} (h : .map map content ∈ s.products) (locator : VersionedNodeKey) :
    Shared s (do return [.contained content locator (← map.containsKey hashLocator locator)])
  | eq {map content other otherContent entries} (h : .map map content ∈ s.products)
    (hother : .map other otherContent ∈ s.products) (hiterates : Iterates map.nodes entries) :
    Shared s (do return [.compared content otherContent (← map.eq hashLocator other entries)])
  | locator {store} (h : store ∈ s.stores) (id : NodeId) : Shared s (do return [.located id (← store.locator id)])
  | retire {store} (h : store ∈ s.stores) (version : SourceVersion) :
    Shared s (do let _ ← store.retireRevision version; return [])

inductive Step : State V → State V → Prop
  | newStore {s} : Step s { s with
      memory := (NodeStore.new s.memory).2, stores := (NodeStore.new s.memory).1 :: s.stores }
  | append {s store} (h : store ∈ s.stores) : Step s { s with products := .append store.append :: s.products }
  | builder {s store} (h : store ∈ s.stores) :
    Step s { s with products := .builder (NodeMap.builder store) (fun _ => none) :: s.products }
  | withStore {s store} (h : store ∈ s.stores) :
    Step s { s with products := .map (NodeMap.withStore store) (fun _ => none) :: s.products }
  | intoBuilder {s map content} (h : .map map content ∈ s.products) :
    Step s { s with products := .builder map.intoBuilder content :: s.products }
  | finish {memory stores running before after} {builder : NodeMapBuilder V} {content} :
    Step ⟨memory, stores, before ++ .builder builder content :: after, running⟩
      ⟨memory, stores, before ++ .map builder.finish content :: after, running⟩
  | intern {memory stores running before after append} (locator : VersionedNodeKey) :
    Step ⟨memory, stores, before ++ .append append :: after, running⟩
      ⟨memory, stores, before ++ after, (do
        let (id, append) ← append.intern hashLocator locator
        return [.append append, .handle id locator]) :: running⟩
  | call {memory stores running before after builder content} (call : BuilderCall V)
    (h : call.Admissible (before ++ after)) :
    Step ⟨memory, stores, before ++ .builder builder content :: after, running⟩
      ⟨memory, stores, before ++ after, call.run hashLocator builder content :: running⟩
  | share {s program} (h : Shared hashLocator s program) : Step s { s with running := program :: s.running }
  | advance {β : Type} {memory stores products before after} {act : Memory → β × Memory} {next} :
    Step ⟨memory, stores, products, before ++ .atomic act next :: after⟩
      ⟨(act memory).2, stores, products, before ++ next (act memory).1 :: after⟩
  | done {memory stores products before after results} :
    Step ⟨memory, stores, products, before ++ .done results :: after⟩
      ⟨memory, stores, results ++ products, before ++ after⟩

/-- The states of the runs that stay within a limit. -/
inductive Reachable (limit : Memory → Prop) : State V → Prop
  | init : Reachable limit .init
  | step {s t} (h : Reachable limit s) (hstep : Step hashLocator s t) (hlimit : limit t.memory) : Reachable limit t

end

/-! ### What holds in every run -/

/-- A store of the handle's identity holds the locator under its index. -/
def Allocated (m : Memory) (id : NodeId) (locator : VersionedNodeKey) : Prop :=
  ∃ store : NodeStore, store.Exists m ∧ id.storeId = store.id ∧
    ∃ revision : NodeRevision, revision.store = store.address ∧ Interned m revision id.index locator

variable {store : NodeStore} {content : Content V}

section

variable {hashLocator : VersionedNodeKey → UInt64} {m m' : Memory} {id : NodeId} {locator locator' : VersionedNodeKey}

theorem Allocated.later (h : Allocated m id locator) (hlater : Later m m') : Allocated m' id locator := by
  obtain ⟨store, hstore, hid, revision, hrevision, hinterned⟩ := h
  exact ⟨store, hstore.later hlater, hid, revision, hrevision, hlater.interned _ _ _ hinterned⟩

theorem Allocated.inj (hgood : Good hashLocator m) (h : Allocated m id locator) (h' : Allocated m id locator') :
    locator = locator' := by
  obtain ⟨store, hstore, hid, revision, hrevision, hinterned⟩ := h
  obtain ⟨store', hstore', hid', revision', hrevision', hinterned'⟩ := h'
  have haddress : store.address = store'.address := by
    have hsame := hstore.id
    have hsame' := hstore'.id
    omega
  exact hgood.interned_inj (hrevision.trans (haddress.trans hrevision'.symm)) hinterned hinterned'

theorem Represents.allocated {revisions : NodeRevisionSet}
    {nodes : AList fun _ : NodeId => NodeMapEntry V} {entry : NodeMapEntry V}
    (h : Represents m store revisions nodes content) (hlookup : nodes.lookup id = some entry) :
    Allocated m id entry.locator := by
  obtain ⟨hid, revision, hmem, -, hinterned⟩ := h.appended id entry hlookup
  exact ⟨store, h.made, hid, revision, (h.set.made revision hmem).store, hinterned⟩

theorem good_init : Good hashLocator {} := by
  have hnone (revision : NodeRevision) (index : Nat) (key : VersionedNodeKey) : ¬ Interned {} revision index key := by
    intro hkey
    have hkey : none = some key := hkey
    cases hkey
  exact ⟨⟨by decide, fun _ => Nat.two_pow_pos 32⟩, by decide, fun _ => rfl, nofun,
    fun _ _ _ hkey => absurd hkey (hnone _ _ _), fun _ _ _ _ _ _ hkey => absurd hkey (hnone _ _ _), nofun⟩

end

variable [BEq V]

def Product.Right : Product V → Memory → Prop
  | .append held, m => held.store.Exists m ∧ held.revisions.Of held.store m
  | .handle id locator, m => Allocated m id locator
  | .builder held content, m => held.Holds content m
  | .map held content, m => held.Holds content m
  | .located id answer, m => ∀ locator, answer = some locator → Allocated m id locator
  | .got content locator answer, _ => answer = content locator
  | .contained content locator answer, _ => answer = (content locator).isSome
  | .compared content other answer, _ => answer = true ↔ content.Eq other

structure Invariant (hashLocator : VersionedNodeKey → UInt64) (s : State V) : Prop where
  good : Good hashLocator s.memory
  stores : ∀ store ∈ s.stores, store.Exists s.memory
  products : ∀ product ∈ s.products, product.Right s.memory
  running : ∀ program ∈ s.running,
    Runs (protocol hashLocator) (fun results m => ∀ product ∈ results, product.Right m) program s.memory

section

variable {hashLocator : VersionedNodeKey → UInt64} {m m' : Memory} {s t : State V} {product : Product V}

theorem Product.Right.later (h : product.Right m) (hlater : Later m m') : product.Right m' := by
  cases product with
  | append append => exact ⟨h.1.later hlater, h.2.later hlater⟩
  | handle id locator => exact Allocated.later h hlater
  | builder builder content | map map content => exact Represents.later h hlater
  | located id answer => exact fun locator hanswer => (h locator hanswer).later hlater
  | got content locator answer => exact h
  | contained content locator answer => exact h
  | compared content other answer => exact h

theorem BuilderCall.run_runs {builder : NodeMapBuilder V} {products : List (Product V)}
    (h : Good hashLocator m) (hbuilder : builder.Holds content m) (call : BuilderCall V)
    (hcall : call.Admissible products) (hproducts : ∀ product ∈ products, product.Right m) :
    Runs (protocol hashLocator) (fun results m => ∀ product ∈ results, product.Right m)
      (call.run hashLocator builder content) m := by
  cases call with
  | insert locator value =>
    refine Runs.bind h (NodeMapBuilder.insert_runs h hbuilder locator value) fun result t _ _ hresult =>
      Runs.pure fun u hu _ => ?_
    simpa [Product.Right] using ⟨hresult.2.later hu, hresult.1⟩
  | insertIfAbsent locator value =>
    refine Runs.bind h (NodeMapBuilder.insertIfAbsent_runs h hbuilder locator value) fun result t _ _ hresult =>
      Runs.pure fun u hu _ => ?_
    exact forall_mem_singleton.mpr (hresult.later hu)
  | remove locator =>
    refine Runs.bind h (NodeMapBuilder.remove_runs h hbuilder locator) fun result t _ _ hresult =>
      Runs.pure fun u hu _ => ?_
    simpa [Product.Right] using ⟨hresult.2.later hu, hresult.1⟩
  | extend entries =>
    refine Runs.bind h (NodeMapBuilder.extend_runs h hbuilder entries) fun result t _ _ hresult =>
      Runs.pure fun u hu _ => ?_
    exact forall_mem_singleton.mpr (hresult.later hu)
  | extendMap map mapContent entries =>
    have hmap : map.Holds mapContent m := hproducts _ hcall.1
    refine Runs.bind h (NodeMapBuilder.extendMap_runs h hbuilder hmap hcall.2) fun result t _ _ hresult =>
      Runs.pure fun u hu _ => ?_
    exact forall_mem_singleton.mpr (hresult.later hu)

theorem Shared.runs {program : Program Memory (List (Product V))} (h : Invariant hashLocator s)
    (hshared : Shared hashLocator s program) :
    Runs (protocol hashLocator) (fun results m => ∀ product ∈ results, product.Right m) program s.memory := by
  cases hshared with
  | get hmap locator =>
    refine Runs.bind h.good (NodeMap.get_runs h.good (h.products _ hmap) locator) fun answer t _ _ hanswer => ?_
    exact Runs.pure fun _ _ _ => forall_mem_singleton.mpr hanswer
  | containsKey hmap locator =>
    refine Runs.bind h.good (NodeMap.containsKey_runs h.good (h.products _ hmap) locator) fun answer t _ _ hanswer => ?_
    exact Runs.pure fun _ _ _ => forall_mem_singleton.mpr hanswer
  | eq hmap hother hiterates =>
    refine Runs.bind h.good (NodeMap.eq_runs h.good (h.products _ hmap) (h.products _ hother) hiterates)
      fun answer t _ _ hanswer => ?_
    exact Runs.pure fun _ _ _ => forall_mem_singleton.mpr hanswer
  | @locator store hstore id =>
    refine Runs.bind h.good (store.locator_runs h.good id) fun answer t ht _ hanswer => Runs.pure fun u hu _ => ?_
    refine forall_mem_singleton.mpr fun key hkey => ?_
    obtain ⟨hid, revision, hrevision, hinterned⟩ := hanswer key hkey
    exact ⟨store, (h.stores store hstore).later (ht.trans hu), hid, revision, hrevision,
      hu.interned _ _ _ hinterned⟩
  | retire hstore version =>
    exact Runs.bind h.good (NodeStore.retireRevision_runs h.good _ version) fun _ _ _ _ _ =>
      Runs.pure fun _ _ _ => nofun

/-- Interning through a product that is not a map. -/
theorem intern_append_runs {append : NodeStoreAppend} (h : Good hashLocator m) (hstore : append.store.Exists m)
    (hset : append.revisions.Of append.store m) (locator : VersionedNodeKey) :
    Runs (protocol hashLocator) (fun results m => ∀ product ∈ results, (product : Product V).Right m) (do
      let (id, append) ← append.intern hashLocator locator
      return [.append append, .handle id locator]) m := by
  refine Runs.bind h (NodeStoreAppend.intern_runs h hset) fun result t ht _ hresult => Runs.pure fun u hu _ => ?_
  obtain ⟨id, store, revisions⟩ := result
  obtain ⟨rfl, -, hset', hid, revision, hmem, -, hinterned⟩ := hresult
  have hstore' := hstore.later (ht.trans hu)
  refine forall_mem_cons.mpr ⟨⟨hstore', hset'.later hu⟩, forall_mem_singleton.mpr ?_⟩
  exact ⟨_, hstore', hid, revision, (hset'.made revision hmem).store, hu.interned _ _ _ hinterned⟩

theorem Invariant.step (h : Invariant hashLocator s) (hstep : Step hashLocator s t) (hlimit : Limit t.memory) :
    Invariant hashLocator t := by
  obtain ⟨hgood, hstores, hproducts, hrunning⟩ := h
  have hinvariant : Invariant hashLocator s := ⟨hgood, hstores, hproducts, hrunning⟩
  cases hstep with
  | newStore =>
    obtain ⟨hgood', hlater, hnew⟩ := hgood.new hlimit
    exact ⟨hgood', forall_mem_cons.mpr ⟨hnew, fun store hmem => (hstores store hmem).later hlater⟩,
      fun product hmem => (hproducts product hmem).later hlater,
      fun program hmem => (hrunning program hmem).later hlater⟩
  | append hstore =>
    exact ⟨hgood, hstores, forall_mem_cons.mpr ⟨⟨hstores _ hstore, NodeRevisionSet.of_nil⟩, hproducts⟩, hrunning⟩
  | builder hstore | withStore hstore =>
    exact ⟨hgood, hstores, forall_mem_cons.mpr ⟨represents_empty (hstores _ hstore), hproducts⟩, hrunning⟩
  | @intoBuilder _ map content hmap =>
    have hbuilder : (Product.builder map.intoBuilder content).Right s.memory := hproducts (.map map content) hmap
    exact ⟨hgood, hstores, forall_mem_cons.mpr ⟨hbuilder, hproducts⟩, hrunning⟩
  | finish =>
    obtain ⟨hbefore, hrest⟩ := forall_mem_append.mp hproducts
    obtain ⟨hbuilder, hafter⟩ := forall_mem_cons.mp hrest
    exact ⟨hgood, hstores, forall_mem_append.mpr ⟨hbefore, forall_mem_cons.mpr ⟨hbuilder, hafter⟩⟩, hrunning⟩
  | intern locator =>
    obtain ⟨hbefore, hrest⟩ := forall_mem_append.mp hproducts
    obtain ⟨happend, hafter⟩ := forall_mem_cons.mp hrest
    exact ⟨hgood, hstores, forall_mem_append.mpr ⟨hbefore, hafter⟩,
      forall_mem_cons.mpr ⟨intern_append_runs hgood happend.1 happend.2 locator, hrunning⟩⟩
  | call call hcall =>
    obtain ⟨hbefore, hrest⟩ := forall_mem_append.mp hproducts
    obtain ⟨hbuilder, hafter⟩ := forall_mem_cons.mp hrest
    have hothers := forall_mem_append.mpr ⟨hbefore, hafter⟩
    exact ⟨hgood, hstores, hothers,
      forall_mem_cons.mpr ⟨BuilderCall.run_runs hgood hbuilder call hcall hothers, hrunning⟩⟩
  | share hshared =>
    have hruns := hshared.runs hinvariant
    exact ⟨hgood, hstores, hproducts, forall_mem_cons.mpr ⟨hruns, hrunning⟩⟩
  | advance =>
    obtain ⟨hgood', hlater, hrunning'⟩ := Runs.advance hgood hrunning hlimit
    exact ⟨hgood', fun store hmem => (hstores store hmem).later hlater,
      fun product hmem => (hproducts product hmem).later hlater, hrunning'⟩
  | done =>
    obtain ⟨hbefore, hrest⟩ := forall_mem_append.mp hrunning
    obtain ⟨hdone, hafter⟩ := forall_mem_cons.mp hrest
    exact ⟨hgood, hstores, forall_mem_append.mpr ⟨hdone _ (Later.refl _) hgood, hproducts⟩,
      forall_mem_append.mpr ⟨hbefore, hafter⟩⟩

theorem Reachable.invariant (h : Reachable hashLocator Limit s) : Invariant hashLocator s := by
  induction h with
  | init => exact ⟨good_init, nofun, nofun, nofun⟩
  | step _ hstep hlimit ih => exact ih.step hstep hlimit

end

/-- The handle was given out for the locator, by itself or in a map. -/
inductive State.Gave (s : State V) (id : NodeId) (locator : VersionedNodeKey) : Prop
  | handle (h : .handle id locator ∈ s.products)
  | map {map content entry} (h : .map map content ∈ s.products) (hlookup : map.nodes.lookup id = some entry)
    (hlocator : entry.locator = locator)

/-- **As long as there are fewer than 2³² stores with fewer than 2³² handles each, whatever the order of all steps, a
handle stands for one locator, a store finds no other locator for it, and a map is the one its calls describe:** its
entries, their number, what it returns and whether it equals another map are those of the values last inserted or
merged. -/
theorem handles_stand_for_locators (hashLocator : VersionedNodeKey → UInt64) {s : State V}
    (h : Reachable hashLocator Limit s) :
    (∀ id locator locator', s.Gave id locator → s.Gave id locator' → locator = locator') ∧
      (∀ id locator answer, s.Gave id locator → .located id answer ∈ s.products →
        answer = none ∨ answer = some locator) ∧
      (∀ content locator answer, .got content locator answer ∈ s.products → answer = content locator) ∧
      (∀ content locator answer, .contained content locator answer ∈ s.products →
        answer = (content locator).isSome) ∧
      (∀ map content, .map map content ∈ s.products → map.len = {locator | (content locator).isSome}.ncard ∧
        ∀ entries, Iterates map.nodes entries →
          ∀ entry, entry ∈ entries ↔ content entry.locator = some entry.value) ∧
      ∀ content other answer, .compared content other answer ∈ s.products → (answer = true ↔ content.Eq other) := by
  obtain ⟨hgood, -, hproducts, -⟩ := h.invariant
  have hallocated {id : NodeId} {locator : VersionedNodeKey} (hgave : s.Gave id locator) :
      Allocated s.memory id locator := by
    cases hgave with
    | handle hmem => exact hproducts _ hmem
    | @map map content entry hmem hlookup hlocator =>
      have hholds : map.Holds content s.memory := hproducts _ hmem
      exact hlocator ▸ Represents.allocated hholds hlookup
  refine ⟨fun id locator locator' hgave hgave' => ?_, fun id locator answer hgave hmem => ?_,
    fun _ _ _ hmem => hproducts _ hmem, fun _ _ _ hmem => hproducts _ hmem, fun map content hmem => ?_,
    fun _ _ _ hmem => hproducts _ hmem⟩
  · exact (hallocated hgave).inj hgood (hallocated hgave')
  · cases answer with
    | none => exact .inl rfl
    | some found => exact .inr (congrArg some ((hproducts _ hmem found rfl).inj hgood (hallocated hgave)))
  · have hholds : map.Holds content s.memory := hproducts _ hmem
    exact ⟨hholds.length_eq hgood, fun entries hiterates entry => hholds.mem_iff hiterates⟩

/-- The module of a source, and an item of it. -/
def moduleKey : VersionedNodeKey := ⟨⟨⟨1, 0⟩, .module, .span 0 9⟩, 0⟩

def itemKey : VersionedNodeKey := ⟨⟨⟨1, 0⟩, .item, .span 0 9⟩, 0⟩

/-! ### Calls that run alone -/

section

variable {hashLocator : VersionedNodeKey → UInt64} {limit : Memory → Prop} {m : Memory} {stores : List NodeStore}
  {products : List (Product V)} {program : Program Memory (List (Product V))}

theorem Reachable.run_alone (h : Reachable hashLocator limit ⟨m, stores, products, [program]⟩)
    (hlimit : ∀ state ∈ program.states m, limit state) :
    Reachable hashLocator limit ⟨(program.run m).2, stores, (program.run m).1 ++ products, []⟩ := by
  induction program generalizing m with
  | done results =>
    have hstep : Step hashLocator ⟨m, stores, products, [] ++ [.done results]⟩
        ⟨m, stores, results ++ products, [] ++ []⟩ := .done
    exact h.step hstep (hlimit m mem_cons_self)
  | atomic act next ih =>
    have hstep : Step hashLocator ⟨m, stores, products, [] ++ [.atomic act next]⟩
        ⟨(act m).2, stores, products, [] ++ [next (act m).1]⟩ := .advance
    obtain ⟨-, hrest⟩ := forall_mem_cons.mp hlimit
    exact ih _ (h.step hstep (hrest _ (Program.mem_states _ _))) hrest

theorem Reachable.share_alone {results : List (Product V)} {after : Memory}
    (h : Reachable hashLocator limit ⟨m, stores, products, []⟩)
    (hshared : Shared hashLocator ⟨m, stores, products, []⟩ program) (hresult : program.run m = (results, after))
    (hlimit : ∀ state ∈ program.states m, limit state) :
    Reachable hashLocator limit ⟨after, stores, results ++ products, []⟩ := by
  have hrun := (h.step (.share hshared) (hlimit m (program.mem_states m))).run_alone hlimit
  rwa [hresult] at hrun

variable {result : NodeMapBuilder V × Memory}

/-- A builder gets its last values and becomes a map. -/
theorem Reachable.finish_alone {builder : NodeMapBuilder V} {content' : Content V}
    {build : Program Memory (NodeMapBuilder V)}
    (h : Reachable hashLocator limit ⟨m, stores, .builder builder content :: products, []⟩) (call : BuilderCall V)
    (hcall : call.Admissible products)
    (hbuild : call.run hashLocator builder content = build >>= fun builder => return [.builder builder content'])
    (hresult : build.run m = result) (hlimit : ∀ state ∈ (call.run hashLocator builder content).states m, limit state) :
    Reachable hashLocator limit ⟨result.2, stores, .map result.1.finish content' :: products, []⟩ := by
  have hstep : Step hashLocator ⟨m, stores, [] ++ .builder builder content :: products, []⟩
      ⟨m, stores, [] ++ products, [call.run hashLocator builder content]⟩ := .call call hcall
  have hrun := (h.step hstep (hlimit m (Program.mem_states _ m))).run_alone hlimit
  have hlast := hlimit _ (Program.run_mem_states _ m)
  rw [hbuild, Program.run_bind, hresult] at hrun hlast
  have hfinish : Step hashLocator ⟨result.2, stores, [] ++ .builder result.1 content' :: products, []⟩
      ⟨result.2, stores, [] ++ .map result.1.finish content' :: products, []⟩ := .finish
  exact hrun.step hfinish hlast

section

variable (h : Reachable hashLocator limit ⟨m, stores, products, []⟩)
include h

/-- A map of a store is made of some entries. -/
theorem Reachable.extend_alone {entries : List (VersionedNodeKey × V)}
    (hstore : store ∈ stores) (hresult : ((NodeMap.builder store).extend hashLocator entries).run m = result)
    (hlimit : ∀ state ∈
      (BuilderCall.run hashLocator (NodeMap.builder store) (fun _ => none) (.extend entries)).states m,
      limit state) : Reachable hashLocator limit
      ⟨result.2, stores, .map result.1.finish (Content.insertAll (fun _ => none) entries) :: products, []⟩ :=
  (h.step (.builder hstore) (hlimit m (Program.mem_states _ m))).finish_alone (.extend entries) trivial rfl hresult
    hlimit

/-- A map is merged into another. -/
theorem Reachable.merge_alone {map other : NodeMap V} {otherContent : Content V} {entries : List (NodeMapEntry V)}
    (hmap : .map map content ∈ products)
    (hother : .map other otherContent ∈ products) (hiterates : Iterates other.nodes entries)
    (hresult : (map.intoBuilder.extendMap hashLocator other entries).run m = result)
    (hlimit : ∀ state ∈ (BuilderCall.run hashLocator map.intoBuilder content
      (.extendMap other otherContent entries)).states m, limit state) : Reachable hashLocator limit
      ⟨result.2, stores, .map result.1.finish (content.merge otherContent) :: products, []⟩ :=
  (h.step (.intoBuilder hmap) (hlimit m (Program.mem_states _ m))).finish_alone
    (.extendMap other otherContent entries) ⟨hother, hiterates⟩ rfl hresult hlimit

/-- A locator is interned through a new product of a store. -/
theorem Reachable.intern_alone
    (hstore : store ∈ stores) (locator : VersionedNodeKey) {result : (NodeId × NodeStoreAppend) × Memory}
    (hresult : (store.append.intern hashLocator locator).run m = result)
    (hlimit : ∀ state ∈ (store.append.intern hashLocator locator >>= fun (id, append) =>
      (return [.append append, .handle id locator] : Program Memory (List (Product V)))).states m, limit state) :
    Reachable hashLocator limit
      ⟨result.2, stores, .append result.1.2 :: .handle result.1.1 locator :: products, []⟩ := by
  have hintern : Step hashLocator ⟨m, stores, [] ++ .append store.append :: products, []⟩
      ⟨m, stores, [] ++ products, [do
        let (id, append) ← store.append.intern hashLocator locator
        return [.append append, .handle id locator]]⟩ := .intern locator
  have hm := hlimit m (Program.mem_states _ m)
  have hrun := ((h.step (.append hstore) hm).step hintern hm).run_alone hlimit
  rw [Program.run_bind, hresult] at hrun
  exact hrun

end

end

/-- Two stores are within the limit when their handles are: the rest of the memory is empty. -/
theorem limit_of_two {states : List Memory}
    (htwo : ∀ state ∈ states, state.storeCount < 2 ^ 32 ∧ state.handles 0 < 2 ^ 32 ∧ state.handles 1 < 2 ^ 32)
    (hrest : ∀ address, (states.all fun state => (state.cores (address + 2)).isEmpty) = true) :
    ∀ state ∈ states, Limit state := by
  intro state hmem
  obtain ⟨hstores, hzero, hone⟩ := htwo state hmem
  refine ⟨hstores, fun address => ?_⟩
  match address with
  | 0 => exact hzero
  | 1 => exact hone
  | address + 2 =>
    have hempty := all_eq_true.mp (hrest address) state hmem
    rw [Memory.handles, isEmpty_iff.mp hempty]
    exact Nat.two_pow_pos 32

/-- The hashes of the module and of the item. -/
def hashOf (key : VersionedNodeKey) : UInt64 :=
  if key = moduleKey then 0x760871d8030a43f6 else 0xacef88a974506f6e

/-- The stores of two sessions. -/
def sessions : NodeStore × NodeStore := (⟨0, 1⟩, ⟨1, 2⟩)

def sessionsMade : Memory := (NodeStore.new (NodeStore.new {}).2).2

/-- The first session analyses the module and the item. -/
def analysed : NodeMapBuilder Nat × Memory :=
  ((NodeMap.builder sessions.1).extend hashOf [(moduleKey, 1), (itemKey, 2)]).run sessionsMade

/-- Its revision is retired, and acquired again by an analysis of the module. -/
def retired : Memory := ((sessions.1.retireRevision moduleKey.sourceVersion).run analysed.2).2

def reanalysed : NodeMapBuilder Nat × Memory :=
  ((NodeMap.builder sessions.1).extend hashOf [(moduleKey, 7)]).run retired

/-- The two maps of the first session are merged. -/
def updated : NodeMapBuilder Nat × Memory :=
  (analysed.1.finish.intoBuilder.extendMap hashOf reanalysed.1.finish [⟨moduleKey, 7⟩]).run reanalysed.2

/-- The other session has a map of its own, into which that of the first is merged. -/
def foreign : NodeMapBuilder Nat × Memory := ((NodeMap.builder sessions.2).extend hashOf [(itemKey, 5)]).run updated.2

def rehomed : NodeMapBuilder Nat × Memory :=
  (foreign.1.finish.intoBuilder.extendMap hashOf updated.1.finish [⟨moduleKey, 7⟩, ⟨itemKey, 2⟩]).run foreign.2

/-- What the merged maps of the two sessions hold. -/
def updatedContent : Content Nat :=
  Content.merge (Content.insertAll (fun _ => none) [(moduleKey, 1), (itemKey, 2)])
    (Content.insertAll (fun _ => none) [(moduleKey, 7)])

def rehomedContent : Content Nat := Content.merge (Content.insertAll (fun _ => none) [(itemKey, 5)]) updatedContent

theorem reachable_sessions : ∃ products : List (Product Nat),
    Reachable hashOf Limit ⟨rehomed.2, [sessions.2, sessions.1],
      .compared updatedContent rehomedContent true :: .contained rehomedContent itemKey true ::
        .got rehomedContent moduleKey (some 7) :: .map rehomed.1.finish rehomedContent :: products, []⟩ ∧
    (∃ content, .map analysed.1.finish content ∈ products) ∧ (∃ content, .map reanalysed.1.finish content ∈ products) ∧
    .located ⟨1, 0⟩ none ∈ products ∧ .located ⟨1, 2⟩ (some moduleKey) ∈ products := by
  have hlimit {m : Memory} (htwo : ∀ state ∈ [m], _) (hrest : ∀ address, _) : Limit m :=
    limit_of_two htwo hrest m mem_cons_self
  have hfirst : sessions.1 ∈ [sessions.2, sessions.1] := mem_cons_of_mem _ mem_cons_self
  have hmade : Reachable hashOf Limit (⟨sessionsMade, [sessions.2, sessions.1], [], []⟩ : State Nat) :=
    (Reachable.init.step .newStore (hlimit (by decide +kernel) fun _ => rfl)).step .newStore
      (hlimit (by decide +kernel) fun _ => rfl)
  have hanalysed := hmade.extend_alone hfirst (rfl : _ = analysed) (limit_of_two (by decide +kernel) fun _ => rfl)
  have hretired := hanalysed.share_alone (.retire hfirst moduleKey.sourceVersion) (rfl : _ = ([], retired))
    (limit_of_two (by decide +kernel) fun _ => rfl)
  have hlost := hretired.share_alone (.locator hfirst ⟨1, 0⟩) (rfl : _ = ([Product.located ⟨1, 0⟩ none], retired))
    (limit_of_two (by decide +kernel) fun _ => rfl)
  have hreanalysed := hlost.extend_alone hfirst (rfl : _ = reanalysed) (limit_of_two (by decide +kernel) fun _ => rfl)
  have hfound := hreanalysed.share_alone (.locator hfirst ⟨1, 2⟩)
    (rfl : _ = ([Product.located ⟨1, 2⟩ (some moduleKey)], reanalysed.2))
    (limit_of_two (by decide +kernel) fun _ => rfl)
  have hupdated := hfound.merge_alone (.tail _ (.tail _ (.tail _ (.head _)))) (.tail _ (.head _)) (.of_eq rfl)
    (rfl : _ = updated) (limit_of_two (by decide +kernel) fun _ => rfl)
  have hforeign := hupdated.extend_alone mem_cons_self (rfl : _ = foreign)
    (limit_of_two (by decide +kernel) fun _ => rfl)
  have hrehomed := hforeign.merge_alone (.head _) (.tail _ (.head _)) (.of_eq rfl) (rfl : _ = rehomed)
    (limit_of_two (by decide +kernel) fun _ => rfl)
  have hmap {products : List (Product Nat)} : .map rehomed.1.finish rehomedContent ∈
      .map rehomed.1.finish rehomedContent :: products := mem_cons_self
  have hgot := hrehomed.share_alone (.get hmap moduleKey)
    (by exact (rfl : _ = ([Product.got rehomedContent moduleKey (some 7)], rehomed.2)))
    (limit_of_two (by decide +kernel) fun _ => rfl)
  have hcontained := hgot.share_alone (.containsKey (.tail _ hmap) itemKey)
    (by exact (rfl : _ = ([Product.contained rehomedContent itemKey true], rehomed.2)))
    (limit_of_two (by decide +kernel) fun _ => rfl)
  have hcompared := hcontained.share_alone
    (.eq (.tail _ (.tail _ (.tail _ (.tail _ (.head _))))) (.tail _ (.tail _ hmap)) (.of_eq rfl))
    (by exact (rfl : _ = ([Product.compared updatedContent rehomedContent true], rehomed.2)))
    (limit_of_two (by decide +kernel) fun _ => rfl)
  exact ⟨_, hcompared, ⟨_, .tail _ (.tail _ (.tail _ (.tail _ (.tail _ (.head _)))))⟩,
    ⟨_, .tail _ (.tail _ (.tail _ (.head _)))⟩, by simp, by simp⟩

/-- After the run a retired handle has no locator, the module has a new one, and both sessions have the same map. -/
theorem handles_stand_for_locators_sessions : ∃ s : State Nat,
    s.Gave ⟨1, 0⟩ moduleKey ∧ s.Gave ⟨1, 1⟩ itemKey ∧ s.Gave ⟨1, 2⟩ moduleKey ∧
    .located ⟨1, 0⟩ none ∈ s.products ∧ .located ⟨1, 2⟩ (some moduleKey) ∈ s.products ∧
    .got rehomedContent moduleKey (some 7) ∈ s.products ∧ .contained rehomedContent itemKey true ∈ s.products ∧
    .compared updatedContent rehomedContent true ∈ s.products ∧
    (∀ locator, s.Gave ⟨1, 2⟩ locator → locator = moduleKey) ∧
    (∀ answer, .located ⟨1, 2⟩ answer ∈ s.products → answer = none ∨ answer = some moduleKey) ∧
    some 7 = rehomedContent moduleKey ∧ true = (rehomedContent itemKey).isSome ∧
    rehomed.1.finish.len = {locator | (rehomedContent locator).isSome}.ncard ∧ updatedContent.Eq rehomedContent := by
  obtain ⟨products, hreached, ⟨_, hanalysed⟩, ⟨_, hreanalysed⟩, hlost, hfound⟩ := reachable_sessions
  have hlater {product : Product Nat} (hmem : product ∈ products) : product ∈
      .compared updatedContent rehomedContent true :: .contained rehomedContent itemKey true ::
        .got rehomedContent moduleKey (some 7) :: .map rehomed.1.finish rehomedContent :: products :=
    .tail _ (.tail _ (.tail _ (.tail _ hmem)))
  have hmodule : State.Gave ⟨rehomed.2, [sessions.2, sessions.1], _, []⟩ ⟨1, 2⟩ moduleKey :=
    .map (hlater hreanalysed) rfl rfl
  obtain ⟨hinj, hlocated, hgot, hcontained, hmaps, hcompared⟩ := handles_stand_for_locators _ hreached
  exact ⟨_, .map (hlater hanalysed) rfl rfl, .map (hlater hanalysed) rfl rfl, hmodule, hlater hlost, hlater hfound,
    .tail _ (.tail _ (.head _)), .tail _ (.head _), .head _, fun locator hgave => hinj _ _ _ hgave hmodule,
    fun answer hmem => hlocated _ _ _ hmodule hmem, hgot _ _ _ (.tail _ (.tail _ (.head _))),
    hcontained _ _ _ (.tail _ (.head _)), (hmaps _ _ (.tail _ (.tail _ (.tail _ (.head _))))).1,
    (hcompared _ _ _ (.head _)).mp rfl⟩

/-! ### Too many stores -/

section

variable {hashLocator : VersionedNodeKey → UInt64}

/-- Stores that were made one after the other. -/
def storesMade : Nat → List NodeStore
  | 0 => []
  | count + 1 => ⟨count, min (count + 1) (2 ^ 32 - 1)⟩ :: storesMade count

theorem mem_storesMade {address count : Nat} (h : address < count) :
    ⟨address, min (address + 1) (2 ^ 32 - 1)⟩ ∈ storesMade count := by
  induction count with
  | zero => omega
  | succ count ih =>
    rcases Nat.lt_succ_iff_lt_or_eq.mp h with hlt | rfl
    · exact mem_cons_of_mem _ (ih hlt)
    · exact mem_cons_self

theorem reachable_storesMade (count : Nat) : Reachable hashLocator (fun _ => True)
    (⟨{ nextStoreId := min (count + 1) (2 ^ 32 - 1), storeCount := count }, storesMade count, [], []⟩ : State V) := by
  induction count with
  | zero => exact .init
  | succ count ih =>
    have hcounter : fetchIncrement (min (count + 1) (2 ^ 32 - 1)) =
        (min (count + 1) (2 ^ 32 - 1), min (count + 1 + 1) (2 ^ 32 - 1)) := by
      unfold fetchIncrement
      split
      · rw [Prod.mk.injEq]
        omega
      · rw [Prod.mk.injEq]
        omega
    have hstep := ih.step .newStore trivial
    rw [NodeStore.new, hcounter] at hstep
    exact hstep

end

/-- The last two of 2³² stores. -/
def lastStores : NodeStore × NodeStore := (⟨2 ^ 32 - 2, 2 ^ 32 - 1⟩, ⟨2 ^ 32 - 1, 2 ^ 32 - 1⟩)

/-- What interning the module in the one store and the item in the other returns, and leaves. -/
def internedModule : (NodeId × NodeStoreAppend) × Memory :=
  (lastStores.1.append.intern (fun _ => 0) moduleKey).run { nextStoreId := 2 ^ 32 - 1, storeCount := 2 ^ 32 }

def internedItem : (NodeId × NodeStoreAppend) × Memory :=
  (lastStores.2.append.intern (fun _ => 0) itemKey).run internedModule.2

/-- The last two of 2³² stores have the same identity, and give the same handle to two locators. -/
theorem handles_shared_by_stores :
    ∃ s : State Nat, Reachable (fun _ => 0) (fun _ => True) s ∧ (∀ store, s.memory.handles store < 2 ^ 32) ∧
      ∃ id, s.Gave id moduleKey ∧ s.Gave id itemKey ∧ moduleKey ≠ itemKey := by
  have hmade : Reachable (fun _ => 0) (fun _ => True)
      (⟨{ nextStoreId := 2 ^ 32 - 1, storeCount := 2 ^ 32 }, storesMade (2 ^ 32), [], []⟩ : State Nat) :=
    reachable_storesMade (2 ^ 32)
  have hfirst : lastStores.1 ∈ storesMade (2 ^ 32) := mem_storesMade (Nat.sub_lt (Nat.two_pow_pos 32) Nat.two_pos)
  have hsecond : lastStores.2 ∈ storesMade (2 ^ 32) := mem_storesMade (Nat.sub_lt (Nat.two_pow_pos 32) Nat.one_pos)
  have hreached := (hmade.intern_alone hfirst moduleKey (rfl : _ = internedModule) fun _ _ => trivial).intern_alone
    hsecond itemKey (rfl : _ = internedItem) fun _ _ => trivial
  have hmodule : internedModule.1.1 = ⟨2 ^ 32 - 1, 0⟩ := by decide +kernel
  have hitem : internedItem.1.1 = ⟨2 ^ 32 - 1, 0⟩ := by decide +kernel
  rw [hmodule, hitem] at hreached
  refine ⟨_, hreached, fun address => ?_, ⟨2 ^ 32 - 1, 0⟩, .handle (by simp), .handle (by simp), by decide⟩
  by_cases hfirst : address = 2 ^ 32 - 2
  · rw [hfirst]
    decide +kernel
  by_cases hsecond : address = 2 ^ 32 - 1
  · rw [hsecond]
    decide +kernel
  have hcores : internedItem.2.cores address = [] := by
    change Function.update (Function.update (Function.update (Function.update (fun _ => []) (2 ^ 32 - 2) _)
      (2 ^ 32 - 2) _) (2 ^ 32 - 1) _) (2 ^ 32 - 1) _ address = []
    rw [Function.update_of_ne hsecond, Function.update_of_ne hsecond, Function.update_of_ne hfirst,
      Function.update_of_ne hfirst]
  change internedItem.2.handles address < 2 ^ 32
  rw [Memory.handles, hcores]
  decide

end Nia.Nodes
