import Nia.Lib.Edges
import Nia.Lib.Worklist

/-! The graph of what each query has read.

The edges are kept twice, from a query to its dependencies (`forward`) and from a dependency to its dependents
(`reverse`). Every operation changes both maps by loops of their own; over any sequence of operations each stays the
transpose of the other and neither holds an entry without edges (`Reachable.transposed`). Invalidation follows the
reverse edges with a worklist, which therefore finds the queries that read the changed node, directly or not
(`collectDependents_spec`). The loops over sets run in arbitrary orders. -/
namespace Nia.Query
open Lib.Edges Lib.Worklist

/-- `QueryNodeId`: a slot of a database. -/
structure QueryNodeId where
  dbId : Nat
  index : Nat
  deriving DecidableEq, Repr

inductive QueryValidationFailureReason where
  | unfingerprinted
  | changed
  deriving DecidableEq, Repr

structure QueryDependencyGraph where
  forward : EdgeMap QueryNodeId := ∅
  reverse : EdgeMap QueryNodeId := ∅
  validationFailures : List ((QueryNodeId × QueryNodeId × QueryValidationFailureReason) × Nat) := []

namespace QueryDependencyGraph

/-! ### Operations -/

def removeDependenciesFrom (order : Order QueryNodeId) (graph : QueryDependencyGraph) (source : QueryNodeId) :
    QueryDependencyGraph :=
  match graph.forward.lookup source with
  | none => graph
  | some targets =>
    { graph with
      forward := graph.forward.erase source
      reverse := (order.list targets).foldl (fun reverse target => unlink reverse target source) graph.reverse }

/-- The first order is the one in which the old targets are met, the second that of the new ones. -/
def replaceDependenciesFrom (oldOrder newOrder : Order QueryNodeId) (graph : QueryDependencyGraph)
    (source : QueryNodeId) (targets : Finset QueryNodeId) : QueryDependencyGraph :=
  let graph := graph.removeDependenciesFrom oldOrder source
  if targets = ∅ then graph
  else
    { graph with
      reverse := (newOrder.list targets).foldl (fun reverse target => link reverse target source) graph.reverse
      forward := graph.forward.insert source targets }

/-- The first order is the one in which the targets are met, the second that of the dependents. -/
def removeNode (targetOrder dependentOrder : Order QueryNodeId) (graph : QueryDependencyGraph) (node : QueryNodeId) :
    QueryDependencyGraph :=
  let graph := graph.removeDependenciesFrom targetOrder node
  let graph := match graph.reverse.lookup node with
    | none => graph
    | some dependents =>
      { graph with
        reverse := graph.reverse.erase node
        forward := (dependentOrder.list dependents).foldl (fun forward dependent => unlink forward dependent node)
          graph.forward }
  { graph with
    validationFailures := graph.validationFailures.filter fun ((query, dependency, _), _) =>
      query ≠ node ∧ dependency ≠ node }

/-- `collect_dependents`, with fuel: the stack is taken from its end, and the set of each node is met in an order of
its own. -/
def collectDependents (order : QueryNodeId → Order QueryNodeId) (fuel : Nat) (graph : QueryDependencyGraph)
    (root : QueryNodeId) : Option (List QueryNodeId) :=
  (run (fun _ node => ((), (order node).list (ends graph.reverse node))) fuel [root] [] ()).map
    fun (invalidated, _) => invalidated.reverse

/-- The graphs that a sequence of operations makes of the empty one. -/
inductive Reachable : QueryDependencyGraph → Prop where
  | empty : Reachable {}
  | replace {graph : QueryDependencyGraph} (h : Reachable graph) (oldOrder newOrder : Order QueryNodeId)
    (source : QueryNodeId) (targets : Finset QueryNodeId) :
    Reachable (graph.replaceDependenciesFrom oldOrder newOrder source targets)
  | remove {graph : QueryDependencyGraph} (h : Reachable graph) (order : Order QueryNodeId) (source : QueryNodeId) :
    Reachable (graph.removeDependenciesFrom order source)
  | removeNode {graph : QueryDependencyGraph} (h : Reachable graph) (targetOrder dependentOrder : Order QueryNodeId)
    (node : QueryNodeId) : Reachable (graph.removeNode targetOrder dependentOrder node)

/-! ### Transposes -/

/-- The two maps hold the same edges, and no entry without any. -/
structure Transposed (graph : QueryDependencyGraph) : Prop where
  transpose : ∀ a b, b ∈ ends graph.forward a ↔ a ∈ ends graph.reverse b
  tidyForward : Tidy graph.forward
  tidyReverse : Tidy graph.reverse

theorem transposed_empty : Transposed {} :=
  ⟨fun a b => by simp, fun _ => by simp [Finmap.lookup_empty], fun _ => by simp [Finmap.lookup_empty]⟩

section

variable {graph : QueryDependencyGraph}

theorem Transposed.removeDependenciesFrom (h : graph.Transposed) (order : Order QueryNodeId) (source : QueryNodeId) :
    (graph.removeDependenciesFrom order source).Transposed ∧
      ends (graph.removeDependenciesFrom order source).forward source = ∅ := by
  unfold QueryDependencyGraph.removeDependenciesFrom
  split
  · next hnone => exact ⟨h, by rw [ends, hnone, Option.getD_none]⟩
  · next targets hsome =>
    have htargets : ends graph.forward source = targets := by rw [ends, hsome, Option.getD_some]
    obtain ⟨hedges, htidy⟩ := unlinkAll_spec graph.reverse (order.list targets) source
    refine ⟨⟨fun a b => ?_, h.tidyForward.erase, htidy h.tidyReverse⟩, by rw [ends_erase, if_pos rfl]⟩
    rw [ends_erase, hedges, order.mem_list, ← h.transpose, ← htargets]
    by_cases ha : a = source
    · simp [ha]
    · simp [ha]

theorem Transposed.replaceDependenciesFrom (h : graph.Transposed) (oldOrder newOrder : Order QueryNodeId)
    (source : QueryNodeId) (targets : Finset QueryNodeId) :
    (graph.replaceDependenciesFrom oldOrder newOrder source targets).Transposed := by
  obtain ⟨hremoved, hnone⟩ := h.removeDependenciesFrom oldOrder source
  unfold QueryDependencyGraph.replaceDependenciesFrom
  dsimp only
  split
  · exact hremoved
  · next hsome =>
    obtain ⟨hedges, htidy⟩ := linkAll_spec (graph.removeDependenciesFrom oldOrder source).reverse
      (newOrder.list targets) source
    refine ⟨fun a b => ?_, hremoved.tidyForward.insert hsome, htidy hremoved.tidyReverse⟩
    rw [ends_insert, hedges, newOrder.mem_list, ← hremoved.transpose]
    by_cases ha : a = source
    · simp [ha, hnone]
    · simp [ha]

theorem Transposed.removeNode (h : graph.Transposed) (targetOrder dependentOrder : Order QueryNodeId)
    (node : QueryNodeId) : (graph.removeNode targetOrder dependentOrder node).Transposed := by
  obtain ⟨hremoved, -⟩ := h.removeDependenciesFrom targetOrder node
  unfold QueryDependencyGraph.removeNode
  dsimp only
  split
  · exact ⟨hremoved.transpose, hremoved.tidyForward, hremoved.tidyReverse⟩
  · next dependents hsome =>
    generalize graph.removeDependenciesFrom targetOrder node = removed at hremoved hsome ⊢
    have hdependents : ends removed.reverse node = dependents := by rw [ends, hsome, Option.getD_some]
    obtain ⟨hedges, htidy⟩ := unlinkAll_spec removed.forward (dependentOrder.list dependents) node
    refine ⟨fun a b => ?_, htidy hremoved.tidyForward, hremoved.tidyReverse.erase⟩
    rw [ends_erase, hedges, dependentOrder.mem_list, hremoved.transpose, ← hdependents]
    by_cases hb : b = node
    · simp [hb]
    · simp [hb]

theorem Reachable.transposed (h : graph.Reachable) : graph.Transposed := by
  induction h with
  | empty => exact transposed_empty
  | replace _ oldOrder newOrder source targets ih => exact ih.replaceDependenciesFrom oldOrder newOrder source targets
  | remove _ order source ih => exact (ih.removeDependenciesFrom order source).1
  | removeNode _ targetOrder dependentOrder node ih => exact ih.removeNode targetOrder dependentOrder node

end

/-! ### Dependents -/

/-- The nodes that reach a node along forward edges. -/
def Reaches (graph : QueryDependencyGraph) (node root : QueryNodeId) : Prop :=
  Relation.ReflTransGen (fun a b => b ∈ ends graph.forward a) node root

/-- How many reverse edges there are. -/
def edgeCount (graph : QueryDependencyGraph) : Nat := ∑ node ∈ graph.reverse.keys, (ends graph.reverse node).card

section

variable {graph : QueryDependencyGraph} {order : QueryNodeId → Order QueryNodeId} {fuel : Nat} {root : QueryNodeId}

theorem length_list (order : Order QueryNodeId) (s : Finset QueryNodeId) : (order.list s).length = s.card := by
  have hset : (order.list s).toFinset = s := Finset.ext fun a => by rw [List.mem_toFinset, order.mem_list]
  rw [← hset, List.toFinset_card_of_nodup (order.nodup _), hset]

theorem collectDependents_isSome (hfuel : graph.edgeCount < fuel) :
    (graph.collectDependents order fuel root).isSome := by
  rw [collectDependents, Option.isSome_map]
  have hbounded : Lib.Worklist.Bounded
      (fun (_ : Unit) node => ((), (order node).list (ends graph.reverse node))) graph.reverse.keys.toList
      fun node => (ends graph.reverse node).card := fun _ node => by
    rw [length_list]
    split
    · exact le_rfl
    · next hkey =>
      have hnone : ends graph.reverse node = ∅ := Finset.eq_empty_of_forall_notMem fun a ha =>
        hkey (Finset.mem_toList.mpr (mem_keys_of_mem_ends ha))
      rw [hnone, Finset.card_empty]
  refine run_isSome hbounded ?_ ()
  have hremaining : remaining graph.reverse.keys.toList (fun node => (ends graph.reverse node).card) [] =
      graph.edgeCount := by
    simp [remaining, edgeCount]
  rw [hremaining, List.length_singleton]
  omega

/-- What the worklist collects: the root first, then exactly the other nodes that reach it, each once. -/
theorem collectDependents_spec (h : graph.Transposed) (hfuel : graph.edgeCount < fuel) :
    ∃ rest, graph.collectDependents order fuel root = some (root :: rest) ∧ (root :: rest).Nodup ∧
      ∀ node, node ∈ root :: rest ↔ graph.Reaches node root := by
  have hsome : (graph.collectDependents order fuel root).isSome := collectDependents_isSome hfuel
  obtain ⟨collected, hcollected⟩ := Option.isSome_iff_exists.mp hsome
  obtain ⟨⟨visited, _⟩, hrun, rfl⟩ := Option.map_eq_some_iff.mp hcollected
  have hnodup : visited.Nodup := run_invariant (I := fun visited _ => visited.Nodup)
    (fun _ _ _ hfresh hvisited => List.nodup_cons.mpr ⟨hfresh, hvisited⟩) hrun List.nodup_nil
  have hsound : ∀ node ∈ visited, graph.Reaches node root :=
    run_forall (P := fun node => graph.Reaches node root)
      (fun _ node hnode dependent hdependent =>
        .head ((h.transpose _ _).mpr ((order node).mem_list _ _ |>.mp hdependent)) hnode)
      hrun (by simpa using .refl) nofun
  have hnext : ∀ (_ : Unit) node,
      (order node).list (ends graph.reverse node) ⊆ (order node).list (ends graph.reverse node) :=
    fun _ _ => List.Subset.refl _
  obtain ⟨hroot, hclosed⟩ := run_closed hnext hrun nofun
  have hcomplete : ∀ node, graph.Reaches node root → node ∈ visited := fun node hnode => by
    induction hnode using Relation.ReflTransGen.head_induction_on with
    | refl => exact hroot root (.inr List.mem_cons_self)
    | head hedge _ ih => exact hclosed _ ih (((order _).mem_list _ _).mpr ((h.transpose _ _).mp hedge))
  -- The root is the first node taken, and stays at the end of what is visited.
  have hlast : visited.getLast? = some root := by
    obtain ⟨fuel, rfl⟩ : ∃ less, fuel = less + 1 := ⟨fuel - 1, by omega⟩
    rw [run, if_neg List.not_mem_nil] at hrun
    refine run_invariant (I := fun visited _ => visited.getLast? = some root) (fun visited _ x _ hI => ?_)
      hrun rfl
    rw [List.getLast?_cons, hI, Option.getD_some]
  obtain ⟨others, rfl⟩ := List.getLast?_eq_some_iff.mp hlast
  refine ⟨others.reverse, hcollected.trans (by simp), ?_, fun node => ?_⟩
  · rw [← List.nodup_reverse] at hnodup
    simpa using hnodup
  · rw [← List.singleton_append, ← List.reverse_singleton, ← List.reverse_append, List.mem_reverse]
    exact ⟨hsound node, hcomplete node⟩

/-- **Over every sequence of operations the two maps are transposes without empty entries, and `collect_dependents`
returns its root and then exactly the nodes that reach it, each once.** -/
theorem operations_keep_transposes {graph : QueryDependencyGraph} (h : graph.Reachable) :
    (∀ a b, b ∈ ends graph.forward a ↔ a ∈ ends graph.reverse b) ∧
      (∀ node, graph.forward.lookup node ≠ some ∅ ∧ graph.reverse.lookup node ≠ some ∅) ∧
      ∀ (order : QueryNodeId → Order QueryNodeId) (root : QueryNodeId), ∀ fuel > graph.edgeCount,
        ∃ rest, graph.collectDependents order fuel root = some (root :: rest) ∧ (root :: rest).Nodup ∧
          ∀ node, node ∈ root :: rest ↔ graph.Reaches node root := by
  have htransposed := h.transposed
  exact ⟨htransposed.transpose, fun node => ⟨htransposed.tidyForward node, htransposed.tidyReverse node⟩,
    fun _ _ _ hfuel => collectDependents_spec htransposed hfuel⟩

end

/-- Two nodes that depend on each other. -/
noncomputable def cycle : QueryDependencyGraph :=
  (QueryDependencyGraph.replaceDependenciesFrom default default {} ⟨0, 0⟩ {⟨0, 1⟩}).replaceDependenciesFrom
    default default ⟨0, 1⟩ {⟨0, 0⟩, ⟨0, 1⟩}

theorem operations_keep_transposes_cycle :
    (∀ a b, b ∈ ends cycle.forward a ↔ a ∈ ends cycle.reverse b) ∧
      ∃ rest, cycle.collectDependents default (cycle.edgeCount + 1) ⟨0, 0⟩ = some (⟨0, 0⟩ :: rest) ∧
        ∀ node, node ∈ ⟨0, 0⟩ :: rest ↔ cycle.Reaches node ⟨0, 0⟩ := by
  have hcycle : cycle.Reachable := .replace (.replace .empty _ _ _ _) _ _ _ _
  have hkept := operations_keep_transposes hcycle
  obtain ⟨rest, hcollected, -, hmem⟩ := hkept.2.2 default ⟨0, 0⟩ _ (Nat.lt_succ_self _)
  exact ⟨hkept.1, rest, hcollected, hmem⟩

end QueryDependencyGraph

end Nia.Query
