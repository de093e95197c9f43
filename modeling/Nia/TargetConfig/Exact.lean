import Nia.TargetConfig.Prune

/-! What pruning leaves.

`erase` is what pruning is for: every inactive statement, wherever it stands, is left out of its
block, an arm whose statement is inactive gets an empty block, and nothing else changes. Pruning
does that except inside the parts it does not enter: an inactive statement there (`missed`) is
compiled for the wrong target. -/
namespace Nia.TargetConfig.Pruner

open Nia.Ast List

/-- A mask that enters every part. -/
def everything {k : Kind} (label : Label k) : List Bool := label.parts.map fun _ => true

variable (pruner : Pruner)

/-- Every inactive statement is left out, and nothing else changes. -/
def erase {k : Kind} (node : Node k) : Node k := pruner.rewrite everything node

mutual

/-- Some statement in the node is inactive. -/
def holdsInactive {k : Kind} : Node k → Bool
  | .mk label parts => pruner.holdsDirectly label parts || holdsInParts parts

def holdsInParts {ks : List Kind} : Nodes ks → Bool
  | .nil => false
  | .cons head tail => holdsInactive head || holdsInParts tail

end

/-- The parts that stay when the statement that stands in a node directly goes. -/
def keeps {k : Kind} : Label k → List Bool
  | .cons => [false, true]
  | _ => [true, false]

/-- The parts of a node that stay. -/
def stays {k : Kind} (label : Label k) (parts : Nodes label.parts) : List Bool :=
  if pruner.holdsDirectly label parts then keeps label else everything label

mutual

/-- Some inactive statement is in a part that pruning does not enter. -/
def missed {k : Kind} : Node k → Bool
  | .mk label parts => missedInParts (pruner.stays label parts) (enters label) parts

def missedInParts {ks : List Kind} : List Bool → List Bool → Nodes ks → Bool
  | _, _, .nil => false
  | staying, entered, .cons head tail =>
    staying.headD false && (if entered.headD false then missed head else pruner.holdsInactive head) ||
      missedInParts staying.tail entered.tail tail

end

/-! ### Rewriting -/

section
variable {pruner} {k : Kind}

/-- An inactive statement stands directly in lists and arms only. -/
theorem holdsDirectly_elim {motive : {k : Kind} → (label : Label k) → Nodes label.parts → Prop}
    (cons : ∀ {k : Kind} (head : Node k) (tail : Node (.list k)), pruner.inactive head = true →
      motive (Label.cons (k := k)) (.cons head (.cons tail .nil)))
    (arm : ∀ (patterns : Node (.list .pattern)) (body : Node .stmt), pruner.inactive body = true →
      motive .armStmt (.cons patterns (.cons body .nil)))
    {label : Label k} {parts : Nodes label.parts} (h : pruner.holdsDirectly label parts = true) :
    motive label parts := by
  cases label
  case cons =>
    obtain ⟨head, tail, rfl⟩ := parts.eq_pair
    exact cons head tail h
  case armStmt =>
    obtain ⟨patterns, body, rfl⟩ := parts.eq_pair
    exact arm patterns body h
  all_goals cases h

theorem inactive_of_ne {node : Node k} (hk : k ≠ .stmt) : pruner.inactive node = false := by
  obtain ⟨label, parts⟩ := node
  cases label
  case stmt => exact absurd rfl hk
  all_goals rfl

theorem markers_of_inactive {node : Node k} (h : pruner.inactive node = true) : markers node = [] := by
  obtain ⟨label, parts⟩ := node
  cases label
  case stmt => rfl
  all_goals cases h

variable (enters : {k : Kind} → Label k → List Bool)

theorem markersOf_rewriteParts {ks : List Kind} {parts : Nodes ks} (entered : List Bool)
    (h : parts.Each fun node => markers (pruner.rewrite enters node) = markers node) :
    markersOf (pruner.rewriteParts enters entered parts) = markersOf parts := by
  induction parts generalizing entered with
  | nil => rfl
  | cons head tail ih =>
    rw [rewriteParts, markersOf, markersOf, ih entered.tail h.2]
    split
    · rw [h.1]
    · rfl

/-- Rewriting leaves the conditional attributes of an owner as they are. -/
theorem markers_rewrite (node : Node k) : markers (pruner.rewrite enters node) = markers node := by
  refine Node.induct (P := fun node => markers (pruner.rewrite enters node) = markers node) ?_ node
  intro k label parts ih
  rw [rewrite, assemble]
  split
  · next h =>
    revert ih
    refine holdsDirectly_elim (motive := fun label parts =>
      parts.Each (fun node => markers (pruner.rewrite enters node) = markers node) →
      markers (without label (pruner.rewriteParts enters (enters label) parts)) = markers (.mk label parts))
      (fun head tail hhead ih => ?_) (fun _ _ _ _ => rfl) h
    have htail (entered : Bool) :
        markers (if entered then pruner.rewrite enters tail else tail) = markers tail := by
      split
      · exact ih.2.1
      · rfl
    calc
      _ = markers tail := htail _
      _ = markers head ++ (markers tail ++ []) := by
        rw [markers_of_inactive hhead, nil_append, append_nil]
  · cases label
    case cons => exact markersOf_rewriteParts enters _ ih
    all_goals rfl

/-- Rewriting a statement does not change whether it is active. -/
theorem inactive_rewrite (node : Node k) :
    pruner.inactive (pruner.rewrite enters node) = pruner.inactive node := by
  by_cases hk : k = .stmt
  · subst hk
    obtain ⟨label, parts⟩ := node
    cases label
    obtain ⟨attributes, kind, rfl⟩ := parts.eq_pair
    have hactive (entered : Bool) :
        pruner.attributesActive (if entered then pruner.rewrite enters attributes else attributes) =
          pruner.attributesActive attributes := by
      split
      · rw [attributesActive, attributesActive, markers_rewrite enters attributes]
      · rfl
    exact congrArg Bool.not (hactive _)
  · rw [inactive_of_ne hk, inactive_of_ne hk]

theorem holdsDirectly_rewriteParts (label : Label k) (parts : Nodes label.parts) (entered : List Bool) :
    pruner.holdsDirectly label (pruner.rewriteParts enters entered parts) =
      pruner.holdsDirectly label parts := by
  have hpart {k : Kind} (entered : Bool) (node : Node k) :
      pruner.inactive (if entered then pruner.rewrite enters node else node) = pruner.inactive node := by
    split
    · exact inactive_rewrite enters node
    · rfl
  cases label
  case cons =>
    obtain ⟨head, tail, rfl⟩ := parts.eq_pair
    exact hpart _ head
  case armStmt =>
    obtain ⟨patterns, body, rfl⟩ := parts.eq_pair
    exact hpart _ body
  all_goals rfl

end

/-! ### Erasing -/

section
variable {pruner} {k : Kind} {ks : List Kind}

theorem holdsInParts_erase {parts : Nodes ks}
    (h : parts.Each fun node => pruner.holdsInactive (pruner.erase node) = false) :
    pruner.holdsInParts (pruner.rewriteParts everything (ks.map fun _ => true) parts) = false := by
  induction parts with
  | nil => rfl
  | cons head tail ih => exact Bool.or_eq_false_iff.mpr ⟨h.1, ih h.2⟩

/-- What is erased holds no inactive statement, at any depth. -/
theorem holdsInactive_erase (node : Node k) : pruner.holdsInactive (pruner.erase node) = false := by
  refine Node.induct (P := fun node => pruner.holdsInactive (pruner.erase node) = false) ?_ node
  intro k label parts ih
  rw [erase, rewrite, assemble]
  split
  · next h =>
    revert ih
    refine holdsDirectly_elim (motive := fun label parts =>
      parts.Each (fun node => pruner.holdsInactive (pruner.erase node) = false) →
      pruner.holdsInactive (without label (pruner.rewriteParts everything (everything label) parts)) = false)
      (fun head tail _ ih => ih.2.1) (fun patterns body _ ih => ?_) h
    exact Bool.or_eq_false_iff.mpr ⟨ih.1, rfl⟩
  · next h =>
    rw [holdsInactive, holdsDirectly_rewriteParts, Bool.eq_false_of_not_eq_true h, Bool.false_or]
    exact holdsInParts_erase ih

theorem rewriteParts_everything {parts : Nodes ks}
    (h : parts.Each fun node => pruner.holdsInactive node = false → pruner.erase node = node)
    (hparts : pruner.holdsInParts parts = false) :
    pruner.rewriteParts everything (ks.map fun _ => true) parts = parts := by
  induction parts with
  | nil => rfl
  | cons head tail ih =>
    rw [holdsInParts, Bool.or_eq_false_iff] at hparts
    exact congrArg₂ Nodes.cons (h.1 hparts.1) (ih h.2 hparts.2)

theorem erase_of_not_holds (node : Node k) :
    pruner.holdsInactive node = false → pruner.erase node = node := by
  refine Node.induct (P := fun node => pruner.holdsInactive node = false → pruner.erase node = node) ?_ node
  intro k label parts ih h
  rw [holdsInactive, Bool.or_eq_false_iff] at h
  rw [erase, rewrite, assemble, if_neg (by simp [h.1])]
  exact congrArg (Node.mk label) (rewriteParts_everything ih h.2)

/-- Exactly the nodes without inactive statements stay as they are. -/
theorem erase_eq_self_iff (node : Node k) :
    pruner.erase node = node ↔ pruner.holdsInactive node = false :=
  ⟨fun h => h ▸ holdsInactive_erase node, erase_of_not_holds node⟩

/-! ### What pruning misses -/

/-- A part that is entered is pruned; one that is not must hold nothing to erase. -/
theorem part_eq_erase_iff {node : Node k} (entered : Bool)
    (h : pruner.prune node = pruner.erase node ↔ pruner.missed node = false) :
    (if entered then pruner.prune node else node) = pruner.erase node ↔
      (if entered then pruner.missed node else pruner.holdsInactive node) = false := by
  cases entered with
  | true => exact h
  | false => exact eq_comm.trans (erase_eq_self_iff node)

theorem rewriteParts_eq_iff {parts : Nodes ks} (entered : List Bool)
    (h : parts.Each fun node => pruner.prune node = pruner.erase node ↔ pruner.missed node = false) :
    pruner.rewriteParts enters entered parts =
        pruner.rewriteParts everything (ks.map fun _ => true) parts ↔
      pruner.missedInParts (ks.map fun _ => true) entered parts = false := by
  induction parts generalizing entered with
  | nil => exact iff_of_true rfl rfl
  | cons head tail ih =>
    have hhead := part_eq_erase_iff (entered.headD false) h.1
    have htail := ih entered.tail h.2
    rw [rewriteParts, rewriteParts, missedInParts, Nodes.cons.injEq, Bool.or_eq_false_iff]
    exact and_congr hhead htail

theorem prune_eq_erase_iff (node : Node k) :
    pruner.prune node = pruner.erase node ↔ pruner.missed node = false := by
  refine Node.induct
    (P := fun node => pruner.prune node = pruner.erase node ↔ pruner.missed node = false) ?_ node
  intro k label parts ih
  rw [prune, erase, rewrite, rewrite, missed, assemble, assemble, stays]
  split
  · next h =>
    revert ih
    refine holdsDirectly_elim (motive := fun label parts =>
      parts.Each (fun node => pruner.prune node = pruner.erase node ↔ pruner.missed node = false) →
      (without label (pruner.rewriteParts enters (enters label) parts) =
          without label (pruner.rewriteParts everything (everything label) parts) ↔
        pruner.missedInParts (keeps label) (enters label) parts = false))
      (fun head tail _ ih => ?_) (fun patterns body _ ih => ?_) h
    · have hmissed : pruner.missedInParts [false, true] [true, true] (.cons head (.cons tail .nil)) =
          (pruner.missed tail || false) := rfl
      change _ ↔ pruner.missedInParts [false, true] [true, true] (.cons head (.cons tail .nil)) = false
      rw [hmissed, Bool.or_false]
      exact ih.2.1
    · have hmissed : pruner.missedInParts (keeps Label.armStmt) (enters Label.armStmt)
          (.cons patterns (.cons body .nil)) = (pruner.missed patterns || false) := rfl
      have harm : ∀ patterns patterns' : Node (.list .pattern),
          Node.mk .armBlock (.cons patterns (.cons emptyBlock .nil)) =
            .mk .armBlock (.cons patterns' (.cons emptyBlock .nil)) ↔ patterns = patterns' := by
        simp
      rw [hmissed, Bool.or_false]
      exact (harm _ _).trans ih.1
  · simp only [Node.mk.injEq, heq_eq_eq, true_and]
    exact rewriteParts_eq_iff (enters label) ih

/-! ### Items that need no pruning -/

theorem attributesActive_of_not_conditional {attributes : Node (.list .attribute)}
    (h : (markers attributes).any isConditional = false) : pruner.attributesActive attributes = true := by
  have hmetadata : ∀ marker ∈ markers attributes, marker = .metadata := by
    intro marker hmem
    have hmarker := any_eq_false.mp h marker hmem
    cases marker <;> simp_all [isConditional]
  have hprofile : (markers attributes).countP isProfile = 0 := by
    refine countP_eq_zero.mpr fun marker hmem => ?_
    simp [hmetadata marker hmem, isProfile]
  have htest : (markers attributes).count .test = 0 := by
    refine count_eq_zero.mpr fun hmem => ?_
    cases hmetadata _ hmem
  have hall : (markers attributes).all pruner.markerActive = true := by
    refine all_eq_true.mpr fun marker hmem => ?_
    rw [hmetadata marker hmem]
    rfl
  simp [attributesActive, hprofile, htest, hall]

theorem inactive_of_not_visited {node : Node k} (h : visit node = false) : pruner.inactive node = false := by
  obtain ⟨label, parts⟩ := node
  rw [visit, Bool.or_eq_false_iff] at h
  cases label
  case stmt => exact congrArg Bool.not (attributesActive_of_not_conditional h.1)
  all_goals rfl

/-- Every part of the first mask is in the second. -/
def covers : List Bool → List Bool → Bool
  | [], _ => true
  | entered :: rest, walked => (!entered || walked.headD false) && covers rest walked.tail

/-- The walk visits whatever pruning enters. -/
theorem covers_walks (label : Label k) : covers (enters label) (walks label) = true := by
  cases label <;> rfl

theorem holdsDirectly_of_not_visited (label : Label k) {parts : Nodes label.parts}
    (h : visitParts (walks label) parts = false) : pruner.holdsDirectly label parts = false := by
  rw [Bool.eq_false_iff]
  intro hdirectly
  revert h
  refine holdsDirectly_elim (motive := fun label parts => visitParts (walks label) parts ≠ false)
    (fun head tail hhead h => ?_) (fun patterns body hbody h => ?_) hdirectly
  · have hvisit : (visit head || (visit tail || false)) = false := h
    rw [Bool.or_eq_false_iff] at hvisit
    exact Bool.noConfusion (hhead.symm.trans (inactive_of_not_visited hvisit.1))
  · have hvisit : (visit patterns || (visit body || false)) = false := h
    rw [Bool.or_eq_false_iff, Bool.or_false] at hvisit
    exact Bool.noConfusion (hbody.symm.trans (inactive_of_not_visited hvisit.2))

theorem rewriteParts_of_not_visited {parts : Nodes ks} {entered walked : List Bool}
    (h : parts.Each fun node => visit node = false → pruner.prune node = node)
    (hcovers : covers entered walked = true) (hvisit : visitParts walked parts = false) :
    pruner.rewriteParts enters entered parts = parts := by
  induction parts generalizing entered walked with
  | nil => rfl
  | cons head tail ih =>
    rw [visitParts, Bool.or_eq_false_iff] at hvisit
    have hrest : covers entered.tail walked.tail = true := by
      cases entered with
      | nil => rfl
      | cons e rest => exact (Bool.and_eq_true_iff.mp hcovers).2
    have hhead : (if entered.headD false then pruner.prune head else head) = head := by
      split
      · next hentered =>
        obtain ⟨e, rest, rfl⟩ : ∃ e rest, entered = e :: rest := by
          cases entered with
          | nil => cases hentered
          | cons e rest => exact ⟨e, rest, rfl⟩
        have hwalked : walked.headD false = true := by
          have hfirst := (Bool.and_eq_true_iff.mp hcovers).1
          rw [headD_cons] at hentered
          simpa [hentered] using hfirst
        rw [hwalked, Bool.true_and] at hvisit
        exact h.1 hvisit.1
      · rfl
    exact congrArg₂ Nodes.cons hhead (ih h.2 hrest hvisit.2)

/-- Pruning would leave an item without conditional statements as it is. -/
theorem prune_of_not_visited (node : Node k) : visit node = false → pruner.prune node = node := by
  refine Node.induct (P := fun node => visit node = false → pruner.prune node = node) ?_ node
  intro k label parts ih h
  rw [visit, Bool.or_eq_false_iff] at h
  rw [prune, rewrite, assemble, if_neg (by simp [holdsDirectly_of_not_visited label h.2])]
  exact congrArg (Node.mk label) (rewriteParts_of_not_visited ih (covers_walks label) h.2)

theorem pruneItemTree_eq (items : List (Node .item)) :
    pruner.pruneItemTree items = (pruner.activeItems items).map pruner.prune := by
  rw [pruneItemTree]
  split
  · refine map_congr_left fun item _ => ?_
    split
    · rfl
    · next h => exact (prune_of_not_visited item (Bool.eq_false_of_not_eq_true h)).symm
  · next h =>
    have hsame : ∀ item ∈ pruner.activeItems items, pruner.prune item = id item := by
      intro item hitem
      refine prune_of_not_visited item (Bool.eq_false_of_not_eq_true fun hvisit => h ?_)
      exact any_eq_true.mpr ⟨item, hitem, hvisit⟩
    rw [map_congr_left hsame, map_id]

/-- **Target pruning.** The active items are left without their inactive statements, and otherwise
unchanged, exactly when none of them holds an inactive statement in a part that pruning misses. -/
theorem pruneItemTree_exact_iff (items : List (Node .item)) :
    (pruner.pruneItemTree items = (pruner.activeItems items).map pruner.erase ∧
      ∀ item ∈ pruner.pruneItemTree items, pruner.holdsInactive item = false) ↔
    ∀ item ∈ pruner.activeItems items, pruner.missed item = false := by
  rw [pruneItemTree_eq, map_inj_left]
  constructor
  · rintro ⟨hsame, -⟩ item hitem
    exact (prune_eq_erase_iff item).mp (hsame item hitem)
  · intro h
    have hsame : ∀ item ∈ pruner.activeItems items, pruner.prune item = pruner.erase item :=
      fun item hitem => (prune_eq_erase_iff item).mpr (h item hitem)
    refine ⟨hsame, fun pruned hpruned => ?_⟩
    obtain ⟨item, hitem, rfl⟩ := mem_map.mp hpruned
    rw [hsame item hitem]
    exact holdsInactive_erase item

/-! ### Pruning twice -/

theorem rewriteParts_rewriteParts {ks : List Kind} {parts : Nodes ks} (entered : List Bool)
    (h : parts.Each fun node => pruner.prune (pruner.prune node) = pruner.prune node) :
    pruner.rewriteParts enters entered (pruner.rewriteParts enters entered parts) =
      pruner.rewriteParts enters entered parts := by
  induction parts generalizing entered with
  | nil => rfl
  | cons head tail ih =>
    rw [rewriteParts, rewriteParts, ih entered.tail h.2]
    split
    · exact congrArg (Nodes.cons · _) h.1
    · rfl

theorem prune_prune {k : Kind} (node : Node k) : pruner.prune (pruner.prune node) = pruner.prune node := by
  refine Node.induct (P := fun node => pruner.prune (pruner.prune node) = pruner.prune node) ?_ node
  intro k label parts ih
  have hprune : pruner.prune (.mk label parts) =
      pruner.assemble label parts (pruner.rewriteParts enters (enters label) parts) := rfl
  rw [hprune, assemble]
  split
  · next h =>
    revert ih
    refine holdsDirectly_elim (motive := fun label parts =>
      parts.Each (fun node => pruner.prune (pruner.prune node) = pruner.prune node) →
      pruner.prune (without label (pruner.rewriteParts enters (enters label) parts)) =
        without label (pruner.rewriteParts enters (enters label) parts))
      (fun head tail _ ih => ih.2.1) (fun patterns body _ ih => ?_) h
    exact congrArg (fun patterns => Node.mk .armBlock (.cons patterns (.cons emptyBlock .nil))) ih.1
  · next h =>
    rw [prune, rewrite, assemble, holdsDirectly_rewriteParts, if_neg h, rewriteParts_rewriteParts _ ih]

/-- Pruning does not enter the attributes of an item. -/
theorem itemIsActive_prune (item : Node .item) :
    pruner.itemIsActive (pruner.prune item) = pruner.itemIsActive item := by
  obtain ⟨label, parts⟩ := item
  cases label
  obtain ⟨attributes, kind, rfl⟩ := parts.eq_pair
  rfl

theorem activeItems_of_active {items : List (Node .item)} (h : ∀ item ∈ items, pruner.itemIsActive item = some true) :
    pruner.activeItems items = items := by
  rw [activeItems, if_pos (all_eq_true.mpr fun item hitem => by rw [h item hitem]; rfl)]
  exact filter_eq_self.mpr fun item hitem => decide_eq_true (h item hitem)

theorem itemIsActive_of_mem {items : List (Node .item)} {item : Node .item} (h : item ∈ pruner.activeItems items) :
    pruner.itemIsActive item = some true := by
  rw [activeItems] at h
  split at h
  · exact of_decide_eq_true (mem_filter.mp h).2
  · cases h

/-- **A pruned module is not changed by pruning it again**, whatever pruning misses. -/
theorem pruneItemTree_pruneItemTree (items : List (Node .item)) :
    pruner.pruneItemTree (pruner.pruneItemTree items) = pruner.pruneItemTree items := by
  have hactive : ∀ item ∈ (pruner.activeItems items).map pruner.prune, pruner.itemIsActive item = some true := by
    intro item hitem
    obtain ⟨source, hsource, rfl⟩ := mem_map.mp hitem
    rw [itemIsActive_prune, itemIsActive_of_mem hsource]
  rw [pruneItemTree_eq items, pruneItemTree_eq, activeItems_of_active hactive, map_map]
  exact map_congr_left fun item _ => prune_prune item

/-! ### A closure -/

/-- `fun f() { \ -> { @[test] return; }; }`, as far as the parts matter. -/
def closureItem : Node .item :=
  let inner : Node .stmt := .mk .stmt
    (.cons (.ofList [.mk .attrTest .nil]) (.cons (.mk .returnStmt (.cons (.ofOption none) .nil)) .nil))
  let body : Node .block := .mk .block (.cons (.ofList [inner]) (.cons (.ofOption none) .nil))
  let closure : Node .expr := .mk .closure
    (.cons (.ofList []) (.cons (.ofList []) (.cons (.mk .blockExpr (.cons body .nil)) .nil)))
  let outer : Node .stmt := .mk .stmt
    (.cons (.ofList []) (.cons (.mk .exprStmt (.cons closure .nil)) .nil))
  let function : Node .function := .mk (.function "f")
    (.cons (.ofList []) (.cons (.ofList []) (.cons (.ofList []) (.cons (.ofOption none)
      (.cons (.ofOption (some (.mk .block (.cons (.ofList [outer]) (.cons (.ofOption none) .nil))))) .nil)))))
  .mk .item (.cons (.ofList []) (.cons (.mk .itemFunction (.cons function .nil)) .nil))

/-- **Statements in closures are not pruned.** A test statement in a closure stays in an ordinary
build. -/
theorem closure_is_missed :
    let pruner : Pruner := ⟨⟨"x86_64", "unknown", "linux", "gnu", "little", 64⟩, .debug, .normal⟩
    pruner.pruneItemTree [closureItem] = [closureItem] ∧
      pruner.activeItems [closureItem] = [closureItem] ∧ pruner.holdsInactive closureItem = true ∧
      pruner.erase closureItem ≠ closureItem := by
  intro pruner
  have hholds : pruner.holdsInactive closureItem = true := rfl
  refine ⟨rfl, rfl, hholds, fun h => ?_⟩
  rw [erase_eq_self_iff, hholds] at h
  cases h

end

end Nia.TargetConfig.Pruner
