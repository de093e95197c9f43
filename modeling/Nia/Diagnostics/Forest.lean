import Nia.Lib.Worklist

/-! Causes as a graph.

Each diagnostic has one cause at most, so following causes is a partial function on positions.
`causalCycleNodes` walks it with three colours and marks the positions on a cycle
(`causalCycleNodes_iff`); without the edges that leave them the function is a forest, and
`appendCausalSubtree`, run from every position without a parent, lists each position once, its
parent before it (`orderedIndices_of_acyclic`). -/
namespace Nia.Diagnostics

open List Lib.Worklist

variable {n : Nat}

/-- One cause further. -/
def Step (parents : Fin n → Option (Fin n)) (a b : Fin n) : Prop := parents a = some b

/-- Following causes leads back. -/
def OnCycle (parents : Fin n → Option (Fin n)) (a : Fin n) : Prop := Relation.TransGen (Step parents) a a

/-! ### Marking cycles -/

inductive Colour where
  | unseen
  | onPath
  | done
  deriving DecidableEq

/-- The inner loop: the colours, the path and, where the walk met its own path, the position. -/
def walk (parents : Fin n → Option (Fin n)) :
    Nat → (Fin n → Colour) → List (Fin n) → Fin n → (Fin n → Colour) × List (Fin n) × Option (Fin n)
  | 0, state, path, _ => (state, path, none)
  | fuel + 1, state, path, current =>
    if state current ≠ .unseen then
      (state, path, if state current = .onPath then some current else none)
    else
      match parents current with
      | none => (Function.update state current .onPath, path ++ [current], none)
      | some parent => walk parents fuel (Function.update state current .onPath) (path ++ [current]) parent

/-- The rest of a turn of the outer loop. -/
def markCycle (state : Fin n → Colour) (path : List (Fin n)) (entry : Option (Fin n)) (cyclic : Fin n → Bool) :
    (Fin n → Colour) × (Fin n → Bool) :=
  (fun x => if x ∈ path then .done else state x,
    fun x => cyclic x || entry.any fun current =>
      (path.idxOf? current).any fun cycleStart => decide (x ∈ path.drop cycleStart))

def cycleTurn (parents : Fin n → Option (Fin n)) (marks : (Fin n → Colour) × (Fin n → Bool)) (start : Fin n) :
    (Fin n → Colour) × (Fin n → Bool) :=
  if marks.1 start ≠ .unseen then marks
  else
    let (state, path, entry) := walk parents (n + 1) marks.1 [] start
    markCycle state path entry marks.2

def causalCycleNodes (parents : Fin n → Option (Fin n)) : Fin n → Bool :=
  ((List.finRange n).foldl (cycleTurn parents) (fun _ => .unseen, fun _ => false)).2

variable {x : Fin n} {fuel : Nat}

section Cycles

variable {parents : Fin n → Option (Fin n)}

theorem Step.functional {a b c : Fin n} (hb : Step parents a b) (hc : Step parents a c) : b = c :=
  Option.some.inj (hb.symm.trans hc)

/-- From everything that a position on a cycle leads to, causes lead back to it. -/
theorem OnCycle.back {a b : Fin n} (hcycle : OnCycle parents a)
    (h : Relation.ReflTransGen (Step parents) a b) : Relation.ReflTransGen (Step parents) b a := by
  induction h with
  | refl => exact .refl
  | @tail b c _ hstep ih =>
    -- one step from `b` towards `a` is the step to `c`
    have hround : Relation.TransGen (Step parents) b a := by
      rcases Relation.reflTransGen_iff_eq_or_transGen.mp ih with rfl | h
      · exact hcycle
      · exact h
    obtain ⟨c', hstep', hrest⟩ := Relation.TransGen.head'_iff.mp hround
    rwa [hstep.functional hstep']

theorem not_onCycle_of_closed {a b : Fin n} (closed : Fin n → Prop)
    (hclosed : ∀ x y, closed x → Step parents x y → closed y) (hb : closed b) (ha : ¬ closed a)
    (h : Relation.ReflTransGen (Step parents) a b) : ¬ OnCycle parents a := by
  intro hcycle
  have hback := hcycle.back h
  have hkeeps : ∀ x, Relation.ReflTransGen (Step parents) b x → closed x := by
    intro x hx
    induction hx with
    | refl => exact hb
    | tail _ hstep ih => exact hclosed _ _ ih hstep
  exact ha (hkeeps a hback)

variable {path : List (Fin n)} {last : Fin n}

theorem transGen_last (hchain : (path ++ [last]).IsChain (Step parents))
    (hx : x ∈ path) : Relation.TransGen (Step parents) x last := by
  induction path generalizing x with
  | nil => cases hx
  | cons first rest ih =>
    rw [cons_append, isChain_cons] at hchain
    obtain ⟨hfirst, hrest⟩ := hchain
    rcases mem_cons.mp hx with rfl | hx
    · cases rest with
      | nil => exact .single (hfirst last rfl)
      | cons second rest => exact .head (hfirst second rfl) (ih hrest (mem_cons_self ..))
    · exact ih hrest hx

theorem reflTransGen_first {first : Fin n} (hchain : (first :: path).IsChain (Step parents))
    (hx : x ∈ first :: path) : Relation.ReflTransGen (Step parents) first x := by
  induction path generalizing first with
  | nil => rw [mem_singleton.mp hx]
  | cons second rest ih =>
    rcases mem_cons.mp hx with rfl | hx
    · exact .refl
    · rw [isChain_cons_cons] at hchain
      exact .head hchain.1 (ih hchain.2 hx)

/-- Every position of a path but the last has its parent on it. -/
theorem step_mem {y : Fin n} (hchain : (path ++ [last]).IsChain (Step parents))
    (hx : x ∈ path) (hstep : Step parents x y) : y ∈ path ++ [last] := by
  induction path with
  | nil => cases hx
  | cons first rest ih =>
    rw [cons_append, isChain_cons] at hchain
    obtain ⟨hfirst, hrest⟩ := hchain
    rcases mem_cons.mp hx with rfl | hx
    · refine mem_cons_of_mem _ ?_
      cases rest with
      | nil => rw [(hfirst last rfl).functional hstep]; exact mem_cons_self ..
      | cons second rest => rw [(hfirst second rfl).functional hstep]; exact mem_cons_self ..
    · exact mem_cons_of_mem _ (ih hrest hx)

/-- Where the walk stands: its path has one colour, and what was done before the other. -/
structure Walked (before state : Fin n → Colour) (path : List (Fin n)) : Prop where
  onPath : ∀ x, state x = .onPath ↔ x ∈ path
  done : ∀ x, state x = .done ↔ before x = .done
  nodup : path.Nodup

/-- How the walk ended: without a further cause, at a position done before, or on its own path. -/
inductive Ended (parents : Fin n → Option (Fin n)) (before : Fin n → Colour) (path : List (Fin n)) :
    Option (Fin n) → Prop where
  | root {front : List (Fin n)} {last : Fin n} (path_eq : path = front ++ [last])
    (chain : path.IsChain (Step parents)) (stops : parents last = none) : Ended parents before path none
  | seen {current : Fin n} (chain : (path ++ [current]).IsChain (Step parents)) (done : before current = .done) :
    Ended parents before path none
  | met {current : Fin n} (chain : (path ++ [current]).IsChain (Step parents)) (mem : current ∈ path) :
    Ended parents before path (some current)

variable {before state : Fin n → Colour} {current : Fin n}

theorem Walked.push (h : Walked before state path) (hcurrent : state current = .unseen) :
    Walked before (Function.update state current .onPath) (path ++ [current]) := by
  have hnew : current ∉ path := fun hmem => by simp [(h.onPath current).mpr hmem] at hcurrent
  refine ⟨fun x => ?_, fun x => ?_, ?_⟩
  · by_cases hx : x = current
    · simp [hx]
    · simp [hx, h.onPath]
  · by_cases hx : x = current
    · simp [hx, ← h.done, hcurrent]
    · simp [hx, h.done]
  · exact nodup_append_comm.mp (nodup_cons.mpr ⟨hnew, h.nodup⟩)

theorem walk_spec (h : Walked before state path) (hchain : (path ++ [current]).IsChain (Step parents))
    (hfuel : path.length + fuel = n + 1) :
    Walked before (walk parents fuel state path current).1 (walk parents fuel state path current).2.1 ∧
      Ended parents before (walk parents fuel state path current).2.1 (walk parents fuel state path current).2.2 ∧
      path ⊆ (walk parents fuel state path current).2.1 ∧
      (state current = .unseen → current ∈ (walk parents fuel state path current).2.1) := by
  induction fuel generalizing state path current with
  | zero =>
    have := h.nodup.length_le_card
    rw [Fintype.card_fin] at this
    omega
  | succ fuel ih =>
    rw [walk]
    by_cases hseen : state current ≠ .unseen
    · rw [if_pos hseen]
      refine ⟨h, ?_, List.Subset.refl _, fun hun => absurd hun hseen⟩
      cases hcolour : state current with
      | unseen => exact absurd hcolour hseen
      | onPath => exact .met hchain ((h.onPath current).mp hcolour)
      | done => exact .seen hchain ((h.done current).mp hcolour)
    · rw [if_neg hseen]
      have hpushed := h.push (not_not.mp hseen)
      cases hparent : parents current with
      | none => exact ⟨hpushed, .root rfl hchain hparent, subset_append_left .., fun _ => by simp⟩
      | some parent =>
        have hlonger : ((path ++ [current]) ++ [parent]).IsChain (Step parents) := by
          refine isChain_append.mpr ⟨hchain, .singleton _, fun x hx y hy => ?_⟩
          simp only [List.getLast?_append, List.getLast?_singleton, Option.some_or, Option.mem_some_iff,
            List.head?_cons] at hx hy
          exact hx ▸ hy ▸ hparent
        obtain ⟨hwalked, hended, hsub, -⟩ := ih hpushed hlonger (by simp; omega)
        exact ⟨hwalked, hended, fun x hx => hsub (mem_append_left _ hx), fun _ => hsub (by simp)⟩

/-- Of a path, exactly what stands from the met position on lies on a cycle. -/
theorem onCycle_iff_of_met {front rest : List (Fin n)}
    (hchain : ((front ++ current :: rest) ++ [current]).IsChain (Step parents))
    (hx : x ∈ front ++ current :: rest) : OnCycle parents x ↔ x ∈ current :: rest := by
  have hloop : ((current :: rest) ++ [current]).IsChain (Step parents) := by
    rw [append_assoc] at hchain
    exact hchain.right_of_append
  constructor
  · intro hcycle
    by_contra hout
    refine not_onCycle_of_closed (· ∈ current :: rest) (fun y z hy hstep => ?_) (mem_cons_self ..) hout
      (transGen_last hchain hx).to_reflTransGen hcycle
    rcases mem_append.mp (step_mem hloop hy hstep) with hz | hz
    · exact hz
    · rw [mem_singleton.mp hz]
      exact mem_cons_self ..
  · intro hin
    exact (transGen_last hloop hin).trans_left (reflTransGen_first hloop.left_of_append hin)

/-- What the outer loop keeps: nothing is on a path, what is done leads only to what is done, and
of that the positions on a cycle are marked. -/
structure Marked (parents : Fin n → Option (Fin n)) (marks : (Fin n → Colour) × (Fin n → Bool)) : Prop where
  settled : ∀ x, marks.1 x ≠ .onPath
  closed : ∀ x y, marks.1 x = .done → Step parents x y → marks.1 y = .done
  marked : ∀ x, marks.2 x = true ↔ marks.1 x = .done ∧ OnCycle parents x

/-- Whether the end of the walk marks a position. -/
def inCycle (path : List (Fin n)) (entry : Option (Fin n)) (x : Fin n) : Bool :=
  entry.any fun current => (path.idxOf? current).any fun cycleStart => decide (x ∈ path.drop cycleStart)

theorem inCycle_met {front rest : List (Fin n)} (hnew : current ∉ front) (x : Fin n) :
    inCycle (front ++ current :: rest) (some current) x = decide (x ∈ current :: rest) := by
  have hindex : (front ++ current :: rest).idxOf? current = some front.length := by
    have hfront : front.findIdx? (· == current) = none :=
      List.findIdx?_eq_none_iff.mpr fun y hy => by simpa using fun h : y = current => hnew (h ▸ hy)
    rw [List.idxOf?, List.findIdx?_append, hfront]
    simp [List.findIdx?_cons]
  rw [inCycle, Option.any_some, hindex, Option.any_some, drop_left]

theorem Ended.inCycle_iff {entry : Option (Fin n)} (h : Ended parents before path entry) (hnodup : path.Nodup)
    (hclosed : ∀ x y, before x = .done → Step parents x y → before y = .done) (hx : x ∈ path)
    (hundone : before x ≠ .done) : inCycle path entry x = true ↔ OnCycle parents x := by
  cases h with
  | @root front last path_eq chain stops =>
    have hnone : ¬ OnCycle parents x := by
      rw [path_eq] at hx chain
      rcases mem_append.mp hx with hx | hx
      · intro hcycle
        have hback := hcycle.back (transGen_last chain hx).to_reflTransGen
        rcases Relation.reflTransGen_iff_eq_or_transGen.mp hback with rfl | hback
        · obtain ⟨_, hstep, _⟩ := Relation.TransGen.head'_iff.mp hcycle
          exact absurd (stops.symm.trans hstep) nofun
        · obtain ⟨_, hstep, _⟩ := Relation.TransGen.head'_iff.mp hback
          exact absurd (stops.symm.trans hstep) nofun
      · rw [mem_singleton.mp hx]
        intro hcycle
        obtain ⟨_, hstep, _⟩ := Relation.TransGen.head'_iff.mp hcycle
        exact absurd (stops.symm.trans hstep) nofun
    exact iff_of_false Bool.false_ne_true hnone
  | seen chain done =>
    exact iff_of_false Bool.false_ne_true (not_onCycle_of_closed (before · = .done) hclosed done hundone
      (transGen_last chain hx).to_reflTransGen)
  | @met current chain mem =>
    obtain ⟨front, rest, rfl⟩ := append_of_mem mem
    have hnew : current ∉ front := fun hmem =>
      (nodup_append.mp hnodup).2.2 current hmem current (mem_cons_self ..) rfl
    rw [inCycle_met hnew, decide_eq_true_eq, onCycle_iff_of_met chain hx]

theorem Ended.closed {entry : Option (Fin n)}
    (h : Ended parents before path entry) {y : Fin n} (hx : x ∈ path) (hstep : Step parents x y) :
    y ∈ path ∨ before y = .done := by
  cases h with
  | @root front last path_eq chain stops =>
    rw [path_eq] at hx chain ⊢
    rcases mem_append.mp hx with hx | hx
    · exact .inl (step_mem chain hx hstep)
    · rw [mem_singleton.mp hx] at hstep
      exact absurd (stops.symm.trans hstep) nofun
  | seen chain done =>
    rcases mem_append.mp (step_mem chain hx hstep) with hy | hy
    · exact .inl hy
    · exact .inr (mem_singleton.mp hy ▸ done)
  | met chain mem =>
    rcases mem_append.mp (step_mem chain hx hstep) with hy | hy
    · exact .inl hy
    · exact .inl (mem_singleton.mp hy ▸ mem)

theorem Marked.markCycle {cyclic : Fin n → Bool}
    {entry : Option (Fin n)} (h : Marked parents (before, cyclic)) (hwalked : Walked before state path)
    (hended : Ended parents before path entry) : Marked parents (markCycle state path entry cyclic) ∧
      ∀ x, (markCycle state path entry cyclic).1 x = .done ↔ x ∈ path ∨ before x = .done := by
  have hdone : ∀ x, (Nia.Diagnostics.markCycle state path entry cyclic).1 x = .done ↔ x ∈ path ∨ before x = .done :=
    fun x => by
      rw [Nia.Diagnostics.markCycle, ← hwalked.done]
      by_cases hx : x ∈ path <;> simp [hx]
  have hfresh : ∀ x ∈ path, before x ≠ .done := fun x hx hbefore => by
    simpa [(hwalked.onPath x).mpr hx] using (hwalked.done x).mpr hbefore
  refine ⟨⟨fun x => ?_, fun x y hx hstep => (hdone y).mpr ?_, fun x => ?_⟩, hdone⟩
  · by_cases hx : x ∈ path
    · simp [Nia.Diagnostics.markCycle, hx]
    · simpa [Nia.Diagnostics.markCycle, hx] using (hwalked.onPath x).not.mpr hx
  · rcases (hdone x).mp hx with hx | hx
    · exact hended.closed hx hstep
    · exact .inr (h.closed x y hx hstep)
  · rw [hdone]
    show (cyclic x || inCycle path entry x) = true ↔ _
    rw [Bool.or_eq_true, h.marked]
    by_cases hx : x ∈ path
    · simp [hx, hfresh x hx, hended.inCycle_iff hwalked.nodup h.closed hx (hfresh x hx)]
    · have hout : inCycle path entry x = false := by
        cases entry with
        | none => rfl
        | some current =>
          refine Bool.eq_false_iff.mpr fun hin => hx ?_
          rw [inCycle, Option.any_some] at hin
          cases hindex : path.idxOf? current with
          | none => simp [hindex] at hin
          | some cycleStart =>
            rw [hindex, Option.any_some, decide_eq_true_eq] at hin
            exact mem_of_mem_drop hin
      simp [hx, hout]

theorem Marked.cycleTurn {marks : (Fin n → Colour) × (Fin n → Bool)} (h : Marked parents marks) (start : Fin n) :
    Marked parents (cycleTurn parents marks start) ∧ (cycleTurn parents marks start).1 start = .done ∧
      ∀ x, marks.1 x = .done → (cycleTurn parents marks start).1 x = .done := by
  rw [Nia.Diagnostics.cycleTurn]
  by_cases hstart : marks.1 start ≠ .unseen
  · rw [if_pos hstart]
    refine ⟨h, ?_, fun _ => id⟩
    cases hcolour : marks.1 start with
    | unseen => exact absurd hcolour hstart
    | onPath => exact absurd hcolour (h.settled start)
    | done => rfl
  · rw [if_neg hstart]
    have hempty : Walked marks.1 marks.1 [] := ⟨fun x => by simp [h.settled x], fun _ => Iff.rfl, nodup_nil⟩
    have hchain : ([] ++ [start]).IsChain (Step parents) := .singleton start
    obtain ⟨hwalked, hended, -, hmem⟩ := walk_spec hempty hchain (Nat.zero_add (n + 1))
    obtain ⟨hmarked, hdone⟩ := h.markCycle hwalked hended
    exact ⟨hmarked, (hdone start).mpr (.inl (hmem (not_not.mp hstart))), fun x hx => (hdone x).mpr (.inr hx)⟩

theorem foldl_cycleTurn {marks : (Fin n → Colour) × (Fin n → Bool)} (h : Marked parents marks)
    (starts : List (Fin n)) :
    Marked parents (starts.foldl (cycleTurn parents) marks) ∧
      ∀ x, x ∈ starts ∨ marks.1 x = .done → (starts.foldl (cycleTurn parents) marks).1 x = .done := by
  induction starts generalizing marks with
  | nil => exact ⟨h, fun x hx => hx.resolve_left not_mem_nil⟩
  | cons start starts ih =>
    obtain ⟨hmarked, hstart, hkeeps⟩ := h.cycleTurn start
    obtain ⟨hfinal, hdone⟩ := ih hmarked
    refine ⟨hfinal, fun x hx => hdone x ?_⟩
    rcases hx with hx | hx
    · rcases mem_cons.mp hx with rfl | hx
      · exact .inr hstart
      · exact .inl hx
    · exact .inr (hkeeps x hx)

theorem causalCycleNodes_iff (x : Fin n) : causalCycleNodes parents x = true ↔ OnCycle parents x := by
  have hstart : Marked parents (fun _ => .unseen, fun _ => false) := ⟨nofun, nofun, fun _ => by simp⟩
  obtain ⟨hmarked, hdone⟩ := foldl_cycleTurn hstart (List.finRange n)
  rw [causalCycleNodes, hmarked.marked, and_iff_right (hdone x (.inl (mem_finRange x)))]

/-- Dropping edges from a position to itself keeps the other cycles. -/
theorem onCycle_of_ne (named : Fin n → Option (Fin n)) {a b : Fin n} (hstep : Step named a b) (hne : b ≠ a)
    (h : OnCycle named a) : OnCycle (fun x => (named x).filter fun y => decide (y ≠ x)) a := by
  have hkeep : ∀ x y, Step named x y → y ≠ x → Step (fun x => (named x).filter fun y => decide (y ≠ x)) x y :=
    fun x y hxy hyx => by
      have : named x = some y := hxy
      simp [Step, this, hyx]
  obtain ⟨c, hfirst, hrest⟩ := Relation.TransGen.head'_iff.mp h
  obtain rfl := hstep.functional hfirst
  refine Relation.TransGen.head' (hkeep a b hstep hne) ?_
  clear hstep hne hfirst
  induction hrest using Relation.ReflTransGen.head_induction_on with
  | refl => exact .refl
  | @head x y hxy _ ih =>
    by_cases hself : y = x
    · exact hself ▸ ih
    · exact .head (hkeep x y hxy hself) ih

/-- The parents kept are those named by positions that lie on no cycle, an edge to itself being one. -/
theorem owned_eq_some (named : Fin n → Option (Fin n)) {a b : Fin n} :
    ((named a).filter fun y => decide (y ≠ a)).filter
        (fun _ => !causalCycleNodes (fun x => (named x).filter fun y => decide (y ≠ x)) a) = some b ↔
      named a = some b ∧ ¬ OnCycle named a := by
  rw [Option.filter_eq_some_iff, Option.filter_eq_some_iff, Bool.not_eq_true', ← Bool.not_eq_true, causalCycleNodes_iff,
    decide_eq_true_eq]
  constructor
  · rintro ⟨⟨hstep, hne⟩, hcycle⟩
    exact ⟨hstep, fun h => hcycle (onCycle_of_ne named hstep hne h)⟩
  · rintro ⟨hstep, hcycle⟩
    refine ⟨⟨hstep, ?_⟩, fun h => hcycle ?_⟩
    · rintro rfl
      exact hcycle (.single hstep)
    · exact Relation.TransGen.mono (fun x y hxy => (Option.filter_eq_some_iff.mp hxy).1) _ _ h

end Cycles

/-! ### Listing a forest -/

/-- A visit changes nothing but the stack: the last child is pushed first. -/
def visitChildren (children : Fin n → List (Fin n)) (_ : Unit) (index : Fin n) : Unit × List (Fin n) :=
  ((), (children index).reverse)

/-- The positions visited, the last one first: the flags of the source are membership here, and its
order is this list from behind. -/
def appendCausalSubtree (children : Fin n → List (Fin n)) (index : Fin n) (visited : List (Fin n)) : List (Fin n) :=
  let steps := 1 + remaining (List.finRange n) (fun x => (children x).length) visited
  ((run (visitChildren children) steps [index] visited ()).map Prod.fst).getD visited

/-- The children of each position, in the order of positions. -/
def childrenOf (parents : Fin n → Option (Fin n)) (index : Fin n) : List (Fin n) :=
  (List.finRange n).filter fun child => decide (parents child = some index)

def orderTurn (parents : Fin n → Option (Fin n)) (visited : List (Fin n)) (index : Fin n) : List (Fin n) :=
  if index ∉ visited ∧ parents index = none then appendCausalSubtree (childrenOf parents) index visited else visited

/-- A subtree for every position without a parent. -/
def orderedIndices (parents : Fin n → Option (Fin n)) : List (Fin n) :=
  ((List.finRange n).foldl (orderTurn parents) []).reverse

section Order

variable {parents : Fin n → Option (Fin n)}

theorem mem_childrenOf {child index : Fin n} : child ∈ childrenOf parents index ↔ parents child = some index := by
  simp [childrenOf]

/-- The last position first: the parent of a position comes after it in the list. -/
def Ordered (parents : Fin n → Option (Fin n)) : List (Fin n) → Prop
  | [] => True
  | x :: before => (parents x).toList ⊆ before ∧ Ordered parents before

theorem Ordered.split {after before : List (Fin n)} (h : Ordered parents (after ++ x :: before)) :
    (parents x).toList ⊆ before := by
  induction after with
  | nil => exact h.1
  | cons _ after ih => exact ih h.2

/-- Each position once, after its parent, and with its children. -/
structure Listed (parents : Fin n → Option (Fin n)) (visited : List (Fin n)) : Prop where
  nodup : visited.Nodup
  ordered : Ordered parents visited
  closed : ∀ x ∈ visited, childrenOf parents x ⊆ visited

variable {visited : List (Fin n)}

theorem run_ordered {stack : List (Fin n)} {result : List (Fin n) × Unit}
    (h : run (visitChildren (childrenOf parents)) fuel stack visited () = some result)
    (hstack : ∀ x ∈ stack, (parents x).toList ⊆ visited)
    (hordered : Ordered parents visited) : Ordered parents result.1 := by
  induction fuel generalizing stack visited with
  | zero =>
    cases stack with
    | nil => cases h; exact hordered
    | cons x stack => cases h
  | succ fuel ih =>
    cases stack with
    | nil => cases h; exact hordered
    | cons x stack =>
      have hrest := fun y hy => hstack y (mem_cons_of_mem _ hy)
      unfold run at h
      split at h
      · exact ih h hrest hordered
      · refine ih h (fun y hy => ?_) ⟨hstack x (mem_cons_self ..), hordered⟩
        rcases mem_append.mp hy with hy | hy
        · -- a child of the position just visited
          rw [visitChildren, reverse_reverse, mem_childrenOf] at hy
          simp [hy]
        · exact subset_cons_of_subset _ (hrest y hy)

theorem Listed.appendCausalSubtree (h : Listed parents visited) {index : Fin n} (hroot : parents index = none) :
    Listed parents (appendCausalSubtree (childrenOf parents) index visited) ∧
      ∀ x, x ∈ visited ∨ x = index → x ∈ Nia.Diagnostics.appendCausalSubtree (childrenOf parents) index visited := by
  have hbounded : Lib.Worklist.Bounded (visitChildren (childrenOf parents)) (List.finRange n)
      fun x => (childrenOf parents x).length := fun _ x => by
    simp [visitChildren]
  have hends : (run (visitChildren (childrenOf parents)) (1 + remaining (List.finRange n)
      (fun x => (childrenOf parents x).length) visited) [index] visited ()).isSome :=
    run_isSome hbounded (by rw [length_singleton]) ()
  obtain ⟨result, hresult⟩ := Option.isSome_iff_exists.mp hends
  have heq : Nia.Diagnostics.appendCausalSubtree (childrenOf parents) index visited = result.1 := by
    rw [Nia.Diagnostics.appendCausalSubtree]
    exact congrArg (fun r => (Option.map Prod.fst r).getD visited) hresult
  rw [heq]
  obtain ⟨hreached, hclosed⟩ := run_closed
    (fun _ x => (reverse_perm (childrenOf parents x)).symm.subset) hresult
    fun x hx y hy => .inl (h.closed x hx hy)
  refine ⟨⟨?_, ?_, hclosed⟩, fun x hx => hreached x (hx.imp_right fun h => by simp [h])⟩
  · exact run_invariant (I := fun visited _ => visited.Nodup)
      (fun visited _ x hx hnodup => nodup_cons.mpr ⟨hx, hnodup⟩) hresult h.nodup
  · refine run_ordered hresult (fun x hx => ?_) h.ordered
    rw [mem_singleton.mp hx, hroot]
    exact nil_subset _

theorem Listed.orderTurn (h : Listed parents visited) (index : Fin n) :
    Listed parents (orderTurn parents visited index) ∧
      ∀ x, x ∈ visited ∨ (x = index ∧ parents x = none) → x ∈ Nia.Diagnostics.orderTurn parents visited index := by
  rw [Nia.Diagnostics.orderTurn]
  split
  · next hstart =>
    obtain ⟨hlisted, hmem⟩ := h.appendCausalSubtree hstart.2
    exact ⟨hlisted, fun x hx => hmem x (hx.imp_right And.left)⟩
  · next hstart =>
    refine ⟨h, fun x hx => ?_⟩
    rcases hx with hx | ⟨rfl, hroot⟩
    · exact hx
    · by_contra hnew
      exact hstart ⟨hnew, hroot⟩

theorem foldl_orderTurn (h : Listed parents visited) (starts : List (Fin n)) :
    Listed parents (starts.foldl (orderTurn parents) visited) ∧
      ∀ x, x ∈ visited ∨ (x ∈ starts ∧ parents x = none) → x ∈ starts.foldl (orderTurn parents) visited := by
  induction starts generalizing visited with
  | nil => exact ⟨h, fun x hx => hx.resolve_right fun hx => not_mem_nil hx.1⟩
  | cons start starts ih =>
    obtain ⟨hlisted, hmem⟩ := h.orderTurn start
    obtain ⟨hfinal, hall⟩ := ih hlisted
    refine ⟨hfinal, fun x hx => hall x ?_⟩
    rcases hx with hx | ⟨hx, hroot⟩
    · exact .inl (hmem x (.inl hx))
    · rcases mem_cons.mp hx with rfl | hx
      · exact .inl (hmem x (.inr ⟨rfl, hroot⟩))
      · exact .inr ⟨hx, hroot⟩

/-- Without cycles, every position stands below one without a parent. -/
theorem forall_of_acyclic (hacyclic : ∀ x, ¬ OnCycle parents x) {P : Fin n → Prop}
    (hroot : ∀ x, parents x = none → P x) (hchild : ∀ x y, parents x = some y → P y → P x) (x : Fin n) : P x := by
  have hirrefl : Std.Irrefl (Relation.TransGen fun y x => parents x = some y) :=
    ⟨fun x h => hacyclic x (Relation.transGen_swap.mp h)⟩
  have hwf := Finite.wellFounded_of_trans_of_irrefl (Relation.TransGen fun y x => parents x = some y)
  induction x using hwf.induction with
  | _ x ih =>
    cases hparent : parents x with
    | none => exact hroot x hparent
    | some y => exact hchild x y hparent (ih y (.single hparent))

/-- **Each position once, its parent before it.** -/
theorem orderedIndices_of_acyclic (hacyclic : ∀ x, ¬ OnCycle parents x) :
    (orderedIndices parents).Nodup ∧ (∀ x, x ∈ orderedIndices parents) ∧
      ∀ front x back, orderedIndices parents = front ++ x :: back → ∀ y, parents x = some y → y ∈ front := by
  have hempty : Listed parents [] := ⟨nodup_nil, trivial, nofun⟩
  obtain ⟨hlisted, hmem⟩ := foldl_orderTurn hempty (List.finRange n)
  refine ⟨nodup_reverse.mpr hlisted.nodup, fun x => mem_reverse.mpr ?_, fun front x back heq y hparent => ?_⟩
  · induction x using forall_of_acyclic hacyclic with
    | hroot x hroot => exact hmem x (.inr ⟨mem_finRange x, hroot⟩)
    | hchild x y hparent ih => exact hlisted.closed y ih (mem_childrenOf.mpr hparent)
  · rw [orderedIndices, reverse_eq_iff, reverse_append, reverse_cons, append_assoc] at heq
    have hordered := hlisted.ordered
    rw [heq] at hordered
    exact mem_reverse.mp (hordered.split (by simp [hparent]))

end Order

end Nia.Diagnostics
