import Nia.Slice.Sorted
import Nia.Lib.Heap

/-! `sortUnstableBy`, the heap sort of the standard library's slices.

The index of a child is computed before it is compared with the length, also for a parent that is a leaf. The sum is
beyond `usize` if the leaf is in the upper half of its values, so that a slice of more than half as many elements as
`usize` has values can stop the sort (`sortUnstableBy_traps`), unless its elements are all the same. Otherwise it sorts
(`sortUnstableBy_sorts`). -/
namespace Nia.Slice

open Lib.Trapping Lib.Heap List

variable {T σ : Type}

/-! ### The code -/

/-- `left + right` of `usize`, which is a trap beyond the type. -/
def plus (bits left right : Nat) : Code T σ Nat := fun env =>
  if left + right < 2 ^ bits then some (left + right, env) else none

/-- `left * right` of `usize`. -/
def times (bits left right : Nat) : Code T σ Nat := fun env =>
  if left * right < 2 ^ bits then some (left * right, env) else none

/-- The child that is compared with its parent. -/
def largestChild (bits : Nat) (compare : Comparator T σ) (start child count : Nat) : Code T σ Nat := do
  let rightChild ← plus bits child 1
  if rightChild < count then do
    let left ← read (← plus bits start child)
    let right ← read (← plus bits start rightChild)
    if (← ask compare left right) = .lt then pure rightChild else pure child
  else pure child

/-- The recursion goes to a child; its fuel is more than the positions behind the parent. -/
def siftDown (bits : Nat) (compare : Comparator T σ) (start : Nat) : (fuel parent count : Nat) → Code T σ Unit
  | 0, _, _ => trap
  | fuel + 1, parent, count =>
    if count > 1 then do
      let child ← plus bits (← times bits parent 2) 1
      if child ≥ count then pure ()
      else do
        let largest ← largestChild bits compare start child count
        let parentIndex ← plus bits start parent
        let largestIndex ← plus bits start largest
        if (← ask compare (← read parentIndex) (← read largestIndex)) = .lt then do
          swapAt parentIndex largestIndex
          siftDown bits compare start fuel largest count
        else pure ()
    else pure ()

/-- The first loop of `heapSort`. -/
def buildHeap (bits : Nat) (compare : Comparator T σ) (count : Nat) : (parent : Nat) → Code T σ Unit
  | 0 => pure ()
  | parent + 1 => do
    siftDown bits compare 0 (count + 1) parent count
    buildHeap bits compare count parent

/-- The second loop of `heapSort`. -/
def takeLargest (bits : Nat) (compare : Comparator T σ) : (remaining : Nat) → Code T σ Unit
  | 0 => pure ()
  | remaining + 1 =>
    if remaining + 1 > 1 then do
      swapAt 0 remaining
      siftDown bits compare 0 (remaining + 1) 0 remaining
      takeLargest bits compare remaining
    else pure ()

def heapSort (bits : Nat) (compare : Comparator T σ) (count : Nat) : Code T σ Unit :=
  if count < 2 then pure ()
  else do
    buildHeap bits compare count (count / 2)
    takeLargest bits compare count

/-- `sortUnstableBy`, from the state a comparator is in to the sorted elements and the comparator's state. -/
def sortUnstableBy (bits : Nat) (compare : Comparator T σ) (items : List T) (heap : σ) : Option (List T × σ) :=
  (heapSort bits compare items.length ⟨items, heap⟩).map fun (_, env) => (env.items, env.heap)

/-! ### Exchanges -/

theorem plus_eq {bits left right : Nat} (h : left + right < 2 ^ bits) (env : Env T σ) :
    plus bits left right env = some (left + right, env) := if_pos h

theorem times_eq {bits left right : Nat} (h : left * right < 2 ^ bits) (env : Env T σ) :
    times bits left right env = some (left * right, env) := if_pos h

variable {items : List T} {index : Nat}

theorem read_of_lt (h : index < items.length) (heap : σ) :
    read index ⟨items, heap⟩ = some (items[index], ⟨items, heap⟩) := by
  rw [read, List.getElem?_eq_getElem h]
  rfl

theorem write_of_lt (h : index < items.length) (value : T) (heap : σ) :
    write index value ⟨items, heap⟩ = some ((), ⟨items.set index value, heap⟩) := if_pos h

/-- Only the first elements are moved. -/
structure Shuffled (count : Nat) (items items' : List T) : Prop where
  perm : (items'.take count).Perm (items.take count)
  drop : items'.drop count = items.drop count

theorem Shuffled.refl (count : Nat) (items : List T) : Shuffled count items items := ⟨List.Perm.refl _, rfl⟩

theorem Shuffled.trans {count : Nat} {items' items'' : List T} (h : Shuffled count items items')
    (h' : Shuffled count items' items'') : Shuffled count items items'' :=
  ⟨h'.perm.trans h.perm, h'.drop.trans h.drop⟩

theorem Shuffled.all {count : Nat} {items' : List T} (h : Shuffled count items items') : items'.Perm items := by
  have hall := h.perm.append (List.Perm.of_eq h.drop)
  rwa [take_append_drop, take_append_drop] at hall

theorem swapAt_exchanges {i j count : Nat} (hlt : i < j) (hj : j < count) (hcount : count ≤ items.length) (heap : σ) :
    ∃ items', swapAt i j ⟨items, heap⟩ = some ((), ⟨items', heap⟩) ∧ Shuffled count items items' ∧
      ∀ k, items'[k]? = items[Equiv.swap i j k]? := by
  have hi : i < items.length := by omega
  have hj' : j < items.length := by omega
  have hset : j < (items.set i items[j]).length := by rwa [length_set]
  refine ⟨(items.set i items[j]).set j items[i], ?_, ?_, fun k => ?_⟩
  · rw [swapAt, if_pos (Nat.ne_of_lt hlt), bind_of_eq (read_of_lt hi heap), bind_of_eq (read_of_lt hj' heap),
      bind_of_eq (write_of_lt hi _ heap), write_of_lt hset _ heap]
  · constructor
    · have htake : i < (items.take count).length := by rw [length_take]; omega
      have htake' : j < (items.take count).length := by rw [length_take]; omega
      have hperm := set_set_perm htake htake'
      rwa [getElem_take, getElem_take, ← take_set, ← take_set] at hperm
    · rw [drop_set_of_lt hj, drop_set_of_lt (by omega)]
  · by_cases hk : k = j
    · subst hk
      rw [Equiv.swap_apply_right, List.getElem?_set_self hset, List.getElem?_eq_getElem hi]
    · rw [List.getElem?_set_ne (Ne.symm hk)]
      by_cases hk' : k = i
      · subst hk'
        rw [Equiv.swap_apply_left, List.getElem?_set_self hi, List.getElem?_eq_getElem hj']
      · rw [Equiv.swap_apply_of_ne_of_ne hk' hk, List.getElem?_set_ne (Ne.symm hk')]

/-! ### Heaps -/

/-- The element at one position is at most that at another. -/
def AtMost (cmp : T → T → Ordering) (items : List T) (i j : Nat) : Prop :=
  ∀ x ∈ items[i]?, ∀ y ∈ items[j]?, (cmp x y).isLE

theorem atMost_exchanged (cmp : T → T → Ordering) {items' : List T} {i j : Nat}
    (h : ∀ k, items'[k]? = items[Equiv.swap i j k]?) : AtMost cmp items' = exchanged (AtMost cmp items) i j := by
  funext a b
  rw [AtMost, h, h]
  rfl

section

variable {cmp : T → T → Ordering} {items : List T} {i j k : Nat}

theorem atMost_iff (hi : i < items.length) (hj : j < items.length) :
    AtMost cmp items i j ↔ (cmp items[i] items[j]).isLE := by
  rw [AtMost, List.getElem?_eq_getElem hi, List.getElem?_eq_getElem hj]
  simp

variable [Std.TransCmp cmp]

theorem AtMost.refl (i : Nat) : AtMost cmp items i i := by
  intro x hx y hy
  obtain rfl := Option.some.inj (hx.symm.trans hy)
  rw [(Std.ReflCmp.compare_self : cmp x x = .eq)]
  rfl

theorem AtMost.trans (hj : j < items.length) (h : AtMost cmp items i j) (h' : AtMost cmp items j k) :
    AtMost cmp items i k := by
  intro x hx z hz
  exact Std.TransCmp.isLE_trans (h x hx _ (List.getElem?_eq_getElem hj)) (h' _ (List.getElem?_eq_getElem hj) z hz)

/-- An element that is not below another is at least as large. -/
theorem isLE_of_not_lt {x y : T} (h : cmp x y ≠ .lt) : (cmp y x).isLE := by
  rw [(Std.OrientedCmp.eq_swap : cmp y x = (cmp x y).swap)]
  revert h
  cases cmp x y <;> simp

end

/-! ### Sifting -/

section

variable {bits low count hole : Nat} {compare : Comparator T σ} {cmp : T → T → Ordering} [Std.TransCmp cmp]
  {items : List T}

theorem ask_eq (compare : Comparator T σ) (x y : T) (items : List T) (heap : σ) :
    ask compare x y ⟨items, heap⟩ = some ((compare x y heap).1, ⟨items, (compare x y heap).2⟩) := rfl

theorem largestChild_eq (hanswers : Answers compare cmp) (hcount : count ≤ items.length) (hbits : count < 2 ^ bits)
    (hchild : hole * 2 + 1 < count) (heap : σ) :
    ∃ largest heap', largestChild bits compare 0 (hole * 2 + 1) count ⟨items, heap⟩ =
        some (largest, ⟨items, heap'⟩) ∧ IsChild hole largest ∧ largest < count ∧
      ∀ child, IsChild hole child → child < count → AtMost cmp items child largest := by
  rw [largestChild, bind_of_eq (plus_eq (by omega) _)]
  by_cases hright : hole * 2 + 1 + 1 < count
  · have hleftLt : 0 + (hole * 2 + 1) < items.length := by omega
    have hrightLt : 0 + (hole * 2 + 1 + 1) < items.length := by omega
    rw [if_pos hright, bind_of_eq (plus_eq (by omega) _), bind_of_eq (read_of_lt hleftLt _),
      bind_of_eq (plus_eq (by omega) _), bind_of_eq (read_of_lt hrightLt _), bind_of_eq (ask_eq _ _ _ _ _), hanswers]
    simp only [Nat.zero_add] at hleftLt hrightLt ⊢
    by_cases hless : cmp items[hole * 2 + 1] items[hole * 2 + 1 + 1] = .lt
    · rw [if_pos hless]
      refine ⟨_, _, rfl, Or.inr rfl, hright, fun child hisChild _ => ?_⟩
      obtain rfl | rfl := hisChild
      · rw [atMost_iff hleftLt hrightLt, hless]
        rfl
      · exact AtMost.refl _
    · rw [if_neg hless]
      refine ⟨_, _, rfl, Or.inl rfl, hchild, fun child hisChild _ => ?_⟩
      obtain rfl | rfl := hisChild
      · exact AtMost.refl _
      · exact (atMost_iff hrightLt hleftLt).mpr (isLE_of_not_lt hless)
  · rw [if_neg hright]
    refine ⟨hole * 2 + 1, heap, rfl, Or.inl rfl, hchild, fun child hisChild hlt => ?_⟩
    obtain rfl | rfl := hisChild
    · exact AtMost.refl _
    · omega

/-- The element at the hole sinks until the positions are in order. -/
theorem siftDown_eq (hanswers : Answers compare cmp) (hcount : count ≤ items.length) (hbits : count < 2 ^ bits)
    (hfits : count * 2 ≤ 2 ^ bits ∨ Subsingleton T) (hhole : hole * 2 + 1 < 2 ^ bits) (hlow : low ≤ hole)
    (h : Sinking (AtMost cmp items) low count hole) (heap : σ) {fuel : Nat} (hfuel : count - hole < fuel) :
    ∃ items' heap', siftDown bits compare 0 fuel hole count ⟨items, heap⟩ = some ((), ⟨items', heap'⟩) ∧
      Shuffled count items items' ∧ Ordered (AtMost cmp items') low count := by
  induction fuel generalizing hole items heap with
  | zero => omega
  | succ fuel ih =>
  rw [siftDown]
  by_cases hsingle : count > 1
  · rw [if_pos hsingle, bind_of_eq (times_eq (by omega) _), bind_of_eq (plus_eq hhole _)]
    by_cases hleaf : hole * 2 + 1 ≥ count
    · rw [if_pos hleaf]
      refine ⟨items, heap, rfl, Shuffled.refl _ _, h.rest fun child hchild hlt => ?_⟩
      rw [IsChild] at hchild
      omega
    · obtain ⟨largest, heap₁, hlargest, hisChild, hlt, hmax⟩ :=
        largestChild_eq hanswers hcount hbits (Nat.lt_of_not_le hleaf) heap
      have hbelow := hisChild.lt
      have hholeLt : hole < items.length := by omega
      have hlargestLt : largest < items.length := by omega
      rw [if_neg hleaf, bind_of_eq hlargest, bind_of_eq (plus_eq (show 0 + hole < 2 ^ bits by omega) _),
        bind_of_eq (plus_eq (show 0 + largest < 2 ^ bits by omega) _), Nat.zero_add, Nat.zero_add,
        bind_of_eq (read_of_lt hholeLt _), bind_of_eq (read_of_lt hlargestLt _),
        bind_of_eq (ask_eq _ _ _ _ _), hanswers]
      by_cases hless : cmp items[hole] items[largest] = .lt
      · -- all elements are the same only if none is below another
        have hhalf : count * 2 ≤ 2 ^ bits := by
          refine hfits.resolve_right fun hsub => ?_
          rw [Subsingleton.elim items[hole] items[largest],
            (Std.ReflCmp.compare_self : cmp items[largest] items[largest] = .eq)] at hless
          cases hless
        obtain ⟨items₁, hswap, hshuffled, hlookup⟩ :=
          swapAt_exchanges hbelow hlt hcount (compare items[hole] items[largest] heap₁).2
        have hsinking := h.sink hlow hisChild hlt hmax ((atMost_iff hholeLt hlargestLt).mpr (by rw [hless]; rfl))
        rw [← atMost_exchanged cmp hlookup] at hsinking
        obtain ⟨items', heap', hrun, hshuffled', hordered⟩ := ih
          (by rw [hshuffled.all.length_eq]; exact hcount) (show largest * 2 + 1 < 2 ^ bits by omega) (by omega)
          hsinking _ (by omega)
        rw [if_pos hless, bind_of_eq hswap]
        exact ⟨items', heap', hrun, hshuffled.trans hshuffled', hordered⟩
      · rw [if_neg hless]
        refine ⟨items, _, rfl, Shuffled.refl _ _, h.rest fun child hchild hchildLt => ?_⟩
        exact (hmax child hchild hchildLt).trans hlargestLt
          ((atMost_iff hlargestLt hholeLt).mpr (isLE_of_not_lt hless))
  · rw [if_neg hsingle]
    refine ⟨items, heap, rfl, Shuffled.refl _ _, h.rest fun child hchild hlt => ?_⟩
    have := hchild.lt
    omega

theorem buildHeap_eq (hanswers : Answers compare cmp) (hcount : count ≤ items.length) (hbits : count < 2 ^ bits)
    (hfits : count * 2 ≤ 2 ^ bits ∨ Subsingleton T) {parent : Nat} (hparent : parent ≤ count / 2)
    (h : Ordered (AtMost cmp items) parent count) (heap : σ) :
    ∃ items' heap', buildHeap bits compare count parent ⟨items, heap⟩ = some ((), ⟨items', heap'⟩) ∧
      Shuffled count items items' ∧ Ordered (AtMost cmp items') 0 count := by
  induction parent generalizing items heap with
  | zero => exact ⟨items, heap, rfl, Shuffled.refl _ _, h⟩
  | succ parent ih =>
    obtain ⟨items₁, heap₁, hsift, hshuffled, hordered⟩ := siftDown_eq hanswers hcount hbits hfits
      (show parent * 2 + 1 < 2 ^ bits by omega) (Nat.le_refl parent) h.sinking heap
      (Nat.lt_succ_of_le (Nat.sub_le count parent))
    obtain ⟨items', heap', hrun, hshuffled', hordered'⟩ := ih
      (by rw [hshuffled.all.length_eq]; exact hcount) (by omega) hordered heap₁
    rw [buildHeap, bind_of_eq hsift]
    exact ⟨items', heap', hrun, hshuffled.trans hshuffled', hordered'⟩

/-- After some rounds: a heap in front of sorted elements, which are at least those of the heap. -/
structure Settled (cmp : T → T → Ordering) (remaining : Nat) (items : List T) : Prop where
  heap : Ordered (AtMost cmp items) 0 remaining
  sorted : Ascending cmp (items.drop remaining)
  below : ∀ x ∈ items.take remaining, ∀ y ∈ items.drop remaining, (cmp x y).isLE

omit [Std.TransCmp cmp] in
theorem Settled.ascending {remaining : Nat} (h : Settled cmp remaining items) (hle : remaining ≤ 1) :
    Ascending cmp items := by
  rw [← take_append_drop remaining items]
  refine pairwise_append.mpr ⟨?_, h.sorted, h.below⟩
  refine pairwise_iff_getElem.mpr fun i j hi hj hlt => ?_
  rw [length_take] at hj
  omega

/-- The largest element of the heap goes in front of the sorted ones. -/
theorem Settled.front {remaining : Nat} (h : Settled cmp (remaining + 1) items)
    (hlength : remaining + 1 ≤ items.length) {items₁ items' : List T}
    (hshuffled : Shuffled (remaining + 1) items items₁)
    (hlookup : ∀ k, items₁[k]? = items[Equiv.swap 0 remaining k]?) (hshuffled' : Shuffled remaining items₁ items')
    (hordered : Ordered (AtMost cmp items') 0 remaining) : Settled cmp remaining items' := by
  have hlength₁ : items₁.length = items.length := hshuffled.all.length_eq
  have hlast : items₁[remaining] = items[0] := by
    have hat := hlookup remaining
    rw [Equiv.swap_apply_right, List.getElem?_eq_getElem (by omega), List.getElem?_eq_getElem (by omega)] at hat
    exact Option.some.inj hat
  have hdrop : items'.drop remaining = items[0] :: items.drop (remaining + 1) := by
    rw [hshuffled'.drop, drop_eq_getElem_cons (by omega), hlast, hshuffled.drop]
  have hmem : ∀ x ∈ items'.take remaining, x ∈ items.take (remaining + 1) := by
    intro x hx
    exact hshuffled.perm.mem_iff.mp (take_subset_take_left _ (Nat.le_succ _) (hshuffled'.perm.mem_iff.mp hx))
  have hlargest : ∀ x ∈ items.take (remaining + 1), (cmp x items[0]).isLE := by
    intro x hx
    obtain ⟨index, hindex, rfl⟩ := mem_take_iff_getElem.mp hx
    exact (atMost_iff _ _).mp (h.heap.le_zero (fun i _ => AtMost.refl i)
      (fun i j k hj => AtMost.trans (by omega)) (by omega))
  have hfirst : items[0] ∈ items.take (remaining + 1) := mem_take_iff_getElem.mpr ⟨0, by omega, rfl⟩
  constructor
  · exact hordered
  · rw [hdrop]
    exact pairwise_cons.mpr ⟨fun y hy => h.below _ hfirst y hy, h.sorted⟩
  · intro x hx y hy
    rw [hdrop] at hy
    obtain rfl | hy := mem_cons.mp hy
    · exact hlargest x (hmem x hx)
    · exact h.below x (hmem x hx) y hy

theorem takeLargest_eq (hanswers : Answers compare cmp) {remaining : Nat} (hcount : remaining ≤ items.length)
    (hbits : remaining < 2 ^ bits) (hfits : remaining * 2 ≤ 2 ^ bits ∨ Subsingleton T)
    (h : Settled cmp remaining items) (heap : σ) :
    ∃ items' heap', takeLargest bits compare remaining ⟨items, heap⟩ = some ((), ⟨items', heap'⟩) ∧
      items'.Perm items ∧ Ascending cmp items' := by
  induction remaining generalizing items heap with
  | zero => exact ⟨items, heap, rfl, List.Perm.refl _, h.ascending (Nat.zero_le _)⟩
  | succ remaining ih =>
    rw [takeLargest]
    by_cases hmore : remaining + 1 > 1
    · obtain ⟨items₁, hswap, hshuffled, hlookup⟩ :=
        swapAt_exchanges (show 0 < remaining by omega) (Nat.lt_succ_self remaining) hcount heap
      have hlength := hshuffled.all.length_eq
      have hsinking := h.heap.exchanged
      rw [← atMost_exchanged cmp hlookup] at hsinking
      obtain ⟨items₂, heap₂, hsift, hshuffled', hordered⟩ := siftDown_eq hanswers
        (show remaining ≤ items₁.length by omega) (show remaining < 2 ^ bits by omega)
        (hfits.imp_left fun hle => by omega) (by omega) (Nat.le_refl 0) hsinking heap (Nat.lt_succ_self remaining)
      have hlength' := hshuffled'.all.length_eq
      obtain ⟨items', heap', hrun, hperm, hascending⟩ := ih (by omega) (by omega)
        (hfits.imp_left fun hle => by omega) (h.front hcount hshuffled hlookup hshuffled' hordered) heap₂
      rw [if_pos hmore, bind_of_eq hswap, bind_of_eq hsift]
      exact ⟨items', heap', hrun, hperm.trans (hshuffled'.all.trans hshuffled.all), hascending⟩
    · rw [if_neg hmore]
      exact ⟨items, heap, rfl, List.Perm.refl _, h.ascending (by omega)⟩

theorem sortUnstableBy_sorts (hanswers : Answers compare cmp) (hbits : items.length < 2 ^ bits)
    (hfits : items.length * 2 ≤ 2 ^ bits ∨ Subsingleton T) (heap : σ) :
    ∃ sorted heap', sortUnstableBy bits compare items heap = some (sorted, heap') ∧ sorted.Perm items ∧
      Ascending cmp sorted := by
  rw [sortUnstableBy, heapSort]
  by_cases hshort : items.length < 2
  · rw [if_pos hshort]
    refine ⟨items, heap, rfl, List.Perm.refl _, pairwise_iff_getElem.mpr fun i j hi hj hlt => ?_⟩
    omega
  · obtain ⟨items₁, heap₁, hbuild, hshuffled, hordered⟩ := buildHeap_eq hanswers (Nat.le_refl _) hbits hfits
      (Nat.le_refl _) (ordered_leaves (AtMost cmp items) items.length) heap
    have hlength := hshuffled.all.length_eq
    have hsettled : Settled cmp items.length items₁ := by
      constructor
      · exact hordered
      · rw [drop_eq_nil_of_le (Nat.le_of_eq hlength)]
        exact List.Pairwise.nil
      · intro x _ y hy
        rw [drop_eq_nil_of_le (Nat.le_of_eq hlength)] at hy
        cases hy
    obtain ⟨sorted, heap', htake, hperm, hascending⟩ :=
      takeLargest_eq hanswers (Nat.le_of_eq hlength.symm) hbits hfits hsettled heap₁
    refine ⟨sorted, heap', ?_, hperm.trans hshuffled.all, hascending⟩
    rw [if_neg hshort, bind_of_eq hbuild, htake]
    rfl

end

/-! ### Where it stops -/

section

variable {bits count : Nat} {compare : Comparator T σ} {cmp : T → T → Ordering} {x y : T}

theorem read_first (h : index ≤ count) (heap : σ) :
    read index ⟨List.replicate (count + 1) x ++ [y], heap⟩ = some (x, ⟨List.replicate (count + 1) x ++ [y], heap⟩) := by
  have hlt : index < (List.replicate (count + 1) x).length := by
    rw [length_replicate]
    omega
  rw [read, List.getElem?_append_left hlt, List.getElem?_replicate_of_lt (by omega)]
  rfl

theorem read_last (count : Nat) (x y : T) (heap : σ) :
    read (count + 1) ⟨List.replicate (count + 1) x ++ [y], heap⟩ =
      some (y, ⟨List.replicate (count + 1) x ++ [y], heap⟩) := by
  have hread := read_eq (List.replicate (count + 1) x) y [] heap
  rwa [length_replicate] at hread

/-- The larger child is the last element. -/
theorem largestChild_last (hanswers : Answers compare cmp) (hless : cmp x y = .lt) (hbits : count + 2 < 2 ^ bits)
    (heap : σ) : ∃ heap', largestChild bits compare 0 (count / 2 * 2 + 1) (count + 2)
      ⟨List.replicate (count + 1) x ++ [y], heap⟩ = some (count + 1, ⟨List.replicate (count + 1) x ++ [y], heap'⟩) := by
  rw [largestChild, bind_of_eq (plus_eq (by omega) _)]
  by_cases hright : count / 2 * 2 + 1 + 1 < count + 2
  · have hodd : count / 2 * 2 + 1 = count := by omega
    rw [if_pos hright, bind_of_eq (plus_eq (by omega) _), Nat.zero_add, hodd, bind_of_eq (read_first (Nat.le_refl _) _),
      bind_of_eq (plus_eq (by omega) _), Nat.zero_add, bind_of_eq (read_last _ _ _ _), bind_of_eq (ask_eq _ _ _ _ _),
      hanswers, if_pos hless]
    exact ⟨_, rfl⟩
  · have heven : count / 2 * 2 = count := by omega
    rw [if_neg hright, heven]
    exact ⟨_, rfl⟩

/-- The last of many elements is the larger one: the first step exchanges it with its parent. -/
theorem sortUnstableBy_traps (hanswers : Answers compare cmp) (hless : cmp x y = .lt) (hbits : count + 2 < 2 ^ bits)
    (hlong : 2 ^ bits < (count + 2) * 2) (heap : σ) :
    sortUnstableBy bits compare (List.replicate (count + 1) x ++ [y]) heap = none := by
  have hlength : (List.replicate (count + 1) x ++ [y]).length = count + 2 := by simp
  have heven : ∃ half, 2 ^ bits = half * 2 := by
    cases bits with
    | zero => omega
    | succ bits => exact ⟨2 ^ bits, rfl⟩
  obtain ⟨half, hhalf⟩ := heven
  have hparent : (count + 2) / 2 = count / 2 + 1 := by omega
  obtain ⟨heap₁, hlargest⟩ := largestChild_last hanswers hless hbits heap
  obtain ⟨items', hswap, -⟩ := swapAt_exchanges (show count / 2 < count + 1 by omega) (Nat.lt_succ_self (count + 1))
    (Nat.le_of_eq hlength.symm) (compare x y heap₁).2
  have htrap : siftDown bits compare 0 (count + 2) (count + 1) (count + 2) ⟨items', (compare x y heap₁).2⟩ = none := by
    have htimes : times bits (count + 1) 2 (⟨items', (compare x y heap₁).2⟩ : Env T σ) = none := if_neg (by omega)
    rw [siftDown, if_pos (by omega), bind_of_none htimes]
  have hsift : siftDown bits compare 0 (count + 3) (count / 2) (count + 2)
      ⟨List.replicate (count + 1) x ++ [y], heap⟩ = none := by
    rw [siftDown, if_pos (by omega), bind_of_eq (times_eq (by omega) _), bind_of_eq (plus_eq (by omega) _),
      if_neg (by omega), bind_of_eq hlargest, bind_of_eq (plus_eq (by omega) _), bind_of_eq (plus_eq (by omega) _),
      Nat.zero_add, Nat.zero_add, bind_of_eq (read_first (by omega) _), bind_of_eq (read_last _ _ _ _),
      bind_of_eq (ask_eq _ _ _ _ _), hanswers, if_pos hless, bind_of_eq hswap, htrap]
  rw [sortUnstableBy, hlength, heapSort, if_neg (by omega), hparent, bind_of_none]
  · rfl
  · rw [buildHeap, bind_of_none hsift]

end

/-- Every slice of so many elements is sorted in the order of every comparator that answers as a total preorder. -/
def SortsUnstable (T : Type) (bits length : Nat) : Prop :=
  ∀ (σ : Type) (compare : Comparator T σ) (cmp : T → T → Ordering), Std.TransCmp cmp → Answers compare cmp →
    ∀ (items : List T) (heap : σ), items.length = length →
      ∃ sorted heap', sortUnstableBy bits compare items heap = some (sorted, heap') ∧ sorted.Perm items ∧
        Ascending cmp sorted

/-- **The sort returns for every slice, with its elements sorted, exactly if there are at most half as many elements as
`usize` has values, or all elements are the same.** -/
theorem sortUnstable_iff (T : Type) (bits length : Nat) (hlength : length < 2 ^ bits) :
    SortsUnstable T bits length ↔ length * 2 ≤ 2 ^ bits ∨ Subsingleton T := by
  constructor
  · intro hsorts
    by_contra hnot
    push Not at hnot
    obtain ⟨hlong, x, y, hne⟩ := hnot
    obtain ⟨count, rfl⟩ : ∃ count, length = count + 2 := ⟨length - 2, by omega⟩
    classical
    let rank : T → Nat := fun t => if t = y then 1 else 0
    have hless : compareOn rank x y = .lt := by
      simp only [compareOn, rank, if_neg hne, if_pos]
      decide
    have hanswers : Answers (fun a b => (pure (compareOn rank a b) : StateM Unit Ordering)) (compareOn rank) :=
      fun _ _ _ => rfl
    obtain ⟨sorted, heap', hrun, -⟩ := hsorts Unit _ (compareOn rank) inferInstance hanswers
      (List.replicate (count + 1) x ++ [y]) () (by simp)
    rw [sortUnstableBy_traps hanswers hless hlength (by omega)] at hrun
    cases hrun
  · rintro hfits σ compare cmp htrans hanswers items heap rfl
    exact sortUnstableBy_sorts hanswers hlength hfits heap

theorem sortUnstable_bytes : SortsUnstable (BitVec 8) 32 (2 ^ 31) := by
  have hlength : 2 ^ 31 < 2 ^ 32 := by decide
  exact (sortUnstable_iff (BitVec 8) 32 (2 ^ 31) hlength).mpr (Or.inl (by decide))

/-- One byte more on a machine of 32 bits: zeros, and a one at the end. -/
theorem sortUnstable_stops :
    sortUnstableBy 32 (fun a b => (pure (compareOn BitVec.toNat a b) : StateM Unit Ordering))
      (List.replicate (2147483647 + 1) (0 : BitVec 8) ++ [1]) () = none := by
  have hanswers : Answers (fun a b => (pure (compareOn BitVec.toNat a b) : StateM Unit Ordering))
      (compareOn (BitVec.toNat : BitVec 8 → Nat)) := fun _ _ _ => rfl
  have hless : compareOn BitVec.toNat (0 : BitVec 8) 1 = .lt := by decide
  exact sortUnstableBy_traps hanswers hless (by omega) (by omega) ()

/-! ### Both sorts -/

section

variable {compare : Comparator T σ} {cmp : T → T → Ordering} [Std.TransCmp cmp]

theorem sortBy_sorts (hanswers : Answers compare cmp) (items : List T) (heap : σ) :
    ∃ sorted heap', sortBy compare items heap = some (sorted, heap') ∧ sorted.Perm items ∧ Ascending cmp sorted := by
  obtain ⟨sorted, heap', hrun, hperm, hsorted⟩ := stableSortRange_eq compare items [] [] heap (Nat.lt_succ_self _)
  simp only [nil_append, append_nil, length_nil, Nat.zero_add] at hrun
  exact ⟨sorted, heap', by rw [sortBy, hrun]; rfl, hperm, (hsorted cmp inferInstance hanswers).1⟩

/-- **Where the elements that compare equal are the same, both sorts leave the same slice, and sorting it again does not
change it.** -/
theorem sorts_agree {bits : Nat} (hanswers : Answers compare cmp) {items : List T}
    (hsame : ∀ x ∈ items, ∀ y ∈ items, cmp x y = .eq → x = y) (hfits : items.length * 2 ≤ 2 ^ bits) (heap : σ) :
    ∃ sorted heap₁ heap₂, sortBy compare items heap = some (sorted, heap₁) ∧
      sortUnstableBy bits compare items heap = some (sorted, heap₂) ∧
      ∀ heap, ∃ heap', sortBy compare sorted heap = some (sorted, heap') := by
  have hunique {a b : List T} (ha : a.Perm items) (hb : b.Perm items) (hasc : Ascending cmp a)
      (hasc' : Ascending cmp b) : a = b :=
    List.Perm.eq_of_pairwise (fun x y hx hy hle hge => hsame x (ha.subset hx) y (hb.subset hy)
      (Std.OrientedCmp.isLE_antisymm hle hge)) hasc hasc' (ha.trans hb.symm)
  obtain ⟨sorted, heap₁, hstable, hperm, hasc⟩ := sortBy_sorts hanswers items heap
  have hpos := Nat.two_pow_pos bits
  obtain ⟨sorted', heap₂, hunstable, hperm', hasc'⟩ := sortUnstableBy_sorts hanswers (by omega) (Or.inl hfits) heap
  obtain rfl := hunique hperm hperm' hasc hasc'
  refine ⟨sorted, heap₁, heap₂, hstable, hunstable, fun heap => ?_⟩
  obtain ⟨again, heap', hrun, hperm'', hasc''⟩ := sortBy_sorts hanswers sorted heap
  obtain rfl := hunique (hperm''.trans hperm) hperm hasc'' hasc
  exact ⟨heap', hrun⟩

end

def numeric : Comparator Nat Unit := fun x y => pure (compare x y)

theorem sorts_agree_three : ∃ sorted heap₁ heap₂, sortBy numeric [3, 1, 2] () = some (sorted, heap₁) ∧
    sortUnstableBy 32 numeric [3, 1, 2] () = some (sorted, heap₂) ∧
    ∀ heap, ∃ heap', sortBy numeric sorted heap = some (sorted, heap') := by
  have hanswers : Answers numeric compare := fun _ _ _ => rfl
  exact sorts_agree hanswers (fun _ _ _ _ => compare_eq_iff_eq.mp) (by decide) ()

end Nia.Slice
