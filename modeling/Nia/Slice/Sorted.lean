import Nia.Slice.Order

/-! `sortBy` sorts, keeps equal elements in order, and returns for every comparator.

A range of the slice is followed as the list between a front and a back part that stay as they are. A rotation
exchanges two neighbours (`rotateRange_eq`), a bound cuts a range in two wherever the comparator's answers lead
(`boundRange_eq`), and both parts of a cut merge are shorter than the whole, whatever the answers are. Where the
answers are those of a total preorder, the part of the right half that moves to the front is strictly below the
part of the left half that it passes, so that the two parts merged one after the other are sorted and no element
has passed an equal one (`merged_append`). -/
namespace Nia.Slice

open Lib.Trapping List

variable {T σ : Type}

/-! ### Reading and writing a range -/

theorem read_eq (front : List T) (x : T) (back : List T) (heap : σ) :
    read front.length ⟨front ++ x :: back, heap⟩ = some (x, ⟨front ++ x :: back, heap⟩) := by
  simp [read]

theorem write_eq (front : List T) (x y : T) (back : List T) (heap : σ) :
    write front.length y ⟨front ++ x :: back, heap⟩ = some ((), ⟨front ++ y :: back, heap⟩) := by
  simp [write]

theorem minus_eq {left right : Nat} (h : right ≤ left) (env : Env T σ) :
    minus left right env = some (left - right, env) := if_pos h

theorem within_eq {sum : Nat} {env : Env T σ} (h : sum ≤ env.items.length) : within sum env = some ((), env) := if_pos h

theorem swapAt_eq (front : List T) (x : T) (middle : List T) (y : T) (back : List T) (heap : σ) :
    swapAt front.length (front.length + 1 + middle.length) ⟨front ++ x :: (middle ++ y :: back), heap⟩ =
      some ((), ⟨front ++ y :: (middle ++ x :: back), heap⟩) := by
  have hright : ∀ z, front.length + 1 + middle.length = (front ++ z :: middle).length := by
    intro z
    simp only [length_append, length_cons]
    omega
  have hsplit : ∀ z (rest : List T), front ++ z :: (middle ++ rest) = (front ++ z :: middle) ++ rest := by
    intro z rest
    simp only [append_assoc, cons_append]
  rw [swapAt, if_pos (by omega), bind_of_eq (read_eq front x _ heap)]
  have hread := read_eq (front ++ x :: middle) y back heap
  rw [← hright, ← hsplit] at hread
  rw [bind_of_eq hread, bind_of_eq (write_eq front x y _ heap)]
  have hwrite := write_eq (front ++ y :: middle) y x back heap
  rwa [← hright, ← hsplit, ← hsplit] at hwrite

theorem reverseRange_eq (range front back : List T) (heap : σ) :
    reverseRange front.length (front.length + range.length) ⟨front ++ (range ++ back), heap⟩ =
      some ((), ⟨front ++ (range.reverse ++ back), heap⟩) := by
  induction range using List.bidirectionalRec generalizing front back with
  | nil =>
    rw [reverseRange, if_neg (by simp)]
    rfl
  | singleton x =>
    rw [reverseRange, if_pos (by simp)]
    simp only [length_singleton, Nat.add_sub_cancel]
    rw [if_pos (Nat.le_refl front.length)]
    rfl
  | cons_append x middle y ih =>
    have hlength : front.length + (x :: (middle ++ [y])).length - 1 = front.length + 1 + middle.length := by
      simp only [length_cons, length_append, length_nil]
      omega
    rw [reverseRange, if_pos (by simp)]
    simp only [hlength]
    rw [if_neg (by omega)]
    have hswap := swapAt_eq front x middle y back heap
    simp only [cons_append, append_assoc, nil_append]
    rw [bind_of_eq hswap, bind_of_eq (within_eq (by simp))]
    have hrest := ih (front ++ [y]) (x :: back)
    simpa using hrest

theorem rotateRange_eq (front left right back : List T) (heap : σ) :
    rotateRange front.length (front.length + left.length) (front.length + left.length + right.length)
      ⟨front ++ (left ++ (right ++ back)), heap⟩ = some ((), ⟨front ++ (right ++ (left ++ back)), heap⟩) := by
  rw [rotateRange]
  split_ifs with hempty
  · obtain hleft | hright := hempty
    · obtain rfl : left = [] := eq_nil_of_length_eq_zero (by omega)
      rfl
    · obtain rfl : right = [] := eq_nil_of_length_eq_zero (by omega)
      rfl
  · rw [bind_of_eq (reverseRange_eq left front (right ++ back) heap)]
    have hsecond := reverseRange_eq right (front ++ left.reverse) back heap
    rw [length_append, length_reverse, append_assoc, append_assoc] at hsecond
    rw [bind_of_eq hsecond]
    have hthird := reverseRange_eq (left.reverse ++ right.reverse) front back heap
    simpa [Nat.add_assoc] using hthird

/-! ### Bounds -/

/-- The comparator's answers, whatever its state, are those of a fixed comparison. -/
def Answers (compare : Comparator T σ) (cmp : T → T → Ordering) : Prop :=
  ∀ x y heap, (compare x y heap).1 = cmp x y

/-- A list split before one of its elements. -/
theorem exists_split {items : List T} {index : Nat} (h : index < items.length) :
    ∃ before x after, items = before ++ x :: after ∧ before.length = index :=
  ⟨items.take index, items[index], items.drop (index + 1),
    by rw [← drop_eq_getElem_cons h, take_append_drop], by
    rw [length_take]
    omega⟩

theorem boundRange_eq (passes : Ordering → Bool) (compare : Comparator T σ) (value : T) (range front back : List T)
    (heap : σ) : ∃ first second heap', range = first ++ second ∧
      boundRange passes compare value front.length (front.length + range.length) ⟨front ++ (range ++ back), heap⟩ =
        some (front.length + first.length, ⟨front ++ (range ++ back), heap'⟩) ∧
      ∀ cmp, Answers compare cmp →
        range.Pairwise (fun x y => passes (cmp y value) → passes (cmp x value)) →
        (∀ x ∈ first, passes (cmp x value)) ∧ ∀ x ∈ second, ¬passes (cmp x value) := by
  induction hsize : range.length using Nat.strongRecOn generalizing range front back heap with
  | _ size ih =>
  subst hsize
  rw [boundRange]
  split_ifs with hlow
  · -- The element in the middle, and the parts before and after it.
    obtain ⟨before, x, after, rfl, hbefore⟩ := exists_split (show range.length / 2 < range.length by omega)
    have hmiddle : front.length + (front.length + (before ++ x :: after).length - front.length) / 2 =
        (front ++ before).length := by
      rw [Nat.add_sub_cancel_left, ← hbefore, length_append]
    have hitems : front ++ (before ++ x :: after ++ back) = (front ++ before) ++ x :: (after ++ back) := by
      simp only [append_assoc, cons_append]
    simp only [hmiddle]
    have hread := read_eq (front ++ before) x (after ++ back) heap
    rw [← hitems] at hread
    rw [bind_of_eq (within_eq (by simp)), bind_of_eq hread]
    generalize hcompare : compare x value heap = answer
    have hask : ask compare x value ⟨front ++ (before ++ x :: after ++ back), heap⟩ =
        some (answer.1, ⟨front ++ (before ++ x :: after ++ back), answer.2⟩) := by
      rw [← hcompare]
      rfl
    rw [bind_of_eq hask]
    have hanswer : ∀ cmp, Answers compare cmp → answer.1 = cmp x value := by
      intro cmp hanswers
      rw [← hanswers x value heap, hcompare]
    split_ifs with hpasses
    · rw [bind_of_eq (within_eq (by simp))]
      obtain ⟨first, second, heap', hrange, hrun, hcut⟩ :=
        ih after.length (by rw [length_append, length_cons]; omega) after (front ++ before ++ [x]) back answer.2 rfl
      refine ⟨before ++ x :: first, second, heap', by simp [hrange], ?_, fun cmp hanswers hmono => ?_⟩
      · have hstart : (front ++ before).length + 1 = (front ++ before ++ [x]).length := by
          simp only [length_append, length_cons, length_nil]
        have hstop : front.length + (before ++ x :: after).length = (front ++ before ++ [x]).length + after.length := by
          simp only [length_append, length_cons, length_nil]
          omega
        have hsame : front ++ (before ++ x :: after ++ back) = front ++ before ++ [x] ++ (after ++ back) := by simp
        rw [hstart, hstop, hsame, hrun]
        simp only [length_append, length_cons, length_nil]
        congr 2
        omega
      · obtain ⟨hbound, htail, hacross⟩ := pairwise_append.mp hmono
        rw [pairwise_cons] at htail
        obtain ⟨hfirst, hsecond⟩ := hcut cmp hanswers htail.2
        have hx : passes (cmp x value) = true := hanswer cmp hanswers ▸ hpasses
        refine ⟨fun y hy => ?_, hsecond⟩
        obtain hy | hy := mem_append.mp hy
        · exact hacross y hy x mem_cons_self hx
        · obtain rfl | hy := mem_cons.mp hy
          · exact hx
          · exact hfirst y hy
    · obtain ⟨first, second, heap', hrange, hrun, hcut⟩ :=
        ih before.length (by rw [length_append, length_cons]; omega) before front (x :: after ++ back) answer.2 rfl
      refine ⟨first, second ++ x :: after, heap', by simp [hrange], ?_, fun cmp hanswers hmono => ?_⟩
      · have hsame : front ++ (before ++ x :: after ++ back) = front ++ (before ++ (x :: after ++ back)) := by simp
        rw [hsame, length_append]
        exact hrun
      · obtain ⟨hbound, htail, hacross⟩ := pairwise_append.mp hmono
        rw [pairwise_cons] at htail
        obtain ⟨hfirst, hsecond⟩ := hcut cmp hanswers hbound
        have hx : ¬passes (cmp x value) = true := hanswer cmp hanswers ▸ hpasses
        refine ⟨hfirst, fun y hy => ?_⟩
        obtain hy | hy := mem_append.mp hy
        · exact hsecond y hy
        · obtain rfl | hy := mem_cons.mp hy
          · exact hx
          · exact fun hpass => hx (htail.1 y hy hpass)
  · obtain rfl : range = [] := eq_nil_of_length_eq_zero (by omega)
    exact ⟨[], [], heap, rfl, rfl, fun _ _ _ => ⟨fun _ h => absurd h not_mem_nil,
      fun _ h => absurd h not_mem_nil⟩⟩

/-! ### Merging -/

/-- No element is above a later one. -/
def Ascending (cmp : T → T → Ordering) (items : List T) : Prop := items.Pairwise fun x y => (cmp x y).isLE

/-- The elements equal to a value, in their order. -/
def equals (cmp : T → T → Ordering) (value : T) (items : List T) : List T :=
  items.filter fun x => cmp x value == .eq

/-- What is left of two neighbours after they are merged. -/
def Merged (compare : Comparator T σ) (left right merged : List T) : Prop :=
  merged.Perm (left ++ right) ∧ ∀ cmp, Std.TransCmp cmp → Answers compare cmp →
    Ascending cmp left → Ascending cmp right →
    Ascending cmp merged ∧ ∀ value, equals cmp value merged = equals cmp value (left ++ right)

/-- How two neighbours may be cut: what moves to the front is strictly below what it passes. -/
def Cut (compare : Comparator T σ) (left₁ left₂ right₁ right₂ : List T) : Prop :=
  ∀ cmp, Std.TransCmp cmp → Answers compare cmp → Ascending cmp (left₁ ++ left₂) →
    Ascending cmp (right₁ ++ right₂) →
    (∀ x ∈ left₁, ∀ y ∈ right₂, (cmp x y).isLE) ∧ ∀ y ∈ right₁, ∀ x ∈ left₂, cmp y x = .lt

/-- What is strictly below the rest shares no equal elements with it, and may pass it. -/
theorem equals_comm {cmp : T → T → Ordering} (htrans : Std.TransCmp cmp) {below above : List T}
    (h : ∀ y ∈ below, ∀ x ∈ above, cmp y x = .lt) (value : T) :
    equals cmp value below ++ equals cmp value above = equals cmp value above ++ equals cmp value below := by
  by_cases hbelow : equals cmp value below = []
  · rw [hbelow, nil_append, append_nil]
  · have habove : equals cmp value above = [] := by
      obtain ⟨y, hy⟩ := exists_mem_of_ne_nil _ hbelow
      obtain ⟨hyin, hyeq⟩ := mem_filter.mp hy
      refine filter_eq_nil_iff.mpr fun x hx hxeq => ?_
      have heq : cmp y x = .eq :=
        Std.TransCmp.eq_trans (beq_iff_eq.mp hyeq) (Std.OrientedCmp.eq_symm (beq_iff_eq.mp hxeq))
      rw [h y hyin x hx] at heq
      cases heq
    rw [habove, nil_append, append_nil]

variable {compare : Comparator T σ} {left₁ left₂ right₁ right₂ : List T}

theorem merged_append {merged₁ merged₂ : List T}
    (hcut : Cut compare left₁ left₂ right₁ right₂) (h₁ : Merged compare left₁ right₁ merged₁)
    (h₂ : Merged compare left₂ right₂ merged₂) :
    Merged compare (left₁ ++ left₂) (right₁ ++ right₂) (merged₁ ++ merged₂) := by
  refine ⟨?_, fun cmp htrans hanswers hleft hright => ?_⟩
  · calc List.Perm (merged₁ ++ merged₂) ((left₁ ++ right₁) ++ (left₂ ++ right₂)) := h₁.1.append h₂.1
      _ = left₁ ++ ((right₁ ++ left₂) ++ right₂) := by simp only [append_assoc]
      List.Perm _ (left₁ ++ ((left₂ ++ right₁) ++ right₂)) :=
        (perm_append_comm.append_right right₂).append_left left₁
      _ = (left₁ ++ left₂) ++ (right₁ ++ right₂) := by simp only [append_assoc]
  · obtain ⟨hacross, hbelow⟩ := hcut cmp htrans hanswers hleft hright
    obtain ⟨hleft₁, hleft₂, hleft⟩ := pairwise_append.mp hleft
    obtain ⟨hright₁, hright₂, hright⟩ := pairwise_append.mp hright
    obtain ⟨hmerged₁, hequals₁⟩ := h₁.2 cmp htrans hanswers hleft₁ hright₁
    obtain ⟨hmerged₂, hequals₂⟩ := h₂.2 cmp htrans hanswers hleft₂ hright₂
    refine ⟨pairwise_append.mpr ⟨hmerged₁, hmerged₂, fun x hx y hy => ?_⟩, fun value => ?_⟩
    · obtain hx | hx := mem_append.mp (h₁.1.mem_iff.mp hx)
      · obtain hy | hy := mem_append.mp (h₂.1.mem_iff.mp hy)
        · exact hleft x hx y hy
        · exact hacross x hx y hy
      · obtain hy | hy := mem_append.mp (h₂.1.mem_iff.mp hy)
        · rw [hbelow x hx y hy]
          rfl
        · exact hright x hx y hy
    · have happend : ∀ a b : List T, equals cmp value (a ++ b) = equals cmp value a ++ equals cmp value b :=
        fun a b => filter_append a b
      rw [happend, hequals₁ value, hequals₂ value]
      simp only [happend, append_assoc]
      rw [← append_assoc (equals cmp value right₁), equals_comm htrans hbelow value, append_assoc]

/-! ### Where the halves are cut -/

/-- The left half is cut at an element of its own, the right half before the first that is not below it. -/
theorem cut_of_lower {pivot : T} (hbound : ∀ cmp, Answers compare cmp →
      (right₁ ++ right₂).Pairwise (fun x y => cmp y pivot == .lt → cmp x pivot == .lt) →
      (∀ x ∈ right₁, cmp x pivot == .lt) ∧ ∀ x ∈ right₂, ¬cmp x pivot == .lt) :
    Cut compare left₁ (pivot :: left₂) right₁ right₂ := by
  intro cmp htrans hanswers hleft hright
  obtain ⟨-, hpivot, hacross⟩ := pairwise_append.mp hleft
  rw [pairwise_cons] at hpivot
  have hmono : (right₁ ++ right₂).Pairwise (fun x y => cmp y pivot == .lt → cmp x pivot == .lt) := by
    refine hright.imp fun {x y} hxy hy => ?_
    rw [beq_iff_eq] at hy ⊢
    exact Std.TransCmp.lt_of_isLE_of_lt hxy hy
  obtain ⟨hbelow, habove⟩ := hbound cmp hanswers hmono
  refine ⟨fun x hx y hy => ?_, fun y hy x hx => ?_⟩
  · have hle : (cmp pivot y).isLE := by
      have hge := habove y hy
      rw [(Std.OrientedCmp.eq_swap : cmp pivot y = (cmp y pivot).swap)]
      revert hge
      cases cmp y pivot <;> simp
    exact Std.TransCmp.isLE_trans (hacross x hx pivot mem_cons_self) hle
  · have hlt := beq_iff_eq.mp (hbelow y hy)
    obtain rfl | hx := mem_cons.mp hx
    · exact hlt
    · exact Std.TransCmp.lt_of_lt_of_isLE hlt (hpivot.1 x hx)

/-- The right half is cut at an element of its own, the left half before the first that is above it. -/
theorem cut_of_upper {pivot : T} (hbound : ∀ cmp, Answers compare cmp →
      (left₁ ++ left₂).Pairwise (fun x y => cmp y pivot != .gt → cmp x pivot != .gt) →
      (∀ x ∈ left₁, cmp x pivot != .gt) ∧ ∀ x ∈ left₂, ¬cmp x pivot != .gt) :
    Cut compare left₁ left₂ right₁ (pivot :: right₂) := by
  intro cmp htrans hanswers hleft hright
  obtain ⟨-, hpivot, hacross⟩ := pairwise_append.mp hright
  rw [pairwise_cons] at hpivot
  have hle : ∀ x, (cmp x pivot != .gt) = (cmp x pivot).isLE := by
    intro x
    cases cmp x pivot <;> rfl
  have hmono : (left₁ ++ left₂).Pairwise (fun x y => cmp y pivot != .gt → cmp x pivot != .gt) := by
    refine hleft.imp fun {x y} hxy hy => ?_
    rw [hle] at hy ⊢
    exact Std.TransCmp.isLE_trans hxy hy
  obtain ⟨hbelow, habove⟩ := hbound cmp hanswers hmono
  refine ⟨fun x hx y hy => ?_, fun y hy x hx => ?_⟩
  · have hxp : (cmp x pivot).isLE := (hle x).symm.trans (hbelow x hx)
    obtain rfl | hy := mem_cons.mp hy
    · exact hxp
    · exact Std.TransCmp.isLE_trans hxp (hpivot.1 y hy)
  · have hgt : cmp pivot x = .lt := by
      have hx' := habove x hx
      rw [(Std.OrientedCmp.eq_swap : cmp pivot x = (cmp x pivot).swap)]
      revert hx'
      cases cmp x pivot <;> simp
    exact Std.TransCmp.lt_of_isLE_of_lt (hacross y hy pivot mem_cons_self) hgt

theorem cuts_eq (compare : Comparator T σ) (left right front back : List T) (heap : σ)
    (hleft : left ≠ []) (hright : right ≠ []) (hmore : left.length + right.length ≠ 2) :
    ∃ left₁ left₂ right₁ right₂ heap', left = left₁ ++ left₂ ∧ right = right₁ ++ right₂ ∧
      cuts compare front.length (front.length + left.length) (front.length + left.length + right.length)
        ⟨front ++ (left ++ (right ++ back)), heap⟩ =
        some ((front.length + left₁.length, front.length + left.length + right₁.length),
          ⟨front ++ (left ++ (right ++ back)), heap'⟩) ∧
      Cut compare left₁ left₂ right₁ right₂ ∧
      0 < left₁.length + right₁.length ∧ 0 < left₂.length + right₂.length := by
  have hleftpos := length_pos_iff.mpr hleft
  have hrightpos := length_pos_iff.mpr hright
  rw [cuts, bind_of_eq (minus_eq (by omega) _), bind_of_eq (minus_eq (by omega) _)]
  simp only [Nat.add_sub_cancel_left]
  split_ifs with hlonger
  · obtain ⟨left₁, pivot, left₂, hsplit, hcut⟩ := exists_split (show left.length / 2 < left.length by omega)
    obtain ⟨right₁, right₂, heap', hright, hrun, hbound⟩ :=
      boundRange_eq (· == .lt) compare pivot right (front ++ left) back heap
    refine ⟨left₁, pivot :: left₂, right₁, right₂, heap', hsplit, hright, ?_, cut_of_lower (hright ▸ hbound),
      by omega, by rw [length_cons]; omega⟩
    have hread := read_eq (front ++ left₁) pivot (left₂ ++ (right ++ back)) heap
    have hitems : front ++ left₁ ++ pivot :: (left₂ ++ (right ++ back)) = front ++ (left ++ (right ++ back)) := by
      rw [hsplit]
      simp only [append_assoc, cons_append]
    rw [hitems, length_append, hcut] at hread
    rw [length_append, append_assoc] at hrun
    rw [bind_of_eq (within_eq (by simp only [length_append]; omega)), bind_of_eq hread, lowerBoundRange,
      bind_of_eq hrun, hcut]
    rfl
  · obtain ⟨right₁, pivot, right₂, hsplit, hcut⟩ := exists_split (show right.length / 2 < right.length by omega)
    obtain ⟨left₁, left₂, heap', hleft, hrun, hbound⟩ :=
      boundRange_eq (· != .gt) compare pivot left front (right ++ back) heap
    refine ⟨left₁, left₂, right₁, pivot :: right₂, heap', hleft, hsplit, ?_, cut_of_upper (hleft ▸ hbound),
      by omega, by rw [length_cons]; omega⟩
    have hread := read_eq (front ++ (left ++ right₁)) pivot (right₂ ++ back) heap
    have hitems : front ++ (left ++ right₁) ++ pivot :: (right₂ ++ back) = front ++ (left ++ (right ++ back)) := by
      rw [hsplit]
      simp only [append_assoc, cons_append]
    rw [hitems, length_append, length_append, hcut, ← Nat.add_assoc] at hread
    rw [bind_of_eq (within_eq (by simp only [length_append]; omega)), bind_of_eq hread, upperBoundRange,
      bind_of_eq hrun, hcut]
    rfl

theorem mergePair_eq (compare : Comparator T σ) (x y : T) (front back : List T) (heap : σ) :
    ∃ merged heap', mergePair compare front.length (front.length + 1) ⟨front ++ x :: y :: back, heap⟩ =
        some ((), ⟨front ++ (merged ++ back), heap'⟩) ∧ Merged compare [x] [y] merged := by
  have hread := read_eq (front ++ [x]) y back heap
  rw [length_append, length_singleton, append_assoc, singleton_append] at hread
  rw [mergePair, bind_of_eq hread, bind_of_eq (read_eq front x (y :: back) heap)]
  have hask : ∀ env : Env T σ, ask compare y x env =
      some ((compare y x env.heap).1, { env with heap := (compare y x env.heap).2 }) := fun _ => rfl
  rw [bind_of_eq (hask _)]
  split_ifs with hless
  · refine ⟨[y, x], (compare y x heap).2, swapAt_eq front x [] y back _, List.Perm.swap x y [], ?_⟩
    intro cmp htrans hanswers _ _
    have hlt : cmp y x = .lt := by
      rw [← hanswers y x heap]
      exact hless
    refine ⟨pairwise_pair.mpr (by rw [hlt]; rfl), fun value => ?_⟩
    have hcomm := equals_comm htrans (fun y' hy x' hx => ?_ : ∀ y' ∈ [y], ∀ x' ∈ [x], cmp y' x' = .lt) value
    · rwa [equals, equals, ← filter_append, ← filter_append] at hcomm
    · rw [mem_singleton.mp hy, mem_singleton.mp hx, hlt]
  · refine ⟨[x, y], (compare y x heap).2, rfl, List.Perm.refl _, ?_⟩
    intro cmp htrans hanswers _ _
    have hge : cmp y x ≠ .lt := by
      rw [← hanswers y x heap]
      exact hless
    refine ⟨pairwise_pair.mpr ?_, fun value => rfl⟩
    rw [(Std.OrientedCmp.eq_swap : cmp x y = (cmp y x).swap)]
    revert hge
    cases cmp y x <;> simp

/-- A merge returns, with the neighbours merged. -/
theorem stableMergeRange_eq (compare : Comparator T σ) (left right front back : List T) (heap : σ) {fuel : Nat}
    (hfuel : left.length + right.length < fuel) :
    ∃ merged heap', stableMergeRange compare fuel front.length (front.length + left.length)
        (front.length + left.length + right.length) ⟨front ++ (left ++ (right ++ back)), heap⟩ =
        some ((), ⟨front ++ (merged ++ back), heap'⟩) ∧ Merged compare left right merged := by
  induction fuel generalizing left right front back heap with
  | zero => omega
  | succ fuel ih =>
  rw [stableMergeRange]
  split_ifs with hempty
  · refine ⟨left ++ right, heap, ?_, List.Perm.refl _, fun cmp _ _ hleft hright => ⟨?_, fun _ => rfl⟩⟩
    · rw [append_assoc]
      rfl
    · obtain hempty | hempty := hempty
      · obtain rfl : left = [] := eq_nil_of_length_eq_zero (by omega)
        exact hright
      · obtain rfl : right = [] := eq_nil_of_length_eq_zero (by omega)
        rwa [append_nil]
  · rw [bind_of_eq (minus_eq (by omega) _)]
    have hleft : left ≠ [] := fun h => hempty (Or.inl (by rw [h, length_nil, Nat.add_zero]))
    have hright : right ≠ [] := fun h => hempty (Or.inr (by rw [h, length_nil, Nat.add_zero]))
    split_ifs with hpair
    · have := length_pos_iff.mpr hleft
      have := length_pos_iff.mpr hright
      obtain ⟨x, rfl⟩ := length_eq_one_iff.mp (show left.length = 1 by omega)
      obtain ⟨y, rfl⟩ := length_eq_one_iff.mp (show right.length = 1 by omega)
      exact mergePair_eq compare x y front back heap
    · obtain ⟨left₁, left₂, right₁, right₂, heap₁, rfl, rfl, hcuts, hcut, hfirst, hsecond⟩ :=
        cuts_eq compare left right front back heap hleft hright (by omega)
      have hrotate := rotateRange_eq (front ++ left₁) left₂ right₁ (right₂ ++ back) heap₁
      rw [length_append, length_append] at hfuel
      obtain ⟨merged₁, heap₂, hrun₁, hmerged₁⟩ := ih left₁ right₁ front (left₂ ++ (right₂ ++ back)) heap₁ (by omega)
      obtain ⟨merged₂, heap₃, hrun₂, hmerged₂⟩ := ih left₂ right₂ (front ++ merged₁) back heap₂ (by omega)
      have hlength : merged₁.length = left₁.length + right₁.length := by
        rw [hmerged₁.1.length_eq, length_append]
      refine ⟨merged₁ ++ merged₂, heap₃, ?_, merged_append hcut hmerged₁ hmerged₂⟩
      rw [bind_of_eq hcuts]
      simp only [length_append, append_assoc, hlength, ← Nat.add_assoc] at hrotate hrun₁ hrun₂ ⊢
      rw [bind_of_eq (minus_eq (by omega) _), Nat.add_sub_cancel_left,
        bind_of_eq (within_eq (by simp only [length_append]; omega)), bind_of_eq hrotate, bind_of_eq hrun₁]
      rwa [Nat.add_right_comm _ right₁.length left₂.length] at hrun₂

/-- A range is sorted. -/
def Sorted (compare : Comparator T σ) (items sorted : List T) : Prop :=
  sorted.Perm items ∧ ∀ cmp, Std.TransCmp cmp → Answers compare cmp →
    Ascending cmp sorted ∧ ∀ value, equals cmp value sorted = equals cmp value items

theorem stableSortRange_eq (compare : Comparator T σ) (range front back : List T) (heap : σ) {fuel : Nat}
    (hfuel : range.length < fuel) :
    ∃ sorted heap', stableSortRange compare fuel front.length (front.length + range.length)
        ⟨front ++ (range ++ back), heap⟩ = some ((), ⟨front ++ (sorted ++ back), heap'⟩) ∧
      Sorted compare range sorted := by
  induction fuel generalizing range front back heap with
  | zero => omega
  | succ fuel ih =>
  rw [stableSortRange, bind_of_eq (minus_eq (by omega) _), Nat.add_sub_cancel_left]
  split_ifs with hshort
  · refine ⟨range, heap, rfl, List.Perm.refl _, fun cmp _ _ => ⟨?_, fun _ => rfl⟩⟩
    obtain rfl | ⟨x, rfl⟩ : range = [] ∨ ∃ x, range = [x] := by
      cases range with
      | nil => exact Or.inl rfl
      | cons x rest =>
        obtain rfl : rest = [] := eq_nil_of_length_eq_zero (by rw [length_cons] at hshort; omega)
        exact Or.inr ⟨x, rfl⟩
    · exact List.Pairwise.nil
    · exact pairwise_singleton _ x
  · rw [bind_of_eq (minus_eq (by omega) _), Nat.add_sub_cancel_left,
      bind_of_eq (within_eq (by simp only [length_append]; omega))]
    obtain ⟨left, x, right, rfl, hcut⟩ := exists_split (show range.length / 2 < range.length by omega)
    have hsplit : left.length + (x :: right).length < fuel + 1 := by rwa [length_append] at hfuel
    have hright : 0 < (x :: right).length := Nat.succ_pos _
    obtain ⟨sorted₁, heap₁, hrun₁, hsorted₁⟩ := ih left front (x :: right ++ back) heap (by omega)
    have hlength₁ := hsorted₁.1.length_eq
    obtain ⟨sorted₂, heap₂, hrun₂, hsorted₂⟩ := ih (x :: right) (front ++ sorted₁) back heap₁ (by omega)
    obtain ⟨merged, heap₃, hrun₃, hmerged⟩ := stableMergeRange_eq compare sorted₁ sorted₂ front back heap₂
      (Nat.lt_succ_self _)
    refine ⟨merged, heap₃, ?_, ?_, fun cmp htrans hanswers => ?_⟩
    · have hlength₂ := hsorted₂.1.length_eq
      rw [length_append, append_assoc, append_assoc] at hrun₂
      rw [← hcut, append_assoc, length_append, ← Nat.add_assoc, bind_of_eq hrun₁, ← hlength₁,
        bind_of_eq hrun₂, ← hlength₂]
      exact hrun₃
    · exact hmerged.1.trans (hsorted₁.1.append hsorted₂.1)
    · obtain ⟨hasc₁, hequals₁⟩ := hsorted₁.2 cmp htrans hanswers
      obtain ⟨hasc₂, hequals₂⟩ := hsorted₂.2 cmp htrans hanswers
      obtain ⟨hasc, hequals⟩ := hmerged.2 cmp htrans hanswers hasc₁ hasc₂
      refine ⟨hasc, fun value => ?_⟩
      rw [hequals value]
      simp only [equals, filter_append] at hequals₁ hequals₂ ⊢
      rw [hequals₁ value, hequals₂ value]

/-- **`sortBy` returns for every comparator, with a permutation of the elements; where the comparator answers as
a total preorder, they ascend, and the elements equal to any given one stand in their old order.** -/
theorem sortBy_stable (compare : Comparator T σ) (items : List T) (heap : σ) :
    ∃ sorted heap', sortBy compare items heap = some (sorted, heap') ∧ sorted.Perm items ∧
      ∀ cmp, Std.TransCmp cmp → (∀ x y state, (compare x y state).1 = cmp x y) →
        (sorted.Pairwise fun x y => (cmp x y).isLE) ∧
        ∀ value, (sorted.filter fun x => cmp x value == .eq) = items.filter fun x => cmp x value == .eq := by
  obtain ⟨sorted, heap', hrun, hperm, hsorted⟩ := stableSortRange_eq compare items [] [] heap (Nat.lt_succ_self _)
  refine ⟨sorted, heap', ?_, hperm, hsorted⟩
  simp only [nil_append, append_nil, length_nil, Nat.zero_add] at hrun
  rw [sortBy, hrun]
  rfl

end Nia.Slice
