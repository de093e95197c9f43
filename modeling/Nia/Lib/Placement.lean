import Mathlib

/-! Placing things one after the other at aligned offsets.

Each thing has a size and an alignment. It starts at the first multiple of its alignment
that is not below the end of the one before (`placeFrom`); the whole is padded to the
largest alignment (`paddedSize`). Whatever the order is, things do not overlap and lie
inside the padded size. Where every alignment divides the ones before it and its own
size, nothing is lost between two things (`endFrom_packed`), so that no other order has
a smaller padded size. -/
namespace Nia.Lib.Placement

/-- The least multiple of `align` that is not below `value`. -/
def alignUp (value align : Nat) : Nat :=
  if value % align = 0 then value else value + (align - value % align)

section

variable {value other align : Nat}

theorem le_alignUp : value ≤ alignUp value align := by
  unfold alignUp
  split <;> omega

theorem dvd_alignUp (hpos : 0 < align) : align ∣ alignUp value align := by
  have hlt := Nat.mod_lt value hpos
  unfold alignUp
  split
  · next h => exact Nat.dvd_of_mod_eq_zero h
  · have hsplit : value + (align - value % align) = align * (value / align) + align := by
      have := Nat.div_add_mod value align
      omega
    rw [hsplit]
    exact dvd_add (dvd_mul_right ..) (dvd_refl _)

theorem alignUp_of_dvd (h : align ∣ value) : alignUp value align = value :=
  if_pos (Nat.mod_eq_zero_of_dvd h)

theorem alignUp_lt (hpos : 0 < align) : alignUp value align < value + align := by
  unfold alignUp
  split <;> omega

/-- No multiple lies between a value and the one it is aligned to. -/
theorem alignUp_le (hdvd : align ∣ other) (hpos : 0 < align) (hle : value ≤ other) :
    alignUp value align ≤ other := by
  obtain ⟨k, rfl⟩ := hdvd
  have hlt : alignUp value align < value + align := alignUp_lt hpos
  obtain ⟨j, hj⟩ : align ∣ alignUp value align := dvd_alignUp hpos
  rw [hj] at hlt ⊢
  refine Nat.mul_le_mul_left align ?_
  by_contra hgt
  have hstep : align * (k + 1) ≤ align * j := Nat.mul_le_mul_left align (by omega)
  rw [Nat.mul_add, Nat.mul_one] at hstep
  omega

theorem alignUp_mono (hpos : 0 < align) (h : value ≤ other) :
    alignUp value align ≤ alignUp other align :=
  alignUp_le (dvd_alignUp hpos) hpos (h.trans le_alignUp)

end

section

variable {α : Type} (size align : α → Nat)

/-- Every thing with its offset. -/
def placeFrom (start : Nat) : List α → List (α × Nat)
  | [] => []
  | x :: xs => (x, alignUp start (align x)) :: placeFrom (alignUp start (align x) + size x) xs

/-- Where the last thing ends. -/
def endFrom (start : Nat) : List α → Nat
  | [] => start
  | x :: xs => endFrom (alignUp start (align x) + size x) xs

/-- The largest of the alignments, and one for nothing. -/
def maxAlign (xs : List α) : Nat := (xs.map align).foldr max 1

def paddedSize (xs : List α) : Nat := alignUp (endFrom size align 0 xs) (maxAlign align xs)

variable {size align} {start : Nat} {xs ys : List α}

theorem placeFrom_fst (start : Nat) (xs : List α) :
    (placeFrom size align start xs).map Prod.fst = xs := by
  induction xs generalizing start with
  | nil => rfl
  | cons x xs ih => simp [placeFrom, ih]

theorem le_endFrom : start ≤ endFrom size align start xs := by
  induction xs generalizing start with
  | nil => exact le_rfl
  | cons x xs ih => exact (le_alignUp.trans (Nat.le_add_right _ _)).trans ih

/-- A placed thing is aligned and lies between the start and the end. -/
theorem placeFrom_spec (hpos : ∀ x ∈ xs, 0 < align x) {p : α × Nat}
    (hp : p ∈ placeFrom size align start xs) :
    align p.1 ∣ p.2 ∧ start ≤ p.2 ∧ p.2 + size p.1 ≤ endFrom size align start xs := by
  induction xs generalizing start with
  | nil => cases hp
  | cons x xs ih =>
    rcases List.mem_cons.mp hp with rfl | hp
    · exact ⟨dvd_alignUp (hpos x List.mem_cons_self), le_alignUp, le_endFrom⟩
    · obtain ⟨hdvd, hstart, hend⟩ := ih (fun y hy => hpos y (List.mem_cons_of_mem _ hy)) hp
      exact ⟨hdvd, (le_alignUp.trans (Nat.le_add_right _ _)).trans hstart, hend⟩

/-- Each thing ends before the next ones start. -/
theorem placeFrom_pairwise (size : α → Nat) (hpos : ∀ x ∈ xs, 0 < align x) :
    (placeFrom size align start xs).Pairwise fun p q => p.2 + size p.1 ≤ q.2 := by
  induction xs generalizing start with
  | nil => exact .nil
  | cons x xs ih =>
    have hrest : ∀ y ∈ xs, 0 < align y := fun y hy => hpos y (List.mem_cons_of_mem _ hy)
    exact .cons (fun q hq => (placeFrom_spec hrest hq).2.1) (ih hrest)

theorem sum_le_endFrom (start : Nat) (xs : List α) :
    start + (xs.map size).sum ≤ endFrom size align start xs := by
  induction xs generalizing start with
  | nil => simp [endFrom]
  | cons x xs ih =>
    have hstart : start ≤ alignUp start (align x) := le_alignUp
    have hrest := ih (alignUp start (align x) + size x)
    simp only [List.map_cons, List.sum_cons, endFrom]
    omega

/-- Nothing is lost where every alignment divides the start, its own size and the
alignments before it. -/
theorem endFrom_packed (hsize : ∀ x ∈ xs, align x ∣ size x) (hstart : ∀ x ∈ xs, align x ∣ start)
    (horder : xs.Pairwise fun x y => align y ∣ align x) :
    endFrom size align start xs = start + (xs.map size).sum := by
  induction xs generalizing start with
  | nil => simp [endFrom]
  | cons x xs ih =>
    obtain ⟨hbefore, hrest⟩ := List.pairwise_cons.mp horder
    have hnext : ∀ y ∈ xs, align y ∣ start + size x := fun y hy =>
      dvd_add (hstart y (List.mem_cons_of_mem _ hy))
        ((hbefore y hy).trans (hsize x List.mem_cons_self))
    simp only [endFrom, alignUp_of_dvd (hstart x List.mem_cons_self), List.map_cons, List.sum_cons]
    rw [ih (fun y hy => hsize y (List.mem_cons_of_mem _ hy)) hnext hrest]
    omega

/-! ### The whole -/

theorem maxAlign_pos : 0 < maxAlign align xs := by
  unfold maxAlign
  induction xs with
  | nil => exact Nat.one_pos
  | cons x xs ih => exact lt_of_lt_of_le ih (le_max_right _ _)

theorem maxAlign_perm (h : xs.Perm ys) : maxAlign align xs = maxAlign align ys :=
  (h.map align).foldr_eq 1

theorem le_maxAlign (align : α → Nat) {x : α} (hx : x ∈ xs) : align x ≤ maxAlign align xs := by
  unfold maxAlign
  induction xs with
  | nil => cases hx
  | cons y ys ih =>
    rcases List.mem_cons.mp hx with rfl | hx
    · exact le_max_left _ _
    · exact (ih hx).trans (le_max_right _ _)

/-- The largest alignment is one of them. -/
theorem maxAlign_mem (align : α → Nat) (xs : List α) :
    maxAlign align xs = 1 ∨ ∃ x ∈ xs, maxAlign align xs = align x := by
  unfold maxAlign
  induction xs with
  | nil => exact .inl rfl
  | cons x xs ih =>
    simp only [List.map_cons, List.foldr_cons]
    rcases max_choice (align x) ((xs.map align).foldr max 1) with h | h
    · exact .inr ⟨x, List.mem_cons_self, h⟩
    · rw [h]
      rcases ih with h | ⟨y, hy, h⟩
      · exact .inl h
      · exact .inr ⟨y, List.mem_cons_of_mem _ hy, h⟩

theorem endFrom_le_paddedSize : endFrom size align 0 xs ≤ paddedSize size align xs := le_alignUp

theorem maxAlign_dvd_paddedSize : maxAlign align xs ∣ paddedSize size align xs :=
  dvd_alignUp maxAlign_pos

/-- No order needs less than all sizes, padded. -/
theorem sum_le_paddedSize (xs : List α) :
    alignUp ((xs.map size).sum) (maxAlign align xs) ≤ paddedSize size align xs := by
  have hsum : 0 + (xs.map size).sum ≤ endFrom size align 0 xs := sum_le_endFrom 0 xs
  exact alignUp_mono maxAlign_pos (by omega)

end

end Nia.Lib.Placement
