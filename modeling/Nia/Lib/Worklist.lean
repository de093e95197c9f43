import Mathlib

/-! Depth-first worklists.

A worklist takes the last element pushed. An element taken before is dropped; a new
one is visited, which changes a state and pushes more elements. When each element of a
finite list pushes a bounded number of elements and the others push none (`Bounded`),
the worklist empties (`run_isSome`). Everything pushed has then been visited (`run_closed`),
and what every visit keeps holds at the end (`run_invariant`, `run_forall`). -/
namespace Nia.Lib.Worklist

open List

variable {α σ : Type} [DecidableEq α]

/-- Runs the worklist: the stack, its top first, the elements visited, the state. -/
def run (visit : σ → α → σ × List α) : Nat → List α → List α → σ → Option (List α × σ)
  | _, [], visited, s => some (visited, s)
  | 0, _ :: _, _, _ => none
  | fuel + 1, x :: stack, visited, s =>
    if x ∈ visited then run visit fuel stack visited s
    else run visit fuel ((visit s x).2.reverse ++ stack) (x :: visited) (visit s x).1

/-- An element of the list pushes at most its cost, any other element nothing. -/
def Bounded (visit : σ → α → σ × List α) (nodes : List α) (cost : α → Nat) : Prop :=
  ∀ s x, (visit s x).2.length ≤ if x ∈ nodes then cost x else 0

/-- What can still be pushed. -/
def remaining (nodes : List α) (cost : α → Nat) (visited : List α) : Nat :=
  ((nodes.filter (· ∉ visited)).map cost).sum

section

variable {visit : σ → α → σ × List α} {nodes : List α} {cost : α → Nat}

theorem remaining_cons_le (nodes : List α) (cost : α → Nat) (x : α) (visited : List α) :
    remaining nodes cost (x :: visited) ≤ remaining nodes cost visited := by
  unfold remaining
  refine List.Sublist.sum_le_sum (List.Sublist.map cost ?_) fun _ _ => Nat.zero_le _
  refine monotone_filter_right nodes fun y hy => ?_
  simp only [decide_eq_true_eq, mem_cons, not_or] at hy ⊢
  exact hy.2

theorem remaining_append (before after : List α) (visited : List α) :
    remaining (before ++ after) cost visited =
      remaining before cost visited + remaining after cost visited := by
  simp [remaining]

theorem remaining_first (x : α) (after visited : List α) :
    remaining (x :: after) cost visited =
      (if x ∈ visited then 0 else cost x) + remaining after cost visited := by
  by_cases hx : x ∈ visited <;> simp [remaining, hx]

variable {visited : List α}

/-- Visiting an element uses up what it can push. -/
theorem remaining_cons {x : α} (hx : x ∉ visited) :
    remaining nodes cost (x :: visited) + (if x ∈ nodes then cost x else 0) ≤
      remaining nodes cost visited := by
  split
  · next hmem =>
    obtain ⟨before, after, rfl⟩ := append_of_mem hmem
    have hbefore := remaining_cons_le before cost x visited
    have hafter := remaining_cons_le after cost x visited
    rw [remaining_append, remaining_append, remaining_first, remaining_first, if_neg hx,
      if_pos mem_cons_self]
    omega
  · exact remaining_cons_le nodes cost x visited

variable {fuel : Nat} {stack : List α}

theorem run_isSome (hbounded : Bounded visit nodes cost)
    (hfuel : stack.length + remaining nodes cost visited ≤ fuel) (s : σ) : (run visit fuel stack visited s).isSome := by
  induction fuel generalizing stack visited s with
  | zero =>
    obtain rfl : stack = [] := length_eq_zero_iff.mp (by omega)
    rfl
  | succ fuel ih =>
    cases stack with
    | nil => rfl
    | cons x stack =>
      rw [length_cons] at hfuel
      unfold run
      split
      · exact ih (by omega) s
      · next hfresh =>
        have hpushed := hbounded s x
        have hremaining : remaining nodes cost (x :: visited) + _ ≤ _ := remaining_cons hfresh
        refine ih ?_ _
        rw [length_append, length_reverse]
        omega

/-! ### What a run does -/

variable {s : σ} {result : List α × σ}

theorem run_invariant {I : List α → σ → Prop}
    (hvisit : ∀ visited s x, x ∉ visited → I visited s → I (x :: visited) (visit s x).1) 
    (h : run visit fuel stack visited s = some result) (hI : I visited s) : I result.1 result.2 := by
  induction fuel generalizing stack visited s with
  | zero =>
    cases stack with
    | nil =>
      cases h
      exact hI
    | cons x stack => cases h
  | succ fuel ih =>
    cases stack with
    | nil =>
      cases h
      exact hI
    | cons x stack =>
      unfold run at h
      split at h
      · exact ih h hI
      · next hfresh => exact ih h (hvisit visited s x hfresh hI)

/-- What an element passes on to the elements it pushes holds of everything visited. -/
theorem run_forall {P : α → Prop} (hpush : ∀ s x, P x → ∀ y ∈ (visit s x).2, P y)
    (h : run visit fuel stack visited s = some result)
    (hstack : ∀ x ∈ stack, P x) (hvisited : ∀ x ∈ visited, P x) : ∀ x ∈ result.1, P x := by
  induction fuel generalizing stack visited s with
  | zero =>
    cases stack with
    | nil =>
      cases h
      exact hvisited
    | cons x stack => cases h
  | succ fuel ih =>
    cases stack with
    | nil =>
      cases h
      exact hvisited
    | cons x stack =>
      obtain ⟨hx, hrest⟩ := forall_mem_cons.mp hstack
      unfold run at h
      split at h
      · exact ih h hrest hvisited
      · refine ih h (fun y hy => ?_) (forall_mem_cons.mpr ⟨hx, hvisited⟩)
        rcases mem_append.mp hy with hy | hy
        · exact hpush s x hx y (mem_reverse.mp hy)
        · exact hrest y hy

theorem run_closed {next : α → List α} (hnext : ∀ s x, next x ⊆ (visit s x).2)
    (h : run visit fuel stack visited s = some result)
    (hclosed : ∀ x ∈ visited, ∀ y ∈ next x, y ∈ visited ∨ y ∈ stack) :
    (∀ x, x ∈ visited ∨ x ∈ stack → x ∈ result.1) ∧ ∀ x ∈ result.1, next x ⊆ result.1 := by
  have hempty : ∀ visited : List α, (∀ x ∈ visited, ∀ y ∈ next x, y ∈ visited ∨ y ∈ []) →
      (∀ x, x ∈ visited ∨ x ∈ [] → x ∈ visited) ∧ ∀ x ∈ visited, next x ⊆ visited := by
    intro visited hclosed
    exact ⟨fun x hx => hx.resolve_right not_mem_nil,
      fun x hx y hy => (hclosed x hx y hy).resolve_right not_mem_nil⟩
  induction fuel generalizing stack visited s with
  | zero =>
    cases stack with
    | nil =>
      cases h
      exact hempty _ hclosed
    | cons x stack => cases h
  | succ fuel ih =>
    cases stack with
    | nil =>
      cases h
      exact hempty _ hclosed
    | cons x stack =>
      unfold run at h
      split at h
      · next hmem =>
        obtain ⟨hreached, hdone⟩ := ih h fun y hy z hz => by
          rcases hclosed y hy z hz with hz | hz
          · exact .inl hz
          · rcases mem_cons.mp hz with rfl | hz
            · exact .inl hmem
            · exact .inr hz
        refine ⟨fun y hy => hreached y ?_, hdone⟩
        rcases hy with hy | hy
        · exact .inl hy
        · rcases mem_cons.mp hy with rfl | hy
          · exact .inl hmem
          · exact .inr hy
      · obtain ⟨hreached, hdone⟩ := ih h fun y hy z hz => by
          rw [mem_cons, mem_append, mem_reverse]
          rcases mem_cons.mp hy with rfl | hy
          · exact .inr (.inl (hnext s y hz))
          · rcases hclosed y hy z hz with hz | hz
            · exact .inl (.inr hz)
            · rcases mem_cons.mp hz with rfl | hz
              · exact .inl (.inl rfl)
              · exact .inr (.inr hz)
        refine ⟨fun y hy => hreached y ?_, hdone⟩
        rw [mem_cons, mem_append]
        rcases hy with hy | hy
        · exact .inl (.inr hy)
        · rcases mem_cons.mp hy with rfl | hy
          · exact .inl (.inl rfl)
          · exact .inr (.inr hy)

end

end Nia.Lib.Worklist
