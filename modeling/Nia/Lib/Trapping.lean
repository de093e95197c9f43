import Mathlib

/-! Code that changes a state and may trap.

A step of such code is a function from states; `none` is a trap, or a run without end. What code returns is
written as an equation `code s = some (a, s')`, and a sequence is followed along such equations
(`bind_of_eq`). -/
namespace Nia.Lib.Trapping

/-- Code over a state. -/
abbrev Code (S α : Type) := StateT S Option α

variable {S α β : Type}

variable {x : Code S α} {f : α → Code S β} {s : S} {a : α}

/-- A sequence goes on from what its first part returned. -/
theorem bind_of_eq {s' : S} (h : x s = some (a, s')) : (x >>= f) s = f a s' := by
  show (x s).bind (fun r => f r.1 r.2) = f a s'
  rw [h]
  rfl

/-- The same for code without a state. -/
theorem some_bind {x : Option α} {f : α → Option β} (h : x = some a) : (x >>= f) = f a := by
  rw [h]
  rfl

/-- A loop over a list of which every step returns. -/
theorem mapM_of_eq {f : α → Option β} {g : α → β} {values : List α} (h : ∀ a ∈ values, f a = some (g a)) :
    values.mapM f = some (values.map g) := by
  induction values with
  | nil => rfl
  | cons a rest ih =>
    obtain ⟨ha, hrest⟩ := List.forall_mem_cons.mp h
    rw [List.mapM_cons, some_bind ha, some_bind (ih hrest)]
    rfl

theorem bind_of_none (h : x s = none) : (x >>= f) s = none := by
  show (x s).bind (fun r => f r.1 r.2) = none
  rw [h]
  rfl

/-- Code without a state, as a part of code with one. -/
theorem lift_bind {x : Option α} (h : x = some a) : ((liftM x : Code S α) >>= f) s = f a s := by
  rw [h]
  rfl

/-- The same for a loop that carries its state. -/
theorem foldlM_range_of_step {f : S → Nat → Option S} {P : Nat → S → Prop} (count : Nat) (hstart : P 0 s)
    (hstep : ∀ index < count, ∀ s, P index s → ∃ s', f s index = some s' ∧ P (index + 1) s') :
    ∃ s', (List.range count).foldlM f s = some s' ∧ P count s' := by
  induction count with
  | zero => exact ⟨s, rfl, hstart⟩
  | succ count ih =>
    obtain ⟨s₁, hrun₁, hP₁⟩ := ih fun index hindex => hstep index (Nat.lt_succ_of_lt hindex)
    obtain ⟨s₂, hrun₂, hP₂⟩ := hstep count (Nat.lt_succ_self count) s₁ hP₁
    refine ⟨s₂, ?_, hP₂⟩
    rw [List.range_succ, List.foldlM_append, some_bind hrun₁, List.foldlM_cons, some_bind hrun₂]
    rfl

end Nia.Lib.Trapping
