import Mathlib

/-! Cutting a list at the occurrences of another.

A scan from the left cuts at the first occurrence and goes on behind it, so that of occurrences that overlap only the
first counts (`LeftmostSplit`). The parts do not hold the separator and give the list back when they are put together
with it; put together with something else they have a length that the number of parts fixes. -/
namespace Nia.Lib.Substrings

open List

variable {α : Type}

def OccursAt (needle list : List α) (index : Nat) : Prop := needle <+: list.drop index

/-- The parts with a list between each two. -/
def joined (separator : List α) : List (List α) → List α
  | [] => []
  | [part] => part
  | part :: next :: parts => part ++ separator ++ joined separator (next :: parts)

/-- The parts that a scan from the left finds. -/
inductive LeftmostSplit (separator : List α) : List α → List (List α) → Prop where
  | last {list : List α} (h : ∀ index, ¬ OccursAt separator list index) : LeftmostSplit separator list [list]
  | cut {part rest : List α} {parts : List (List α)}
    (hfirst : ∀ index < part.length, ¬ OccursAt separator (part ++ separator ++ rest) index)
    (hrest : LeftmostSplit separator rest parts) : LeftmostSplit separator (part ++ separator ++ rest) (part :: parts)

section

variable {separator list part : List α} {parts : List (List α)}

theorem occursAt_iff {index : Nat} : OccursAt separator list index ↔
    (list.drop index).take separator.length = separator := by
  rw [OccursAt, prefix_iff_eq_take, eq_comm]

theorem exists_occursAt (h : separator <:+: list) : ∃ index, OccursAt separator list index := by
  obtain ⟨before, after, rfl⟩ := h
  exact ⟨before.length, after, by rw [append_assoc, drop_left]⟩

theorem OccursAt.lt_length {index : Nat} (hseparator : separator ≠ []) (h : OccursAt separator list index) :
    index + separator.length ≤ list.length := by
  have hlength := h.length_le
  have hpositive := length_pos_iff.mpr hseparator
  rw [length_drop] at hlength
  omega

theorem OccursAt.append {index : Nat} (h : OccursAt separator part index) (hindex : index ≤ part.length)
    (after : List α) : OccursAt separator (part ++ after) index := by
  unfold OccursAt
  rw [drop_append_of_le_length hindex]
  exact h.trans (prefix_append _ _)

theorem joined_cons (part : List α) (hparts : parts ≠ []) :
    joined separator (part :: parts) = part ++ separator ++ joined separator parts := by
  cases parts with
  | nil => exact absurd rfl hparts
  | cons next parts => rfl

theorem joined_append {more : List (List α)} (hparts : parts ≠ []) (hmore : more ≠ []) :
    joined separator (parts ++ more) = joined separator parts ++ separator ++ joined separator more := by
  induction parts with
  | nil => exact absurd rfl hparts
  | cons part parts ih =>
    rw [cons_append, joined_cons part (append_ne_nil_of_right_ne_nil parts hmore)]
    cases parts with
    | nil => rfl
    | cons next parts =>
      rw [ih (cons_ne_nil next parts), joined_cons part (cons_ne_nil next parts)]
      simp only [append_assoc]

/-- The parts up to some place make a beginning of the whole. -/
theorem joined_isPrefix (parts more : List (List α)) : joined separator parts <+: joined separator (parts ++ more) := by
  by_cases hparts : parts = []
  · subst hparts
    exact nil_prefix
  · by_cases hmore : more = []
    · rw [hmore, append_nil]
    · rw [joined_append hparts hmore, append_assoc]
      exact prefix_append _ _

theorem length_joined (separator : List α) (hparts : parts ≠ []) :
    (joined separator parts).length = (parts.map List.length).sum + separator.length * (parts.length - 1) := by
  induction parts with
  | nil => exact absurd rfl hparts
  | cons part parts ih =>
    cases parts with
    | nil => simp [joined]
    | cons next parts =>
      have hnext := cons_ne_nil next parts
      rw [joined_cons part hnext, length_append, length_append, ih hnext]
      simp only [map_cons, sum_cons, length_cons, Nat.add_sub_cancel, Nat.mul_add_one]
      omega

theorem LeftmostSplit.ne_nil (h : LeftmostSplit separator list parts) : parts ≠ [] := by
  cases h <;> nofun

theorem LeftmostSplit.joined_eq (h : LeftmostSplit separator list parts) : joined separator parts = list := by
  induction h with
  | last _ => rfl
  | cut _ hrest ih => rw [joined_cons _ hrest.ne_nil, ih]

theorem LeftmostSplit.not_infix (hseparator : separator ≠ []) (h : LeftmostSplit separator list parts) :
    ∀ part ∈ parts, ¬ separator <:+: part := by
  induction h with
  | @last list h =>
    intro part hpart hinfix
    rw [mem_singleton] at hpart
    subst hpart
    obtain ⟨index, hoccurs⟩ := exists_occursAt hinfix
    exact h index hoccurs
  | @cut first rest parts hfirst _ ih =>
    refine forall_mem_cons.mpr ⟨fun hinfix => ?_, ih⟩
    obtain ⟨index, hoccurs⟩ := exists_occursAt hinfix
    have hindex := hoccurs.lt_length hseparator
    have hpositive := length_pos_iff.mpr hseparator
    refine hfirst index (by omega) ?_
    rw [append_assoc]
    exact hoccurs.append (by omega) _

/-- A cut takes at least one element away. -/
theorem LeftmostSplit.length_le (hseparator : separator ≠ []) (h : LeftmostSplit separator list parts) :
    parts.length ≤ list.length + 1 := by
  have hpositive := length_pos_iff.mpr hseparator
  induction h with
  | last _ => exact Nat.le_add_left _ _
  | cut _ _ ih =>
    rw [length_cons, length_append, length_append]
    omega

end

end Nia.Lib.Substrings
