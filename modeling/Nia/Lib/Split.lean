import Mathlib

/-! Splitting a list at a separator, and joining parts with it.

Splitting gives at least one part, and no part has the separator. It undoes joining such parts. -/
namespace Nia.Lib.Split

open List

variable {α : Type}

def split [DecidableEq α] (separator : α) : List α → List (List α)
  | [] => [[]]
  | a :: rest =>
    if a = separator then [] :: split separator rest
    else
      match split separator rest with
      | first :: more => (a :: first) :: more
      | [] => [[a]]

def join (separator : α) : List (List α) → List α
  | [] => []
  | [part] => part
  | part :: parts => part ++ separator :: join separator parts

variable {separator a : α} {list part : List α} {parts : List (List α)}

@[simp]
theorem join_cons_cons : join separator ((a :: part) :: parts) = a :: join separator (part :: parts) := by
  cases parts <;> rfl

theorem mem_join (ha : a ∈ join separator parts) : a = separator ∨ ∃ part ∈ parts, a ∈ part := by
  fun_induction join separator parts with
  | case1 => cases ha
  | case2 part => exact .inr ⟨part, by simp, ha⟩
  | case3 part parts _ ih =>
    rcases mem_append.mp ha with ha | ha
    · exact .inr ⟨part, by simp, ha⟩
    · rcases mem_cons.mp ha with rfl | ha
      · exact .inl rfl
      · rcases ih ha with hseparator | ⟨other, hother, ha⟩
        · exact .inl hseparator
        · exact .inr ⟨other, mem_cons_of_mem _ hother, ha⟩

theorem join_eq_nil_iff (hparts : ∀ part ∈ parts, part ≠ []) : join separator parts = [] ↔ parts = [] := by
  fun_cases join separator parts with
  | case1 => simp
  | case2 part => simpa using hparts
  | case3 part parts => simp

variable [DecidableEq α]

@[simp]
theorem split_cons_separator : split separator (separator :: list) = [] :: split separator list := by
  rw [split, if_pos rfl]

theorem split_cons (ha : a ≠ separator) (h : split separator list = part :: parts) :
    split separator (a :: list) = (a :: part) :: parts := by
  rw [split, if_neg ha, h]

theorem split_ne_nil (separator : α) (list : List α) : split separator list ≠ [] := by
  fun_cases split separator list <;> simp

theorem exists_split (separator : α) (list : List α) : ∃ part parts, split separator list = part :: parts :=
  exists_cons_of_ne_nil (split_ne_nil separator list)

theorem separator_notMem_split (h : part ∈ split separator list) : separator ∉ part := by
  induction list generalizing part with
  | nil =>
    rw [mem_singleton.mp h]
    simp
  | cons a list ih =>
    by_cases ha : a = separator
    · subst ha
      rw [split_cons_separator] at h
      rcases mem_cons.mp h with rfl | h
      · simp
      · exact ih h
    · obtain ⟨first, more, hsplit⟩ := exists_split separator list
      rw [split_cons ha hsplit] at h
      rw [hsplit] at ih
      rcases mem_cons.mp h with rfl | h
      · simpa using ⟨Ne.symm ha, ih (mem_cons_self ..)⟩
      · exact ih (mem_cons_of_mem _ h)

theorem mem_of_mem_split (hpart : part ∈ split separator list) (ha : a ∈ part) : a ∈ list := by
  induction list generalizing part with
  | nil =>
    rw [mem_singleton.mp hpart] at ha
    exact ha
  | cons b list ih =>
    by_cases hb : b = separator
    · subst hb
      rw [split_cons_separator] at hpart
      rcases mem_cons.mp hpart with rfl | hpart
      · cases ha
      · exact mem_cons_of_mem _ (ih hpart ha)
    · obtain ⟨first, more, hsplit⟩ := exists_split separator list
      rw [split_cons hb hsplit] at hpart
      rw [hsplit] at ih
      rcases mem_cons.mp hpart with rfl | hpart
      · rcases mem_cons.mp ha with rfl | ha
        · exact mem_cons_self ..
        · exact mem_cons_of_mem _ (ih (mem_cons_self ..) ha)
      · exact mem_cons_of_mem _ (ih (mem_cons_of_mem _ hpart) ha)

theorem split_append (hpart : separator ∉ part) (list : List α) :
    split separator (part ++ separator :: list) = part :: split separator list := by
  induction part with
  | nil => exact split_cons_separator
  | cons a part ih =>
    obtain ⟨ha, hpart⟩ := not_or.mp (mem_cons.not.mp hpart)
    exact split_cons (Ne.symm ha) (ih hpart)

theorem split_of_notMem (hpart : separator ∉ part) : split separator part = [part] := by
  induction part with
  | nil => rfl
  | cons a part ih =>
    obtain ⟨ha, hpart⟩ := not_or.mp (mem_cons.not.mp hpart)
    exact split_cons (Ne.symm ha) (ih hpart)

theorem split_join (hne : parts ≠ []) (hparts : ∀ part ∈ parts, separator ∉ part) :
    split separator (join separator parts) = parts := by
  induction parts with
  | nil => exact absurd rfl hne
  | cons part parts ih =>
    obtain ⟨hpart, hparts⟩ := forall_mem_cons.mp hparts
    cases parts with
    | nil => exact split_of_notMem hpart
    | cons next parts => rw [join, split_append hpart, ih nofun hparts]; nofun

theorem join_split (separator : α) (list : List α) : join separator (split separator list) = list := by
  induction list with
  | nil => rfl
  | cons a list ih =>
    obtain ⟨part, parts, hsplit⟩ := exists_split separator list
    rw [hsplit] at ih
    by_cases ha : a = separator
    · rw [ha, split_cons_separator, hsplit, join, ih, nil_append]
      nofun
    · rw [split_cons ha hsplit, join_cons_cons, ih]

end Nia.Lib.Split
