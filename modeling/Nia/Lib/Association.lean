import Mathlib

/-! Sorted association lists.

A list of entries whose keys ascend holds one entry for a key at most. Looking a key up and putting an entry in
are said by filters over the whole list. -/
namespace Nia.Lib.Association

variable {K V : Type} [LinearOrder K]

def find (items : List (K × V)) (key : K) : Option (K × V) := items.find? fun entry => decide (entry.1 = key)

def insert (items : List (K × V)) (key : K) (value : V) : List (K × V) :=
  items.filter (fun entry => decide (entry.1 < key)) ++
    (key, value) :: items.filter (fun entry => decide (key < entry.1))

variable {items : List (K × V)} {key : K} {value : V} {entry : K × V}

theorem find_eq_none_iff : find items key = none ↔ ∀ x ∈ items, x.1 ≠ key := by
  simp [find]

theorem key_of_find (h : find items key = some entry) : entry.1 = key := by
  simpa using List.find?_some h

theorem mem_of_find (h : find items key = some entry) : entry ∈ items := List.mem_of_find?_eq_some h

theorem mem_insert {x : K × V} (h : x ∈ insert items key value) : x = (key, value) ∨ (x ∈ items ∧ x.1 ≠ key) := by
  obtain hx | hx := List.mem_append.mp h
  · obtain ⟨hmem, hlt⟩ := List.mem_filter.mp hx
    exact Or.inr ⟨hmem, (of_decide_eq_true hlt).ne⟩
  · obtain rfl | hx := List.mem_cons.mp hx
    · exact Or.inl rfl
    · obtain ⟨hmem, hlt⟩ := List.mem_filter.mp hx
      exact Or.inr ⟨hmem, (of_decide_eq_true hlt).ne'⟩

theorem mem_keys_insert {name : K} :
    name ∈ (insert items key value).map Prod.fst ↔ name = key ∨ name ∈ items.map Prod.fst := by
  simp only [insert, List.map_append, List.map_cons, List.mem_append, List.mem_cons, List.mem_map, List.mem_filter,
    decide_eq_true_eq]
  constructor
  · rintro (⟨x, ⟨hmem, -⟩, rfl⟩ | rfl | ⟨x, ⟨hmem, -⟩, rfl⟩)
    · exact .inr ⟨x, hmem, rfl⟩
    · exact .inl rfl
    · exact .inr ⟨x, hmem, rfl⟩
  · rintro (rfl | ⟨x, hmem, rfl⟩)
    · exact .inr (.inl rfl)
    · rcases lt_trichotomy x.1 key with h | h | h
      · exact .inl ⟨x, ⟨hmem, h⟩, rfl⟩
      · exact .inr (.inl h)
      · exact .inr (.inr ⟨x, ⟨hmem, h⟩, rfl⟩)

theorem pairwise_keys_insert (h : (items.map Prod.fst).Pairwise (· < ·)) :
    ((insert items key value).map Prod.fst).Pairwise (· < ·) := by
  rw [List.pairwise_map] at h ⊢
  refine List.pairwise_append.mpr ⟨h.filter _, List.pairwise_cons.mpr ⟨?_, h.filter _⟩, ?_⟩
  · exact fun x hx => of_decide_eq_true (List.mem_filter.mp hx).2
  · intro x hx y hy
    have hlow : x.1 < key := of_decide_eq_true (List.mem_filter.mp hx).2
    rcases List.mem_cons.mp hy with rfl | hy
    · exact hlow
    · exact hlow.trans (of_decide_eq_true (List.mem_filter.mp hy).2)

theorem find_insert_self : find (insert items key value) key = some (key, value) := by
  have hfront : (items.filter fun entry => decide (entry.1 < key)).find? (fun entry => decide (entry.1 = key)) = none :=
    List.find?_eq_none.mpr fun x hx => by simpa using (of_decide_eq_true (List.mem_filter.mp hx).2).ne
  rw [find, insert, List.find?_append, hfront, Option.none_or, List.find?_cons_of_pos (by simp)]

theorem find_insert_of_ne {other : K} (h : other ≠ key) : find (insert items key value) other = find items other := by
  rw [find, insert, List.find?_append, List.find?_cons_of_neg (by simpa using h.symm), List.find?_filter,
    List.find?_filter]
  rcases lt_or_gt_of_ne h with hlt | hgt
  · have hback : items.find? (fun entry => decide (decide (key < entry.1) = true ∧ decide (entry.1 = other) = true)) =
        none := List.find?_eq_none.mpr fun x _ => by simpa using fun hkey heq => (hkey.trans (heq ▸ hlt)).false
    rw [hback, Option.or_none, find]
    refine congrArg (fun p => items.find? p) (funext fun x => ?_)
    simpa using fun heq : x.1 = other => heq ▸ hlt
  · have hfront : items.find? (fun entry => decide (decide (entry.1 < key) = true ∧ decide (entry.1 = other) = true)) =
        none := List.find?_eq_none.mpr fun x _ => by simpa using fun hkey heq => (hkey.trans (heq ▸ hgt)).false
    rw [hfront, Option.none_or, find]
    refine congrArg (fun p => items.find? p) (funext fun x => ?_)
    simpa using fun heq : x.1 = other => heq ▸ hgt

end Nia.Lib.Association
