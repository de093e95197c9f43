import Mathlib

/-! Edges as a map from nodes to sets of nodes.

A node without edges has no entry (`Tidy`): `link` makes the entry of a node when it needs one, and `unlink` takes
an entry away with its last edge. A loop over a set meets its elements in an order that nothing fixes (`Order`). The
lemmas say which edges there are after each operation, and after a loop of it. -/
namespace Nia.Lib.Edges

/-- The edges of a graph, by the node at one end. -/
abbrev EdgeMap (α : Type) := Finmap fun _ : α => Finset α

/-- An order in which a loop may meet the elements of a set. -/
structure Order (α : Type) where
  list : Finset α → List α
  nodup : ∀ s, (list s).Nodup
  mem_list : ∀ s a, a ∈ list s ↔ a ∈ s

noncomputable instance {α : Type} : Inhabited (Order α) :=
  ⟨Finset.toList, Finset.nodup_toList, fun _ _ => Finset.mem_toList⟩

variable {α : Type} [DecidableEq α]

def ends (edges : EdgeMap α) (a : α) : Finset α := (edges.lookup a).getD ∅

def link (edges : EdgeMap α) (a b : α) : EdgeMap α := edges.insert a (insert b (ends edges a))

def unlink (edges : EdgeMap α) (a b : α) : EdgeMap α :=
  match edges.lookup a with
  | none => edges
  | some members => if members.erase b = ∅ then edges.erase a else edges.insert a (members.erase b)

/-- No node has an entry without edges. -/
def Tidy (edges : EdgeMap α) : Prop := ∀ a, edges.lookup a ≠ some ∅

section

variable {edges : EdgeMap α} {a b x y : α}

@[simp] theorem ends_empty : ends (∅ : EdgeMap α) a = ∅ := by
  rw [ends, Finmap.lookup_empty, Option.getD_none]

theorem ends_insert (members : Finset α) :
    ends (edges.insert a members) x = if x = a then members else ends edges x := by
  split
  · next h => rw [h, ends, Finmap.lookup_insert, Option.getD_some]
  · next h => rw [ends, Finmap.lookup_insert_of_ne _ h, ends]

theorem ends_erase : ends (edges.erase a) x = if x = a then ∅ else ends edges x := by
  split
  · next h => rw [h, ends, Finmap.lookup_erase, Option.getD_none]
  · next h => rw [ends, Finmap.lookup_erase_ne h, ends]

theorem mem_keys_of_mem_ends (h : y ∈ ends edges x) : x ∈ edges.keys := by
  rw [Finmap.mem_keys, Finmap.mem_iff]
  cases hx : edges.lookup x with
  | none => simp [ends, hx] at h
  | some members => exact ⟨members, rfl⟩

theorem mem_ends_link : y ∈ ends (link edges a b) x ↔ y ∈ ends edges x ∨ x = a ∧ y = b := by
  rw [link, ends_insert]
  split
  · next h =>
    subst h
    rw [Finset.mem_insert]
    tauto
  · next h => tauto

theorem mem_ends_unlink : y ∈ ends (unlink edges a b) x ↔ y ∈ ends edges x ∧ ¬ (x = a ∧ y = b) := by
  have hends : ends (unlink edges a b) x = if x = a then (ends edges x).erase b else ends edges x := by
    unfold unlink
    split
    · next hnone =>
      split
      · next h =>
        subst h
        rw [ends, hnone, Option.getD_none, Finset.erase_empty]
      · rfl
    · next members hsome =>
      have hmembers : ends edges a = members := by rw [ends, hsome, Option.getD_some]
      split
      · next hlast =>
        rw [ends_erase]
        split
        · next h => rw [h, hmembers, hlast]
        · rfl
      · rw [ends_insert]
        split
        · next h => rw [h, hmembers]
        · rfl
  rw [hends]
  split
  · next h =>
    rw [Finset.mem_erase]
    tauto
  · next h => tauto

theorem Tidy.insert (h : Tidy edges) {members : Finset α} (hmembers : members ≠ ∅) :
    Tidy (edges.insert a members) := fun x => by
  by_cases hx : x = a
  · subst hx
    rw [Finmap.lookup_insert]
    exact fun heq => hmembers (Option.some.inj heq)
  · rw [Finmap.lookup_insert_of_ne _ hx]
    exact h x

theorem Tidy.erase (h : Tidy edges) : Tidy (edges.erase a) := fun x => by
  by_cases hx : x = a
  · subst hx
    rw [Finmap.lookup_erase]
    nofun
  · rw [Finmap.lookup_erase_ne hx]
    exact h x

theorem Tidy.link (h : Tidy edges) : Tidy (link edges a b) := h.insert (Finset.insert_ne_empty b _)

theorem Tidy.unlink (h : Tidy edges) : Tidy (unlink edges a b) := by
  unfold Edges.unlink
  split
  · exact h
  · split
    · exact h.erase
    · next hlast => exact h.insert hlast

end

/-! ### Loops -/

theorem linkAll_spec (edges : EdgeMap α) (nodes : List α) (b : α) :
    (∀ x y, y ∈ ends (nodes.foldl (fun edges a => link edges a b) edges) x ↔
      y ∈ ends edges x ∨ x ∈ nodes ∧ y = b) ∧
    (Tidy edges → Tidy (nodes.foldl (fun edges a => link edges a b) edges)) := by
  induction nodes generalizing edges with
  | nil => simp
  | cons a rest ih =>
    refine ⟨fun x y => ?_, fun h => (ih _).2 h.link⟩
    rw [List.foldl_cons, (ih _).1, mem_ends_link, List.mem_cons]
    tauto

theorem unlinkAll_spec (edges : EdgeMap α) (nodes : List α) (b : α) :
    (∀ x y, y ∈ ends (nodes.foldl (fun edges a => unlink edges a b) edges) x ↔
      y ∈ ends edges x ∧ ¬ (x ∈ nodes ∧ y = b)) ∧
    (Tidy edges → Tidy (nodes.foldl (fun edges a => unlink edges a b) edges)) := by
  induction nodes generalizing edges with
  | nil => simp
  | cons a rest ih =>
    refine ⟨fun x y => ?_, fun h => (ih _).2 h.unlink⟩
    rw [List.foldl_cons, (ih _).1, mem_ends_unlink, List.mem_cons]
    tauto

end Nia.Lib.Edges
