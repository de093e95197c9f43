import Mathlib

/-! Tallies over the parties of a system.

A system of finitely many parties often has a counter that is the sum of a share of each party. When one party
changes, the sum changes by its share (`tally_update`), so what a counter means is kept by arithmetic. -/
namespace Nia.Lib.Tally

variable {n : Nat} {α : Type}

/-- The sum of the shares. -/
def tally (share : α → Nat) (parties : Fin n → α) : Nat := ∑ i, share (parties i)

theorem tally_update (share : α → Nat) (parties : Fin n → α) (i : Fin n) (party : α) :
    tally share (Function.update parties i party) + share (parties i) = tally share parties + share party := by
  have hsum : ∀ q : Fin n → α, tally share q = share (q i) + ∑ j ∈ Finset.univ.erase i, share (q j) :=
    fun q => (Finset.add_sum_erase Finset.univ (fun j => share (q j)) (Finset.mem_univ i)).symm
  have hrest : ∑ j ∈ Finset.univ.erase i, share (Function.update parties i party j) =
      ∑ j ∈ Finset.univ.erase i, share (parties j) := by
    refine Finset.sum_congr rfl fun j hj => ?_
    rw [Function.update_of_ne (Finset.ne_of_mem_erase hj)]
  rw [hsum (Function.update parties i party), hsum parties, hrest, Function.update_self]
  omega

/-- A party's share is at most the tally. -/
theorem le_tally (share : α → Nat) (parties : Fin n → α) (i : Fin n) : share (parties i) ≤ tally share parties :=
  Finset.single_le_sum (f := fun j => share (parties j)) (fun _ _ => Nat.zero_le _) (Finset.mem_univ i)

theorem exists_share_pos {share : α → Nat} {parties : Fin n → α} (h : 0 < tally share parties) :
    ∃ i, 0 < share (parties i) := by
  by_contra hnone
  have hzero : tally share parties = 0 := Finset.sum_eq_zero fun i _ => by
    have := not_exists.mp hnone i
    omega
  omega

theorem tally_const {share : α → Nat} {parties : Fin n → α} (h : ∀ i, share (parties i) = 0) :
    tally share parties = 0 := Finset.sum_eq_zero fun i _ => h i

end Nia.Lib.Tally
