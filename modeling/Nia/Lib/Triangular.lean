import Mathlib

/-! Triangular numbers permute the residues of a power of two.

Twice the difference of two triangular numbers is the product of the difference of the indices and their sum plus
one. One of the two factors is odd, so a power of two that divides the product divides the other, and below the
power there is no such pair (`triangle_inj`). Blocks of a fixed length at triangular distances therefore cover a
cycle whose length is a power of two times the length of a block, each place once (`perm_places`). -/
namespace Nia.Lib.Triangular

def triangle : Nat → Nat
  | 0 => 0
  | n + 1 => triangle n + (n + 1)

theorem two_mul_triangle (n : Nat) : 2 * triangle n = n * (n + 1) := by
  induction n with
  | zero => rfl
  | succ n ih =>
    rw [triangle, Nat.mul_add, ih]
    ring

theorem triangle_le {a b : Nat} (h : a ≤ b) : triangle a ≤ triangle b := by
  induction h with
  | refl => exact le_rfl
  | step _ ih => exact ih.trans (Nat.le_add_right _ _)

theorem eq_of_triangle_modEq {k a b : Nat} (hab : a ≤ b) (hb : b < 2 ^ k)
    (h : triangle a ≡ triangle b [MOD 2 ^ k]) : a = b := by
  have hdvd : 2 ^ k ∣ triangle b - triangle a := (Nat.modEq_iff_dvd' (triangle_le hab)).mp h
  have hproduct : 2 * (triangle b - triangle a) = (b - a) * (b + a + 1) := by
    obtain ⟨d, rfl⟩ := Nat.exists_eq_add_of_le hab
    rw [Nat.mul_sub, two_mul_triangle, two_mul_triangle, Nat.add_sub_cancel_left]
    refine Nat.sub_eq_of_eq_add ?_
    ring
  have htwice : 2 ^ (k + 1) ∣ (b - a) * (b + a + 1) := by
    rw [← hproduct, Nat.pow_succ']
    exact Nat.mul_dvd_mul_left 2 hdvd
  have hpow : 2 ^ (k + 1) = 2 * 2 ^ k := Nat.pow_succ'
  -- The factors add up to an odd number.
  rcases Nat.even_or_odd (b - a) with heven | hodd
  · have hodd : Odd (b + a + 1) := by
      obtain ⟨d, hd⟩ := heven
      exact ⟨a + d, by omega⟩
    have hfactor : 2 ^ (k + 1) ∣ b - a :=
      (Nat.Coprime.pow_left _ (Nat.coprime_two_left.mpr hodd)).dvd_of_dvd_mul_right htwice
    have := Nat.eq_zero_of_dvd_of_lt hfactor (by omega)
    omega
  · have hfactor : 2 ^ (k + 1) ∣ b + a + 1 :=
      (Nat.Coprime.pow_left _ (Nat.coprime_two_left.mpr hodd)).dvd_of_dvd_mul_left htwice
    obtain ⟨d, hd⟩ := hodd
    have := Nat.eq_zero_of_dvd_of_lt hfactor (by omega)
    omega

theorem triangle_inj {k a b : Nat} (ha : a < 2 ^ k) (hb : b < 2 ^ k)
    (h : triangle a ≡ triangle b [MOD 2 ^ k]) : a = b := by
  rcases Nat.le_total a b with hab | hab
  · exact eq_of_triangle_modEq hab hb h
  · exact (eq_of_triangle_modEq hab ha h.symm).symm

/-- The places of a block: a number of steps and an offset. -/
def places (blocks size : Nat) : List (Nat × Nat) :=
  (List.range blocks).flatMap fun n => (List.range size).map fun offset => (n, offset)

theorem mem_places {blocks size n offset : Nat} : (n, offset) ∈ places blocks size ↔ n < blocks ∧ offset < size := by
  simp [places]

/-- Where a place is on a cycle. -/
def position (start size length : Nat) (place : Nat × Nat) : Nat :=
  (start + size * triangle place.1 + place.2) % length

theorem perm_places (start k : Nat) {size : Nat} (hsize : 0 < size) :
    ((places (2 ^ k) size).map (position start size (size * 2 ^ k))).Perm (List.range (size * 2 ^ k)) := by
  have hnodup : ((places (2 ^ k) size).map (position start size (size * 2 ^ k))).Nodup := by
    refine List.Nodup.map_on ?_ (List.nodup_range.product List.nodup_range)
    intro (n, i) hplace (m, j) hplace' heq
    obtain ⟨hn, hi⟩ := mem_places.mp hplace
    obtain ⟨hm, hj⟩ := mem_places.mp hplace'
    have hmod : start + size * triangle n + i ≡ start + size * triangle m + j [MOD size * 2 ^ k] := heq
    -- Modulo the size of a block only the offset is left.
    have hoffset : i = j := by
      have hsmall := hmod.of_mul_right (2 ^ k)
      have hblock : ∀ t o, start + size * t + o ≡ start + o [MOD size] := fun t o =>
        (Nat.modEq_iff_dvd' (by omega)).mpr ⟨t, by omega⟩ |>.symm
      have hij := Nat.ModEq.add_left_cancel' start ((hblock _ _).symm.trans (hsmall.trans (hblock _ _)))
      exact Nat.ModEq.eq_of_lt_of_lt hij hi hj
    subst hoffset
    have htriangles := Nat.ModEq.add_left_cancel' start (Nat.ModEq.add_right_cancel' i hmod)
    have hn' := triangle_inj hn hm (Nat.ModEq.mul_left_cancel' hsize.ne' htriangles)
    rw [hn']
  have hlength : ((places (2 ^ k) size).map (position start size (size * 2 ^ k))).length = size * 2 ^ k := by
    simp [places, Nat.mul_comm]
  refine List.Subperm.perm_of_length_le (List.subperm_of_subset hnodup fun slot hslot => ?_) ?_
  · obtain ⟨place, -, rfl⟩ := List.mem_map.mp hslot
    exact List.mem_range.mpr (Nat.mod_lt _ (Nat.mul_pos hsize (Nat.two_pow_pos k)))
  · rw [hlength, List.length_range]

end Nia.Lib.Triangular
