import Mathlib

/-! Reflected cyclic redundancy checks.

A register of `w` bits takes one bit of a message by a shift to the right, and by an exclusive or with the polynomial
if a one is shifted out. The step is linear, so eight of them are one shift by a byte and one entry of a table
(`bitSteps_split`).

Over the field of two elements the register is a polynomial with its lowest bit as the highest coefficient. One step
then multiplies by `X` modulo the generator, and the register after a message is the remainder of the message
(`register_eq_modByMonic`). -/
namespace Nia.Lib.Crc

variable {w : Nat}

/-! ### Steps of the register -/

def bitStep (poly r : BitVec w) : BitVec w := if r.getLsbD 0 then (r >>> 1) ^^^ poly else r >>> 1

def bitSteps (poly : BitVec w) : Nat → BitVec w → BitVec w
  | 0, r => r
  | count + 1, r => bitSteps poly count (bitStep poly r)

def byteStep (poly r : BitVec w) (byte : UInt8) : BitVec w := bitSteps poly 8 (r ^^^ byte.toBitVec.setWidth w)

/-- The register after a message. -/
def register (poly init : BitVec w) (bytes : List UInt8) : BitVec w := bytes.foldl (byteStep poly) init

theorem register_append (poly init : BitVec w) (bytes bytes' : List UInt8) :
    register poly init (bytes ++ bytes') = register poly (register poly init bytes) bytes' :=
  List.foldl_append

theorem bitStep_eq (poly r : BitVec w) : bitStep poly r = (r >>> 1) ^^^ (if r.getLsbD 0 then poly else 0#w) := by
  rw [bitStep]
  split
  · rfl
  · rw [BitVec.xor_zero]

theorem bitStep_xor (poly a b : BitVec w) : bitStep poly (a ^^^ b) = bitStep poly a ^^^ bitStep poly b := by
  have hpoly : (if (a ^^^ b).getLsbD 0 then poly else 0#w) =
      (if a.getLsbD 0 then poly else 0#w) ^^^ (if b.getLsbD 0 then poly else 0#w) := by
    rw [BitVec.getLsbD_xor]
    cases a.getLsbD 0 <;> cases b.getLsbD 0 <;> simp
  rw [bitStep_eq, bitStep_eq, bitStep_eq, hpoly, BitVec.ushiftRight_xor_distrib]
  ac_rfl

variable (poly : BitVec w)

theorem bitSteps_xor (count : Nat) (a b : BitVec w) :
    bitSteps poly count (a ^^^ b) = bitSteps poly count a ^^^ bitSteps poly count b := by
  induction count generalizing a b with
  | zero => rfl
  | succ count ih => rw [bitSteps, bitStep_xor, ih, bitSteps, bitSteps]

/-- Zeros are shifted out. -/
theorem bitSteps_of_low {count : Nat} {r : BitVec w} (hlow : ∀ i < count, r.getLsbD i = false) :
    bitSteps poly count r = r >>> count := by
  induction count generalizing r with
  | zero => rw [bitSteps, BitVec.ushiftRight_zero]
  | succ count ih =>
    have hstep : bitStep poly r = r >>> 1 := by
      rw [bitStep, hlow 0 (Nat.succ_pos _), if_neg Bool.false_ne_true]
    have hlow' : ∀ i < count, (r >>> 1).getLsbD i = false := by
      intro i hi
      rw [BitVec.getLsbD_ushiftRight]
      exact hlow (1 + i) (by omega)
    rw [bitSteps, hstep, ih hlow', ← BitVec.shiftRight_add, Nat.add_comm 1]

/-- Many steps at once: a shift, and the same steps of the bits that are shifted out. -/
theorem bitSteps_split (count : Nat) (r : BitVec w) :
    bitSteps poly count r = (r >>> count) ^^^ bitSteps poly count ((r.setWidth count).setWidth w) := by
  have hhigh : bitSteps poly count (r ^^^ (r.setWidth count).setWidth w) = r >>> count := by
    rw [bitSteps_of_low]
    · refine BitVec.eq_of_getLsbD_eq fun i hi => ?_
      simp
    · intro i hi
      simp only [BitVec.getLsbD_xor, BitVec.getLsbD_setWidth, hi, decide_true, Bool.true_and]
      by_cases hw : i < w
      · simp [hw]
      · simp [BitVec.getLsbD_of_ge r i (Nat.le_of_not_lt hw)]
  have hsplit : r = (r ^^^ (r.setWidth count).setWidth w) ^^^ (r.setWidth count).setWidth w := by
    rw [BitVec.xor_assoc, BitVec.xor_self, BitVec.xor_zero]
  rw [← hhigh, ← bitSteps_xor, ← hsplit]

/-! ### The register as a polynomial -/

open Polynomial

/-- A bit as a number modulo two. -/
def coefficient (bit : Bool) : ZMod 2 := bit.toNat

theorem coefficient_xor (a b : Bool) : coefficient (a ^^ b) = coefficient a + coefficient b := by
  cases a <;> cases b <;> decide

/-- The polynomial of a register: its lowest bit is the highest coefficient. -/
noncomputable def toPolynomial (r : BitVec w) : (ZMod 2)[X] :=
  ∑ i ∈ Finset.range w, C (coefficient (r.getLsbD i)) * X ^ (w - 1 - i)

/-- The generator of a check: the polynomial with its highest coefficient, which the register has no bit for. -/
noncomputable def generator : (ZMod 2)[X] := X ^ w + toPolynomial poly

/-- The polynomial of a message: of each byte the lowest bit first. -/
noncomputable def message (bytes : List UInt8) : (ZMod 2)[X] :=
  bytes.foldl (fun sum byte => X ^ 8 * sum + toPolynomial byte.toBitVec) 0

theorem toPolynomial_xor (a b : BitVec w) : toPolynomial (a ^^^ b) = toPolynomial a + toPolynomial b := by
  simp only [toPolynomial, BitVec.getLsbD_xor, coefficient_xor, C_add, add_mul, Finset.sum_add_distrib]

theorem degree_toPolynomial_lt (r : BitVec w) : (toPolynomial r).degree < w := by
  rw [← mem_degreeLT]
  refine Submodule.sum_mem _ fun i hi => mem_degreeLT.mpr ?_
  refine lt_of_le_of_lt (degree_C_mul_X_pow_le _ _) ?_
  rw [Finset.mem_range] at hi
  exact_mod_cast (by omega : w - 1 - i < w)

theorem monic_generator : (generator poly).Monic :=
  monic_X_pow_add (degree_toPolynomial_lt poly)

theorem degree_generator : (generator poly).degree = w := by
  rw [generator, add_comm, degree_add_eq_right_of_degree_lt]
  · exact degree_X_pow w
  · rw [degree_X_pow]
    exact degree_toPolynomial_lt poly

/-- A shift to the right multiplies by `X`, but for the bit that is shifted out. -/
theorem X_mul_toPolynomial (hw : 0 < w) (r : BitVec w) :
    X * toPolynomial r = toPolynomial (r >>> 1) + C (coefficient (r.getLsbD 0)) * X ^ w := by
  obtain ⟨n, rfl⟩ := Nat.exists_eq_add_one.mpr hw
  have hlast : coefficient ((r >>> 1).getLsbD n) = 0 := by
    rw [BitVec.getLsbD_ushiftRight, BitVec.getLsbD_of_ge _ _ (by omega)]
    rfl
  rw [toPolynomial, Finset.sum_range_succ', mul_add, Finset.mul_sum, toPolynomial, Finset.sum_range_succ, hlast, C_0,
    zero_mul, add_zero]
  congr 1
  · refine Finset.sum_congr rfl fun i hi => ?_
    rw [Finset.mem_range] at hi
    rw [BitVec.getLsbD_ushiftRight, Nat.add_comm 1, mul_left_comm, ← pow_succ',
      show n + 1 - 1 - (i + 1) + 1 = n + 1 - 1 - i by omega]
  · rw [mul_left_comm, ← pow_succ', Nat.sub_zero, Nat.add_sub_cancel]

/-- A step multiplies by `X` modulo the generator. -/
theorem toPolynomial_bitStep (hw : 0 < w) (poly r : BitVec w) :
    toPolynomial (bitStep poly r) = X * toPolynomial r + C (coefficient (r.getLsbD 0)) * generator poly := by
  rw [bitStep_eq, toPolynomial_xor, X_mul_toPolynomial hw, generator, mul_add, add_assoc, ← add_assoc (C _ * X ^ w),
    CharTwo.add_self_eq_zero, zero_add]
  congr 1
  cases r.getLsbD 0 with
  | true => simp [coefficient]
  | false => simp [coefficient, toPolynomial]

/-- Steps multiply by a power of `X` modulo the generator. -/
theorem generator_dvd_bitSteps (hw : 0 < w) (poly : BitVec w) (count : Nat) (r : BitVec w) :
    generator poly ∣ toPolynomial (bitSteps poly count r) - X ^ count * toPolynomial r := by
  induction count generalizing r with
  | zero => simp [bitSteps]
  | succ count ih =>
    have hsplit : toPolynomial (bitSteps poly (count + 1) r) - X ^ (count + 1) * toPolynomial r =
        (toPolynomial (bitSteps poly count (bitStep poly r)) - X ^ count * toPolynomial (bitStep poly r)) +
          X ^ count * C (coefficient (r.getLsbD 0)) * generator poly := by
      rw [bitSteps, toPolynomial_bitStep hw]
      ring
    rw [hsplit]
    exact dvd_add (ih _) (dvd_mul_left _ _)

/-- A byte stands in the low bits of the register, which are the high coefficients. -/
theorem toPolynomial_setWidth (hw : 8 ≤ w) (byte : BitVec 8) :
    X ^ 8 * toPolynomial (byte.setWidth w) = X ^ w * toPolynomial byte := by
  have hzero : ∀ i ∈ Finset.range w, i ∉ Finset.range 8 →
      C (coefficient ((byte.setWidth w).getLsbD i)) * X ^ (w - 1 - i) = (0 : (ZMod 2)[X]) := by
    intro i _ hi
    rw [Finset.mem_range, Nat.not_lt] at hi
    rw [BitVec.getLsbD_setWidth, BitVec.getLsbD_of_ge byte i hi, Bool.and_false]
    simp [coefficient]
  rw [toPolynomial, ← Finset.sum_subset (Finset.range_subset_range.mpr hw) hzero, toPolynomial, Finset.mul_sum,
    Finset.mul_sum]
  refine Finset.sum_congr rfl fun i hi => ?_
  rw [Finset.mem_range] at hi
  rw [BitVec.getLsbD_setWidth, decide_eq_true (by omega : i < w), Bool.true_and, mul_left_comm, mul_left_comm (X ^ w),
    ← pow_add, ← pow_add, show 8 + (w - 1 - i) = w + (8 - 1 - i) by omega]

theorem generator_dvd_register (hw : 8 ≤ w) (poly init : BitVec w) (bytes : List UInt8) :
    generator poly ∣ toPolynomial (register poly init bytes) -
      (X ^ (8 * bytes.length) * toPolynomial init + X ^ w * message bytes) := by
  induction bytes using List.reverseRecOn with
  | nil => simp [register, message]
  | append_singleton bytes byte ih =>
    have hregister : register poly init (bytes ++ [byte]) = byteStep poly (register poly init bytes) byte := by
      rw [register_append]
      rfl
    have hmessage : message (bytes ++ [byte]) = X ^ 8 * message bytes + toPolynomial byte.toBitVec := by
      rw [message, List.foldl_append]
      rfl
    have hstep := generator_dvd_bitSteps (by omega) poly 8 (register poly init bytes ^^^ byte.toBitVec.setWidth w)
    rw [toPolynomial_xor, mul_add, toPolynomial_setWidth hw] at hstep
    have hsum := dvd_add hstep (ih.mul_left (X ^ 8))
    rw [hregister, byteStep, hmessage, List.length_append, List.length_singleton]
    convert hsum using 1
    ring

/-- **The register is a remainder**: after a message it is the rest of the division of the message, moved up by the
width of the register, by the generator; the first bits of the message are changed by the initial register. -/
theorem register_eq_modByMonic (hw : 8 ≤ w) (poly init : BitVec w) (bytes : List UInt8) :
    toPolynomial (register poly init bytes) =
      (X ^ (8 * bytes.length) * toPolynomial init + X ^ w * message bytes) %ₘ generator poly := by
  have hself : toPolynomial (register poly init bytes) %ₘ generator poly = toPolynomial (register poly init bytes) := by
    rw [modByMonic_eq_self_iff (monic_generator poly), degree_generator]
    exact degree_toPolynomial_lt _
  rw [← hself]
  exact modByMonic_eq_of_dvd_sub (monic_generator poly) (generator_dvd_register hw poly init bytes)

end Nia.Lib.Crc
