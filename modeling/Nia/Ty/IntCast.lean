import Nia.Ty.IntConst

/-! Casting an integer constant to the width of a primitive.

A cast keeps the low bits of a constant and takes the signedness of the primitive. It is
stated here by what it does to the integer: the cast of `v` at width `w` holds the bits of
`v` modulo `2 ^ w`, with no bit above them, so below 128 bits it denotes that remainder
whatever the sign of the primitive (`castToPrimitiveInt_eq`). -/
namespace Nia.Ty

/-- The low `bits` bits of a `u128`. -/
def integerMask (bits : Nat) : BitVec 128 := if 128 ≤ bits then BitVec.allOnes 128 else (1#128 <<< bits) - 1#128

theorem toNat_integerMask {w : Nat} (hw : w ≤ 128) : (integerMask w).toNat = 2 ^ w - 1 := by
  unfold integerMask
  split
  · have h128 : w = 128 := by omega
    simp [h128]
  · have hlt : 2 ^ w < 2 ^ 128 := Nat.pow_lt_pow_right (by omega) (by omega)
    have hpos : 0 < 2 ^ w := Nat.two_pow_pos w
    have hshift : (1#128 <<< w).toNat = 2 ^ w := by
      rw [BitVec.toNat_shiftLeft, Nat.shiftLeft_eq, show (1#128).toNat = 1 from rfl, Nat.one_mul,
        Nat.mod_eq_of_lt hlt]
    have hone : 1#128 ≤ 1#128 <<< w := by
      rw [BitVec.le_def, hshift]
      exact hpos
    rw [BitVec.toNat_sub_of_le hone, hshift]
    rfl

theorem toNat_and_integerMask {w : Nat} (hw : w ≤ 128) (b : BitVec 128) :
    (b &&& integerMask w).toNat = b.toNat % 2 ^ w := by
  rw [BitVec.toNat_and, toNat_integerMask hw, Nat.and_two_pow_sub_one_eq_mod]

namespace IntConst

variable (c : IntConst)

/-- Casts the value to a primitive integer width, preserving low bits. -/
def castToPrimitiveInt (primitive : PrimitiveTy) (pointerWidth : Nat) : Option IntConst :=
  match primitive.integerBits pointerWidth with
  | none => none
  | some bits =>
    let bits := c.bits &&& integerMask bits
    if primitive.isSignedInteger then some (signedBits bits) else some (unsigned bits)

/-! ### The range of a primitive -/

/-- The integers of one signedness and width. -/
def InRange (signed : Bool) (w : Nat) (v : Int) : Prop :=
  if signed then -2 ^ (w - 1) ≤ v ∧ v < 2 ^ (w - 1) else 0 ≤ v ∧ v < 2 ^ w

/-- What an accepted constant is: an integer in the range of the primitive, which has a width
of 1 to 128 bits. -/
structure Accepted (signed : Bool) (w : Nat) : Prop where
  pos : 1 ≤ w
  le : w ≤ 128
  inRange : InRange signed w c.value

theorem i128Min_le_value : i128Min ≤ c.value := by
  unfold value i128Min
  have hi := BitVec.le_toInt c.bits
  split
  · simpa using hi
  · omega

/-- The unsigned reading of a constant, present when its integer is not negative. -/
theorem unsigned_reading : (if c.signed then c.asI128.bind fun value => if 0 ≤ value then some value.toNat else none
      else some c.bits.toNat) = if 0 ≤ c.value then some c.value.toNat else none := by
  have hle := value_le_cap c
  rw [asI128_eq]
  cases hs : c.signed
  · simp [value, hs]
  · simp only [cap, hs, if_true] at hle
    simp [hle]

theorem fitsPrimitiveInt_iff (primitive : PrimitiveTy) (pointerWidth : Nat) :
    c.fitsPrimitiveInt primitive pointerWidth = true ↔
      ∃ w, primitive.integerBits pointerWidth = some w ∧ Accepted c primitive.isSignedInteger w := by
  unfold fitsPrimitiveInt
  cases hbits : primitive.integerBits pointerWidth with
  | none => simp
  | some w =>
    have hmin := i128Min_le_value c
    have hmax := value_le_cap c
    have hcap : cap c.signed ≤ u128Max := by unfold cap i128Max u128Max; split <;> omega
    simp only [Option.some.injEq, exists_eq_left']
    by_cases hw : 1 ≤ w ∧ w ≤ 128
    · rw [if_neg (not_not_intro hw)]
      cases hsigned : primitive.isSignedInteger
      · rw [if_neg (by simp), unsigned_reading]
        have hrange : Accepted c false w ↔ 0 ≤ c.value ∧ c.value < 2 ^ w :=
          ⟨fun h => h.inRange, fun h => ⟨hw.1, hw.2, h⟩⟩
        rw [hrange]
        by_cases hneg : 0 ≤ c.value
        · obtain ⟨n, hn⟩ := Int.eq_ofNat_of_zero_le hneg
          rw [if_pos hneg, hn]
          have hn128 : n < 2 ^ 128 := by unfold u128Max at hcap; omega
          have hcast : ((n : Int) < 2 ^ w) ↔ n < 2 ^ w := by exact_mod_cast Iff.rfl
          rw [hcast]
          by_cases h128 : w = 128
          · subst h128
            simpa using hn128
          · simp [h128]
        · simp [hneg]
      · rw [if_pos rfl, asI128_eq]
        have hrange : Accepted c true w ↔ -2 ^ (w - 1) ≤ c.value ∧ c.value < 2 ^ (w - 1) :=
          ⟨fun h => h.inRange, fun h => ⟨hw.1, hw.2, h⟩⟩
        rw [hrange]
        have hpow : (2 : Int) ^ (w - 1) ≤ 2 ^ 127 := by gcongr <;> omega
        unfold i128Min at hmin
        unfold i128Max
        by_cases htop : c.value ≤ 2 ^ 127 - 1
        · rw [if_pos htop]
          by_cases h128 : w = 128
          · subst h128
            norm_num at hmin htop ⊢
            omega
          · simp only [beq_eq_false_iff_ne.mpr h128, Bool.false_or, Bool.and_eq_true, decide_eq_true_eq]
            omega
        · rw [if_neg htop]
          simp only [Bool.false_eq_true, false_iff]
          omega
    · rw [if_pos hw]
      refine ⟨fun h => absurd h (by simp), fun h => absurd ⟨h.pos, h.le⟩ hw⟩

/-! ### What a cast denotes -/

theorem toNat_bits : (c.bits.toNat : Int) = c.value % 2 ^ 128 := by
  have hlt := c.bits.isLt
  have hcond := BitVec.toInt_eq_toNat_cond c.bits
  unfold value
  split
  · rw [hcond]
    split <;> omega
  · omega

/-- The bits of a constant below a width are its integer modulo the power of that width. -/
theorem toNat_bits_mod {w : Nat} (hw : w ≤ 128) : c.bits.toNat % 2 ^ w = (c.value % 2 ^ w).toNat := by
  have hdvd : (2 : Int) ^ w ∣ 2 ^ 128 := pow_dvd_pow 2 hw
  have hmod : ((c.bits.toNat % 2 ^ w : Nat) : Int) = c.value % 2 ^ w := by
    push_cast
    rw [toNat_bits, Int.emod_emod_of_dvd _ hdvd]
  rw [← hmod, Int.toNat_natCast]

/-- The constant that holds an integer's low bits. -/
def lowBits (signed : Bool) (w : Nat) (v : Int) : IntConst := ⟨BitVec.ofNat 128 (v % 2 ^ w).toNat, signed⟩

theorem castToPrimitiveInt_eq {primitive : PrimitiveTy} {pointerWidth w : Nat}
    (hbits : primitive.integerBits pointerWidth = some w) (hw : w ≤ 128) :
    c.castToPrimitiveInt primitive pointerWidth = some (lowBits primitive.isSignedInteger w c.value) := by
  have hmask : c.bits &&& integerMask w = BitVec.ofNat 128 (c.value % 2 ^ w).toNat := by
    apply BitVec.eq_of_toNat_eq
    have hlt : (c.bits &&& integerMask w).toNat < 2 ^ 128 := (c.bits &&& integerMask w).isLt
    rw [toNat_and_integerMask hw, toNat_bits_mod c hw] at hlt ⊢
    rw [BitVec.toNat_ofNat, Nat.mod_eq_of_lt hlt]
  unfold castToPrimitiveInt
  rw [hbits]
  dsimp only
  rw [hmask]
  cases primitive.isSignedInteger <;> rfl

section

variable {signed : Bool} {w : Nat} {v : Int}

theorem toNat_lowBits_bits (signed : Bool) (v : Int) (hw : w ≤ 128) :
    ((lowBits signed w v).bits.toNat : Int) = v % 2 ^ w := by
  have hpos : (0 : Int) < 2 ^ w := by positivity
  have hle : (2 : Int) ^ w ≤ 2 ^ 128 := pow_le_pow_right₀ (by norm_num) hw
  have hnonneg := Int.emod_nonneg v hpos.ne'
  have hlt := Int.emod_lt_of_pos v hpos
  simp only [lowBits, BitVec.toNat_ofNat]
  rw [Nat.mod_eq_of_lt (show (v % 2 ^ w).toNat < 2 ^ 128 by omega), Int.toNat_of_nonneg hnonneg]

/-- Below 128 bits the low bits denote the remainder itself: nothing extends the sign. -/
theorem value_lowBits (hw : w < 128) : (lowBits signed w v).value = v % 2 ^ w := by
  have hbits := toNat_lowBits_bits signed v hw.le
  have hpos : (0 : Int) < 2 ^ w := by positivity
  have hle : (2 : Int) ^ w ≤ 2 ^ 127 := pow_le_pow_right₀ (by norm_num) (by omega)
  have hlt := Int.emod_lt_of_pos v hpos
  unfold value
  split
  · rw [BitVec.toInt_eq_toNat_cond, if_pos (by omega), hbits]
  · exact hbits

/-- At 128 bits they denote the integer again. -/
theorem value_lowBits_full (h : InRange signed 128 v) : (lowBits signed 128 v).value = v := by
  have hbits := toNat_lowBits_bits signed v le_rfl
  unfold value
  cases signed with
  | false =>
    obtain ⟨hnonneg, hlt⟩ : 0 ≤ v ∧ v < 2 ^ 128 := h
    simp only [lowBits, Bool.false_eq_true, if_false] at hbits ⊢
    rw [hbits, Int.emod_eq_of_lt hnonneg hlt]
  | true =>
    obtain ⟨hmin, hmax⟩ : -2 ^ 127 ≤ v ∧ v < 2 ^ 127 := h
    simp only [lowBits, if_true] at hbits ⊢
    rw [BitVec.toInt_eq_toNat_cond]
    split <;> omega

/-- The integers whose low bits denote them: all at 128 bits, the others unless negative. -/
theorem value_lowBits_eq_iff (hw : w ≤ 128) (h : InRange signed w v) :
    (lowBits signed w v).value = v ↔ 0 ≤ v ∨ w = 128 := by
  have hpos : (0 : Int) < 2 ^ w := by positivity
  rcases Nat.lt_or_ge w 128 with hlt | hge
  · rw [value_lowBits hlt]
    constructor
    · intro heq
      left
      rw [← heq]
      exact Int.emod_nonneg v hpos.ne'
    · rintro (hnonneg | h128)
      · refine Int.emod_eq_of_lt hnonneg ?_
        have hhalf : (2 : Int) ^ (w - 1) ≤ 2 ^ w := pow_le_pow_right₀ (by norm_num) (by omega)
        unfold InRange at h
        split at h <;> omega
      · omega
  · have h128 : w = 128 := by omega
    subst h128
    exact iff_of_true (value_lowBits_full h) (Or.inr rfl)

/-- The low bits are in the range they were taken for under the same condition. -/
theorem inRange_lowBits_iff (hpos : 1 ≤ w) (hw : w ≤ 128) (h : InRange signed w v) :
    InRange signed w (lowBits signed w v).value ↔ 0 ≤ v ∨ w = 128 := by
  constructor
  · intro hcast
    by_contra hcond
    obtain ⟨hneg, h128⟩ : v < 0 ∧ w ≠ 128 := by simpa using hcond
    rw [value_lowBits (by omega)] at hcast
    have hdouble : (2 : Int) ^ w = 2 * 2 ^ (w - 1) := (mul_pow_sub_one (by omega) 2).symm
    have hhalf : (0 : Int) < 2 ^ (w - 1) := by positivity
    cases signed with
    | false => exact absurd h.1 (by omega)
    | true =>
      obtain ⟨hmin, -⟩ : -2 ^ (w - 1) ≤ v ∧ v < 2 ^ (w - 1) := h
      have hrem : v % 2 ^ w = v + 2 ^ w := by
        rw [← Int.add_emod_right]
        exact Int.emod_eq_of_lt (by omega) (by omega)
      obtain ⟨-, hmax⟩ : -2 ^ (w - 1) ≤ v % 2 ^ w ∧ v % 2 ^ w < 2 ^ (w - 1) := hcast
      omega
  · intro hcond
    rw [(value_lowBits_eq_iff hw h).mpr hcond]
    exact h

/-- Integers of one range are told apart by their low bits. -/
theorem lowBits_inj {v' : Int} (hpos : 1 ≤ w) (hw : w ≤ 128) (h : InRange signed w v)
    (h' : InRange signed w v') : lowBits signed w v = lowBits signed w v' ↔ v = v' := by
  refine ⟨fun heq => ?_, fun heq => by rw [heq]⟩
  have hrem : v % 2 ^ w = v' % 2 ^ w := by
    rw [← toNat_lowBits_bits signed v hw, ← toNat_lowBits_bits signed v' hw, heq]
  have hdvd : (2 : Int) ^ w ∣ v - v' := Int.dvd_of_emod_eq_zero (Int.emod_eq_emod_iff_emod_sub_eq_zero.mp hrem)
  have hdouble : (2 : Int) ^ w = 2 * 2 ^ (w - 1) := (mul_pow_sub_one (by omega) 2).symm
  have hclose : |v - v'| < 2 ^ w := by
    rw [abs_lt]
    unfold InRange at h h'
    cases signed
    · simp only [Bool.false_eq_true, if_false] at h h'
      omega
    · simp only [if_true] at h h'
      omega
  have hzero := Int.eq_zero_of_abs_lt_dvd hdvd hclose
  omega

end

end IntConst

end Nia.Ty
