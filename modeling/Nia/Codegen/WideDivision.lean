import Mathlib

/-! The division helpers emitted for integers that a target cannot divide.

`emit_wide_div_rem` emits one routine for each width, a restoring long division over the bits of the dividend, and
wrappers around it: the unsigned ones call it as it is, the signed ones on absolute values. The routine is followed
block by block; a shift by the width or more is poison, and the block for a zero divisor is unreachable, and both
have no result (`none`).

The partial remainder stays below the divisor, so that twice it and the next bit may need one bit more than the
word has. That bit is tested before the shift (`rem.carry`), and a subtraction that wraps then leaves the right
word (`restore`). -/
namespace Nia.Codegen.WideDivision

open Nat

/-- The widths with helpers; any other is refused. -/
inductive Width where
  | di
  | ti
  deriving DecidableEq, Repr

def Width.bits : Width → Nat
  | .di => 64
  | .ti => 128

/-! ### The emitted routine -/

/-- The basic blocks. -/
inductive Block where
  | entry
  | loop
  | body
  | sub
  | cont
  | done
  | trap
  deriving DecidableEq, Repr

/-- The stack slots, and the values that a block leaves for the blocks it dominates. -/
structure Frame (w : Nat) where
  quotient : BitVec w := 0#w
  remainder : BitVec w := 0#w
  shift : BitVec w := 0#w
  currentShift : BitVec w := 0#w
  nextShift : BitVec w := 0#w
  remNext : BitVec w := 0#w

/-- How a block ends. -/
inductive Terminator (w : Nat) where
  | branch (block : Block) (frame : Frame w)
  | ret (value : BitVec w)

variable {w : Nat}

def constInt (w value : Nat) : BitVec w := BitVec.ofNat w value

/-- `lshr`. -/
def rightShift (value amount : BitVec w) : Option (BitVec w) :=
  if amount.toNat < w then some (value >>> amount) else none

/-- `shl`. -/
def leftShift (value amount : BitVec w) : Option (BitVec w) :=
  if amount.toNat < w then some (value <<< amount) else none

/-- The instructions of a block. -/
def runBlock (a b : BitVec w) (wantRem : Bool) (frame : Frame w) : Block → Option (Terminator w)
  | .entry =>
    let frame := { frame with quotient := 0#w, remainder := 0#w, shift := constInt w w }
    some (.branch (if b = 0#w then .trap else .loop) frame)
  | .trap => none
  | .loop =>
    let currentShift := frame.shift
    some (.branch (if 0#w < currentShift then .body else .done) { frame with currentShift })
  | .body => do
    let nextShift := frame.currentShift - constInt w 1
    let remCarry := (← rightShift frame.remainder (constInt w (w - 1))) != 0#w
    let remShifted ← leftShift frame.remainder (constInt w 1)
    let bit := (← rightShift a nextShift) &&& constInt w 1
    let remNext := remShifted ||| bit
    let canSub := remCarry || decide (b ≤ remNext)
    some (.branch (if canSub then .sub else .cont)
      { frame with shift := nextShift, remainder := remNext, nextShift, remNext })
  | .sub => do
    let remSub := frame.remNext - b
    let quotientBit ← leftShift (constInt w 1) frame.nextShift
    some (.branch .cont { frame with remainder := remSub, quotient := frame.quotient ||| quotientBit })
  | .cont => some (.branch .loop frame)
  | .done => some (.ret (if wantRem then frame.remainder else frame.quotient))

/-- Runs from a block to the return, over so many blocks. -/
def run (a b : BitVec w) (wantRem : Bool) : Nat → Block → Frame w → Option (BitVec w)
  | 0, _, _ => none
  | fuel + 1, block, frame => do
    match ← runBlock a b wantRem frame block with
    | .branch next frame => run a b wantRem fuel next frame
    | .ret value => some value

/-- `__nia_udivmoddi4` and `__nia_udivmodti4`, and the same routine under the signed names. A round of the loop has four
blocks. -/
def divmod (a b : BitVec w) (wantRem : Bool) : Option (BitVec w) := run a b wantRem (4 * w + 3) .entry {}

/-! ### The wrappers -/

/-- `emit_wide_builtin_wrapper` for unsigned operands. -/
def unsignedWrapper (a b : BitVec w) (wantRem : Bool) : Option (BitVec w) := divmod a b wantRem

/-- `emit_signed_wide_builtin_wrapper`. -/
def signedWrapper (a b : BitVec w) (wantRem : Bool) : Option (BitVec w) := do
  let aNeg := a.slt 0#w
  let bNeg := b.slt 0#w
  let absA := if aNeg then -a else a
  let absB := if bNeg then -b else b
  let unsigned ← divmod absA absB wantRem
  let resultNeg := if wantRem then aNeg else xor aNeg bNeg
  some (if resultNeg then -unsigned else unsigned)

/-- `__udivdi3` and `__udivti3`. -/
def udiv (width : Width) (a b : BitVec width.bits) : Option (BitVec width.bits) := unsignedWrapper a b false

/-- `__umoddi3` and `__umodti3`. -/
def umod (width : Width) (a b : BitVec width.bits) : Option (BitVec width.bits) := unsignedWrapper a b true

/-- `__divdi3` and `__divti3`. -/
def div (width : Width) (a b : BitVec width.bits) : Option (BitVec width.bits) := signedWrapper a b false

/-- `__moddi3` and `__modti3`. -/
def mod (width : Width) (a b : BitVec width.bits) : Option (BitVec width.bits) := signedWrapper a b true

/-! ### One round -/

/-- The state before the bit `count - 1` of the dividend is taken in. -/
structure Divided (a b : BitVec w) (count : Nat) (frame : Frame w) : Prop where
  shift : frame.shift.toNat = count
  remainder : frame.remainder.toNat = a.toNat / 2 ^ count % b.toNat
  quotient : frame.quotient.toNat = a.toNat / 2 ^ count / b.toNat * 2 ^ count

variable {a b : BitVec w} {wantRem : Bool} {frame : Frame w}

theorem run_branch {block next : Block} {frame' : Frame w}
    (h : runBlock a b wantRem frame block = some (.branch next frame')) (fuel : Nat) :
    run a b wantRem (fuel + 1) block frame = run a b wantRem fuel next frame' := by
  rw [run, h]
  rfl

theorem run_cont (a b : BitVec w) (wantRem : Bool) (fuel : Nat) (frame : Frame w) :
    run a b wantRem (fuel + 1) .cont frame = run a b wantRem fuel .loop frame := run_branch rfl fuel

/-- Twice the partial remainder and the next bit, in a word: the words of a round compare and subtract as the
numbers do. -/
theorem restore (hw : 0 < w) {remainder divisor bit : Nat} (hdivisor : divisor < 2 ^ w) (hrem : remainder < divisor)
    (hbit : bit < 2) :
    (2 ^ (w - 1) ≤ remainder ∨ divisor ≤ (2 * remainder + bit) % 2 ^ w ↔ divisor ≤ 2 * remainder + bit) ∧
    (divisor ≤ 2 * remainder + bit →
      (2 ^ w - divisor + (2 * remainder + bit) % 2 ^ w) % 2 ^ w = 2 * remainder + bit - divisor) ∧
    (¬divisor ≤ 2 * remainder + bit → (2 * remainder + bit) % 2 ^ w = 2 * remainder + bit) := by
  have hhalf : 2 ^ w = 2 * 2 ^ (w - 1) := by
    rw [← Nat.pow_succ', Nat.succ_eq_add_one, Nat.sub_add_cancel hw]
  by_cases hfits : 2 * remainder + bit < 2 ^ w
  · rw [Nat.mod_eq_of_lt hfits]
    refine ⟨by omega, fun hle => ?_, fun _ => rfl⟩
    rw [mod_eq_sub_mod (by omega), Nat.mod_eq_of_lt (by omega)]
    omega
  · have hmod : (2 * remainder + bit) % 2 ^ w = 2 * remainder + bit - 2 ^ w := by
      rw [mod_eq_sub_mod (by omega), Nat.mod_eq_of_lt (by omega)]
    rw [hmod]
    refine ⟨by omega, fun hle => ?_, by omega⟩
    rw [Nat.mod_eq_of_lt (by omega)]
    omega

/-- A dividend with one more bit taken in. -/
theorem div_two_pow_succ (n count : Nat) : n / 2 ^ count = 2 * (n / 2 ^ (count + 1)) + n / 2 ^ count % 2 := by
  rw [Nat.pow_succ, ← Nat.div_div_eq_div_mul]
  exact (div_add_mod (n / 2 ^ count) 2).symm

theorem toNat_constInt {value : Nat} (h : value < 2 ^ w) : (constInt w value).toNat = value := by
  rw [constInt, BitVec.toNat_ofNat, Nat.mod_eq_of_lt h]

theorem one_lt_two_pow (hw : 0 < w) : 1 < 2 ^ w := Nat.one_lt_two_pow (Nat.ne_of_gt hw)

/-- The shifted remainder leaves room for the next bit. -/
theorem toNat_remNext (hw : 0 < w) (remainder bit : BitVec w) (hbit : bit.toNat < 2) :
    (remainder <<< constInt w 1 ||| bit).toNat = (2 * remainder.toNat + bit.toNat) % 2 ^ w := by
  have hhalf : 2 ^ w = 2 * 2 ^ (w - 1) := by
    rw [← Nat.pow_succ', Nat.succ_eq_add_one, Nat.sub_add_cancel hw]
  have hshift : (remainder <<< constInt w 1).toNat = (remainder.toNat % 2 ^ (w - 1)) <<< 1 := by
    rw [BitVec.shiftLeft_eq', BitVec.toNat_shiftLeft, toNat_constInt (one_lt_two_pow hw), Nat.shiftLeft_eq,
      Nat.shiftLeft_eq, hhalf, mul_comm, pow_one, mul_mod_mul_left, mul_comm]
  rw [BitVec.toNat_or, hshift, ← Nat.shiftLeft_add_eq_or_of_lt hbit, Nat.shiftLeft_eq, hhalf, mod_mul]
  have hdiv : (2 * remainder.toNat + bit.toNat) / 2 = remainder.toNat := by omega
  have hmod : (2 * remainder.toNat + bit.toNat) % 2 = bit.toNat := by omega
  rw [hdiv, hmod]
  ring

theorem toNat_bit (hw : 0 < w) (a amount : BitVec w) :
    (a >>> amount &&& constInt w 1).toNat = a.toNat / 2 ^ amount.toNat % 2 := by
  rw [BitVec.toNat_and, toNat_constInt (one_lt_two_pow hw), BitVec.ushiftRight_eq', BitVec.toNat_ushiftRight,
    and_one_is_mod, Nat.shiftRight_eq_div_pow]

/-- The quotient's bits below the last round are clear. -/
theorem toNat_quotientNext {count : Nat} (hcount : count < w) (quotient amount : BitVec w) (q : Nat)
    (hquotient : quotient.toNat = q * 2 ^ (count + 1)) (hamount : amount.toNat = count) :
    (quotient ||| constInt w 1 <<< amount).toNat = (2 * q + 1) * 2 ^ count := by
  have hbit : (constInt w 1 <<< amount).toNat = 2 ^ count := by
    rw [BitVec.shiftLeft_eq', BitVec.toNat_shiftLeft, toNat_constInt (one_lt_two_pow (zero_lt_of_lt hcount)),
      hamount, Nat.shiftLeft_eq, Nat.one_mul, Nat.mod_eq_of_lt (Nat.pow_lt_pow_right (by decide) hcount)]
  rw [BitVec.toNat_or, hbit, hquotient, ← Nat.shiftLeft_eq,
    ← Nat.shiftLeft_add_eq_or_of_lt (Nat.pow_lt_pow_right (by decide) (Nat.lt_succ_self count)), Nat.shiftLeft_eq,
    Nat.pow_succ]
  ring

/-- The top bit of the partial remainder. -/
theorem remCarry_iff (remainder : BitVec w) :
    remainder >>> constInt w (w - 1) ≠ 0#w ↔ 2 ^ (w - 1) ≤ remainder.toNat := by
  have hamount : w - 1 < 2 ^ w := Nat.lt_of_le_of_lt (Nat.sub_le w 1) Nat.lt_two_pow_self
  rw [Ne, ← BitVec.toNat_inj, BitVec.ushiftRight_eq', BitVec.toNat_ushiftRight, toNat_constInt hamount,
    Nat.shiftRight_eq_div_pow, BitVec.toNat_zero, Nat.div_eq_zero_iff]
  have := Nat.two_pow_pos (w - 1)
  omega

/-- The blocks of a round up to the branch on `cansub`. -/
theorem run_body (hone : 1 < w) (a b : BitVec w) (wantRem : Bool) {count : Nat} (hcount : count < w)
    (hshift : frame.shift.toNat = count + 1) : ∃ nextShift remNext : BitVec w, nextShift.toNat = count ∧
      remNext.toNat = (2 * frame.remainder.toNat + a.toNat / 2 ^ count % 2) % 2 ^ w ∧
      ∀ next, (next = if 2 ^ (w - 1) ≤ frame.remainder.toNat ∨ b.toNat ≤ remNext.toNat then Block.sub else .cont) →
      ∀ fuel, run a b wantRem (fuel + 2) .loop frame = run a b wantRem fuel next
        { quotient := frame.quotient, remainder := remNext, shift := nextShift, currentShift := frame.shift,
          nextShift, remNext } := by
  have hw : 0 < w := zero_lt_of_lt hcount
  have hconst := toNat_constInt (one_lt_two_pow hw)
  have hnext : (frame.shift - constInt w 1).toNat = count := by
    rw [BitVec.toNat_sub, hconst, hshift, Nat.add_comm, Nat.add_assoc, Nat.add_sub_cancel' (one_lt_two_pow hw).le,
      add_mod_right, Nat.mod_eq_of_lt (lt_trans hcount Nat.lt_two_pow_self)]
  have hbit : (a >>> (frame.shift - constInt w 1) &&& constInt w 1).toNat = a.toNat / 2 ^ count % 2 := by
    rw [toNat_bit hw, hnext]
  refine ⟨frame.shift - constInt w 1,
    frame.remainder <<< constInt w 1 ||| (a >>> (frame.shift - constInt w 1) &&& constInt w 1), hnext, ?_, ?_⟩
  · rw [toNat_remNext hw _ _ (hbit ▸ mod_lt _ (by decide)), hbit]
  · rintro next rfl fuel
    have hpos : 0#w < frame.shift := by
      rw [BitVec.lt_def, hshift]
      exact succ_pos count
    have hloop : runBlock a b wantRem frame .loop =
        some (.branch .body { frame with currentShift := frame.shift }) := by
      simp only [runBlock, if_pos hpos]
    refine (run_branch hloop (fuel + 1)).trans (run_branch ?_ fuel)
    have hcarry := remCarry_iff frame.remainder
    have hamount : (constInt w (w - 1)).toNat < w := by
      rw [toNat_constInt (Nat.lt_of_le_of_lt (Nat.sub_le w 1) Nat.lt_two_pow_self)]
      omega
    simp only [runBlock, rightShift, leftShift, hnext, hconst, hcount, hamount, hone, if_true, Option.bind_eq_bind,
      Option.bind_some, Bool.or_eq_true, bne_iff_ne, decide_eq_true_eq, hcarry, BitVec.le_def]

/-- One more bit of the dividend. -/
theorem divided_succ (hone : 1 < w) (wantRem : Bool) {count : Nat} (hb : b ≠ 0#w)
    (hcount : count < w) (h : Divided a b (count + 1) frame) :
    ∃ frame', Divided a b count frame' ∧ ∃ blocks ≤ 4, ∀ fuel,
      run a b wantRem (fuel + blocks) .loop frame = run a b wantRem fuel .loop frame' := by
  have hw : 0 < w := zero_lt_of_lt hcount
  have hbpos : 0 < b.toNat := by
    rw [pos_iff_ne_zero]
    exact fun hzero => hb (BitVec.eq_of_toNat_eq hzero)
  obtain ⟨nextShift, remNext, hnext, hrem, hrun⟩ := run_body hone a b wantRem hcount h.shift
  -- The dividend taken in so far, divided by the divisor.
  generalize hq : a.toNat / 2 ^ (count + 1) / b.toNat = q
  generalize hr : a.toNat / 2 ^ (count + 1) % b.toNat = r
  generalize hbit : a.toNat / 2 ^ count % 2 = bit at hrem
  have hr' : r < b.toNat := hr ▸ mod_lt _ hbpos
  have hbit' : bit < 2 := hbit ▸ mod_lt _ (by decide)
  have htaken : a.toNat / 2 ^ count = b.toNat * (2 * q) + (2 * r + bit) := by
    rw [div_two_pow_succ, hbit, ← div_add_mod (a.toNat / 2 ^ (count + 1)) b.toNat, hq, hr]
    ring
  have hremainder : frame.remainder.toNat = r := h.remainder.trans hr
  have hquotient : frame.quotient.toNat = q * 2 ^ (count + 1) := by rw [h.quotient, hq]
  rw [hremainder] at hrem hrun
  obtain ⟨hfits, hsub, hkeep⟩ := restore hw b.isLt hr' hbit'
  rw [← hrem] at hfits hsub hkeep
  by_cases hge : b.toNat ≤ 2 * r + bit
  · have hbody := hrun .sub (if_pos (hfits.mpr hge)).symm
    have hamount : nextShift.toNat < w := hnext ▸ hcount
    have hdivided : a.toNat / 2 ^ count = b.toNat * (2 * q + 1) + (2 * r + bit - b.toNat) := by
      rw [htaken, mul_add, Nat.mul_one]
      omega
    obtain ⟨hdiv, hmod⟩ := (Nat.div_mod_unique hbpos).mpr
      ⟨(Nat.add_comm _ _).trans hdivided.symm, show 2 * r + bit - b.toNat < b.toNat by omega⟩
    refine ⟨⟨frame.quotient ||| constInt w 1 <<< nextShift, remNext - b, nextShift, frame.shift, nextShift, remNext⟩,
      ⟨hnext, ?_, ?_⟩, 4, Nat.le_refl 4, fun fuel => (hbody (fuel + 2)).trans ?_⟩
    · rw [hmod, ← hsub hge]
      exact BitVec.toNat_sub remNext b
    · rw [hdiv]
      exact toNat_quotientNext hcount _ _ q hquotient hnext
    · refine (run_branch ?_ (fuel + 1)).trans (run_cont a b wantRem fuel _)
      simp only [runBlock, leftShift, if_pos hamount]
      rfl
  · have hbody := hrun .cont (if_neg fun hany => hge (hfits.mp hany)).symm
    obtain ⟨hdiv, hmod⟩ := (Nat.div_mod_unique hbpos).mpr
      ⟨(Nat.add_comm _ _).trans htaken.symm, not_le.mp hge⟩
    refine ⟨_, ⟨hnext, ?_, ?_⟩, 3, by decide, fun fuel => (hbody (fuel + 1)).trans (run_cont a b wantRem fuel _)⟩
    · rw [hmod]
      exact hkeep hge
    · rw [hdiv, hquotient, Nat.pow_succ]
      ring

/-! ### The routine -/

theorem run_loop (hone : 1 < w) (hb : b ≠ 0#w) {count : Nat} (hcount : count ≤ w) (h : Divided a b count frame)
    {fuel : Nat} (hfuel : 4 * count + 2 ≤ fuel) :
    run a b wantRem fuel .loop frame = some (if wantRem then a % b else a / b) := by
  induction count generalizing frame fuel with
  | zero =>
    have hnone : ¬0#w < frame.shift := by
      rw [BitVec.lt_def, h.shift]
      exact lt_irrefl 0
    have hloop : runBlock a b wantRem frame .loop =
        some (.branch .done { frame with currentShift := frame.shift }) := by
      simp only [runBlock, if_neg hnone]
    obtain ⟨fuel, rfl⟩ : ∃ less, fuel = less + 2 := ⟨fuel - 2, by omega⟩
    rw [run_branch hloop, run]
    have hrem : frame.remainder = a % b := by
      apply BitVec.eq_of_toNat_eq
      rw [h.remainder, Nat.pow_zero, Nat.div_one, BitVec.toNat_umod]
    have hquo : frame.quotient = a / b := by
      apply BitVec.eq_of_toNat_eq
      rw [h.quotient, Nat.pow_zero, Nat.div_one, Nat.mul_one, BitVec.toNat_udiv]
    rw [← hrem, ← hquo]
    rfl
  | succ count ih =>
    obtain ⟨frame', hnext, blocks, hblocks, hrun⟩ := divided_succ hone wantRem hb hcount h
    obtain ⟨fuel, rfl⟩ : ∃ less, fuel = less + blocks := ⟨fuel - blocks, by omega⟩
    rw [hrun]
    exact ih (le_of_succ_le hcount) hnext (by omega)

theorem divmod_eq (hone : 1 < w) (a : BitVec w) (hb : b ≠ 0#w) (wantRem : Bool) :
    divmod a b wantRem = some (if wantRem then a % b else a / b) := by
  have hentry : runBlock a b wantRem {} .entry = some (.branch .loop { shift := constInt w w }) := by
    simp only [runBlock, if_neg hb]
  rw [divmod, run_branch hentry]
  have hzero : a.toNat / 2 ^ w = 0 := div_eq_of_lt a.isLt
  refine run_loop hone hb (le_refl w) ⟨toNat_constInt Nat.lt_two_pow_self, ?_, ?_⟩ (Nat.le_refl _)
  · rw [hzero, zero_mod]
    exact BitVec.toNat_zero
  · rw [hzero, Nat.zero_div, Nat.zero_mul]
    exact BitVec.toNat_zero

/-- The absolute values, and the signs put back. -/
theorem signedWrapper_eq (hone : 1 < w) (a : BitVec w) (hb : b ≠ 0#w) (wantRem : Bool) :
    signedWrapper a b wantRem = some (if wantRem then a.srem b else a.sdiv b) := by
  have hsign : ∀ x : BitVec w, x.slt 0#w = x.msb := fun x => BitVec.slt_zero_eq_msb
  have hneg : -b ≠ 0#w := fun h => hb (BitVec.neg_eq_zero_iff.mp h)
  simp only [signedWrapper, hsign, BitVec.sdiv_eq, BitVec.srem_eq]
  cases ha : a.msb <;> cases hb' : b.msb <;>
    simp only [if_true, if_false, Bool.false_eq_true, divmod_eq hone _ hb, divmod_eq hone _ hneg] <;>
    cases wantRem <;> rfl

/-- **The emitted helpers are exact at both widths: for every dividend and every non-zero divisor the unsigned ones
return the quotient and the remainder, and the signed ones return the quotient truncated towards zero, wherever it
is representable, and the remainder with the sign of the dividend.** -/
theorem helpers_exact (width : Width) (a b : BitVec width.bits) (hb : b ≠ 0) :
    (∃ q r, udiv width a b = some q ∧ umod width a b = some r ∧
      a.toNat = q.toNat * b.toNat + r.toNat ∧ r.toNat < b.toNat) ∧
    (∃ q, div width a b = some q ∧
      (a.toInt.tdiv b.toInt < 2 ^ (width.bits - 1) → q.toInt = a.toInt.tdiv b.toInt)) ∧
    ∃ r, mod width a b = some r ∧ r.toInt = a.toInt.tmod b.toInt := by
  have hone : 1 < width.bits := by cases width <;> decide
  have hbpos : 0 < b.toNat := by
    rw [pos_iff_ne_zero]
    exact fun hzero => hb (BitVec.eq_of_toNat_eq hzero)
  refine ⟨⟨a / b, a % b, divmod_eq hone a hb false, divmod_eq hone a hb true, ?_, ?_⟩,
    ⟨a.sdiv b, signedWrapper_eq hone a hb false, fun hfits => ?_⟩,
    a.srem b, signedWrapper_eq hone a hb true, BitVec.toInt_srem a b⟩
  · rw [BitVec.toNat_udiv, BitVec.toNat_umod, mul_comm]
    exact (div_add_mod a.toNat b.toNat).symm
  · rw [BitVec.toNat_umod]
    exact mod_lt _ hbpos
  · refine BitVec.toInt_sdiv_of_ne_or_ne a b (Decidable.not_and_iff_not_or_not.mp ?_)
    rintro ⟨rfl, rfl⟩
    -- The one quotient that no word holds.
    cases width <;> exact absurd hfits (by decide)

/-- The least dividend at the larger width, by minus three. -/
theorem helpers_exact_least :
    (∃ q r, udiv .ti (BitVec.intMin 128) (-3) = some q ∧ umod .ti (BitVec.intMin 128) (-3) = some r ∧
      (BitVec.intMin 128).toNat = q.toNat * (-3 : BitVec 128).toNat + r.toNat ∧
      r.toNat < (-3 : BitVec 128).toNat) ∧
    (∃ q, div .ti (BitVec.intMin 128) (-3) = some q ∧
      ((BitVec.intMin 128).toInt.tdiv (-3 : BitVec 128).toInt < 2 ^ (128 - 1) →
        q.toInt = (BitVec.intMin 128).toInt.tdiv (-3 : BitVec 128).toInt)) ∧
    ∃ r, mod .ti (BitVec.intMin 128) (-3) = some r ∧
      r.toInt = (BitVec.intMin 128).toInt.tmod (-3 : BitVec 128).toInt :=
  helpers_exact .ti (BitVec.intMin 128) (-3) (by decide)

end Nia.Codegen.WideDivision
