import Nia.Hash.BlockBuffer
import Nia.Hash.SipReference
import Nia.Lib.Trapping

/-! The keyed hash `SipHash`.

The code emulates wrapping sums and rotations in 128 bits, gets its blocks from the shared buffer and keeps the length
only modulo 256. Whatever the calls, each `finishValue` returns the hash of all bytes that `update` has had so far
(`calls_answer`). `none` is a trap: a sum that does not fit, or a shift that loses bits or has too large a count. -/
namespace Nia.Hash

open Lib.Slices SipReference BitVec Lib.Trapping

/-! ### The code -/

def shl {w : Nat} (value : BitVec w) (count : Nat) : Option (BitVec w) :=
  if count < w ∧ value.toNat <<< count < 2 ^ w then some (value <<< count) else none

def shr {w : Nat} (value : BitVec w) (count : Nat) : Option (BitVec w) :=
  if count < w then some (value >>> count) else none

namespace SipHash

def initState (key0 key1 : BitVec 64) : State :=
  ⟨key0 ^^^ 0x736f6d6570736575, key1 ^^^ 0x646f72616e646f6d, key0 ^^^ 0x6c7967656e657261, key1 ^^^ 0x7465646279746573⟩

def read8 (bytes : Bytes) : Option (BitVec 64) := do
  return (← bytes[0]?).toBitVec.setWidth 64
    ||| (← shl ((← bytes[1]?).toBitVec.setWidth 64) 8)
    ||| (← shl ((← bytes[2]?).toBitVec.setWidth 64) 16)
    ||| (← shl ((← bytes[3]?).toBitVec.setWidth 64) 24)
    ||| (← shl ((← bytes[4]?).toBitVec.setWidth 64) 32)
    ||| (← shl ((← bytes[5]?).toBitVec.setWidth 64) 40)
    ||| (← shl ((← bytes[6]?).toBitVec.setWidth 64) 48)
    ||| (← shl ((← bytes[7]?).toBitVec.setWidth 64) 56)

def addWrap64 (left right : BitVec 64) : Option (BitVec 64) := do
  let sum ← word 128 (left.toNat + right.toNat)
  return BitVec.ofNat 64 sum

/-- `(((value as u128) << left) as u64) | (value >> right)`. -/
def rotate (value : BitVec 64) (left right : Nat) : Option (BitVec 64) := do
  return (← shl (value.setWidth 128) left).setWidth 64 ||| (← shr value right)

def round13 (s : State) : Option State := do
  let ⟨v0, v1, v2, v3⟩ := s
  let v0 ← addWrap64 v0 v1
  let v1 ← rotate v1 13 51
  let v1 := v1 ^^^ v0
  let v0 ← rotate v0 32 32
  let v2 ← addWrap64 v2 v3
  let v3 ← rotate v3 16 48
  let v3 := v3 ^^^ v2
  let v0 ← addWrap64 v0 v3
  let v3 ← rotate v3 21 43
  let v3 := v3 ^^^ v0
  let v2 ← addWrap64 v2 v1
  let v1 ← rotate v1 17 47
  let v1 := v1 ^^^ v2
  let v2 ← rotate v2 32 32
  return ⟨v0, v1, v2, v3⟩

/-- `for _ in 0..rounds`. -/
def rounds (count : Nat) (s : State) : Option State := (List.range count).foldlM (fun s _ => round13 s) s

def compress (count : Nat) (s : State) (word : BitVec 64) : Option State := do
  let s ← rounds count { s with v3 := s.v3 ^^^ word }
  return { s with v0 := s.v0 ^^^ word }

/-- A round of the loop over the tail. -/
def orByte (pointer : PointerWidth) (tail : Bytes) (last : BitVec 64) (index : Nat) : Option (BitVec 64) := do
  let byte ← tail[index]?
  let count ← word pointer.bits (index * 8)
  return last ||| (← shl (byte.toBitVec.setWidth 64) count)

def finish (pointer : PointerWidth) (compressRounds finalRounds : Nat) (s : State) (totalLen : Nat)
    (tail : Bytes) : Option (BitVec 64) := do
  let top ← shl (BitVec.ofNat 128 totalLen) 56
  let last ← (List.range tail.length).foldlM (orByte pointer tail) (top.setWidth 64)
  let s ← compress compressRounds s last
  let s ← rounds finalRounds { s with v2 := s.v2 ^^^ 0xff }
  return s.v0 ^^^ s.v1 ^^^ s.v2 ^^^ s.v3

end SipHash

/-- `SipHash[C, D]`. -/
structure SipHash (C D : Nat) where
  v : State
  totalLen : Nat
  buffer : BlockBuffer 8

namespace SipHash

variable {C D : Nat}

def init (C D : Nat) (key0 key1 : BitVec 64) : Option (SipHash C D) := do
  return { v := initState key0 key1, totalLen := 0, buffer := ← BlockBuffer.init 8 }

def update (pointer : PointerWidth) (bytes : Bytes) : Lib.Trapping.Code (SipHash C D) Unit := fun self => do
  let totalLen ← word pointer.bits (self.totalLen + bytes.length % 256)
  let (buffer, v) ← self.buffer.update (fun v block => do compress C v (← read8 block)) self.v bytes
  return ((), { v, totalLen := totalLen % 256, buffer })

def finishValue (pointer : PointerWidth) : Lib.Trapping.Code (SipHash C D) (BitVec 64) := fun self => do
  let value ← finish pointer C D self.v self.totalLen (← self.buffer.pending)
  return (value, self)

/-- A call of a hasher's user. -/
inductive Call where
  | update (bytes : Bytes)
  | finishValue

/-- The values that some calls return. -/
def calls (pointer : PointerWidth) : List Call → Lib.Trapping.Code (SipHash C D) (List (BitVec 64))
  | [] => pure []
  | .update bytes :: rest => do
    update pointer bytes
    calls pointer rest
  | .finishValue :: rest => do
    let value ← finishValue pointer
    return value :: (← calls pointer rest)

/-! ### Words -/

theorem shl_of_lt {w count : Nat} {value : BitVec w} (hcount : count < w) (hbits : value.toNat * 2 ^ count < 2 ^ w) :
    shl value count = some (value <<< count) := if_pos ⟨hcount, by rwa [Nat.shiftLeft_eq]⟩

theorem shl_byte (byte : UInt8) {count : Nat} (hcount : count ≤ 56) :
    shl (byte.toBitVec.setWidth 64) count = some (byte.toBitVec.setWidth 64 <<< count) := by
  have hbyte : (byte.toBitVec.setWidth 64).toNat < 2 ^ 8 := by
    rw [toNat_setWidth_of_le (by decide)]
    exact byte.toBitVec.isLt
  refine shl_of_lt (by omega) ?_
  calc (byte.toBitVec.setWidth 64).toNat * 2 ^ count
      < 2 ^ 8 * 2 ^ count := Nat.mul_lt_mul_of_pos_right hbyte (Nat.two_pow_pos count)
    _ = 2 ^ (8 + count) := (Nat.pow_add 2 8 count).symm
    _ ≤ 2 ^ 64 := Nat.pow_le_pow_right (by decide) (by omega)

theorem read8_eq {bytes : Bytes} (hlength : bytes.length = 8) : read8 bytes = some (littleEndian bytes) := by
  match bytes, hlength with
  | [b0, b1, b2, b3, b4, b5, b6, b7], _ =>
    have hbyte (byte : UInt8) (count : Nat) (hcount : count ≤ 56) := shl_byte byte hcount
    simp [read8, littleEndian, hbyte, BitVec.shiftLeft_or_distrib, ← BitVec.shiftLeft_add, BitVec.or_assoc]

theorem addWrap64_eq (left right : BitVec 64) : addWrap64 left right = some (left + right) := by
  have hsum : left.toNat + right.toNat < 2 ^ 128 := by
    have := left.isLt
    have := right.isLt
    omega
  rw [addWrap64, some_bind (word_of_lt hsum)]
  refine congrArg some (eq_of_toNat_eq ?_)
  rw [toNat_ofNat, toNat_add]

theorem rotate_eq (value : BitVec 64) {left right : Nat} (hleft : 0 < left) (hright : 0 < right)
    (hsum : left + right = 64) : rotate value left right = some (value.rotateLeft left) := by
  have hwide : (value.setWidth 128).toNat * 2 ^ left < 2 ^ 128 := by
    rw [toNat_setWidth_of_le (by decide)]
    calc value.toNat * 2 ^ left
        < 2 ^ 64 * 2 ^ left := Nat.mul_lt_mul_of_pos_right value.isLt (Nat.two_pow_pos left)
      _ = 2 ^ (64 + left) := (Nat.pow_add 2 64 left).symm
      _ ≤ 2 ^ 128 := Nat.pow_le_pow_right (by decide) (by omega)
  have hlow : (value.setWidth 128 <<< left).setWidth 64 = value <<< left := by
    refine eq_of_getLsbD_eq fun i hi => ?_
    rw [getLsbD_setWidth, getLsbD_shiftLeft, getLsbD_shiftLeft, getLsbD_setWidth]
    simp only [show i < 128 by omega, show i - left < 128 by omega, hi, decide_true, Bool.true_and]
  have hshr : shr value right = some (value >>> right) := if_pos (by omega)
  rw [rotate, some_bind (shl_of_lt (by omega) hwide), some_bind hshr, hlow,
    rotateLeft_def, Nat.mod_eq_of_lt (by omega), show 64 - left = right by omega]
  rfl

theorem round13_eq (s : State) : round13 s = some (sipRound s) := by
  have hrotate (value : BitVec 64) (left right : Nat) (h : 0 < left ∧ 0 < right ∧ left + right = 64) :=
    rotate_eq value h.1 h.2.1 h.2.2
  obtain ⟨v0, v1, v2, v3⟩ := s
  simp only [round13, addWrap64_eq, hrotate _ 13 51 (by decide), hrotate _ 32 32 (by decide),
    hrotate _ 16 48 (by decide), hrotate _ 21 43 (by decide), hrotate _ 17 47 (by decide), Option.bind_eq_bind,
    Option.bind_some]
  rfl

theorem rounds_eq (count : Nat) (s : State) : rounds count s = some (sipRound^[count] s) := by
  unfold rounds
  induction count with
  | zero => rfl
  | succ count ih =>
    rw [List.range_succ, List.foldlM_append, some_bind ih, Function.iterate_succ_apply', List.foldlM_cons,
      some_bind (round13_eq _)]
    rfl

theorem compress_eq (count : Nat) (s : State) (word : BitVec 64) :
    compress count s word = some (SipReference.compress count s word) := by
  rw [compress, some_bind (rounds_eq count _)]
  rfl

/-! ### The last word -/

variable (pointer : PointerWidth)

theorem orBytes_eq {tail : Bytes} (htail : tail.length < 8) (top : BitVec 64) :
    (List.range tail.length).foldlM (orByte pointer tail) top = some (top ||| littleEndian tail) := by
  obtain ⟨last, hloop, hlast⟩ := foldlM_range_of_step (f := orByte pointer tail) (s := top)
    (P := fun index last => last = top ||| littleEndian (tail.take index)) tail.length
    (by simp [littleEndian]) fun index hindex last hlast => by
      have hcount : index * 8 < 2 ^ pointer.bits := by
        have hbits : 2 ^ 32 ≤ 2 ^ pointer.bits := by cases pointer <;> decide
        omega
      refine ⟨last ||| tail[index].toBitVec.setWidth 64 <<< (index * 8), ?_, ?_⟩
      · rw [orByte, some_bind (List.getElem?_eq_getElem hindex),
          some_bind (word_of_lt hcount), some_bind (shl_byte _ (by omega))]
        rfl
      · rw [List.take_succ_eq_append_getElem hindex, littleEndian_append, littleEndian_singleton,
          List.length_take_of_le (Nat.le_of_lt hindex), hlast, BitVec.or_assoc, Nat.mul_comm]
  rw [List.take_length] at hlast
  rw [hloop, hlast]

theorem lastWord_eq {tail : Bytes} (htail : tail.length < 8) {totalLen : Nat} (htotal : totalLen < 256) :
    (BitVec.ofNat 128 totalLen <<< 56).setWidth 64 ||| littleEndian tail =
      littleEndian (tail ++ List.replicate (7 - tail.length) 0 ++ [UInt8.ofNat totalLen]) := by
  have htop : (BitVec.ofNat 128 totalLen <<< 56).setWidth 64 = littleEndian [UInt8.ofNat totalLen] <<< 56 := by
    have hbyte : (UInt8.ofNat totalLen).toBitVec.toNat = totalLen := by simp [Nat.mod_eq_of_lt htotal]
    rw [littleEndian_singleton]
    refine eq_of_toNat_eq ?_
    simp only [toNat_setWidth, toNat_shiftLeft, toNat_ofNat, hbyte, Nat.shiftLeft_eq]
    omega
  rw [littleEndian_append, littleEndian_append, littleEndian_replicate, List.length_append, List.length_replicate,
    show 8 * (tail.length + (7 - tail.length)) = 56 by omega, zero_shiftLeft, or_zero, htop,
    BitVec.or_comm]

theorem finish_eq (s : State) {totalLen : Nat} (htotal : totalLen < 256) {tail : Bytes}
    (htail : tail.length < 8) {last : SipReference.State} (hlast : last = SipReference.compress C s
      (littleEndian (tail ++ List.replicate (7 - tail.length) 0 ++ [UInt8.ofNat totalLen]))) :
    finish pointer C D s totalLen tail = some
      (let s := sipRound^[D] { last with v2 := last.v2 ^^^ 0xff }
      s.v0 ^^^ s.v1 ^^^ s.v2 ^^^ s.v3) := by
  have htop : (BitVec.ofNat 128 totalLen).toNat * 2 ^ 56 < 2 ^ 128 := by
    rw [toNat_ofNat, Nat.mod_eq_of_lt (by omega)]
    omega
  rw [finish, some_bind (shl_of_lt (by decide) htop), some_bind (orBytes_eq pointer htail _),
    lastWord_eq htail htotal, some_bind (compress_eq C s _), ← hlast,
    some_bind (rounds_eq D _)]
  rfl

/-! ### Runs -/

/-- The hasher has had a message. -/
structure Absorbed (key0 key1 : BitVec 64) (message : Bytes) (hasher : SipHash C D) : Prop where
  total : hasher.totalLen = message.length % 256
  held : ∃ blocks rest, hasher.buffer.Holds (fun v block => do compress C v (← read8 block)) (initial key0 key1)
    blocks rest hasher.v ∧ blocks.flatten ++ rest = message

variable {key0 key1 : BitVec 64} {message : Bytes} {hasher : SipHash C D}

theorem block_eq (v : State) {block : Bytes} (hblock : block.length = 8) :
    (do compress C v (← read8 block)) = some (SipReference.compress C v (littleEndian block)) := by
  rw [some_bind (read8_eq hblock), compress_eq]

theorem absorbed_init (key0 key1 : BitVec 64) :
    ∃ hasher : SipHash C D, init C D key0 key1 = some hasher ∧ Absorbed key0 key1 [] hasher :=
  ⟨_, rfl, rfl, [], [], BlockBuffer.holds_init (by decide) _ _, rfl⟩

/-- A step of `update`. -/
theorem Absorbed.update (h : Absorbed key0 key1 message hasher) (bytes : Bytes) :
    ∃ after, SipHash.update pointer bytes hasher = some ((), after) ∧ Absorbed key0 key1 (message ++ bytes) after := by
  obtain ⟨blocks, rest, hholds, hmessage⟩ := h.held
  obtain ⟨blocks', rest', buffer', v', hrun, hholds', hflatten⟩ :=
    hholds.update (fun v block hblock => ⟨_, block_eq v hblock⟩) bytes
  have htotal : hasher.totalLen + bytes.length % 256 < 2 ^ pointer.bits := by
    have hbits : 2 ^ 32 ≤ 2 ^ pointer.bits := by cases pointer <;> decide
    have hlen := h.total
    omega
  refine ⟨⟨v', (hasher.totalLen + bytes.length % 256) % 256, buffer'⟩, ?_, ?_, blocks', rest', hholds', ?_⟩
  · rw [SipHash.update, some_bind (word_of_lt htotal), some_bind hrun]
    rfl
  · rw [h.total, List.length_append, ← Nat.add_mod]
  · rw [hflatten, ← List.append_assoc, hmessage]

theorem foldlM_blocks (v : State) {blocks : List Bytes} (hsizes : ∀ block ∈ blocks, block.length = 8) :
    blocks.foldlM (fun v block => do compress C v (← read8 block)) v =
      some ((blocks.map littleEndian).foldl (SipReference.compress C) v) := by
  induction blocks generalizing v with
  | nil => rfl
  | cons block blocks ih =>
    obtain ⟨hblock, hblocks⟩ := List.forall_mem_cons.mp hsizes
    rw [List.foldlM_cons, some_bind (block_eq v hblock), ih _ hblocks]
    rfl

/-- `finishValue` returns the hash of the message, and the hasher as it was. -/
theorem Absorbed.finishValue (h : Absorbed key0 key1 message hasher) :
    SipHash.finishValue pointer hasher = some (sipHash C D key0 key1 message, hasher) := by
  obtain ⟨blocks, rest, hholds, rfl⟩ := h.held
  have hv := hholds.state_eq.symm.trans (foldlM_blocks _ hholds.sizes)
  have hlength : UInt8.ofNat hasher.totalLen = UInt8.ofNat (blocks.flatten ++ rest).length := by
    rw [h.total]
    exact UInt8.toNat_inj.mp (by simp)
  have hfinish := finish_eq (D := D) pointer hasher.v (h.total ▸ Nat.mod_lt _ (by decide)) hholds.lt (C := C) rfl
  rw [SipHash.finishValue, some_bind hholds.pending_eq, some_bind hfinish, sipHash,
    words_flatten _ hholds.sizes hholds.lt, List.foldl_append, hlength, Option.some.inj hv]
  rfl

/-- What some calls should return, after a message. -/
def answers (C D : Nat) (key0 key1 : BitVec 64) : Bytes → List Call → List (BitVec 64)
  | _, [] => []
  | message, .update bytes :: rest => answers C D key0 key1 (message ++ bytes) rest
  | message, .finishValue :: rest => sipHash C D key0 key1 message :: answers C D key0 key1 message rest

/-- The bytes that some calls give to the hasher. -/
def fed : List Call → Bytes
  | [] => []
  | .update bytes :: rest => bytes ++ fed rest
  | .finishValue :: rest => fed rest

theorem Absorbed.calls (h : Absorbed key0 key1 message hasher) (made : List Call) :
    ∃ after, SipHash.calls pointer made hasher = some (answers C D key0 key1 message made, after) ∧
      Absorbed key0 key1 (message ++ fed made) after := by
  induction made generalizing message hasher with
  | nil => exact ⟨hasher, rfl, by rwa [fed, List.append_nil]⟩
  | cons call rest ih =>
    cases call with
    | update bytes =>
      obtain ⟨next, hnext, habsorbed⟩ := h.update pointer bytes
      obtain ⟨after, hrest, hafter⟩ := ih habsorbed
      refine ⟨after, (bind_of_eq hnext).trans hrest, ?_⟩
      rwa [fed, ← List.append_assoc]
    | finishValue =>
      obtain ⟨after, hrest, hafter⟩ := ih h
      refine ⟨after, (bind_of_eq (h.finishValue pointer)).trans ?_, hafter⟩
      exact (bind_of_eq hrest).trans rfl

/-- **Whatever the round counts, the keys and the calls, nothing traps, and `finishValue` returns the reference
function of all bytes that were given to `update` before it and leaves the hasher as it was.** -/
theorem calls_answer (pointer : PointerWidth) (C D : Nat) (key0 key1 : BitVec 64) (made : List Call) :
    ∃ hasher after : SipHash C D, init C D key0 key1 = some hasher ∧
      SipHash.calls pointer made hasher = some (answers C D key0 key1 [] made, after) ∧
      SipHash.finishValue pointer after = some (sipHash C D key0 key1 (fed made), after) := by
  obtain ⟨hasher, hinit, habsorbed⟩ := absorbed_init (C := C) (D := D) key0 key1
  obtain ⟨after, hcalls, hafter⟩ := habsorbed.calls pointer made
  exact ⟨hasher, after, hinit, hcalls, hafter.finishValue pointer⟩

end SipHash

end Nia.Hash
