import Nia.Crypto.Fips180
import Nia.Hash.BlockBuffer
import Nia.Lib.Trapping

/-! The streaming `Sha256`, and its compression.

The code keeps sixteen words of the message schedule and writes each new word over the one that is no longer needed.
Sums are formed in 64 bits and cut: a sum that does not fit is `none`, as are indices out of bounds. The compression
is that of the standard (`compress_eq`). -/
namespace Nia.Crypto

open Lib.Slices Hash BitVec
open Fips180 (Words)

/-! ### The code -/

def roundConstants : List (BitVec 32) := [
  0x428a2f98, 0x71374491, 0xb5c0fbcf, 0xe9b5dba5, 0x3956c25b, 0x59f111f1, 0x923f82a4, 0xab1c5ed5,
  0xd807aa98, 0x12835b01, 0x243185be, 0x550c7dc3, 0x72be5d74, 0x80deb1fe, 0x9bdc06a7, 0xc19bf174,
  0xe49b69c1, 0xefbe4786, 0x0fc19dc6, 0x240ca1cc, 0x2de92c6f, 0x4a7484aa, 0x5cb0a9dc, 0x76f988da,
  0x983e5152, 0xa831c66d, 0xb00327c8, 0xbf597fc7, 0xc6e00bf3, 0xd5a79147, 0x06ca6351, 0x14292967,
  0x27b70a85, 0x2e1b2138, 0x4d2c6dfc, 0x53380d13, 0x650a7354, 0x766a0abb, 0x81c2c92e, 0x92722c85,
  0xa2bfe8a1, 0xa81a664b, 0xc24b8b70, 0xc76c51a3, 0xd192e819, 0xd6990624, 0xf40e3585, 0x106aa070,
  0x19a4c116, 0x1e376c08, 0x2748774c, 0x34b0bcb5, 0x391c0cb3, 0x4ed8aa4a, 0x5b9cca4f, 0x682e6ff3,
  0x748f82ee, 0x78a5636f, 0x84c87814, 0x8cc70208, 0x90befffa, 0xa4506ceb, 0xbef9a3f7, 0xc67178f2]

/-- A sum of `u64`, which is a trap beyond the type. -/
def add64 (left right : BitVec 64) : Option (BitVec 64) :=
  if left.toNat + right.toNat < 2 ^ 64 then some (left + right) else none

def rotateRight (value : BitVec 32) (amount : Nat) : BitVec 32 :=
  (value >>> amount) ||| ((value.setWidth 64 <<< (32 - amount)).setWidth 32)

def readBig32 (bytes : Bytes) : Option (BitVec 32) := do
  return ((← bytes[0]?).toBitVec.setWidth 32 <<< 24)
    ||| ((← bytes[1]?).toBitVec.setWidth 32 <<< 16)
    ||| ((← bytes[2]?).toBitVec.setWidth 32 <<< 8)
    ||| (← bytes[3]?).toBitVec.setWidth 32

def choice (x y z : BitVec 32) : BitVec 32 := (x &&& y) ^^^ ((BitVec.allOnes 32 ^^^ x) &&& z)

def majority (x y z : BitVec 32) : BitVec 32 := (x &&& y) ^^^ (x &&& z) ^^^ (y &&& z)

def bigSigma0 (value : BitVec 32) : BitVec 32 := rotateRight value 2 ^^^ rotateRight value 13 ^^^ rotateRight value 22

def bigSigma1 (value : BitVec 32) : BitVec 32 := rotateRight value 6 ^^^ rotateRight value 11 ^^^ rotateRight value 25

def smallSigma0 (value : BitVec 32) : BitVec 32 := rotateRight value 7 ^^^ rotateRight value 18 ^^^ (value >>> 3)

def smallSigma1 (value : BitVec 32) : BitVec 32 := rotateRight value 17 ^^^ rotateRight value 19 ^^^ (value >>> 10)

def addWrap32 (left right : BitVec 32) : Option (BitVec 32) := do
  return (← add64 (left.setWidth 64) (right.setWidth 64)).setWidth 32

/-- The first loop of `compress`, for the first words of the schedule. -/
def loadWord (block : Bytes) (schedule : Vector (BitVec 32) 16) (index : Nat) :
    Option (Vector (BitVec 32) 16) := do
  let word ← readBig32 (← sliceFrom block (index * 4))
  if h : index < 16 then some (schedule.set index word) else none

def loadSchedule (block : Bytes) : Option (Vector (BitVec 32) 16) :=
  (List.range 16).foldlM (loadWord block) (Vector.replicate 16 0)

/-- The word of the schedule for a round, and the schedule with it. -/
def nextSchedule (schedule : Vector (BitVec 32) 16) (index : Nat) : Option (Vector (BitVec 32) 16) :=
  if 16 ≤ index then do
    let sum ← add64 ((smallSigma1 (schedule.get (Fin.ofNat 16 (index + 14)))).setWidth 64)
      ((schedule.get (Fin.ofNat 16 (index + 9))).setWidth 64)
    let sum ← add64 sum ((smallSigma0 (schedule.get (Fin.ofNat 16 (index + 1)))).setWidth 64)
    let sum ← add64 sum ((schedule.get (Fin.ofNat 16 index)).setWidth 64)
    return schedule.set (index % 16) (sum.setWidth 32) (Nat.mod_lt _ (by decide))
  else return schedule

/-- A round of `compress`. -/
def compressRound (schedule : Vector (BitVec 32) 16) (v : Words) (index : Nat) : Option Words := do
  let t1 ← add64 (v.h.setWidth 64) ((bigSigma1 v.e).setWidth 64)
  let t1 ← add64 t1 ((choice v.e v.f v.g).setWidth 64)
  let t1 ← add64 t1 ((← roundConstants[index]?).setWidth 64)
  let t1 ← add64 t1 ((schedule.get (Fin.ofNat 16 index)).setWidth 64)
  let t2 ← add64 ((bigSigma0 v.a).setWidth 64) ((majority v.a v.b v.c).setWidth 64)
  return {
    h := v.g
    g := v.f
    f := v.e
    e := ← addWrap32 v.d (t1.setWidth 32)
    d := v.c
    c := v.b
    b := v.a
    a := ← addWrap32 (t1.setWidth 32) (t2.setWidth 32) }

/-- The second loop of `compress`. -/
def compressStep (state : Vector (BitVec 32) 16 × Words) (index : Nat) :
    Option (Vector (BitVec 32) 16 × Words) := do
  let schedule ← nextSchedule state.1 index
  return (schedule, ← compressRound schedule state.2 index)

def compress (hashState : Words) (block : Bytes) : Option Words := do
  let schedule ← loadSchedule block
  let (_, v) ← (List.range 64).foldlM compressStep (schedule, hashState)
  return {
    a := ← addWrap32 hashState.a v.a
    b := ← addWrap32 hashState.b v.b
    c := ← addWrap32 hashState.c v.c
    d := ← addWrap32 hashState.d v.d
    e := ← addWrap32 hashState.e v.e
    f := ← addWrap32 hashState.f v.f
    g := ← addWrap32 hashState.g v.g
    h := ← addWrap32 hashState.h v.h }

/-! ### Words -/

variable (value : BitVec 32)

theorem rotateRight_eq (amount : Nat) : rotateRight value amount = Fips180.rotr amount value := by
  have hshift : (value.setWidth 64 <<< (32 - amount)).setWidth 32 = value <<< (32 - amount) := by
    refine eq_of_getLsbD_eq fun i hi => ?_
    simp only [getLsbD_setWidth, getLsbD_shiftLeft, hi, decide_true, Bool.true_and]
    by_cases hlt : i < 32 - amount
    · simp [hlt]
    · simp [hlt, show i < 64 by omega, show i - (32 - amount) < 64 by omega]
  rw [rotateRight, hshift, Fips180.rotr]

theorem choice_eq (x y z : BitVec 32) : choice x y z = Fips180.ch x y z := by
  rw [choice, allOnes_xor, Fips180.ch]

theorem bigSigma0_eq : bigSigma0 value = Fips180.upperSigma0 value := by
  rw [bigSigma0, rotateRight_eq, rotateRight_eq, rotateRight_eq, Fips180.upperSigma0]

theorem bigSigma1_eq : bigSigma1 value = Fips180.upperSigma1 value := by
  rw [bigSigma1, rotateRight_eq, rotateRight_eq, rotateRight_eq, Fips180.upperSigma1]

theorem smallSigma0_eq : smallSigma0 value = Fips180.lowerSigma0 value := by
  rw [smallSigma0, rotateRight_eq, rotateRight_eq, Fips180.lowerSigma0]

theorem smallSigma1_eq : smallSigma1 value = Fips180.lowerSigma1 value := by
  rw [smallSigma1, rotateRight_eq, rotateRight_eq, Fips180.lowerSigma1]

/-! ### Sums -/

/-- A sum of so many words in 64 bits, and its low word. -/
structure IsSum (count : Nat) (sum : BitVec 64) (low : BitVec 32) : Prop where
  lt : sum.toNat < count * 2 ^ 32
  low_eq : sum.setWidth 32 = low

theorem isSum_word (word : BitVec 32) : IsSum 1 (word.setWidth 64) word where
  lt := by
    rw [toNat_setWidth_of_le (by decide)]
    omega
  low_eq := setWidth_setWidth_of_le word (by decide)

theorem IsSum.add {count : Nat} {sum : BitVec 64} {low : BitVec 32} (h : IsSum count sum low) (word : BitVec 32)
    (hcount : count < 2 ^ 32) :
    ∃ sum', add64 sum (word.setWidth 64) = some sum' ∧ IsSum (count + 1) sum' (low + word) := by
  have hlt := h.lt
  have hword : (word.setWidth 64).toNat < 2 ^ 32 := by
    rw [toNat_setWidth_of_le (by decide)]
    omega
  have hfits : sum.toNat + (word.setWidth 64).toNat < 2 ^ 64 := by omega
  refine ⟨sum + word.setWidth 64, if_pos hfits, ?_, ?_⟩
  · rw [toNat_add, Nat.mod_eq_of_lt hfits]
    omega
  · rw [setWidth_add _ _ (by decide), h.low_eq, setWidth_setWidth_of_le word (by decide),
      setWidth_eq]

theorem addWrap32_eq (left right : BitVec 32) : addWrap32 left right = some (left + right) := by
  obtain ⟨sum, hadd, hsum⟩ := (isSum_word left).add right (by decide)
  rw [addWrap32, hadd, Option.bind_eq_bind, Option.bind_some, hsum.low_eq]
  rfl

/-! ### Rounds -/

theorem roundConstants_eq : roundConstants = Fips180.constants := by decide +kernel

variable {index : Nat}

theorem getElem?_roundConstants (hindex : index < 64) :
    roundConstants[index]? = some (Fips180.constants.getD index 0) := by
  have hlength : Fips180.constants.length = 64 := by rw [← roundConstants_eq]; rfl
  rw [roundConstants_eq, List.getD_eq_getElem?_getD, List.getElem?_eq_getElem (by omega), Option.getD_some]

theorem compressRound_eq (schedule : Vector (BitVec 32) 16) (v : Words) (hindex : index < 64) :
    compressRound schedule v index =
      some (Fips180.round (Fips180.constants.getD index 0) (schedule.get (Fin.ofNat 16 index)) v) := by
  obtain ⟨s1, h1, hs1⟩ := (isSum_word v.h).add (bigSigma1 v.e) (by decide)
  obtain ⟨s2, h2, hs2⟩ := hs1.add (choice v.e v.f v.g) (by decide)
  obtain ⟨s3, h3, hs3⟩ := hs2.add (Fips180.constants.getD index 0) (by decide)
  obtain ⟨s4, h4, hs4⟩ := hs3.add (schedule.get (Fin.ofNat 16 index)) (by decide)
  obtain ⟨s5, h5, hs5⟩ := (isSum_word (bigSigma0 v.a)).add (majority v.a v.b v.c) (by decide)
  simp only [compressRound, h1, h2, getElem?_roundConstants hindex, h3, h4, h5, Option.bind_eq_bind, Option.bind_some,
    addWrap32_eq, hs4.low_eq, hs5.low_eq]
  rw [bigSigma1_eq, bigSigma0_eq, choice_eq]
  rfl

theorem nextSchedule_eq (schedule : Vector (BitVec 32) 16) (hindex : 16 ≤ index) :
    nextSchedule schedule index = some (schedule.set (index % 16)
      (Fips180.lowerSigma1 (schedule.get (Fin.ofNat 16 (index + 14))) + schedule.get (Fin.ofNat 16 (index + 9)) +
        Fips180.lowerSigma0 (schedule.get (Fin.ofNat 16 (index + 1))) + schedule.get (Fin.ofNat 16 index))
      (Nat.mod_lt _ (by decide))) := by
  obtain ⟨s1, h1, hs1⟩ := (isSum_word (smallSigma1 (schedule.get (Fin.ofNat 16 (index + 14))))).add
    (schedule.get (Fin.ofNat 16 (index + 9))) (by decide)
  obtain ⟨s2, h2, hs2⟩ := hs1.add (smallSigma0 (schedule.get (Fin.ofNat 16 (index + 1)))) (by decide)
  obtain ⟨s3, h3, hs3⟩ := hs2.add (schedule.get (Fin.ofNat 16 index)) (by decide)
  simp only [nextSchedule, if_pos hindex, h1, h2, h3, Option.bind_eq_bind, Option.bind_some, hs3.low_eq]
  rw [smallSigma1_eq, smallSigma0_eq]
  rfl

/-! ### The schedule of sixteen words -/

/-- In front of a round, each place has the last word of the schedule for it. -/
def Rolling (block : Bytes) (index : Nat) (schedule : Vector (BitVec 32) 16) : Prop :=
  ∀ t < max index 16, index ≤ t + 16 → schedule.get (Fin.ofNat 16 t) = Fips180.schedule block t

variable {block : Bytes}

theorem Rolling.next {schedule : Vector (BitVec 32) 16}
    (h : Rolling block index schedule) : ∃ schedule', nextSchedule schedule index = some schedule' ∧
      Rolling block (index + 1) schedule' ∧ schedule'.get (Fin.ofNat 16 index) = Fips180.schedule block index := by
  by_cases hindex : 16 ≤ index
  · have hget (place t : Nat) (hplace : place % 16 = t % 16) (hlt : t < index) (hle : index ≤ t + 16) :
        schedule.get (Fin.ofNat 16 place) = Fips180.schedule block t := by
      rw [show Fin.ofNat 16 place = Fin.ofNat 16 t from Fin.ext hplace]
      exact h t (by omega) hle
    have hword : Fips180.schedule block index = Fips180.lowerSigma1 (schedule.get (Fin.ofNat 16 (index + 14))) +
        schedule.get (Fin.ofNat 16 (index + 9)) + Fips180.lowerSigma0 (schedule.get (Fin.ofNat 16 (index + 1))) +
        schedule.get (Fin.ofNat 16 index) := by
      rw [hget _ (index - 2) (by omega) (by omega) (by omega), hget _ (index - 7) (by omega) (by omega) (by omega),
        hget _ (index - 15) (by omega) (by omega) (by omega), hget _ (index - 16) (by omega) (by omega) (by omega),
        Fips180.schedule, if_neg (by omega)]
    refine ⟨_, nextSchedule_eq schedule hindex, fun t hlt hle => ?_, ?_⟩
    · rw [← hword]
      by_cases ht : t = index
      · subst ht
        exact Vector.getElem_set_self _
      · rw [← h t (by omega) (by omega)]
        exact Vector.getElem_set_ne _ _ (by omega)
    · rw [← hword]
      exact Vector.getElem_set_self _
  · refine ⟨schedule, by rw [nextSchedule, if_neg hindex]; rfl, fun t hlt _ => h t (by omega) (by omega), ?_⟩
    exact h index (by omega) (by omega)

theorem readBig32_eq (b0 b1 b2 b3 : UInt8) (rest : Bytes) :
    readBig32 (b0 :: b1 :: b2 :: b3 :: rest) = some (BitVec.ofNat 32 (Fips180.bigEndian [b0, b1, b2, b3])) := by
  have hread : readBig32 (b0 :: b1 :: b2 :: b3 :: rest) = some ((b0.toBitVec.setWidth 32 <<< 24) |||
      (b1.toBitVec.setWidth 32 <<< 16) ||| (b2.toBitVec.setWidth 32 <<< 8) ||| b3.toBitVec.setWidth 32) := rfl
  rw [hread]
  refine congrArg some (eq_of_toNat_eq ?_)
  have h0 := b0.toNat_lt
  have h1 := b1.toNat_lt
  have h2 := b2.toNat_lt
  have h3 := b3.toNat_lt
  have hbyte (byte : UInt8) (count : Nat) (hcount : count ≤ 24) :
      (byte.toBitVec.setWidth 32 <<< count).toNat = 2 ^ count * byte.toNat := by
    have hlt : 2 ^ count * byte.toNat < 2 ^ 32 :=
      Nat.lt_of_le_of_lt (Nat.mul_le_mul_right _ (Nat.pow_le_pow_right (by decide) hcount)) (by
        have := byte.toNat_lt
        omega)
    rw [toNat_shiftLeft, toNat_setWidth_of_le (by decide), Nat.shiftLeft_eq, Nat.mul_comm]
    exact Nat.mod_eq_of_lt hlt
  have hbyte3 : (b3.toBitVec.setWidth 32).toNat = b3.toNat := toNat_setWidth_of_le (by decide)
  have hvalue : Fips180.bigEndian [b0, b1, b2, b3] =
      2 ^ 8 * (2 ^ 8 * (2 ^ 8 * b0.toNat + b1.toNat) + b2.toNat) + b3.toNat := by
    simp only [Fips180.bigEndian, List.foldl_cons, List.foldl_nil]
    omega
  rw [toNat_or, toNat_or, toNat_or, hbyte b0 24 (by decide), hbyte b1 16 (by decide),
    hbyte b2 8 (by decide), hbyte3, toNat_ofNat, hvalue,
    ← Nat.two_pow_add_eq_or_of_lt (by omega : 2 ^ 16 * b1.toNat < 2 ^ 24),
    show 2 ^ 24 * b0.toNat + 2 ^ 16 * b1.toNat = 2 ^ 16 * (2 ^ 8 * b0.toNat + b1.toNat) by omega,
    ← Nat.two_pow_add_eq_or_of_lt (by omega : 2 ^ 8 * b2.toNat < 2 ^ 16),
    show 2 ^ 16 * (2 ^ 8 * b0.toNat + b1.toNat) + 2 ^ 8 * b2.toNat =
      2 ^ 8 * (2 ^ 8 * (2 ^ 8 * b0.toNat + b1.toNat) + b2.toNat) by omega,
    ← Nat.two_pow_add_eq_or_of_lt h3, Nat.mod_eq_of_lt (by omega)]

theorem readBig32_block (hblock : block.length = 64) {t : Nat} (ht : t < 16) :
    (sliceFrom block (t * 4) >>= readBig32) = some (Fips180.wordAt block t) := by
  have hlength : (block.drop (t * 4)).length = 64 - t * 4 := by rw [List.length_drop, hblock]
  rw [sliceFrom_of_le (by omega), Option.bind_eq_bind, Option.bind_some, Fips180.wordAt, Nat.mul_comm 4]
  match hdrop : block.drop (t * 4) with
  | b0 :: b1 :: b2 :: b3 :: rest => exact readBig32_eq b0 b1 b2 b3 rest
  | [] | [_] | [_, _] | [_, _, _] =>
    rw [hdrop] at hlength
    simp only [List.length_cons, List.length_nil] at hlength
    omega

theorem loadWord_eq (hblock : block.length = 64) (schedule : Vector (BitVec 32) 16) (hindex : index < 16) :
    loadWord block schedule index = some (schedule.set index (Fips180.wordAt block index) hindex) := by
  have hread := readBig32_block hblock hindex
  rw [loadWord, ← bind_assoc, hread, Option.bind_eq_bind, Option.bind_some, dif_pos hindex]

theorem loadSchedule_eq (hblock : block.length = 64) :
    ∃ schedule, loadSchedule block = some schedule ∧ Rolling block 0 schedule := by
  obtain ⟨schedule, hload, hwords⟩ := Lib.Trapping.foldlM_range_of_step (f := loadWord block)
    (P := fun index schedule => ∀ t < index, t < 16 → schedule.get (Fin.ofNat 16 t) = Fips180.wordAt block t)
    (s := Vector.replicate 16 0) 16 (fun t ht => absurd ht (Nat.not_lt_zero t)) fun index hindex schedule hwords => by
      refine ⟨_, loadWord_eq hblock schedule hindex, fun t ht ht16 => ?_⟩
      have hmod : t % 16 = t := Nat.mod_eq_of_lt ht16
      by_cases htindex : t = index
      · subst htindex
        refine (Vector.getElem_set ..).trans (if_pos hmod.symm)
      · rw [← hwords t (by omega) ht16]
        exact Vector.getElem_set_ne _ _ (by omega)
  refine ⟨schedule, hload, fun t ht _ => ?_⟩
  rw [hwords t (by omega) (by omega), Fips180.schedule, if_pos (by omega)]

theorem rounds_succ (block : Bytes) (value : Words) (count : Nat) : Fips180.rounds block value (count + 1) =
    Fips180.round (Fips180.constants.getD count 0) (Fips180.schedule block count)
      (Fips180.rounds block value count) := by
  rw [Fips180.rounds, List.range_succ, List.foldl_append]
  rfl

/-- **The compression of the code is that of the standard.** -/
theorem compress_eq (value : Words) (hblock : block.length = 64) :
    compress value block = some (Fips180.compress value block) := by
  obtain ⟨schedule, hload, hrolling⟩ := loadSchedule_eq hblock
  obtain ⟨⟨schedule', v⟩, hloop, -, hv⟩ := Lib.Trapping.foldlM_range_of_step (f := compressStep)
    (P := fun index state => Rolling block index state.1 ∧ state.2 = Fips180.rounds block value index)
    (s := (schedule, value)) 64 ⟨hrolling, rfl⟩ fun index hindex state ⟨hroll, hwords⟩ => by
      obtain ⟨next, hnext, hroll', hword⟩ := hroll.next
      refine ⟨(next, _), ?_, hroll', (rounds_succ block value index).symm⟩
      rw [compressStep, hnext, Option.bind_eq_bind, Option.bind_some, compressRound_eq next state.2 hindex, hword,
        hwords]
      rfl
  dsimp only at hv
  subst hv
  rw [compress, hload, Option.bind_eq_bind, Option.bind_some, hloop, Option.bind_eq_bind, Option.bind_some]
  simp only [addWrap32_eq, Fips180.compress, add_comm value.a, add_comm value.b, add_comm value.c,
    add_comm value.d, add_comm value.e, add_comm value.f, add_comm value.g,
    add_comm value.h]
  rfl

end Nia.Crypto
