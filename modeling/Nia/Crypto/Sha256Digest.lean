import Nia.Crypto.Sha256

/-! The digest of `Sha256` is that of the standard.

Blocks of the message go through the buffer. At the end the rest is padded in an array of two blocks, of which one or
both are used: these are the last blocks of the padded message (`finalBlocks_eq`). -/
namespace Nia.Crypto

open Lib.Slices Hash List Lib.Trapping
open Fips180 (Words)

/-! ### The code -/

/-- A byte of a number, by a cast. -/
def byteOf {w : Nat} (value : BitVec w) : UInt8 := .ofBitVec (value.setWidth 8)

def writeBig64 (bytes : Bytes) (value : BitVec 64) : Option Bytes := do
  let bytes ← store bytes 0 (byteOf (value >>> 56))
  let bytes ← store bytes 1 (byteOf (value >>> 48))
  let bytes ← store bytes 2 (byteOf (value >>> 40))
  let bytes ← store bytes 3 (byteOf (value >>> 32))
  let bytes ← store bytes 4 (byteOf (value >>> 24))
  let bytes ← store bytes 5 (byteOf (value >>> 16))
  let bytes ← store bytes 6 (byteOf (value >>> 8))
  store bytes 7 (byteOf value)

/-- `Sha256`. -/
structure Sha256 where
  state : Words
  totalLen : BitVec 64
  buffer : BlockBuffer 64

namespace Sha256

def init : Option Sha256 := do
  return {
    state := {
      a := 0x6a09e667, b := 0xbb67ae85, c := 0x3c6ef372, d := 0xa54ff53a
      e := 0x510e527f, f := 0x9b05688c, g := 0x1f83d9ab, h := 0x5be0cd19 }
    totalLen := 0
    buffer := ← BlockBuffer.init 64 }

def update (self : Sha256) (bytes : Bytes) : Option Sha256 := do
  let totalLen := BitVec.ofNat 64 (self.totalLen.toNat + bytes.length)
  let (buffer, state) ← self.buffer.update compress self.state bytes
  return { state, totalLen, buffer }

/-- The array of the last blocks, and how much of it is used. -/
def finalBlocks (self : Sha256) : Option (Bytes × Nat) := do
  let tail ← self.buffer.pending
  let finalBlocks ← copyFrom (List.replicate 128 0) 0 tail.length tail
  let finalBlocks ← store finalBlocks tail.length 0x80
  let paddedLen := if tail.length < 56 then 64 else 128
  let lengthBits := BitVec.ofNat 64 (self.totalLen.toNat <<< 3)
  let view ← writeBig64 (← slice finalBlocks (paddedLen - 8) paddedLen) lengthBits
  return (← copyFrom finalBlocks (paddedLen - 8) paddedLen view, paddedLen)

/-- The loop that writes the digest. -/
def writeWord (words : List (BitVec 32)) (digest : Bytes) (index : Nat) : Option Bytes := do
  let word ← words[index]?
  let digest ← store digest (index * 4) (byteOf (word >>> 24))
  let digest ← store digest (index * 4 + 1) (byteOf (word >>> 16))
  let digest ← store digest (index * 4 + 2) (byteOf (word >>> 8))
  store digest (index * 4 + 3) (byteOf word)

/-- The second of the last blocks, if it is used. -/
def compressSecond (finalState : Words) (finalBlocks : Bytes) (paddedLen : Nat) : Option Words :=
  if paddedLen = 128 then do compress finalState (← slice finalBlocks 64 128) else return finalState

def finish (self : Sha256) : Option Bytes := do
  let (finalBlocks, paddedLen) ← self.finalBlocks
  let finalState ← compress self.state (← slice finalBlocks 0 64)
  let finalState ← compressSecond finalState finalBlocks paddedLen
  let words := [finalState.a, finalState.b, finalState.c, finalState.d, finalState.e, finalState.f, finalState.g,
    finalState.h]
  (List.range words.length).foldlM (writeWord words) (List.replicate 32 0)

end Sha256

/-! ### Bytes of numbers -/

theorem byteOf_shift {w : Nat} (value : BitVec w) (k : Nat) :
    byteOf (value >>> (8 * k)) = UInt8.ofNat (value.toNat / 256 ^ k) := by
  refine UInt8.toNat_inj.mp ?_
  show ((value >>> (8 * k)).setWidth 8).toNat = _
  rw [BitVec.toNat_setWidth, BitVec.toNat_ushiftRight, Nat.shiftRight_eq_div_pow, Nat.pow_mul, UInt8.toNat_ofNat']

theorem byteOf_eq {w : Nat} (value : BitVec w) : byteOf value = UInt8.ofNat (value.toNat / 256 ^ 0) := by
  rw [← byteOf_shift, Nat.mul_zero, BitVec.ushiftRight_zero]

theorem writeBig64_eq {view : Bytes} (hview : view.length = 8) (value : BitVec 64) :
    writeBig64 view value = some (Fips180.bigEndianBytes 8 value.toNat) := by
  match view, hview with
  | [_, _, _, _, _, _, _, _], _ =>
    have hbytes : Fips180.bigEndianBytes 8 value.toNat = [byteOf (value >>> 56), byteOf (value >>> 48),
        byteOf (value >>> 40), byteOf (value >>> 32), byteOf (value >>> 24), byteOf (value >>> 16),
        byteOf (value >>> 8), byteOf value] := by
      rw [byteOf_shift value 7, byteOf_shift value 6, byteOf_shift value 5, byteOf_shift value 4, byteOf_shift value 3,
        byteOf_shift value 2, byteOf_shift value 1, byteOf_eq]
      rfl
    rw [hbytes]
    rfl

/-- Four bytes of the digest. -/
theorem writeWord_eq {words : List (BitVec 32)} {digest : Bytes} {index : Nat} {word : BitVec 32}
    (hword : words[index]? = some word) (hfits : index * 4 + 4 ≤ digest.length) :
    Sha256.writeWord words digest index =
      some (overwrite digest (index * 4) (Fips180.bigEndianBytes 4 word.toNat)) := by
  have hbytes : Fips180.bigEndianBytes 4 word.toNat =
      [byteOf (word >>> 24), byteOf (word >>> 16), byteOf (word >>> 8), byteOf word] := by
    rw [byteOf_shift word 3, byteOf_shift word 2, byteOf_shift word 1, byteOf_eq]
    rfl
  obtain ⟨left, y0, y1, y2, y3, right, rfl, hleft⟩ : ∃ left y0 y1 y2 y3 right,
      digest = left ++ y0 :: y1 :: y2 :: y3 :: right ∧ left.length = index * 4 := by
    have htake : (digest.take (index * 4)).length = index * 4 := length_take_of_le (by omega)
    have hdrop : 4 ≤ (digest.drop (index * 4)).length := by
      rw [length_drop]
      omega
    match hrest : digest.drop (index * 4), hdrop with
    | y0 :: y1 :: y2 :: y3 :: right, _ =>
      exact ⟨digest.take (index * 4), y0, y1, y2, y3, right, by rw [← hrest, take_append_drop], htake⟩
  have hsecond (x value : UInt8) := store_append (left ++ [x]) y1 value (y2 :: y3 :: right)
  have hthird (x0 x1 value : UInt8) := store_append (left ++ [x0, x1]) y2 value (y3 :: right)
  have hfourth (x0 x1 x2 value : UInt8) := store_append (left ++ [x0, x1, x2]) y3 value right
  simp only [append_assoc, cons_append, nil_append, length_append, length_cons,
    length_nil, Nat.zero_add] at hsecond hthird hfourth
  have hover := overwrite_append left right (show [y0, y1, y2, y3].length =
    [byteOf (word >>> 24), byteOf (word >>> 16), byteOf (word >>> 8), byteOf word].length from rfl)
  simp only [append_assoc, cons_append, nil_append] at hover
  rw [Sha256.writeWord, hword, Option.bind_eq_bind, Option.bind_some, ← hleft, store_append, Option.bind_eq_bind,
    Option.bind_some, hsecond, Option.bind_some, hthird, Option.bind_some, hfourth, hbytes, hover]

/-- The digest after some of its words. -/
theorem writeDigest_eq (value : Words) :
    (List.range 8).foldlM (Sha256.writeWord [value.a, value.b, value.c, value.d, value.e, value.f, value.g, value.h])
      (List.replicate 32 0) = some (Fips180.bytesOf value) := by
  generalize hwords : [value.a, value.b, value.c, value.d, value.e, value.f, value.g, value.h] = words
  have hlength : words.length = 8 := by rw [← hwords]; rfl
  have hbytes (word : BitVec 32) : (Fips180.bigEndianBytes 4 word.toNat).length = 4 := by
    simp [Fips180.bigEndianBytes]
  obtain ⟨digest, hrun, hdigest, hwritten⟩ := foldlM_range_of_step (f := Sha256.writeWord words)
    (P := fun index digest => digest.length = 32 ∧ digest.take (index * 4) =
      (words.take index).flatMap fun word => Fips180.bigEndianBytes 4 word.toNat)
    (s := List.replicate 32 0) 8 ⟨rfl, rfl⟩ fun index hindex digest ⟨hdigest, hwritten⟩ => by
      have hfits : index * 4 + (Fips180.bigEndianBytes 4 words[index].toNat).length ≤ digest.length := by
        rw [hbytes]
        omega
      refine ⟨_, writeWord_eq (List.getElem?_eq_getElem (by omega)) (by omega), ?_, ?_⟩
      · rw [length_overwrite hfits, hdigest]
      · have htake := take_overwrite hfits
        rw [hbytes, hwritten] at htake
        rw [Nat.succ_mul, htake, take_succ_eq_append_getElem (by omega), flatMap_append,
          flatMap_singleton]
  rw [hrun, Fips180.bytesOf, hwords]
  rw [take_of_length_le (by omega), take_of_length_le (by omega)] at hwritten
  rw [hwritten]

/-! ### The last blocks -/

/-- The rest of a message with the padding, in an array of two blocks. -/
theorem finalBlocks_eq {hasher : Sha256} {rest : Bytes} {length : Nat}
    (hpending : hasher.buffer.pending = some rest) (hrest : rest.length = length % 64)
    (htotal : hasher.totalLen.toNat = length) (hlength : length < 2 ^ 61) :
    ∃ paddedLen, (paddedLen = 64 ∨ paddedLen = 128) ∧
      rest.length + 1 + Fips180.zeros length + 8 = paddedLen ∧
      hasher.finalBlocks = some (rest ++ [0x80] ++ List.replicate (Fips180.zeros length) 0 ++
        Fips180.bigEndianBytes 8 (8 * length) ++ List.replicate (128 - paddedLen) 0, paddedLen) := by
  have hzeros : Fips180.zeros length = (if rest.length < 56 then 64 else 128) - 8 - (rest.length + 1) := by
    rw [Fips180.zeros]
    split <;> omega
  have hcopy : copyFrom (List.replicate 128 (0 : UInt8)) 0 rest.length rest =
      some (rest ++ 0 :: List.replicate (127 - rest.length) 0) := by
    rw [copyFrom_of_length (by rw [length_replicate]; omega) (Nat.zero_add _), overwrite, take_zero,
      nil_append, drop_replicate, ← replicate_succ]
    congr 3
    omega
  have hbits : (BitVec.ofNat 64 (hasher.totalLen.toNat <<< 3)).toNat = 8 * length := by
    rw [BitVec.toNat_ofNat, htotal, Nat.shiftLeft_eq, Nat.mod_eq_of_lt (by omega), Nat.mul_comm]
  have hbytes : (Fips180.bigEndianBytes 8 (8 * length)).length = 8 := by simp [Fips180.bigEndianBytes]
  rw [Sha256.finalBlocks, hpending, Option.bind_eq_bind, Option.bind_some, hcopy, Option.bind_some,
    store_append, Option.bind_some]
  dsimp only
  generalize hpadded : (if rest.length < 56 then 64 else 128) = paddedLen at hzeros ⊢
  have hcases : paddedLen = 64 ∧ rest.length < 56 ∨ paddedLen = 128 ∧ 56 ≤ rest.length := by
    rw [← hpadded]
    split <;> omega
  -- the array up to the length, the place of the length, and what is not used
  have harray : rest ++ 0x80 :: List.replicate (127 - rest.length) (0 : UInt8) =
      rest ++ [0x80] ++ List.replicate (Fips180.zeros length) 0 ++ List.replicate 8 0 ++
        List.replicate (128 - paddedLen) 0 := by
    rw [append_assoc _ (List.replicate 8 0), append_assoc (rest ++ [0x80]), replicate_append_replicate,
      replicate_append_replicate, append_assoc rest, singleton_append]
    congr 3
    omega
  have hstart : paddedLen - 8 = (rest ++ [0x80] ++ List.replicate (Fips180.zeros length) (0 : UInt8)).length := by
    rw [length_append, length_append, length_replicate, length_singleton]
    omega
  have hroom : (rest ++ 0x80 :: List.replicate (127 - rest.length) (0 : UInt8)).length = 128 := by
    rw [length_append, length_cons, length_replicate]
    omega
  refine ⟨paddedLen, by omega, by omega, ?_⟩
  rw [slice_of_le (by omega) (by omega), Option.bind_some, writeBig64_eq, Option.bind_some, hbits,
    copyFrom_of_length (by omega) (by omega), harray, hstart, overwrite_append]
  · rfl
  · rw [length_replicate, hbytes]
  · rw [length_take, length_drop, hroom]
    omega

/-- A message of full blocks is cut into these. -/
theorem blocks_flatten (parts : List Bytes) (hsizes : ∀ part ∈ parts, part.length = 64) :
    Fips180.blocks parts.flatten = parts := by
  induction parts with
  | nil => rfl
  | cons part parts ih =>
    have hpart : part.length = 64 := hsizes part mem_cons_self
    have hcount : (part ++ parts.flatten).length / 64 = parts.flatten.length / 64 + 1 := by
      rw [length_append]
      omega
    have hskip (i : Nat) : (part ++ parts.flatten).drop (64 * (i + 1)) = parts.flatten.drop (64 * i) := by
      rw [Nat.mul_succ, Nat.add_comm, ← drop_drop, ← hpart, drop_left]
    have htail := ih fun other hother => hsizes other (mem_cons_of_mem _ hother)
    rw [Fips180.blocks] at htail
    rw [flatten_cons, Fips180.blocks, hcount, range_succ_eq_map, map_cons, map_map]
    congr 1
    · rw [Nat.mul_zero, drop_zero, ← hpart, take_left]
    · refine Eq.trans (map_congr_left fun i _ => ?_) htail
      rw [Function.comp_apply, Nat.succ_eq_add_one, hskip]

theorem foldlM_compress (value : Words) (parts : List Bytes) (hsizes : ∀ part ∈ parts, part.length = 64) :
    parts.foldlM compress value = some (parts.foldl Fips180.compress value) := by
  induction parts generalizing value with
  | nil => rfl
  | cons part parts ih =>
    rw [foldlM_cons, compress_eq value (hsizes part mem_cons_self), Option.bind_eq_bind, Option.bind_some,
      ih _ fun other hother => hsizes other (mem_cons_of_mem _ hother), foldl_cons]

/-! ### Runs -/

/-- The hasher has had a message. -/
structure Absorbed (message : Bytes) (hasher : Sha256) : Prop where
  total : hasher.totalLen = BitVec.ofNat 64 message.length
  held : ∃ blocks rest, hasher.buffer.Holds compress Fips180.initial blocks rest hasher.state ∧
    blocks.flatten ++ rest = message

theorem absorbed_init : ∃ hasher, Sha256.init = some hasher ∧ Absorbed [] hasher := by
  refine ⟨_, rfl, rfl, [], [], ?_, rfl⟩
  have hinitial : Fips180.initial = {
      a := 0x6a09e667, b := 0xbb67ae85, c := 0x3c6ef372, d := 0xa54ff53a
      e := 0x510e527f, f := 0x9b05688c, g := 0x1f83d9ab, h := 0x5be0cd19 } := by decide +kernel
  rw [hinitial]
  exact BlockBuffer.holds_init (by decide) _ _

section

variable {hasher : Sha256} {message : Bytes} (h : Absorbed message hasher)
include h

/-- A step. -/
theorem Absorbed.update (bytes : Bytes) :
    ∃ after, hasher.update bytes = some after ∧ Absorbed (message ++ bytes) after := by
  obtain ⟨blocks, rest, hholds, hmessage⟩ := h.held
  obtain ⟨blocks', rest', buffer', state', hrun, hholds', hflatten⟩ :=
    hholds.update (fun state block hblock => ⟨_, compress_eq state hblock⟩) bytes
  refine ⟨⟨state', BitVec.ofNat 64 (hasher.totalLen.toNat + bytes.length), buffer'⟩, ?_, ?_, blocks', rest', hholds',
    ?_⟩
  · rw [Sha256.update, hrun]
    rfl
  · rw [h.total, length_append, BitVec.toNat_ofNat]
    refine BitVec.eq_of_toNat_eq ?_
    rw [BitVec.toNat_ofNat, BitVec.toNat_ofNat, Nat.mod_add_mod]
  · rw [hflatten, ← append_assoc, hmessage]

/-- A run of updates. -/
theorem Absorbed.updates (chunks : List Bytes) :
    ∃ after, chunks.foldlM Sha256.update hasher = some after ∧ Absorbed (message ++ chunks.flatten) after := by
  induction chunks generalizing message hasher with
  | nil => exact ⟨hasher, rfl, by rwa [flatten_nil, append_nil]⟩
  | cons chunk chunks ih =>
    obtain ⟨next, hnext, habsorbed⟩ := h.update chunk
    obtain ⟨after, hrun, hafter⟩ := ih habsorbed
    refine ⟨after, ?_, ?_⟩
    · rw [foldlM_cons, hnext, Option.bind_eq_bind, Option.bind_some, hrun]
    · rwa [flatten_cons, ← append_assoc]

/-- The end: what was absorbed is padded, and the hash value of all its blocks is written. -/
theorem Absorbed.finish (hlength : message.length < 2 ^ 61) : hasher.finish = some (Fips180.sha256 message) := by
  obtain ⟨parts, rest, hholds, hmessage⟩ := h.held
  have hfull : parts.flatten.length = 64 * parts.length := by
    rw [length_flatten, map_congr_left hholds.sizes, map_const', sum_replicate_nat,
      Nat.mul_comm]
  have hrest : rest.length = message.length % 64 := by
    have hlt := hholds.lt
    rw [← hmessage, length_append, hfull]
    omega
  have htotal : hasher.totalLen.toNat = message.length := by
    rw [h.total, BitVec.toNat_ofNat, Nat.mod_eq_of_lt (by omega)]
  obtain ⟨paddedLen, hpadded, hlen, hblocks⟩ := finalBlocks_eq hholds.pending_eq hrest htotal hlength
  generalize htail : rest ++ [0x80] ++ List.replicate (Fips180.zeros message.length) 0 ++
    Fips180.bigEndianBytes 8 (8 * message.length) = tail at hblocks
  have hlast : tail.length = paddedLen := by
    rw [← htail, ← hlen]
    simp [Fips180.bigEndianBytes]
    omega
  have hpad : Fips180.pad message = parts.flatten ++ tail := by
    rw [Fips180.pad, ← htail]
    nth_rewrite 1 [← hmessage]
    simp only [append_assoc]
  have hstate : hasher.state = parts.foldl Fips180.compress Fips180.initial :=
    Option.some.inj (hholds.state_eq.symm.trans (foldlM_compress _ _ hholds.sizes))
  rw [Sha256.finish, some_bind hblocks, Fips180.sha256, hpad]
  dsimp only
  obtain rfl | rfl := hpadded
  · have hslice : slice (tail ++ List.replicate (128 - 64) 0) 0 64 = some tail := by
      rw [slice_zero (by simp [hlast]), ← hlast, take_left]
    have hcompress (value : Words) :
        Sha256.compressSecond value (tail ++ List.replicate (128 - 64) 0) 64 = some value := if_neg (by decide)
    have hcut := blocks_flatten (parts ++ [tail])
      (forall_mem_append.mpr ⟨hholds.sizes, forall_mem_singleton.mpr hlast⟩)
    rw [flatten_append, flatten_singleton] at hcut
    rw [some_bind hslice, some_bind (compress_eq _ hlast),
      some_bind (hcompress _), hcut, foldl_append, ← hstate]
    exact writeDigest_eq _
  · have hfirst : (tail.take 64).length = 64 := length_take_of_le (by omega)
    have hsecond : (tail.drop 64).length = 64 := by
      rw [length_drop]
      omega
    have hslice : slice tail 64 128 = some (tail.drop 64) := by
      rw [slice_of_le (by decide) (by omega), take_of_length_le (by omega)]
    have hcompress (value : Words) :
        Sha256.compressSecond value tail 128 = some (Fips180.compress value (tail.drop 64)) := by
      rw [Sha256.compressSecond, if_pos rfl, some_bind hslice, compress_eq _ hsecond]
    have hcut := blocks_flatten (parts ++ [tail.take 64, tail.drop 64])
      (forall_mem_append.mpr ⟨hholds.sizes,
        forall_mem_cons.mpr ⟨hfirst, forall_mem_singleton.mpr hsecond⟩⟩)
    rw [flatten_append, flatten_cons, flatten_singleton, take_append_drop] at hcut
    rw [Nat.sub_self, replicate_zero, append_nil, some_bind (slice_zero (by omega)),
      some_bind (compress_eq _ hfirst), some_bind (hcompress _), hcut, foldl_append,
      ← hstate]
    exact writeDigest_eq _

end

/-- **Any message in any chunks has the digest of the standard**, and no step traps. -/
theorem sha256_chunks (chunks : List (List UInt8)) (hlength : chunks.flatten.length < 2 ^ 61) :
    (do (← chunks.foldlM Sha256.update (← Sha256.init)).finish) = some (Fips180.sha256 chunks.flatten) := by
  obtain ⟨hasher, hinit, habsorbed⟩ := absorbed_init
  obtain ⟨after, hrun, hafter⟩ := habsorbed.updates chunks
  rw [nil_append] at hafter
  rw [some_bind hinit, some_bind hrun, hafter.finish hlength]

/-- The message "abc" in two chunks. -/
theorem sha256_chunks_abc : (do (← [[0x61], [0x62, 0x63]].foldlM Sha256.update (← Sha256.init)).finish) =
    some (Fips180.sha256 [0x61, 0x62, 0x63]) :=
  sha256_chunks [[0x61], [0x62, 0x63]] (by decide)

end Nia.Crypto
