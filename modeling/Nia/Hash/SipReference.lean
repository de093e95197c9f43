import Mathlib

/-! The function SipHash-C-D.

The message is cut into little-endian words of 64 bits; the last word has the bytes that are left and the length
modulo 256 in its top byte. Each word is compressed into the state with C rounds, and D rounds end the computation. -/
namespace Nia.Hash.SipReference

/-- The four words of the state. -/
structure State where
  v0 : BitVec 64
  v1 : BitVec 64
  v2 : BitVec 64
  v3 : BitVec 64
  deriving DecidableEq

def initial (key0 key1 : BitVec 64) : State where
  v0 := key0 ^^^ 0x736f6d6570736575
  v1 := key1 ^^^ 0x646f72616e646f6d
  v2 := key0 ^^^ 0x6c7967656e657261
  v3 := key1 ^^^ 0x7465646279746573

/-- Half a round: two words are mixed into each other. -/
def half (a b : BitVec 64) (count : Nat) : BitVec 64 × BitVec 64 :=
  let a := a + b
  (a, b.rotateLeft count ^^^ a)

def sipRound (s : State) : State :=
  let (v0, v1) := half s.v0 s.v1 13
  let (v2, v3) := half s.v2 s.v3 16
  let (v0, v3) := half (v0.rotateLeft 32) v3 21
  let (v2, v1) := half v2 v1 17
  { v0, v1, v2 := v2.rotateLeft 32, v3 }

def compress (c : Nat) (s : State) (m : BitVec 64) : State :=
  let s := sipRound^[c] { s with v3 := s.v3 ^^^ m }
  { s with v0 := s.v0 ^^^ m }

def littleEndian : List UInt8 → BitVec 64
  | [] => 0#64
  | byte :: rest => byte.toBitVec.setWidth 64 ||| littleEndian rest <<< 8

/-- The words of a message of a given length. -/
def words (length : Nat) : List UInt8 → List (BitVec 64)
  | b0 :: b1 :: b2 :: b3 :: b4 :: b5 :: b6 :: b7 :: rest =>
    littleEndian [b0, b1, b2, b3, b4, b5, b6, b7] :: words length rest
  | tail => [littleEndian (tail ++ List.replicate (7 - tail.length) 0 ++ [UInt8.ofNat length])]

def sipHash (c d : Nat) (key0 key1 : BitVec 64) (message : List UInt8) : BitVec 64 :=
  let s := (words message.length message).foldl (compress c) (initial key0 key1)
  let s := sipRound^[d] { s with v2 := s.v2 ^^^ 0xff }
  s.v0 ^^^ s.v1 ^^^ s.v2 ^^^ s.v3

-- The published test vector: the key is the bytes 0 to 15, the message the bytes 0 to 14.
example : sipHash 2 4 0x0706050403020100 0x0f0e0d0c0b0a0908 [0, 1, 2, 3, 4, 5, 6, 7, 8, 9, 10, 11, 12, 13, 14] =
    0xa129ca6149be45e5 := by decide +kernel

/-! ### Words of bytes -/

theorem littleEndian_append (bytes more : List UInt8) :
    littleEndian (bytes ++ more) = littleEndian bytes ||| littleEndian more <<< (8 * bytes.length) := by
  induction bytes with
  | nil => simp [littleEndian]
  | cons byte rest ih =>
    rw [List.cons_append, littleEndian, ih, littleEndian, BitVec.shiftLeft_or_distrib, ← BitVec.shiftLeft_add,
      List.length_cons, Nat.mul_succ, BitVec.or_assoc]

theorem littleEndian_singleton (byte : UInt8) : littleEndian [byte] = byte.toBitVec.setWidth 64 := by
  rw [littleEndian, littleEndian, BitVec.zero_shiftLeft, BitVec.or_zero]

theorem littleEndian_replicate (count : Nat) : littleEndian (List.replicate count 0) = 0#64 := by
  induction count with
  | zero => rfl
  | succ count ih =>
    rw [List.replicate_succ, littleEndian, ih]
    rfl

/-- The words of whole blocks and a rest. -/
theorem words_flatten (length : Nat) {blocks : List (List UInt8)} (hsizes : ∀ block ∈ blocks, block.length = 8)
    {rest : List UInt8} (hrest : rest.length < 8) :
    words length (blocks.flatten ++ rest) = blocks.map littleEndian ++
      [littleEndian (rest ++ List.replicate (7 - rest.length) 0 ++ [UInt8.ofNat length])] := by
  induction blocks with
  | nil =>
    rw [List.flatten_nil, List.nil_append, List.map_nil, List.nil_append, words]
    rintro b0 b1 b2 b3 b4 b5 b6 b7 more rfl
    simp at hrest
    omega
  | cons block blocks ih =>
    obtain ⟨hblock, hblocks⟩ := List.forall_mem_cons.mp hsizes
    obtain ⟨b0, b1, b2, b3, b4, b5, b6, b7, rfl⟩ :
        ∃ b0 b1 b2 b3 b4 b5 b6 b7, block = [b0, b1, b2, b3, b4, b5, b6, b7] := by
      match block, hblock with
      | [b0, b1, b2, b3, b4, b5, b6, b7], _ => exact ⟨b0, b1, b2, b3, b4, b5, b6, b7, rfl⟩
    rw [List.flatten_cons, List.append_assoc, List.map_cons]
    exact congrArg (List.cons _) (ih hblocks)

end Nia.Hash.SipReference
