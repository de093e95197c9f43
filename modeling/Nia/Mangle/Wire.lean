import Nia.Lib.Code
import Nia.Lib.Slices

/-! The bytes of a linker symbol.

A canonical symbol is a binary record rendered as text. Numbers are written
seven bits at a time, low bits first, with the high bit of a byte set while more
follow (`putVarint`); byte strings carry their length (`putBytes`). The record
becomes text three bytes at a time, as unpadded base64url (`encodeBase64url`).
Each writer stands here beside its reader, with the statement that the reader
takes back what the writer wrote. A cursor into the bytes is modelled by the
bytes from the cursor on. -/
namespace Nia.Mangle
open Nia.Lib.Code

/-! ### Variable-length numbers -/

/-- `put_varint`: a `u64` has at most nine bytes with the high bit set. -/
def putVarintLoop : Nat → UInt64 → Bytes
  | 0, value => [value.toUInt8]
  | more + 1, value =>
    if value ≥ 0x80 then (value.toUInt8 ||| 0x80) :: putVarintLoop more (value >>> 7)
    else [value.toUInt8]

def putVarint (value : UInt64) : Bytes := putVarintLoop 9 value

/-- `get_varint`, from `shift` on with `steps` shifts left of `(0..70).step_by(7)`. -/
def getVarintLoop : Nat → UInt64 → UInt64 → Reader UInt8 UInt64
  | 0, _, _, _ => none
  | _ + 1, _, _, [] => none
  | steps + 1, shift, value, byte :: rest =>
    if byte &&& 0x80 = 0 then some (value ||| ((byte &&& 0x7f).toUInt64 <<< shift), rest)
    else getVarintLoop steps (shift + 7) (value ||| ((byte &&& 0x7f).toUInt64 <<< shift)) rest

def getVarint : Reader UInt8 UInt64 := getVarintLoop 10 0 0

theorem and_low_or_high (w : UInt64) : (w &&& (0x7f : UInt64)) ||| ((w >>> 7) <<< (7 : UInt64)) = w := by
  apply UInt64.eq_of_toBitVec_eq
  apply BitVec.eq_of_getLsbD_eq
  intro i hi
  simp
  interval_cases i <;> simp

/-- The payload of a byte holds the low seven bits of the value it was cut from. -/
theorem payload_eq (w : UInt64) : (w.toUInt8 &&& 0x7f).toUInt64 = w &&& (0x7f : UInt64) := by
  apply UInt64.eq_of_toBitVec_eq
  apply BitVec.eq_of_getLsbD_eq
  intro i hi
  simp [-UInt8.toUInt64_and]
  interval_cases i <;> simp

theorem payload_more (b : UInt8) : (b ||| 0x80) &&& 0x7f = b &&& 0x7f := by
  apply UInt8.eq_of_toBitVec_eq
  apply BitVec.eq_of_getLsbD_eq
  intro i hi
  simp
  interval_cases i <;> simp

theorem more_bit (b : UInt8) : (b ||| 0x80) &&& 0x80 ≠ 0 := by
  have h : (b ||| 0x80) &&& 0x80 = 0x80 := by
    apply UInt8.eq_of_toBitVec_eq
    apply BitVec.eq_of_getLsbD_eq
    intro i hi
    simp
    interval_cases i <;> simp
  rw [h]
  decide

theorem last_bit {w : UInt64} (h : w < 0x80) : w.toUInt8 &&& 0x80 = 0 := by
  have hlt : w.toNat < 128 := UInt64.lt_iff_toNat_lt.mp h
  apply UInt8.toNat_inj.mp
  rw [UInt8.toNat_and, UInt64.toNat_toUInt8]
  show w.toNat % 256 &&& 2 ^ 7 = 0
  rw [Nat.mod_eq_of_lt (by omega), Nat.and_two_pow, Nat.testBit_lt_two_pow hlt]
  rfl

theorem payload_last {w : UInt64} (h : w < 0x80) : (w.toUInt8 &&& 0x7f).toUInt64 = w := by
  rw [payload_eq]
  apply UInt64.toNat_inj.mp
  have hlt : w.toNat < 128 := UInt64.lt_iff_toNat_lt.mp h
  rw [UInt64.toNat_and]
  show w.toNat &&& (2 ^ 7 - 1) = w.toNat
  rw [Nat.and_two_pow_sub_one_eq_mod]
  exact Nat.mod_eq_of_lt hlt

/-- One pass of the reader: the value read so far is extended by the value still written. -/
theorem getVarintLoop_put (more : Nat) (w shift value : UInt64) (rest : Bytes)
    (hshift : shift.toNat = 63 - 7 * more) (hmore : more ≤ 9) (hw : w.toNat < 2 ^ (7 * (more + 1))) :
    getVarintLoop (more + 1) shift value (putVarintLoop more w ++ rest) =
      some (value ||| (w <<< shift), rest) := by
  induction more generalizing w shift value with
  | zero =>
    have hlast : w < 0x80 := UInt64.lt_iff_toNat_lt.mpr (by simpa using hw)
    simp [putVarintLoop, getVarintLoop, last_bit hlast, payload_last hlast]
  | succ more ih =>
    by_cases hbig : w ≥ 0x80
    · have hhigh : (w >>> 7).toNat < 2 ^ (7 * (more + 1)) := by
        rw [UInt64.toNat_shiftRight]
        show w.toNat >>> 7 < _
        rw [Nat.shiftRight_eq_div_pow, Nat.div_lt_iff_lt_mul (by decide), ← Nat.pow_add]
        exact hw
      have hseven : (7 : UInt64).toNat = 7 := rfl
      have hnext : (shift + 7).toNat = 63 - 7 * more := by
        rw [UInt64.toNat_add, hshift, hseven]
        omega
      rw [putVarintLoop, if_pos hbig, List.cons_append, getVarintLoop, if_neg (more_bit _),
        payload_more, payload_eq, ih _ _ _ hnext (by omega) hhigh]
      rw [UInt64.or_assoc, UInt64.add_comm shift 7, UInt64.shiftLeft_add_of_toNat_lt (by omega)]
      rw [← UInt64.shiftLeft_or, and_low_or_high]
    · have hlast : w < 0x80 := by simpa using hbig
      simp [putVarintLoop, getVarintLoop, hbig, last_bit hlast, payload_last hlast]

/-- A written number is read back. -/
theorem getVarint_put (value : UInt64) : Reads getVarint (putVarint value) value := by
  intro rest
  have h := getVarintLoop_put 9 value 0 0 rest rfl le_rfl (by have := value.toNat_lt; omega)
  rwa [UInt64.shiftLeft_zero, UInt64.zero_or] at h

/-! ### Byte strings -/

/-- `put_bytes`; a length in memory is a `u64`. -/
def putBytes (bytes : Bytes) : Bytes :=
  putVarint (UInt64.ofNat bytes.length) ++ bytes

/-- The next byte. -/
def getByte : Reader UInt8 UInt8
  | [] => none
  | byte :: rest => some (byte, rest)

/-- `bytes.get(cursor..cursor + length)`, and the cursor moved past it. -/
def getSlice (length : Nat) : Reader UInt8 Bytes := fun bytes =>
  if length ≤ bytes.length then some (bytes.take length, bytes.drop length) else none

def getBytes : Reader UInt8 Bytes := do
  let length ← getVarint
  getSlice length.toNat

theorem getByte_put (byte : UInt8) : Reads getByte [byte] byte := fun _ => rfl

theorem getSlice_put (bytes : Bytes) : Reads (getSlice bytes.length) bytes bytes := by
  intro rest
  simp [getSlice]

theorem getBytes_put {bytes : Bytes} (h : bytes.length < 2 ^ 64) :
    Reads getBytes (putBytes bytes) bytes := by
  refine (getVarint_put _).bind ?_
  rw [UInt64.toNat_ofNat_of_lt' h]
  exact getSlice_put bytes

/-! ### Base64url -/

/-- The text alphabet, `BASE64URL`. -/
def base64url : List Char :=
  "ABCDEFGHIJKLMNOPQRSTUVWXYZabcdefghijklmnopqrstuvwxyz0123456789-_".toList

/-- The character of a six bit value; a `u8` index past the alphabet would panic. -/
def base64urlChar (value : UInt8) : Char := base64url.getD value.toNat '_'

def encodeBase64url : Bytes → List Char
  | [] => []
  | [first] =>
    [base64urlChar (first >>> 2), base64urlChar (((first &&& 3) <<< 4) ||| ((0 : UInt8) >>> 4))]
  | [first, third] =>
    [base64urlChar (first >>> 2), base64urlChar (((first &&& 3) <<< 4) ||| (third >>> 4)),
      base64urlChar (((third &&& 0xf) <<< 2) ||| ((0 : UInt8) >>> 6))]
  | first :: third :: fourth :: rest =>
    base64urlChar (first >>> 2) :: base64urlChar (((first &&& 3) <<< 4) ||| (third >>> 4)) ::
      base64urlChar (((third &&& 0xf) <<< 2) ||| (fourth >>> 6)) ::
      base64urlChar (fourth &&& 0x3f) :: encodeBase64url rest

/-- The position of a character in the alphabet. No byte of a character outside the alphabet
is in it, so reading characters refuses what reading bytes refuses. -/
def base64urlValue (char : Char) : Option UInt8 :=
  (base64url.idxOf? char).map UInt8.ofNat

/-- The groups of four characters; a last group of one character is refused. -/
def decodeGroups : List Char → Option Bytes
  | [] => some []
  | [_] => none
  | [a, b] => do
    let a ← base64urlValue a
    let b ← base64urlValue b
    some [(a <<< 2) ||| (b >>> 4)]
  | [a, b, c] => do
    let a ← base64urlValue a
    let b ← base64urlValue b
    let c ← base64urlValue c
    some [(a <<< 2) ||| (b >>> 4), (b <<< 4) ||| (c >>> 2)]
  | a :: b :: c :: d :: rest => do
    let a ← base64urlValue a
    let b ← base64urlValue b
    let c ← base64urlValue c
    let d ← base64urlValue d
    let output ← decodeGroups rest
    some (((a <<< 2) ||| (b >>> 4)) :: ((b <<< 4) ||| (c >>> 2)) :: ((c <<< 6) ||| d) :: output)

/-- `decode_base64url`: only the canonical spelling of the bytes is accepted. -/
def decodeBase64url (text : List Char) : Option Bytes := do
  let output ← decodeGroups text
  if encodeBase64url output = text then some output else none

/-- Two bytes with the same bits. -/
theorem eq_of_bits {x y : UInt8} (h : ∀ i < 8, x.toBitVec.getLsbD i = y.toBitVec.getLsbD i) :
    x = y :=
  UInt8.eq_of_toBitVec_eq (BitVec.eq_of_getLsbD_eq fun i hi => h i hi)

theorem base64urlValue_char {value : UInt8} (h : value &&& 0x3f = value) :
    base64urlValue (base64urlChar value) = some value := by
  have hall : ∀ n : Fin 64,
      base64urlValue (base64urlChar (UInt8.ofNat n)) = some (UInt8.ofNat n) := by
    decide +kernel
  have hlt : value.toNat < 64 := by
    have hmod : value.toNat &&& (2 ^ 6 - 1) = value.toNat := congrArg UInt8.toNat h
    rw [Nat.and_two_pow_sub_one_eq_mod] at hmod
    omega
  simpa using hall ⟨value.toNat, hlt⟩

/-! The four characters of a group read back as the six bit values they stand for. -/

theorem value_first (a : UInt8) :
    base64urlValue (base64urlChar (a >>> 2)) = some (a >>> 2) := by
  refine base64urlValue_char (eq_of_bits fun i hi => ?_)
  simp
  interval_cases i <;> simp

theorem value_second (a b : UInt8) :
    base64urlValue (base64urlChar (((a &&& 3) <<< 4) ||| (b >>> 4))) =
      some (((a &&& 3) <<< 4) ||| (b >>> 4)) := by
  refine base64urlValue_char (eq_of_bits fun i hi => ?_)
  simp
  interval_cases i <;> simp

theorem value_third (b c : UInt8) :
    base64urlValue (base64urlChar (((b &&& 0xf) <<< 2) ||| (c >>> 6))) =
      some (((b &&& 0xf) <<< 2) ||| (c >>> 6)) := by
  refine base64urlValue_char (eq_of_bits fun i hi => ?_)
  simp
  interval_cases i <;> simp

theorem value_fourth (c : UInt8) :
    base64urlValue (base64urlChar (c &&& 0x3f)) = some (c &&& 0x3f) := by
  refine base64urlValue_char (eq_of_bits fun i hi => ?_)
  simp

/-! Three bytes are put together again from the six bit values they were cut into. -/

theorem join_first (a b : UInt8) :
    ((a >>> 2) <<< 2) ||| ((((a &&& 3) <<< 4) ||| (b >>> 4)) >>> 4) = a := by
  refine eq_of_bits fun i hi => ?_
  simp
  interval_cases i <;> simp

theorem join_second (a b c : UInt8) :
    ((((a &&& 3) <<< 4) ||| (b >>> 4)) <<< 4) ||| ((((b &&& 0xf) <<< 2) ||| (c >>> 6)) >>> 2) = b := by
  refine eq_of_bits fun i hi => ?_
  simp
  interval_cases i <;> simp

theorem join_third (b c : UInt8) :
    ((((b &&& 0xf) <<< 2) ||| (c >>> 6)) <<< 6) ||| (c &&& 0x3f) = c := by
  refine eq_of_bits fun i hi => ?_
  simp
  interval_cases i <;> simp

theorem decodeGroups_encode (bytes : Bytes) : decodeGroups (encodeBase64url bytes) = some bytes := by
  induction bytes using encodeBase64url.induct with
  | case1 => rfl
  | case2 first =>
    simp only [encodeBase64url, decodeGroups, value_first, value_second, Option.bind_eq_bind,
      Option.bind_some, join_first]
  | case3 first third =>
    simp only [encodeBase64url, decodeGroups, value_first, value_second, value_third,
      Option.bind_eq_bind, Option.bind_some, join_first, join_second]
  | case4 first third fourth rest ih =>
    simp only [encodeBase64url, decodeGroups, value_first, value_second, value_third, value_fourth,
      Option.bind_eq_bind, Option.bind_some, join_first, join_second, join_third, ih]

/-- The text of any bytes is decoded to those bytes. -/
theorem decodeBase64url_encode (bytes : Bytes) :
    decodeBase64url (encodeBase64url bytes) = some bytes := by
  simp [decodeBase64url, decodeGroups_encode]

end Nia.Mangle
