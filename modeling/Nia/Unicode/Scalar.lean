import Nia.Lib.Slices
import Nia.Lib.Trapping

/-! One scalar value in UTF-8.

The encoder divides, the decoder masks and shifts. Both are compared with one description of the bytes of a scalar
value, a leading byte and continuation bytes of six bits each (`unitsOf`): the encoder writes these
(`encodeUtf8_eq`), and the decoder accepts these and nothing else (`decodeUtf8First_iff`). `none` is a trap. -/
namespace Nia.Unicode
open Lib Lib.Slices List

/-! ### The code -/

inductive Utf8DecodeError where
  | empty
  | truncated
  | invalidLeadingByte
  | invalidContinuation
  | overlong
  | invalidScalar
  deriving DecidableEq, Repr

structure Utf8Scalar where
  bytes : Bytes
  byteLen : Nat
  deriving DecidableEq

/-- `Utf8Scalar::bytes`. -/
def Utf8Scalar.encoded (scalar : Utf8Scalar) : Option Bytes := slice scalar.bytes 0 scalar.byteLen

/-- A sum of `u8`, of which the second is cast from a larger number. -/
def addByte (base value : Nat) : Option UInt8 := do
  return UInt8.ofNat (← word 8 (base + value % 256))

def encodeUtf8 (c : Char) : Option Utf8Scalar :=
  let code := c.toNat
  if code ≤ 127 then some ⟨[UInt8.ofNat code, 0, 0, 0], 1⟩
  else if code ≤ 2047 then do
    return ⟨[← addByte 192 (code / 64), ← addByte 128 (code % 64), 0, 0], 2⟩
  else if code ≤ 65535 then do
    return ⟨[← addByte 224 (code / 4096), ← addByte 128 (code / 64 % 64), ← addByte 128 (code % 64), 0], 3⟩
  else do
    return ⟨[← addByte 240 (code / 262144), ← addByte 128 (code / 4096 % 64), ← addByte 128 (code / 64 % 64),
      ← addByte 128 (code % 64)], 4⟩

/-- The bits of the leading byte and the width, unless the byte cannot lead. -/
def leading (first : UInt8) : Option (Nat × Nat) :=
  if first < 0x80 then some (first.toNat, 1)
  else if first &&& 0xe0 = 0xc0 then some ((first &&& 0x1f).toNat, 2)
  else if first &&& 0xf0 = 0xe0 then some ((first &&& 0x0f).toNat, 3)
  else if first &&& 0xf8 = 0xf0 ∧ first ≤ 0xf4 then some ((first &&& 0x07).toNat, 4)
  else none

/-- The loop over the continuation bytes: the index, how many there are still, and the code so far. -/
def continuations (bytes : Bytes) : Nat → Nat → Nat → Option (Except Utf8DecodeError Nat)
  | _, 0, code => some (.ok code)
  | index, count + 1, code => do
    let continuation ← bytes[index]?
    if continuation &&& 0xc0 ≠ 0x80 then return .error .invalidContinuation
    else
      let shifted ← word 32 (code <<< 6)
      continuations bytes (index + 1) count (shifted ||| (continuation &&& 0x3f).toNat)

def isOverlongUtf8 (code : Nat) : Nat → Bool
  | 1 => false
  | 2 => code < 0x80
  | 3 => code < 0x800
  | 4 => code < 0x10000
  | _ => true

def isValidScalarValue (value : Nat) : Bool := value ≤ 0x10ffff && !(0xd800 ≤ value && value ≤ 0xdfff)

/-- The builtin behind `fromScalarValue`. -/
def fromScalarValue (value : Nat) : Option Char :=
  if h : value.isValidChar then some (Char.ofNatAux value h) else none

/-- The end of `decodeUtf8First`. -/
def scalarOf (code width : Nat) : Except Utf8DecodeError (Char × Nat) :=
  if isOverlongUtf8 code width then .error .overlong
  else if !isValidScalarValue code then .error .invalidScalar
  else match fromScalarValue code with
    | some ch => .ok (ch, width)
    | none => .error .invalidScalar

def decodeUtf8First (bytes : Bytes) : Option (Except Utf8DecodeError (Char × Nat)) :=
  if bytes.length = 0 then some (.error .empty)
  else do
    let first ← bytes[0]?
    match leading first with
    | none => return .error .invalidLeadingByte
    | some (code, width) =>
      if bytes.length < width then return .error .truncated
      else match ← continuations bytes 1 (width - 1) code with
        | .error error => return .error error
        | .ok code => return scalarOf code width

/-! ### The bytes of a scalar value -/

/-- The bytes, as numbers. -/
def unitsOf (code : Nat) : List Nat :=
  if code ≤ 127 then [code]
  else if code ≤ 2047 then [192 + code / 64, 128 + code % 64]
  else if code ≤ 65535 then [224 + code / 4096, 128 + code / 64 % 64, 128 + code % 64]
  else [240 + code / 262144, 128 + code / 4096 % 64, 128 + code / 64 % 64, 128 + code % 64]

def encode (c : Char) : Bytes := (unitsOf c.toNat).map UInt8.ofNat

theorem toNat_lt (c : Char) : c.toNat < 0x110000 := by
  have hvalid := c.valid
  rcases hvalid with h | h
  · exact Nat.lt_trans h (by decide)
  · exact h.2

theorem addByte_eq {base value : Nat} (h : base + value < 256) :
    addByte base value = some (UInt8.ofNat (base + value)) := by
  rw [addByte, Nat.mod_eq_of_lt (by omega), Trapping.some_bind (word_of_lt (by omega))]
  rfl

theorem encodeUtf8_eq (c : Char) : ∃ scalar, encodeUtf8 c = some scalar ∧ scalar.encoded = some (encode c) := by
  have hlt := toNat_lt c
  unfold encodeUtf8 encode unitsOf
  dsimp only
  split
  · exact ⟨_, rfl, rfl⟩
  · split
    · rw [addByte_eq (by omega), addByte_eq (by omega)]
      exact ⟨_, rfl, rfl⟩
    · split
      · rw [addByte_eq (by omega), addByte_eq (by omega), addByte_eq (by omega)]
        exact ⟨_, rfl, rfl⟩
      · rw [addByte_eq (by omega), addByte_eq (by omega), addByte_eq (by omega), addByte_eq (by omega)]
        exact ⟨_, rfl, rfl⟩

/-! ### Leading and continuation bytes -/

/-- The base of the leading byte, and a bound of its bits. -/
def baseOf : Nat → Nat × Nat
  | 1 => (0, 128)
  | 2 => (192, 32)
  | 3 => (224, 16)
  | _ => (240, 5)

variable {first : UInt8} {bits width : Nat}

theorem leading_iff : leading first = some (bits, width) ↔
    1 ≤ width ∧ width ≤ 4 ∧ bits < (baseOf width).2 ∧ first = UInt8.ofNat ((baseOf width).1 + bits) := by
  constructor
  · have hall : ∀ b : Fin 256, ∀ found ∈ leading (UInt8.ofNat b), 1 ≤ found.2 ∧ found.2 ≤ 4 ∧
        found.1 < (baseOf found.2).2 ∧ UInt8.ofNat b = UInt8.ofNat ((baseOf found.2).1 + found.1) := by
      decide +kernel
    intro h
    have hfirst := hall ⟨first.toNat, first.toNat_lt⟩ (bits, width)
    simp only [UInt8.ofNat_toNat] at hfirst
    exact hfirst h
  · rintro ⟨hone, hfour, hbits, rfl⟩
    obtain rfl | rfl | rfl | rfl : width = 1 ∨ width = 2 ∨ width = 3 ∨ width = 4 := by omega
    · have hall : ∀ bits : Fin 128, leading (UInt8.ofNat (0 + bits)) = some (bits.val, 1) := by decide +kernel
      exact hall ⟨bits, hbits⟩
    · have hall : ∀ bits : Fin 32, leading (UInt8.ofNat (192 + bits)) = some (bits.val, 2) := by decide +kernel
      exact hall ⟨bits, hbits⟩
    · have hall : ∀ bits : Fin 16, leading (UInt8.ofNat (224 + bits)) = some (bits.val, 3) := by decide +kernel
      exact hall ⟨bits, hbits⟩
    · have hall : ∀ bits : Fin 5, leading (UInt8.ofNat (240 + bits)) = some (bits.val, 4) := by decide +kernel
      exact hall ⟨bits, hbits⟩

def continuationByte (bits : Nat) : UInt8 := UInt8.ofNat (128 + bits)

theorem continuation_iff {byte : UInt8} : byte &&& 0xc0 = 0x80 ↔
    (byte &&& 0x3f).toNat < 64 ∧ byte = continuationByte (byte &&& 0x3f).toNat := by
  have hall : ∀ b : Fin 256, (UInt8.ofNat b &&& 0xc0 = 0x80 ↔ (UInt8.ofNat b &&& 0x3f).toNat < 64 ∧
      UInt8.ofNat b = continuationByte (UInt8.ofNat b &&& 0x3f).toNat) := by
    decide +kernel
  have hbyte := hall ⟨byte.toNat, byte.toNat_lt⟩
  simpa only [UInt8.ofNat_toNat] using hbyte

theorem bits_continuationByte (h : bits < 64) : continuationByte bits &&& 0xc0 = 0x80 ∧
    (continuationByte bits &&& 0x3f).toNat = bits := by
  have hall : ∀ bits : Fin 64, continuationByte bits &&& 0xc0 = 0x80 ∧
      (continuationByte bits &&& 0x3f).toNat = bits.val := by
    decide +kernel
  exact hall ⟨bits, h⟩

/-- The code of leading bits and six more for each continuation byte. -/
def codeOf (bits : Nat) (more : List Nat) : Nat := more.foldl (fun code r => code * 64 + r) bits

theorem shift_or {code r : Nat} (hr : r < 64) : code <<< 6 ||| r = code * 64 + r := by
  rw [← Nat.shiftLeft_add_eq_or_of_lt hr, Nat.shiftLeft_eq]

/-- The loop reads continuation bytes, and only these. -/
theorem continuations_spec (bytes : Bytes) {index count code : Nat} (hcount : count ≤ 3)
    (hcode : code < 2 ^ (32 - 6 * count)) (hlength : index + count ≤ bytes.length) :
    ∃ result, continuations bytes index count code = some result ∧ ∀ value, result = .ok value ↔
      ∃ more, more.length = count ∧ (∀ r ∈ more, r < 64) ∧
        (bytes.drop index).take count = more.map continuationByte ∧ value = codeOf code more := by
  induction count generalizing index code with
  | zero =>
    refine ⟨.ok code, rfl, fun value => ⟨fun h => ⟨[], rfl, nofun, rfl, (Except.ok.inj h).symm⟩, ?_⟩⟩
    rintro ⟨more, hmore, -, -, rfl⟩
    rw [length_eq_zero_iff.mp hmore]
    rfl
  | succ count ih =>
    have hindex : index < bytes.length := by omega
    have hdrop : (bytes.drop index).take (count + 1) = bytes[index] :: (bytes.drop (index + 1)).take count := by
      rw [drop_eq_getElem_cons hindex, take_succ_cons]
    rw [continuations, Trapping.some_bind (List.getElem?_eq_getElem hindex), hdrop]
    by_cases hbyte : bytes[index] &&& 0xc0 = 0x80
    · have hpow : 2 ^ (32 - 6 * (count + 1)) * 64 = 2 ^ (32 - 6 * count) := by
        rw [show 32 - 6 * count = 32 - 6 * (count + 1) + 6 by omega, Nat.pow_add]
      have hle : 2 ^ (32 - 6 * count) ≤ 2 ^ 32 := Nat.pow_le_pow_right (by decide) (by omega)
      have hshift : code <<< 6 < 2 ^ 32 := by
        rw [Nat.shiftLeft_eq]
        omega
      obtain ⟨hsix, hsame⟩ := continuation_iff.mp hbyte
      rw [if_neg (not_not.mpr hbyte), Trapping.some_bind (word_of_lt hshift), shift_or hsix]
      have hnext : code * 64 + (bytes[index] &&& 0x3f).toNat < 2 ^ (32 - 6 * count) := by omega
      have hrest : index + 1 + count ≤ bytes.length := by omega
      obtain ⟨result, hresult, hiff⟩ := ih (by omega) hnext hrest
      refine ⟨result, hresult, fun value => (hiff value).trans ⟨?_, ?_⟩⟩
      · rintro ⟨more, hmore, hbits, htake, rfl⟩
        refine ⟨(bytes[index] &&& 0x3f).toNat :: more, congrArg (· + 1) hmore,
          forall_mem_cons.mpr ⟨hsix, hbits⟩, ?_, rfl⟩
        rw [htake, map_cons, ← hsame]
      · rintro ⟨more, hmore, hbits, htake, rfl⟩
        cases more with
        | nil => cases hmore
        | cons r more =>
          obtain ⟨hr, hrest⟩ := forall_mem_cons.mp hbits
          obtain ⟨hfirst, htake⟩ := List.cons.inj htake
          refine ⟨more, Nat.succ.inj hmore, hrest, htake, ?_⟩
          rw [hfirst, (bits_continuationByte hr).2]
          rfl
    · rw [if_pos hbyte]
      refine ⟨_, rfl, fun value => ⟨nofun, ?_⟩⟩
      rintro ⟨more, hmore, hbits, htake, -⟩
      cases more with
      | nil => cases hmore
      | cons r more =>
        obtain ⟨hr, -⟩ := forall_mem_cons.mp hbits
        obtain ⟨hfirst, -⟩ := List.cons.inj htake
        exact absurd (hfirst ▸ (bits_continuationByte hr).1) hbyte

/-! ### Decoding -/

/-- Leading bits and continuation bits of a code, in as many bytes as it needs. -/
structure Shape (code width bits : Nat) (more : List Nat) : Prop where
  one_le : 1 ≤ width
  le_four : width ≤ 4
  bits_lt : bits < (baseOf width).2
  length : more.length = width - 1
  more_lt : ∀ r ∈ more, r < 64
  code_eq : code = codeOf bits more
  short : isOverlongUtf8 code width = false

/-- The bytes of a shape are those of its code. -/
theorem Shape.unitsOf_eq {code : Nat} {more : List Nat} (h : Shape code width bits more) :
    unitsOf code = ((baseOf width).1 + bits) :: more.map (128 + ·) := by
  obtain ⟨hone, hfour, hbits, hlength, hmore, hcode, hshort⟩ := h
  obtain rfl | rfl | rfl | rfl : width = 1 ∨ width = 2 ∨ width = 3 ∨ width = 4 := by omega
  · obtain rfl := length_eq_zero_iff.mp hlength
    simp only [baseOf, codeOf, foldl_nil] at *
    rw [unitsOf, if_pos (by omega), hcode, Nat.zero_add]
    rfl
  · obtain ⟨r1, rfl⟩ := length_eq_one_iff.mp hlength
    simp only [baseOf, codeOf, foldl_cons, foldl_nil, isOverlongUtf8, decide_eq_false_iff_not,
      forall_mem_singleton] at *
    rw [unitsOf, if_neg (by omega), if_pos (by omega), show code / 64 = bits by omega, show code % 64 = r1 by omega]
    rfl
  · obtain ⟨r1, r2, rfl⟩ := length_eq_two.mp hlength
    simp only [baseOf, codeOf, foldl_cons, foldl_nil, isOverlongUtf8, decide_eq_false_iff_not,
      forall_mem_cons] at *
    rw [unitsOf, if_neg (by omega), if_neg (by omega), if_pos (by omega), show code / 4096 = bits by omega,
      show code / 64 % 64 = r1 by omega, show code % 64 = r2 by omega]
    rfl
  · obtain ⟨r1, r2, r3, rfl⟩ := length_eq_three.mp hlength
    simp only [baseOf, codeOf, foldl_cons, foldl_nil, isOverlongUtf8, decide_eq_false_iff_not,
      forall_mem_cons] at *
    rw [unitsOf, if_neg (by omega), if_neg (by omega), if_neg (by omega), show code / 262144 = bits by omega,
      show code / 4096 % 64 = r1 by omega, show code / 64 % 64 = r2 by omega, show code % 64 = r3 by omega]
    rfl

/-- Every code has a shape. -/
theorem exists_shape {code : Nat} (h : code < 0x110000) : ∃ width bits more, Shape code width bits more := by
  by_cases h1 : code ≤ 127
  · refine ⟨1, code, [], by decide, by decide, ?_, rfl, nofun, rfl, rfl⟩
    exact Nat.lt_succ_of_le h1
  by_cases h2 : code ≤ 2047
  · refine ⟨2, code / 64, [code % 64], by decide, by decide, ?_, rfl, ?_, ?_, ?_⟩
    · show code / 64 < 32
      omega
    · simpa using Nat.mod_lt code (by decide)
    · simp only [codeOf, foldl_cons, foldl_nil]
      omega
    · exact decide_eq_false (by omega)
  by_cases h3 : code ≤ 65535
  · refine ⟨3, code / 4096, [code / 64 % 64, code % 64], by decide, by decide, ?_, rfl, ?_, ?_, ?_⟩
    · show code / 4096 < 16
      omega
    · exact forall_mem_cons.mpr ⟨by omega, forall_mem_singleton.mpr (by omega)⟩
    · simp only [codeOf, foldl_cons, foldl_nil]
      omega
    · exact decide_eq_false (by omega)
  · refine ⟨4, code / 262144, [code / 4096 % 64, code / 64 % 64, code % 64], by decide, by decide, ?_, rfl, ?_, ?_, ?_⟩
    · show code / 262144 < 5
      omega
    · simp only [forall_mem_cons, not_mem_nil, false_imp_iff, implies_true, and_true]
      omega
    · simp only [codeOf, foldl_cons, foldl_nil]
      omega
    · exact decide_eq_false (by omega)

theorem Shape.encode_eq {c : Char} {more : List Nat} (h : Shape c.toNat width bits more) :
    encode c = UInt8.ofNat ((baseOf width).1 + bits) :: more.map continuationByte := by
  rw [encode, h.unitsOf_eq, map_cons, map_map]
  rfl

theorem fromScalarValue_iff {value : Nat} {c : Char} : fromScalarValue value = some c ↔ c.toNat = value := by
  unfold fromScalarValue
  constructor
  · intro h
    split at h
    · cases h
      rfl
    · cases h
  · rintro rfl
    have hvalid : c.toNat.isValidChar := c.valid
    have hsame := Char.ofNat_toNat c
    rw [Char.ofNat, dif_pos hvalid] at hsame
    rw [dif_pos hvalid, hsame]

theorem isValidScalarValue_toNat (c : Char) : isValidScalarValue c.toNat = true := by
  have hvalid : c.toNat < 0xd800 ∨ 0xdfff < c.toNat ∧ c.toNat < 0x110000 := c.valid
  rw [isValidScalarValue, Bool.and_eq_true, Bool.not_eq_true', Bool.and_eq_false_iff, decide_eq_true_eq,
    decide_eq_false_iff_not, decide_eq_false_iff_not]
  omega

theorem scalarOf_iff {code width' : Nat} {c : Char} : scalarOf code width = .ok (c, width') ↔
    isOverlongUtf8 code width = false ∧ c.toNat = code ∧ width' = width := by
  constructor
  · intro h
    unfold scalarOf at h
    split at h
    · cases h
    · next hshort =>
      split at h
      · cases h
      · split at h
        · next hscalar =>
          cases h
          exact ⟨Bool.not_eq_true _ ▸ hshort, fromScalarValue_iff.mp hscalar, rfl⟩
        · cases h
  · rintro ⟨hshort, rfl, rfl⟩
    rw [scalarOf, hshort, if_neg Bool.false_ne_true, isValidScalarValue_toNat, Bool.not_true,
      if_neg Bool.false_ne_true, fromScalarValue_iff.mpr rfl]

theorem Shape.length_encode {c : Char} {more : List Nat} (h : Shape c.toNat width bits more) :
    (encode c).length = width := by
  have hone := h.one_le
  rw [h.encode_eq, length_cons, length_map, h.length]
  omega

theorem encode_isPrefix_iff {rest : Bytes} {c : Char} : encode c <+: first :: rest ↔
    ∃ width bits more, leading first = some (bits, width) ∧ Shape c.toNat width bits more ∧
      more.map continuationByte <+: rest := by
  constructor
  · intro h
    obtain ⟨width, bits, more, hshape⟩ := exists_shape (toNat_lt c)
    rw [hshape.encode_eq] at h
    obtain ⟨hfirst, hrest⟩ := cons_prefix_cons.mp h
    refine ⟨width, bits, more, ?_, hshape, hrest⟩
    exact leading_iff.mpr ⟨hshape.one_le, hshape.le_four, hshape.bits_lt, hfirst.symm⟩
  · rintro ⟨width, bits, more, hleading, hshape, hrest⟩
    rw [hshape.encode_eq, (leading_iff.mp hleading).2.2.2]
    exact cons_prefix_cons.mpr ⟨rfl, hrest⟩

/-- Decoding never traps, and succeeds on the bytes of a scalar value and on nothing else. -/
theorem decodeUtf8First_iff (bytes : Bytes) : ∃ result, decodeUtf8First bytes = some result ∧ ∀ c width,
    result = .ok (c, width) ↔ width = (encode c).length ∧ encode c <+: bytes := by
  cases bytes with
  | nil =>
    refine ⟨.error .empty, rfl, fun c width => ⟨nofun, fun h => ?_⟩⟩
    obtain ⟨width, bits, more, hshape⟩ := exists_shape (toNat_lt c)
    rw [hshape.encode_eq] at h
    exact absurd (prefix_nil.mp h.2) (cons_ne_nil _ _)
  | cons first rest =>
    unfold decodeUtf8First
    have hfirst : (first :: rest)[0]? = some first := rfl
    rw [if_neg (by simp), Trapping.some_bind hfirst]
    cases hleading : leading first with
    | none =>
      refine ⟨_, rfl, fun c width => ⟨nofun, ?_⟩⟩
      rintro ⟨-, hbytes⟩
      obtain ⟨_, _, _, hsome, -⟩ := encode_isPrefix_iff.mp hbytes
      rw [hleading] at hsome
      cases hsome
    | some found =>
      obtain ⟨bits, width⟩ := found
      -- the scalar values with this leading byte
      have hiff (c : Char) : encode c <+: first :: rest ↔
          ∃ more, Shape c.toNat width bits more ∧ more.map continuationByte <+: rest := by
        rw [encode_isPrefix_iff]
        constructor
        · rintro ⟨_, _, more, hsame, hshape, hrest⟩
          rw [hleading] at hsame
          cases hsame
          exact ⟨more, hshape, hrest⟩
        · rintro ⟨more, hshape, hrest⟩
          exact ⟨width, bits, more, hleading, hshape, hrest⟩
      obtain ⟨hone, hfour, hbits, -⟩ := leading_iff.mp hleading
      have hbits' : bits < 2 ^ (32 - 6 * (width - 1)) := by
        obtain rfl | rfl | rfl | rfl : width = 1 ∨ width = 2 ∨ width = 3 ∨ width = 4 := by omega
        all_goals exact Nat.lt_of_lt_of_le hbits (by decide)
      dsimp only
      split
      · next hshort =>
        refine ⟨_, rfl, fun c width' => ⟨nofun, ?_⟩⟩
        rintro ⟨-, hbytes⟩
        obtain ⟨more, hshape, hrest⟩ := (hiff c).mp hbytes
        have hlength := hrest.length_le
        rw [length_map, hshape.length] at hlength
        rw [length_cons] at hshort
        omega
      · next hlong =>
        rw [length_cons] at hlong
        have hinside : 1 + (width - 1) ≤ (first :: rest).length := by
          rw [length_cons]
          omega
        obtain ⟨result, hresult, hok⟩ := continuations_spec (first :: rest) (by omega) hbits' hinside
        rw [drop_one, tail_cons] at hok
        have hread (c : Char) : encode c <+: first :: rest ↔
            result = .ok c.toNat ∧ isOverlongUtf8 c.toNat width = false := by
          rw [hiff, hok]
          constructor
          · rintro ⟨more, hshape, hrest⟩
            refine ⟨⟨more, hshape.length, hshape.more_lt, ?_, hshape.code_eq⟩, hshape.short⟩
            have htake := prefix_iff_eq_take.mp hrest
            rw [length_map, hshape.length] at htake
            exact htake.symm
          · rintro ⟨⟨more, hmore, hlt, htake, hcode⟩, hshort⟩
            exact ⟨more, ⟨hone, hfour, hbits, hmore, hlt, hcode, hshort⟩, htake ▸ take_prefix _ _⟩
        have hwidth {c : Char} (h : encode c <+: first :: rest) : (encode c).length = width := by
          obtain ⟨more, hshape, -⟩ := (hiff c).mp h
          exact hshape.length_encode
        rw [Trapping.some_bind hresult]
        cases result with
        | error error =>
          refine ⟨.error error, rfl, fun c width' => ⟨nofun, fun h => ?_⟩⟩
          cases ((hread c).mp h.2).1
        | ok code =>
          refine ⟨scalarOf code width, rfl, fun c width' => scalarOf_iff.trans ⟨?_, ?_⟩⟩
          · rintro ⟨hshort, rfl, rfl⟩
            have hbytes := (hread c).mpr ⟨rfl, hshort⟩
            exact ⟨(hwidth hbytes).symm, hbytes⟩
          · rintro ⟨rfl, hbytes⟩
            obtain ⟨hcode, hshort⟩ := (hread c).mp hbytes
            cases hcode
            exact ⟨hshort, rfl, hwidth hbytes⟩

end Nia.Unicode
