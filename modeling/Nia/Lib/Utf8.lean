import Mathlib

/-! Characters in the bytes of a string.

A byte offset is a boundary when a character starts there, or at the end. A byte below 128 is a
character of its own, so it starts at a boundary and ends at one; from a boundary on, the first byte of
a character says how many bytes it has. -/
namespace Nia.Lib.Utf8

/-- The bytes of a string. -/
def bytes (s : String) : List UInt8 := s.toByteArray.data.toList

/-- A character starts at the offset, or the string ends there. -/
def IsBoundary (s : String) (offset : Nat) : Prop := (String.Pos.Raw.mk offset).IsValid s

/-- How many bytes a character has whose first byte this is. -/
def width (first : UInt8) : Nat :=
  if first &&& 0x80 = 0 then 1
  else if first &&& 0xe0 = 0xc0 then 2
  else if first &&& 0xf0 = 0xe0 then 3
  else 4

theorem and_128_of_ascii {byte : UInt8} (h : byte < 128) : byte &&& 0x80 = 0 := by
  have hall : ∀ b : Fin 256, b.val < 128 → (UInt8.ofNat b.val) &&& 0x80 = 0 := by decide +kernel
  have hbyte := hall ⟨byte.toNat, byte.toNat_lt⟩ (by simpa using UInt8.lt_iff_toNat_lt.mp h)
  simpa using hbyte

variable {s : String} {offset : Nat} {byte : UInt8}

theorem length_bytes (s : String) : (bytes s).length = s.utf8ByteSize := by
  rw [bytes, Array.length_toList]
  exact String.size_toByteArray

theorem getUTF8Byte_eq (h : (bytes s)[offset]? = some byte) :
    ∃ hlt : String.Pos.Raw.mk offset < s.rawEndPos, s.getUTF8Byte ⟨offset⟩ hlt = byte := by
  obtain ⟨hlt, heq⟩ := List.getElem?_eq_some_iff.mp h
  have hsize : offset < s.utf8ByteSize := length_bytes s ▸ hlt
  exact ⟨by simpa [String.Pos.Raw.lt_iff] using hsize, heq⟩

theorem isBoundary_zero (s : String) : IsBoundary s 0 := by
  rw [IsBoundary, String.Pos.Raw.isValid_iff_isValidUTF8_extract_zero]
  constructor
  · simp [String.Pos.Raw.le_iff]
  · simp

theorem isBoundary_length (s : String) : IsBoundary s (bytes s).length := by
  rw [IsBoundary, length_bytes, String.Pos.Raw.isValid_iff_isUTF8FirstByte]
  exact .inl rfl

theorem IsBoundary.le_length (hboundary : IsBoundary s offset) : offset ≤ (bytes s).length := by
  have hle := (String.Pos.Raw.isValid_iff_isValidUTF8_extract_zero.mp hboundary).1
  rw [length_bytes]
  simpa [String.Pos.Raw.le_iff] using hle

/-- The byte at a boundary is a first byte. -/
theorem IsBoundary.isFirst (hboundary : IsBoundary s offset) (h : (bytes s)[offset]? = some byte) :
    byte.IsUTF8FirstByte := by
  obtain ⟨hlt, heq⟩ := getUTF8Byte_eq h
  rcases String.Pos.Raw.isValid_iff_isUTF8FirstByte.mp hboundary with hend | ⟨hlt', hfirst⟩
  · rw [hend] at hlt
    simp [String.Pos.Raw.lt_iff] at hlt
  · exact heq ▸ hfirst

/-- The character at a boundary ends at a boundary. -/
theorem IsBoundary.next (hboundary : IsBoundary s offset) (h : (bytes s)[offset]? = some byte) :
    IsBoundary s (offset + width byte) := by
  obtain ⟨hlt, heq⟩ := getUTF8Byte_eq h
  have hne : (String.Pos.mk ⟨offset⟩ hboundary : s.Pos) ≠ s.endPos := by
    intro hend
    have hoffset := congrArg String.Pos.offset hend
    simp only [String.offset_endPos] at hoffset
    rw [hoffset] at hlt
    simp [String.Pos.Raw.lt_iff] at hlt
  have hbyte : (String.Pos.mk ⟨offset⟩ hboundary : s.Pos).byte hne = byte := by
    simp only [String.Pos.byte, String.Slice.Pos.byte, String.Slice.getUTF8Byte]
    simpa using heq
  have hnext := ((String.Pos.mk ⟨offset⟩ hboundary : s.Pos).next hne).isValid
  have hsize : width byte = ((String.Pos.mk ⟨offset⟩ hboundary : s.Pos).get hne).utf8Size := by
    rw [← String.Pos.utf8ByteSize_byte, ← hbyte]
    rfl
  rw [String.Pos.offset_next] at hnext
  rw [IsBoundary, hsize]
  exact hnext

/-- A byte below 128 is the first of a character. -/
theorem isBoundary_of_ascii (h : (bytes s)[offset]? = some byte) (hascii : byte < 128) :
    IsBoundary s offset := by
  obtain ⟨hlt, heq⟩ := getUTF8Byte_eq h
  refine String.Pos.Raw.isValid_iff_isUTF8FirstByte.mpr (.inr ⟨hlt, .inl ?_⟩)
  rw [heq]
  exact and_128_of_ascii hascii

/-- A byte below 128 is the last of a character. -/
theorem isBoundary_succ_of_ascii (h : (bytes s)[offset]? = some byte) (hascii : byte < 128) :
    IsBoundary s (offset + 1) := by
  have hnext := (isBoundary_of_ascii h hascii).next h
  rwa [width, if_pos (and_128_of_ascii hascii)] at hnext

/-! ### Bytes of characters -/

/-- The bytes of characters. -/
def encode (chars : List Char) : List UInt8 := chars.flatMap String.utf8EncodeChar

theorem encode_cons (c : Char) (chars : List Char) : encode (c :: chars) = String.utf8EncodeChar c ++ encode chars :=
  List.flatMap_cons

theorem encode_append (chars chars' : List Char) : encode (chars ++ chars') = encode chars ++ encode chars' :=
  List.flatMap_append

theorem bytes_ofList (chars : List Char) : bytes (String.ofList chars) = encode chars := by
  rw [bytes, String.toByteArray_ofList, List.utf8Encode, List.data_toByteArray, List.toList_toArray, encode]

theorem bytes_eq_encode (s : String) : bytes s = encode s.toList := by
  rw [← bytes_ofList, String.ofList_toList]

theorem bytes_append (s s' : String) : bytes (s ++ s') = bytes s ++ bytes s' := by
  rw [bytes_eq_encode, bytes_eq_encode, bytes_eq_encode, String.toList_append, encode_append]

/-- From a boundary on there are characters. -/
theorem IsBoundary.drop (hboundary : IsBoundary s offset) : ∃ chars, (bytes s).drop offset = encode chars := by
  have hsplits := (String.Pos.mk ⟨offset⟩ hboundary : s.Pos).splits
  obtain ⟨happend, hoffset⟩ := hsplits
  generalize (s.sliceTo _).copy = left at happend hoffset
  generalize (s.sliceFrom _).copy = right at happend hoffset
  have hlength : offset = (bytes left).length := by
    rw [length_bytes]
    exact congrArg String.Pos.Raw.byteIdx hoffset
  refine ⟨right.toList, ?_⟩
  rw [happend, bytes_append, hlength, List.drop_left, bytes_eq_encode]

theorem fromUTF8?_eq_some {l : List UInt8} : String.fromUTF8? ⟨l.toArray⟩ = some s ↔ bytes s = l := by
  unfold String.fromUTF8? String.fromUTF8
  constructor
  · intro h
    split at h
    · cases h
      rfl
    · cases h
  · rintro rfl
    have hbytes : (⟨(bytes s).toArray⟩ : ByteArray) = s.toByteArray := rfl
    rw [hbytes, dif_pos s.isValidUTF8]

theorem fromUTF8?_encode (chars : List Char) :
    String.fromUTF8? ⟨(encode chars).toArray⟩ = some (String.ofList chars) :=
  fromUTF8?_eq_some.mpr (bytes_ofList chars)

theorem encodeChar_of_ascii {c : Char} (h : c.toNat < 128) : String.utf8EncodeChar c = [c.toUInt8] := by
  have hsize : c.utf8Size = 1 := by
    rw [Char.utf8Size_eq_one_iff, UInt32.le_iff_toNat_le]
    exact Nat.le_of_lt_succ h
  exact String.utf8EncodeChar_eq_singleton hsize

theorem ge_of_mem_encodeChar {c : Char} (h : 128 ≤ c.toNat) (hbyte : byte ∈ String.utf8EncodeChar c) :
    128 ≤ byte := by
  have hor (left right : UInt8) (h : 128 ≤ right) : 128 ≤ left ||| right := by
    rw [UInt8.le_iff_toNat_le] at h ⊢
    rw [UInt8.toNat_or]
    exact Nat.le_trans h Nat.right_le_or
  have hsize : c.utf8Size ≠ 1 := by
    rw [ne_eq, Char.utf8Size_eq_one_iff, UInt32.le_iff_toNat_le]
    exact Nat.not_le.mpr h
  obtain hone | htwo | hthree | hfour := c.utf8Size_eq
  · exact absurd hone hsize
  · rw [String.utf8EncodeChar_eq_cons_cons htwo] at hbyte
    simp only [List.mem_cons, List.not_mem_nil, or_false] at hbyte
    obtain rfl | rfl := hbyte <;> exact hor _ _ (by decide)
  · rw [String.utf8EncodeChar_eq_cons_cons_cons hthree] at hbyte
    simp only [List.mem_cons, List.not_mem_nil, or_false] at hbyte
    obtain rfl | rfl | rfl := hbyte <;> exact hor _ _ (by decide)
  · rw [String.utf8EncodeChar_eq_cons_cons_cons_cons hfour] at hbyte
    simp only [List.mem_cons, List.not_mem_nil, or_false] at hbyte
    obtain rfl | rfl | rfl | rfl := hbyte <;> exact hor _ _ (by decide)

/-! ### ASCII characters -/

/-- The character of an ASCII byte. -/
def asciiChar (byte : UInt8) : Char := Char.ofNat byte.toNat

theorem toNat_toUInt8 {c : Char} (h : c.toNat < 128) : c.toUInt8.toNat = c.toNat := by
  show c.toNat % 256 = c.toNat
  exact Nat.mod_eq_of_lt (Nat.lt_trans h (by decide))

theorem eq_asciiChar {c : Char} (hc : c.toNat < 128) : c = asciiChar c.toUInt8 := by
  rw [asciiChar, toNat_toUInt8 hc, Char.ofNat_toNat]

/-- An ASCII byte at the start of some characters is the first of them. -/
theorem encode_eq_cons {chars : List Char} {byte : UInt8} {l : List UInt8} (h : encode chars = byte :: l)
    (hascii : byte < 128) : ∃ rest, chars = asciiChar byte :: rest ∧ encode rest = l := by
  cases chars with
  | nil => cases h
  | cons c rest =>
    rw [encode_cons] at h
    by_cases hc : c.toNat < 128
    · rw [encodeChar_of_ascii hc] at h
      obtain ⟨rfl, rfl⟩ := List.cons.inj h
      exact ⟨rest, congrArg (· :: rest) (eq_asciiChar hc), rfl⟩
    · obtain ⟨first, bytes, hbytes⟩ := List.exists_cons_of_ne_nil (String.utf8EncodeChar_ne_nil (c := c))
      have hge := ge_of_mem_encodeChar (Nat.le_of_not_lt hc) (hbytes ▸ List.mem_cons_self)
      rw [hbytes] at h
      obtain ⟨rfl, -⟩ := List.cons.inj h
      exact absurd hascii (UInt8.not_lt.mpr hge)

end Nia.Lib.Utf8
