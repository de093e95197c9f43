import Nia.Unicode.Scalar

/-! Views of UTF-8 text.

A view is made of bytes that decode to the end, scalar value by scalar value, and remembers how many there are; its
iterator decodes the same bytes again. Since the decoder undoes the encoder and nothing else, a slice has a view just
when it is the encoding of some text, of which there is then only one, and the iterator returns this text. -/
namespace Nia.Unicode
open Lib Lib.Slices List

/-! ### The code -/

structure Utf8View where
  bytes : Bytes
  scalarCount : Nat
  deriving DecidableEq

structure Utf8ViewIter where
  bytes : Bytes
  byteIndex : Nat
  remaining : Nat

def nextByteIndex (pointer : PointerWidth) (current width limit : Nat) : Option Nat :=
  match word pointer.bits (current + width) with
  | some next => if next ≤ limit then some next else none
  | none => none

/-- The loop of `fromBytes`, with fuel. -/
def fromBytesLoop (pointer : PointerWidth) (bytes : Bytes) :
    Nat → Nat → Nat → Option (Except Utf8DecodeError Utf8View)
  | 0, _, _ => none
  | fuel + 1, scalarCount, byteIndex =>
    if byteIndex < bytes.length then do
      match ← decodeUtf8First (← sliceFrom bytes byteIndex) with
      | .error error => return .error error
      | .ok (_, byteLen) =>
        match nextByteIndex pointer byteIndex byteLen bytes.length with
        | none => return .error .truncated
        | some byteIndex =>
          match word pointer.bits (scalarCount + 1) with
          | none => return .error .invalidScalar
          | some scalarCount => fromBytesLoop pointer bytes fuel scalarCount byteIndex
    else some (.ok ⟨bytes, scalarCount⟩)

def Utf8View.fromBytes (pointer : PointerWidth) (bytes : Bytes) : Option (Except Utf8DecodeError Utf8View) :=
  fromBytesLoop pointer bytes (bytes.length + 1) 0 0

def Utf8View.iter (view : Utf8View) : Utf8ViewIter := ⟨view.bytes, 0, view.scalarCount⟩

/-- The iterator at its end. -/
def Utf8ViewIter.ended (iter : Utf8ViewIter) : Utf8ViewIter :=
  { iter with byteIndex := iter.bytes.length, remaining := 0 }

def Utf8ViewIter.next (pointer : PointerWidth) (iter : Utf8ViewIter) : Option (Option Char × Utf8ViewIter) :=
  if iter.remaining = 0 then some (none, iter)
  else do
    match ← decodeUtf8First (← sliceFrom iter.bytes iter.byteIndex) with
    | .error _ => return (none, iter.ended)
    | .ok (scalar, byteLen) =>
      match nextByteIndex pointer iter.byteIndex byteLen iter.bytes.length with
      | none => return (none, iter.ended)
      | some byteIndex =>
        match sub iter.remaining 1 with
        | none => return (none, iter.ended)
        | some remaining => return (some scalar, { iter with byteIndex, remaining })

/-- What some calls of `next` return. -/
def Utf8ViewIter.nexts (pointer : PointerWidth) : Nat → Utf8ViewIter → Option (List (Option Char))
  | 0, _ => some []
  | count + 1, iter => do
    let (item, iter) ← iter.next pointer
    return item :: (← iter.nexts pointer count)

/-- The bytes of a text. -/
def encodeAll (chars : List Char) : Option Bytes := do
  let parts ← chars.mapM fun c => do (← encodeUtf8 c).encoded
  return parts.flatten

/-! ### Texts -/

theorem encodeAll_eq (chars : List Char) : encodeAll chars = some (chars.flatMap encode) := by
  have hparts : (chars.mapM fun c => do (← encodeUtf8 c).encoded) = some (chars.map encode) := by
    refine Trapping.mapM_of_eq fun c _ => ?_
    obtain ⟨scalar, hscalar, hencoded⟩ := encodeUtf8_eq c
    rw [Trapping.some_bind hscalar, hencoded]
  rw [encodeAll, Trapping.some_bind hparts, flatMap_def]
  rfl

/-- The first scalar value of a text is the one that is decoded. -/
theorem decodeUtf8First_text (c : Char) (chars : List Char) :
    decodeUtf8First ((c :: chars).flatMap encode) = some (.ok (c, (encode c).length)) := by
  obtain ⟨result, hresult, hiff⟩ := decodeUtf8First_iff ((c :: chars).flatMap encode)
  rw [hresult, (hiff c _).mpr ⟨rfl, flatMap_cons ▸ prefix_append _ _⟩]

theorem encode_ne_nil (c : Char) : encode c ≠ [] := by
  obtain ⟨width, bits, more, hshape⟩ := exists_shape (toNat_lt c)
  rw [hshape.encode_eq]
  exact cons_ne_nil _ _

theorem flatMap_encode_inj {chars chars' : List Char} (h : chars.flatMap encode = chars'.flatMap encode) :
    chars = chars' := by
  induction chars generalizing chars' with
  | nil =>
    cases chars' with
    | nil => rfl
    | cons c chars' =>
      rw [flatMap_nil, flatMap_cons] at h
      exact absurd (append_eq_nil_iff.mp h.symm).1 (encode_ne_nil c)
  | cons c chars ih =>
    cases chars' with
    | nil =>
      rw [flatMap_nil, flatMap_cons] at h
      exact absurd (append_eq_nil_iff.mp h).1 (encode_ne_nil c)
    | cons c' chars' =>
      have hfirst := (decodeUtf8First_text c chars).symm.trans (h ▸ decodeUtf8First_text c' chars')
      obtain ⟨rfl, -⟩ := Prod.mk.inj (Except.ok.inj (Option.some.inj hfirst))
      rw [flatMap_cons, flatMap_cons] at h
      rw [ih (append_cancel_left h)]

/-! ### Views -/

section

variable {pointer : PointerWidth} {bytes : Bytes}

theorem nextByteIndex_of_le {current width : Nat} (hlength : bytes.length < 2 ^ pointer.bits)
    (hle : current + width ≤ bytes.length) :
    nextByteIndex pointer current width bytes.length = some (current + width) := by
  rw [nextByteIndex, word_of_lt (Nat.lt_of_le_of_lt hle hlength)]
  exact if_pos hle

theorem fromBytesLoop_spec (hlength : bytes.length < 2 ^ pointer.bits) {fuel scalarCount byteIndex : Nat}
    (hfuel : bytes.length < fuel + byteIndex) (hindex : byteIndex ≤ bytes.length) (hcount : scalarCount ≤ byteIndex) :
    ∃ result, fromBytesLoop pointer bytes fuel scalarCount byteIndex = some result ∧ ∀ view,
      result = .ok view ↔ ∃ chars : List Char, bytes.drop byteIndex = chars.flatMap encode ∧
        view = ⟨bytes, scalarCount + chars.length⟩ := by
  induction fuel generalizing scalarCount byteIndex with
  | zero => omega
  | succ fuel ih =>
    rw [fromBytesLoop]
    split
    · next hmore =>
      rw [Trapping.some_bind (sliceFrom_of_le hindex)]
      obtain ⟨decoded, hdecoded, hiff⟩ := decodeUtf8First_iff (bytes.drop byteIndex)
      rw [Trapping.some_bind hdecoded]
      -- a text of these bytes begins with the scalar value that was decoded
      have htext {chars : List Char} (h : bytes.drop byteIndex = chars.flatMap encode) :
          ∃ c rest, chars = c :: rest ∧ decoded = .ok (c, (encode c).length) := by
        cases chars with
        | nil =>
          rw [flatMap_nil, drop_eq_nil_iff] at h
          omega
        | cons c rest =>
          exact ⟨c, rest, rfl, (hiff c _).mpr ⟨rfl, h ▸ flatMap_cons ▸ prefix_append _ _⟩⟩
      cases decoded with
      | error error =>
        refine ⟨.error error, rfl, fun view => ⟨nofun, ?_⟩⟩
        rintro ⟨chars, hchars, -⟩
        obtain ⟨c, rest, -, hok⟩ := htext hchars
        cases hok
      | ok found =>
        obtain ⟨c, width⟩ := found
        obtain ⟨rfl, after, hafter⟩ := (hiff c width).mp rfl
        have hdrop : bytes.drop (byteIndex + (encode c).length) = after := by
          rw [← drop_drop, ← hafter, drop_left]
        have hwidth : byteIndex + (encode c).length ≤ bytes.length := by
          have hlengths := congrArg List.length hafter
          rw [length_append, length_drop] at hlengths
          omega
        have hpositive : 0 < (encode c).length := length_pos_iff.mpr (encode_ne_nil c)
        have hcounted : scalarCount + 1 ≤ byteIndex + (encode c).length := by omega
        obtain ⟨result, hresult, hviews⟩ := ih (by omega) hwidth hcounted
        refine ⟨result, ?_, fun view => (hviews view).trans ⟨?_, ?_⟩⟩
        · dsimp only
          rw [nextByteIndex_of_le hlength hwidth, word_of_lt (by omega)]
          exact hresult
        · rintro ⟨chars, hchars, rfl⟩
          refine ⟨c :: chars, ?_, by rw [length_cons, Nat.add_assoc, Nat.add_comm 1]⟩
          rw [flatMap_cons, ← hchars, hdrop, hafter]
        · rintro ⟨chars, hchars, rfl⟩
          obtain ⟨c', rest, rfl, hok⟩ := htext hchars
          obtain ⟨rfl, -⟩ := Prod.mk.inj (Except.ok.inj hok)
          refine ⟨rest, ?_, by rw [length_cons, Nat.add_assoc, Nat.add_comm 1]⟩
          rw [flatMap_cons, ← hafter] at hchars
          rw [hdrop, append_cancel_left hchars]
    · next hend =>
      refine ⟨_, rfl, fun view => ⟨fun h => ⟨[], ?_, (Except.ok.inj h).symm⟩, ?_⟩⟩
      · rw [drop_eq_nil_of_le (Nat.le_of_not_lt hend), flatMap_nil]
      · rintro ⟨chars, hchars, rfl⟩
        rw [drop_eq_nil_of_le (Nat.le_of_not_lt hend)] at hchars
        rw [← flatMap_encode_inj (flatMap_nil.trans hchars)]
        rfl

theorem next_text {byteIndex : Nat} {c : Char} {chars : List Char} (hlength : bytes.length < 2 ^ pointer.bits)
    (htext : bytes.drop byteIndex = (c :: chars).flatMap encode) :
    Utf8ViewIter.next pointer ⟨bytes, byteIndex, chars.length + 1⟩ =
      some (some c, ⟨bytes, byteIndex + (encode c).length, chars.length⟩) := by
  have hpositive : 0 < (encode c).length := length_pos_iff.mpr (encode_ne_nil c)
  have hlengths := congrArg List.length htext
  rw [flatMap_cons, length_append, length_drop] at hlengths
  have hindex : byteIndex ≤ bytes.length := by omega
  rw [Utf8ViewIter.next, if_neg (Nat.succ_ne_zero _), Trapping.some_bind (sliceFrom_of_le hindex), htext,
    Trapping.some_bind (decodeUtf8First_text c chars)]
  dsimp only
  rw [nextByteIndex_of_le hlength (by omega), sub_of_le (by omega)]
  rfl

theorem nexts_ended (count byteIndex : Nat) :
    Utf8ViewIter.nexts pointer count ⟨bytes, byteIndex, 0⟩ = some (List.replicate count none) := by
  induction count with
  | zero => rfl
  | succ count ih =>
    have hnext : Utf8ViewIter.next pointer ⟨bytes, byteIndex, 0⟩ = some (none, ⟨bytes, byteIndex, 0⟩) := rfl
    rw [Utf8ViewIter.nexts, Trapping.some_bind hnext]
    dsimp only
    rw [Trapping.some_bind ih]
    rfl

/-- From a place at which a text is left, the iterator returns the text and then nothing. -/
theorem nexts_text (hlength : bytes.length < 2 ^ pointer.bits) (extra : Nat) {byteIndex : Nat} {chars : List Char}
    (htext : bytes.drop byteIndex = chars.flatMap encode) :
    Utf8ViewIter.nexts pointer (chars.length + extra) ⟨bytes, byteIndex, chars.length⟩ =
      some (chars.map some ++ List.replicate extra none) := by
  induction chars generalizing byteIndex with
  | nil =>
    rw [length_nil, Nat.zero_add]
    exact nexts_ended extra byteIndex
  | cons c chars ih =>
    have hrest : bytes.drop (byteIndex + (encode c).length) = chars.flatMap encode := by
      rw [← drop_drop, htext, flatMap_cons, drop_left]
    rw [length_cons, Nat.add_right_comm, Utf8ViewIter.nexts, Trapping.some_bind (next_text hlength htext)]
    dsimp only
    rw [Trapping.some_bind (ih hrest)]
    rfl

end

/-- **A slice has a view just when it is the encoding of a text.** Every text has an encoding, and two texts never the
same one. Over a slice that fits the address space `fromBytes` never traps; it returns a view if and only if some text
is encoded by the slice, and the view then counts the scalar values of this text. However often the iterator of the view
is called, it returns the scalar values of the text in their order, and nothing from then on. -/
theorem fromBytes_iff_encoded (pointer : PointerWidth) (bytes : List UInt8)
    (hlength : bytes.length < 2 ^ pointer.bits) :
    (∀ chars, ∃ encoded, encodeAll chars = some encoded ∧ ∀ chars', encodeAll chars' = some encoded → chars' = chars) ∧
      ∃ result, Utf8View.fromBytes pointer bytes = some result ∧
        ((∃ view, result = .ok view) ↔ ∃ chars, encodeAll chars = some bytes) ∧
        ∀ view chars, result = .ok view → encodeAll chars = some bytes →
          view = ⟨bytes, chars.length⟩ ∧ ∀ extra, view.iter.nexts pointer (chars.length + extra) =
            some (chars.map some ++ List.replicate extra none) := by
  have hbytes (chars : List Char) : encodeAll chars = some bytes ↔ bytes.drop 0 = chars.flatMap encode := by
    rw [encodeAll_eq, Option.some_inj, drop_zero]
    exact eq_comm
  refine ⟨fun chars => ⟨_, encodeAll_eq chars, fun chars' h => ?_⟩, ?_⟩
  · rw [encodeAll_eq] at h
    exact flatMap_encode_inj (Option.some.inj h)
  obtain ⟨result, hresult, hviews⟩ := fromBytesLoop_spec hlength (Nat.lt_succ_self _) (Nat.zero_le _) (Nat.le_refl 0)
  refine ⟨result, hresult, ⟨?_, ?_⟩, fun view chars hview hchars => ?_⟩
  · rintro ⟨view, hview⟩
    obtain ⟨chars, hchars, -⟩ := (hviews view).mp hview
    exact ⟨chars, (hbytes chars).mpr hchars⟩
  · rintro ⟨chars, hchars⟩
    exact ⟨_, (hviews _).mpr ⟨chars, (hbytes chars).mp hchars, rfl⟩⟩
  · have htext := (hbytes chars).mp hchars
    obtain ⟨chars', hchars', rfl⟩ := (hviews view).mp hview
    obtain rfl := flatMap_encode_inj (hchars'.symm.trans htext)
    rw [Nat.zero_add]
    exact ⟨rfl, fun extra => nexts_text hlength extra htext⟩

/-- The three bytes of the euro sign between two letters. -/
theorem fromBytes_iff_encoded_euro :
    ∃ result, Utf8View.fromBytes .w64 [97, 226, 130, 172, 98] = some result ∧
      ((∃ view, result = .ok view) ↔ ∃ chars, encodeAll chars = some [97, 226, 130, 172, 98]) := by
  obtain ⟨-, result, hresult, hiff, -⟩ := fromBytes_iff_encoded .w64 [97, 226, 130, 172, 98] (by decide)
  exact ⟨result, hresult, hiff⟩

end Nia.Unicode
