import Nia.Git.Wire
import Nia.Lib.Cursor

/-! Deltas of Git packs, and their application.

A delta is read with a cursor; an index out of bounds is a trap, what the code rejects is an error with its text. Sizes
are numbers of `bits` bits in groups of seven. The checks in front of them keep all shifts within the type: a digit is
compared with what is left of it, and operands of copies have at most 32 bits.

Beside the code stands the format it reads: sizes (`IsVarint`), instructions with their output (`Produces`), and whole
deltas (`Describes`). -/
namespace Nia.Git

open Lib Lib.Slices

/-- Code that reads a delta, with a cursor. -/
abbrev Reader := Fallible Nat String

/-! ### The code -/

def maxObjectBytes : Nat := 64 * 1024 * 1024

/-- The loop of `read_delta_varint`. -/
def readDeltaVarintFrom (bits : Nat) (delta : Bytes) (value shift : Nat) : Reader Nat := do
  let byte ← Cursor.next delta "truncated Git delta size"
  let digit := (byte &&& 0x7f).toNat
  if hfits : bits ≤ shift ∨ (2 ^ bits - 1) >>> shift < digit then throw "Git delta size overflows"
  else
    let value := value ||| digit <<< shift
    if byte &&& 0x80 = 0 then return value
    else if bits ≤ shift + 7 then throw "Git delta size overflows"
    else readDeltaVarintFrom bits delta value (shift + 7)
termination_by bits - shift
decreasing_by omega

def readDeltaVarint (bits : Nat) (delta : Bytes) : Reader Nat := readDeltaVarintFrom bits delta 0 0

/-- Bytes of the delta to the result. -/
def insertInstruction (delta : Bytes) (resultSize : Nat) (result : Bytes) (instruction : UInt8) :
    Reader Bytes := do
  let length := instruction.toNat
  let cursor ← get
  if length = 0 ∨ delta.length - cursor < length then throw "Git delta insert instruction is invalid"
  else if resultSize - result.length < length then throw "Git delta result exceeds its declared size"
  else
    let bytes ← Fallible.orTrap (slice delta cursor (cursor + length))
    modify (· + length)
    return result ++ bytes

/-- A byte of an operand of a copy, if the instruction has its flag. -/
def readOperandByte (delta : Bytes) (instruction : UInt8) (firstFlag : Nat) (message : String)
    (operand bit : Nat) : Reader Nat :=
  if instruction &&& (1 <<< UInt8.ofNat (bit + firstFlag)) ≠ 0 then do
    let byte ← Cursor.next delta message
    return operand ||| byte.toNat <<< (bit * 8)
  else return operand

/-- Bytes of the base to the result. -/
def copyBytes (base : Bytes) (resultSize : Nat) (result : Bytes) (offset length : Nat) :
    Reader Bytes := do
  let length := if length = 0 then 0x10000 else length
  if base.length < offset ∨ base.length - offset < length then throw "Git delta copy exceeds its base"
  else if resultSize - result.length < length then throw "Git delta result exceeds its declared size"
  else
    let bytes ← Fallible.orTrap (slice base offset (offset + length))
    return result ++ bytes

def copyInstruction (base delta : Bytes) (resultSize : Nat) (result : Bytes) (instruction : UInt8) :
    Reader Bytes := do
  let offset ← (List.range 4).foldlM (readOperandByte delta instruction 0 "truncated Git delta copy offset") 0
  let length ← (List.range 3).foldlM (readOperandByte delta instruction 4 "truncated Git delta copy length") 0
  copyBytes base resultSize result offset length

def applyInstruction (base delta : Bytes) (resultSize : Nat) (result : Bytes) : Reader Bytes := do
  let instruction ← Fallible.orTrap delta[← get]?
  modify (· + 1)
  if instruction &&& 0x80 = 0 then insertInstruction delta resultSize result instruction
  else copyInstruction base delta resultSize result instruction

/-- The loop of `apply_delta`, with fuel for its rounds. -/
def applyInstructions (base delta : Bytes) (resultSize : Nat) : Nat → Bytes → Reader Bytes
  | 0, _ => Fallible.orTrap none
  | fuel + 1, result => do
    if (← get) < delta.length then do
      let result ← applyInstruction base delta resultSize result
      applyInstructions base delta resultSize fuel result
    else return result

/-- `apply_delta` behind the sizes. -/
def applySized (base delta : Bytes) (resultLimit sourceSize resultSize : Nat) : Reader Bytes := do
  if sourceSize ≠ base.length ∨ maxObjectBytes < resultSize then throw "Git delta base or result size is invalid"
  else if resultLimit < resultSize then throw "Git pack exceeds decoded size limit"
  else
    let result ← applyInstructions base delta resultSize (delta.length + 1) []
    if result.length ≠ resultSize then throw "Git delta result size is invalid" else return result

def applyDeltaFrom (bits : Nat) (base delta : Bytes) (resultLimit : Nat) : Reader Bytes := do
  let sourceSize ← readDeltaVarint bits delta
  let resultSize ← readDeltaVarint bits delta
  applySized base delta resultLimit sourceSize resultSize

/-- `apply_delta`; without a result where it traps. -/
def applyDelta (bits : Nat) (base delta : Bytes) (resultLimit : Nat) : Option (Except String Bytes) :=
  ((applyDeltaFrom bits base delta resultLimit).run 0).map Prod.fst

/-! ### The format -/

/-- Groups of seven bits, the lowest first; all but the last have the high bit. -/
inductive IsVarint : Bytes → Nat → Prop where
  | last {byte : UInt8} (h : byte.toNat < 128) : IsVarint [byte] byte.toNat
  | more {byte : UInt8} {bytes : Bytes} {value : Nat} (h : 128 ≤ byte.toNat) (hrest : IsVarint bytes value) :
    IsVarint (byte :: bytes) (byte.toNat - 128 + 128 * value)

/-- The bytes that are there for flags, and zeros for the others. -/
inductive Operands : List Bool → Bytes → List Nat → Prop where
  | nil : Operands [] [] []
  | absent {flags : List Bool} {bytes : Bytes} {values : List Nat} (hrest : Operands flags bytes values) :
    Operands (false :: flags) bytes (0 :: values)
  | present {flags : List Bool} {bytes : Bytes} {values : List Nat} (byte : UInt8)
    (hrest : Operands flags bytes values) : Operands (true :: flags) (byte :: bytes) (byte.toNat :: values)

/-- The number of these bytes, the lowest first. -/
def littleEndian (values : List Nat) : Nat := values.foldr (fun value rest => value + 256 * rest) 0

/-- The flags of a copy, for four bytes of an offset and three of a size. -/
def flagsOf (instruction : UInt8) : List Bool := (List.range 7).map instruction.toNat.testBit

/-- A size of zero stands for 2¹⁶. -/
def copySize (size : Nat) : Nat := if size = 0 then 0x10000 else size

/-- An instruction, and what it produces from a base. -/
inductive Instruction (base : Bytes) : Bytes → Bytes → Prop where
  | insert {length : UInt8} {bytes : Bytes} (hpos : 0 < length.toNat) (hlt : length.toNat < 128)
    (hlength : bytes.length = length.toNat) : Instruction base (length :: bytes) bytes
  | copy {instruction : UInt8} {bytes : Bytes} {values : List Nat} (hflag : 128 ≤ instruction.toNat)
    (hvalues : Operands (flagsOf instruction) bytes values)
    (hinside : littleEndian (values.take 4) + copySize (littleEndian (values.drop 4)) ≤ base.length) :
    Instruction base (instruction :: bytes)
      ((base.drop (littleEndian (values.take 4))).take (copySize (littleEndian (values.drop 4))))

/-- A sequence of instructions. -/
inductive Produces (base : Bytes) : Bytes → Bytes → Prop where
  | done : Produces base [] []
  | step {bytes output program rest : Bytes} (h : Instruction base bytes output)
    (hrest : Produces base program rest) : Produces base (bytes ++ program) (output ++ rest)

/-- A size that is read without overflow: no group is outside the type. -/
def FitsVarint (bits : Nat) (bytes : Bytes) (value : Nat) : Prop :=
  IsVarint bytes value ∧ bytes.length * 7 < bits + 7 ∧ value < 2 ^ bits

/-- A delta, and what it makes of a base within a limit. -/
def Describes (bits : Nat) (base delta : Bytes) (resultLimit : Nat) (result : Bytes) : Prop :=
  ∃ source target program, delta = source ++ (target ++ program) ∧ FitsVarint bits source base.length ∧
    FitsVarint bits target result.length ∧ result.length ≤ maxObjectBytes ∧ result.length ≤ resultLimit ∧
    Produces base program result

end Nia.Git
