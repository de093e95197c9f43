import Nia.Lib.Slices
import Nia.Ty.IntConst

/-! The streaming hash `Wyhash`.

Blocks of 48 bytes go into three lanes, but the last block only at the end: a block is taken once there is a byte
behind it. What is left is kept in a buffer, and since the end needs the last 16 bytes of the whole input, the tail of
the buffer keeps bytes of the block before when less than 16 are left. Sizes are natural numbers; differences, indices
and slices out of bounds are `none`. -/
namespace Nia.Hash

open Lib.Slices

def wyhashSecret0 : UInt64 := 0xa0761d6478bd642f
def wyhashSecret1 : UInt64 := 0xe7037ed1a0b428db
def wyhashSecret2 : UInt64 := 0x8ebc6af09c88c6e3
def wyhashSecret3 : UInt64 := 0x589965cc75374cc3

/-- Sum of `u64` in `u128`, back in `u64`. -/
def addWrap64 (left right : UInt64) : UInt64 := .ofNat (left.toNat + right.toNat)

/-- The product in `u128`, folded. -/
def mix (a b : UInt64) : UInt64 :=
  let product := a.toNat * b.toNat
  .ofNat product ^^^ .ofNat (product >>> 64)

def read4 (bytes : Bytes) : Option UInt64 := do
  return (← bytes[0]?).toUInt64
    ||| ((← bytes[1]?).toUInt64 <<< 8)
    ||| ((← bytes[2]?).toUInt64 <<< 16)
    ||| ((← bytes[3]?).toUInt64 <<< 24)

def read8 (bytes : Bytes) : Option UInt64 := do
  return (← bytes[0]?).toUInt64
    ||| ((← bytes[1]?).toUInt64 <<< 8)
    ||| ((← bytes[2]?).toUInt64 <<< 16)
    ||| ((← bytes[3]?).toUInt64 <<< 24)
    ||| ((← bytes[4]?).toUInt64 <<< 32)
    ||| ((← bytes[5]?).toUInt64 <<< 40)
    ||| ((← bytes[6]?).toUInt64 <<< 48)
    ||| ((← bytes[7]?).toUInt64 <<< 56)

/-- `Wyhash`. -/
structure Wyhash where
  a : UInt64
  b : UInt64
  state0 : UInt64
  state1 : UInt64
  state2 : UInt64
  totalLen : UInt64
  longInput : Bool
  buf : Bytes
  bufLen : Nat

namespace Wyhash

def init (seed : UInt64) : Wyhash :=
  let state := seed ^^^ mix (seed ^^^ wyhashSecret0) wyhashSecret1
  { a := 0, b := 0, state0 := state, state1 := state, state2 := state, totalLen := 0, longInput := false
    buf := List.replicate 48 0, bufLen := 0 }

def round (self : Wyhash) (bytes : Bytes) : Option Wyhash := do
  let state0 := mix ((← read8 (← sliceFrom bytes 0)) ^^^ wyhashSecret1)
    ((← read8 (← sliceFrom bytes 8)) ^^^ self.state0)
  let state1 := mix ((← read8 (← sliceFrom bytes 16)) ^^^ wyhashSecret2)
    ((← read8 (← sliceFrom bytes 24)) ^^^ self.state1)
  let state2 := mix ((← read8 (← sliceFrom bytes 32)) ^^^ wyhashSecret3)
    ((← read8 (← sliceFrom bytes 40)) ^^^ self.state2)
  return { self with state0, state1, state2 }

/-- The loop of `update`: blocks, while there is a byte behind them. -/
def rounds (self : Wyhash) (bytes : Bytes) (index : Nat) : Option (Wyhash × Nat) :=
  if bytes.length < index then none
  else if 48 < bytes.length - index then do
    let next := index + 48
    let self ← self.round (← slice bytes index next)
    self.rounds bytes next
  else some (self, index)
termination_by bytes.length - index

/-- The first statement of `update`: whether the input is long now, on a machine with so many bits in a pointer. -/
def nextLongInput (self : Wyhash) (arch : Ty.Arch) (bytes : Bytes) : Option Bool :=
  if !self.longInput then do
    let free ← sub 16 (self.totalLen.toNat % 2 ^ arch.pointerWidth)
    return free < bytes.length
  else return self.longInput

/-- The part of `update` that fills the buffer and takes it as a block. -/
def fillBuffer (self : Wyhash) (bytes : Bytes) : Option (Wyhash × Nat) :=
  if 0 < self.bufLen then do
    let index ← sub 48 self.bufLen
    let buf ← copyFrom self.buf self.bufLen 48 (← slice bytes 0 index)
    let self ← { self with buf }.round buf
    return ({ self with bufLen := 0 }, index)
  else return (self, 0)

/-- The part of `update` that keeps the end of the last block for a short rest. -/
def keepTail (self : Wyhash) (bytes remaining : Bytes) (index : Nat) : Option Bytes :=
  if remaining.length < 16 && 48 ≤ index then do
    let rem ← sub 16 remaining.length
    copyFrom self.buf (← sub 48 rem) 48 (← slice bytes (← sub index rem) index)
  else return self.buf

def update (self : Wyhash) (arch : Ty.Arch) (bytes : Bytes) : Option Wyhash := do
  let longInput ← self.nextLongInput arch bytes
  let self := { self with longInput, totalLen := addWrap64 self.totalLen (.ofNat bytes.length) }
  if bytes.length ≤ (← sub 48 self.bufLen) then
    let buf ← copyFrom self.buf self.bufLen (self.bufLen + bytes.length) bytes
    return { self with buf, bufLen := self.bufLen + bytes.length }
  else
    let (self, index) ← self.fillBuffer bytes
    let (self, index) ← self.rounds bytes index
    let remaining ← sliceFrom bytes index
    let buf ← self.keepTail bytes remaining index
    let buf ← copyFrom buf 0 remaining.length remaining
    return { self with buf, bufLen := remaining.length }

def shallowCopy (self : Wyhash) : Wyhash := { self with buf := List.replicate 48 0, bufLen := 0 }

def smallKey (self : Wyhash) (bytes : Bytes) : Option Wyhash := do
  let self := { self with a := 0, b := 0 }
  if 4 ≤ bytes.length then
    let stop ← sub bytes.length 4
    let quarter := (bytes.length >>> 3) <<< 2
    let a := ((← read4 (← sliceFrom bytes 0)) <<< 32) ||| (← read4 (← sliceFrom bytes quarter))
    let b := ((← read4 (← sliceFrom bytes stop)) <<< 32) ||| (← read4 (← sliceFrom bytes (← sub stop quarter)))
    return { self with a, b }
  else if 0 < bytes.length then
    let a := ((← bytes[0]?).toUInt64 <<< 16)
      ||| ((← bytes[bytes.length >>> 1]?).toUInt64 <<< 8)
      ||| (← bytes[← sub bytes.length 1]?).toUInt64
    return { self with a }
  else
    return self

def final0 (self : Wyhash) : Wyhash := { self with state0 := self.state0 ^^^ (self.state1 ^^^ self.state2) }

/-- The loop of `final1`. -/
def finalRounds (state0 : UInt64) (input : Bytes) (i : Nat) : Option UInt64 :=
  if i + 16 < input.length then do
    let state0 := mix ((← read8 (← sliceFrom input i)) ^^^ wyhashSecret1)
      ((← read8 (← sliceFrom input (i + 8))) ^^^ state0)
    finalRounds state0 input (i + 16)
  else some state0
termination_by input.length - i

def final1 (self : Wyhash) (inputLb : Bytes) (startPos : Nat) : Option Wyhash := do
  let input ← sliceFrom inputLb startPos
  let state0 ← finalRounds self.state0 input 0
  let a ← read8 (← sliceFrom inputLb (← sub inputLb.length 16))
  let b ← read8 (← sliceFrom inputLb (← sub inputLb.length 8))
  return { self with state0, a, b }

def final2 (self : Wyhash) : UInt64 :=
  let a := self.a ^^^ wyhashSecret1
  let b := self.b ^^^ self.state0
  let product := a.toNat * b.toNat
  let a : UInt64 := .ofNat product
  let b : UInt64 := .ofNat (product >>> 64)
  mix (a ^^^ wyhashSecret0 ^^^ self.totalLen) (b ^^^ wyhashSecret1)

/-- The input of the last rounds, and where the rest starts in it. -/
def finalInput (self : Wyhash) : Option (Bytes × Nat) := do
  let scratch := List.replicate 16 0
  let input ← slice self.buf 0 self.bufLen
  if self.bufLen < 16 then
    let rem ← sub 16 self.bufLen
    let scratch ← copyFrom scratch 0 rem (← slice self.buf (← sub 48 rem) 48)
    let scratch ← copyFrom scratch rem 16 (← slice self.buf 0 self.bufLen)
    return (scratch, rem)
  else return (input, 0)

def finishValue (self : Wyhash) : Option UInt64 :=
  let copy := self.shallowCopy
  if !self.longInput then do
    let copy ← copy.smallKey (← slice self.buf 0 self.bufLen)
    return copy.final2
  else do
    let (input, offset) ← self.finalInput
    let copy ← copy.final0.final1 input offset
    return copy.final2

end Wyhash

def wyhash (arch : Ty.Arch) (seed : UInt64) (bytes : Bytes) : Option UInt64 := do
  let hasher ← (Wyhash.init seed).update arch bytes
  hasher.finishValue

end Nia.Hash
