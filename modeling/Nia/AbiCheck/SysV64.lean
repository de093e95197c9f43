import Mathlib

/-! The System V calling convention of aggregates.

An aggregate is flattened into leaves; its two eightbytes get the classes of the leaves in them, and it is passed in
registers when it is small, aligned and its classes fit the registers that are left. Its machine parts then stand for
its eightbytes.

`classify_follows_iff` says when that carries every byte of every leaf in the register of its eightbyte's class. An
eightbyte without leaves has no class and should take no register, but a first eightbyte without leaves is passed as
an integer; that is the only exception, and the compiler builds no such aggregate, since the first field with a size
stands at its start. -/
namespace Nia.AbiCheck

/-! ### Types -/

/-- A value as a C calling convention sees it; a struct with its size, alignment, and fields at their offsets. -/
inductive CType where
  | int (bytes : Nat) (signed : Bool)
  | float
  | double
  | pointer
  | array (elem : CType) (len : Nat)
  | aggregate (size align : Nat) (fields : List (Nat × CType))

inductive CAbiType where
  | int (bits : Nat)
  | float
  | double
  | pointer
  | floatPair
  | intVectorPair
  | array (elem : CAbiType) (len : Nat)
  | struct (fields : List CAbiType)

inductive CPass where
  | natural
  | coerced (ty : CAbiType)

inductive CExtension where
  | none
  | sign
  | zero

inductive CArg where
  | ignore
  | direct (pass : CPass) (extension : CExtension) (alignStack : Option Nat)
  | expand (parts : List (Nat × CAbiType))
  | byval (align : Nat)
  | indirect (align : Nat)

inductive CRet where
  | void
  | direct (pass : CPass) (extension : CExtension)
  | sret (align : Nat)

structure CFunctionAbi where
  args : List CArg
  ret : CRet

def CType.size (pointerSize : Nat) : CType → Nat
  | .int bytes _ => bytes
  | .float => 4
  | .double => 8
  | .pointer => pointerSize
  | .array elem len => elem.size pointerSize * len
  | .aggregate size _ _ => size

inductive Leaf where
  | int (bytes : Nat)
  | float
  | double
  | pointer
  deriving DecidableEq

def Leaf.size (pointerSize : Nat) : Leaf → Nat
  | .int bytes => bytes
  | .float => 4
  | .double => 8
  | .pointer => pointerSize

mutual

/-- `push_leaves`, of one value at its offset. -/
def pushLeaves (pointerSize : Nat) : CType → Nat → List (Nat × Leaf)
  | .int bytes _, offset => [(offset, .int bytes)]
  | .float, offset => [(offset, .float)]
  | .double, offset => [(offset, .double)]
  | .pointer, offset => [(offset, .pointer)]
  | .array elem len, offset =>
    (List.range len).flatMap fun index => pushLeaves pointerSize elem (offset + index * elem.size pointerSize)
  | .aggregate _ _ fields, offset => pushFields pointerSize fields offset

/-- The loop over the fields of a struct. -/
def pushFields (pointerSize : Nat) : List (Nat × CType) → Nat → List (Nat × Leaf)
  | [], _ => []
  | (fieldOffset, field) :: fields, offset =>
    pushLeaves pointerSize field (offset + fieldOffset) ++ pushFields pointerSize fields offset

end

def leaves (pointerSize : Nat) (fields : List (Nat × CType)) : List (Nat × Leaf) := pushFields pointerSize fields 0

def scalarExtension : CType → CExtension
  | .int bytes signed => if bytes < 4 then if signed then .sign else .zero else .none
  | _ => .none

def natural (extension : CExtension) : CArg := .direct .natural extension none

def coerced (ty : CAbiType) : CArg := .direct (.coerced ty) .none none

def coercedRet (ty : CAbiType) : CRet := .direct (.coerced ty) .none

def intBits (bytes : Nat) : Nat := if bytes * 8 < 2 ^ 32 then bytes * 8 else 2 ^ 32 - 1

namespace SysV64

/-! ### The code -/

def pointerSize : Nat := 8

def intRegisters : Nat := 6

def sseRegisters : Nat := 8

inductive Class where
  | none
  | integer
  | sse
  deriving DecidableEq

def merge : Class → Class → Class
  | .none, other => other
  | other, .none => other
  | .integer, _ => .integer
  | _, .integer => .integer
  | .sse, .sse => .sse

/-- `next_power_of_two` -/
def nextPowerOfTwo (n : Nat) : Nat := 2 ^ Nat.clog 2 n

def leafAlign : Leaf → Nat
  | .int bytes => min (nextPowerOfTwo bytes) 16
  | .float => 4
  | .double | .pointer => 8

def hasUnalignedLeaf (leaves : List (Nat × Leaf)) : Bool :=
  leaves.any fun leaf => decide (leaf.1 % leafAlign leaf.2 ≠ 0)

def leafClass : Leaf → Class
  | .int _ | .pointer => .integer
  | .float | .double => .sse

/-- Merges a leaf into the slot of an eightbyte, if it reaches into it. -/
def mergeLeaf (index : Nat) (slot : Class) (leaf : Nat × Leaf) : Class :=
  if leaf.1 < index * 8 + 8 ∧ index * 8 < leaf.1 + leaf.2.size pointerSize then merge slot (leafClass leaf.2) else slot

/-- The slots do not depend on each other, so each has a loop of its own. -/
def classifyEightbytes (size : Nat) (leaves : List (Nat × Leaf)) : Option (Class × Class) :=
  if 16 < size ∨ hasUnalignedLeaf leaves = true then none
  else some (leaves.foldl (mergeLeaf 0) .none, leaves.foldl (mergeLeaf 1) .none)

def hasData (leaves : List (Nat × Leaf)) (start stop : Nat) : Bool :=
  leaves.any fun leaf => decide (leaf.1 < stop ∧ start < leaf.1 + leaf.2.size pointerSize)

def partType (size : Nat) (leaves : List (Nat × Leaf)) (eightbyte : Nat) (cls : Class) : CAbiType :=
  let start := eightbyte * 8
  let stop := min size (start + 8)
  let leafAt := (leaves.find? fun leaf => decide (leaf.1 = start)).map Prod.snd
  match cls with
  | .sse =>
    if leafAt = some .double then .double
    else if (leaves.any fun leaf => decide (leaf.1 = start + 4 ∧ leaf.2 = .float)) = true then .floatPair
    else if hasData leaves (start + 4) stop = false then .float
    else .double
  | .integer | .none =>
    match leafAt with
    | some .pointer => .pointer
    | some (.int bytes) =>
      if bytes = 8 then .int 64
      else if bytes < 8 ∧ hasData leaves (start + bytes) stop = false then .int (intBits bytes)
      else .int (intBits (stop - start))
    | _ => .int (intBits (stop - start))

def divCeil (n d : Nat) : Nat := (n + d - 1) / d

mutual

def naturalAlign : CAbiType → Nat
  | .int bits => min (nextPowerOfTwo (divCeil bits 8)) 8
  | .float => 4
  | .double | .pointer | .floatPair => 8
  | .intVectorPair => 16
  | .array elem _ => naturalAlign elem
  | .struct fields => (naturalAlignMax fields).getD 1

/-- `map(natural_align).max()` -/
def naturalAlignMax : List CAbiType → Option Nat
  | [] => none
  | field :: fields => some (max (naturalAlign field) ((naturalAlignMax fields).getD 0))

end

def naturalSize : CAbiType → Nat
  | .int bits => divCeil bits 8
  | .float => 4
  | _ => 8

def parts (size : Nat) (leaves : List (Nat × Leaf)) (classes : Class × Class) : List CAbiType :=
  if leaves = [(0, .int 16)] then [.int 128]
  else
    let low := partType size leaves 0 classes.1
    if classes.2 = .none then [low]
    else
      let high := partType size leaves 1 classes.2
      let low :=
        if naturalSize low < 8 ∧ naturalAlign high < 8 then
          match classes.1 with
          | .sse => .double
          | .integer | .none => .int 64
        else low
      [low, high]

def neededRegisters (classes : Class × Class) : Nat × Nat :=
  [classes.1, classes.2].foldl (fun needed cls =>
    match cls with
    | .integer => (needed.1 + 1, needed.2)
    | .sse => (needed.1, needed.2 + 1)
    | .none => needed) (0, 0)

/-- The result, and whether it is written through a hidden pointer. -/
def classifyRet : Option CType → CRet × Bool
  | none => (.void, false)
  | some (.aggregate size align fields) =>
    if size = 0 then (.void, false)
    else
      match classifyEightbytes size (leaves pointerSize fields) with
      | none => (.sret align, true)
      | some classes =>
        match parts size (leaves pointerSize fields) classes with
        | [part] => (coercedRet part, false)
        | parts => (coercedRet (.struct parts), false)
  | some scalar => (.direct .natural (scalarExtension scalar), false)

/-- One parameter, with the registers that are free before and after it. -/
def classifyArg (free : Nat × Nat) : CType → CArg × (Nat × Nat)
  | .aggregate size align fields =>
    if size = 0 then (.ignore, free)
    else
      match classifyEightbytes size (leaves pointerSize fields) with
      | none => (.byval (max align 8), free)
      | some classes =>
        let needed := neededRegisters classes
        if free.1 < needed.1 ∨ free.2 < needed.2 then (.byval (max align 8), free)
        else
          let free := (free.1 - needed.1, free.2 - needed.2)
          match parts size (leaves pointerSize fields) classes with
          | [part] => (coerced part, free)
          | parts => (.expand ([0, 8].zip parts), free)
  | scalar =>
    let needed := match scalar with
      | .float | .double => (0, 1)
      | .int 16 _ => (2, 0)
      | _ => (1, 0)
    let free := if needed.1 ≤ free.1 ∧ needed.2 ≤ free.2 then (free.1 - needed.1, free.2 - needed.2) else free
    (natural (scalarExtension scalar), free)

def classifyArgs (free : Nat × Nat) : List CType → List CArg
  | [] => []
  | param :: params => (classifyArg free param).1 :: classifyArgs (classifyArg free param).2 params

def classify (params : List CType) (ret : Option CType) : CFunctionAbi :=
  let (ret, hidden) := classifyRet ret
  let freeInt := if hidden then intRegisters - 1 else intRegisters
  ⟨classifyArgs (freeInt, sseRegisters) params, ret⟩

end SysV64

/-! ### The convention -/

/-- The leaves of a type, at their offsets from its start. -/
inductive At (pointerSize : Nat) : CType → Nat → Leaf → Prop where
  | int {bytes : Nat} {signed : Bool} : At pointerSize (.int bytes signed) 0 (.int bytes)
  | float : At pointerSize .float 0 .float
  | double : At pointerSize .double 0 .double
  | pointer : At pointerSize .pointer 0 .pointer
  | element {elem : CType} {len index offset : Nat} {leaf : Leaf} (hindex : index < len)
    (h : At pointerSize elem offset leaf) :
    At pointerSize (.array elem len) (index * elem.size pointerSize + offset) leaf
  | field {size align fieldOffset offset : Nat} {fields : List (Nat × CType)} {field : CType} {leaf : Leaf}
    (hfield : (fieldOffset, field) ∈ fields) (h : At pointerSize field offset leaf) :
    At pointerSize (.aggregate size align fields) (fieldOffset + offset) leaf

/-- An integer has one of the sizes of C. -/
def Leaf.IsC : Leaf → Prop
  | .int bytes => bytes ∈ [1, 2, 4, 8, 16]
  | _ => True

/-- The leaves of an aggregate are inside it. -/
def CType.InRange : CType → Prop
  | .aggregate size align fields => ∀ offset leaf, At 8 (.aggregate size align fields) offset leaf →
      offset + leaf.size 8 ≤ size ∧ leaf.IsC
  | _ => True

namespace SysV64

/-- A byte of the leaf is in the eightbyte. -/
def Inside (leaf : Nat × Leaf) (index : Nat) : Prop :=
  ∃ byte < leaf.1 + leaf.2.size pointerSize, leaf.1 ≤ byte ∧ byte / 8 = index

instance (leaf : Nat × Leaf) (index : Nat) : Decidable (Inside leaf index) :=
  inferInstanceAs (Decidable (∃ byte < leaf.1 + leaf.2.size pointerSize, leaf.1 ≤ byte ∧ byte / 8 = index))

/-- An eightbyte is an integer when a leaf in it is, else it is a float when there is a leaf in it at all. -/
def eightbyteClass (leaves : List (Nat × Leaf)) (index : Nat) : Class :=
  if ∃ leaf ∈ leaves, Inside leaf index ∧ leafClass leaf.2 = .integer then .integer
  else if ∃ leaf ∈ leaves, Inside leaf index then .sse
  else .none

def Class.registers : Class → Nat × Nat
  | .integer => (1, 0)
  | .sse => (0, 1)
  | .none => (0, 0)

/-- The registers that the eightbytes of an aggregate take. -/
def takes (leaves : List (Nat × Leaf)) : Nat × Nat :=
  ((eightbyteClass leaves 0).registers.1 + (eightbyteClass leaves 1).registers.1,
    (eightbyteClass leaves 0).registers.2 + (eightbyteClass leaves 1).registers.2)

/-- At most two eightbytes, and no leaf that is not aligned. -/
def Small (size : Nat) (fields : List (Nat × CType)) : Prop :=
  size ≤ 16 ∧ ∀ leaf ∈ leaves pointerSize fields, leaf.2.size pointerSize ∣ leaf.1

instance (size : Nat) (fields : List (Nat × CType)) : Decidable (Small size fields) :=
  inferInstanceAs (Decidable (_ ∧ _))

def InRegisters (free : Nat × Nat) (size : Nat) (fields : List (Nat × CType)) : Prop :=
  Small size fields ∧ (takes (leaves pointerSize fields)).1 ≤ free.1 ∧ (takes (leaves pointerSize fields)).2 ≤ free.2

instance (free : Nat × Nat) (size : Nat) (fields : List (Nat × CType)) : Decidable (InRegisters free size fields) :=
  inferInstanceAs (Decidable (_ ∧ _))

/-- Takes registers if there are enough. -/
def takeFrom (free needed : Nat × Nat) : Nat × Nat :=
  if needed.1 ≤ free.1 ∧ needed.2 ≤ free.2 then (free.1 - needed.1, free.2 - needed.2) else free

/-- The registers that a parameter leaves. -/
def leaveRegisters (free : Nat × Nat) : CType → Nat × Nat
  | .aggregate size _ fields =>
    if Small size fields then takeFrom free (takes (leaves pointerSize fields)) else free
  | .float | .double => takeFrom free (0, 1)
  | .int 16 _ => takeFrom free (2, 0)
  | _ => takeFrom free (1, 0)

/-- The registers before the first parameter: a result in memory needs a hidden pointer. -/
def startRegisters : Option CType → Nat × Nat
  | some (.aggregate size _ fields) => if Small size fields then (6, 8) else (5, 8)
  | _ => (6, 8)

def registersBefore (params : List CType) (ret : Option CType) (index : Nat) : Nat × Nat :=
  (params.take index).foldl leaveRegisters (startRegisters ret)

def registerClass : CAbiType → Class
  | .int _ | .pointer => .integer
  | .float | .double | .floatPair => .sse
  | _ => .none

def alignUp (offset align : Nat) : Nat := divCeil offset align * align

/-- The parts of a literal struct at their natural offsets. -/
def place (offset : Nat) : List CAbiType → List (Nat × CAbiType)
  | [] => []
  | part :: parts =>
    (alignUp offset (naturalAlign part), part) :: place (alignUp offset (naturalAlign part) + naturalSize part) parts

/-- The machine parts of an argument; none when it is in memory. -/
def argParts : CArg → Option (List (Nat × CAbiType))
  | .ignore => some []
  | .direct (.coerced part) _ _ => some [(0, part)]
  | .expand parts => some parts
  | _ => none

def retParts : CRet → Option (List (Nat × CAbiType))
  | .void => some []
  | .direct (.coerced (.struct parts)) _ => some (place 0 parts)
  | .direct (.coerced part) _ => some [(0, part)]
  | _ => none

/-- The class of the register that an eightbyte is in. -/
def classAt (parts : List (Nat × CAbiType)) (index : Nat) : Class :=
  match parts.find? fun part => decide (part.1 ≤ index * 8 ∧ index * 8 < part.1 + naturalSize part.2) with
  | some part => registerClass part.2
  | none => .none

/-- The parts carry every byte of every leaf, each eightbyte in a register of its class. -/
structure Carries (size align : Nat) (fields : List (Nat × CType)) (parts : List (Nat × CAbiType)) : Prop where
  covers : ∀ offset leaf, At 8 (.aggregate size align fields) offset leaf → ∀ byte, offset ≤ byte →
    byte < offset + leaf.size 8 → ∃ part ∈ parts, part.1 ≤ byte ∧ byte < part.1 + naturalSize part.2
  classes : ∀ index < 2, classAt parts index = eightbyteClass (leaves pointerSize fields) index

/-- In registers as it should be, and then with all of its bytes. -/
structure Passes (registers : Prop) (size align : Nat) (fields : List (Nat × CType))
    (parts : Option (List (Nat × CAbiType))) : Prop where
  registers : parts.isSome ↔ registers
  carries : ∀ found, parts = some found → Carries size align fields found

/-- The aggregates of a signature are passed and returned as they should be. -/
structure Follows (params : List CType) (ret : Option CType) (abi : CFunctionAbi) : Prop where
  args : ∀ index size align fields, params[index]? = some (.aggregate size align fields) →
    ∃ arg, abi.args[index]? = some arg ∧
      Passes (InRegisters (registersBefore params ret index) size fields) size align fields (argParts arg)
  ret : ∀ size align fields, ret = some (.aggregate size align fields) →
    Passes (Small size fields) size align fields (retParts abi.ret)

/-- An aggregate that is not empty has a leaf in its first eightbyte. -/
def FirstUsed (size : Nat) (fields : List (Nat × CType)) : Prop :=
  size = 0 ∨ ∃ leaf ∈ leaves pointerSize fields, Inside leaf 0

/-- So has each that is passed in registers. -/
structure FirstsUsed (params : List CType) (ret : Option CType) : Prop where
  args : ∀ index size align fields, params[index]? = some (.aggregate size align fields) →
    InRegisters (registersBefore params ret index) size fields → FirstUsed size fields
  ret : ∀ size align fields, ret = some (.aggregate size align fields) → Small size fields → FirstUsed size fields

end SysV64

end Nia.AbiCheck
