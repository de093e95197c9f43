import Nia.Layout.Aggregate
import Nia.Lib.Trapping
import Nia.Mem.Block

/-! The arena allocator over a child allocator.

A chunk is a block of the child that starts with the chunk's own header; the payload follows it. Chunks in use and
free ones are kept in two lists. The child is a table of answers, which may depend on how often it was called and on
the blocks that it has out; the world records those blocks, each release that was tried, and the release ranges of
all blocks obtained and of those taken back. A result is `none` where the code traps. -/
namespace Nia.Mem.Arena

open Lib.Trapping Nia.Layout

variable [Target]

/-- What the child answers to its calls. -/
structure Child where
  alloc : Nat → List Block → Layout → Except Error Block
  resize : Nat → List Block → Block → Layout → Bool
  free : Nat → Block → Option Error

/-- `ArenaChunk`; its place in a list stands for `next`. -/
structure Chunk where
  block : Block
  endIndex : Nat
  deriving DecidableEq

/-- The arena, and what its child has seen. -/
structure World where
  usedList : List Chunk := []
  freeList : List Chunk := []
  calls : Nat := 0
  outstanding : List Block := []
  tries : List (Block × Option Error) := []
  obtained : List (Nat × Nat) := []
  released : List (Nat × Nat) := []

/-! ### The header of a chunk -/

/-- The layout of a pointer or a `usize`. -/
def wordLayout : TypeLayout := ⟨Target.bits / 8, Target.bits / 8⟩

/-- The layout of a struct, by those of its fields. -/
def structLayout (fields : List TypeLayout) : Option TypeLayout :=
  (sortedFieldLayout (fields.mapIdx fun index layout => ⟨UInt64.ofNat index, index, layout⟩)).map (·.layout)

/-- The layout of `ArenaChunk`; `next` is an optional pointer, which has a tag before the pointer. -/
def chunkLayout : Option TypeLayout := do
  let layout ← structLayout [wordLayout, wordLayout]
  let block ← structLayout [wordLayout, layout, wordLayout, wordLayout]
  let next ← taggedUnionLayoutWithTag ⟨1, 1⟩ [wordLayout]
  structLayout [block, wordLayout, next]

/-- `size[ArenaChunk]`: a block of five words, an index and two words for `next`. -/
def chunkSize : Nat := 8 * (Target.bits / 8)

/-- `align[ArenaChunk]`. -/
def chunkAlign : Nat := Target.bits / 8

/-- The header is laid out as the compiler does it. -/
theorem chunkLayout_eq : chunkLayout = some ⟨chunkSize, chunkAlign⟩ := by
  rcases Target.known with hbits | hbits <;>
    simp only [chunkLayout, chunkSize, chunkAlign, wordLayout, hbits] <;> decide

/-! ### The child -/

variable (child : Child)

def childAlloc (layout : Layout) : Code World (Except Error Block) := fun world =>
  match child.alloc world.calls world.outstanding layout with
  | .error error => some (.error error, { world with calls := world.calls + 1 })
  | .ok block =>
    some (.ok block, { world with
      calls := world.calls + 1
      outstanding := block :: world.outstanding
      obtained := block.release :: world.obtained })

def childResize (block : Block) (newLayout : Layout) : Code World Bool := fun world =>
  if child.resize world.calls world.outstanding block newLayout then
    some (true, { world with
      calls := world.calls + 1
      outstanding := block.withLayout newLayout :: world.outstanding.erase block })
  else some (false, { world with calls := world.calls + 1 })

def childFree (block : Block) : Code World (Except Error Unit) := fun world =>
  match child.free world.calls block with
  | some error =>
    some (.error error, { world with calls := world.calls + 1, tries := (block, some error) :: world.tries })
  | none =>
    some (.ok (), { world with
      calls := world.calls + 1
      tries := (block, none) :: world.tries
      outstanding := world.outstanding.erase block
      released := block.release :: world.released })

/-! ### Chunks -/

variable (chunk : Chunk)

def chunkPayloadBase : Option Nat := checkedAdd chunk.block.ptr chunkSize

def chunkPayloadCapacity : Nat :=
  if chunk.block.size ≤ chunkSize then 0 else chunk.block.size - chunkSize

/-- A block from the end of what is in use of a chunk, and the chunk then. -/
def allocFromChunk (layout : Layout) : Option (Block × Chunk) := do
  let payloadBase ← chunkPayloadBase chunk
  let current ← checkedAdd payloadBase chunk.endIndex
  let aligned ← alignForward current layout.align
  let offset := aligned - payloadBase
  let newEnd ← checkedAdd offset layout.size
  if newEnd > chunkPayloadCapacity chunk then none
  else some (Block.init aligned layout, { chunk with endIndex := newEnd })

def chunkFitEnd (layout : Layout) : Option Nat := do
  let payloadBase ← chunkPayloadBase chunk
  let aligned ← alignForward payloadBase layout.align
  checkedAdd (aligned - payloadBase) layout.size

def isLastAllocation (block : Block) : Bool :=
  match chunkPayloadBase chunk with
  | none => false
  | some payloadBase =>
    match checkedAdd payloadBase chunk.endIndex, checkedAdd block.ptr block.size with
    | some cursor, some blockEnd => blockEnd == cursor
    | _, _ => false

def chunkOwnsBlock (block : Block) : Bool :=
  if block.isEmpty then true
  else match chunkPayloadBase chunk with
  | none => false
  | some base =>
    match checkedAdd base (chunkPayloadCapacity chunk) with
    | none => false
    | some limit =>
      if block.ptr < base then false
      else match checkedAdd block.ptr block.size with
      | none => false
      | some blockEnd => blockEnd ≤ limit

/-- The payload of a new chunk. -/
def chunkCapacityFor (layout : Layout) (prevCapacity : Nat) : Except Error Nat :=
  match checkedAdd layout.size layout.align with
  | none => .error .outOfMemory
  | some minWithPadding =>
    let grown := (checkedAdd prevCapacity (prevCapacity / 2)).getD (usizeLimit - 1)
    let grownWithSlop := (checkedAdd grown 16).getD (usizeLimit - 1)
    .ok (if grownWithSlop > minWithPadding then grownWithSlop else minWithPadding)

def allocateChunk (layout : Layout) (prevCapacity : Nat) : Code World (Except Error Chunk) := do
  match chunkCapacityFor layout prevCapacity with
  | .error error => return .error error
  | .ok payloadCapacity =>
    match checkedAdd chunkSize payloadCapacity with
    | none => return .error .outOfMemory
    | some totalSize =>
      match Layout.init totalSize (max chunkAlign layout.align) with
      | .error error => return .error error
      | .ok blockLayout =>
        match ← childAlloc child blockLayout with
        | .error error => return .error error
        | .ok block => return .ok ⟨block, 0⟩

/-! ### Free chunks -/

/-- The best chunk so far and the closest of those that are too small, by their places in the list. -/
structure Search where
  best : Option Nat
  bestWaste : Nat
  closest : Option Nat
  closestShortage : Nat

/-- Before the loop of `popFreeChunk`. -/
def Search.start : Search := ⟨none, usizeLimit - 1, none, usizeLimit - 1⟩

/-- One turn of the loop of `popFreeChunk`. -/
def consider (layout : Layout) (search : Search) (entry : Chunk × Nat) : Search :=
  match chunkFitEnd entry.1 layout with
  | none => search
  | some fitEnd =>
    let capacity := chunkPayloadCapacity entry.1
    if fitEnd ≤ capacity then
      if capacity - fitEnd < search.bestWaste then
        { search with best := some entry.2, bestWaste := capacity - fitEnd }
      else search
    else if fitEnd - capacity < search.closestShortage then
      { search with closest := some entry.2, closestShortage := fitEnd - capacity }
    else search

/-- A chunk that its child made larger. -/
def growFreeChunk (layout : Layout) : Code World (Option Chunk) := do
  match chunkFitEnd chunk layout with
  | none => return none
  | some fitEnd =>
    if fitEnd ≤ chunkPayloadCapacity chunk then return some chunk
    else match checkedAdd chunkSize fitEnd with
    | none => return none
    | some newSize =>
      match Layout.init newSize (max chunk.block.align layout.align) with
      | .error _ => return none
      | .ok newLayout =>
        if ← childResize child chunk.block newLayout then
          return some { chunk with block := chunk.block.withLayout newLayout }
        else return none

/-- Takes a chunk out of the free ones. -/
def unlink (position : Nat) (chunk : Chunk) : Code World Chunk := do
  modify fun world => { world with freeList := world.freeList.eraseIdx position }
  return { chunk with endIndex := 0 }

def popFreeChunk (layout : Layout) : Code World (Option Chunk) := do
  let freeList := (← get).freeList
  let search := freeList.zipIdx.foldl (consider layout) .start
  match search.best, search.closest with
  | some position, _ =>
    let chunk ← (freeList[position]? : Option _)
    return some (← unlink position chunk)
  | none, some position =>
    let chunk ← (freeList[position]? : Option _)
    match ← growFreeChunk child chunk layout with
    | none => return none
    | some chunk => return some (← unlink position chunk)
  | none, none => return none

/-! ### The allocator -/

/-- `allocFromChunk` on the first chunk in use. -/
def allocFromFirst (layout : Layout) : Code World (Option Block) := do
  let world ← get
  match world.usedList with
  | [] => return none
  | chunk :: rest =>
    match allocFromChunk chunk layout with
    | none => return none
    | some (block, chunk) =>
      set { world with usedList := chunk :: rest }
      return some block

/-- A block from a chunk that comes to be the first. -/
def allocFromNew (layout : Layout) : Code World (Except Error Block) := do
  modify fun world => { world with usedList := chunk :: world.usedList }
  match ← allocFromFirst layout with
  | some block => return .ok block
  | none => return .error .outOfMemory

def alloc (layout : Layout) : Code World (Except Error Block) := do
  if layout.isEmpty then return .ok (Block.empty layout)
  else
    match ← allocFromFirst layout with
    | some block => return .ok block
    | none =>
      match ← popFreeChunk child layout with
      | some chunk => allocFromNew chunk layout
      | none =>
        let prevCapacity := ((← get).usedList.head?.map chunkPayloadCapacity).getD 0
        match ← allocateChunk child layout prevCapacity with
        | .error error => return .error error
        | .ok chunk => allocFromNew chunk layout

def ownsBlock (world : World) (block : Block) : Bool :=
  block.isEmpty || world.usedList.any (chunkOwnsBlock · block) || world.freeList.any (chunkOwnsBlock · block)

/-- `first.endIndex` is set to a value. -/
def setFirst (endIndex : Nat) (rest : List Chunk) : Code World Unit :=
  modify fun world => { world with usedList := { chunk with endIndex } :: rest }

def resize (block : Block) (newLayout : Layout) : Code World Bool := do
  let world ← get
  if block.align ≠ newLayout.align then return false
  else if block.isEmpty then return newLayout.isEmpty
  else match world.usedList with
  | [] => return false
  | first :: rest =>
    if ownsBlock world block = false then return false
    else if chunkOwnsBlock first block = false ∨ isLastAllocation first block = false then
      return newLayout.size ≤ block.size
    else if newLayout.size ≤ block.size then
      if first.endIndex < block.size - newLayout.size then failure
      else
        setFirst first (first.endIndex - (block.size - newLayout.size)) rest
        return true
    else match checkedAdd first.endIndex (newLayout.size - block.size) with
    | none => return false
    | some newEnd =>
      if newEnd > chunkPayloadCapacity first then return false
      else
        setFirst first newEnd rest
        return true

def remap (block : Block) (newLayout : Layout) : Code World (Option Block) := do
  if ← resize block newLayout then return some (block.withLayout newLayout)
  else if block.isEmpty && newLayout.isEmpty then return some (Block.empty newLayout)
  else return none

def free (block : Block) : Code World (Except Error Unit) := do
  let world ← get
  if block.isEmpty then return .ok ()
  else match world.usedList with
  | [] => return .error .invalid
  | first :: rest =>
    if ownsBlock world block = false then return .error .invalid
    else if chunkOwnsBlock first block && isLastAllocation first block then
      if first.endIndex < block.size then failure
      else
        setFirst first (first.endIndex - block.size) rest
        return .ok ()
    else return .ok ()

/-- `moveUsedToFreeList`. -/
def reset : Code World Unit := modify fun world => { world with
  usedList := []
  freeList := world.usedList.foldl (fun freeList chunk => { chunk with endIndex := 0 } :: freeList) world.freeList }

/-- The loop of `freeChunkList`, over the first failure so far. -/
def freeChunks (child : Child) : List Chunk → Option Error → Code World (Except Error Unit)
  | [], cleanup => return finish cleanup
  | chunk :: rest, cleanup => do
    match ← childFree child chunk.block with
    | .error error =>
      modify fun world => { world with freeList := { chunk with endIndex := 0 } :: world.freeList }
      freeChunks child rest (attempt cleanup (.error error))
    | .ok () => freeChunks child rest cleanup

def freeChunkList (first : List Chunk) : Code World (Except Error Unit) := freeChunks child first none

def deinit : Code World (Except Error Unit) := do
  let world ← get
  set { world with usedList := [], freeList := [] }
  let first ← freeChunkList child world.usedList
  let second ← freeChunkList child world.freeList
  return finish (attempt (attempt none first) second)

end Nia.Mem.Arena
