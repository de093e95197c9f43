import Nia.Git.DeltaExact
import Nia.Git.Wire
import Nia.Lib.Association

/-! Packs of Git objects.

A pack lists entries: whole objects, and deltas against an object named by its offset or by its id. The code reads all
entries, queues the whole objects, and wakes the deltas that wait for an object when it is taken from the queue.

`decodePackObjects_exact` says that an accepted pack solves the equations of its entries: a whole object is its
inflated content, a delta what it makes of its base. The depths in a solution descend along bases, so a solution is
reached from whole objects, and there is no other one while ids do not collide.

`inflate` reads at most so many bytes of a compressed stream and says how much of its input that took; it and `sha1`
are parameters. Multimaps that are only filled and emptied by key are lists of their entries. -/
namespace Nia.Git.Pack

open Lib Lib.Checks Fallible

/-! ### The code -/

inductive ObjectKind where
  | commit
  | tree
  | blob
  | tag
  deriving DecidableEq

structure GitObject where
  kind : ObjectKind
  data : Bytes
  id : Bytes
  deriving DecidableEq

inductive DeltaBase where
  | offset (offset : Nat)
  | id (id : Bytes)
  deriving DecidableEq

structure PendingDelta where
  offset : Nat
  instructions : Bytes

def maxPackBytes : Nat := 128 * 1024 * 1024

def maxPackObjects : Nat := 1000000

def maxDeltaDepth : Nat := 64

section Code

variable (bits : Nat) (inflate : Bytes → Nat → Except IoError (Bytes × Nat)) (sha1 : Bytes → Bytes)

/-- The loop of `read_pack_header`, with the bytes at the cursor. -/
def readSize (byte : UInt8) (rest : Bytes) (cursor size shift : Nat) : Except IoError (Nat × Nat) :=
  if byte &&& 0x80 = 0 then .ok (size, cursor)
  else
    match rest with
    | [] => .error (invalidPacket "truncated Git pack object size")
    | byte :: rest =>
      let digit := (byte &&& 0x7f).toNat
      if bits ≤ shift ∨ (2 ^ bits - 1) >>> shift < digit then .error (invalidPacket "Git pack object size overflows")
      else
        let size := size ||| digit <<< shift
        if maxObjectBytes < size then .error (invalidPacket "Git pack object exceeds size limit")
        else readSize byte rest (cursor + 1) size (shift + 7)

/-- The kind and the size of an entry, and the cursor behind them. -/
def readPackHeader (pack : Bytes) (cursor : Nat) : Except IoError (Nat × Nat × Nat) :=
  match pack.drop cursor with
  | [] => .error (invalidPacket "truncated Git pack object header")
  | first :: rest => do
    let (size, cursor) ← readSize bits first rest (cursor + 1) (first &&& 0x0f).toNat 4
    pure (((first >>> 4) &&& 7).toNat, size, cursor)

def checked (value : Nat) : Option Nat := if value < 2 ^ bits then some value else none

/-- The loop of `read_ofs_delta_base`. -/
def readDistance (byte : UInt8) (rest : Bytes) (cursor value : Nat) : Except IoError (Nat × Nat) :=
  if byte &&& 0x80 = 0 then .ok (value, cursor)
  else
    match rest with
    | [] => .error (invalidPacket "truncated Git ofs-delta base offset")
    | byte :: rest =>
      let sum := do
        let value ← checked bits (value + 1)
        let value ← checked bits (value * 128)
        checked bits (value + (byte &&& 0x7f).toNat)
      match sum with
      | none => .error (invalidPacket "Git ofs-delta base offset overflows")
      | some value => readDistance byte rest (cursor + 1) value

def readOfsDeltaBase (pack : Bytes) (cursor objectOffset : Nat) : Except IoError (Nat × Nat) :=
  match pack.drop cursor with
  | [] => .error (invalidPacket "truncated Git ofs-delta base offset")
  | first :: rest => do
    let (value, cursor) ← readDistance bits first rest (cursor + 1) (first &&& 0x7f).toNat
    require (value ≤ objectOffset) (invalidPacket "Git ofs-delta base offset is invalid")
    pure (objectOffset - value, cursor)

def readZlibStream (input : Bytes) (expectedSize : Nat) : Except IoError (Bytes × Nat) := do
  let (data, totalIn) ← inflate input (expectedSize + 1)
  require (¬(maxObjectBytes < data.length ∨ data.length ≠ expectedSize ∨ totalIn = 0))
    (invalidPacket "Git pack object size does not match its header")
  pure (data, totalIn)

def packKind : Nat → Except IoError ObjectKind
  | 1 => .ok .commit
  | 2 => .ok .tree
  | 3 => .ok .blob
  | 4 => .ok .tag
  | _ => .error (invalidPacket "unsupported Git pack object type")

def ObjectKind.name : ObjectKind → String
  | .commit => "commit"
  | .tree => "tree"
  | .blob => "blob"
  | .tag => "tag"

def makeObject (kind : ObjectKind) (data : Bytes) : GitObject where
  kind
  data
  id := sha1 ((kind.name ++ " " ++ toString data.length ++ "\x00").toUTF8.data.toList ++ data)

/-- What an entry holds. -/
inductive Body where
  | whole (kind : ObjectKind) (data : Bytes)
  | delta (base : DeltaBase) (instructions : Bytes)

structure Entry where
  offset : Nat
  declaredSize : Nat
  body : Body

/-- The content at the cursor, and the cursor behind it. -/
def readContent (pack : Bytes) (cursor declaredSize : Nat) : Except IoError (Bytes × Nat) := do
  let (data, consumed) ← readZlibStream inflate (pack.drop cursor) declaredSize
  require (cursor + consumed < 2 ^ bits) (invalidPacket "Git pack offset overflow")
  pure (data, cursor + consumed)

def readBody (pack : Bytes) (kind offset cursor declaredSize : Nat) : Except IoError (Body × Nat) :=
  match kind with
  | 1 | 2 | 3 | 4 => do
    let (data, cursor) ← readContent bits inflate pack cursor declaredSize
    let kind ← packKind kind
    pure (.whole kind data, cursor)
  | 6 => do
    let (base, cursor) ← readOfsDeltaBase bits pack cursor offset
    let (delta, cursor) ← readContent bits inflate pack cursor declaredSize
    pure (.delta (.offset base) delta, cursor)
  | 7 => do
    require (¬pack.length - cursor < 20) (invalidPacket "truncated Git ref-delta base id")
    let (delta, next) ← readContent bits inflate pack (cursor + 20) declaredSize
    pure (.delta (.id ((pack.drop cursor).take 20)) delta, next)
  | _ => .error (invalidPacket "unsupported Git pack object type")

/-- One turn of the loop over entries. The size is charged before the content is inflated. -/
def readEntry (pack : Bytes) (remaining offset : Nat) : Except IoError (Entry × Nat) := do
  let (kind, declaredSize, cursor) ← readPackHeader bits pack offset
  require (declaredSize ≤ remaining) (invalidPacket "Git pack exceeds decoded size limit")
  let (body, cursor) ← readBody bits inflate pack kind offset cursor declaredSize
  pure (⟨offset, declaredSize, body⟩, cursor)

structure State where
  remaining : Nat
  objects : List (Nat × GitObject) := []
  waiting : List (DeltaBase × PendingDelta) := []
  ready : List (Nat × Nat) := []

def State.add (s : State) (entry : Entry) : State :=
  let s := { s with remaining := s.remaining - entry.declaredSize }
  match entry.body with
  | .whole kind data =>
    { s with
      objects := Association.insert s.objects entry.offset (makeObject sha1 kind data)
      ready := s.ready ++ [(entry.offset, 0)] }
  | .delta base instructions => { s with waiting := s.waiting ++ [(base, ⟨entry.offset, instructions⟩)] }

def readEntries (pack : Bytes) : Nat → State → Nat → Except IoError (State × Nat)
  | 0, s, cursor => .ok (s, cursor)
  | count + 1, s, cursor => do
    let (entry, cursor) ← readEntry bits inflate pack s.remaining cursor
    readEntries pack count (s.add sha1 entry) cursor

/-- Code that resolves deltas. -/
abbrev Resolver := Fallible State IoError

/-- `objects[&offset]` -/
def State.object? (s : State) (offset : Nat) : Option GitObject := (Association.find s.objects offset).map Prod.snd

/-- One delta, against the object at an offset. -/
def wake (baseOffset depth : Nat) (delta : PendingDelta) : Resolver Unit := do
  let s ← get
  let base ← orTrap (s.object? baseOffset)
  let applied ← orTrap (applyDelta bits base.data delta.instructions s.remaining)
  match applied with
  | .error message => throw (invalidPacket message)
  | .ok data =>
    let remaining ← orTrap (if data.length ≤ s.remaining then some (s.remaining - data.length) else none)
    modify fun s => { s with
      remaining
      objects := Association.insert s.objects delta.offset (makeObject sha1 base.kind data)
      ready := s.ready ++ [(delta.offset, depth + 1)] }

/-- The deltas that wait for a key. -/
def wakeKey (baseOffset depth : Nat) (key : DeltaBase) : Resolver Unit := do
  let s ← get
  let dependents := s.waiting.filter fun waiting => decide (waiting.1 = key)
  if dependents.isEmpty then return ()
  else do
    modify fun s => { s with waiting := s.waiting.filter fun waiting => !decide (waiting.1 = key) }
    if depth = maxDeltaDepth then throw (invalidPacket "Git pack exceeds delta depth limit")
    else (dependents.map Prod.snd).forM (wake bits sha1 baseOffset depth)

/-- One turn of the loop over the queue. -/
def resolveNext (baseOffset depth : Nat) : Resolver Unit := do
  let base ← orTrap ((← get).object? baseOffset)
  wakeKey bits sha1 baseOffset depth (.offset baseOffset)
  wakeKey bits sha1 baseOffset depth (.id base.id)

/-- The loop over the queue, for so many turns at most. -/
def resolveReady : Nat → Resolver Unit
  | 0 => do
    let s ← get
    if s.ready.isEmpty then return () else orTrap none
  | turns + 1 => do
    let s ← get
    match s.ready with
    | [] => return ()
    | (baseOffset, depth) :: ready => do
      modify fun s => { s with ready }
      resolveNext bits sha1 baseOffset depth
      resolveReady turns

/-- Objects by their ids; of two with one id the later stays. -/
def byId (objects : List GitObject) : List (Bytes × GitObject) :=
  objects.foldl
    (fun found object => found.filter (fun entry => !decide (entry.1 = object.id)) ++ [(object.id, object)]) []

/-- The checks in front of the entries: their number. -/
def readHeader (pack : Bytes) : Except IoError Nat := do
  require (¬maxPackBytes < pack.length) (invalidPacket "Git pack exceeds size limit")
  require (¬(pack.length < 12 ∨ pack.take 4 ≠ "PACK".toUTF8.data.toList)) (invalidPacket "Git pack header is malformed")
  require (¬pack.length < 32) (invalidPacket "Git pack is missing its checksum")
  require (sha1 (pack.take (pack.length - 20)) = pack.drop (pack.length - 20))
    (invalidPacket "Git pack checksum does not match")
  require (SshReader.fromBe ((pack.drop 4).take 4) = 2 ∨ SshReader.fromBe ((pack.drop 4).take 4) = 3)
    (invalidPacket "unsupported Git pack version")
  let count := SshReader.fromBe ((pack.drop 8).take 4)
  require (¬maxPackObjects < count) (invalidPacket "Git pack contains too many objects")
  pure count

/-- Everything up to the queue. -/
def readPack (pack : Bytes) (limit : Nat) : Except IoError State := do
  let count ← readHeader sha1 pack
  let payload := pack.take (pack.length - 20)
  let (s, cursor) ← readEntries bits inflate sha1 payload count { remaining := limit } 12
  require (cursor = payload.length) (invalidPacket "Git pack has trailing object data")
  pure s

/-- `decode_pack_objects_with_limit`; without a result where it traps. -/
def decodePackObjects (pack : Bytes) (limit : Nat) : Option (Except IoError (List (Bytes × GitObject))) :=
  match readPack bits inflate sha1 pack limit with
  | .error error => some (.error error)
  | .ok s =>
    match (resolveReady bits sha1 (s.ready.length + s.waiting.length)).run s with
    | none => none
    | some (.error error, _) => some (.error error)
    | some (.ok _, s) =>
      if s.waiting.isEmpty then some (.ok (byId (s.objects.map Prod.snd)))
      else some (.error (invalidPacket "Git delta base object is missing"))

end Code

/-! ### What a pack says -/

section Equations

variable (bits : Nat) (inflate : Bytes → Nat → Except IoError (Bytes × Nat)) (sha1 : Bytes → Bytes)

/-- A compressed stream at the cursor, of exactly so many bytes. -/
structure Content (payload : Bytes) (cursor size : Nat) (data : Bytes) (next : Nat) : Prop where
  inflates : ∃ used, inflate (payload.drop cursor) (size + 1) = .ok (data, used) ∧ next = cursor + used
  size : data.length = size

/-- An entry of a payload, and where it ends. -/
inductive EntryAt (payload : Bytes) : Entry → Nat → Prop where
  | whole {offset size code cursor next : Nat} {kind : ObjectKind} {data : Bytes}
    (hheader : readPackHeader bits payload offset = .ok (code, size, cursor)) (hkind : packKind code = .ok kind)
    (hcontent : Content inflate payload cursor size data next) :
    EntryAt payload ⟨offset, size, .whole kind data⟩ next
  | ofsDelta {offset size cursor base behind next : Nat} {delta : Bytes}
    (hheader : readPackHeader bits payload offset = .ok (6, size, cursor))
    (hbase : readOfsDeltaBase bits payload cursor offset = .ok (base, behind))
    (hcontent : Content inflate payload behind size delta next) :
    EntryAt payload ⟨offset, size, .delta (.offset base) delta⟩ next
  | refDelta {offset size cursor next : Nat} {base delta : Bytes}
    (hheader : readPackHeader bits payload offset = .ok (7, size, cursor))
    (hbase : base = (payload.drop cursor).take 20) (hlength : base.length = 20)
    (hcontent : Content inflate payload (cursor + 20) size delta next) :
    EntryAt payload ⟨offset, size, .delta (.id base) delta⟩ next

/-- Entries one behind the other. -/
inductive EntriesAt (payload : Bytes) : Nat → List Entry → Nat → Prop where
  | nil {cursor : Nat} : EntriesAt payload cursor [] cursor
  | cons {entry : Entry} {entries : List Entry} {next last : Nat} (h : EntryAt bits inflate payload entry next)
    (hrest : EntriesAt payload next entries last) : EntriesAt payload entry.offset (entry :: entries) last

def declaredCount (pack : Bytes) : Nat := SshReader.fromBe ((pack.drop 8).take 4)

/-- The entries of a pack fill what is between its header and its checksum. -/
structure Lists (pack : Bytes) (entries : List Entry) : Prop where
  count : entries.length = declaredCount pack
  filled : EntriesAt bits inflate (pack.take (pack.length - 20)) 12 entries (pack.take (pack.length - 20)).length

/-- The base is the object, at its offset. -/
def DeltaBase.Names : DeltaBase → Nat → GitObject → Prop
  | .offset base, place, _ => base = place
  | .id base, _, object => base = object.id

/-- What a delta makes of its base. -/
def Applies (base : GitObject) (instructions : Bytes) (object : GitObject) : Prop :=
  ∃ data, applyDelta bits base.data instructions maxObjectBytes = some (.ok data) ∧
    object = makeObject sha1 base.kind data

/-- An entry with its object, and the number of deltas between it and a whole object. -/
structure Solved where
  entry : Entry
  object : GitObject
  depth : Nat

/-- The equation of an entry, given the others. -/
def Solved.Holds (solved : List Solved) (x : Solved) : Prop :=
  match x.entry.body with
  | .whole kind data => x.object = makeObject sha1 kind data ∧ x.depth = 0
  | .delta base instructions => ∃ b ∈ solved, base.Names b.entry.offset b.object ∧ x.depth = b.depth + 1 ∧
      Applies bits sha1 b.object instructions x.object

/-- The bytes that a delta reconstructs. -/
def Solved.reconstructed (x : Solved) : Nat :=
  match x.entry.body with
  | .whole .. => 0
  | .delta .. => x.object.data.length

/-- A solution within the limits. -/
structure Solution (limit : Nat) (entries : List Entry) (solved : List Solved) : Prop where
  covers : (solved.map Solved.entry).Perm entries
  holds : ∀ x ∈ solved, x.Holds bits sha1 solved
  depth : ∀ x ∈ solved, x.depth ≤ maxDeltaDepth
  sizes : (entries.map Entry.declaredSize).sum + (solved.map Solved.reconstructed).sum ≤ limit

/-- One object for each id of a solution, and no others. -/
structure Collects (solved : List Solved) (result : List (Bytes × GitObject)) : Prop where
  distinct : (result.map Prod.fst).Nodup
  found : ∀ x ∈ solved, ∃ object, (x.object.id, object) ∈ result
  solved : ∀ entry ∈ result, entry.1 = entry.2.id ∧ ∃ x ∈ solved, x.object = entry.2

/-- Another assignment that satisfies the equations, whatever it rests on. -/
def Satisfies (entries : List Entry) (assigned : Nat → GitObject) : Prop :=
  ∀ entry ∈ entries,
    match entry.body with
    | .whole kind data => assigned entry.offset = makeObject sha1 kind data
    | .delta base instructions => ∃ b ∈ entries, base.Names b.offset (assigned b.offset) ∧
        Applies bits sha1 (assigned b.offset) instructions (assigned entry.offset)

/-- An entry whose bases lead to a whole object. -/
inductive Reaches (entries : List Entry) : Entry → GitObject → Prop where
  | whole {offset size : Nat} {kind : ObjectKind} {data : Bytes}
    (h : ⟨offset, size, .whole kind data⟩ ∈ entries) :
    Reaches entries ⟨offset, size, .whole kind data⟩ (makeObject sha1 kind data)
  | delta {offset size : Nat} {base : DeltaBase} {instructions : Bytes} {b : Entry} {found object : GitObject}
    (h : ⟨offset, size, .delta base instructions⟩ ∈ entries) (hbase : Reaches entries b found)
    (hnames : base.Names b.offset found) (happlies : Applies bits sha1 found instructions object) :
    Reaches entries ⟨offset, size, .delta base instructions⟩ object

end Equations

end Nia.Git.Pack
