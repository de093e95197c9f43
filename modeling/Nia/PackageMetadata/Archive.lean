import Nia.Lib.Checks
import Nia.Lib.Slices
import Nia.Lib.Split
import Nia.Lib.Utf8

/-! Package archives of a registry.

An archive is a list of entries, each with its path in front of its contents. The code decodes it, rejects paths that
are not plain or collide, and writes the entries into an empty directory, component by component.

`decodeRegistryArchive_safe` says of an accepted archive that its entries encode to it again, that writing them
succeeds and creates exactly them and their parents, and that no two nodes collide. The file system compares names by
any folding that is not coarser than `to_lowercase`; so it may tell cases apart, or not. A coarser folding finds
collisions that the decoder does not look for (`sigmas_collide`).

`blake3` and `to_lowercase` are parameters, as is the folding of the file system. Every error of the decoder has the
kind `InvalidData`. Paths are their characters. -/
namespace Nia.PackageMetadata.Archive

open Lib.Checks Lib.Split Lib.Utf8 List

/-! ### Paths -/

abbrev Text := List Char

def check (condition : Prop) [Decidable condition] (message : String) : Except String Unit :=
  if condition then .ok () else .error message

@[simp]
theorem check_eq_ok {condition : Prop} [Decidable condition] {message : String} {u : Unit} :
    check condition message = .ok u ↔ condition := by
  rw [check]
  split <;> simp [*]

/-- `std::path::Component`, of Unix. -/
inductive Component where
  | rootDir
  | curDir
  | parentDir
  | normal (name : Text)
  deriving DecidableEq

def Component.text : Component → Text
  | .rootDir => ['/']
  | .curDir => ['.']
  | .parentDir => ['.', '.']
  | .normal name => name

def Component.isNormal : Component → Bool
  | .normal _ => true
  | _ => false

/-- A part of a path; empty ones and `.` are skipped. -/
def partComponent (part : Text) : Option Component :=
  if part = [] ∨ part = ['.'] then none
  else if part = ['.', '.'] then some .parentDir
  else some (.normal part)

/-- `Path::components`: a `.` is kept in front only. -/
def pathComponents (path : Text) : List Component :=
  let front := if path.head? = some '/' then [Component.rootDir]
    else if (split '/' path).head? = some ['.'] then [.curDir] else []
  front ++ (split '/' path).filterMap partComponent

def toAsciiLowercase (text : Text) : Text :=
  text.map fun c => if 'A' ≤ c ∧ c ≤ 'Z' then Char.ofNat (c.toNat + 32) else c

def isControl (c : Char) : Bool := c.toNat < 0x20 || (0x7f ≤ c.toNat && c.toNat ≤ 0x9f)

/-- `encode_utf16().count()` -/
def utf16Length (text : Text) : Nat := (text.map fun c => if c.toNat < 0x10000 then 1 else 2).sum

def deviceNames : List Text :=
  ["con".toList, "prn".toList, "aux".toList, "nul".toList, "conin$".toList, "conout$".toList]

def deviceSuffixes : List Char := ['1', '2', '3', '4', '5', '6', '7', '8', '9', '\u00b9', '\u00b2', '\u00b3']

def isDevice (stem : Text) : Bool :=
  decide (stem ∈ deviceNames) ||
    ["com".toList, "lpt".toList].any fun front => deviceSuffixes.any fun c => decide (stem = front ++ [c])

def validateArchiveComponent (component : Text) : Except String Unit :=
  let folded := toAsciiLowercase component
  let stem := (split '.' folded).headD []
  check (¬(component = [] ∨ component = ['.'] ∨ component = ['.', '.'] ∨ 255 < (encode component).length ∨
      255 < utf16Length component ∨ (component.any fun c => decide (c ∈ ['<', '>', '\x22', '|', '?', '*'])) = true ∨
      component.any isControl = true ∨ component.getLast? = some '.' ∨ component.getLast? = some ' ' ∨
      folded = ".git".toList ∨ folded = "git~1".toList ∨ isDevice stem = true))
    "registry package archive path contains an unsafe component"

def isDots (part : Text) : Bool := decide (part = [] ∨ part = ['.'] ∨ part = ['.', '.'])

def validateArchivePath (path : Text) : Except String Unit := do
  check (¬(path.head? = some '/' ∨ (path.any fun c => decide (c ∈ ['\x5c', '\x00', ':'])) = true))
    "registry package archive path is not relative"
  let components := pathComponents path
  check (¬(components = [] ∨ (components.any fun component => !component.isNormal) = true ∨
      (components.any fun component => !(validateArchiveComponent component.text).isOk) = true ∨
      (split '/' path).any isDots = true))
    "registry package archive path is invalid"

/-! ### Entries -/

inductive EntryKind where
  | file
  | directory
  deriving DecidableEq

structure ArchiveEntry where
  path : Text
  kind : EntryKind
  contents : Bytes

def magic : Bytes := [78, 73, 65, 80, 75, 71, 0, 0]

def schema : Nat := 1

def maxArchiveBytes : Nat := 256 * 1024 * 1024

def maxArchiveEntries : Nat := 100000

def maxPathBytes : Nat := 4096

def take (count : Nat) (bytes : Bytes) : Except String (Bytes × Bytes) :=
  if count ≤ bytes.length then .ok (bytes.take count, bytes.drop count)
  else .error "registry package archive is truncated"

def fromLe (bytes : Bytes) : Nat := bytes.foldr (fun byte rest => byte.toNat + 256 * rest) 0

/-- A number of so many bytes, the lowest first. -/
def number (count : Nat) (bytes : Bytes) : Except String (Nat × Bytes) := do
  let (value, bytes) ← take count bytes
  pure (fromLe value, bytes)

def entryKind (tag : Nat) : Except String EntryKind :=
  match tag with
  | 0 => .ok .file
  | 1 => .ok .directory
  | _ => .error "registry package archive entry type is invalid"

def fromUtf8 (bytes : Bytes) : Except String Text :=
  match String.fromUTF8? ⟨bytes.toArray⟩ with
  | some text => .ok text.toList
  | none => .error "registry package archive path is not UTF-8"

/-- The order of strings: that of their bytes. -/
def TextLt (left right : Text) : Prop := (encode left).map UInt8.toNat < (encode right).map UInt8.toNat

instance (left right : Text) : Decidable (TextLt left right) :=
  inferInstanceAs (Decidable ((encode left).map UInt8.toNat < (encode right).map UInt8.toNat))

/-- One turn of the loop over entries. -/
def decodeEntry (bits : Nat) (previous : Option Text) (bytes : Bytes) :
    Except String (ArchiveEntry × Bytes) := do
  let (tag, bytes) ← number 1 bytes
  let kind ← entryKind tag
  let (pathLen, bytes) ← number 4 bytes
  check (¬(pathLen = 0 ∨ maxPathBytes < pathLen)) "registry package archive path length is invalid"
  let (raw, bytes) ← take pathLen bytes
  let path ← fromUtf8 raw
  validateArchivePath path
  check (∀ other ∈ previous, TextLt other path) "registry package archive paths must be uniquely sorted"
  let (contentsLen, bytes) ← number 8 bytes
  check (contentsLen < 2 ^ bits) "registry package archive file is too large"
  check (¬(kind = .directory ∧ contentsLen ≠ 0)) "registry package directory has contents"
  let (contents, bytes) ← take contentsLen bytes
  pure (⟨path, kind, contents⟩, bytes)

def decodeEntries (bits : Nat) : Nat → Option Text → Bytes → Except String (List ArchiveEntry × Bytes)
  | 0, _, bytes => .ok ([], bytes)
  | count + 1, previous, bytes => do
    let (entry, bytes) ← decodeEntry bits previous bytes
    let (entries, bytes) ← decodeEntries bits count (some entry.path) bytes
    pure (entry :: entries, bytes)

/-! ### The tree -/

def ArchiveEntry.components (entry : ArchiveEntry) : List Text := split '/' entry.path

/-- The ancestors of a path and the path itself, from the top. -/
def ancestry (parts : List Text) : List (List Text) := (List.range parts.length).map fun n => parts.take (n + 1)

/-- Puts a path into the map of folded paths, which has no other path there. -/
def noteFolded (lower : Text → Text) (seen : List (Text × Text)) (parts : List Text) :
    Except String (List (Text × Text)) := do
  let foldedPath := join '/' (parts.map lower)
  let originalPath := join '/' parts
  let noted := seen.find? fun noted : Text × Text => decide (noted.1 = foldedPath)
  check (∀ previous ∈ noted, previous.2 = originalPath)
    "registry package archive paths collide on case-insensitive filesystems"
  pure ((foldedPath, originalPath) :: seen)

def kindOf (entries : List ArchiveEntry) (path : Text) : Option EntryKind :=
  (entries.find? fun entry => decide (entry.path = path)).map ArchiveEntry.kind

def checkEntry (lower : Text → Text) (entries : List ArchiveEntry) (seen : List (Text × Text)) (entry : ArchiveEntry) :
    Except String (List (Text × Text)) := do
  let seen ← (ancestry entry.components).foldlM (noteFolded lower) seen
  (ancestry entry.components).dropLast.reverse.forM fun parent =>
    check (kindOf entries (join '/' parent) ≠ some .file) "registry package archive file is used as a directory"
  pure seen

def validateArchiveTree (lower : Text → Text) (entries : List ArchiveEntry) : Except String Unit := do
  let _ ← entries.foldlM (checkEntry lower entries) []
  pure ()

def decodeRegistryArchive (bits : Nat) (blake3 : Bytes → Bytes) (lower : Text → Text) (archive : Bytes)
    (expectedDigest : Bytes) : Except String (List ArchiveEntry) := do
  check (¬maxArchiveBytes < archive.length) "registry package archive exceeds the size limit"
  check (blake3 archive = expectedDigest) "registry package archive digest mismatch"
  let (start, bytes) ← take 8 archive
  check (start = magic) "registry package archive has invalid magic"
  let (version, bytes) ← number 4 bytes
  check (version = schema) "unsupported registry package archive schema"
  let (count, bytes) ← number 4 bytes
  check (¬maxArchiveEntries < count) "registry package archive has too many entries"
  let (entries, bytes) ← decodeEntries bits count none bytes
  check (bytes = []) "registry package archive has trailing bytes"
  validateArchiveTree lower entries
  pure entries

/-! ### Writing

The destination is a tree of nodes, each under the names that lead to it. A name that is not plain would leave its
directory. -/

inductive Node where
  | directory
  | file (contents : Bytes)
  deriving DecidableEq

abbrev Tree := List (List Text × Node)

inductive WriteError where
  | outside
  | notADirectory
  | alreadyExists

def IsPlain (name : Text) : Prop :=
  name ≠ [] ∧ name ≠ ['.'] ∧ name ≠ ['.', '.'] ∧ '/' ∉ name ∧ '\x5c' ∉ name ∧ '\x00' ∉ name ∧ ':' ∉ name

instance (name : Text) : Decidable (IsPlain name) := inferInstanceAs (Decidable (_ ∧ _))

section Write

variable (fold : Text → Text)

def lookup (tree : Tree) (path : List Text) : Option (List Text × Node) :=
  tree.find? fun node => decide (node.1.map fold = path.map fold)

/-- `open_cache_directory`, which creates what is not there. -/
def openCacheDirectory (tree : Tree) (parent : List Text) (name : Text) : Except WriteError (Tree × List Text) :=
  if IsPlain name then
    match lookup fold tree (parent ++ [name]) with
    | some (path, .directory) => .ok (tree, path)
    | some (_, .file _) => .error .notADirectory
    | none => .ok (tree ++ [(parent ++ [name], .directory)], parent ++ [name])
  else .error .outside

/-- Opens a new file and writes it. -/
def createNew (tree : Tree) (parent : List Text) (name : Text) (contents : Bytes) : Except WriteError Tree :=
  if IsPlain name then
    match lookup fold tree (parent ++ [name]) with
    | some _ => .error .alreadyExists
    | none => .ok (tree ++ [(parent ++ [name], .file contents)])
  else .error .outside

/-- The loop over the components of an entry. -/
def writeComponents (entry : ArchiveEntry) (tree : Tree) (parent : List Text) : List Text → Except WriteError Tree
  | [] => .ok tree
  | [name] =>
    match entry.kind with
    | .directory => do
      let (tree, _) ← openCacheDirectory fold tree parent name
      pure tree
    | .file => createNew fold tree parent name entry.contents
  | name :: names => do
    let (tree, directory) ← openCacheDirectory fold tree parent name
    writeComponents entry tree directory names

def writeArchiveEntries (entries : List ArchiveEntry) : Except WriteError Tree :=
  entries.foldlM (fun tree entry => writeComponents fold entry tree [] entry.components) []

end Write

/-! ### What an archive is to be -/

/-- A number of so many bytes, the lowest first. -/
def toLe : Nat → Nat → Bytes
  | 0, _ => []
  | count + 1, value => UInt8.ofNat value :: toLe count (value / 256)

def EntryKind.tag : EntryKind → Nat
  | .file => 0
  | .directory => 1

def encodeEntry (entry : ArchiveEntry) : Bytes :=
  toLe 1 entry.kind.tag ++ toLe 4 (encode entry.path).length ++ encode entry.path ++
    toLe 8 entry.contents.length ++ entry.contents

def encodeArchive (entries : List ArchiveEntry) : Bytes :=
  magic ++ toLe 4 schema ++ toLe 4 entries.length ++ entries.flatMap encodeEntry

/-- A parent of an entry, or an entry that is a directory. -/
def IsDirectory (entries : List ArchiveEntry) (path : List Text) : Prop :=
  path ≠ [] ∧ ∃ entry ∈ entries, path <+: entry.components ∧ (path = entry.components → entry.kind = .directory)

/-- The nodes that writing is to create. -/
def Created (entries : List ArchiveEntry) (path : List Text) (node : Node) : Prop :=
  (node = .directory ∧ IsDirectory entries path) ∨
    ∃ entry ∈ entries, entry.kind = .file ∧ path = entry.components ∧ node = .file entry.contents

/-- The entries are created inside an empty directory, and nothing else is. -/
structure Extracts (fold lower : Text → Text) (entries : List ArchiveEntry) (tree : Tree) : Prop where
  written : writeArchiveEntries fold entries = .ok tree
  created : ∀ path node, (path, node) ∈ tree ↔ Created entries path node
  inside : ∀ node ∈ tree, ∀ name ∈ node.1, IsPlain name
  apart : tree.Pairwise fun a b => a.1.map lower ≠ b.1.map lower

/-! ### Decoding -/

variable {count : Nat} {bytes rest : Bytes}

theorem take_eq_ok {taken : Bytes} (h : take count bytes = .ok (taken, rest)) :
    bytes = taken ++ rest ∧ taken.length = count := by
  unfold take at h
  split at h
  · next hle =>
    cases h
    exact ⟨(take_append_drop count bytes).symm, length_take_of_le hle⟩
  · cases h

theorem toLe_fromLe (bytes : Bytes) : toLe bytes.length (fromLe bytes) = bytes := by
  induction bytes with
  | nil => rfl
  | cons byte bytes ih =>
    have hbyte := byte.toNat_lt
    have hvalue : fromLe (byte :: bytes) = byte.toNat + 256 * fromLe bytes := rfl
    have hlow : UInt8.ofNat (byte.toNat + 256 * fromLe bytes) = byte := by
      rw [UInt8.ofNat_eq_iff_mod_eq_toNat]
      omega
    have hhigh : (byte.toNat + 256 * fromLe bytes) / 256 = fromLe bytes := by omega
    rw [length_cons, toLe, hvalue, hlow, hhigh, ih]

theorem number_eq_ok {value : Nat} (h : number count bytes = .ok (value, rest)) : bytes = toLe count value ++ rest := by
  obtain ⟨⟨taken, rest'⟩, htake, h⟩ := bind_eq_ok.mp h
  cases h
  obtain ⟨hbytes, hlength⟩ := take_eq_ok htake
  rw [← hlength, toLe_fromLe]
  exact hbytes

theorem entryKind_eq_ok {tag : Nat} {kind : EntryKind} (h : entryKind tag = .ok kind) : tag = kind.tag := by
  unfold entryKind at h
  split at h
  · cases h; rfl
  · cases h; rfl
  · cases h

theorem fromUtf8_eq_ok {raw : Bytes} {path : Text} (h : fromUtf8 raw = .ok path) : encode path = raw := by
  unfold fromUtf8 at h
  split at h
  · next text htext =>
    cases h
    unfold String.fromUTF8? at htext
    split at htext
    · cases htext
      rw [← bytes_eq_encode]
      rfl
    · cases htext
  · cases h

variable {bits : Nat} {previous : Option Text} {entry : ArchiveEntry}

theorem decodeEntry_eq_ok (h : decodeEntry bits previous bytes = .ok (entry, rest)) :
    bytes = encodeEntry entry ++ rest ∧ validateArchivePath entry.path = .ok () ∧
      ∀ other ∈ previous, TextLt other entry.path := by
  obtain ⟨⟨tag, bytes₁⟩, htag, h⟩ := bind_eq_ok.mp h
  obtain ⟨kind, hkind, h⟩ := bind_eq_ok.mp h
  obtain ⟨⟨pathLen, bytes₂⟩, hpathLen, h⟩ := bind_eq_ok.mp h
  obtain ⟨⟨⟩, -, h⟩ := bind_eq_ok.mp h
  obtain ⟨⟨raw, bytes₃⟩, hraw, h⟩ := bind_eq_ok.mp h
  obtain ⟨path, hpath, h⟩ := bind_eq_ok.mp h
  obtain ⟨⟨⟩, hvalid, h⟩ := bind_eq_ok.mp h
  obtain ⟨⟨⟩, hsorted, h⟩ := bind_eq_ok.mp h
  obtain ⟨⟨contentsLen, bytes₄⟩, hcontentsLen, h⟩ := bind_eq_ok.mp h
  obtain ⟨⟨⟩, -, h⟩ := bind_eq_ok.mp h
  obtain ⟨⟨⟩, -, h⟩ := bind_eq_ok.mp h
  obtain ⟨⟨contents, bytes₅⟩, hcontents, h⟩ := bind_eq_ok.mp h
  cases h
  obtain ⟨hbytes₂, hrawLength⟩ := take_eq_ok hraw
  obtain ⟨hbytes₄, hcontentsLength⟩ := take_eq_ok hcontents
  refine ⟨?_, hvalid, check_eq_ok.mp hsorted⟩
  rw [number_eq_ok htag, number_eq_ok hpathLen, hbytes₂, number_eq_ok hcontentsLen, hbytes₄, entryKind_eq_ok hkind]
  simp only [encodeEntry, fromUtf8_eq_ok hpath, hrawLength, hcontentsLength, append_assoc]

theorem TextLt.trans {a b c : Text} (hab : TextLt a b) (hbc : TextLt b c) : TextLt a c := lt_trans hab hbc

theorem decodeEntries_eq_ok
    {entries : List ArchiveEntry} (h : decodeEntries bits count previous bytes = .ok (entries, rest)) :
    entries.length = count ∧ bytes = entries.flatMap encodeEntry ++ rest ∧
      (∀ entry ∈ entries, validateArchivePath entry.path = .ok ()) ∧
      (∀ entry ∈ entries, ∀ other ∈ previous, TextLt other entry.path) ∧
      entries.Pairwise fun a b => TextLt a.path b.path := by
  induction count generalizing previous bytes entries with
  | zero =>
    cases h
    exact ⟨rfl, rfl, nofun, nofun, .nil⟩
  | succ count ih =>
    obtain ⟨⟨entry, bytes₁⟩, hentry, h⟩ := bind_eq_ok.mp h
    obtain ⟨⟨others, bytes₂⟩, hothers, h⟩ := bind_eq_ok.mp h
    cases h
    obtain ⟨hbytes, hvalid, hprevious⟩ := decodeEntry_eq_ok hentry
    obtain ⟨hlength, hbytes₁, hvalids, hlater, hsorted⟩ := ih hothers
    have hafter : ∀ other ∈ others, TextLt entry.path other.path := fun other hother => hlater other hother _ rfl
    refine ⟨by rw [length_cons, hlength], ?_, forall_mem_cons.mpr ⟨hvalid, hvalids⟩, ?_,
      .cons hafter hsorted⟩
    · rw [hbytes, hbytes₁, flatMap_cons, append_assoc]
    · refine forall_mem_cons.mpr ⟨hprevious, fun other hother before hbefore => ?_⟩
      exact (hprevious before hbefore).trans (hafter other hother)

/-! ### Validation -/

theorem isPlain_of_validate {path name : Text} (h : validateArchivePath path = .ok ()) (hname : name ∈ split '/' path) :
    IsPlain name := by
  obtain ⟨⟨⟩, hrelative, hparts⟩ := bind_eq_ok.mp h
  rw [check_eq_ok, not_or] at hrelative hparts
  have hdots : isDots name ≠ true := fun hdots =>
    hparts.2 (.inr (.inr (any_eq_true.mpr ⟨name, hname, hdots⟩)))
  simp only [isDots, decide_eq_true_eq, not_or, ne_eq] at hdots
  have hnone : ∀ c ∈ ['\x5c', '\x00', ':'], c ∉ name := fun c hc hmem =>
    hrelative.2 (any_eq_true.mpr ⟨c, mem_of_mem_split hname hmem, decide_eq_true hc⟩)
  exact ⟨hdots.1, hdots.2.1, hdots.2.2, separator_notMem_split hname, hnone _ (by simp), hnone _ (by simp),
    hnone _ (by simp)⟩

variable {path parts : List Text}

theorem mem_ancestry (hne : path ≠ []) (h : path <+: parts) : path ∈ ancestry parts := by
  have hpos := length_pos_iff.mpr hne
  have hle := h.length_le
  refine mem_map.mpr ⟨path.length - 1, mem_range.mpr (by omega), ?_⟩
  rw [Nat.sub_add_cancel hpos]
  exact (prefix_iff_eq_take.mp h).symm

theorem mem_parents (hne : path ≠ []) (h : path <+: parts) (hproper : path ≠ parts) :
    path ∈ (ancestry parts).dropLast := by
  have hpos := length_pos_iff.mpr hne
  have hle := h.length_le
  have hlt : path.length ≠ parts.length := fun heq => hproper (h.eq_of_length heq)
  obtain ⟨length, hlength⟩ : ∃ length, parts.length = length + 1 := ⟨parts.length - 1, by omega⟩
  rw [ancestry, hlength, range_succ, map_append, map_singleton, dropLast_concat]
  refine mem_map.mpr ⟨path.length - 1, mem_range.mpr (by omega), ?_⟩
  rw [Nat.sub_add_cancel hpos]
  exact (prefix_iff_eq_take.mp h).symm

/-- A path with its folding, as the map of folded paths has it. -/
def note (lower : Text → Text) (parts : List Text) : Text × Text := (join '/' (parts.map lower), join '/' parts)

def Functional (seen : List (Text × Text)) : Prop := ∀ a ∈ seen, ∀ b ∈ seen, a.1 = b.1 → a.2 = b.2

variable {lower : Text → Text} {seen seen' : List (Text × Text)}

theorem noteFolded_eq_ok (h : noteFolded lower seen parts = .ok seen') (hseen : Functional seen) :
    Functional seen' ∧ seen' = note lower parts :: seen := by
  obtain ⟨⟨⟩, hcheck, h⟩ := bind_eq_ok.mp h
  cases h
  rw [check_eq_ok] at hcheck
  have hold : ∀ b ∈ seen, b.1 = (note lower parts).1 → b.2 = (note lower parts).2 := by
    intro b hb hkey
    obtain ⟨previous, hfound⟩ : ∃ previous, seen.find? (fun noted => decide (noted.1 = (note lower parts).1)) =
        some previous := Option.isSome_iff_exists.mp (List.find?_isSome.mpr ⟨b, hb, decide_eq_true hkey⟩)
    have hprevious : previous.1 = (note lower parts).1 := by simpa using List.find?_some hfound
    rw [hseen b hb previous (mem_of_find?_eq_some hfound) (hkey.trans hprevious.symm)]
    exact hcheck previous hfound
  refine ⟨?_, rfl⟩
  intro a ha b hb hkey
  rcases mem_cons.mp ha with rfl | ha
  · rcases mem_cons.mp hb with rfl | hb
    · rfl
    · exact (hold b hb hkey.symm).symm
  · rcases mem_cons.mp hb with rfl | hb
    · exact hold a ha hkey
    · exact hseen a ha b hb hkey

theorem noteAll_eq_ok {paths : List (List Text)}
    (h : paths.foldlM (noteFolded lower) seen = .ok seen') (hseen : Functional seen) :
    Functional seen' ∧ (∀ noted ∈ seen, noted ∈ seen') ∧ ∀ path ∈ paths, note lower path ∈ seen' := by
  refine foldlM_invariant (fun passed found => Functional found ∧ (∀ noted ∈ seen, noted ∈ found) ∧
    ∀ path ∈ passed, note lower path ∈ found) ?_ h ⟨hseen, fun _ h => h, nofun⟩
  rintro passed found path next hnext ⟨hfunctional, hkept, hnoted⟩
  obtain ⟨hfunctional', rfl⟩ := noteFolded_eq_ok hnext hfunctional
  refine ⟨hfunctional', fun noted hmem => mem_cons_of_mem _ (hkept noted hmem), ?_⟩
  intro other hother
  rcases mem_append.mp hother with hother | hother
  · exact mem_cons_of_mem _ (hnoted other hother)
  · rw [mem_singleton.mp hother]
    exact mem_cons_self ..

theorem checkEntries_eq_ok {all entries : List ArchiveEntry} (h : entries.foldlM (checkEntry lower all) [] = .ok seen) :
    Functional seen ∧ ∀ entry ∈ entries, (∀ path ∈ ancestry entry.components, note lower path ∈ seen) ∧
      ∀ parent ∈ (ancestry entry.components).dropLast, kindOf all (join '/' parent) ≠ some .file := by
  refine foldlM_invariant (fun passed found => Functional found ∧ ∀ entry ∈ passed,
    (∀ path ∈ ancestry entry.components, note lower path ∈ found) ∧
      ∀ parent ∈ (ancestry entry.components).dropLast, kindOf all (join '/' parent) ≠ some .file) ?_ h ⟨nofun, nofun⟩
  rintro passed found entry next hnext ⟨hfunctional, hpassed⟩
  obtain ⟨noted, hnoted, hnext⟩ := bind_eq_ok.mp hnext
  obtain ⟨⟨⟩, hparents, hnext⟩ := bind_eq_ok.mp hnext
  cases hnext
  obtain ⟨hfunctional', hkept, hall⟩ := noteAll_eq_ok hnoted hfunctional
  refine ⟨hfunctional', fun other hother => ?_⟩
  rcases mem_append.mp hother with hother | hother
  · obtain ⟨hpaths, hkinds⟩ := hpassed other hother
    exact ⟨fun path hpath => hkept _ (hpaths path hpath), hkinds⟩
  · rw [mem_singleton.mp hother]
    exact ⟨hall, fun parent hparent =>
      check_eq_ok.mp (forM_eq_ok hparents parent (mem_reverse.mpr hparent))⟩

/-- What the decoder makes sure of. -/
structure Valid (lower : Text → Text) (entries : List ArchiveEntry) : Prop where
  distinct : (entries.map ArchiveEntry.components).Nodup
  plain : ∀ entry ∈ entries, ∀ name ∈ entry.components, IsPlain name
  folded : ∀ a ∈ entries, ∀ b ∈ entries, ∀ p q, p ≠ [] → q ≠ [] → p <+: a.components → q <+: b.components →
    p.map lower = q.map lower → p = q
  parents : ∀ a ∈ entries, ∀ b ∈ entries, a.kind = .file → a.components <+: b.components →
    a.components = b.components

theorem components_injective {a b : ArchiveEntry} (h : a.components = b.components) : a.path = b.path := by
  rw [← join_split '/' a.path, ← join_split '/' b.path]
  exact congrArg (join '/') h

theorem components_ne_nil (entry : ArchiveEntry) : entry.components ≠ [] := split_ne_nil '/' entry.path

theorem valid_of_checks {entries : List ArchiveEntry}
    (hpaths : ∀ entry ∈ entries, validateArchivePath entry.path = .ok ())
    (hsorted : entries.Pairwise fun a b => TextLt a.path b.path) (htree : validateArchiveTree lower entries = .ok ()) :
    Valid lower entries := by
  obtain ⟨seen, htree, -⟩ := bind_eq_ok.mp htree
  obtain ⟨hfunctional, hchecked⟩ := checkEntries_eq_ok htree
  have hplain : ∀ entry ∈ entries, ∀ name ∈ entry.components, IsPlain name :=
    fun entry hentry name hname => isPlain_of_validate (hpaths entry hentry) hname
  have hdistinct : (entries.map ArchiveEntry.components).Nodup := by
    rw [List.Nodup, pairwise_map]
    have hne : ∀ a b : ArchiveEntry, TextLt a.path b.path → a.components ≠ b.components := by
      intro a b hlt heq
      rw [components_injective heq] at hlt
      exact lt_irrefl _ hlt
    exact hsorted.imp (hne _ _)
  refine ⟨hdistinct, hplain, ?_, ?_⟩
  · intro a ha b hb p q hp hq hpa hqb hfold
    have hnoted := hfunctional _ ((hchecked a ha).1 p (mem_ancestry hp hpa)) _
      ((hchecked b hb).1 q (mem_ancestry hq hqb)) (congrArg (join '/') hfold)
    have hslash : ∀ {entry}, entry ∈ entries → ∀ {path}, path <+: ArchiveEntry.components entry →
        ∀ name ∈ path, '/' ∉ name :=
      fun hentry _ hunder name hname => (hplain _ hentry name (hunder.subset hname)).2.2.2.1
    rw [← split_join hp (hslash ha hpa), ← split_join hq (hslash hb hqb)]
    exact congrArg (split '/') hnoted
  · intro a ha b hb hfile hunder
    by_contra hproper
    refine (hchecked b hb).2 a.components (mem_parents (components_ne_nil a) hunder hproper) ?_
    have hpath : join '/' a.components = a.path := join_split '/' a.path
    obtain ⟨found, hfound⟩ : ∃ found, entries.find? (fun entry => decide (entry.path = a.path)) = some found :=
      Option.isSome_iff_exists.mp (List.find?_isSome.mpr ⟨a, ha, decide_eq_true rfl⟩)
    have hsame : found.path = a.path := by simpa using List.find?_some hfound
    have hentry : found = a := inj_on_of_nodup_map hdistinct (mem_of_find?_eq_some hfound) ha
      (congrArg (split '/') hsame)
    rw [kindOf, hpath, hfound, hentry, Option.map_some, hfile]

/-! ### Extraction -/

theorem map_eq_of_fold {fold : Text → Text} (hfold : ∀ a b, fold a = fold b → lower a = lower b)
    {p q : List Text} (h : p.map fold = q.map fold) : p.map lower = q.map lower := by
  induction p generalizing q with
  | nil => rw [map_eq_nil_iff.mp h.symm]
  | cons a p ih =>
    cases q with
    | nil => cases h
    | cons b q =>
      obtain ⟨hhead, htail⟩ := List.cons.inj h
      rw [map_cons, map_cons, hfold a b hhead, ih htail]

/-- What is written of some of the entries. -/
structure Written (lower : Text → Text) (all done : List ArchiveEntry) (tree : Tree) : Prop where
  sound : ∀ node ∈ tree, (node.2 = .directory ∧ IsDirectory all node.1) ∨
    ∃ entry ∈ done, entry.kind = .file ∧ node.1 = entry.components ∧ node.2 = .file entry.contents
  apart : tree.Pairwise fun a b => a.1.map lower ≠ b.1.map lower

/-- A path that leads to an entry. -/
def Noted (all : List ArchiveEntry) (path : List Text) : Prop := path ≠ [] ∧ ∃ entry ∈ all, path <+: entry.components

theorem IsDirectory.noted {all : List ArchiveEntry} (h : IsDirectory all path) : Noted all path := by
  obtain ⟨hne, entry, hentry, hunder, -⟩ := h
  exact ⟨hne, entry, hentry, hunder⟩

theorem noted_components {all : List ArchiveEntry} (h : entry ∈ all) :
    Noted all entry.components := ⟨components_ne_nil entry, entry, h, prefix_rfl⟩

section Steps

variable {fold lower : Text → Text} {all done : List ArchiveEntry} {tree : Tree}

theorem Written.noted (h : Written lower all done tree) (hdone : ∀ entry ∈ done, entry ∈ all) {node : List Text × Node}
    (hnode : node ∈ tree) : Noted all node.1 := by
  rcases h.sound node hnode with ⟨-, hdirectory⟩ | ⟨entry, hentry, -, hpath, -⟩
  · exact hdirectory.noted
  · rw [hpath]
    exact noted_components (hdone entry hentry)

theorem Valid.eq_of_noted (hvalid : Valid lower all) {p q : List Text} (hp : Noted all p) (hq : Noted all q)
    (h : p.map lower = q.map lower) : p = q := by
  obtain ⟨hpne, a, ha, hpa⟩ := hp
  obtain ⟨hqne, b, hb, hqb⟩ := hq
  exact hvalid.folded a ha b hb p q hpne hqne hpa hqb h

/-- A file entry is not where a directory is to be. -/
theorem Valid.not_isDirectory (hvalid : Valid lower all) (hentry : entry ∈ all)
    (hfile : entry.kind = .file) : ¬IsDirectory all entry.components := by
  rintro ⟨-, other, hother, hunder, hkind⟩
  have heq := hvalid.parents entry hentry other hother hfile hunder
  have hsame := inj_on_of_nodup_map hvalid.distinct hentry hother heq
  rw [← hsame] at hkind
  rw [hkind rfl] at hfile
  cases hfile

/-- The node that an entry needs at a path that leads to it. -/
def nodeAt (entry : ArchiveEntry) (path : List Text) : Node :=
  if path = entry.components ∧ entry.kind = .file then .file entry.contents else .directory

theorem eq_of_between {parent : List Text} {name : Text} {names : List Text} (hparent : parent <+: path)
    (hne : path ≠ parent) (hpath : path <+: parent ++ name :: names) : parent ++ [name] <+: path := by
  obtain ⟨rest, rfl⟩ := hparent
  obtain ⟨first, rest, rfl⟩ := exists_cons_of_ne_nil fun h : rest = [] => hne (by rw [h, append_nil])
  obtain ⟨rfl, -⟩ := cons_prefix_cons.mp ((prefix_append_right_inj parent).mp hpath)
  exact ⟨rest, by rw [append_assoc]; rfl⟩

section

variable (h : Written lower all done tree) (hvalid : Valid lower all)
include h hvalid

/-- A new node, where no other one is. -/
theorem Written.add (hdone : ∀ entry ∈ done, entry ∈ all) {done' : List ArchiveEntry}
    (hmore : ∀ entry ∈ done, entry ∈ done') {node : Node} (hpath : Noted all path) (hfresh : lookup fold tree path = none)
    (hnode : (node = .directory ∧ IsDirectory all path) ∨
      ∃ entry ∈ done', entry.kind = .file ∧ path = entry.components ∧ node = .file entry.contents) :
    Written lower all done' (tree ++ [(path, node)]) := by
  constructor
  · intro other hother
    rcases mem_append.mp hother with hother | hother
    · rcases h.sound other hother with hdirectory | ⟨entry, hentry, hfile⟩
      · exact .inl hdirectory
      · exact .inr ⟨entry, hmore entry hentry, hfile⟩
    · rw [mem_singleton.mp hother]
      exact hnode
  · refine pairwise_append.mpr ⟨h.apart, pairwise_singleton _ _, ?_⟩
    intro other hother new hnew heq
    rw [mem_singleton.mp hnew] at heq
    have hsame := hvalid.eq_of_noted (h.noted hdone hother) hpath heq
    have hnone := List.find?_eq_none.mp hfresh other hother
    rw [hsame] at hnone
    simp at hnone

variable (hfold : ∀ a b, fold a = fold b → lower a = lower b) (hdone : ∀ entry ∈ done, entry ∈ all)
include hfold hdone

theorem Written.of_lookup {node : List Text × Node} (hpath : Noted all path)
    (hfound : lookup fold tree path = some node) : node.1 = path ∧ node ∈ tree := by
  have hmem := mem_of_find?_eq_some hfound
  have heq : node.1.map fold = path.map fold := by simpa using List.find?_some hfound
  exact ⟨hvalid.eq_of_noted (h.noted hdone hmem) hpath (map_eq_of_fold hfold heq), hmem⟩

variable {parent : List Text} {name : Text}

theorem openCacheDirectory_written (hplain : IsPlain name) (hdirectory : IsDirectory all (parent ++ [name])) :
    ∃ tree', openCacheDirectory fold tree parent name = .ok (tree', parent ++ [name]) ∧
      Written lower all done tree' ∧ (∀ node ∈ tree, node ∈ tree') ∧ (parent ++ [name], .directory) ∈ tree' := by
  unfold openCacheDirectory
  rw [if_pos hplain]
  cases hfound : lookup fold tree (parent ++ [name]) with
  | none =>
    refine ⟨_, rfl, ?_, fun node hnode => mem_append_left _ hnode, by simp⟩
    exact h.add hvalid hdone (fun _ h => h) hdirectory.noted hfound (.inl ⟨rfl, hdirectory⟩)
  | some node =>
    obtain ⟨path, node⟩ := node
    obtain ⟨rfl, hmem⟩ := h.of_lookup hvalid hfold hdone hdirectory.noted hfound
    rcases h.sound _ hmem with ⟨rfl, -⟩ | ⟨entry, hentry, hfile, hpath, -⟩
    · exact ⟨tree, rfl, h, fun _ h => h, hmem⟩
    · exact absurd (hpath ▸ hdirectory) (hvalid.not_isDirectory (hdone entry hentry) hfile)

theorem createNew_written (hplain : IsPlain name) (hentry : entry ∈ all) (hnew : entry ∉ done)
    (hfile : entry.kind = .file) (hpath : entry.components = parent ++ [name]) :
    ∃ tree', createNew fold tree parent name entry.contents = .ok tree' ∧
      Written lower all (done ++ [entry]) tree' ∧ (∀ node ∈ tree, node ∈ tree') ∧
      (entry.components, .file entry.contents) ∈ tree' := by
  have hnoted := noted_components hentry
  unfold createNew
  rw [if_pos hplain, ← hpath]
  cases hfound : lookup fold tree entry.components with
  | none =>
    refine ⟨_, rfl, ?_, fun node hnode => mem_append_left _ hnode, by simp⟩
    exact h.add hvalid hdone (fun _ hmem => mem_append_left _ hmem) hnoted hfound
      (.inr ⟨entry, by simp, hfile, rfl, rfl⟩)
  | some node =>
    obtain ⟨hsame, hmem⟩ := h.of_lookup hvalid hfold hdone hnoted hfound
    rcases h.sound node hmem with ⟨-, hdirectory⟩ | ⟨other, hother, -, hcomponents, -⟩
    · exact absurd (hsame ▸ hdirectory) (hvalid.not_isDirectory hentry hfile)
    · have heq := inj_on_of_nodup_map hvalid.distinct (hdone other hother) hentry (hcomponents.symm.trans hsame)
      exact absurd (heq ▸ hother) hnew

/-- The loop over the components of an entry, behind those done. -/
theorem writeComponents_written (hentry : entry ∈ all) (hnew : entry ∉ done) {names : List Text} (hnames : names ≠ [])
    (hpath : entry.components = parent ++ names) : ∃ tree', writeComponents fold entry tree parent names = .ok tree' ∧
      Written lower all (done ++ [entry]) tree' ∧ (∀ node ∈ tree, node ∈ tree') ∧
      ∀ path, parent <+: path → path ≠ parent → path <+: entry.components → (path, nodeAt entry path) ∈ tree' := by
  induction names generalizing parent tree with
  | nil => exact absurd rfl hnames
  | cons name names ih =>
    have hplain : IsPlain name := hvalid.plain entry hentry name (by rw [hpath]; simp)
    have hunder : parent ++ [name] <+: entry.components := ⟨names, by rw [hpath, append_assoc]; rfl⟩
    cases names with
    | nil =>
      -- the last component: the only path behind the parent
      have honly : ∀ path, parent <+: path → path ≠ parent → path <+: entry.components → path = entry.components := by
        intro path hparent hne hpre
        rw [hpath] at hpre ⊢
        have hle := (eq_of_between hparent hne hpre).length_le
        exact hpre.eq_of_length (Nat.le_antisymm hpre.length_le hle)
      cases hkind : entry.kind with
      | directory =>
        have hdirectory : IsDirectory all (parent ++ [name]) := ⟨by simp, entry, hentry, hunder, fun _ => hkind⟩
        obtain ⟨tree', hopen, hwritten, hkept, hmem⟩ :=
          openCacheDirectory_written h hvalid hfold hdone hplain hdirectory
        refine ⟨tree', by simp only [writeComponents, hkind, hopen]; rfl, ⟨?_, hwritten.apart⟩, hkept, ?_⟩
        · intro node hnode
          rcases hwritten.sound node hnode with hsound | ⟨other, hother, hsound⟩
          · exact .inl hsound
          · exact .inr ⟨other, mem_append_left _ hother, hsound⟩
        · intro path hparent hne hpre
          rw [honly path hparent hne hpre, nodeAt, if_neg (by simp [hkind]), hpath]
          exact hmem
      | file =>
        obtain ⟨tree', hcreate, hwritten, hkept, hmem⟩ :=
          createNew_written h hvalid hfold hdone hplain hentry hnew hkind hpath
        refine ⟨tree', by simp only [writeComponents, hkind, hcreate], hwritten, hkept, ?_⟩
        intro path hparent hne hpre
        rw [honly path hparent hne hpre, nodeAt, if_pos ⟨rfl, hkind⟩]
        exact hmem
    | cons next names =>
      have hproper : parent ++ [name] ≠ entry.components := by
        intro heq
        have hlength := congrArg List.length (heq.trans hpath)
        simp at hlength
      have hdirectory : IsDirectory all (parent ++ [name]) :=
        ⟨by simp, entry, hentry, hunder, fun heq => absurd heq hproper⟩
      obtain ⟨tree₁, hopen, hwritten, hkept, hmem⟩ :=
        openCacheDirectory_written h hvalid hfold hdone hplain hdirectory
      have hpath' : entry.components = (parent ++ [name]) ++ next :: names := by rw [hpath, append_assoc]; rfl
      obtain ⟨tree₂, hwrite, hwritten', hkept', hcreated⟩ := ih hwritten (cons_ne_nil _ _) hpath'
      refine ⟨tree₂, ?_, hwritten', fun node hnode => hkept' node (hkept node hnode), ?_⟩
      · rw [writeComponents, hopen]
        · exact hwrite
        · nofun
      · intro path hparent hne hpre
        by_cases hlast : path = parent ++ [name]
        · rw [hlast, nodeAt, if_neg fun hfile => hproper hfile.1]
          exact hkept' _ hmem
        · exact hcreated path (eq_of_between hparent hne (hpath ▸ hpre)) hlast hpre

end

/-- The loop over entries. -/
theorem writeEntries_written (h : Written lower all done tree) (hvalid : Valid lower all)
    (hfold : ∀ a b, fold a = fold b → lower a = lower b) {rest : List ArchiveEntry} (hall : all = done ++ rest)
    (hcreated : ∀ entry ∈ done, ∀ path ≠ [], path <+: entry.components → (path, nodeAt entry path) ∈ tree) :
    ∃ tree', rest.foldlM (fun tree entry => writeComponents fold entry tree [] entry.components) tree = .ok tree' ∧
      Written lower all all tree' ∧
      ∀ entry ∈ all, ∀ path ≠ [], path <+: entry.components → (path, nodeAt entry path) ∈ tree' := by
  induction rest generalizing done tree with
  | nil =>
    rw [append_nil] at hall
    subst hall
    exact ⟨tree, rfl, h, hcreated⟩
  | cons entry rest ih =>
    have hdone : ∀ other ∈ done, other ∈ all := fun other hother => by rw [hall]; exact mem_append_left _ hother
    have hentry : entry ∈ all := by rw [hall]; simp
    have hnew : entry ∉ done := by
      have hnodup := List.Nodup.of_map _ hvalid.distinct
      rw [hall] at hnodup
      exact fun hmem => (nodup_append.mp hnodup).2.2 entry hmem entry (mem_cons_self ..) rfl
    obtain ⟨tree', hwrite, hwritten, hkept, hpaths⟩ :=
      writeComponents_written h hvalid hfold hdone hentry hnew (components_ne_nil entry) (nil_append _).symm
    obtain ⟨tree'', hrun, hfinal⟩ := ih hwritten (by rw [hall, append_assoc]; rfl) (by
      intro other hother path hne hpre
      rcases mem_append.mp hother with hother | hother
      · exact hkept _ (hcreated other hother path hne hpre)
      · rw [mem_singleton.mp hother] at hpre ⊢
        exact hpaths path nil_prefix hne hpre)
    refine ⟨tree'', ?_, hfinal⟩
    rw [foldlM_cons, hwrite]
    exact hrun

/-- Valid entries are written as they are. -/
theorem Valid.extracts (hvalid : Valid lower all) (hfold : ∀ a b, fold a = fold b → lower a = lower b) :
    ∃ tree, Extracts fold lower all tree := by
  obtain ⟨tree, hrun, hwritten, hcreated⟩ :=
    writeEntries_written ⟨by simp, .nil⟩ hvalid hfold (nil_append all).symm nofun
  refine ⟨tree, hrun, ?_, ?_, hwritten.apart⟩
  · intro path node
    constructor
    · intro hmem
      exact hwritten.sound _ hmem
    · rintro (⟨rfl, hne, entry, hentry, hunder, hkind⟩ | ⟨entry, hentry, hfile, rfl, rfl⟩)
      · have hnode : nodeAt entry path = .directory := by
          refine if_neg fun ⟨heq, hfile⟩ => ?_
          rw [hkind heq] at hfile
          cases hfile
        rw [← hnode]
        exact hcreated entry hentry path hne hunder
      · have hnode : nodeAt entry entry.components = .file entry.contents := if_pos ⟨rfl, hfile⟩
        rw [← hnode]
        exact hcreated entry hentry _ (components_ne_nil entry) prefix_rfl
  · intro node hnode name hname
    obtain ⟨-, entry, hentry, hunder⟩ := hwritten.noted (fun _ h => h) hnode
    exact hvalid.plain entry hentry name (hunder.subset hname)

end Steps

/-- **An accepted archive is the encoding of its entries. Written into an empty directory they are created with their
parents and nothing else, inside it, and no two nodes collide.** -/
theorem decodeRegistryArchive_safe {bits : Nat} {blake3 : List UInt8 → List UInt8} {lower : Text → Text}
    {archive digest : List UInt8} {entries : List ArchiveEntry}
    (h : decodeRegistryArchive bits blake3 lower archive digest = .ok entries) :
    encodeArchive entries = archive ∧
      ∀ fold : Text → Text, (∀ a b, fold a = fold b → lower a = lower b) →
        ∃ tree, Extracts fold lower entries tree := by
  obtain ⟨⟨⟩, -, h⟩ := bind_eq_ok.mp h
  obtain ⟨⟨⟩, -, h⟩ := bind_eq_ok.mp h
  obtain ⟨⟨start, bytes₁⟩, hstart, h⟩ := bind_eq_ok.mp h
  obtain ⟨⟨⟩, hmagic, h⟩ := bind_eq_ok.mp h
  obtain ⟨⟨version, bytes₂⟩, hversion, h⟩ := bind_eq_ok.mp h
  obtain ⟨⟨⟩, hschema, h⟩ := bind_eq_ok.mp h
  obtain ⟨⟨count, bytes₃⟩, hcount, h⟩ := bind_eq_ok.mp h
  obtain ⟨⟨⟩, -, h⟩ := bind_eq_ok.mp h
  obtain ⟨⟨decoded, bytes₄⟩, hdecoded, h⟩ := bind_eq_ok.mp h
  obtain ⟨⟨⟩, hend, h⟩ := bind_eq_ok.mp h
  obtain ⟨⟨⟩, htree, h⟩ := bind_eq_ok.mp h
  cases h
  rw [check_eq_ok] at hmagic hschema hend
  obtain ⟨hlength, hbytes₃, hpaths, -, hsorted⟩ := decodeEntries_eq_ok hdecoded
  refine ⟨?_, fun fold hfold => (valid_of_checks hpaths hsorted htree).extracts hfold⟩
  rw [(take_eq_ok hstart).1, number_eq_ok hversion, number_eq_ok hcount, hbytes₃, hmagic, hschema, hend, ← hlength,
    encodeArchive, append_nil, append_assoc, append_assoc]

/-- A directory with a file, and two files in a directory without an entry of its own. -/
def sourceTree : List ArchiveEntry :=
  [⟨"Doc".toList, .directory, []⟩, ⟨"Doc/Use".toList, .file, [72, 105]⟩, ⟨"lib/a".toList, .file, [49]⟩,
    ⟨"lib/b".toList, .file, []⟩]

/-- Two files whose names have one upper case. -/
def sigmas : List ArchiveEntry := [⟨['ς'], .file, [1]⟩, ⟨['σ'], .file, [2]⟩]

def sourceTreeDigest : Bytes :=
  [176, 154, 70, 217, 156, 112, 187, 21, 150, 131, 185, 176, 133, 141, 135, 81, 75, 152, 12, 150, 201, 219, 183, 173,
    247, 161, 164, 28, 126, 239, 70, 189]

def sigmasDigest : Bytes :=
  [58, 176, 172, 56, 250, 238, 197, 90, 238, 226, 102, 101, 54, 78, 72, 94, 53, 56, 29, 151, 41, 85, 2, 158, 143, 160,
    12, 34, 76, 135, 108, 89]

/-- BLAKE3 of the two archives. -/
def blake3Of (bytes : Bytes) : Bytes :=
  if bytes = encodeArchive sourceTree then sourceTreeDigest
  else if bytes = encodeArchive sigmas then sigmasDigest else []

/-- Written where names are the same when they differ in the case of letters only. -/
theorem decodeRegistryArchive_safe_sourceTree :
    decodeRegistryArchive 64 blake3Of toAsciiLowercase (encodeArchive sourceTree) sourceTreeDigest = .ok sourceTree ∧
      ∃ tree, Extracts toAsciiLowercase toAsciiLowercase sourceTree tree := by
  have haccepted : decodeRegistryArchive 64 blake3Of toAsciiLowercase (encodeArchive sourceTree) sourceTreeDigest =
      .ok sourceTree := rfl
  exact ⟨haccepted, (decodeRegistryArchive_safe haccepted).2 toAsciiLowercase fun _ _ h => h⟩

/-- Compares by upper case, which both sigmas share. -/
def toUppercase (name : Text) : Text :=
  name.map fun c => if 'a' ≤ c ∧ c ≤ 'z' then Char.ofNat (c.toNat - 32) else if c = 'ς' ∨ c = 'σ' then 'Σ' else c

/-- Each sigma is its own lower case, so the archive is accepted. -/
theorem sigmas_collide :
    decodeRegistryArchive 64 blake3Of toAsciiLowercase (encodeArchive sigmas) sigmasDigest = .ok sigmas ∧
      writeArchiveEntries toUppercase sigmas = .error .alreadyExists := ⟨rfl, rfl⟩

end Nia.PackageMetadata.Archive
