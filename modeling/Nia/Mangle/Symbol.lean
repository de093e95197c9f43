import Nia.Lib.BackReference
import Nia.Mangle.Wire

/-! Canonical linker symbols.

`mangleStableSymbol` writes a stable key as a record of length-delimited fields
and renders it as text under `_N`; `demangleStableSymbol` is its strict decoder.
A generic argument that was already written out is written as a back reference:
the encoder numbers the arguments it wrote out, the decoder numbers all the
arguments it has read. Every other field is read back as it was written, so
what a decoded symbol says about its arguments is `readBack`
(`demangle_mangle`), and from that follow the keys that round-trip and the pairs
of owners whose closures share a symbol. -/
namespace Nia.Mangle
open Nia.Lib.Code Nia.Lib.BackReference

/-! ### Keys -/

/-- A package namespace is never empty. -/
def SymbolPackageIdentity := {package : String // package ≠ ""}
deriving DecidableEq

def SymbolPackageIdentity.tryNew (value : String) : Option SymbolPackageIdentity :=
  if h : value ≠ "" then some ⟨value, h⟩ else none

theorem SymbolPackageIdentity.tryNew_val (package : SymbolPackageIdentity) :
    tryNew package.val = some package := by
  rw [tryNew, dif_pos package.property]
  rfl

inductive MangleSymbolKind where
  | function | global | type | vtable | closureEntry | adapter
deriving DecidableEq, Repr

def MangleSymbolKind.tag : MangleSymbolKind → UInt8
  | .function => 102
  | .global => 103
  | .type => 116
  | .vtable => 118
  | .closureEntry => 99
  | .adapter => 97

def MangleSymbolKind.fromTag (tag : UInt8) : Option MangleSymbolKind :=
  if tag = 102 then some .function
  else if tag = 103 then some .global
  else if tag = 116 then some .type
  else if tag = 118 then some .vtable
  else if tag = 99 then some .closureEntry
  else if tag = 97 then some .adapter
  else none

theorem MangleSymbolKind.fromTag_tag (kind : MangleSymbolKind) : fromTag kind.tag = some kind := by
  cases kind <;> rfl

/-- The raw stable hash of a module. -/
abbrev MangleModuleId := UInt64

structure StableSymbolKey where
  package : SymbolPackageIdentity
  module : MangleModuleId
  definition : String
  name : String
  kind : MangleSymbolKind
  genericArgs : List String
deriving DecidableEq

/-- The decoded form has the fields of the key. -/
structure DecodedStableSymbol where
  package : SymbolPackageIdentity
  module : MangleModuleId
  definition : String
  name : String
  kind : MangleSymbolKind
  genericArgs : List String
deriving DecidableEq

/-- What a decoder that returns exactly the key returns. -/
def StableSymbolKey.decoded (key : StableSymbolKey) : DecodedStableSymbol :=
  ⟨key.package, key.module, key.definition, key.name, key.kind, key.genericArgs⟩

/-! ### Texts -/

def asBytes (text : String) : Bytes := text.toByteArray.data.toList

/-- `String::from_utf8(..).ok()` -/
def fromUtf8 (bytes : Bytes) : Option String := String.fromUTF8? ⟨⟨bytes⟩⟩

theorem fromUtf8_asBytes (text : String) : fromUtf8 (asBytes text) = some text := by
  show String.fromUTF8? text.toByteArray = some text
  rw [String.fromUTF8?, dif_pos text.isValidUTF8]
  rfl

def putText (text : String) : Bytes := putBytes (asBytes text)

def getText : Reader UInt8 String := do
  let bytes ← getBytes
  StateT.lift (fromUtf8 bytes)

theorem getText_put {text : String} (h : text.utf8ByteSize < 2 ^ 64) :
    Reads getText (putText text) text :=
  (getBytes_put h).bind_lift (fromUtf8_asBytes text)

/-! ### The record -/

/-- The generic arguments; `substitutions` are the arguments written out so far. -/
def putArgs (substitutions : List String) : List String → Bytes
  | [] => []
  | arg :: args =>
    match substitutions.idxOf? arg with
    | some index => 0 :: putVarint (UInt64.ofNat index) ++ putArgs substitutions args
    | none => 1 :: putText arg ++ putArgs (substitutions ++ [arg]) args

/-- The decoder's loop; here `substitutions` are all the arguments read so far. -/
def getArgs : Nat → List String → Reader UInt8 (List String)
  | 0, _ => pure []
  | count + 1, substitutions => do
    let tag ← getByte
    let arg ←
      if tag = 0 then do
        let index ← getVarint
        StateT.lift substitutions[index.toNat]?
      else if tag = 1 then getText
      else StateT.lift none
    let args ← getArgs count (substitutions ++ [arg])
    pure (arg :: args)

/-- The fields before the arguments, with the number of arguments. -/
structure SymbolHeader where
  module : MangleModuleId
  definition : String
  kind : MangleSymbolKind
  package : SymbolPackageIdentity
  name : String
  argCount : UInt64

def StableSymbolKey.header (key : StableSymbolKey) : SymbolHeader :=
  ⟨key.module, key.definition, key.kind, key.package, key.name, UInt64.ofNat key.genericArgs.length⟩

def putHeader (header : SymbolHeader) : Bytes :=
  putVarint header.module ++ (putText header.definition ++ ([header.kind.tag] ++
    (putText header.package.val ++ (putText header.name ++ putVarint header.argCount))))

def getHeader : Reader UInt8 SymbolHeader := do
  let module ← getVarint
  let definition ← getText
  let tag ← getByte
  let kind ← StateT.lift (MangleSymbolKind.fromTag tag)
  let text ← getText
  let package ← StateT.lift (SymbolPackageIdentity.tryNew text)
  let name ← getText
  let argCount ← getVarint
  pure ⟨module, definition, kind, package, name, argCount⟩

def mangleStableSymbol (key : StableSymbolKey) : String :=
  String.ofList ('_' :: 'N' :: encodeBase64url
    (78 :: 73 :: 65 :: 1 :: (putHeader key.header ++ putArgs [] key.genericArgs)))

def demangleRecord : Reader UInt8 DecodedStableSymbol := do
  let header ← getHeader
  let genericArgs ← getArgs header.argCount.toNat []
  pure ⟨header.package, header.module, header.definition, header.name, header.kind, genericArgs⟩

/-- `demangle_stable_symbol`: the record starts with `NIA` and the format number, and nothing
follows it. -/
def demangleStableSymbol (symbol : String) : Option DecodedStableSymbol :=
  match symbol.toList with
  | '_' :: 'N' :: payload => do
    match ← decodeBase64url payload with
    | 78 :: 73 :: 65 :: 1 :: record => do
      let (decoded, rest) ← demangleRecord record
      if rest = [] then some decoded else none
    | _ => none
  | _ => none

/-! ### What the decoder reads -/

/-- No text of the key has `limit` bytes, and it has fewer than `limit` arguments. -/
structure StableSymbolKey.Within (limit : Nat) (key : StableSymbolKey) : Prop where
  definition : key.definition.utf8ByteSize < limit
  package : key.package.val.utf8ByteSize < limit
  name : key.name.utf8ByteSize < limit
  args : ∀ arg ∈ key.genericArgs, arg.utf8ByteSize < limit
  count : key.genericArgs.length < limit

/-- A key in memory: no string or vector is longer than `isize::MAX`. -/
def AllocatedKey := {key : StableSymbolKey // key.Within (2 ^ 63)}

theorem AllocatedKey.within (key : AllocatedKey) : key.val.Within (2 ^ 64) where
  definition := key.property.definition.trans (by decide)
  package := key.property.package.trans (by decide)
  name := key.property.name.trans (by decide)
  args := fun arg h => (key.property.args arg h).trans (by decide)
  count := key.property.count.trans (by decide)

theorem getHeader_put {key : StableSymbolKey} (h : key.Within (2 ^ 64)) :
    Reads getHeader (putHeader key.header) key.header := by
  refine (getVarint_put _).bind ((getText_put h.definition).bind ((getByte_put _).bind ?_))
  refine Reads.lift_bind key.kind.fromTag_tag ((getText_put h.package).bind ?_)
  refine Reads.lift_bind key.package.tryNew_val ((getText_put h.name).bind ?_)
  exact (getVarint_put _).bind_pure _

/-- The decoder's loop on what the encoder's loop wrote: it reads back references in its own
table, which is never shorter than the encoder's. -/
theorem getArgs_put (table read args : List String) (htable : table.length ≤ read.length)
    (hcount : read.length + args.length < 2 ^ 64) (hargs : ∀ arg ∈ args, arg.utf8ByteSize < 2 ^ 64) :
    Reads (getArgs args.length read) (putArgs table args) (readBackFrom table read args) := by
  induction args generalizing table read with
  | nil => exact Reads.pure _
  | cons arg args ih =>
    have hcount' : read.length + 1 + args.length < 2 ^ 64 := by
      simpa [Nat.add_assoc, Nat.add_comm 1] using hcount
    have hargs' : ∀ arg ∈ args, arg.utf8ByteSize < 2 ^ 64 := fun a ha => hargs a (by simp [ha])
    simp only [putArgs, readBackFrom, List.length_cons, getArgs]
    cases hindex : table.idxOf? arg with
    | none =>
      have hrest := ih (table ++ [arg]) (read ++ [arg]) (by simpa using htable)
        (by simpa using hcount') hargs'
      exact (getByte_put 1).bind ((getText_put (hargs arg (by simp))).bind (hrest.bind_pure _))
    | some index =>
      have hlt : index < read.length :=
        lt_of_lt_of_le (List.getElem?_eq_some_iff.mp (getElem?_of_idxOf? hindex)).1 htable
      have hword : index < UInt64.size := by
        have hsize : UInt64.size = 2 ^ 64 := rfl
        omega
      have hfound : read[(UInt64.ofNat index).toNat]? = some (read.getD index arg) := by
        rw [UInt64.toNat_ofNat_of_lt' hword]
        simp [hlt]
      have hrest := ih table (read ++ [read.getD index arg]) (by simp; omega)
        (by simpa using hcount') hargs'
      exact (getByte_put 0).bind
        ((getVarint_put _).bind (Reads.lift_bind hfound (hrest.bind_pure _)))

theorem demangleRecord_put {key : StableSymbolKey} (h : key.Within (2 ^ 64)) :
    Reads demangleRecord (putHeader key.header ++ putArgs [] key.genericArgs)
      {key.decoded with genericArgs := readBack key.genericArgs} := by
  have hargs := getArgs_put [] [] key.genericArgs le_rfl (by simpa using h.count) h.args
  have hcount : key.header.argCount.toNat = key.genericArgs.length :=
    UInt64.toNat_ofNat_of_lt' h.count
  refine (getHeader_put h).bind ?_
  rw [hcount]
  exact hargs.bind_pure _

/-- The decoder returns every field of the key but the arguments, which it returns as it reads
them. -/
theorem demangle_mangle {key : StableSymbolKey} (h : key.Within (2 ^ 64)) :
    demangleStableSymbol (mangleStableSymbol key) =
      some {key.decoded with genericArgs := readBack key.genericArgs} := by
  have hrecord := demangleRecord_put h []
  rw [List.append_nil] at hrecord
  simp [demangleStableSymbol, mangleStableSymbol, decodeBase64url_encode, hrecord]

/-- **A symbol is decoded to its key exactly when, for every generic argument that occurs more
than once, the arguments before its first occurrence are all different.** -/
theorem demangle_mangle_eq_iff (key : AllocatedKey) :
    demangleStableSymbol (mangleStableSymbol key.val) = some key.val.decoded ↔
      ∀ arg, 2 ≤ key.val.genericArgs.count arg →
        (key.val.genericArgs.takeWhile (· ≠ arg)).Nodup := by
  rw [demangle_mangle key.within, ← readBack_eq_self_iff]
  constructor
  · intro h
    exact congrArg DecodedStableSymbol.genericArgs (Option.some.inj h)
  · intro h
    rw [h]
    rfl

/-- A function instance at the arguments `A, A, B, B`. -/
def twoRepeatedArgs : StableSymbolKey where
  package := ⟨"p", by decide⟩
  module := 1
  definition := "def:1"
  name := "f"
  kind := .function
  genericArgs := ["A", "A", "B", "B"]

/-- The back reference for the second `B` is read as the second `A`. -/
theorem repeated_args_misread :
    demangleStableSymbol (mangleStableSymbol twoRepeatedArgs) =
        some {twoRepeatedArgs.decoded with genericArgs := ["A", "A", "B", "A"]} ∧
      demangleStableSymbol (mangleStableSymbol twoRepeatedArgs) ≠ some twoRepeatedArgs.decoded := by
  have hwithin : twoRepeatedArgs.Within (2 ^ 64) := by
    constructor <;> decide
  rw [demangle_mangle hwithin]
  constructor
  · rfl
  · decide

/-! ### Symbols tell keys apart

The decoder misreads some arguments, but the record itself does not: a back
reference names the argument the encoder wrote out at that index. -/

theorem putArgs_unique (table : List String) {args args' : List String} {x y : Bytes}
    (htable : table.length + args.length < 2 ^ 64) (hcount : args.length = args'.length)
    (hargs : ∀ arg ∈ args, arg.utf8ByteSize < 2 ^ 64)
    (hargs' : ∀ arg ∈ args', arg.utf8ByteSize < 2 ^ 64)
    (h : putArgs table args ++ x = putArgs table args' ++ y) : args = args' ∧ x = y := by
  induction args generalizing table args' with
  | nil =>
    obtain rfl : args' = [] := by simpa [eq_comm] using hcount
    exact ⟨rfl, h⟩
  | cons arg args ih =>
    cases args' with
    | nil => cases hcount
    | cons arg' args' =>
      have hlength : args.length = args'.length := by simpa using hcount
      have hsize : table.length + 1 + args.length < 2 ^ 64 := by
        simpa [Nat.add_assoc, Nat.add_comm 1] using htable
      have harg : arg.utf8ByteSize < 2 ^ 64 := hargs arg (by simp)
      have harg' : arg'.utf8ByteSize < 2 ^ 64 := hargs' arg' (by simp)
      have hrest : ∀ arg ∈ args, arg.utf8ByteSize < 2 ^ 64 := fun a ha => hargs a (by simp [ha])
      have hrest' : ∀ arg ∈ args', arg.utf8ByteSize < 2 ^ 64 := fun a ha => hargs' a (by simp [ha])
      simp only [putArgs] at h
      cases hindex : table.idxOf? arg with
      | none =>
        cases hindex' : table.idxOf? arg' with
        | none =>
          simp only [hindex, hindex', List.cons_append, List.append_assoc, List.cons.injEq,
            true_and] at h
          obtain ⟨hsame, hwords⟩ := (getText_put harg).unique (getText_put harg') h
          subst hsame
          obtain ⟨rfl, hxy⟩ := ih (table ++ [arg]) (by simpa using hsize) hlength hrest hrest' hwords
          exact ⟨rfl, hxy⟩
        | some index' => simp [hindex, hindex'] at h
      | some index =>
        cases hindex' : table.idxOf? arg' with
        | none => simp [hindex, hindex'] at h
        | some index' =>
          simp only [hindex, hindex', List.cons_append, List.append_assoc, List.cons.injEq,
            true_and] at h
          obtain ⟨hword, hwords⟩ := (getVarint_put _).unique (getVarint_put _) h
          have hfound := getElem?_of_idxOf? hindex
          have hfound' := getElem?_of_idxOf? hindex'
          have hlt := (List.getElem?_eq_some_iff.mp hfound).1
          have hlt' := (List.getElem?_eq_some_iff.mp hfound').1
          have hsame : index = index' := by
            have hnat := congrArg UInt64.toNat hword
            rwa [UInt64.toNat_ofNat_of_lt' (show index < 2 ^ 64 by omega),
              UInt64.toNat_ofNat_of_lt' (show index' < 2 ^ 64 by omega)] at hnat
          have hsame : arg = arg' := by
            rw [hsame, hfound'] at hfound
            exact (Option.some.inj hfound).symm
          subst hsame
          obtain ⟨rfl, hxy⟩ := ih table (by omega) hlength hrest hrest' hwords
          exact ⟨rfl, hxy⟩

/-- Different keys have different symbols. -/
theorem mangleStableSymbol_injective {key key' : StableSymbolKey} (hkey : key.Within (2 ^ 64))
    (hkey' : key'.Within (2 ^ 64)) (h : mangleStableSymbol key = mangleStableSymbol key') :
    key = key' := by
  have htext := congrArg decodeBase64url (List.cons.inj (List.cons.inj (String.ofList_inj.mp h)).2).2
  simp only [decodeBase64url_encode, Option.some.injEq, List.cons.injEq, true_and] at htext
  obtain ⟨hheader, hwords⟩ := (getHeader_put hkey).unique (getHeader_put hkey') htext
  have hcount : key.genericArgs.length = key'.genericArgs.length := by
    have hnat := congrArg (fun header => header.argCount.toNat) hheader
    simp only [StableSymbolKey.header] at hnat
    rwa [UInt64.toNat_ofNat_of_lt' hkey.count, UInt64.toNat_ofNat_of_lt' hkey'.count] at hnat
  have hargs := putArgs_unique [] (x := []) (y := []) (by simpa using hkey.count) hcount hkey.args
    hkey'.args (by simpa using hwords)
  simp only [StableSymbolKey.header, SymbolHeader.mk.injEq] at hheader
  obtain ⟨hmodule, hdefinition, hkind, hpackage, hname, -⟩ := hheader
  cases key
  cases key'
  simp_all

/-! ### Closure entries -/

def closureOrdinalArg (ordinal : UInt32) : String := "closure:ord:" ++ toString ordinal.toNat

/-- `mangle_closure_entry_symbol`: the entry of the closure numbered `ordinal` in the owner. -/
def mangleClosureEntrySymbol (ownerSymbol : String) (ordinal : UInt32) : Option String := do
  let owner ← demangleStableSymbol ownerSymbol
  some (mangleStableSymbol
    { package := owner.package
      module := owner.module
      definition := owner.definition
      name := owner.name
      kind := .closureEntry
      genericArgs := owner.genericArgs ++ [closureOrdinalArg ordinal] })

/-- The key of the entry of closure `ordinal`, as the owner's symbol is read. -/
def StableSymbolKey.closureEntry (owner : StableSymbolKey) (ordinal : UInt32) : StableSymbolKey :=
  {owner with
    kind := .closureEntry
    genericArgs := readBack owner.genericArgs ++ [closureOrdinalArg ordinal]}

theorem mangleClosureEntrySymbol_mangle {owner : StableSymbolKey} (h : owner.Within (2 ^ 64))
    (ordinal : UInt32) :
    mangleClosureEntrySymbol (mangleStableSymbol owner) ordinal =
      some (mangleStableSymbol (owner.closureEntry ordinal)) := by
  rw [mangleClosureEntrySymbol, demangle_mangle h]
  rfl

theorem utf8Len_le (chars : List Char) : String.utf8Len chars ≤ 4 * chars.length := by
  induction chars with
  | nil => simp
  | cons c chars ih =>
    have := c.utf8Size_le_four
    simp only [String.utf8Len_cons, List.length_cons]
    omega

theorem utf8ByteSize_closureOrdinalArg (ordinal : UInt32) :
    (closureOrdinalArg ordinal).utf8ByteSize < 2 ^ 63 := by
  have hdigits : (Nat.toDigits 10 ordinal.toNat).length ≤ 10 :=
    (Nat.length_toDigits_le_iff (by decide) (by decide)).mpr (by have := ordinal.toNat_lt; omega)
  have hlabel : ("closure:ord:" : String).utf8ByteSize = 12 := rfl
  have hlen := utf8Len_le (Nat.toDigits 10 ordinal.toNat)
  rw [closureOrdinalArg, String.utf8ByteSize_append, hlabel]
  show 12 + (Nat.repr ordinal.toNat).utf8ByteSize < _
  rw [Nat.repr_eq_ofList_toDigits, String.utf8ByteSize_ofList]
  omega

theorem closureEntry_within (owner : AllocatedKey) (ordinal : UInt32) :
    (owner.val.closureEntry ordinal).Within (2 ^ 64) where
  definition := owner.within.definition
  package := owner.within.package
  name := owner.within.name
  args := by
    intro arg harg
    rcases List.mem_append.mp harg with harg | harg
    · have hmem : arg ∈ owner.val.genericArgs := by simpa using mem_readBackFrom harg
      exact owner.within.args arg hmem
    · obtain rfl : arg = closureOrdinalArg ordinal := by simpa using harg
      exact (utf8ByteSize_closureOrdinalArg ordinal).trans (by decide)
  count := by
    have hcount := owner.property.count
    simp only [StableSymbolKey.closureEntry, List.length_append, List.length_singleton]
    rw [readBack, length_readBackFrom]
    omega

theorem closureOrdinalArg_injective {m n : UInt32} (h : closureOrdinalArg m = closureOrdinalArg n) :
    m = n := by
  have hrepr : Nat.repr m.toNat = Nat.repr n.toNat := (String.append_right_inj _).mp h
  exact UInt32.toNat_inj.mp (Nat.repr_injective hrepr)

/-- Two owners whose closures of one ordinal have one symbol: they agree in everything the
decoder returns except the kind, which a closure entry does not keep. -/
structure StableSymbolKey.SharesClosures (first second : StableSymbolKey) : Prop where
  package : first.package = second.package
  module : first.module = second.module
  definition : first.definition = second.definition
  name : first.name = second.name
  genericArgs : readBack first.genericArgs = readBack second.genericArgs

theorem closureEntry_eq_iff {first second : StableSymbolKey} {m n : UInt32} :
    first.closureEntry m = second.closureEntry n ↔ first.SharesClosures second ∧ m = n := by
  constructor
  · intro h
    simp only [StableSymbolKey.closureEntry, StableSymbolKey.mk.injEq, true_and] at h
    obtain ⟨hpackage, hmodule, hdefinition, hname, hargs⟩ := h
    obtain ⟨hread, hordinal⟩ := List.append_inj' hargs rfl
    exact ⟨⟨hpackage, hmodule, hdefinition, hname, hread⟩,
      closureOrdinalArg_injective (List.cons.inj hordinal).1⟩
  · rintro ⟨hshares, rfl⟩
    simp only [StableSymbolKey.closureEntry, hshares.package, hshares.module, hshares.definition,
      hshares.name, hshares.genericArgs]

/-- **Equal closure entry symbols come from one owner key and one ordinal exactly when the owners
are not two different keys that agree in package, module, definition, name and arguments as the
decoder reads them.** -/
theorem closure_entry_unique_iff (first second : AllocatedKey) (m n : UInt32) :
    (mangleClosureEntrySymbol (mangleStableSymbol first.val) m =
        mangleClosureEntrySymbol (mangleStableSymbol second.val) n →
      first.val = second.val ∧ m = n) ↔
    (m = n → first.val.SharesClosures second.val → first.val = second.val) := by
  have hsymbol : mangleClosureEntrySymbol (mangleStableSymbol first.val) m =
        mangleClosureEntrySymbol (mangleStableSymbol second.val) n ↔
      first.val.SharesClosures second.val ∧ m = n := by
    rw [mangleClosureEntrySymbol_mangle first.within, mangleClosureEntrySymbol_mangle second.within,
      Option.some.injEq, ← closureEntry_eq_iff]
    exact ⟨mangleStableSymbol_injective (closureEntry_within _ _) (closureEntry_within _ _),
      congrArg mangleStableSymbol⟩
  rw [hsymbol]
  constructor
  · intro hunique hordinal hshares
    exact (hunique ⟨hshares, hordinal⟩).1
  · rintro hsame ⟨hshares, hordinal⟩
    exact ⟨hsame hordinal hshares, hordinal⟩

/-- Two instances of one generic function share the symbols of their closures: the owner at
`A, A, B, B` is read as the owner at `A, A, B, A`. -/
theorem closure_entries_collide :
    mangleClosureEntrySymbol (mangleStableSymbol twoRepeatedArgs) 0 =
        mangleClosureEntrySymbol
          (mangleStableSymbol {twoRepeatedArgs with genericArgs := ["A", "A", "B", "A"]}) 0 ∧
      twoRepeatedArgs ≠ {twoRepeatedArgs with genericArgs := ["A", "A", "B", "A"]} := by
  constructor
  · rw [mangleClosureEntrySymbol_mangle (by constructor <;> decide),
      mangleClosureEntrySymbol_mangle (by constructor <;> decide)]
    rfl
  · decide

end Nia.Mangle
