import Nia.Codegen.FingerprintTable
import Nia.Mangle.Symbol

/-! The byte stream of a function body.

The fingerprint of a codegen unit hashes the bytes that the encoder writes of
each body. Tags and discriminants are one byte, numbers eight, strings stand
behind their length and a module is written by its package and path. Two kinds
of expression have one tag, so a caller location can read as the tag of a variant;
and the text that stands for a module without an entry can read as a package.
Where the first difference of two bodies is no such clash, no stream continues
the other unless the bodies are written alike (`stream_prefix_iff`): they differ
only in names of field initialisers, in const expressions with one label, in
modules with one package and path. `stream_prefix_collides` is a body whose stream
another one continues. -/
namespace Nia.Codegen.Fingerprint
open Nia.Lib.Encoding Nia.Ty Nia.Mangle List

/-! ### Writing -/

/-- The low bytes of a number, the lowest first. -/
def leBytes : Nat → Nat → List UInt8
  | 0, _ => []
  | count + 1, n => UInt8.ofNat n :: leBytes count (n / 256)

def writeU64 (value : UInt64) : List UInt8 := leBytes 8 value.toNat

/-- `write_bytes`: a length that is no `u64` is written as the largest one. -/
def writeBytes (bytes : List UInt8) : List UInt8 :=
  writeU64 (UInt64.ofNat (min bytes.length (2 ^ 64 - 1))) ++ bytes

def writeStr (text : String) : List UInt8 := writeBytes (asBytes text)

def writeU32 (value : UInt32) : List UInt8 := writeU64 value.toUInt64

def writeU128 (value : BitVec 128) : List UInt8 :=
  writeU64 (UInt64.ofNat value.toNat) ++ writeU64 (UInt64.ofNat (value.toNat / 2 ^ 64))

def writeBool (value : Bool) : List UInt8 := [if value then 1 else 0]

def writeOptional {α : Type} (write : α → List UInt8) : Option α → List UInt8
  | some value => 1 :: write value
  | none => [0]

/-- What a module is known by. -/
structure ModuleIdentity where
  symbolPackageIdentity : Text
  normalizedPath : Text

/-- What the encoder asks of the program index. -/
structure ProgramIndex (M : Type) where
  module : M → Option ModuleIdentity
  localIndex : M → UInt32

variable {M : Type} (index : ProgramIndex M)

/-- The text that stands for a module without an entry. -/
def ProgramIndex.missingModule (moduleId : M) : String :=
  "<missing-module-" ++ toString (index.localIndex moduleId).toNat ++ ">"

def writeModuleId (moduleId : M) : List UInt8 :=
  match index.module moduleId with
  | some module => writeStr module.symbolPackageIdentity.val ++ writeStr module.normalizedPath.val
  | none => writeStr (index.missingModule moduleId)

def writeGlobalDef (defId : GlobalDefId M) : List UInt8 :=
  writeModuleId index defId.moduleId ++ writeU64 defId.defId

def writeGlobalConstExpr (expr : GlobalConstExprId M) : List UInt8 :=
  writeModuleId index expr.moduleId ++ writeStr expr.constExprId.val.stableLabel

def writeTypeLayout (layout : TypeLayout) : List UInt8 := writeU64 layout.size ++ writeU64 layout.align

def writeLeaf : {s : Leaf} → Value M s → List UInt8
  | .discriminant, value => [value]
  | .bool, value => writeBool value
  | .u32, value => writeU32 value
  | .u64, value => writeU64 value
  | .intConst, value => writeU128 value.bits ++ writeBool value.signed
  | .text, value => writeStr value.val
  | .bytes, value => writeBytes value.val
  | .moduleId, value => writeModuleId index value
  | .globalDef, value => writeGlobalDef index value
  | .globalConstExpr, value => writeGlobalConstExpr index value
  | .optionalU32, value => writeOptional writeU32 value
  | .optionalByte, value => writeOptional (fun byte => [byte]) value
  | .optionalGlobalDef, value => writeOptional (writeGlobalDef index) value
  | .optionalTypeLayout, value => writeOptional writeTypeLayout value

def coding : Coding (irSignature M) UInt8 where
  header := header
  leaf := writeLeaf index
  flag := writeBool
  count := writeU64

/-- What `Encoder::function_body` feeds to the hash. -/
def stream (body : FunctionBody M) : List UInt8 := body.encode (coding index)

/-! ### Data is read off the stream -/

theorem length_leBytes (count n : Nat) : (leBytes count n).length = count := by
  induction count generalizing n with
  | zero => rfl
  | succ count ih => rw [leBytes, length_cons, ih]

theorem leBytes_injective {count m n : Nat} (hm : m < 256 ^ count) (hn : n < 256 ^ count)
    (h : leBytes count m = leBytes count n) : m = n := by
  induction count generalizing m n with
  | zero => omega
  | succ count ih =>
    obtain ⟨hlow, hhigh⟩ := List.cons.inj h
    have hquot := ih (by omega) (by omega) hhigh
    have hmod : m % 256 = n % 256 := by simpa using congrArg UInt8.toNat hlow
    omega

theorem u64_cancel (m n : UInt64) : Cancels writeU64 m n := by
  intro X Y h
  obtain ⟨hbytes, hrest⟩ := append_inj h (by rw [writeU64, writeU64, length_leBytes, length_leBytes])
  have hm := m.toNat_lt
  have hn := n.toNat_lt
  exact ⟨UInt64.toNat_inj.mp (leBytes_injective (by omega) (by omega) hbytes), hrest⟩

theorem bytes_cancel {v w X Y : List UInt8} (hv : v.length < 2 ^ 64) (hw : w.length < 2 ^ 64)
    (h : writeBytes v ++ X = writeBytes w ++ Y) : v = w ∧ X = Y := by
  simp only [writeBytes, append_assoc] at h
  obtain ⟨hlength, hrest⟩ := u64_cancel _ _ _ _ h
  have hlengths := congrArg UInt64.toNat hlength
  simp only [UInt64.toNat_ofNat'] at hlengths
  exact append_inj hrest (by omega)

theorem str_cancel {v w : String} {X Y : List UInt8} (hv : v.utf8ByteSize < 2 ^ 64)
    (hw : w.utf8ByteSize < 2 ^ 64) (h : writeStr v ++ X = writeStr w ++ Y) : v = w ∧ X = Y := by
  obtain ⟨hbytes, hrest⟩ : asBytes v = asBytes w ∧ X = Y := bytes_cancel hv hw h
  have htext := congrArg fromUtf8 hbytes
  rw [fromUtf8_asBytes, fromUtf8_asBytes] at htext
  exact ⟨Option.some.inj htext, hrest⟩

theorem u32_cancel (m n : UInt32) : Cancels writeU32 m n := by
  intro X Y h
  obtain ⟨hvalue, hrest⟩ := u64_cancel _ _ _ _ h
  exact ⟨UInt32.toUInt64_inj.mp hvalue, hrest⟩

theorem bool_cancel (a b : Bool) : Cancels writeBool a b := by
  intro X Y h
  obtain ⟨hbyte, hrest⟩ := List.cons.inj h
  cases a <;> cases b <;> first | exact ⟨rfl, hrest⟩ | exact absurd hbyte (by decide)

theorem optional_cancel {α : Type} {write : α → List UInt8} (hwrite : ∀ a b, Cancels write a b)
    (a b : Option α) : Cancels (writeOptional write) a b := by
  intro X Y h
  match a, b with
  | none, none => exact ⟨rfl, (List.cons.inj h).2⟩
  | none, some b => exact absurd (List.cons.inj h).1 (by decide)
  | some a, none => exact absurd (List.cons.inj h).1 (by decide)
  | some a, some b =>
    obtain ⟨rfl, hrest⟩ := hwrite a b _ _ (List.cons.inj h).2
    exact ⟨rfl, hrest⟩

theorem int_cancel {v w : IntConst} {X Y : List UInt8}
    (h : (writeU128 v.bits ++ writeBool v.signed) ++ X = (writeU128 w.bits ++ writeBool w.signed) ++ Y) :
    v = w ∧ X = Y := by
  simp only [writeU128, append_assoc] at h
  obtain ⟨hlow, hafter⟩ := u64_cancel _ _ _ _ h
  obtain ⟨hhigh, hafter⟩ := u64_cancel _ _ _ _ hafter
  obtain ⟨hsigned, hrest⟩ := bool_cancel _ _ _ _ hafter
  have hv := v.bits.isLt
  have hw := w.bits.isLt
  have hlow := congrArg UInt64.toNat hlow
  have hhigh := congrArg UInt64.toNat hhigh
  simp only [UInt64.toNat_ofNat'] at hlow hhigh
  have hbits : v.bits = w.bits := BitVec.eq_of_toNat_eq (by omega)
  obtain ⟨bits, signed⟩ := v
  obtain ⟨bits', signed'⟩ := w
  obtain rfl : bits = bits' := hbits
  obtain rfl : signed = signed' := hsigned
  exact ⟨rfl, hrest⟩

theorem layout_cancel (v w : TypeLayout) : Cancels writeTypeLayout v w := by
  intro X Y h
  simp only [writeTypeLayout, append_assoc] at h
  obtain ⟨hsize, hafter⟩ := u64_cancel _ _ _ _ h
  obtain ⟨halign, hrest⟩ := u64_cancel _ _ _ _ hafter
  obtain ⟨size, align⟩ := v
  obtain ⟨size', align'⟩ := w
  obtain rfl : size = size' := hsize
  obtain rfl : align = align' := halign
  exact ⟨rfl, hrest⟩

/-! ### What the stream does not tell apart -/

/-- Modules that are written alike. -/
inductive ProgramIndex.Alike : M → M → Prop
  | present {m n : M} (module : ModuleIdentity) : index.module m = some module →
      index.module n = some module → Alike m n
  | missing {m n : M} : index.module m = none → index.module n = none →
      index.localIndex m = index.localIndex n → Alike m n

/-- The first module has no entry, and the text for it is the package of the second. -/
structure ProgramIndex.Mistaken (m n : M) : Prop where
  missing : index.module m = none
  package : ∃ module, index.module n = some module ∧ module.symbolPackageIdentity.val = index.missingModule m

/-- One module of the two can be taken for the package of the other. -/
def ProgramIndex.Clash (m n : M) : Prop := index.Mistaken m n ∨ index.Mistaken n m

def DefAlike (a b : GlobalDefId M) : Prop := index.Alike a.moduleId b.moduleId ∧ a.defId = b.defId

/-- Data that is written alike; a const expression is written by its label. -/
def LeafAlike : {s : Leaf} → Value M s → Value M s → Prop
  | .moduleId, v, w => index.Alike v w
  | .globalDef, v, w => DefAlike index v w
  | .globalConstExpr, v, w => index.Alike v.moduleId w.moduleId ∧
      v.constExprId.val.stableLabel = w.constExprId.val.stableLabel
  | .optionalGlobalDef, v, w => Option.Rel (DefAlike index) v w
  | .discriminant, v, w | .bool, v, w | .u32, v, w | .u64, v, w | .intConst, v, w | .text, v, w
  | .bytes, v, w | .optionalU32, v, w | .optionalByte, v, w | .optionalTypeLayout, v, w => v = w

/-- Data that names modules of which one can be taken for the package of the other. -/
def LeafClash : {s : Leaf} → Value M s → Value M s → Prop
  | .moduleId, v, w => index.Clash v w
  | .globalDef, v, w | .globalConstExpr, v, w => index.Clash v.moduleId w.moduleId
  | .optionalGlobalDef, v, w => ∃ a b, v = some a ∧ w = some b ∧ index.Clash a.moduleId b.moduleId
  | _, _, _ => False

/-- The value of a caller's position. -/
def callerLocation (file : Text) (line column : UInt32) : Tree (irSignature M) Cat.exprKind :=
  .node ExprKind.callerLocation
    (.leaf file (.leaf line (.leaf column .nil)))

def enumVariantTag (defId : GlobalDefId M) : Tree (irSignature M) Cat.exprKind :=
  .node ExprKind.enumVariantTag (.leaf defId .nil)

/-- The location is written like the tag: the module of the variant has an empty path, which reads
as the line 0, and the number of the variant is the column. -/
structure Spells (file : Text) (line column : UInt32) (defId : GlobalDefId M) : Prop where
  module : index.module defId.moduleId = some ⟨file, ⟨"", by decide⟩⟩
  line : line = 0
  column : column.toUInt64 = defId.defId

/-- The location can be taken for the beginning of the tag, or the tag for that of the location. -/
inductive Confuses (file : Text) (line column : UInt32) (defId : GlobalDefId M) : Prop
  /-- The line is the length of the path, and the bytes of the column are those that follow. -/
  | path (path : Text) : index.module defId.moduleId = some ⟨file, path⟩ → path.val ≠ "" →
      (asBytes path.val).length = line.toNat →
      leBytes 8 column.toNat = (asBytes path.val ++ leBytes 8 defId.defId.toNat).take 8 →
      Confuses file line column defId
  /-- The module has no entry, and the line is the number of the variant. -/
  | missing : index.module defId.moduleId = none → file.val = index.missingModule defId.moduleId →
      line.toUInt64 = defId.defId → Confuses file line column defId

/-- A caller location and a variant's tag, in either order. -/
inductive OnePair (P : Text → UInt32 → UInt32 → GlobalDefId M → Prop) :
    {c : Cat} → Tree (irSignature M) c → Tree (irSignature M) c → Prop
  | location {file : Text} {line column : UInt32} {defId : GlobalDefId M} : P file line column defId →
      OnePair P (callerLocation file line column) (enumVariantTag defId)
  | variant {file : Text} {line column : UInt32} {defId : GlobalDefId M} : P file line column defId →
      OnePair P (enumVariantTag defId) (callerLocation file line column)

def comparison : Comparison (irSignature M) where
  leaf := LeafAlike index
  leafClash := LeafClash index
  node := OnePair (Spells index)
  nodeClash := OnePair (Confuses index)

/-! ### Modules -/

theorem ProgramIndex.missingModule_fits (m : M) : (index.missingModule m).utf8ByteSize < 2 ^ 64 := by
  have hdigits : (Nat.toDigits 10 (index.localIndex m).toNat).length ≤ 10 :=
    (Nat.length_toDigits_le_iff (by decide) (by decide)).mpr (by have := (index.localIndex m).toNat_lt; omega)
  have hlen := utf8Len_le (Nat.toDigits 10 (index.localIndex m).toNat)
  have hopen : ("<missing-module-" : String).utf8ByteSize = 16 := rfl
  have hclose : (">" : String).utf8ByteSize = 1 := rfl
  rw [missingModule, String.utf8ByteSize_append, String.utf8ByteSize_append, hopen, hclose]
  show 16 + (Nat.repr (index.localIndex m).toNat).utf8ByteSize + 1 < _
  rw [Nat.repr_eq_ofList_toDigits, String.utf8ByteSize_ofList]
  omega

theorem ProgramIndex.missingModule_inj {m n : M} (h : index.missingModule m = index.missingModule n) :
    index.localIndex m = index.localIndex n := by
  have hrepr := (String.append_right_inj _).mp ((String.append_left_inj _).mp h)
  exact UInt32.toNat_inj.mp (Nat.repr_injective hrepr)

theorem module_cancel {m n : M} {X Y : List UInt8} (h : writeModuleId index m ++ X = writeModuleId index n ++ Y) :
    (index.Alike m n ∧ X = Y) ∨ index.Clash m n := by
  cases hm : index.module m with
  | none =>
    cases hn : index.module n with
    | none =>
      simp only [writeModuleId, hm, hn] at h
      obtain ⟨htext, hrest⟩ := str_cancel (index.missingModule_fits m) (index.missingModule_fits n) h
      exact .inl ⟨.missing hm hn (index.missingModule_inj htext), hrest⟩
    | some module =>
      simp only [writeModuleId, hm, hn, append_assoc] at h
      obtain ⟨htext, -⟩ := str_cancel (index.missingModule_fits m) module.symbolPackageIdentity.property h
      exact .inr (.inl ⟨hm, module, hn, htext.symm⟩)
  | some module =>
    cases hn : index.module n with
    | none =>
      simp only [writeModuleId, hm, hn, append_assoc] at h
      obtain ⟨htext, -⟩ := str_cancel module.symbolPackageIdentity.property (index.missingModule_fits n) h
      exact .inr (.inr ⟨hn, module, hm, htext⟩)
    | some module' =>
      simp only [writeModuleId, hm, hn, append_assoc] at h
      obtain ⟨hpackage, hafter⟩ := str_cancel module.symbolPackageIdentity.property
        module'.symbolPackageIdentity.property h
      obtain ⟨hpath, hrest⟩ := str_cancel module.normalizedPath.property module'.normalizedPath.property hafter
      obtain ⟨package, path⟩ := module
      obtain ⟨package', path'⟩ := module'
      obtain rfl : package = package' := Subtype.ext hpackage
      obtain rfl : path = path' := Subtype.ext hpath
      exact .inl ⟨.present _ hm hn, hrest⟩

theorem ProgramIndex.Alike.write {m n : M} (h : index.Alike m n) : writeModuleId index m = writeModuleId index n := by
  cases h with
  | present module hm hn => simp only [writeModuleId, hm, hn]
  | missing hm hn hlocal => simp only [writeModuleId, hm, hn, missingModule, hlocal]

theorem globalDef_cancel {a b : GlobalDefId M} {X Y : List UInt8}
    (h : writeGlobalDef index a ++ X = writeGlobalDef index b ++ Y) :
    (DefAlike index a b ∧ X = Y) ∨ index.Clash a.moduleId b.moduleId := by
  simp only [writeGlobalDef, append_assoc] at h
  refine (module_cancel index h).imp_left fun ⟨hmodule, hafter⟩ => ?_
  obtain ⟨hdef, hrest⟩ := u64_cancel _ _ _ _ hafter
  exact ⟨⟨hmodule, hdef⟩, hrest⟩

theorem DefAlike.write {a b : GlobalDefId M} (h : DefAlike index a b) :
    writeGlobalDef index a = writeGlobalDef index b := by
  rw [writeGlobalDef, writeGlobalDef, h.1.write, h.2]

theorem constExpr_cancel {a b : GlobalConstExprId M} {X Y : List UInt8}
    (h : writeGlobalConstExpr index a ++ X = writeGlobalConstExpr index b ++ Y) :
    (LeafAlike index (s := .globalConstExpr) a b ∧ X = Y) ∨ index.Clash a.moduleId b.moduleId := by
  simp only [writeGlobalConstExpr, append_assoc] at h
  refine (module_cancel index h).imp_left fun ⟨hmodule, hafter⟩ => ?_
  obtain ⟨hlabel, hrest⟩ := str_cancel a.constExprId.property b.constExprId.property hafter
  exact ⟨⟨hmodule, hlabel⟩, hrest⟩

theorem optionalGlobalDef_cancel {a b : Option (GlobalDefId M)} {X Y : List UInt8}
    (h : writeOptional (writeGlobalDef index) a ++ X = writeOptional (writeGlobalDef index) b ++ Y) :
    (Option.Rel (DefAlike index) a b ∧ X = Y) ∨ LeafClash index (s := .optionalGlobalDef) a b := by
  match a, b with
  | none, none => exact .inl ⟨.none, (List.cons.inj h).2⟩
  | none, some b => exact absurd (List.cons.inj h).1 (by decide)
  | some a, none => exact absurd (List.cons.inj h).1 (by decide)
  | some a, some b =>
    rcases globalDef_cancel index (List.cons.inj h).2 with ⟨halike, hrest⟩ | hclash
    · exact .inl ⟨.some halike, hrest⟩
    · exact .inr ⟨a, b, rfl, rfl, hclash⟩

theorem leaf_cancel {s : Leaf} (v w : Value M s) {X Y : List UInt8}
    (h : writeLeaf index v ++ X = writeLeaf index w ++ Y) :
    (LeafAlike index v w ∧ X = Y) ∨ LeafClash index v w := by
  cases s with
  | discriminant => exact .inl (List.cons.inj h)
  | bool => exact .inl (bool_cancel v w X Y h)
  | u32 => exact .inl (u32_cancel v w X Y h)
  | u64 => exact .inl (u64_cancel v w X Y h)
  | intConst => exact .inl (int_cancel h)
  | text => exact .inl ((str_cancel v.property w.property h).imp_left Subtype.ext)
  | bytes => exact .inl ((bytes_cancel v.property w.property h).imp_left Subtype.ext)
  | moduleId => exact module_cancel index h
  | globalDef => exact globalDef_cancel index h
  | globalConstExpr => exact constExpr_cancel index h
  | optionalU32 => exact .inl (optional_cancel u32_cancel v w X Y h)
  | optionalByte => exact .inl (optional_cancel (fun a b X Y h => List.cons.inj h) v w X Y h)
  | optionalGlobalDef => exact optionalGlobalDef_cancel index h
  | optionalTypeLayout => exact .inl (optional_cancel layout_cancel v w X Y h)

theorem LeafAlike.write {s : Leaf} {v w : Value M s} (h : LeafAlike index v w) :
    writeLeaf index v = writeLeaf index w := by
  cases s with
  | moduleId => exact ProgramIndex.Alike.write index h
  | globalDef => exact DefAlike.write index h
  | globalConstExpr =>
    show writeModuleId index v.moduleId ++ _ = writeModuleId index w.moduleId ++ _
    rw [ProgramIndex.Alike.write index h.1, h.2]
  | optionalGlobalDef =>
    cases h with
    | none => rfl
    | some hdef => exact congrArg (1 :: ·) (DefAlike.write index hdef)
  | _ => exact congrArg (writeLeaf index) h

/-! ### Tags -/

/-- The one tag that two kinds of expression share. -/
theorem exprKindTag_eq {k k' : ExprKind} (h : exprKindTag k = exprKindTag k') :
    k = k' ∨ (k = .callerLocation ∧ k' = .enumVariantTag) ∨
      (k = .enumVariantTag ∧ k' = .callerLocation) := by
  have hall : ∀ i < 63, ∀ j < 63, exprKindTag (.ofNat i) = exprKindTag (.ofNat j) →
      ExprKind.ofNat i = .ofNat j ∨
        (ExprKind.ofNat i = .callerLocation ∧ ExprKind.ofNat j = .enumVariantTag) ∨
        (ExprKind.ofNat i = .enumVariantTag ∧ ExprKind.ofNat j = .callerLocation) := by decide +kernel
  have hbound : ∀ k : ExprKind, k.ctorIdx < 63 := by
    intro k
    cases k <;> decide
  have hpair := hall _ (hbound k) _ (hbound k')
  rw [ExprKind.ofNat_ctorIdx, ExprKind.ofNat_ctorIdx] at hpair
  exact hpair h

theorem tyFormTag_injective {a b : TyForm} (h : tyFormTag a = tyFormTag b) : a = b := by
  have hall : ∀ i < 28, ∀ j < 28, tyFormTag (.ofNat i) = tyFormTag (.ofNat j) →
      TyForm.ofNat i = .ofNat j := by decide +kernel
  have hbound : ∀ a : TyForm, a.ctorIdx < 28 := by
    intro a
    cases a <;> decide
  have hpair := hall _ (hbound a) _ (hbound b)
  rw [TyForm.ofNat_ctorIdx, TyForm.ofNat_ctorIdx] at hpair
  exact hpair h

/-- Outside the expressions no tag is used twice. -/
theorem header_injective {c : Cat} (hexpr : c ≠ .exprKind) {k k' : Kind c} (h : header k = header k') :
    k = k' := by
  cases c with
  | exprKind => exact absurd rfl hexpr
  | tyKind => exact tyFormTag_injective (List.cons.inj h).1
  | _ => cases k <;> cases k' <;> first | rfl | exact nomatch h

variable {file : Text} {line column : UInt32} {defId : GlobalDefId M}

/-- Where a caller location meets the tag of a variant. -/
theorem location_cancel {X Y : List UInt8}
    (h : writeStr file.val ++ (writeU32 line ++ (writeU32 column ++ X)) = writeGlobalDef index defId ++ Y) :
    (Spells index file line column defId ∧ X = Y) ∨ Confuses index file line column defId := by
  cases hmodule : index.module defId.moduleId with
  | none =>
    simp only [writeGlobalDef, writeModuleId, hmodule, append_assoc] at h
    obtain ⟨hfile, hafter⟩ := str_cancel file.property (index.missingModule_fits _) h
    exact .inr (.missing hmodule hfile (u64_cancel _ _ _ _ hafter).1)
  | some module =>
    obtain ⟨package, path⟩ := module
    simp only [writeGlobalDef, writeModuleId, hmodule, append_assoc] at h
    obtain ⟨hfile, hafter⟩ := str_cancel file.property package.property h
    obtain rfl : file = package := Subtype.ext hfile
    simp only [writeStr, writeBytes, append_assoc] at hafter
    obtain ⟨hline, hrest⟩ := u64_cancel _ _ _ _ hafter
    have hlength : (asBytes path.val).length = line.toNat := by
      have hfits : (asBytes path.val).length < 2 ^ 64 := path.property
      have hnat := congrArg UInt64.toNat hline
      simp only [UInt32.toNat_toUInt64, UInt64.toNat_ofNat'] at hnat
      omega
    by_cases hpath : path.val = ""
    · obtain rfl : path = ⟨"", by decide⟩ := Subtype.ext hpath
      obtain ⟨hcolumn, hend⟩ := u64_cancel _ _ _ _ hrest
      exact .inl ⟨⟨hmodule, UInt32.toNat_inj.mp hlength.symm, hcolumn⟩, hend⟩
    · refine .inr (.path path hmodule hpath hlength ?_)
      -- the first eight bytes of both sides
      have htake := congrArg (List.take 8) hrest
      rw [writeU32, writeU64, UInt32.toNat_toUInt64, take_left' (length_leBytes 8 _), ← append_assoc,
        take_append_of_le_length (by rw [length_append, writeU64, length_leBytes]; omega)] at htake
      exact htake

theorem length_header {c : Cat} (k k' : Kind c) : (header k).length = (header k').length := by
  cases c <;> rfl

theorem node_cancel {c : Cat} (t u : Tree (irSignature M) c) {X Y : List UInt8} (hne : t.kind ≠ u.kind)
    (h : t.encode (coding index) ++ X = u.encode (coding index) ++ Y) :
    (OnePair (Spells index) t u ∧ X = Y) ∨ OnePair (Confuses index) t u := by
  obtain ⟨k, a⟩ := t
  obtain ⟨k', b⟩ := u
  simp only [Nia.Lib.Encoding.Tree.encode, append_assoc] at h
  obtain ⟨htag, hargs⟩ := append_inj h (length_header k k')
  by_cases hexpr : c = .exprKind
  · subst hexpr
    rcases exprKindTag_eq (List.cons.inj htag).1 with heq | ⟨rfl, rfl⟩ | ⟨rfl, rfl⟩
    · exact absurd heq hne
    · match a, b, hargs with
      | .leaf file (.leaf line (.leaf column .nil)), .leaf defId .nil, hargs =>
        simp only [Args.encode, append_assoc, nil_append] at hargs
        rcases location_cancel index hargs with ⟨hspells, hrest⟩ | hconfuses
        · exact .inl ⟨.location hspells, hrest⟩
        · exact .inr (.location hconfuses)
    · match a, b, hargs with
      | .leaf defId .nil, .leaf file (.leaf line (.leaf column .nil)), hargs =>
        simp only [Args.encode, append_assoc, nil_append] at hargs
        rcases location_cancel index hargs.symm with ⟨hspells, hrest⟩ | hconfuses
        · exact .inl ⟨.variant hspells, hrest.symm⟩
        · exact .inr (.variant hconfuses)
  · exact absurd (header_injective hexpr htag) hne

theorem Spells.encode (h : Spells index file line column defId) :
    (callerLocation file line column).encode (coding index) = (enumVariantTag defId).encode (coding index) := by
  show exprKindTag _ :: (writeStr file.val ++ (writeU32 line ++ (writeU32 column ++ []))) =
    exprKindTag _ :: (writeGlobalDef index defId ++ [])
  rw [writeGlobalDef, writeModuleId, h.module, h.line, ← h.column]
  simp only [append_assoc]
  rfl

theorem comparison_names : (comparison index).Names (coding index) where
  flag := bool_cancel
  count := u64_cancel
  leaf := leaf_cancel index
  node := node_cancel index

theorem comparison_sound : (comparison index).Sound (coding index) where
  leaf := LeafAlike.write index
  node h := by
    cases h with
    | location hspells => exact hspells.encode
    | variant hspells => exact hspells.encode.symm

/-! ### Bodies and streams -/

/-- The bodies are written alike. -/
def WrittenAlike (a b : FunctionBody M) : Prop := Tree.Alike (comparison index) a b

/-- The first place where the bodies are not written alike is a clash. -/
def MeetClash (a b : FunctionBody M) : Prop := Tree.Meets (comparison index) a b

/-- **A body's stream continues no other body's**, unless the two are written alike: for bodies whose
first difference is no clash. -/
theorem stream_prefix_iff (a b : FunctionBody M) (hclash : ¬ MeetClash index a b) :
    (stream index a <+: stream index b → a = b) ↔ ¬ (WrittenAlike index a b ∧ a ≠ b) := by
  constructor
  · rintro h ⟨halike, hne⟩
    have hstream : stream index a = stream index b := halike.encode (comparison_sound index)
    exact hne (h (hstream ▸ prefix_rfl))
  · intro h hprefix
    by_contra hne
    rcases Tree.alike_or_meets (comparison_names index) hprefix with halike | hmeets
    · exact h ⟨halike, hne⟩
    · exact hclash hmeets

/-! ### Small bodies -/

/-- One module `m` of the package `p`. -/
def oneModule : ProgramIndex Unit where
  module _ := some ⟨⟨"p", by decide⟩, ⟨"m", by decide⟩⟩
  localIndex _ := 0

def errorTy : Tree (irSignature Unit) Cat.ty :=
  .node () (.child (.node TyForm.error .nil) (.leaf none .nil))

def tailExpr (kind : Tree (irSignature Unit) Cat.exprKind) : Tree (irSignature Unit) Cat.expr :=
  .node () (.child errorTy (.child kind .nil))

def tailBlock (kind : Tree (irSignature Unit) Cat.exprKind) : Tree (irSignature Unit) Cat.block :=
  .node () (.leaf (0 : UInt32) (.leaf (0 : UInt32) (.list 0 .nil
    (.child (.node Terminator.tail (.present (tailExpr kind) .nil)) .nil))))

/-- A body of one block whose value is the expression. -/
def tailBody (kind : Tree (irSignature Unit) Cat.exprKind) : FunctionBody Unit :=
  .node () (.list 0 .nil (.list 0 .nil (.list 1 (.cons (tailBlock kind) .nil)
    (.leaf (0 : UInt32) (.child errorTy .nil)))))

/-- The caller location `p:1:109`. -/
def locationBody : FunctionBody Unit := tailBody (callerLocation ⟨"p", by decide⟩ 1 109)

/-- The caller location `p:2:109`. -/
def secondLineBody : FunctionBody Unit := tailBody (callerLocation ⟨"p", by decide⟩ 2 109)

/-- The tag of the first definition of the module. -/
def variantBody : FunctionBody Unit := tailBody (enumVariantTag ⟨(), 0⟩)

theorem errorTy_meets : ¬ Tree.Meets (comparison oneModule) errorTy errorTy
  | .node _ (.childRest _ (.leaf hclash)) => hclash

theorem tailBody_meets {k k' : Tree (irSignature Unit) Cat.exprKind} :
    MeetClash oneModule (tailBody k) (tailBody k') → Tree.Meets (comparison oneModule) k k'
  | .node _ (.listRest _ (.listRest _ (.listRest _ (.leafRest _ (.child h))))) => absurd h errorTy_meets
  | .node _ (.listRest _ (.listRest _ (.list (.head (.node _ (.leafRest _ (.leafRest _ (.listRest _
      (.child (.node _ (.present (.node _ (.child h))))))))))))) => absurd h errorTy_meets
  | .node _ (.listRest _ (.listRest _ (.list (.head (.node _ (.leafRest _ (.leafRest _ (.listRest _
      (.child (.node _ (.present (.node _ (.childRest _ (.child h)))))))))))))) => h

theorem tailBody_alike {k k' : Tree (irSignature Unit) Cat.exprKind} :
    WrittenAlike oneModule (tailBody k) (tailBody k') → Tree.Alike (comparison oneModule) k k'
  | .node _ (.list _ (.list _ (.list (.cons (.node _ (.leaf _ (.leaf _ (.list _
      (.child (.node _ (.present (.node _ (.child _ (.child h _))) _)) _))))) _) _))) => h

/-- The line is not the length of the path, so the tag that is used twice does no harm. -/
theorem stream_prefix_second_line :
    ¬ MeetClash oneModule secondLineBody variantBody ∧
      ¬ stream oneModule secondLineBody <+: stream oneModule variantBody := by
  have hclash : ¬ MeetClash oneModule secondLineBody variantBody := by
    intro h
    match tailBody_meets h with
    | .here (.location (.path _ hmodule _ hline _)) =>
      obtain rfl := congrArg ModuleIdentity.normalizedPath (Option.some.inj hmodule)
      exact absurd hline (by decide)
  have halike : ¬ WrittenAlike oneModule secondLineBody variantBody := by
    intro h
    match tailBody_alike h with
    | .other (.location hspells) => exact absurd hspells.line (by decide)
  refine ⟨hclash, fun hprefix => ?_⟩
  have heq := (stream_prefix_iff oneModule secondLineBody variantBody hclash).mpr (fun h => halike h.1) hprefix
  have hlength := congrArg (fun body => (stream oneModule body).length) heq
  exact absurd hlength (by decide +kernel)

/-- The path of the module reads as the position of the location. -/
theorem stream_prefix_collides :
    stream oneModule locationBody <+: stream oneModule variantBody ∧ locationBody ≠ variantBody := by
  refine ⟨⟨[0], by decide +kernel⟩, fun h => ?_⟩
  have hlength := congrArg (fun body => (stream oneModule body).length) h
  exact absurd hlength (by decide +kernel)

end Nia.Codegen.Fingerprint
