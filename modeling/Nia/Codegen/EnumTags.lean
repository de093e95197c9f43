import Nia.ConstCheck.EnumValues

/-! From checked enum values to emitted tags.

The backend keeps a variant's value as an `i128` when the recorded constant fits
one and otherwise forgets it; code generation then takes the variant's index
instead, and masks the result to the width of the backing type. A `match` and a
payload access tell variants apart by that tag only.

A declaration's tags identify its variants (`TagsIdentify`) when checking accepts
exactly the declarations whose values fit the backing type, and the tags of an
accepted one are its values, pairwise different. This fails at the top of the
128-bit ranges and for repeated values; `tagsIdentify_iff` says exactly for which
declarations it holds. -/
namespace Nia.Codegen
open Ty ConstCheck List

/-! ### Backend lowering of an enum -/

structure BackendEnumVariant where
  defId : DefId
  span : Span
  value : Option Int
  deriving DecidableEq, Repr

structure BackendEnum where
  backingType : TyKind
  span : Span
  variants : List BackendEnumVariant
  deriving DecidableEq, Repr

def lowerEnum (signature : Option TyKind) (constEnumValues : DefId → Option IntConst) (span : Span)
    (item : Enum) : Option BackendEnum :=
  signature.map fun backingType =>
    { backingType := backingType
      span := span
      variants := item.variants.map fun variant =>
        ⟨variant.defId, variant.span, (constEnumValues variant.defId).bind IntConst.asI128⟩ }

/-- The variant with a definition identity, and its index. -/
def enumVariantInfo (item : BackendEnum) (defId : DefId) : Option (BackendEnumVariant × Nat) :=
  (item.variants.zipIdx.find? fun info => info.1.defId == defId)

/-! ### Tag emission -/

/-- An LLVM integer constant. -/
structure Tag where
  width : Nat
  bits : BitVec width
  deriving DecidableEq, Repr

def integerLlvmType (arch : Arch) : PrimitiveTy → Except String Nat
  | .i8 | .u8 => .ok 8
  | .i16 | .u16 => .ok 16
  | .i32 | .u32 | .char => .ok 32
  | .i64 | .u64 => .ok 64
  | .isize | .usize => .ok arch.pointerWidth
  | .i128 | .u128 => .ok 128
  | .bool => .ok 1
  | .f32 | .f64 | .never => .error "expected integer primitive type"

/-- An integer constant of up to 128 bits: one word for narrow types, two for wide
ones, both masked to the type's width. -/
def constU128 (width : Nat) (value : BitVec 128) : Tag :=
  if width ≤ 64 then ⟨width, (value.setWidth 64).setWidth width⟩
  else ⟨width, ((value >>> 64).setWidth 64 ++ value.setWidth 64).setWidth width⟩

def enumVariantTagValue (arch : Arch) (item : BackendEnum) (defId : DefId) : Except String Tag :=
  match enumVariantInfo item defId with
  | none => .error "missing enum variant"
  | some (variant, index) =>
    let value := variant.value.getD index
    match item.backingType with
    | .other => .error "enum backing type is not primitive"
    | .primitive primitive => do
      let width ← integerLlvmType arch primitive
      return constU128 width (BitVec.ofInt 128 value)

/-- An internal error at a span, of the code `INVALID_BACKEND_IR`. -/
def invalidEnumDeclaration (span : Span) (message : String) : Span × String :=
  (span, "backend IR enum declaration has an invalid contract: " ++ message)

/-- Backend validation of an enum, before code generation. -/
def validateEnumDiscriminants (arch : Arch) (item : BackendEnum) : List (Span × String) :=
  match item.backingType with
  | .other => [invalidEnumDeclaration item.span "backing type is not primitive"]
  | .primitive primitive =>
    if primitive.isInteger then
      item.variants.zipIdx.filterMap fun (variant, index) =>
        if (IntConst.fromI128 (variant.value.getD index)).fitsPrimitiveInt primitive
            arch.pointerWidth then none
        else some (invalidEnumDeclaration variant.span
          "variant discriminant is out of range for its backing type")
    else [invalidEnumDeclaration item.span "backing type is not an integer"]

/-- The tags emitted for the variants of a declaration, in order, after const
checking and backend lowering. -/
def emittedTags (signature : Option TyKind) (arch : Arch) (span : Span) (item : Enum) :
    List (Except String Tag) :=
  match lowerEnum signature (evalEnum signature arch item).enumValues span item with
  | none => item.variants.map fun _ => .error "missing enum variant"
  | some backendItem =>
    item.variants.map fun variant => enumVariantTagValue arch backendItem variant.defId

/-- The integer a tag denotes at a backing type. -/
def Tag.read (signature : Option TyKind) (tag : Tag) : Int :=
  match signature with
  | some (.primitive primitive) =>
    if primitive.isSignedInteger then tag.bits.toInt else tag.bits.toNat
  | some .other | none => tag.bits.toNat

/-! ### The property -/

/-- An integer is in the range of the backing type. -/
def InBackingRange (signature : Option TyKind) (arch : Arch) (v : Int) : Prop :=
  match signature with
  | some (.primitive primitive) =>
    match primitive.integerBits arch.pointerWidth with
    | some bits =>
      if primitive.isSignedInteger then -2 ^ (bits - 1) ≤ v ∧ v < 2 ^ (bits - 1)
      else 0 ≤ v ∧ v < 2 ^ bits
    | none => False
  | some .other | none => False

/-- Enum tags identify variants, for one declaration. -/
structure TagsIdentify (signature : Option TyKind) (arch : Arch) (span : Span) (item : Enum) :
    Prop where
  accepted_iff : (evalEnum signature arch item).Accepted ↔
    ∀ v ∈ item.exactValues, InBackingRange signature arch v
  tags_exact : (evalEnum signature arch item).Accepted →
    (emittedTags signature arch span item).map (Except.map (Tag.read signature)) =
      item.exactValues.map .ok
  tags_distinct : (evalEnum signature arch item).Accepted →
    (emittedTags signature arch span item).Nodup

/-- An integer is outside a range of the checker's table. -/
def OutsideTable (range : Option (Int × Int)) (v : Int) : Prop :=
  ∃ min max, range = some (min, max) ∧ ¬ (min ≤ v ∧ v ≤ max)

/-- Either all values fit the backing type, none exceeds `i128::MAX` and they are
pairwise different; or some value does not fit, and some value that was not
reached by counting past `i128::MAX` from a signed constant is outside the
checker's table. -/
def TagsSafe (signature : Option TyKind) (arch : Arch) (item : Enum) : Prop :=
  ((∀ v ∈ item.exactValues, InBackingRange signature arch v ∧ v ≤ i128Max) ∧
    item.exactValues.Nodup) ∨
  ((∃ v ∈ item.exactValues, ¬ InBackingRange signature arch v) ∧
    ∃ p ∈ item.exactChain, ¬ (p.2 = true ∧ i128Max < p.1) ∧
      OutsideTable (enumBackingRange signature arch) p.1)

/-! ### Widths and masks -/

theorem constU128_eq (width : Nat) (value : BitVec 128) :
    constU128 width value = ⟨width, value.setWidth width⟩ := by
  unfold constU128
  split
  · rename_i h
    rw [BitVec.setWidth_setWidth_of_le _ h]
  · have happend : (value >>> 64).setWidth 64 ++ value.setWidth 64 = value := by
      apply BitVec.eq_of_getLsbD_eq
      intro i hi
      rw [BitVec.getLsbD_append]
      split
      · simp_all
      · have : i - 64 < 64 := by omega
        simp [this, show 64 + (i - 64) = i by omega]
    rw [happend]

theorem setWidth_ofInt (width : Nat) (v : Int) (hw : width ≤ 128) :
    (BitVec.ofInt 128 v).setWidth width = BitVec.ofInt width v := by
  apply BitVec.eq_of_toInt_eq
  rw [BitVec.toInt_setWidth, BitVec.toInt_ofInt, BitVec.toNat_ofInt]
  have hdvd : ((2 ^ width : Nat) : Int) ∣ ((2 ^ 128 : Nat) : Int) :=
    Int.natCast_dvd_natCast.mpr (Nat.pow_dvd_pow 2 hw)
  rw [Int.toNat_of_nonneg (Int.emod_nonneg _ (by positivity)), Int.bmod_def, Int.bmod_def,
    Int.emod_emod_of_dvd _ hdvd]

/-- The tag that carries an integer at a width. -/
def tagOf (width : Nat) (v : Int) : Tag := ⟨width, BitVec.ofInt width v⟩

theorem integerLlvmType_of_isInteger (arch : Arch) (primitive : PrimitiveTy)
    (h : primitive.isInteger = true) :
    ∃ width, integerLlvmType arch primitive = .ok width ∧ width ≤ 128 := by
  cases arch <;> cases primitive <;> simp_all [integerLlvmType, PrimitiveTy.isInteger, Arch.pointerWidth]

/-- Only integer types have integers in range. -/
theorem InBackingRange.isInteger {signature : Option TyKind} {arch : Arch} {v : Int}
    (h : InBackingRange signature arch v) :
    ∃ primitive, signature = some (.primitive primitive) ∧ primitive.isInteger = true := by
  unfold InBackingRange at h
  split at h
  · rename_i primitive
    refine ⟨primitive, rfl, ?_⟩
    cases primitive <;> simp_all [PrimitiveTy.integerBits, PrimitiveTy.isInteger]
  · exact h.elim
  · exact h.elim

/-- An integer in range survives the mask. -/
theorem tagOf_read (arch : Arch) (primitive : PrimitiveTy) (width : Nat) (v : Int)
    (hwidth : integerLlvmType arch primitive = .ok width)
    (hv : InBackingRange (some (.primitive primitive)) arch v) :
    (tagOf width v).read (some (.primitive primitive)) = v := by
  have hsigned (bits : Nat) (hpos : 0 < bits) (hlo : -2 ^ (bits - 1) ≤ v) (hhi : v < 2 ^ (bits - 1)) :
      (BitVec.ofInt bits v).toInt = v := by
    obtain ⟨n, rfl⟩ : ∃ n, bits = n + 1 := ⟨bits - 1, by omega⟩
    simp only [Nat.add_sub_cancel] at hlo hhi
    rw [BitVec.toInt_ofInt]
    apply Int.bmod_eq_of_le <;> rw [Nat.pow_succ] <;> push_cast <;> omega
  have hunsigned (bits : Nat) (hlo : 0 ≤ v) (hhi : v < 2 ^ bits) :
      ((BitVec.ofInt bits v).toNat : Int) = v := by
    rw [BitVec.toNat_ofInt, Int.toNat_of_nonneg (Int.emod_nonneg _ (by positivity))]
    exact Int.emod_eq_of_lt hlo (by push_cast; exact hhi)
  cases primitive <;>
    simp only [integerLlvmType, Except.ok.injEq, reduceCtorEq, InBackingRange,
      PrimitiveTy.integerBits, PrimitiveTy.isSignedInteger, Bool.false_eq_true, if_true, if_false]
      at hwidth hv <;>
    subst hwidth <;>
    first
      | exact hsigned _ (by cases arch <;> simp [tagOf, Arch.pointerWidth]) hv.1 hv.2
      | exact hunsigned _ hv.1 hv.2

/-! ### The checker's table against the true range -/

theorem enumBackingRange_le {signature : Option TyKind} {arch : Arch} {min max : Int}
    (h : enumBackingRange signature arch = some (min, max)) : max ≤ i128Max := by
  unfold enumBackingRange at h
  split at h
  · rename_i primitive
    cases primitive <;> cases arch <;>
      simp [primitiveIntegerRangeForTarget, integerRange, signedIntegerRange, unsignedIntegerRange,
        Arch.pointerWidth] at h <;>
      simp only [i128Max] at * <;> omega
  · cases h
  · cases h

/-- For an integer backing type the table is the true range cut off at `i128::MAX`. -/
theorem table_iff (arch : Arch) (primitive : PrimitiveTy) (hp : primitive.isInteger = true) (v : Int) :
    (∃ min max, enumBackingRange (some (.primitive primitive)) arch = some (min, max) ∧
        min ≤ v ∧ v ≤ max) ↔
      InBackingRange (some (.primitive primitive)) arch v ∧ v ≤ i128Max := by
  cases primitive <;> cases arch <;>
    simp [PrimitiveTy.isInteger, enumBackingRange, primitiveIntegerRangeForTarget, integerRange,
      signedIntegerRange, unsignedIntegerRange, Arch.pointerWidth, InBackingRange,
      PrimitiveTy.integerBits, PrimitiveTy.isSignedInteger, i128Max, i128Min] at hp ⊢ <;>
    omega

/-! ### Acceptance and emission of a whole declaration -/

/-- The constants assigned to the variants of a declaration, in order. -/
def consts (item : Enum) : List IntConst := chainConsts (IntConst.fromI128 0) item.variants

variable {signature : Option TyKind} {arch : Arch} {primitive : PrimitiveTy} {span : Span} {item : Enum}

theorem accepted_iff_consts (heval : item.Evaluates) :
    (evalEnum signature arch item).Accepted ↔
      ∀ c ∈ consts item, passesRange (enumBackingRange signature arch) c := by
  unfold evalEnum
  rw [evalVariants_accepted _ _ _ heval]
  simp [EnumValues.Accepted, EnumValues.empty, consts]

theorem consts_exact (item : Enum) :
    (consts item).map (fun c => (c.value, c.signed)) =
      item.exactChain.map (fun p => (min p.1 (IntConst.cap p.2), p.2)) := by
  refine chainConsts_exact item.variants (IntConst.fromI128 0) 0 ?_
  rw [IntConst.fromI128_value 0 (by decide) (by decide)]
  decide

/-- Below `i128::MAX` no successor saturates, and the constants are exact. -/
theorem consts_value (item : Enum) (h : ∀ v ∈ item.exactValues, v ≤ i128Max) :
    (consts item).map IntConst.value = item.exactValues := by
  have hmap := congrArg (List.map Prod.fst) (consts_exact item)
  simp only [map_map, Function.comp_def] at hmap
  rw [show (consts item).map IntConst.value = (consts item).map (fun c => c.value) from rfl, hmap]
  refine map_congr_left fun p hp => ?_
  have := h p.1 (mem_map_of_mem hp)
  have : i128Max ≤ IntConst.cap p.2 := by cases p.2 <;> decide
  exact min_eq_left (by omega)

/-- A checked declaration is rejected exactly when a value that was not reached by
counting past `i128::MAX` is outside the table. -/
theorem not_accepted_iff (heval : item.Evaluates) :
    ¬ (evalEnum signature arch item).Accepted ↔
      ∃ p ∈ item.exactChain, ¬ (p.2 = true ∧ i128Max < p.1) ∧
        OutsideTable (enumBackingRange signature arch) p.1 := by
  rw [accepted_iff_consts heval]
  have hclamp := consts_exact item
  constructor
  · intro h
    simp only [not_forall, passesRange] at h
    obtain ⟨c, hc, min, max, hrange, hfail⟩ := h
    have hle := enumBackingRange_le hrange
    rw [intConstInI128Range_iff] at hfail
    have hmem : (c.value, c.signed) ∈ (consts item).map (fun c => (c.value, c.signed)) :=
      mem_map_of_mem hc
    rw [hclamp] at hmem
    obtain ⟨⟨v, signed⟩, hp, heq⟩ := mem_map.mp hmem
    obtain ⟨hv, -⟩ := Prod.mk.inj heq
    simp only at hv
    cases signed with
    | false =>
      refine ⟨(v, false), hp, by simp, min, max, hrange, ?_⟩
      simp only [IntConst.cap, Bool.false_eq_true, if_false, u128Max, i128Max] at hv hle hfail
      omega
    | true =>
      simp only [IntConst.cap, if_true] at hv
      by_cases hover : i128Max < v
      · refine ⟨(i128Max, true), exactChain_overflow _ _ _ (by decide) v hover hp, by simp,
          min, max, hrange, ?_⟩
        simp only
        omega
      · refine ⟨(v, true), hp, by simp; omega, min, max, hrange, ?_⟩
        simp only
        omega
  · rintro ⟨⟨v, signed⟩, hp, hover, min, max, hrange, hout⟩ hall
    have hle := enumBackingRange_le hrange
    have hmem : (Min.min v (IntConst.cap signed), signed) ∈
        item.exactChain.map (fun p => (Min.min p.1 (IntConst.cap p.2), p.2)) :=
      mem_map.mpr ⟨(v, signed), hp, rfl⟩
    rw [← hclamp] at hmem
    obtain ⟨c, hc, heq⟩ := mem_map.mp hmem
    obtain ⟨hv, -⟩ := Prod.mk.inj heq
    have hpass := (intConstInI128Range_iff c min max).mp (hall c hc min max hrange)
    simp only at hover hout hv
    cases signed <;> simp [IntConst.cap, u128Max, i128Max] at hv hover hle hpass <;> omega

/-- The backend finds every variant, with the value recorded for it. -/
theorem enumVariantInfo_lowerEnum (backingType : TyKind) (values : DefId → Option IntConst)
    (span : Span) (item : Enum) (variant : EnumVariant) (hmem : variant ∈ item.variants)
    (backendItem : BackendEnum)
    (hlower : lowerEnum (some backingType) values span item = some backendItem) :
    backendItem.backingType = backingType ∧
      ∃ info, enumVariantInfo backendItem variant.defId = some info ∧
        info.1.value = (values variant.defId).bind IntConst.asI128 := by
  simp only [lowerEnum, Option.map_some, Option.some.injEq] at hlower
  subst hlower
  refine ⟨rfl, ?_⟩
  have hsome : (enumVariantInfo ⟨backingType, span, item.variants.map fun variant =>
      ⟨variant.defId, variant.span, (values variant.defId).bind IntConst.asI128⟩⟩
      variant.defId).isSome := by
    unfold enumVariantInfo
    rw [List.find?_isSome]
    obtain ⟨i, hi, hget⟩ := mem_iff_getElem.mp hmem
    refine ⟨(⟨variant.defId, variant.span, (values variant.defId).bind IntConst.asI128⟩, i), ?_, by simp⟩
    rw [mem_zipIdx_iff_getElem?]
    simp [hi, hget]
  obtain ⟨info, hinfo⟩ := Option.isSome_iff_exists.mp hsome
  refine ⟨info, hinfo, ?_⟩
  have hdef := List.find?_some hinfo
  have hin := fst_mem_of_mem_zipIdx (mem_of_find?_eq_some hinfo)
  obtain ⟨other, -, heq⟩ := mem_map.mp hin
  have hother : other.defId = variant.defId := by
    have : info.1.defId = variant.defId := by simpa using hdef
    rw [← this, ← heq]
  rw [← heq, hother]

/-- While no constant exceeds `i128::MAX`, the emitted tags carry the constants. -/
theorem emittedTags_eq (heval : item.Evaluates) {width : Nat} (hwidth : integerLlvmType arch primitive = .ok width)
    (hw : width ≤ 128)
    (hle : ∀ c ∈ consts item, c.value ≤ i128Max) :
    emittedTags (some (.primitive primitive)) arch span item =
      (consts item).map fun c => .ok (tagOf width c.value) := by
  have hvalues := evalVariants_enumValues (enumBackingRange (some (.primitive primitive)) arch)
    (.primitive primitive) item.variants heval item.defIds_nodup (IntConst.fromI128 0) .empty
  obtain ⟨backendItem, hlower⟩ : ∃ backendItem, lowerEnum (some (.primitive primitive))
      (evalEnum (some (.primitive primitive)) arch item).enumValues span item = some backendItem :=
    ⟨_, rfl⟩
  unfold emittedTags
  rw [hlower]
  rw [← forall₂_eq_eq_eq, forall₂_map_left_iff, forall₂_map_right_iff]
  obtain ⟨hlength, hvalues⟩ := forall₂_iff_zip.mp hvalues
  refine forall₂_iff_zip.mpr ⟨hlength, fun {variant c} hzip => ?_⟩
  obtain ⟨hvariant, hc⟩ := of_mem_zip hzip
  have hvalue := hvalues hzip
  obtain ⟨hbacking, ⟨found, index⟩, hinfo, hfound⟩ :=
    enumVariantInfo_lowerEnum _ _ _ _ variant hvariant backendItem hlower
  have hasI128 : found.value = some c.value := by
    rw [hfound, evalEnum]
    simp only [Option.getD_some, hvalue, Option.bind_some]
    rw [IntConst.asI128_eq, if_pos (hle c hc)]
  unfold enumVariantTagValue
  rw [hinfo, hbacking]
  simp only [hasI128, Option.getD_some, hwidth]
  show Except.ok (constU128 width (BitVec.ofInt 128 c.value)) = _
  rw [constU128_eq, setWidth_ofInt width _ hw]
  rfl

/-- Every variant has a recorded constant. -/
theorem evalEnum_enumValues (signature : Option TyKind) (arch : Arch) (heval : item.Evaluates) {variant : EnumVariant}
    (hmem : variant ∈ item.variants) :
    ∃ c ∈ consts item, (evalEnum signature arch item).enumValues variant.defId = some c := by
  have hvalues := evalVariants_enumValues (enumBackingRange signature arch)
    (signature.getD (.primitive .isize)) item.variants heval item.defIds_nodup
    (IntConst.fromI128 0) .empty
  obtain ⟨hlength, hvalues⟩ := forall₂_iff_get.mp hvalues
  obtain ⟨i, hi, rfl⟩ := mem_iff_getElem.mp hmem
  exact ⟨_, get_mem _ ⟨i, hlength ▸ hi⟩, hvalues i hi (hlength ▸ hi)⟩

/-- The constants of an accepted declaration are in range. -/
theorem accepted_const (hp : primitive.isInteger = true) (heval : item.Evaluates)
    (hacc : (evalEnum (some (.primitive primitive)) arch item).Accepted) {c : IntConst} (hc : c ∈ consts item) :
    InBackingRange (some (.primitive primitive)) arch c.value ∧ c.value ≤ i128Max := by
  obtain ⟨⟨min, max⟩, htable⟩ : ∃ r, enumBackingRange (some (.primitive primitive)) arch = some r := by
    cases primitive <;> cases arch <;> first | exact ⟨_, rfl⟩ | cases hp
  have hpass := (accepted_iff_consts heval).mp hacc c hc min max htable
  rw [intConstInI128Range_iff] at hpass
  exact (table_iff arch primitive hp c.value).mp ⟨min, max, htable, hpass.2⟩

theorem emittedTags_nil (h : consts item = []) : emittedTags signature arch span item = [] := by
  have hempty : item.variants = [] := by
    cases hvariants : item.variants with
    | nil => rfl
    | cons variant rest =>
      rw [consts, hvariants, chainConsts] at h
      split at h <;> cases h
  cases signature <;> simp [emittedTags, lowerEnum, hempty]

/-- The tags of an accepted declaration carry its constants, which are in range;
so they read back as the constants, and are distinct when the constants are. -/
theorem accepted_tags (span : Span) (heval : item.Evaluates) (hacc : (evalEnum signature arch item).Accepted)
    (hsig : consts item ≠ [] → ∃ v, InBackingRange signature arch v) :
    (∀ v ∈ (consts item).map IntConst.value, InBackingRange signature arch v ∧ v ≤ i128Max) ∧
      (emittedTags signature arch span item).map (Except.map (Tag.read signature)) =
        ((consts item).map IntConst.value).map .ok ∧
      ((emittedTags signature arch span item).Nodup ↔ ((consts item).map IntConst.value).Nodup) := by
  by_cases hnil : consts item = []
  · simp [emittedTags_nil hnil, hnil]
  obtain ⟨_, hany⟩ := hsig hnil
  obtain ⟨primitive, rfl, hp⟩ := hany.isInteger
  obtain ⟨width, hwidth, hw⟩ := integerLlvmType_of_isInteger arch primitive hp
  have hrange : ∀ v ∈ (consts item).map IntConst.value,
      InBackingRange (some (.primitive primitive)) arch v ∧ v ≤ i128Max := by
    intro v hv
    obtain ⟨c, hc, rfl⟩ := mem_map.mp hv
    exact accepted_const hp heval hacc hc
  have htags : emittedTags (some (.primitive primitive)) arch span item =
      ((consts item).map IntConst.value).map fun v => .ok (tagOf width v) := by
    rw [emittedTags_eq heval hwidth hw
      fun c hc => (hrange _ (mem_map_of_mem hc)).2, map_map]
    rfl
  have hread : ∀ v ∈ (consts item).map IntConst.value,
      (tagOf width v).read (some (.primitive primitive)) = v :=
    fun v hv => tagOf_read arch primitive width v hwidth (hrange v hv).1
  refine ⟨hrange, ?_, ?_⟩
  · rw [htags, map_map]
    exact map_congr_left fun v hv => congrArg Except.ok (hread v hv)
  · rw [htags]
    refine ⟨fun h => h.of_map _, fun h => h.map_on fun v hv u hu heq => ?_⟩
    rw [← hread v hv, ← hread u hu, Except.ok.inj heq]

/-- The backend's range test of an `i128` agrees with the backing type's range. -/
theorem fitsPrimitiveInt_of_inBackingRange (arch : Arch) (primitive : PrimitiveTy) (v : Int)
    (hv : InBackingRange (some (.primitive primitive)) arch v) (hmin : i128Min ≤ v) (hmax : v ≤ i128Max) :
    (IntConst.fromI128 v).fitsPrimitiveInt primitive arch.pointerWidth = true := by
  have hasI128 : (IntConst.fromI128 v).asI128 = some v := by
    rw [IntConst.asI128_eq, IntConst.fromI128_value v hmin hmax, if_pos hmax]
  unfold IntConst.fitsPrimitiveInt
  cases primitive <;> cases arch <;>
    simp [InBackingRange, PrimitiveTy.integerBits, PrimitiveTy.isSignedInteger, Arch.pointerWidth,
      hasI128] at hv ⊢ <;>
    first | omega | (rw [if_pos hv.1]; simp; try omega)

/-- Backend validation passes every accepted declaration with an integer backing
type: the table never admits a value the backend would refuse. -/
theorem accepted_validates (arch : Arch) (primitive : PrimitiveTy) (hp : primitive.isInteger = true)
    (span : Span) (item : Enum) (heval : item.Evaluates)
    (hacc : (evalEnum (some (.primitive primitive)) arch item).Accepted) (backendItem : BackendEnum)
    (hlower : lowerEnum (some (.primitive primitive))
      (evalEnum (some (.primitive primitive)) arch item).enumValues span item = some backendItem) :
    validateEnumDiscriminants arch backendItem = [] := by
  simp only [lowerEnum, Option.map_some, Option.some.injEq] at hlower
  subst hlower
  simp only [validateEnumDiscriminants, hp, if_true]
  rw [filterMap_eq_nil_iff]
  rintro ⟨variant, index⟩ hmem
  obtain ⟨source, hsource, rfl⟩ := mem_map.mp (fst_mem_of_mem_zipIdx hmem)
  obtain ⟨c, hc, hvalue⟩ := evalEnum_enumValues (some (.primitive primitive)) arch heval hsource
  obtain ⟨hrange, hle⟩ := accepted_const hp heval hacc hc
  have hmin : i128Min ≤ c.value := by
    cases primitive <;> cases arch <;>
      simp [InBackingRange, PrimitiveTy.integerBits, PrimitiveTy.isSignedInteger, Arch.pointerWidth,
        i128Min, PrimitiveTy.isInteger] at hp hrange ⊢ <;> omega
  simp only [hvalue, Option.bind_some, IntConst.asI128_eq, if_pos hle, Option.getD_some,
    fitsPrimitiveInt_of_inBackingRange arch primitive c.value hrange hmin hle, if_true]

/-- A declaration whose tags identify its variants and that is accepted has small,
distinct values in range. -/
theorem small_of_tagsIdentify (heval : item.Evaluates) (h : TagsIdentify signature arch span item)
    (hacc : (evalEnum signature arch item).Accepted) :
    (∀ v ∈ item.exactValues, InBackingRange signature arch v ∧ v ≤ i128Max) ∧
      item.exactValues.Nodup := by
  have hsig : consts item ≠ [] → ∃ v, InBackingRange signature arch v := by
    intro hne
    obtain ⟨c, hc⟩ := exists_mem_of_ne_nil _ hne
    have hmem : (c.value, c.signed) ∈ (consts item).map (fun c => (c.value, c.signed)) :=
      mem_map_of_mem hc
    rw [consts_exact] at hmem
    obtain ⟨p, hp, -⟩ := mem_map.mp hmem
    exact ⟨p.1, h.accepted_iff.mp hacc p.1 (mem_map_of_mem hp)⟩
  obtain ⟨hrange, hread, hnodup⟩ := accepted_tags span heval hacc hsig
  have hexact : (consts item).map IntConst.value = item.exactValues :=
    map_injective_iff.mpr (fun _ _ hab => Except.ok.inj hab) (hread.symm.trans (h.tags_exact hacc))
  rw [← hexact]
  exact ⟨hrange, hnodup.mp (h.tags_distinct hacc)⟩

/-- Small, distinct values in range are accepted, and become their own tags. -/
theorem tagsIdentify_of_small (span : Span) (heval : item.Evaluates)
    (hsmall : ∀ v ∈ item.exactValues, InBackingRange signature arch v ∧ v ≤ i128Max)
    (hdistinct : item.exactValues.Nodup) : TagsIdentify signature arch span item := by
  have hexact := consts_value item fun v hv => (hsmall v hv).2
  have hconst (c : IntConst) (hc : c ∈ consts item) :=
    hsmall c.value (hexact ▸ mem_map_of_mem hc)
  have hacc : (evalEnum signature arch item).Accepted := by
    rw [accepted_iff_consts heval]
    intro c hc min max hrange
    obtain ⟨primitive, rfl, hp⟩ := (hconst c hc).1.isInteger
    obtain ⟨min', max', hrange', hin⟩ := (table_iff arch primitive hp c.value).mpr (hconst c hc)
    obtain ⟨rfl, rfl⟩ := Prod.mk.inj (Option.some.inj (hrange.symm.trans hrange'))
    exact (intConstInI128Range_iff c min max).mpr ⟨(hconst c hc).2, hin⟩
  have hsig : consts item ≠ [] → ∃ v, InBackingRange signature arch v := by
    intro hne
    obtain ⟨c, hc⟩ := exists_mem_of_ne_nil _ hne
    exact ⟨c.value, (hconst c hc).1⟩
  obtain ⟨-, hread, hnodup⟩ := accepted_tags span heval hacc hsig
  rw [hexact] at hread hnodup
  exact ⟨⟨fun _ v hv => (hsmall v hv).1, fun _ => hacc⟩, fun _ => hread, fun _ => hnodup.mpr hdistinct⟩

/-- **When enum tags identify variants.** For every declaration whose explicit
values evaluate, at every backing type and target. -/
theorem tagsIdentify_iff (signature : Option TyKind) (arch : Arch) (span : Span) (item : Enum)
    (heval : item.Evaluates) :
    TagsIdentify signature arch span item ↔ TagsSafe signature arch item := by
  constructor
  · intro h
    by_cases hacc : (evalEnum signature arch item).Accepted
    · exact .inl (small_of_tagsIdentify heval h hacc)
    · refine .inr ⟨?_, (not_accepted_iff heval).mp hacc⟩
      have := mt h.accepted_iff.mpr hacc
      simpa only [not_forall, exists_prop] using this
  · rintro (⟨hsmall, hdistinct⟩ | ⟨⟨v, hv, hout⟩, hrejected⟩)
    · exact tagsIdentify_of_small span heval hsmall hdistinct
    · have hacc := (not_accepted_iff heval).mpr hrejected
      exact ⟨⟨fun h => absurd h hacc, fun h => absurd (h v hv) hout⟩,
        fun h => absurd h hacc, fun h => absurd h hacc⟩

/-- `enum Color: u8 { Black, White, Red = 10 }`. -/
def color : Enum where
  variants := [⟨1, ⟨0, 5⟩, none⟩, ⟨2, ⟨7, 12⟩, none⟩, ⟨3, ⟨14, 22⟩, some (.ok (.unsigned 10))⟩]
  defIds_nodup := by decide

theorem color_tagsIdentify : TagsIdentify (some (.primitive .u8)) .x86_64 ⟨0, 22⟩ color := by
  have hvalues : color.exactValues = [0, 1, 10] := by decide
  refine (tagsIdentify_iff _ _ _ color ?_).mpr (.inl ⟨?_, ?_⟩)
  · intro variant hmem err
    simp only [color, mem_cons, not_mem_nil, or_false] at hmem
    rcases hmem with rfl | rfl | rfl <;> simp
  · rw [hvalues]
    simp [InBackingRange, PrimitiveTy.integerBits, PrimitiveTy.isSignedInteger, i128Max]
  · rw [hvalues]
    decide

theorem color_validates : ∃ backendItem, lowerEnum (some (.primitive .u8))
    (evalEnum (some (.primitive .u8)) .x86_64 color).enumValues ⟨0, 22⟩ color = some backendItem ∧
      backendItem.variants.length = 3 ∧ validateEnumDiscriminants .x86_64 backendItem = [] := by
  refine ⟨_, rfl, rfl, accepted_validates .x86_64 .u8 rfl ⟨0, 22⟩ color ?_ (fun _ _ => not_mem_nil) _ rfl⟩
  intro variant hmem err
  simp only [color, mem_cons, not_mem_nil, or_false] at hmem
  rcases hmem with rfl | rfl | rfl <;> simp

/-- `enum Wide: u128 { Top = 170141183460469231731687303715884105728 }`, that is
`2 ^ 127`. -/
def wide : Enum where
  variants := [⟨1, ⟨0, 45⟩, some (.ok (.unsigned 170141183460469231731687303715884105728#128))⟩]
  defIds_nodup := by decide

/-- The value fits `u128`, and const checking rejects it. -/
theorem wide_not_tagsIdentify : ¬ TagsIdentify (some (.primitive .u128)) .x86_64 ⟨0, 45⟩ wide := by
  intro h
  have hchain : wide.exactChain = [(2 ^ 127, false)] := rfl
  have hacc := h.accepted_iff.mpr (by
    rw [Enum.exactValues, hchain]
    simp [InBackingRange, PrimitiveTy.integerBits, PrimitiveTy.isSignedInteger])
  refine (not_accepted_iff ?_).mpr ⟨(2 ^ 127, false), by simp [hchain], by simp, ?_⟩ hacc
  · intro variant hmem err
    simp only [wide, mem_singleton] at hmem
    simp [hmem]
  · exact ⟨0, i128Max, rfl, by simp [i128Max]⟩

end Nia.Codegen
