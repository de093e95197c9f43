import Nia.Lib.Placement

/-! Physical placement of aggregates.

Sizes and offsets are `u64`; every step that could leave that range is checked, and a
layout that does not fit is no layout. Against the exact placement over the natural
numbers this loses nothing: a struct, a tuple, a tagged union or an enum has no layout
exactly when its exact size is not a `u64`, and otherwise it is the exact one
(`placeFields_eq`, `sequentialLayout_eq`, `taggedUnionLayoutWithTag_eq`,
`placeEnum_eq`). -/
namespace Nia.Layout

open Nia.Lib.Placement List

/-- A definition of one module. -/
abbrev DefId := UInt64

/-- Size and alignment of one concrete type, in bytes. -/
structure TypeLayout where
  size : Nat
  align : Nat
  deriving DecidableEq, Repr

/-- What the layout of every type satisfies. -/
structure TypeLayout.WellFormed (layout : TypeLayout) : Prop where
  powerOfTwo : ∃ k, layout.align = 2 ^ k
  dvd : layout.align ∣ layout.size
  size_lt : layout.size < 2 ^ 64

structure FieldLayout where
  defId : DefId
  offset : Nat
  layout : TypeLayout
  deriving DecidableEq, Repr

/-- Fields stand in physical order. -/
structure StructLayout where
  layout : TypeLayout
  fields : List FieldLayout
  deriving DecidableEq, Repr

structure EnumFieldLayout where
  defId : Option DefId
  offset : Nat
  layout : TypeLayout
  deriving DecidableEq, Repr

structure EnumVariantLayout where
  defId : DefId
  payload : TypeLayout
  fields : List EnumFieldLayout
  deriving DecidableEq, Repr

structure EnumLayout where
  layout : TypeLayout
  tag : TypeLayout
  payloadOffset : Option Nat
  variants : List EnumVariantLayout
  deriving DecidableEq, Repr

/-! ### Checked arithmetic -/

/-- `u64::checked_add`. -/
def checkedAdd (a b : Nat) : Option Nat := if a + b < 2 ^ 64 then some (a + b) else none

def alignTo (value align : Nat) : Option Nat :=
  if align = 0 then none
  else if value % align = 0 then some value
  else checkedAdd value (align - value % align)

/-! ### Products -/

/-- One field of a sequential product: the end so far and the largest alignment. -/
def sequentialStep (sofar : Nat × Nat) (field : TypeLayout) : Option (Nat × Nat) := do
  let size ← checkedAdd (← alignTo sofar.1 field.align) field.size
  return (size, max sofar.2 field.align)

/-- Fields placed sequentially in declaration order. -/
def sequentialLayout (fields : List TypeLayout) : Option TypeLayout := do
  let (size, maxAlign) ← fields.foldlM sequentialStep (0, 1)
  return ⟨← alignTo size maxAlign, maxAlign⟩

section

variable {α β : Type} (layout : α → TypeLayout) (place : α → Nat → β)

/-- One field of the placement loop; `place` records it with its offset. -/
def placeStep (sofar : List β × Nat × Nat) (field : α) : Option (List β × Nat × Nat) := do
  let (placed, offset, maxAlign) := sofar
  let offset ← alignTo offset (layout field).align
  let placed := placed ++ [place field offset]
  let offset ← checkedAdd offset (layout field).size
  return (placed, offset, max maxAlign (layout field).align)

def placeFields (fields : List α) : Option (TypeLayout × List β) := do
  let (placed, offset, maxAlign) ← fields.foldlM (placeStep layout place) ([], 0, 1)
  return (⟨← alignTo offset maxAlign, maxAlign⟩, placed)

end

structure PendingFieldLayout where
  defId : DefId
  sourceIndex : Nat
  layout : TypeLayout
  deriving DecidableEq, Repr

structure PendingEnumFieldLayout where
  defId : Option DefId
  layout : TypeLayout
  deriving DecidableEq, Repr

/-- Payload fields stay in declared order. -/
def placeEnumFields (fields : List PendingEnumFieldLayout) :
    Option (TypeLayout × List EnumFieldLayout) :=
  placeFields PendingEnumFieldLayout.layout (fun field offset => ⟨field.defId, offset, field.layout⟩)
    fields

/-- Fields stay in the order they are given in. -/
def placeStructFields (fields : List PendingFieldLayout) : Option StructLayout :=
  (placeFields PendingFieldLayout.layout (fun field offset => ⟨field.defId, offset, field.layout⟩)
    fields).map fun (layout, fields) => ⟨layout, fields⟩

/-- The order of the fields of a struct that may be reordered: larger alignments first,
then larger sizes, then source order. -/
def PendingFieldLayout.Before (left right : PendingFieldLayout) : Prop :=
  right.layout.align < left.layout.align ∨ (right.layout.align = left.layout.align ∧
    (right.layout.size < left.layout.size ∨ (right.layout.size = left.layout.size ∧
      left.sourceIndex ≤ right.sourceIndex)))

instance : DecidableRel PendingFieldLayout.Before := fun _ _ => inferInstanceAs (Decidable (_ ∨ _))

def sortFields (fields : List PendingFieldLayout) : List PendingFieldLayout :=
  fields.insertionSort PendingFieldLayout.Before

/-- The placement of a struct that is neither a tuple nor extern. -/
def sortedFieldLayout (fields : List PendingFieldLayout) : Option StructLayout :=
  placeStructFields (sortFields fields)

/-! ### Sums -/

def payloadSize (payloads : List TypeLayout) : Nat := ((payloads.map (·.size)).max?).getD 0

def payloadAlign (payloads : List TypeLayout) : Nat := ((payloads.map (·.align)).max?).getD 1

def taggedUnionLayoutWithTag (tag : TypeLayout) (payloads : List TypeLayout) : Option TypeLayout := do
  let align := max tag.align (payloadAlign payloads)
  let payloadOffset ← alignTo tag.size (payloadAlign payloads)
  return ⟨← alignTo (← checkedAdd payloadOffset (payloadSize payloads)) align, align⟩

structure PendingEnumVariant where
  defId : DefId
  fields : List PendingEnumFieldLayout
  deriving DecidableEq, Repr

def placeVariant (variant : PendingEnumVariant) : Option EnumVariantLayout := do
  let (payload, fields) ← placeEnumFields variant.fields
  return ⟨variant.defId, payload, fields⟩

/-- The enum around its placed variants. The offset of the payload is computed apart from
the layout. -/
def enumAround (tag : TypeLayout) (variants : List EnumVariantLayout) : Option EnumLayout := do
  let hasPayload := variants.any fun variant => !variant.fields.isEmpty
  let payloads := variants.map (·.payload)
  let layout ← if hasPayload then taggedUnionLayoutWithTag tag payloads else some tag
  let payloadOffset ←
    if hasPayload then (alignTo tag.size (payloadAlign payloads)).map some else some none
  return ⟨layout, tag, payloadOffset, variants⟩

/-- The placement of an enum whose field layouts are known. -/
def placeEnum (tag : TypeLayout) (variants : List PendingEnumVariant) : Option EnumLayout := do
  enumAround tag (← variants.mapM placeVariant)

/-! ### Exact arithmetic -/

/-- A result that has to be a `u64`. -/
def inU64 (value : Nat) : Option Nat := if value < 2 ^ 64 then some value else none

theorem checkedAdd_eq (a b : Nat) : checkedAdd a b = inU64 (a + b) := rfl

theorem alignTo_eq {value align : Nat} (hpos : 0 < align) (hvalue : value < 2 ^ 64) :
    alignTo value align = inU64 (alignUp value align) := by
  unfold alignTo alignUp
  rw [if_neg (by omega)]
  split
  · exact (if_pos hvalue).symm
  · rfl

section

variable {α β : Type} {layout : α → TypeLayout} {place : α → Nat → β}

/-- The size and the alignment of fields in the order they stand in, over the natural
numbers. -/
def exactLayout (layout : α → TypeLayout) (fields : List α) : TypeLayout :=
  ⟨paddedSize (fun f => (layout f).size) (fun f => (layout f).align) fields,
    maxAlign (fun f => (layout f).align) fields⟩

/-- Where the last field ends, over the natural numbers. -/
def exactEnd (layout : α → TypeLayout) (start : Nat) (fields : List α) : Nat :=
  endFrom (fun f => (layout f).size) (fun f => (layout f).align) start fields

/-- Fields with the offsets of the exact placement. -/
def exactFields (layout : α → TypeLayout) (place : α → Nat → β) (start : Nat) (fields : List α) :
    List β :=
  (placeFrom (fun f => (layout f).size) (fun f => (layout f).align) start fields).map fun p =>
    place p.1 p.2

theorem placeStep_eq {placed : List β} {start align : Nat} {field : α}
    (hpos : 0 < (layout field).align) (hstart : start < 2 ^ 64) :
    placeStep layout place (placed, start, align) field =
      (inU64 (alignUp start (layout field).align + (layout field).size)).map fun offset =>
        (placed ++ [place field (alignUp start (layout field).align)], offset,
          max align (layout field).align) := by
  unfold placeStep
  simp only [alignTo_eq hpos hstart, checkedAdd_eq, inU64]
  by_cases hoffset : alignUp start (layout field).align < 2 ^ 64
  · simp only [if_pos hoffset, Option.bind_eq_bind, Option.bind_some]
    split <;> rfl
  · rw [if_neg hoffset, if_neg (by omega)]
    rfl

/-- The loop over the fields does what the exact placement does, up to the range. -/
theorem placeFields_loop {fields : List α} (hpos : ∀ f ∈ fields, 0 < (layout f).align)
    (placed : List β) {start : Nat} (hstart : start < 2 ^ 64) {align : Nat} (halign : 1 ≤ align) :
    fields.foldlM (placeStep layout place) (placed, start, align) =
      (inU64 (exactEnd layout start fields)).map fun offset =>
        (placed ++ exactFields layout place start fields, offset,
          max align (maxAlign (fun f => (layout f).align) fields)) := by
  induction fields generalizing placed start align with
  | nil =>
    rw [exactEnd, endFrom, inU64, if_pos hstart]
    simp [exactFields, placeFrom, maxAlign, Nat.max_eq_left halign]
  | cons field fields ih =>
    have hrest : ∀ f ∈ fields, 0 < (layout f).align := fun f hf => hpos f (mem_cons_of_mem _ hf)
    rw [foldlM_cons, placeStep_eq (hpos field mem_cons_self) hstart]
    set next := alignUp start (layout field).align + (layout field).size with hnext
    have hend : exactEnd layout start (field :: fields) = exactEnd layout next fields := rfl
    by_cases hlt : next < 2 ^ 64
    · rw [inU64, if_pos hlt, hend]
      simp only [Option.map_some, Option.bind_eq_bind, Option.bind_some]
      rw [ih hrest _ hlt (halign.trans (le_max_left _ _))]
      simp [exactFields, placeFrom, maxAlign, Nat.max_assoc, ← hnext]
    · have hle : next ≤ exactEnd layout next fields := le_endFrom
      rw [inU64, if_neg hlt, hend, inU64, if_neg (by omega)]
      rfl

theorem maxAlign_eq (fields : List α) :
    max 1 (maxAlign (fun f => (layout f).align) fields) = (exactLayout layout fields).align :=
  Nat.max_eq_right maxAlign_pos

/-- Fields have no placement exactly when the exact size is not a `u64`, and otherwise the
exact one. -/
theorem placeFields_eq {fields : List α} (hpos : ∀ f ∈ fields, 0 < (layout f).align) :
    placeFields layout place fields =
      if (exactLayout layout fields).size < 2 ^ 64 then
        some (exactLayout layout fields, exactFields layout place 0 fields)
      else none := by
  have hle : exactEnd layout 0 fields ≤ (exactLayout layout fields).size := endFrom_le_paddedSize
  unfold placeFields
  rw [placeFields_loop hpos [] (by norm_num) le_rfl, maxAlign_eq]
  by_cases hend : exactEnd layout 0 fields < 2 ^ 64
  · rw [inU64, if_pos hend]
    have hpadded : alignTo (exactEnd layout 0 fields) (exactLayout layout fields).align =
        inU64 (exactLayout layout fields).size := alignTo_eq maxAlign_pos hend
    simp only [Option.map_some, Option.bind_eq_bind, Option.bind_some, nil_append]
    rw [hpadded]
    by_cases hsize : (exactLayout layout fields).size < 2 ^ 64
    · rw [if_pos hsize, inU64, if_pos hsize]
      rfl
    · rw [if_neg hsize, inU64, if_neg hsize]
      rfl
  · rw [inU64, if_neg hend, if_neg (by omega)]
    rfl

end

theorem sequential_loop {β : Type} (place : TypeLayout → Nat → β) (fields : List TypeLayout)
    (placed : List β) (size align : Nat) :
    fields.foldlM sequentialStep (size, align) =
      (fields.foldlM (placeStep id place) (placed, size, align)).map Prod.snd := by
  induction fields generalizing placed size align with
  | nil => rfl
  | cons field fields ih =>
    have hstep : sequentialStep (size, align) field =
        (placeStep id place (placed, size, align) field).map Prod.snd := by
      unfold sequentialStep placeStep
      cases hoffset : alignTo size field.align with
      | none => simp [hoffset]
      | some offset => cases hnext : checkedAdd offset field.size <;> simp [hoffset, hnext]
    rw [foldlM_cons, foldlM_cons, hstep]
    cases placeStep id place (placed, size, align) field with
    | none => rfl
    | some next => exact ih next.1 next.2.1 next.2.2

/-- A sequential product has the layout of the placement loop. -/
theorem sequentialLayout_eq_placeFields {β : Type} (place : TypeLayout → Nat → β)
    (fields : List TypeLayout) :
    sequentialLayout fields = (placeFields id place fields).map Prod.fst := by
  unfold sequentialLayout placeFields
  rw [sequential_loop place fields [] 0 1]
  cases fields.foldlM (placeStep id place) ([], 0, 1) with
  | none => rfl
  | some loop =>
    obtain ⟨placed, offset, maxAlign⟩ := loop
    simp only [Option.map_some, Option.bind_eq_bind, Option.bind_some]
    cases alignTo offset maxAlign <;> rfl

/-! ### Sums, exactly -/

section

variable {tag : TypeLayout} {payloads : List TypeLayout}

/-- Where payloads start. -/
def payloadStart (tag : TypeLayout) (payloads : List TypeLayout) : Nat :=
  alignUp tag.size (payloadAlign payloads)

def exactTagged (tag : TypeLayout) (payloads : List TypeLayout) : TypeLayout :=
  ⟨alignUp (payloadStart tag payloads + payloadSize payloads) (max tag.align (payloadAlign payloads)),
    max tag.align (payloadAlign payloads)⟩

theorem le_payloadSize {payload : TypeLayout} (h : payload ∈ payloads) :
    payload.size ≤ payloadSize payloads := by
  unfold payloadSize
  have hmem : payload.size ∈ payloads.map (·.size) := mem_map_of_mem h
  cases hmax : (payloads.map (·.size)).max? with
  | none => rw [List.max?_eq_none_iff.mp hmax] at hmem; cases hmem
  | some largest => exact (List.max?_eq_some_iff.mp hmax).2 _ hmem

/-- The payloads' alignment is one, or that of one of them and not below any. -/
theorem payloadAlign_cases (payloads : List TypeLayout) : (payloads = [] ∧ payloadAlign payloads = 1) ∨
    ∃ payload ∈ payloads, payloadAlign payloads = payload.align ∧
      ∀ other ∈ payloads, other.align ≤ payload.align := by
  unfold payloadAlign
  cases hmax : (payloads.map (·.align)).max? with
  | none => exact .inl ⟨map_eq_nil_iff.mp (List.max?_eq_none_iff.mp hmax), rfl⟩
  | some largest =>
    obtain ⟨hmem, hle⟩ := List.max?_eq_some_iff.mp hmax
    obtain ⟨payload, hpayload, rfl⟩ := mem_map.mp hmem
    exact .inr ⟨payload, hpayload, rfl, fun other hother => hle _ (mem_map_of_mem hother)⟩

theorem payloadAlign_pos (hpos : ∀ payload ∈ payloads, 0 < payload.align) :
    0 < payloadAlign payloads := by
  obtain ⟨-, h⟩ | ⟨payload, hmem, h, -⟩ := payloadAlign_cases payloads
  · rw [h]
    exact Nat.one_pos
  · rw [h]
    exact hpos payload hmem

theorem taggedUnionLayoutWithTag_eq (htag : tag.size < 2 ^ 64)
    (hpos : ∀ payload ∈ payloads, 0 < payload.align) :
    taggedUnionLayoutWithTag tag payloads =
      if (exactTagged tag payloads).size < 2 ^ 64 then some (exactTagged tag payloads) else none := by
  have halign : 0 < max tag.align (payloadAlign payloads) :=
    lt_of_lt_of_le (payloadAlign_pos hpos) (le_max_right _ _)
  have hle : payloadStart tag payloads + payloadSize payloads ≤ (exactTagged tag payloads).size :=
    le_alignUp
  have hstart : alignTo tag.size (payloadAlign payloads) = inU64 (payloadStart tag payloads) :=
    alignTo_eq (payloadAlign_pos hpos) htag
  unfold taggedUnionLayoutWithTag
  simp only [hstart, checkedAdd_eq]
  by_cases hoffset : payloadStart tag payloads < 2 ^ 64
  · by_cases hend : payloadStart tag payloads + payloadSize payloads < 2 ^ 64
    · simp only [inU64, if_pos hoffset, if_pos hend, Option.bind_eq_bind, Option.bind_some]
      rw [alignTo_eq halign hend]
      by_cases hsize : (exactTagged tag payloads).size < 2 ^ 64
      · rw [if_pos hsize, inU64]
        exact if_pos hsize ▸ rfl
      · rw [if_neg hsize, inU64]
        exact if_neg hsize ▸ rfl
    · simp only [inU64, if_pos hoffset, if_neg hend, Option.bind_eq_bind, Option.bind_some,
        Option.bind_none]
      rw [if_neg (by omega)]
  · simp only [inU64, if_neg hoffset, Option.bind_eq_bind, Option.bind_none]
    rw [if_neg (by omega)]

end

/-! ### Enums, exactly -/

section

variable {tag : TypeLayout} {variants : List PendingEnumVariant}

def exactVariant (variant : PendingEnumVariant) : EnumVariantLayout :=
  ⟨variant.defId, exactLayout PendingEnumFieldLayout.layout variant.fields,
    exactFields PendingEnumFieldLayout.layout (fun field offset => ⟨field.defId, offset, field.layout⟩)
      0 variant.fields⟩

/-- Some variant has a field. -/
def hasPayload (variants : List PendingEnumVariant) : Bool :=
  variants.any fun variant => !variant.fields.isEmpty

def exactPayloads (variants : List PendingEnumVariant) : List TypeLayout :=
  variants.map fun variant => (exactVariant variant).payload

def exactEnum (tag : TypeLayout) (variants : List PendingEnumVariant) : EnumLayout :=
  ⟨if hasPayload variants then exactTagged tag (exactPayloads variants) else tag, tag,
    if hasPayload variants then some (payloadStart tag (exactPayloads variants)) else none,
    variants.map exactVariant⟩

theorem exactFields_isEmpty {α β : Type} (layout : α → TypeLayout) (place : α → Nat → β)
    (start : Nat) (fields : List α) :
    (exactFields layout place start fields).isEmpty = fields.isEmpty := by
  cases fields <;> rfl

theorem exactPayload_pos (payload : TypeLayout) (h : payload ∈ exactPayloads variants) :
    0 < payload.align := by
  obtain ⟨variant, -, rfl⟩ := mem_map.mp h
  exact maxAlign_pos

theorem placeVariant_eq {variant : PendingEnumVariant}
    (hpos : ∀ field ∈ variant.fields, 0 < field.layout.align) :
    placeVariant variant =
      if (exactVariant variant).payload.size < 2 ^ 64 then some (exactVariant variant) else none := by
  unfold placeVariant placeEnumFields
  rw [placeFields_eq hpos]
  show _ = if (exactLayout PendingEnumFieldLayout.layout variant.fields).size < 2 ^ 64 then _ else _
  split <;> rfl

/-- The variants are placed exactly when every payload is in range. -/
theorem mapM_placeVariant (hpos : ∀ variant ∈ variants, ∀ field ∈ variant.fields, 0 < field.layout.align) :
    variants.mapM placeVariant =
      if ∀ payload ∈ exactPayloads variants, payload.size < 2 ^ 64 then some (variants.map exactVariant)
      else none := by
  induction variants with
  | nil => rfl
  | cons variant variants ih =>
    have hrest := ih fun v hv => hpos v (mem_cons_of_mem _ hv)
    rw [mapM_cons, placeVariant_eq (hpos variant mem_cons_self), hrest]
    have hcons : (∀ payload ∈ exactPayloads (variant :: variants), payload.size < 2 ^ 64) ↔
        (exactVariant variant).payload.size < 2 ^ 64 ∧
          ∀ payload ∈ exactPayloads variants, payload.size < 2 ^ 64 := forall_mem_cons
    by_cases hfirst : (exactVariant variant).payload.size < 2 ^ 64
    · by_cases hothers : ∀ payload ∈ exactPayloads variants, payload.size < 2 ^ 64
      · rw [if_pos hfirst, if_pos hothers, if_pos (hcons.mpr ⟨hfirst, hothers⟩)]
        rfl
      · rw [if_pos hfirst, if_neg hothers, if_neg fun h => hothers (hcons.mp h).2]
        rfl
    · rw [if_neg hfirst, if_neg fun h => hfirst (hcons.mp h).1]
      rfl

/-- A payload that is out of range takes the enum out of range. -/
theorem payload_le_exactEnum {payload : TypeLayout} (h : payload ∈ exactPayloads variants)
    (hlarge : 0 < payload.size) : payload.size ≤ (exactEnum tag variants).layout.size := by
  obtain ⟨variant, hvariant, rfl⟩ := mem_map.mp h
  have hhas : hasPayload variants = true := by
    refine any_eq_true.mpr ⟨variant, hvariant, ?_⟩
    cases hfields : variant.fields with
    | nil => simp [exactVariant, exactLayout, hfields, paddedSize, endFrom, alignUp] at hlarge
    | cons field fields => rfl
  have hsize := le_payloadSize h
  have hpadded : payloadStart tag (exactPayloads variants) + payloadSize (exactPayloads variants) ≤
      (exactTagged tag (exactPayloads variants)).size := le_alignUp
  simp only [exactEnum, hhas, if_true]
  omega

theorem placeEnum_eq (htag : tag.size < 2 ^ 64)
    (hpos : ∀ variant ∈ variants, ∀ field ∈ variant.fields, 0 < field.layout.align) :
    placeEnum tag variants =
      if (exactEnum tag variants).layout.size < 2 ^ 64 then some (exactEnum tag variants) else none := by
  have hhas : ((variants.map exactVariant).any fun variant => !variant.fields.isEmpty) =
      hasPayload variants := by
    rw [any_map]
    refine congrArg variants.any (funext fun variant => congrArg (!·) ?_)
    exact exactFields_isEmpty _ (fun field offset => (⟨field.defId, offset, field.layout⟩ : EnumFieldLayout))
      0 variant.fields
  have hpayloads : (variants.map exactVariant).map (·.payload) = exactPayloads variants := by
    rw [map_map]
    rfl
  have hstart : alignTo tag.size (payloadAlign (exactPayloads variants)) =
      inU64 (payloadStart tag (exactPayloads variants)) :=
    alignTo_eq (payloadAlign_pos exactPayload_pos) htag
  unfold placeEnum
  rw [mapM_placeVariant hpos]
  by_cases hsmall : ∀ payload ∈ exactPayloads variants, payload.size < 2 ^ 64
  · rw [if_pos hsmall]
    simp only [Option.bind_eq_bind, Option.bind_some, enumAround, hhas, hpayloads, hstart,
      taggedUnionLayoutWithTag_eq htag exactPayload_pos]
    cases hpayload : hasPayload variants with
    | false =>
      simp only [exactEnum, hpayload, Bool.false_eq_true, if_false, htag, if_true]
      rfl
    | true =>
      have hle : payloadStart tag (exactPayloads variants) ≤
          (exactTagged tag (exactPayloads variants)).size :=
        (Nat.le_add_right _ _).trans le_alignUp
      simp only [exactEnum, hpayload, if_true]
      by_cases hsize : (exactTagged tag (exactPayloads variants)).size < 2 ^ 64
      · rw [if_pos hsize, if_pos hsize, inU64, if_pos (by omega)]
        rfl
      · rw [if_neg hsize, if_neg hsize]
        rfl
  · rw [if_neg hsmall]
    simp only [not_forall] at hsmall
    obtain ⟨payload, hpayload, hlarge⟩ := hsmall
    have hle : payload.size ≤ (exactEnum tag variants).layout.size :=
      payload_le_exactEnum hpayload (by omega)
    rw [if_neg (by omega)]
    rfl

end

/-! ### What a placement satisfies -/

/-- Fields at their offsets inside a layout. -/
structure Placed (layout : TypeLayout) (fields : List (Nat × TypeLayout)) : Prop where
  aligned : ∀ field ∈ fields, field.2.align ∣ field.1 ∧ field.2.align ∣ layout.align
  disjoint : fields.Pairwise fun a b => a.1 + a.2.size ≤ b.1 ∨ b.1 + b.2.size ≤ a.1
  inside : ∀ field ∈ fields, field.1 + field.2.size ≤ layout.size
  powerOfTwo : ∃ k, layout.align = 2 ^ k
  padded : layout.align ∣ layout.size

/-- Powers of two divide the ones that are not smaller. -/
theorem powerOfTwo_dvd {a b : Nat} (ha : ∃ k, a = 2 ^ k) (hb : ∃ k, b = 2 ^ k) (hle : a ≤ b) : a ∣ b := by
  obtain ⟨j, rfl⟩ := ha
  obtain ⟨k, rfl⟩ := hb
  exact Nat.pow_dvd_pow 2 ((Nat.pow_le_pow_iff_right (by norm_num)).mp hle)

namespace TypeLayout.WellFormed

variable {layout other : TypeLayout}

theorem align_pos (h : layout.WellFormed) : 0 < layout.align := by
  obtain ⟨k, hk⟩ := h.powerOfTwo
  rw [hk]
  positivity

theorem align_dvd (h : layout.WellFormed) (hother : ∃ k, other.align = 2 ^ k)
    (hle : layout.align ≤ other.align) : layout.align ∣ other.align :=
  powerOfTwo_dvd h.powerOfTwo hother hle

end TypeLayout.WellFormed

section

variable {α β : Type} {layout : α → TypeLayout} {place : α → Nat → β} {fields : List α}

theorem exactLayout_powerOfTwo (h : ∀ f ∈ fields, (layout f).WellFormed) :
    ∃ k, (exactLayout layout fields).align = 2 ^ k := by
  obtain hone | ⟨f, hf, hmax⟩ := maxAlign_mem (fun f => (layout f).align) fields
  · exact ⟨0, hone⟩
  · obtain ⟨k, hk⟩ := (h f hf).powerOfTwo
    exact ⟨k, hmax.trans hk⟩

/-- The exact placement of well-formed fields. -/
theorem exact_placed (h : ∀ f ∈ fields, (layout f).WellFormed) :
    Placed (exactLayout layout fields)
      (exactFields layout (fun f offset => (offset, layout f)) 0 fields) := by
  have hpos : ∀ f ∈ fields, 0 < (layout f).align := fun f hf => (h f hf).align_pos
  have hmem {p : α × Nat}
      (hp : p ∈ placeFrom (fun f => (layout f).size) (fun f => (layout f).align) 0 fields) :
      p.1 ∈ fields := by
    have := mem_map_of_mem (f := Prod.fst) hp
    rwa [placeFrom_fst] at this
  refine ⟨?_, ?_, ?_, exactLayout_powerOfTwo h, maxAlign_dvd_paddedSize⟩
  · intro field hfield
    obtain ⟨p, hp, rfl⟩ := mem_map.mp hfield
    exact ⟨(placeFrom_spec hpos hp).1,
      (h p.1 (hmem hp)).align_dvd (exactLayout_powerOfTwo h) (le_maxAlign (fun f => (layout f).align) (hmem hp))⟩
  · have hordered : (placeFrom (fun f => (layout f).size) (fun f => (layout f).align) 0 fields).Pairwise
        fun p q => p.2 + (layout p.1).size ≤ q.2 :=
      placeFrom_pairwise (fun f => (layout f).size) hpos
    exact pairwise_map.mpr (hordered.imp fun hle => Or.inl hle)
  · intro field hfield
    obtain ⟨p, hp, rfl⟩ := mem_map.mp hfield
    exact (placeFrom_spec hpos hp).2.2.trans endFrom_le_paddedSize

/-- Placed fields are the given ones, in their order. -/
theorem exactFields_map {γ : Type} (layout : α → TypeLayout) (place : α → Nat → β) (start : Nat)
    (fields : List α) {f : β → γ} {g : α → γ} (hplace : ∀ a offset, f (place a offset) = g a) :
    (exactFields layout place start fields).map f = fields.map g := by
  unfold exactFields
  rw [map_map]
  have hfst : (placeFrom (fun f => (layout f).size) (fun f => (layout f).align) start fields).map
      Prod.fst = fields := placeFrom_fst start fields
  conv_rhs => rw [← hfst, map_map]
  exact map_congr_left fun p _ => hplace p.1 p.2

end

variable {tag : TypeLayout}

/-- Fields of a part are fields of the whole. -/
theorem Placed.within {whole part : TypeLayout} {offset : Nat} {fields : List (Nat × TypeLayout)}
    (hbehind : tag.size ≤ offset) (houter : Placed whole [(0, tag), (offset, part)]) (hinner : Placed part fields) :
    Placed whole ((0, tag) :: fields.map fun field => (offset + field.1, field.2)) := by
  obtain ⟨hoffset, hpart⟩ := houter.aligned (offset, part) (mem_cons_of_mem _ mem_cons_self)
  have hend := houter.inside (offset, part) (mem_cons_of_mem _ mem_cons_self)
  refine ⟨?_, ?_, ?_, houter.powerOfTwo, houter.padded⟩
  · intro field hfield
    rcases mem_cons.mp hfield with rfl | hfield
    · exact houter.aligned (0, tag) mem_cons_self
    · obtain ⟨inner, hmem, rfl⟩ := mem_map.mp hfield
      obtain ⟨haligned, hdvd⟩ := hinner.aligned inner hmem
      exact ⟨dvd_add (hdvd.trans hoffset) haligned, hdvd.trans hpart⟩
  · refine pairwise_cons.mpr ⟨fun field hfield => .inl ?_, pairwise_map.mpr ?_⟩
    · obtain ⟨inner, hmem, rfl⟩ := mem_map.mp hfield
      simp only
      omega
    · refine hinner.disjoint.imp fun hdisjoint => ?_
      simp only
      omega
  · intro field hfield
    rcases mem_cons.mp hfield with rfl | hfield
    · exact houter.inside (0, tag) mem_cons_self
    · obtain ⟨inner, hmem, rfl⟩ := mem_map.mp hfield
      have hinside := hinner.inside inner hmem
      simp only at hend ⊢
      omega

variable {payloads : List TypeLayout}

theorem exactTagged_powerOfTwo (htag : tag.WellFormed) (hpayloads : ∀ payload ∈ payloads, ∃ k, payload.align = 2 ^ k) :
    (∃ k, payloadAlign payloads = 2 ^ k) ∧ ∃ k, (exactTagged tag payloads).align = 2 ^ k := by
  have hpayload : ∃ k, payloadAlign payloads = 2 ^ k := by
    obtain ⟨-, h⟩ | ⟨payload, hmem, h, -⟩ := payloadAlign_cases payloads
    · exact ⟨0, h⟩
    · exact h ▸ hpayloads payload hmem
  refine ⟨hpayload, ?_⟩
  rcases max_choice tag.align (payloadAlign payloads) with h | h
  · exact htag.powerOfTwo.imp fun k hk => h.trans hk
  · exact hpayload.imp fun k hk => h.trans hk

theorem exactTagged_tag_placed (htag : tag.WellFormed) (hpayloads : ∀ payload ∈ payloads, ∃ k, payload.align = 2 ^ k) :
    Placed (exactTagged tag payloads) [(0, tag)] := by
  obtain ⟨-, hpower⟩ := exactTagged_powerOfTwo htag hpayloads
  have hpos : 0 < (exactTagged tag payloads).align := lt_of_lt_of_le htag.align_pos (le_max_left _ _)
  have hstart : tag.size ≤ payloadStart tag payloads := le_alignUp
  have hend : payloadStart tag payloads + payloadSize payloads ≤ (exactTagged tag payloads).size :=
    le_alignUp
  refine ⟨?_, pairwise_singleton _ _, ?_, hpower, dvd_alignUp hpos⟩
  · intro field hfield
    obtain rfl := mem_singleton.mp hfield
    exact ⟨dvd_zero _, htag.align_dvd hpower (le_max_left _ _)⟩
  · intro field hfield
    obtain rfl := mem_singleton.mp hfield
    simp only
    omega

/-- The tag and each of the payloads in the exact layout. -/
theorem exactTagged_placed {payload : TypeLayout}
    (htag : tag.WellFormed) (hpayloads : ∀ payload ∈ payloads, ∃ k, payload.align = 2 ^ k) (h : payload ∈ payloads) :
    Placed (exactTagged tag payloads) [(0, tag), (payloadStart tag payloads, payload)] := by
  obtain ⟨hpayloadPower, hpower⟩ := exactTagged_powerOfTwo htag hpayloads
  have hle : payload.align ≤ payloadAlign payloads := by
    obtain ⟨hnil, -⟩ | ⟨largest, -, heq, hlargest⟩ := payloadAlign_cases payloads
    · rw [hnil] at h
      cases h
    · rw [heq]
      exact hlargest payload h
  have hpayloadPos : 0 < payloadAlign payloads := by
    obtain ⟨k, hk⟩ := hpayloadPower
    rw [hk]
    positivity
  have htagPlaced := exactTagged_tag_placed htag hpayloads
  have hstart : tag.size ≤ payloadStart tag payloads := le_alignUp
  have hend : payloadStart tag payloads + payloadSize payloads ≤ (exactTagged tag payloads).size :=
    le_alignUp
  have hsize := le_payloadSize h
  refine ⟨?_, ?_, ?_, hpower, htagPlaced.padded⟩
  · intro field hfield
    rcases mem_cons.mp hfield with rfl | hfield
    · exact htagPlaced.aligned _ mem_cons_self
    · obtain rfl := mem_singleton.mp hfield
      have hstartDvd : payloadAlign payloads ∣ payloadStart tag payloads := dvd_alignUp hpayloadPos
      exact ⟨(powerOfTwo_dvd (hpayloads payload h) hpayloadPower hle).trans hstartDvd,
        powerOfTwo_dvd (hpayloads payload h) hpower (hle.trans (le_max_right _ _))⟩
  · refine pairwise_cons.mpr ⟨fun field hfield => .inl ?_, pairwise_singleton _ _⟩
    obtain rfl := mem_singleton.mp hfield
    simp only
    omega
  · intro field hfield
    rcases mem_cons.mp hfield with rfl | hfield
    · exact htagPlaced.inside _ mem_cons_self
    · obtain rfl := mem_singleton.mp hfield
      simp only
      omega

/-! ### Main results -/

/-- A result with an exact counterpart is missing exactly when that is out of range. -/
theorem exact_cases {γ : Type} {code : Option γ} {size : Nat} {value : γ}
    (h : code = if size < 2 ^ 64 then some value else none) :
    (code = none ↔ 2 ^ 64 ≤ size) ∧ ∀ x, code = some x → x = value ∧ size < 2 ^ 64 := by
  rw [h]
  split
  · next hlt => exact ⟨by simpa using hlt, fun x hx => ⟨(Option.some.inj hx).symm, hlt⟩⟩
  · next hge => exact ⟨by simpa using hge, fun x hx => nomatch hx⟩

variable {fields : List PendingFieldLayout}

/-- Fields in a given order. -/
theorem placeStructFields_exact (hfields : ∀ field ∈ fields, field.layout.WellFormed) :
    (placeStructFields fields = none ↔ 2 ^ 64 ≤ (exactLayout (·.layout) fields).size) ∧
      ∀ s, placeStructFields fields = some s → s.layout = exactLayout (·.layout) fields ∧
        s.fields.map (fun f => (f.defId, f.layout)) = fields.map (fun f => (f.defId, f.layout)) ∧
          Placed s.layout (s.fields.map fun f => (f.offset, f.layout)) := by
  have hcode : placeStructFields fields =
      if (exactLayout (·.layout) fields).size < 2 ^ 64 then
        some ⟨exactLayout (·.layout) fields, exactFields (·.layout)
          (fun field offset => ⟨field.defId, offset, field.layout⟩) 0 fields⟩
      else none := by
    unfold placeStructFields
    rw [placeFields_eq fun field hfield => (hfields field hfield).align_pos]
    split <;> rfl
  obtain ⟨hnone, hsome⟩ := exact_cases hcode
  refine ⟨hnone, fun s hs => ?_⟩
  obtain ⟨rfl, -⟩ := hsome s hs
  refine ⟨rfl, ?_, ?_⟩
  · exact exactFields_map PendingFieldLayout.layout
      (fun field offset => (⟨field.defId, offset, field.layout⟩ : FieldLayout)) 0 fields fun _ _ => rfl
  have hplaced := exact_placed hfields
  simp only [exactFields, map_map] at hplaced ⊢
  exact hplaced

instance : IsTrans PendingFieldLayout PendingFieldLayout.Before where
  trans a b c := by
    unfold PendingFieldLayout.Before
    omega

instance : Std.Total PendingFieldLayout.Before where
  total a b := by
    unfold PendingFieldLayout.Before
    omega

/-- Sorted fields leave no gaps. -/
theorem sortFields_packed (hfields : ∀ field ∈ fields, field.layout.WellFormed) :
    exactLayout (·.layout) (sortFields fields) =
      ⟨alignUp (fields.map (·.layout.size)).sum (maxAlign (·.layout.align) fields),
        maxAlign (·.layout.align) fields⟩ := by
  have hperm : (sortFields fields).Perm fields := perm_insertionSort _ fields
  have hsorted : ∀ field ∈ sortFields fields, field.layout.WellFormed := fun field hfield =>
    hfields field (hperm.mem_iff.mp hfield)
  have horder : (sortFields fields).Pairwise fun a b => b.layout.align ∣ a.layout.align := by
    have hbefore := pairwise_insertionSort PendingFieldLayout.Before fields
    refine hbefore.imp_of_mem fun ha hb h => ?_
    refine (hsorted _ hb).align_dvd (hsorted _ ha).powerOfTwo ?_
    unfold PendingFieldLayout.Before at h
    omega
  have hpacked := endFrom_packed (fun field hfield => (hsorted field hfield).dvd)
    (fun field _ => dvd_zero _) horder
  unfold exactLayout paddedSize
  rw [hpacked, Nat.zero_add, (hperm.map _).sum_eq, maxAlign_perm hperm]

/-- Fields in the order of the compiler. -/
theorem sortedFieldLayout_exact (hfields : ∀ field ∈ fields, field.layout.WellFormed) :
    (sortedFieldLayout fields = none ↔ 2 ^ 64 ≤ alignUp (fields.map (·.layout.size)).sum
        (maxAlign (·.layout.align) fields)) ∧
      (∀ s, sortedFieldLayout fields = some s →
        (s.fields.map fun f => (f.defId, f.layout)).Perm (fields.map fun f => (f.defId, f.layout)) ∧
          Placed s.layout (s.fields.map fun f => (f.offset, f.layout)) ∧
          s.layout = ⟨alignUp (fields.map (·.layout.size)).sum (maxAlign (·.layout.align) fields),
            maxAlign (·.layout.align) fields⟩) ∧
      ∀ order t, order.Perm fields → placeStructFields order = some t →
        ∃ s, sortedFieldLayout fields = some s ∧ s.layout.size ≤ t.layout.size := by
  have hperm : (sortFields fields).Perm fields := perm_insertionSort _ fields
  have hpacked := sortFields_packed hfields
  obtain ⟨hnone, hsome⟩ := placeStructFields_exact fun field hfield =>
    hfields field (hperm.mem_iff.mp hfield)
  rw [hpacked] at hnone
  refine ⟨hnone, fun s hs => ?_, fun order t horder ht => ?_⟩
  · obtain ⟨hlayout, hids, hplaced⟩ := hsome s hs
    rw [hpacked] at hlayout
    exact ⟨hids ▸ hperm.map _, hplaced, hlayout⟩
  · obtain ⟨hordered, hexact⟩ := placeStructFields_exact fun field hfield =>
      hfields field (horder.mem_iff.mp hfield)
    have hleast : alignUp (fields.map (·.layout.size)).sum (maxAlign (·.layout.align) fields) ≤
        t.layout.size := by
      rw [(hexact t ht).1, ← (horder.map _).sum_eq, ← maxAlign_perm horder]
      exact sum_le_paddedSize order
    cases hs : sortedFieldLayout fields with
    | none =>
      have hlt : ¬ 2 ^ 64 ≤ (exactLayout (·.layout) order).size := fun hge => by
        rw [hordered.mpr hge] at ht
        cases ht
      rw [(hexact t ht).1] at hleast
      exact absurd ((hnone.mp hs).trans hleast) hlt
    | some s =>
      refine ⟨s, rfl, ?_⟩
      rw [(hsome s hs).1, hpacked]
      exact hleast

theorem sequentialLayout_exact {elems : List TypeLayout} (helems : ∀ elem ∈ elems, elem.WellFormed) :
    (sequentialLayout elems = none ↔ 2 ^ 64 ≤ (exactLayout id elems).size) ∧
      ∀ layout, sequentialLayout elems = some layout →
        ∃ placed, placed.map Prod.snd = elems ∧ Placed layout placed := by
  have hcode : sequentialLayout elems =
      if (exactLayout id elems).size < 2 ^ 64 then some (exactLayout id elems) else none := by
    have hpos : ∀ elem ∈ elems, 0 < (id elem).align := fun elem helem => (helems elem helem).align_pos
    rw [sequentialLayout_eq_placeFields (fun elem offset => (offset, elem)), placeFields_eq hpos]
    split <;> rfl
  obtain ⟨hnone, hsome⟩ := exact_cases hcode
  refine ⟨hnone, fun layout hlayout => ?_⟩
  obtain ⟨rfl, -⟩ := hsome layout hlayout
  refine ⟨exactFields id (fun elem offset => (offset, elem)) 0 elems, ?_, exact_placed helems⟩
  rw [exactFields_map id (fun elem offset => (offset, elem)) 0 elems (g := id) fun _ _ => rfl, map_id]

theorem taggedUnionLayoutWithTag_exact (htag : tag.WellFormed) (hpayloads : ∀ payload ∈ payloads, payload.WellFormed) :
    (taggedUnionLayoutWithTag tag payloads = none ↔ 2 ^ 64 ≤ (exactTagged tag payloads).size) ∧
      ∀ layout, taggedUnionLayoutWithTag tag payloads = some layout →
        ∃ offset, alignTo tag.size (payloadAlign payloads) = some offset ∧
          ∀ payload ∈ payloads, Placed layout [(0, tag), (offset, payload)] := by
  have hpos : ∀ payload ∈ payloads, 0 < payload.align := fun payload h => (hpayloads payload h).align_pos
  obtain ⟨hnone, hsome⟩ := exact_cases (taggedUnionLayoutWithTag_eq htag.size_lt hpos)
  refine ⟨hnone, fun layout hlayout => ?_⟩
  obtain ⟨rfl, hlt⟩ := hsome layout hlayout
  have hle : payloadStart tag payloads ≤ (exactTagged tag payloads).size :=
    (Nat.le_add_right _ _).trans le_alignUp
  have hstart : alignTo tag.size (payloadAlign payloads) = inU64 (payloadStart tag payloads) :=
    alignTo_eq (payloadAlign_pos hpos) htag.size_lt
  refine ⟨payloadStart tag payloads, hstart.trans (if_pos (by omega)), fun payload h => ?_⟩
  exact exactTagged_placed htag (fun p hp => (hpayloads p hp).powerOfTwo) h

theorem placeEnum_exact (htag : tag.WellFormed) {variants : List PendingEnumVariant}
    (hvariants : ∀ variant ∈ variants, ∀ field ∈ variant.fields, field.layout.WellFormed) :
    (placeEnum tag variants = none ↔ 2 ^ 64 ≤ (exactEnum tag variants).layout.size) ∧
      ∀ e, placeEnum tag variants = some e →
        e.tag = tag ∧ Placed e.layout [(0, tag)] ∧
          e.variants.map (fun v => (v.defId, v.fields.map fun f => (f.defId, f.layout))) =
            variants.map (fun v => (v.defId, v.fields.map fun f => (f.defId, f.layout))) ∧
          ∀ v ∈ e.variants, Placed v.payload (v.fields.map fun f => (f.offset, f.layout)) ∧
            (v.fields ≠ [] → ∃ offset, e.payloadOffset = some offset ∧
              Placed e.layout [(0, tag), (offset, v.payload)] ∧
              Placed e.layout ((0, tag) :: v.fields.map fun f => (offset + f.offset, f.layout))) := by
  have hpos : ∀ variant ∈ variants, ∀ field ∈ variant.fields, 0 < field.layout.align :=
    fun variant hvariant field hfield => (hvariants variant hvariant field hfield).align_pos
  have hpower : ∀ payload ∈ exactPayloads variants, ∃ k, payload.align = 2 ^ k := by
    intro payload hpayload
    obtain ⟨variant, hvariant, rfl⟩ := mem_map.mp hpayload
    exact exactLayout_powerOfTwo (hvariants variant hvariant)
  obtain ⟨hnone, hsome⟩ := exact_cases (placeEnum_eq htag.size_lt hpos)
  refine ⟨hnone, fun e he => ?_⟩
  obtain ⟨rfl, -⟩ := hsome e he
  have hinner {variant : PendingEnumVariant} (hvariant : variant ∈ variants) :
      Placed (exactVariant variant).payload
        ((exactVariant variant).fields.map fun f => (f.offset, f.layout)) := by
    have hplaced := exact_placed (hvariants variant hvariant)
    simp only [exactVariant, exactFields, map_map] at hplaced ⊢
    exact hplaced
  refine ⟨rfl, ?_, ?_, fun v hv => ?_⟩
  · simp only [exactEnum]
    split
    · exact exactTagged_tag_placed htag hpower
    · refine ⟨?_, pairwise_singleton _ _, ?_, htag.powerOfTwo, htag.dvd⟩
      · intro field hfield
        obtain rfl := mem_singleton.mp hfield
        exact ⟨dvd_zero _, dvd_refl _⟩
      · intro field hfield
        obtain rfl := mem_singleton.mp hfield
        simp
  · simp only [exactEnum, map_map]
    refine map_congr_left fun variant _ => Prod.ext rfl ?_
    exact exactFields_map PendingEnumFieldLayout.layout
      (fun field offset => (⟨field.defId, offset, field.layout⟩ : EnumFieldLayout)) 0 variant.fields
      fun _ _ => rfl
  · obtain ⟨variant, hvariant, rfl⟩ := mem_map.mp hv
    refine ⟨hinner hvariant, fun hfields => ?_⟩
    have hhas : hasPayload variants = true := by
      refine any_eq_true.mpr ⟨variant, hvariant, ?_⟩
      cases hnil : variant.fields with
      | nil => simp [exactVariant, exactFields, hnil, placeFrom] at hfields
      | cons field fields => rfl
    have houter := exactTagged_placed htag hpower
      (mem_map_of_mem (f := fun v => (exactVariant v).payload) hvariant)
    have hbehind : tag.size ≤ payloadStart tag (exactPayloads variants) := le_alignUp
    refine ⟨payloadStart tag (exactPayloads variants), by simp [exactEnum, hhas], ?_, ?_⟩
    · simpa [exactEnum, hhas] using houter
    · have hwithin := Placed.within hbehind houter (hinner hvariant)
      simpa [exactEnum, hhas, map_map, Function.comp_def] using hwithin

/-- **Aggregates are placed exactly.** -/
theorem aggregate_layout_exact {fields : List PendingFieldLayout}
    (hfields : ∀ field ∈ fields, field.layout.WellFormed) {tag : TypeLayout} (htag : tag.WellFormed)
    {payloads : List TypeLayout} (hpayloads : ∀ payload ∈ payloads, payload.WellFormed)
    {variants : List PendingEnumVariant}
    (hvariants : ∀ variant ∈ variants, ∀ field ∈ variant.fields, field.layout.WellFormed) :
    ((placeStructFields fields = none ↔ 2 ^ 64 ≤ (exactLayout (·.layout) fields).size) ∧
      ∀ s, placeStructFields fields = some s →
        s.fields.map (fun f => (f.defId, f.layout)) = fields.map (fun f => (f.defId, f.layout)) ∧
          Placed s.layout (s.fields.map fun f => (f.offset, f.layout))) ∧
    ((sortedFieldLayout fields = none ↔ 2 ^ 64 ≤ alignUp (fields.map (·.layout.size)).sum
        (maxAlign (·.layout.align) fields)) ∧
      (∀ s, sortedFieldLayout fields = some s →
        (s.fields.map fun f => (f.defId, f.layout)).Perm (fields.map fun f => (f.defId, f.layout)) ∧
          Placed s.layout (s.fields.map fun f => (f.offset, f.layout)) ∧
          s.layout = ⟨alignUp (fields.map (·.layout.size)).sum (maxAlign (·.layout.align) fields),
            maxAlign (·.layout.align) fields⟩) ∧
      ∀ order t, order.Perm fields → placeStructFields order = some t →
        ∃ s, sortedFieldLayout fields = some s ∧ s.layout.size ≤ t.layout.size) ∧
    ((sequentialLayout payloads = none ↔ 2 ^ 64 ≤ (exactLayout id payloads).size) ∧
      ∀ layout, sequentialLayout payloads = some layout →
        ∃ placed, placed.map Prod.snd = payloads ∧ Placed layout placed) ∧
    ((taggedUnionLayoutWithTag tag payloads = none ↔ 2 ^ 64 ≤ (exactTagged tag payloads).size) ∧
      ∀ layout, taggedUnionLayoutWithTag tag payloads = some layout →
        ∃ offset, alignTo tag.size (payloadAlign payloads) = some offset ∧
          ∀ payload ∈ payloads, Placed layout [(0, tag), (offset, payload)]) ∧
    ((placeEnum tag variants = none ↔ 2 ^ 64 ≤ (exactEnum tag variants).layout.size) ∧
      ∀ e, placeEnum tag variants = some e →
        e.tag = tag ∧ Placed e.layout [(0, tag)] ∧
          e.variants.map (fun v => (v.defId, v.fields.map fun f => (f.defId, f.layout))) =
            variants.map (fun v => (v.defId, v.fields.map fun f => (f.defId, f.layout))) ∧
          ∀ v ∈ e.variants, Placed v.payload (v.fields.map fun f => (f.offset, f.layout)) ∧
            (v.fields ≠ [] → ∃ offset, e.payloadOffset = some offset ∧
              Placed e.layout [(0, tag), (offset, v.payload)] ∧
              Placed e.layout ((0, tag) :: v.fields.map fun f => (offset + f.offset, f.layout)))) := by
  obtain ⟨hnone, hplaced⟩ := placeStructFields_exact hfields
  exact ⟨⟨hnone, fun s hs => (hplaced s hs).2⟩, sortedFieldLayout_exact hfields,
    sequentialLayout_exact hpayloads, taggedUnionLayoutWithTag_exact htag hpayloads,
    placeEnum_exact htag hvariants⟩

/-- A byte that stands before a word is placed behind it. -/
theorem aggregate_layout_exact_word :
    sortedFieldLayout [⟨1, 0, ⟨1, 1⟩⟩, ⟨2, 1, ⟨8, 8⟩⟩] =
        some ⟨⟨16, 8⟩, [⟨2, 0, ⟨8, 8⟩⟩, ⟨1, 8, ⟨1, 1⟩⟩]⟩ ∧
      ∃ s, sortedFieldLayout [⟨1, 0, ⟨1, 1⟩⟩, ⟨2, 1, ⟨8, 8⟩⟩] = some s ∧
        Placed s.layout (s.fields.map fun f => (f.offset, f.layout)) := by
  have hbyte : (⟨1, 1⟩ : TypeLayout).WellFormed := ⟨⟨0, rfl⟩, by decide, by decide⟩
  have hword : (⟨8, 8⟩ : TypeLayout).WellFormed := ⟨⟨3, rfl⟩, by decide, by decide⟩
  have hfields : ∀ field ∈ [(⟨1, 0, ⟨1, 1⟩⟩ : PendingFieldLayout), ⟨2, 1, ⟨8, 8⟩⟩],
      field.layout.WellFormed := by
    simp [hbyte, hword]
  have hpayloads : ∀ payload ∈ [(⟨1, 1⟩ : TypeLayout), ⟨8, 8⟩], payload.WellFormed := by
    simp [hbyte, hword]
  have hvariants : ∀ variant ∈ [(⟨3, [⟨none, ⟨1, 1⟩⟩, ⟨none, ⟨8, 8⟩⟩]⟩ : PendingEnumVariant), ⟨4, []⟩],
      ∀ field ∈ variant.fields, field.layout.WellFormed := by
    simp [hbyte, hword]
  have hsorted : sortedFieldLayout [⟨1, 0, ⟨1, 1⟩⟩, ⟨2, 1, ⟨8, 8⟩⟩] =
      some ⟨⟨16, 8⟩, [⟨2, 0, ⟨8, 8⟩⟩, ⟨1, 8, ⟨1, 1⟩⟩]⟩ := by decide
  obtain ⟨-, ⟨-, hplaced, -⟩, -⟩ := aggregate_layout_exact hfields hbyte hpayloads hvariants
  exact ⟨hsorted, _, hsorted, (hplaced _ hsorted).2.1⟩

end Nia.Layout
