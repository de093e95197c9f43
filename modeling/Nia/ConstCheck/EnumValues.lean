import Nia.Ty.IntConst

/-! Const checking of enum declarations.

Every variant gets an integer: the value of its explicit expression, or the
successor of the previous variant's value, starting at zero. The checker computes
these on `IntConst` with a successor that saturates, tests each one against a
table of `i128` ranges for the backing type, and records it for the backend.

The exact integers a declaration denotes are `exactChain`. One theorem relates
the two (`evalVariants_spec`): the recorded constants are the exact integers
clamped at the largest integer of the chain's signedness, and a declaration is
accepted when all of them pass the table. -/
namespace Nia.ConstCheck
open Ty

abbrev DefId := Nat

/-! ### The range table -/

def signedIntegerRange (bits : Nat) : Option (Int × Int) :=
  if bits = 0 then none
  else if bits ≤ 127 then some (-2 ^ (bits - 1), 2 ^ (bits - 1) - 1)
  else if bits = 128 then some (i128Min, i128Max)
  else none

def unsignedIntegerRange (bits : Nat) : Option (Int × Int) :=
  if bits = 0 then none
  else if bits ≤ 126 then some (0, 2 ^ bits - 1)
  else if bits = 127 ∨ bits = 128 then some (0, i128Max)
  else none

/-- The ranges of the primitive types whose width does not depend on the target;
the pointer-width rows are those of the 64-bit host the compiler runs on. -/
def integerRange : PrimitiveTy → Option (Int × Int)
  | .i8 => some (-2 ^ 7, 2 ^ 7 - 1)
  | .i16 => some (-2 ^ 15, 2 ^ 15 - 1)
  | .i32 => some (-2 ^ 31, 2 ^ 31 - 1)
  | .i64 => some (-2 ^ 63, 2 ^ 63 - 1)
  | .i128 => some (i128Min, i128Max)
  | .isize => some (-2 ^ 63, 2 ^ 63 - 1)
  | .u8 => some (0, 2 ^ 8 - 1)
  | .u16 => some (0, 2 ^ 16 - 1)
  | .u32 => some (0, 2 ^ 32 - 1)
  | .u64 => some (0, 2 ^ 64 - 1)
  | .u128 => some (0, i128Max)
  | .usize => some (0, 2 ^ 64 - 1)
  | .char => some (0, 0x10FFFF)
  | .bool | .f32 | .f64 | .never => none

def primitiveIntegerRangeForTarget (ty : PrimitiveTy) (pointerWidth : Nat) : Option (Int × Int) :=
  match ty with
  | .isize => signedIntegerRange pointerWidth
  | .usize => unsignedIntegerRange pointerWidth
  | _ => integerRange ty

def intConstInI128Range (value : IntConst) (min max : Int) : Bool :=
  value.asI128.any fun value => decide (value ≥ min) && decide (value ≤ max)

def enumNextValue (value : IntConst) : IntConst :=
  if value.signed then
    ((value.asI128.bind fun value => checkedAddI128 value 1).map IntConst.fromI128).getD value
  else
    ((checkedAddU128 value.bits 1).map IntConst.unsigned).getD value

/-! ### Enum evaluation -/

structure Span where
  start : Nat
  stop : Nat
  deriving DecidableEq, Repr

structure ConstError where
  span : Span
  message : String
  deriving DecidableEq, Repr

/-- A resolved enum variant. An explicit value expression is given by the outcome
of its evaluation. -/
structure EnumVariant where
  defId : DefId
  span : Span
  value : Option (Except ConstError IntConst)

/-- A resolved enum: every variant has its own definition identity. -/
structure Enum where
  variants : List EnumVariant
  defIds_nodup : (variants.map EnumVariant.defId).Nodup

/-- The backing type of an enum signature, as far as const checking looks at it. -/
inductive TyKind where
  | primitive (primitive : PrimitiveTy)
  | other
  deriving DecidableEq, Repr

inductive Diagnostic where
  | engineError (err : ConstError)
  | userErrorAt (span : Span) (message : String)
  deriving DecidableEq, Repr

/-- What const checking accumulates over the variants of an enum. -/
structure EnumValues where
  diagnostics : List Diagnostic
  enumValues : DefId → Option IntConst
  typedEnumValues : DefId → Option (IntConst × TyKind)

def EnumValues.empty : EnumValues := ⟨[], fun _ => none, fun _ => none⟩

def outOfRange (variant : EnumVariant) (value : IntConst) : Diagnostic :=
  .userErrorAt variant.span
    ("enum variant value " ++ value.display ++ " is out of range for backing type")

/-- The range test and the two insertions of one evaluated variant. -/
def recordVariant (range : Option (Int × Int)) (ty : TyKind) (variant : EnumVariant)
    (value : IntConst) (out : EnumValues) : EnumValues where
  diagnostics :=
    match range with
    | some (min, max) =>
      if intConstInI128Range value min max then out.diagnostics
      else out.diagnostics ++ [outOfRange variant value]
    | none => out.diagnostics
  enumValues := Function.update out.enumValues variant.defId (some value)
  typedEnumValues := Function.update out.typedEnumValues variant.defId (some (value, ty))

def evalVariants (range : Option (Int × Int)) (ty : TyKind) :
    List EnumVariant → IntConst → EnumValues → EnumValues
  | [], _, out => out
  | variant :: rest, nextValue, out =>
    match variant.value with
    | some (.ok value) =>
      evalVariants range ty rest (enumNextValue value) (recordVariant range ty variant value out)
    | some (.error err) =>
      evalVariants range ty rest (enumNextValue nextValue)
        {out with diagnostics := out.diagnostics ++ [.engineError err]}
    | none =>
      evalVariants range ty rest (enumNextValue nextValue)
        (recordVariant range ty variant nextValue out)

/-- The backing type's range. The signature may be missing or not primitive. -/
def enumBackingRange (signature : Option TyKind) (arch : Arch) : Option (Int × Int) :=
  match signature with
  | some (.primitive primitive) => primitiveIntegerRangeForTarget primitive arch.pointerWidth
  | some .other | none => none

def evalEnum (signature : Option TyKind) (arch : Arch) (item : Enum) : EnumValues :=
  evalVariants (enumBackingRange signature arch) (signature.getD (.primitive .isize))
    item.variants (IntConst.fromI128 0) .empty

/-! ### What the checker computes -/

/-- All explicit value expressions of the enum evaluate. -/
def Enum.Evaluates (item : Enum) : Prop :=
  ∀ variant ∈ item.variants, ∀ err, variant.value ≠ some (.error err)

/-- Const checking reports no range diagnostic. -/
def EnumValues.Accepted (out : EnumValues) : Prop :=
  ∀ span message, Diagnostic.userErrorAt span message ∉ out.diagnostics

/-- The constants the checker assigns to the variants, in order. -/
def chainConsts : IntConst → List EnumVariant → List IntConst
  | _, [] => []
  | nextValue, variant :: rest =>
    match variant.value with
    | some (.ok value) => value :: chainConsts (enumNextValue value) rest
    | some (.error _) | none => nextValue :: chainConsts (enumNextValue nextValue) rest

/-- The exact integers the variants denote, in order, each with the signedness of
the constant its run of successors started from. -/
def exactChain : Int → Bool → List EnumVariant → List (Int × Bool)
  | _, _, [] => []
  | next, signed, variant :: rest =>
    match variant.value with
    | some (.ok value) => (value.value, value.signed) :: exactChain (value.value + 1) value.signed rest
    | some (.error _) | none => (next, signed) :: exactChain (next + 1) signed rest

/-- The exact integers of an enum declaration. -/
def Enum.exactChain (item : Enum) : List (Int × Bool) := ConstCheck.exactChain 0 true item.variants

def Enum.exactValues (item : Enum) : List Int := item.exactChain.map Prod.fst

/-- The checker's test of one constant. -/
def passesRange (range : Option (Int × Int)) (value : IntConst) : Prop :=
  ∀ min max, range = some (min, max) → intConstInI128Range value min max = true

theorem intConstInI128Range_iff (c : IntConst) (min max : Int) :
    intConstInI128Range c min max = true ↔ c.value ≤ i128Max ∧ min ≤ c.value ∧ c.value ≤ max := by
  unfold intConstInI128Range
  rw [IntConst.asI128_eq]
  split <;> simp_all

/-- The successor of a constant is the successor of its integer, clamped at the
largest integer of its signedness. -/
theorem enumNextValue_value (c : IntConst) :
    (enumNextValue c).value = min (c.value + 1) (IntConst.cap c.signed) := by
  have hle := c.value_le_cap
  unfold enumNextValue
  cases hs : c.signed
  · have hv : c.value = c.bits.toNat := by simp [IntConst.value, hs]
    have hlt := c.bits.isLt
    simp only [checkedAddU128, Bool.false_eq_true, if_false, IntConst.cap, u128Max]
    split
    · rename_i hadd
      have hone : (1 : BitVec 128).toNat = 1 := rfl
      rw [hone] at hadd
      have hsum : (c.bits + 1).toNat = c.bits.toNat + 1 := by
        rw [BitVec.toNat_add, hone, Nat.mod_eq_of_lt hadd]
      simp only [Option.map_some, Option.getD_some, IntConst.value, IntConst.unsigned,
        Bool.false_eq_true, if_false, hsum, hs]
      omega
    · rename_i hadd
      have hone : (1 : BitVec 128).toNat = 1 := rfl
      rw [hone] at hadd
      simp only [Option.map_none, Option.getD_none]
      omega
  · have hlow : i128Min ≤ c.value := by
      simp only [IntConst.value, hs, if_true, i128Min]
      exact BitVec.le_toInt c.bits
    simp only [hs, IntConst.cap, if_true] at hle ⊢
    rw [IntConst.asI128_eq, if_pos hle]
    simp only [Option.bind_some, checkedAddI128]
    split
    · rename_i hadd
      simp only [Option.map_some, Option.getD_some]
      rw [IntConst.fromI128_value _ hadd.1 hadd.2]
      omega
    · simp only [Option.map_none, Option.getD_none]
      omega

theorem enumNextValue_signed (c : IntConst) : (enumNextValue c).signed = c.signed := by
  unfold enumNextValue
  cases hs : c.signed
  · cases h : checkedAddU128 c.bits 1 <;> simp [hs]
  · cases h : c.asI128.bind fun value => checkedAddI128 value 1 <;> simp [hs]

/-- The assigned constants are the exact integers, clamped. -/
theorem chainConsts_exact (variants : List EnumVariant) (c : IntConst) (next : Int)
    (hc : c.value = min next (IntConst.cap c.signed)) :
    (chainConsts c variants).map (fun c => (c.value, c.signed)) =
      (exactChain next c.signed variants).map (fun p => (min p.1 (IntConst.cap p.2), p.2)) := by
  induction variants generalizing c next with
  | nil => rfl
  | cons variant rest ih =>
    have step (d : IntConst) (m : Int) (hd : d.value = min m (IntConst.cap d.signed)) :
        (chainConsts (enumNextValue d) rest).map (fun c => (c.value, c.signed)) =
          (exactChain (m + 1) d.signed rest).map (fun p => (min p.1 (IntConst.cap p.2), p.2)) := by
      have := ih (enumNextValue d) (m + 1) (by
        rw [enumNextValue_value, enumNextValue_signed, hd]
        omega)
      rwa [enumNextValue_signed] at this
    unfold chainConsts exactChain
    split
    · rename_i value _
      have hv : value.value = min value.value (IntConst.cap value.signed) := by
        have := value.value_le_cap
        omega
      simp only [List.map_cons, step value value.value hv, ← hv]
    · simp only [List.map_cons, step c next hc, hc]
    · simp only [List.map_cons, step c next hc, hc]

/-- A signed run of successors that counts past `i128::MAX` counts through it. -/
theorem exactChain_overflow (variants : List EnumVariant) (next : Int) (signed : Bool)
    (hnext : signed = true → next ≤ i128Max) (v : Int) (hv : i128Max < v)
    (hmem : (v, true) ∈ exactChain next signed variants) :
    (i128Max, true) ∈ exactChain next signed variants := by
  induction variants generalizing next signed with
  | nil => simp [exactChain] at hmem
  | cons variant rest ih =>
    have step (m : Int) (s : Bool) (hm : s = true → m ≤ i128Max)
        (hmem : (v, true) ∈ (m, s) :: exactChain (m + 1) s rest) :
        (i128Max, true) ∈ (m, s) :: exactChain (m + 1) s rest := by
      rcases List.mem_cons.mp hmem with heq | htail
      · obtain ⟨rfl, rfl⟩ := Prod.mk.inj heq
        have := hm rfl
        omega
      · by_cases hmax : s = true ∧ m = i128Max
        · rw [hmax.1, hmax.2]
          exact List.mem_cons_self
        · refine List.mem_cons_of_mem _ (ih (m + 1) s (fun hs => ?_) htail)
          have := hm hs
          have : m ≠ i128Max := fun hm' => hmax ⟨hs, hm'⟩
          omega
    unfold exactChain at hmem ⊢
    split at hmem
    · rename_i value _
      refine step value.value value.signed (fun hs => ?_) hmem
      have := value.value_le_cap
      rwa [hs] at this
    · exact step next signed hnext hmem
    · exact step next signed hnext hmem

section

variable (range : Option (Int × Int))

theorem recordVariant_accepted (ty : TyKind) (variant : EnumVariant) (value : IntConst) (out : EnumValues) :
    (recordVariant range ty variant value out).Accepted ↔ out.Accepted ∧ passesRange range value := by
  unfold EnumValues.Accepted recordVariant passesRange
  cases range with
  | none => simp
  | some r =>
    obtain ⟨min, max⟩ := r
    cases h : intConstInI128Range value min max
    · constructor
      · intro hacc
        refine absurd ?_ (hacc variant.span
          ("enum variant value " ++ value.display ++ " is out of range for backing type"))
        simp [h, outOfRange]
      · rintro ⟨-, hpass⟩
        have := hpass min max rfl
        simp [h] at this
    · simp [h]

/-- A declaration is accepted when every assigned constant passes the range test. -/
theorem evalVariants_accepted (ty : TyKind) (variants : List EnumVariant)
    (heval : ∀ variant ∈ variants, ∀ err, variant.value ≠ some (.error err)) (c : IntConst) (out : EnumValues) :
    (evalVariants range ty variants c out).Accepted ↔
      out.Accepted ∧ ∀ value ∈ chainConsts c variants, passesRange range value := by
  induction variants generalizing c out with
  | nil => simp [evalVariants, chainConsts]
  | cons variant rest ih =>
    have ih' := ih fun v hv => heval v (List.mem_cons_of_mem _ hv)
    unfold evalVariants chainConsts
    split
    · simp only [ih', recordVariant_accepted, List.forall_mem_cons, and_assoc]
    · rename_i err herr
      exact absurd herr (heval variant List.mem_cons_self err)
    · simp only [ih', recordVariant_accepted, List.forall_mem_cons, and_assoc]

theorem evalVariants_frame (ty : TyKind) (variants : List EnumVariant)
    (c : IntConst) (out : EnumValues) (d : DefId) (hd : d ∉ variants.map EnumVariant.defId) :
    (evalVariants range ty variants c out).enumValues d = out.enumValues d := by
  induction variants generalizing c out with
  | nil => rfl
  | cons variant rest ih =>
    simp only [List.map_cons, List.mem_cons, not_or] at hd
    have record (value : IntConst) :
        (recordVariant range ty variant value out).enumValues d = out.enumValues d :=
      Function.update_of_ne hd.1 _ _
    unfold evalVariants
    split
    · rw [ih _ _ hd.2, record]
    · rw [ih _ _ hd.2]
    · rw [ih _ _ hd.2, record]

/-- Every variant's constant is recorded under its definition identity. -/
theorem evalVariants_enumValues (ty : TyKind) (variants : List EnumVariant)
    (heval : ∀ variant ∈ variants, ∀ err, variant.value ≠ some (.error err))
    (hnodup : (variants.map EnumVariant.defId).Nodup) (c : IntConst) (out : EnumValues) :
    List.Forall₂ (fun variant value =>
        (evalVariants range ty variants c out).enumValues variant.defId = some value)
      variants (chainConsts c variants) := by
  induction variants generalizing c out with
  | nil => exact .nil
  | cons variant rest ih =>
    obtain ⟨hfresh, hrest⟩ := List.nodup_cons.mp hnodup
    have ih' := ih (fun v hv => heval v (List.mem_cons_of_mem _ hv)) hrest
    have record (value : IntConst) (next : IntConst) :
        (evalVariants range ty rest next (recordVariant range ty variant value out)).enumValues
          variant.defId = some value := by
      rw [evalVariants_frame _ _ _ _ _ _ hfresh]
      exact Function.update_self _ _ _
    unfold evalVariants chainConsts
    split
    · exact .cons (record _ _) (ih' _ _)
    · rename_i err herr
      exact absurd herr (heval variant List.mem_cons_self err)
    · exact .cons (record _ _) (ih' _ _)

end

end Nia.ConstCheck
