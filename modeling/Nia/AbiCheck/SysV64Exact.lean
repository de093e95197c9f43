import Nia.AbiCheck.SysV64

/-! Aggregates follow the System V convention when their first eightbyte is used.

The merged slots are the classes of the eightbytes. The part of an eightbyte with a class has that class and reaches as
far as the leaves do; it has at most eight bytes and an alignment that divides eight, so the second part stands at
eight wherever the parts are placed. -/
namespace Nia.AbiCheck

open List

/-! ### Leaves -/

theorem mem_scalar {pointerSize offset place : Nat} {ty : CType} {leaf scalar : Leaf}
    (hscalar : ∀ inner leaf, At pointerSize ty inner leaf ↔ inner = 0 ∧ leaf = scalar) :
    (place, leaf) ∈ [(offset, scalar)] ↔ ∃ inner, place = offset + inner ∧ At pointerSize ty inner leaf := by
  rw [mem_singleton, Prod.mk.injEq]
  constructor
  · rintro ⟨rfl, rfl⟩
    exact ⟨0, rfl, (hscalar _ _).mpr ⟨rfl, rfl⟩⟩
  · rintro ⟨inner, rfl, h⟩
    obtain ⟨rfl, rfl⟩ := (hscalar _ _).mp h
    exact ⟨rfl, rfl⟩

mutual

theorem mem_pushLeaves {pointerSize place : Nat} {leaf : Leaf} : ∀ (ty : CType) (offset : Nat),
    (place, leaf) ∈ pushLeaves pointerSize ty offset ↔ ∃ inner, place = offset + inner ∧ At pointerSize ty inner leaf
  | .int _ _, offset | .float, offset | .double, offset | .pointer, offset => by
    rw [pushLeaves]
    refine mem_scalar fun inner leaf => ⟨fun h => ?_, ?_⟩
    · cases h
      exact ⟨rfl, rfl⟩
    · rintro ⟨rfl, rfl⟩
      constructor
  | .array elem len, offset => by
    rw [pushLeaves, mem_flatMap]
    constructor
    · rintro ⟨index, hindex, hmem⟩
      obtain ⟨inner, rfl, h⟩ := (mem_pushLeaves elem _).mp hmem
      exact ⟨_, Nat.add_assoc .., .element (mem_range.mp hindex) h⟩
    · rintro ⟨inner, rfl, h⟩
      cases h with
      | @element _ _ index inner _ hindex h =>
        exact ⟨index, mem_range.mpr hindex, (mem_pushLeaves elem _).mpr ⟨inner, (Nat.add_assoc ..).symm, h⟩⟩
  | .aggregate size align fields, offset => by
    rw [pushLeaves, mem_pushFields fields offset]
    constructor
    · rintro ⟨fieldOffset, field, inner, hfield, rfl, h⟩
      exact ⟨_, Nat.add_assoc .., .field hfield h⟩
    · rintro ⟨inner, rfl, h⟩
      cases h with
      | field hfield h => exact ⟨_, _, _, hfield, (Nat.add_assoc ..).symm, h⟩

theorem mem_pushFields {pointerSize place : Nat} {leaf : Leaf} : ∀ (fields : List (Nat × CType)) (offset : Nat),
    (place, leaf) ∈ pushFields pointerSize fields offset ↔ ∃ fieldOffset field inner, (fieldOffset, field) ∈ fields ∧
      place = offset + fieldOffset + inner ∧ At pointerSize field inner leaf
  | [], offset => by simp [pushFields]
  | (fieldOffset, field) :: fields, offset => by
    rw [pushFields, mem_append, mem_pushLeaves field, mem_pushFields fields]
    constructor
    · rintro (⟨inner, hat, h⟩ | ⟨otherOffset, other, inner, hother, hat, h⟩)
      · exact ⟨fieldOffset, field, inner, mem_cons_self .., hat, h⟩
      · exact ⟨otherOffset, other, inner, mem_cons_of_mem _ hother, hat, h⟩
    · rintro ⟨otherOffset, other, inner, hother, hat, h⟩
      rcases mem_cons.mp hother with heq | hother
      · cases heq
        exact .inl ⟨inner, hat, h⟩
      · exact .inr ⟨otherOffset, other, inner, hother, hat, h⟩

end

/-- The flattened leaves are those of the type. -/
theorem mem_leaves {pointerSize size align offset : Nat} {fields : List (Nat × CType)} {leaf : Leaf} :
    (offset, leaf) ∈ leaves pointerSize fields ↔ At pointerSize (.aggregate size align fields) offset leaf := by
  have hflat := @mem_pushLeaves pointerSize offset leaf (.aggregate size align fields) 0
  rw [pushLeaves] at hflat
  rw [leaves, hflat]
  constructor
  · rintro ⟨inner, rfl, h⟩
    rwa [Nat.zero_add]
  · exact fun h => ⟨offset, (Nat.zero_add _).symm, h⟩

namespace SysV64

/-- Leaves inside a size, as the ones of an aggregate are. -/
def Fit (size : Nat) (L : List (Nat × Leaf)) : Prop := ∀ leaf ∈ L, leaf.1 + leaf.2.size 8 ≤ size ∧ leaf.2.IsC

theorem fit_of_inRange {size align : Nat} {fields : List (Nat × CType)}
    (h : (CType.aggregate size align fields).InRange) :
    Fit size (leaves pointerSize fields) :=
  fun leaf hleaf => h leaf.1 leaf.2 (mem_leaves.mp hleaf)

theorem Leaf.IsC.size_pos {leaf : Leaf} (h : leaf.IsC) : 0 < leaf.size 8 := by
  cases leaf with
  | int bytes =>
    simp only [Leaf.IsC, mem_cons, not_mem_nil, or_false] at h
    rw [Leaf.size]
    omega
  | float => decide
  | double => decide
  | pointer => decide

/-! ### Classes -/

theorem inside_iff {leaf : Nat × Leaf} (hpos : 0 < leaf.2.size 8) (index : Nat) :
    Inside leaf index ↔ leaf.1 < index * 8 + 8 ∧ index * 8 < leaf.1 + leaf.2.size pointerSize := by
  rw [Inside, show pointerSize = 8 from rfl]
  constructor
  · rintro ⟨byte, hlt, hle, rfl⟩
    omega
  · rintro ⟨hstart, hend⟩
    exact ⟨max leaf.1 (index * 8), by omega, by omega, by omega⟩

theorem merge_assoc (a b c : Class) : merge (merge a b) c = merge a (merge b c) := by
  cases a <;> cases b <;> cases c <;> rfl

theorem merge_none (a : Class) : merge a .none = a := by
  cases a <;> rfl

theorem eightbyteClass_cons (leaf : Nat × Leaf) (L : List (Nat × Leaf)) (index : Nat) :
    eightbyteClass (leaf :: L) index =
      merge (if Inside leaf index then leafClass leaf.2 else .none) (eightbyteClass L index) := by
  have hclass : leafClass leaf.2 = .integer ∨ leafClass leaf.2 = .sse := by
    cases leaf.2 <;> simp [leafClass]
  unfold eightbyteClass
  by_cases hin : Inside leaf index
  · rcases hclass with hclass | hclass
    · simp only [mem_cons, exists_eq_or_imp, hin, hclass, true_and, true_or, if_true]
      split_ifs <;> rfl
    · simp only [mem_cons, exists_eq_or_imp, hin, hclass, true_and, true_or, if_true, reduceCtorEq, false_or]
      split_ifs <;> rfl
  · simp only [mem_cons, exists_eq_or_imp, hin, false_and, false_or, if_false]
    split_ifs <;> rfl

/-- The slot of an eightbyte ends with its class. -/
theorem foldl_mergeLeaf {size : Nat} {L : List (Nat × Leaf)} (hL : Fit size L) (index : Nat) (slot : Class) :
    L.foldl (mergeLeaf index) slot = merge slot (eightbyteClass L index) := by
  induction L generalizing slot with
  | nil => exact (merge_none slot).symm
  | cons leaf L ih =>
    obtain ⟨⟨-, hleaf⟩, hL⟩ := forall_mem_cons.mp hL
    rw [foldl_cons, ih hL, eightbyteClass_cons, ← merge_assoc, mergeLeaf]
    congr 1
    by_cases hin : Inside leaf index
    · rw [if_pos ((inside_iff (Leaf.IsC.size_pos hleaf) index).mp hin), if_pos hin]
    · rw [if_neg fun h => hin ((inside_iff (Leaf.IsC.size_pos hleaf) index).mpr h), if_neg hin, merge_none]

theorem nextPowerOfTwo_of_isC {bytes : Nat} (h : bytes ∈ [1, 2, 4, 8, 16]) : nextPowerOfTwo bytes = bytes := by
  simp only [mem_cons, not_mem_nil, or_false] at h
  rcases h with rfl | rfl | rfl | rfl | rfl <;> rfl

theorem leafAlign_eq {leaf : Leaf} (h : leaf.IsC) : leafAlign leaf = leaf.size pointerSize := by
  cases leaf with
  | int bytes =>
    rw [leafAlign, nextPowerOfTwo_of_isC h, Leaf.size]
    simp only [Leaf.IsC, mem_cons, not_mem_nil, or_false] at h
    omega
  | float => rfl
  | double => rfl
  | pointer => rfl

theorem hasUnalignedLeaf_iff {size : Nat} {L : List (Nat × Leaf)} (hL : Fit size L) :
    hasUnalignedLeaf L = true ↔ ¬∀ leaf ∈ L, leaf.2.size pointerSize ∣ leaf.1 := by
  rw [hasUnalignedLeaf, any_eq_true]
  constructor
  · rintro ⟨leaf, hleaf, h⟩ hall
    refine of_decide_eq_true h ?_
    rw [leafAlign_eq (hL leaf hleaf).2]
    exact Nat.mod_eq_zero_of_dvd (hall leaf hleaf)
  · intro h
    obtain ⟨leaf, h⟩ := not_forall.mp h
    obtain ⟨hleaf, h⟩ := Classical.not_imp.mp h
    refine ⟨leaf, hleaf, decide_eq_true fun hmod => h ?_⟩
    rw [leafAlign_eq (hL leaf hleaf).2] at hmod
    exact Nat.dvd_of_mod_eq_zero hmod

/-- The classes of an aggregate, by the convention. -/
def classes (L : List (Nat × Leaf)) : Class × Class := (eightbyteClass L 0, eightbyteClass L 1)

theorem classifyEightbytes_eq {size : Nat} {fields : List (Nat × CType)} (hL : Fit size (leaves pointerSize fields)) :
    classifyEightbytes size (leaves pointerSize fields) =
      if Small size fields then some (classes (leaves pointerSize fields)) else none := by
  rw [classifyEightbytes, foldl_mergeLeaf hL, foldl_mergeLeaf hL]
  by_cases hsmall : Small size fields
  · rw [if_pos hsmall, if_neg]
    · rfl
    · exact not_or.mpr ⟨Nat.not_lt.mpr hsmall.1, fun h => (hasUnalignedLeaf_iff hL).mp h hsmall.2⟩
  · rw [if_neg hsmall, if_pos]
    by_contra hcon
    obtain ⟨hsize, haligned⟩ := not_or.mp hcon
    exact hsmall ⟨Nat.not_lt.mp hsize, not_not.mp fun h => haligned ((hasUnalignedLeaf_iff hL).mpr h)⟩

theorem neededRegisters_eq (L : List (Nat × Leaf)) : neededRegisters (classes L) = takes L := by
  rw [neededRegisters, takes, classes]
  cases eightbyteClass L 0 <;> cases eightbyteClass L 1 <;> rfl

/-! ### Parts -/

theorem class_eq_none_iff {L : List (Nat × Leaf)} {index : Nat} :
    eightbyteClass L index = .none ↔ ∀ leaf ∈ L, ¬Inside leaf index := by
  unfold eightbyteClass
  split_ifs with hinteger hsome
  · obtain ⟨leaf, hleaf, hin, -⟩ := hinteger
    exact iff_of_false (by simp) fun h => h leaf hleaf hin
  · obtain ⟨leaf, hleaf, hin⟩ := hsome
    exact iff_of_false (by simp) fun h => h leaf hleaf hin
  · exact iff_of_true rfl fun leaf hleaf hin => hsome ⟨leaf, hleaf, hin⟩

/-- A part that can stand for an eightbyte, in a register of the class. -/
structure StandsFor (size : Nat) (L : List (Nat × Leaf)) (index : Nat) (cls : Class) (part : CAbiType) : Prop where
  cls : registerClass part = cls
  pos : 0 < naturalSize part
  le : naturalSize part ≤ 8
  align : naturalAlign part = 1 ∨ naturalAlign part = 2 ∨ naturalAlign part = 4 ∨ naturalAlign part = 8
  reach : ∀ leaf ∈ L, ∀ byte, leaf.1 ≤ byte → byte < leaf.1 + leaf.2.size 8 → byte / 8 = index →
    byte < index * 8 + naturalSize part

theorem naturalSize_int {bytes : Nat} (h : bytes ≤ 8) : naturalSize (.int (intBits bytes)) = bytes := by
  rw [naturalSize, intBits, if_pos (by omega), divCeil]
  omega

theorem naturalAlign_int {bytes : Nat} (hpos : 0 < bytes) (h : bytes ≤ 8) :
    naturalAlign (.int (intBits bytes)) = 1 ∨ naturalAlign (.int (intBits bytes)) = 2 ∨
      naturalAlign (.int (intBits bytes)) = 4 ∨ naturalAlign (.int (intBits bytes)) = 8 := by
  have hbytes : divCeil (intBits bytes) 8 = bytes := naturalSize_int h
  rw [naturalAlign, hbytes]
  interval_cases bytes <;> decide

section Parts

variable {size index : Nat} {L : List (Nat × Leaf)}

variable {cls : Class}

/-- A part of eight bytes reaches far enough. -/
theorem standsFor_full {part : CAbiType} (hcls : registerClass part = cls) (hsize : naturalSize part = 8)
    (halign : naturalAlign part = 8) : StandsFor size L index cls part := by
  refine ⟨hcls, by omega, by omega, by omega, ?_⟩
  intro leaf _ byte _ _ hbyte
  omega

/-- Where there is no data behind, the bytes of leaves are in front. -/
theorem reach_of_hasData (hL : Fit size L) {bytes : Nat}
    (h : hasData L (index * 8 + bytes) (min size (index * 8 + 8)) = false) :
    ∀ leaf ∈ L, ∀ byte, leaf.1 ≤ byte → byte < leaf.1 + leaf.2.size 8 → byte / 8 = index →
      byte < index * 8 + bytes := by
  intro leaf hleaf byte hle hlt hbyte
  by_contra hcon
  have hsize := (hL leaf hleaf).1
  have hdata : hasData L (index * 8 + bytes) (min size (index * 8 + 8)) = true := by
    refine any_eq_true.mpr ⟨leaf, hleaf, decide_eq_true ⟨?_, ?_⟩⟩
    · omega
    · rw [show pointerSize = 8 from rfl]
      omega
  rw [hdata] at h
  cases h

/-- An integer as far as the aggregate goes. -/
theorem standsFor_rest (hL : Fit size L) (hused : index * 8 < size) :
    StandsFor size L index .integer (.int (intBits (min size (index * 8 + 8) - index * 8))) := by
  have hsize := naturalSize_int (show min size (index * 8 + 8) - index * 8 ≤ 8 by omega)
  refine ⟨rfl, by omega, by omega, naturalAlign_int (by omega) (by omega), ?_⟩
  intro leaf hleaf byte _ hlt hbyte
  have hin := (hL leaf hleaf).1
  omega

theorem partType_integer (hL : Fit size L) (hused : index * 8 < size) :
    StandsFor size L index .integer (partType size L index .integer) := by
  unfold partType
  simp only
  cases hfound : L.find? fun leaf => decide (leaf.1 = index * 8) with
  | none => exact standsFor_rest hL hused
  | some leaf =>
    obtain ⟨offset, leaf⟩ := leaf
    cases leaf with
    | int bytes =>
      have hleaf := (hL _ (mem_of_find?_eq_some hfound)).2
      have hpos : 0 < bytes := Leaf.IsC.size_pos hleaf
      simp only [Option.map_some]
      split_ifs with height hshort
      · exact standsFor_full rfl rfl rfl
      · have hsize := naturalSize_int (Nat.le_of_lt hshort.1)
        refine ⟨rfl, by omega, by omega, naturalAlign_int hpos (Nat.le_of_lt hshort.1), ?_⟩
        rw [hsize]
        exact reach_of_hasData hL hshort.2
      · exact standsFor_rest hL hused
    | pointer => exact standsFor_full rfl rfl rfl
    | float | double => exact standsFor_rest hL hused

theorem partType_sse (hL : Fit size L) : StandsFor size L index .sse (partType size L index .sse) := by
  unfold partType
  simp only
  split_ifs with hdouble hpair hshort
  · exact standsFor_full rfl rfl rfl
  · exact standsFor_full rfl rfl rfl
  · exact ⟨rfl, by decide, by decide, by decide, reach_of_hasData hL hshort⟩
  · exact standsFor_full rfl rfl rfl

/-- The class of the part of an eightbyte: one without leaves is an integer too. -/
def partClass : Class → Class
  | .sse => .sse
  | _ => .integer

theorem partClass_ne_none (cls : Class) : partClass cls ≠ .none := by
  cases cls <;> decide

theorem partType_standsFor (hL : Fit size L) (hused : index * 8 < size) (cls : Class) :
    StandsFor size L index (partClass cls) (partType size L index cls) := by
  cases cls with
  | none | integer => exact partType_integer hL hused
  | sse => exact partType_sse hL

theorem lt_size_of_inside (hL : Fit size L) {leaf : Nat × Leaf} (hleaf : leaf ∈ L) (hin : Inside leaf index) :
    index * 8 < size := by
  obtain ⟨byte, hlt, -, hbyte⟩ := hin
  have hsize := (hL leaf hleaf).1
  rw [show pointerSize = 8 from rfl] at hlt
  omega

/-- The parts of an aggregate that is not empty. -/
inductive Shape (size : Nat) (L : List (Nat × Leaf)) : List CAbiType → Prop where
  | wide (h : L = [(0, .int 16)]) : Shape size L [.int 128]
  | one {low : CAbiType} (hhigh : eightbyteClass L 1 = .none)
    (hlow : StandsFor size L 0 (partClass (eightbyteClass L 0)) low) : Shape size L [low]
  | two {low high : CAbiType} (hlow : StandsFor size L 0 (partClass (eightbyteClass L 0)) low)
    (hhigh : StandsFor size L 1 (eightbyteClass L 1) high) (hplace : naturalSize low = 8 ∨ naturalAlign high = 8) :
    Shape size L [low, high]

theorem partClass_of_ne (h : cls ≠ .none) : partClass cls = cls := by
  cases cls with
  | none => exact absurd rfl h
  | integer => rfl
  | sse => rfl

theorem parts_shape (hL : Fit size L) (hsize : size ≠ 0) : Shape size L (parts size L (classes L)) := by
  have hlow := partType_standsFor hL (show 0 * 8 < size by omega) (eightbyteClass L 0)
  have hhigh : eightbyteClass L 1 ≠ .none →
      StandsFor size L 1 (eightbyteClass L 1) (partType size L 1 (eightbyteClass L 1)) := by
    intro hne
    obtain ⟨leaf, hleaf, hin⟩ : ∃ leaf ∈ L, Inside leaf 1 := by
      by_contra hcon
      exact hne (class_eq_none_iff.mpr fun leaf hleaf hin => hcon ⟨leaf, hleaf, hin⟩)
    have hstands := partType_standsFor hL (lt_size_of_inside hL hleaf hin) (eightbyteClass L 1)
    rwa [partClass_of_ne hne] at hstands
  unfold parts classes
  simp only
  split_ifs with hwide hnone hwiden
  · exact .wide hwide
  · exact .one hnone hlow
  · refine .two ?_ (hhigh hnone) (.inl ?_)
    · cases eightbyteClass L 0 <;> exact standsFor_full rfl rfl rfl
    · cases eightbyteClass L 0 <;> rfl
  · refine .two hlow (hhigh hnone) ?_
    have hle := hlow.le
    have halign := (hhigh hnone).align
    omega

/-! ### Where parts stand -/

theorem place_one (low : CAbiType) : place 0 [low] = [(0, low)] := by
  have hzero : alignUp 0 (naturalAlign low) = 0 := by
    rw [alignUp, divCeil, Nat.zero_add, Nat.mul_eq_zero]
    rcases Nat.eq_zero_or_pos (naturalAlign low) with h | h
    · exact .inr h
    · exact .inl (Nat.div_eq_of_lt (by omega))
  rw [place, hzero]
  rfl

variable {cls' : Class} {low high : CAbiType}

section

variable (hlow : StandsFor size L 0 cls low)
include hlow

/-- The second part stands at eight. -/
theorem place_two (hhigh : StandsFor size L 1 cls' high) (hplace : naturalSize low = 8 ∨ naturalAlign high = 8) :
    place 0 [low, high] = [(0, low), (8, high)] := by
  have hzero := congrArg (List.map Prod.fst) (place_one low)
  simp only [place, map_cons, map_nil, List.cons.injEq, and_true] at hzero
  have height : alignUp (naturalSize low) (naturalAlign high) = 8 := by
    have hpos := hlow.pos
    have hle := hlow.le
    rcases hplace with hsize | halign
    · rw [hsize]
      rcases hhigh.align with h | h | h | h <;> rw [h] <;> rfl
    · rw [halign, alignUp, divCeil]
      omega
  simp only [place, hzero, Nat.zero_add, height]

theorem classAt_two_zero : classAt [(0, low), (8, high)] 0 = cls := by
  have hpos := hlow.pos
  rw [classAt, List.find?_cons_of_pos (by simpa using hpos)]
  exact hlow.cls

theorem classAt_one_zero : classAt [(0, low)] 0 = cls := by
  have hpos := hlow.pos
  rw [classAt, List.find?_cons_of_pos (by simpa using hpos)]
  exact hlow.cls

theorem classAt_one_one : classAt [(0, low)] 1 = .none := by
  have hle := hlow.le
  rw [classAt, List.find?_cons_of_neg (by simpa using hle)]
  rfl

theorem classAt_two_one (hhigh : StandsFor size L 1 cls' high) : classAt [(0, low), (8, high)] 1 = cls' := by
  have hle := hlow.le
  have hpos := hhigh.pos
  rw [classAt, List.find?_cons_of_neg (by simpa using hle), List.find?_cons_of_pos (by simpa using hpos)]
  exact hhigh.cls

end

/-- The parts at the offsets where they stand. -/
def atEight (parts : List CAbiType) : List (Nat × CAbiType) := [0, 8].zip parts

section

variable {parts : List CAbiType} (h : Shape size L parts)
include h

theorem Shape.place_eq : place 0 parts = atEight parts := by
  cases h with
  | wide h => exact place_one _
  | one hhigh hlow => exact place_one _
  | two hlow hhigh hplace => exact place_two hlow hhigh hplace

/-- The class of an eightbyte is that of its part, except for a first one without leaves. -/
theorem Shape.classes_iff :
    (∀ index < 2, classAt (atEight parts) index = eightbyteClass L index) ↔ eightbyteClass L 0 ≠ .none := by
  have hfirst : (partClass (eightbyteClass L 0) = eightbyteClass L 0) ↔ eightbyteClass L 0 ≠ .none := by
    cases eightbyteClass L 0 <;> simp [partClass]
  cases h with
  | wide h =>
    subst h
    refine iff_of_true (fun index hindex => ?_) (by decide)
    interval_cases index <;> decide
  | one hhigh hlow =>
    rw [← hfirst]
    constructor
    · intro h
      exact (classAt_one_zero hlow).symm.trans (h 0 (by decide))
    · intro h index hindex
      interval_cases index
      · exact (classAt_one_zero hlow).trans h
      · exact (classAt_one_one hlow).trans hhigh.symm
  | two hlow hhigh hplace =>
    rw [← hfirst]
    constructor
    · intro h
      exact (classAt_two_zero hlow).symm.trans (h 0 (by decide))
    · intro h index hindex
      interval_cases index
      · exact (classAt_two_zero hlow).trans h
      · exact classAt_two_one hlow hhigh

/-- The parts reach every byte of every leaf. -/
theorem Shape.covers (hL : Fit size L) (hsize : size ≤ 16)
    {leaf : Nat × Leaf} (hleaf : leaf ∈ L) {byte : Nat} (hle : leaf.1 ≤ byte) (hlt : byte < leaf.1 + leaf.2.size 8) :
    ∃ part ∈ atEight parts, part.1 ≤ byte ∧ byte < part.1 + naturalSize part.2 := by
  have hin := (hL leaf hleaf).1
  cases h with
  | wide =>
    refine ⟨(0, .int 128), by simp [atEight], Nat.zero_le _, ?_⟩
    rw [show naturalSize (.int 128) = 16 from rfl]
    omega
  | @one low hhigh hlow =>
    have hbyte : byte / 8 = 0 := by
      by_contra hcon
      refine class_eq_none_iff.mp hhigh leaf hleaf ⟨byte, hlt, hle, ?_⟩
      omega
    refine ⟨(0, low), by simp [atEight], Nat.zero_le _, ?_⟩
    have hreach := hlow.reach leaf hleaf byte hle hlt hbyte
    simpa using hreach
  | @two low high hlow hhigh _ =>
    rcases Nat.lt_or_ge byte 8 with hbyte | hbyte
    · refine ⟨(0, low), by simp [atEight], Nat.zero_le _, ?_⟩
      simpa using hlow.reach leaf hleaf byte hle hlt (by omega)
    · refine ⟨(8, high), by simp [atEight], hbyte, ?_⟩
      simpa using hhigh.reach leaf hleaf byte hle hlt (by omega)

end

end Parts

/-! ### Signatures -/

section Aggregates

variable {size align : Nat} {fields : List (Nat × CType)}

theorem fit_empty {L : List (Nat × Leaf)} (h : Fit 0 L) : L = [] := by
  refine eq_nil_iff_forall_not_mem.mpr fun leaf hleaf => ?_
  obtain ⟨hsize, hleaf⟩ := h leaf hleaf
  have hpos := Leaf.IsC.size_pos hleaf
  omega

/-- The parts of an aggregate in registers. -/
def carried (size : Nat) (fields : List (Nat × CType)) : List (Nat × CAbiType) :=
  if size = 0 then [] else atEight (parts size (leaves pointerSize fields) (classes (leaves pointerSize fields)))

section

variable (hrange : (CType.aggregate size align fields).InRange)
include hrange

theorem carries_iff (hsmall : Small size fields) :
    Carries size align fields (carried size fields) ↔ FirstUsed size fields := by
  have hL := fit_of_inRange hrange
  rw [carried]
  split_ifs with hsize
  · subst hsize
    refine iff_of_true ⟨fun offset leaf hat => ?_, ?_⟩ (.inl rfl)
    · have hmem : (offset, leaf) ∈ leaves pointerSize fields := mem_leaves.mpr hat
      rw [fit_empty hL] at hmem
      cases hmem
    · intro index _
      rw [fit_empty hL]
      rfl
  · have hshape := parts_shape hL hsize
    have hfirst : FirstUsed size fields ↔ eightbyteClass (leaves pointerSize fields) 0 ≠ .none := by
      rw [ne_eq, class_eq_none_iff]
      simp [FirstUsed, hsize]
    rw [hfirst, ← hshape.classes_iff]
    refine ⟨fun h => h.classes, fun h => ⟨?_, h⟩⟩
    intro offset leaf hat byte hle hlt
    exact hshape.covers hL hsmall.1 (mem_leaves.mpr hat) hle hlt

theorem passes_iff {registers : Prop} [Decidable registers] (hsmall : registers → Small size fields) :
    Passes registers size align fields (if registers then some (carried size fields) else none) ↔
      (registers → FirstUsed size fields) := by
  by_cases h : registers
  · rw [if_pos h, ← carries_iff hrange (hsmall h)]
    constructor
    · exact fun hpasses _ => hpasses.carries _ rfl
    · intro hcarries
      refine ⟨iff_of_true rfl h, fun found hfound => ?_⟩
      cases hfound
      exact hcarries h
  · rw [if_neg h]
    exact iff_of_true ⟨iff_of_false (by simp) h, nofun⟩ fun hcon => absurd hcon h

theorem classifyArg_aggregate (free : Nat × Nat) : argParts (classifyArg free (.aggregate size align fields)).1 =
        (if InRegisters free size fields then some (carried size fields) else none) ∧
      (classifyArg free (.aggregate size align fields)).2 = leaveRegisters free (.aggregate size align fields) := by
  have hL := fit_of_inRange hrange
  rw [classifyArg, leaveRegisters, carried]
  by_cases hsize : size = 0
  · subst hsize
    have hsmall : Small 0 fields := ⟨by decide, by rw [fit_empty hL]; nofun⟩
    have hnone : takes (leaves pointerSize fields) = (0, 0) := by rw [fit_empty hL]; rfl
    have hin : InRegisters free 0 fields := ⟨hsmall, by rw [hnone]; exact ⟨Nat.zero_le _, Nat.zero_le _⟩⟩
    rw [if_pos rfl, if_pos hin, if_pos rfl, if_pos hsmall, hnone]
    exact ⟨rfl, (if_pos ⟨Nat.zero_le _, Nat.zero_le _⟩).symm⟩
  · rw [if_neg hsize, if_neg hsize, classifyEightbytes_eq hL]
    by_cases hsmall : Small size fields
    · simp only [if_pos hsmall, neededRegisters_eq]
      by_cases hfits : (takes (leaves pointerSize fields)).1 ≤ free.1 ∧ (takes (leaves pointerSize fields)).2 ≤ free.2
      · have hin : InRegisters free size fields := ⟨hsmall, hfits⟩
        have hshape := parts_shape hL hsize
        rw [if_neg (by omega), if_pos hin, takeFrom, if_pos hfits]
        generalize parts size (leaves pointerSize fields) (classes (leaves pointerSize fields)) = found at hshape ⊢
        cases hshape <;> exact ⟨rfl, rfl⟩
      · have hin : ¬InRegisters free size fields := fun h => hfits h.2
        rw [if_pos (by omega), if_neg hin, takeFrom, if_neg hfits]
        exact ⟨rfl, rfl⟩
    · have hin : ¬InRegisters free size fields := fun h => hsmall h.1
      simp only [if_neg hsmall]
      rw [if_neg hin]
      exact ⟨rfl, trivial⟩

theorem classifyRet_aggregate : retParts (classifyRet (some (.aggregate size align fields))).1 =
        (if Small size fields then some (carried size fields) else none) ∧
      (classifyRet (some (.aggregate size align fields))).2 = !decide (Small size fields) := by
  have hL := fit_of_inRange hrange
  rw [classifyRet, carried]
  by_cases hsize : size = 0
  · subst hsize
    have hsmall : Small 0 fields := ⟨by decide, by rw [fit_empty hL]; nofun⟩
    rw [if_pos rfl, if_pos rfl, if_pos hsmall, decide_eq_true hsmall]
    exact ⟨rfl, rfl⟩
  · rw [if_neg hsize, if_neg hsize, classifyEightbytes_eq hL]
    by_cases hsmall : Small size fields
    · simp only [if_pos hsmall, decide_eq_true hsmall]
      have hshape := parts_shape hL hsize
      have hplace := hshape.place_eq
      generalize parts size (leaves pointerSize fields) (classes (leaves pointerSize fields)) = found at hshape hplace ⊢
      cases hshape with
      | wide => exact ⟨rfl, rfl⟩
      | @one low _ hlow =>
        refine ⟨?_, rfl⟩
        cases low with
        | struct _ => exact absurd hlow.cls.symm (partClass_ne_none _)
        | _ => rfl
      | two => exact ⟨congrArg some hplace, rfl⟩
    · simp only [if_neg hsmall, decide_eq_false hsmall]
      exact ⟨rfl, rfl⟩

end

end Aggregates

theorem classifyArg_leaves {param : CType} (hrange : param.InRange) (free : Nat × Nat) :
    (classifyArg free param).2 = leaveRegisters free param := by
  cases param with
  | aggregate size align fields => exact (classifyArg_aggregate hrange free).2
  | int bytes signed =>
    by_cases hbytes : bytes = 16
    · subst hbytes
      rfl
    · have hone : leaveRegisters free (.int bytes signed) = takeFrom free (1, 0) := by
        unfold leaveRegisters
        split <;> simp_all
      rw [hone, classifyArg]
      · rfl
      all_goals simp [hbytes]
  | _ => rfl

/-- The arguments, each with the registers that the parameters before it leave. -/
theorem classifyArgs_getElem? {params : List CType} (hparams : ∀ param ∈ params, param.InRange) (free : Nat × Nat)
    (index : Nat) : (classifyArgs free params)[index]? =
      params[index]?.map fun param => (classifyArg ((params.take index).foldl leaveRegisters free) param).1 := by
  induction params generalizing free index with
  | nil => rfl
  | cons param params ih =>
    obtain ⟨hparam, hparams⟩ := forall_mem_cons.mp hparams
    cases index with
    | zero => rfl
    | succ index =>
      rw [classifyArgs, List.getElem?_cons_succ, ih hparams, classifyArg_leaves hparam, List.getElem?_cons_succ,
        take_succ_cons, foldl_cons]

theorem startRegisters_eq {ret : Option CType} (hret : ∀ ty ∈ ret, ty.InRange) :
    (if (classifyRet ret).2 then intRegisters - 1 else intRegisters, sseRegisters) = startRegisters ret := by
  match ret with
  | none => rfl
  | some (.aggregate size align fields) =>
    rw [(classifyRet_aggregate (hret _ rfl)).2, startRegisters]
    by_cases hsmall : Small size fields <;> simp [hsmall, intRegisters, sseRegisters]
  | some (.int ..) => rfl
  | some .float => rfl
  | some .double => rfl
  | some .pointer => rfl
  | some (.array ..) => rfl

/-- **Aggregates are passed and returned as the convention says, with every byte of every leaf in a register of its
eightbyte's class, exactly when no aggregate in registers leaves its first eightbyte unused.** -/
theorem classify_follows_iff (params : List CType) (ret : Option CType) (hparams : ∀ param ∈ params, param.InRange)
    (hret : ∀ ty ∈ ret, ty.InRange) : Follows params ret (classify params ret) ↔ FirstsUsed params ret := by
  have hargs : ∀ index size align fields, params[index]? = some (.aggregate size align fields) →
      ((∃ arg, (classify params ret).args[index]? = some arg ∧
        Passes (InRegisters (registersBefore params ret index) size fields) size align fields (argParts arg)) ↔
      (InRegisters (registersBefore params ret index) size fields → FirstUsed size fields)) := by
    intro index size align fields hparam
    have hrange := hparams _ (mem_of_getElem? hparam)
    have harg : (classify params ret).args[index]? =
        some (classifyArg (registersBefore params ret index) (.aggregate size align fields)).1 := by
      have hstart : (classify params ret).args = classifyArgs (startRegisters ret) params := by
        rw [← startRegisters_eq hret]
        rfl
      rw [hstart, classifyArgs_getElem? hparams, hparam]
      rfl
    have hsmall : InRegisters (registersBefore params ret index) size fields → Small size fields := fun h => h.1
    rw [← passes_iff hrange hsmall, ← (classifyArg_aggregate hrange _).1]
    constructor
    · rintro ⟨arg, hfound, hpasses⟩
      cases harg.symm.trans hfound
      exact hpasses
    · exact fun hpasses => ⟨_, harg, hpasses⟩
  have hresult : ∀ size align fields, ret = some (.aggregate size align fields) →
      (Passes (Small size fields) size align fields (retParts (classify params ret).ret) ↔
      (Small size fields → FirstUsed size fields)) := by
    rintro size align fields rfl
    have hrange := hret _ rfl
    rw [← passes_iff hrange id, ← (classifyRet_aggregate hrange).1]
    rfl
  constructor
  · intro h
    exact ⟨fun index size align fields hparam => (hargs index size align fields hparam).mp (h.args _ _ _ _ hparam),
      fun size align fields heq => (hresult size align fields heq).mp (h.ret _ _ _ heq)⟩
  · intro h
    exact ⟨fun index size align fields hparam => (hargs index size align fields hparam).mpr (h.args _ _ _ _ hparam),
      fun size align fields heq => (hresult size align fields heq).mpr (h.ret _ _ _ heq)⟩

theorem inRange_of_fit {size align : Nat} {fields : List (Nat × CType)} (h : Fit size (leaves pointerSize fields)) :
    (CType.aggregate size align fields).InRange := fun offset leaf hat => h (offset, leaf) (mem_leaves.mpr hat)

/-- A double and a number, one eightbyte each. -/
def pair : CType := .aggregate 16 8 [(0, .double), (8, .int 8 true)]

/-- Two floats in one eightbyte and a number in the next. -/
def point : CType := .aggregate 12 4 [(0, .array .float 2), (8, .int 4 true)]

/-- Too large for registers. -/
def triple : CType := .aggregate 24 8 [(0, .array .pointer 3)]

/-- A result and parameters of two eightbytes, with one in memory between them. -/
theorem classify_follows_pairs :
    Follows [pair, triple, .int 4 true, point] (some pair) (classify [pair, triple, .int 4 true, point] (some pair)) ∧
      (classify [pair, triple, .int 4 true, point] (some pair)).args =
        [.expand [(0, .double), (8, .int 64)], .byval 8, natural .none, .expand [(0, .floatPair), (8, .int 32)]] := by
  have hpair : pair.InRange := inRange_of_fit (by simp [Fit, leaves, pushFields, pushLeaves, Leaf.size, Leaf.IsC])
  have hpoint : point.InRange := inRange_of_fit (by
    simp [Fit, leaves, pushFields, pushLeaves, Leaf.size, Leaf.IsC, CType.size, range_succ])
  have htriple : triple.InRange := inRange_of_fit (by
    simp [Fit, leaves, pushFields, pushLeaves, Leaf.size, Leaf.IsC, CType.size, pointerSize, range_succ])
  have hparams : ∀ param ∈ [pair, triple, .int 4 true, point], param.InRange := by
    have hint : (CType.int 4 true).InRange := trivial
    simp [hpair, hpoint, htriple, hint]
  have hret : ∀ ty ∈ some pair, ty.InRange := by simpa using hpair
  have hfirst (leaf : Leaf) {size : Nat} {fields : List (Nat × CType)} (hpos : 0 < leaf.size pointerSize)
      (hleaf : (0, leaf) ∈ leaves pointerSize fields) : FirstUsed size fields :=
    .inr ⟨_, hleaf, 0, by simpa using hpos, Nat.le_refl 0, rfl⟩
  have hused : FirstsUsed [pair, triple, .int 4 true, point] (some pair) := by
    refine ⟨fun index size align fields hparam _ => ?_, fun size align fields hret _ => ?_⟩
    · match index, hparam with
      | 0, rfl => exact hfirst .double (by decide) mem_cons_self
      | 1, rfl => exact hfirst .pointer (by decide) mem_cons_self
      | 3, rfl => exact hfirst .float (by decide) mem_cons_self
    · cases hret
      exact hfirst .double (by decide) mem_cons_self
  exact ⟨(classify_follows_iff _ _ hparams hret).mpr hused, rfl⟩

/-- A struct whose only field is a number of eight bytes. -/
def number (size offset : Nat) : CType := .aggregate size 8 [(offset, .int 8 true)]

theorem number_inRange {size offset : Nat} (h : offset + 8 ≤ size) : (number size offset).InRange :=
  inRange_of_fit (by simp [Fit, leaves, pushFields, pushLeaves, Leaf.size, Leaf.IsC, h])

/-- A number in the second eightbyte takes one register by its class, and two as it is passed. -/
theorem unused_eightbyte_is_passed :
    (number 16 8).InRange ∧ takes (leaves pointerSize [(8, .int 8 true)]) = (1, 0) ∧
      (classify [number 16 8] none).args = [.expand [(0, .int 64), (8, .int 64)]] ∧
      ¬Follows [number 16 8] none (classify [number 16 8] none) := by
  have hleaves : leaves pointerSize [(8, CType.int 8 true)] = [(8, .int 8)] := by
    simp [leaves, pushFields, pushLeaves]
  have htakes : takes (leaves pointerSize [(8, .int 8 true)]) = (1, 0) := by
    rw [hleaves]
    decide
  have hargs : (classify [number 16 8] none).args = [.expand [(0, .int 64), (8, .int 64)]] := rfl
  refine ⟨number_inRange (by decide), htakes, hargs, fun h => ?_⟩
  obtain ⟨arg, harg, hpasses⟩ := h.args 0 16 8 [(8, .int 8 true)] rfl
  rw [hargs] at harg
  cases harg
  have hclass := (hpasses.carries _ rfl).classes 0 (by decide)
  rw [hleaves] at hclass
  revert hclass
  decide

end SysV64

end Nia.AbiCheck
