import Nia.Git.Delta

/-! `apply_delta` accepts exactly the deltas of the format, and returns what they describe. -/
namespace Nia.Git

open Lib Lib.Slices Fallible Cursor List Nat

variable {bits cursor : Nat} {base delta : Bytes}

/-! ### Sizes -/

theorem and_low (byte : UInt8) : (byte &&& 0x7f).toNat = byte.toNat % 128 := by
  rw [UInt8.toNat_and]
  exact and_two_pow_sub_one_eq_mod byte.toNat 7

/-- The flag of the code is the high bit. -/
theorem and_high (byte : UInt8) : byte &&& 0x80 = 0 ↔ byte.toNat < 128 := by
  have hall : ∀ n : Fin 256, UInt8.ofNat n &&& 0x80 = 0 ↔ n.val < 128 := by decide +kernel
  have hbyte := hall ⟨byte.toNat, byte.toNat_lt⟩
  rwa [UInt8.ofNat_toNat] at hbyte

theorem IsVarint.ne_nil {value : Nat} : ¬IsVarint [] value := nofun

variable {byte : UInt8} {bytes : Bytes}

theorem isVarint_cons {value : Nat} : IsVarint (byte :: bytes) value ↔
    byte.toNat < 128 ∧ bytes = [] ∧ value = byte.toNat ∨
      128 ≤ byte.toNat ∧ ∃ rest, IsVarint bytes rest ∧ value = byte.toNat % 128 + 128 * rest := by
  have hlt := byte.toNat_lt
  constructor
  · intro h
    cases h with
    | last h => exact Or.inl ⟨h, rfl, rfl⟩
    | more h hrest => exact Or.inr ⟨h, _, hrest, by omega⟩
  · rintro (⟨h, rfl, rfl⟩ | ⟨h, rest, hrest, rfl⟩)
    · exact .last h
    · rw [show byte.toNat % 128 = byte.toNat - 128 by omega]
      exact .more h hrest

theorem single_isVarint : Single IsVarint := by
  intro read rest read' rest' value value' happend h h'
  induction h generalizing read' value' with
  | @last byte hbyte =>
    cases h' with
    | last => simp_all
    | more => simp_all; omega
  | @more byte bytes value hbyte hrest ih =>
    cases h' with
    | last => simp_all; omega
    | more hbyte' hrest' =>
      rw [cons_append, cons_append, List.cons.injEq] at happend
      obtain ⟨rfl, happend⟩ := happend
      obtain ⟨rfl, rfl⟩ := ih happend hrest'
      exact ⟨rfl, rfl⟩

theorem single_fitsVarint : Single (FitsVarint bits) := by
  intro read rest read' rest' value value' happend h h'
  exact single_isVarint happend h.1 h'.1

/-- What is left of a size, for the value of the groups so far. -/
def Remaining (bits value shift : Nat) (bytes : Bytes) (result : Nat) : Prop :=
  ∃ rest, IsVarint bytes rest ∧ shift + bytes.length * 7 < bits + 7 ∧ result = value + 2 ^ shift * rest ∧
    result < 2 ^ bits

theorem Remaining.ne_nil {value shift result : Nat} : ¬Remaining bits value shift [] result :=
  fun ⟨_, h, _⟩ => h.ne_nil

/-- The first group is within the type. -/
theorem Remaining.digit_fits {value shift result : Nat} (h : Remaining bits value shift (byte :: bytes) result) :
    shift < bits ∧ byte.toNat % 128 ≤ (2 ^ bits - 1) >>> shift := by
  obtain ⟨rest, hvarint, hlength, hresult, hlt⟩ := h
  rw [length_cons] at hlength
  refine ⟨by omega, ?_⟩
  have hdigit : byte.toNat % 128 ≤ rest := by
    obtain ⟨hsmall, -, rfl⟩ | ⟨-, rest', -, rfl⟩ := isVarint_cons.mp hvarint
    · exact mod_le _ _
    · exact le_add_right _ _
  rw [Nat.shiftRight_eq_div_pow, Nat.le_div_iff_mul_le (Nat.two_pow_pos shift), Nat.mul_comm]
  have hle := mul_le_mul_left (2 ^ shift) hdigit
  omega

/-- A group that is not the last. -/
theorem remaining_more {value shift result : Nat} (hbyte : 128 ≤ byte.toNat) :
    Remaining bits (value + byte.toNat % 128 * 2 ^ shift) (shift + 7) bytes result ↔
      Remaining bits value shift (byte :: bytes) result := by
  have hvalue (rest : Nat) : value + byte.toNat % 128 * 2 ^ shift + 2 ^ (shift + 7) * rest =
      value + 2 ^ shift * (byte.toNat % 128 + 128 * rest) := by
    rw [Nat.pow_add, mul_add, Nat.mul_comm (byte.toNat % 128), mul_assoc, add_assoc]
  constructor
  · rintro ⟨rest, hvarint, hlength, rfl, hlt⟩
    refine ⟨_, isVarint_cons.mpr (Or.inr ⟨hbyte, rest, hvarint, rfl⟩), ?_, hvalue rest, hlt⟩
    rw [length_cons]
    omega
  · rintro ⟨rest, hvarint, hlength, rfl, hlt⟩
    obtain ⟨hsmall, -⟩ | ⟨-, rest, hrest, rfl⟩ := isVarint_cons.mp hvarint
    · omega
    · rw [length_cons] at hlength
      exact ⟨rest, hrest, by omega, (hvalue rest).symm, hlt⟩

theorem or_shiftLeft {value digit shift : Nat} (hvalue : value < 2 ^ shift) :
    value ||| digit <<< shift = value + digit * 2 ^ shift := by
  rw [Nat.or_comm, ← Nat.shiftLeft_add_eq_or_of_lt hvalue, Nat.shiftLeft_eq, Nat.add_comm]

/-- A group within the type, above the groups so far. -/
theorem add_digit_lt {value digit shift : Nat} (hvalue : value < 2 ^ shift) (hshift : shift ≤ bits)
    (hdigit : digit * 2 ^ shift ≤ 2 ^ bits - 1) : value + digit * 2 ^ shift < 2 ^ bits := by
  have hsplit : 2 ^ bits = 2 ^ (bits - shift) * 2 ^ shift := by rw [← Nat.pow_add, Nat.sub_add_cancel hshift]
  have hpos := Nat.two_pow_pos bits
  have hlt : digit < 2 ^ (bits - shift) := by
    refine Nat.lt_of_mul_lt_mul_right (a := 2 ^ shift) ?_
    omega
  have hle := mul_le_mul_right (2 ^ shift) hlt
  rw [succ_mul] at hle
  omega

theorem readDeltaVarintFrom_reads {value shift : Nat} (hvalue : value < 2 ^ shift) :
    Reads delta cursor (readDeltaVarintFrom bits delta value shift) (Remaining bits value shift) := by
  induction hsize : bits - shift using Nat.strongRecOn generalizing value shift cursor with
  | _ size ih =>
  rw [readDeltaVarintFrom]
  refine Reads.next (fun byte _ => ?_) fun _ => Remaining.ne_nil
  dsimp only
  rw [and_low, or_shiftLeft hvalue]
  by_cases hoverflow : bits ≤ shift ∨ (2 ^ bits - 1) >>> shift < byte.toNat % 128
  · rw [dif_pos hoverflow]
    refine Reads.throw fun read rest result _ hremaining => ?_
    have := hremaining.digit_fits
    omega
  · rw [dif_neg hoverflow]
    obtain ⟨hshift, hdigit⟩ := not_or.mp hoverflow
    rw [Nat.not_lt, Nat.shiftRight_eq_div_pow, Nat.le_div_iff_mul_le (Nat.two_pow_pos shift)] at hdigit
    by_cases hlast : byte.toNat < 128
    · rw [if_pos ((and_high byte).mpr hlast)]
      refine Reads.pure ⟨byte.toNat, .last hlast, ?_, ?_, add_digit_lt hvalue (by omega) hdigit⟩
      · rw [length_singleton]
        omega
      · rw [mod_eq_of_lt hlast, Nat.mul_comm]
    · rw [if_neg (mt (and_high byte).mp hlast)]
      by_cases hend : bits ≤ shift + 7
      · rw [if_pos hend]
        refine Reads.throw fun read rest result _ hremaining => ?_
        obtain ⟨_, hvarint, hlength, -⟩ := (remaining_more (by omega)).mpr hremaining
        have hread : 0 < read.length := length_pos_iff.mpr fun hnil => (hnil ▸ hvarint).ne_nil
        omega
      · rw [if_neg hend]
        refine (ih (bits - (shift + 7)) (by omega) ?_ rfl).congr fun read result => remaining_more (by omega)
        have hmod : byte.toNat % 128 ≤ 127 := by omega
        have hle := mul_le_mul_right (2 ^ shift) hmod
        rw [Nat.pow_add]
        omega

theorem readDeltaVarint_reads : Reads delta cursor (readDeltaVarint bits delta) (FitsVarint bits) := by
  refine (readDeltaVarintFrom_reads (by decide)).congr fun read value => ?_
  constructor
  · rintro ⟨rest, hvarint, hlength, rfl, hlt⟩
    rw [pow_zero, one_mul, zero_add] at hlt ⊢
    exact ⟨hvarint, by omega, hlt⟩
  · rintro ⟨hvarint, hlength, hlt⟩
    exact ⟨value, hvarint, by omega, by rw [pow_zero, one_mul, zero_add], hlt⟩

/-! ### Operands -/

/-- The flag of the code is a bit of the instruction. -/
theorem and_flag (instruction : UInt8) {bit : Nat} (hbit : bit < 7) :
    instruction &&& (1 <<< UInt8.ofNat bit) ≠ 0 ↔ instruction.toNat.testBit bit = true := by
  have hall : ∀ n : Fin 256, ∀ k : Fin 7,
      UInt8.ofNat n &&& (1 <<< UInt8.ofNat k) ≠ 0 ↔ n.val.testBit k = true := by decide +kernel
  have hbyte := hall ⟨instruction.toNat, instruction.toNat_lt⟩ ⟨bit, hbit⟩
  rwa [UInt8.ofNat_toNat] at hbyte

theorem single_operands (flags : List Bool) : Single (Operands flags) := by
  intro read rest read' rest' values values' happend h h'
  induction h generalizing read' values' with
  | nil =>
    cases h'
    exact ⟨rfl, rfl⟩
  | absent hrest ih =>
    cases h' with
    | absent hrest' =>
      obtain ⟨rfl, rfl⟩ := ih happend hrest'
      exact ⟨rfl, rfl⟩
  | present byte hrest ih =>
    cases h' with
    | present byte' hrest' =>
      rw [cons_append, cons_append, List.cons.injEq] at happend
      obtain ⟨rfl, happend⟩ := happend
      obtain ⟨rfl, rfl⟩ := ih happend hrest'
      exact ⟨rfl, rfl⟩

variable {flags : List Bool} {values : List Nat}

theorem operands_absent :
    Operands (false :: flags) bytes values ↔ ∃ rest, values = 0 :: rest ∧ Operands flags bytes rest := by
  constructor
  · intro h
    cases h with
    | absent hrest => exact ⟨_, rfl, hrest⟩
  · rintro ⟨rest, rfl, hrest⟩
    exact .absent hrest

theorem operands_present : Operands (true :: flags) (byte :: bytes) values ↔
      ∃ rest, values = byte.toNat :: rest ∧ Operands flags bytes rest := by
  constructor
  · intro h
    cases h with
    | present _ hrest => exact ⟨_, rfl, hrest⟩
  · rintro ⟨rest, rfl, hrest⟩
    exact .present byte hrest

theorem littleEndian_cons (value start : Nat) (values : List Nat) :
    littleEndian (value :: values) * 2 ^ (start * 8) =
      value * 2 ^ (start * 8) + littleEndian values * 2 ^ ((start + 1) * 8) := by
  have hpow : 2 ^ ((start + 1) * 8) = 256 * 2 ^ (start * 8) := by rw [Nat.add_one_mul, Nat.pow_add, Nat.mul_comm]
  show (value + 256 * littleEndian values) * 2 ^ (start * 8) = _
  rw [add_mul, hpow, Nat.mul_comm 256, mul_assoc]

/-- An operand from some byte on, above the bytes so far. -/
def OperandFrom (flags : List Bool) (operand start : Nat) (bytes : Bytes) (result : Nat) : Prop :=
  ∃ values, Operands flags bytes values ∧ result = operand + littleEndian values * 2 ^ (start * 8)

theorem operandFrom_absent {operand start result : Nat} : OperandFrom flags operand (start + 1) bytes result ↔
      OperandFrom (false :: flags) operand start bytes result := by
  constructor
  · rintro ⟨values, hvalues, rfl⟩
    exact ⟨0 :: values, .absent hvalues, by rw [littleEndian_cons, zero_mul, zero_add]⟩
  · rintro ⟨values, hvalues, rfl⟩
    obtain ⟨rest, rfl, hrest⟩ := operands_absent.mp hvalues
    exact ⟨rest, hrest, by rw [littleEndian_cons, zero_mul, zero_add]⟩

theorem operandFrom_present {operand start result : Nat} :
    OperandFrom flags (operand + byte.toNat * 2 ^ (start * 8)) (start + 1) bytes result ↔
      OperandFrom (true :: flags) operand start (byte :: bytes) result := by
  constructor
  · rintro ⟨values, hvalues, rfl⟩
    exact ⟨byte.toNat :: values, .present byte hvalues, by rw [littleEndian_cons, add_assoc]⟩
  · rintro ⟨values, hvalues, rfl⟩
    obtain ⟨rest, rfl, hrest⟩ := operands_present.mp hvalues
    exact ⟨rest, hrest, by rw [littleEndian_cons, add_assoc]⟩

theorem operandFrom_present_ne_nil {operand start result : Nat} :
    ¬OperandFrom (true :: flags) operand start [] result := nofun

/-- The loop over the bytes of an operand. -/
theorem readOperand_reads (instruction : UInt8) (firstFlag : Nat) (message : String) {operand start count : Nat}
    (hflags : start + count + firstFlag ≤ 7) (hoperand : operand < 2 ^ (start * 8)) :
    Reads delta cursor
      ((List.range' start count).foldlM (readOperandByte delta instruction firstFlag message) operand)
      (OperandFrom ((List.range' (start + firstFlag) count).map instruction.toNat.testBit) operand start) := by
  induction count generalizing operand start cursor with
  | zero => exact Reads.pure ⟨[], .nil, by rw [littleEndian, foldr_nil, zero_mul, add_zero]⟩
  | succ count ih =>
    have hnext : start + 1 + firstFlag = start + firstFlag + 1 := by omega
    rw [range'_succ, range'_succ, foldlM_cons, map_cons, readOperandByte]
    by_cases hflag : instruction.toNat.testBit (start + firstFlag) = true
    · rw [if_pos ((and_flag instruction (by omega)).mpr hflag), bind_assoc, hflag]
      refine Reads.next (fun byte _ => ?_) fun _ => operandFrom_present_ne_nil
      rw [pure_bind, or_shiftLeft hoperand, ← hnext]
      refine (ih (by omega) ?_).congr fun read result => operandFrom_present
      have hle := mul_le_mul_right (2 ^ (start * 8)) (le_of_lt_succ byte.toNat_lt)
      rw [succ_mul, Nat.pow_add]
      omega
    · rw [if_neg (mt (and_flag instruction (by omega)).mp hflag), pure_bind, Bool.eq_false_iff.mpr hflag,
        ← hnext]
      refine (ih (by omega) ?_).congr fun read result => operandFrom_absent
      exact Nat.lt_of_lt_of_le hoperand (Nat.pow_le_pow_right (by decide) (by omega))

/-! ### Instructions -/

/-- An instruction after a result so far, within the size of the result. -/
def Extends (base : Bytes) (resultSize : Nat) (result : Bytes) (bytes extended : Bytes) : Prop :=
  ∃ output, Instruction base bytes output ∧ extended = result ++ output ∧ extended.length ≤ resultSize

variable {result : Bytes} {resultSize : Nat}

theorem Extends.ne_nil {extended : Bytes} : ¬Extends base resultSize result [] extended := nofun

variable {length : UInt8} {output : Bytes}

theorem instruction_insert (hlt : length.toNat < 128) :
    Instruction base (length :: bytes) output ↔ 0 < length.toNat ∧ bytes.length = length.toNat ∧ output = bytes := by
  constructor
  · intro h
    cases h with
    | insert hpos _ hlength => exact ⟨hpos, hlength, rfl⟩
    | copy hflag => omega
  · rintro ⟨hpos, hlength, rfl⟩
    exact .insert hpos hlt hlength

theorem instruction_copy {instruction : UInt8} (hflag : 128 ≤ instruction.toNat) :
    Instruction base (instruction :: bytes) output ↔ ∃ values, Operands (flagsOf instruction) bytes values ∧
      littleEndian (values.take 4) + copySize (littleEndian (values.drop 4)) ≤ base.length ∧
      output = (base.drop (littleEndian (values.take 4))).take (copySize (littleEndian (values.drop 4))) := by
  constructor
  · intro h
    cases h with
    | insert _ hlt => omega
    | copy _ hvalues hinside => exact ⟨_, hvalues, hinside, rfl⟩
  · rintro ⟨values, hvalues, hinside, rfl⟩
    exact .copy hflag hvalues hinside

theorem insertInstruction_reads (hlt : length.toNat < 128) :
    Reads delta cursor (insertInstruction delta resultSize result length)
      fun read extended => Extends base resultSize result (length :: read) extended := by
  refine Returns.get ?_
  by_cases hinvalid : length.toNat = 0 ∨ delta.length - cursor < length.toNat
  · rw [if_pos hinvalid]
    refine Reads.throw fun read rest extended hread ⟨output, hinstruction, _⟩ => ?_
    obtain ⟨hpos, hlength, -⟩ := (instruction_insert hlt).mp hinstruction
    have htotal := congrArg List.length hread
    rw [length_drop, length_append] at htotal
    omega
  · rw [if_neg hinvalid]
    by_cases hexceeds : resultSize - result.length < length.toNat
    · rw [if_pos hexceeds]
      refine Reads.throw ?_
      rintro read rest extended - ⟨output, hinstruction, rfl, hsize⟩
      obtain ⟨-, hlength, rfl⟩ := (instruction_insert hlt).mp hinstruction
      rw [length_append] at hsize
      omega
    · rw [if_neg hexceeds]
      refine Returns.orTrap (slice_of_le (by omega) (by omega)) (Returns.update (Returns.pure ?_))
      rw [Nat.add_sub_cancel_left]
      have hlength : ((delta.drop cursor).take length.toNat).length = length.toNat := by
        rw [length_take, length_drop]
        omega
      refine ⟨_, ?_, _, (instruction_insert hlt).mpr ⟨by omega, hlength, rfl⟩, rfl, ?_⟩
      · rw [← drop_drop, take_append_drop]
      · rw [length_append, hlength]
        omega

/-- A copy, with its operands. -/
def Copies (base : Bytes) (resultSize : Nat) (result : Bytes) (offset size : Nat)
    (bytes extended : Bytes) : Prop :=
  bytes = [] ∧ offset + copySize size ≤ base.length ∧
    extended = result ++ (base.drop offset).take (copySize size) ∧ extended.length ≤ resultSize

theorem copyBytes_reads (offset size : Nat) :
    Reads delta cursor (copyBytes base resultSize result offset size) (Copies base resultSize result offset size) := by
  rw [copyBytes, ← copySize]
  have hpos : 0 < copySize size := by
    rw [copySize]
    split <;> omega
  by_cases houtside : base.length < offset ∨ base.length - offset < copySize size
  · rw [if_pos houtside]
    refine Reads.throw fun read rest extended _ ⟨_, hinside, _⟩ => ?_
    omega
  · have hlength : ((base.drop offset).take (copySize size)).length = copySize size := by
      rw [length_take, length_drop]
      omega
    rw [if_neg houtside]
    by_cases hexceeds : resultSize - result.length < copySize size
    · rw [if_pos hexceeds]
      refine Reads.throw ?_
      rintro read rest extended - ⟨-, -, rfl, hsize⟩
      rw [length_append, hlength] at hsize
      omega
    · rw [if_neg hexceeds]
      refine Returns.orTrap (slice_of_le (by omega) (by omega)) (Returns.pure ?_)
      rw [Nat.add_sub_cancel_left]
      refine ⟨[], rfl, rfl, by omega, rfl, ?_⟩
      rw [length_append, hlength]
      omega

theorem Operands.length_eq (h : Operands flags bytes values) : values.length = flags.length := by
  induction h with
  | nil => rfl
  | absent _ ih | present _ _ ih => rw [length_cons, length_cons, ih]

theorem operands_append {flags' : List Bool} :
    Operands (flags ++ flags') bytes values ↔ ∃ bytes₁ bytes₂ values₁ values₂, bytes = bytes₁ ++ bytes₂ ∧
      values = values₁ ++ values₂ ∧ Operands flags bytes₁ values₁ ∧ Operands flags' bytes₂ values₂ := by
  constructor
  · intro h
    induction flags generalizing bytes values with
    | nil => exact ⟨[], bytes, [], values, rfl, rfl, .nil, h⟩
    | cons flag flags ih =>
      cases h with
      | absent hrest =>
        obtain ⟨bytes₁, bytes₂, values₁, values₂, rfl, rfl, h₁, h₂⟩ := ih hrest
        exact ⟨bytes₁, bytes₂, 0 :: values₁, values₂, rfl, rfl, .absent h₁, h₂⟩
      | present byte hrest =>
        obtain ⟨bytes₁, bytes₂, values₁, values₂, rfl, rfl, h₁, h₂⟩ := ih hrest
        exact ⟨byte :: bytes₁, bytes₂, byte.toNat :: values₁, values₂, rfl, rfl, .present byte h₁, h₂⟩
  · rintro ⟨bytes₁, bytes₂, values₁, values₂, rfl, rfl, h₁, h₂⟩
    induction h₁ with
    | nil => exact h₂
    | absent _ ih => exact .absent ih
    | present byte _ ih => exact .present byte ih

theorem single_operandFrom (flags : List Bool) (operand start : Nat) : Single (OperandFrom flags operand start) := by
  rintro read rest read' rest' value value' happend ⟨values, hvalues, rfl⟩ ⟨values', hvalues', rfl⟩
  obtain ⟨rfl, rfl⟩ := single_operands flags happend hvalues hvalues'
  exact ⟨rfl, rfl⟩

theorem copyInstruction_reads {instruction : UInt8} (hflag : 128 ≤ instruction.toNat) :
    Reads delta cursor (copyInstruction base delta resultSize result instruction)
      fun read extended => Extends base resultSize result (instruction :: read) extended := by
  have hflags : flagsOf instruction = (List.range' (0 + 0) 4).map instruction.toNat.testBit ++
      (List.range' (0 + 4) 3).map instruction.toNat.testBit := rfl
  rw [copyInstruction, range_eq_range', range_eq_range']
  refine (Reads.bind (single_operandFrom _ 0 0) (readOperand_reads instruction 0 _ (by decide) (by decide))
    fun offset cursor' => Reads.bind (single_operandFrom _ 0 0)
      (readOperand_reads instruction 4 _ (by decide) (by decide))
      fun size cursor'' => copyBytes_reads offset size).congr fun read extended => ?_
  constructor
  · rintro ⟨read₁, _, offset, rfl, ⟨values, hvalues, rfl⟩, read₂, _, size, rfl, ⟨values', hvalues', rfl⟩, rfl, hinside,
      rfl, hsize⟩
    have hlength : values.length = 4 := hvalues.length_eq
    simp only [zero_mul, pow_zero, mul_one, zero_add] at hinside hsize ⊢
    refine ⟨_, (instruction_copy hflag).mpr ⟨values ++ values', ?_, ?_, rfl⟩, ?_, hsize⟩
    · rw [hflags, append_nil]
      exact operands_append.mpr ⟨read₁, read₂, values, values', rfl, rfl, hvalues, hvalues'⟩
    · rwa [take_left' hlength, drop_left' hlength]
    · rw [take_left' hlength, drop_left' hlength]
  · rintro ⟨output, hinstruction, rfl, hsize⟩
    obtain ⟨values, hvalues, hinside, rfl⟩ := (instruction_copy hflag).mp hinstruction
    rw [hflags, operands_append] at hvalues
    obtain ⟨read₁, read₂, values₁, values₂, rfl, rfl, h₁, h₂⟩ := hvalues
    have hlength : values₁.length = 4 := h₁.length_eq
    rw [take_left' hlength, drop_left' hlength] at hinside hsize ⊢
    have hzero (values : List Nat) : littleEndian values = 0 + littleEndian values * 2 ^ (0 * 8) := by
      rw [zero_mul, pow_zero, mul_one, zero_add]
    exact ⟨read₁, read₂, _, rfl, ⟨values₁, h₁, hzero values₁⟩, read₂, [], _, (append_nil _).symm,
      ⟨values₂, h₂, hzero values₂⟩, rfl, hinside, rfl, hsize⟩

/-- **A step of the loop.** -/
theorem applyInstruction_reads (hcursor : cursor < delta.length) :
    Reads delta cursor (applyInstruction base delta resultSize result) (Extends base resultSize result) := by
  have hbyte := List.getElem?_eq_getElem hcursor
  refine Returns.get (Returns.orTrap hbyte (Returns.update ?_))
  by_cases hinsert : delta[cursor].toNat < 128
  · rw [if_pos ((and_high _).mpr hinsert)]
    exact Returns.mono (insertInstruction_reads hinsert) fun _ _ hresult => hresult.cons hbyte fun _ => Extends.ne_nil
  · rw [if_neg (mt (and_high _).mp hinsert)]
    exact Returns.mono (copyInstruction_reads (by omega)) fun _ _ hresult =>
      hresult.cons hbyte fun _ => Extends.ne_nil

/-! ### Whole deltas -/

theorem single_instruction : Single (Instruction base) := by
  intro read rest read' rest' output output' happend h h'
  cases h with
  | @insert length bytes hpos hlt hlength =>
    cases read' with
    | nil => cases h'
    | cons first read' =>
      rw [cons_append, cons_append, List.cons.injEq] at happend
      obtain ⟨rfl, happend⟩ := happend
      obtain ⟨-, hlength', rfl⟩ := (instruction_insert hlt).mp h'
      obtain ⟨rfl, -⟩ := append_inj happend (hlength.trans hlength'.symm)
      exact ⟨rfl, rfl⟩
  | @copy instruction bytes values hflag hvalues hinside =>
    cases read' with
    | nil => cases h'
    | cons first read' =>
      rw [cons_append, cons_append, List.cons.injEq] at happend
      obtain ⟨rfl, happend⟩ := happend
      obtain ⟨values', hvalues', -, rfl⟩ := (instruction_copy hflag).mp h'
      obtain ⟨rfl, rfl⟩ := single_operands _ happend hvalues hvalues'
      exact ⟨rfl, rfl⟩

theorem Produces.first {program : Bytes} (h : Produces base program output) (hne : program ≠ []) :
    ∃ bytes rest first others, program = bytes ++ rest ∧ output = first ++ others ∧ Instruction base bytes first ∧
      Produces base rest others := by
  cases h with
  | done => exact absurd rfl hne
  | step h hrest => exact ⟨_, _, _, _, rfl, rfl, h, hrest⟩

theorem Produces.of_nil (h : Produces base [] output) : output = [] := by
  generalize hprogram : [] = program at h
  cases h with
  | done => rfl
  | step hinstruction =>
    obtain ⟨rfl, -⟩ := append_eq_nil_iff.mp hprogram.symm
    cases hinstruction

theorem Produces.unique {program output' : Bytes} (h : Produces base program output)
    (h' : Produces base program output') : output = output' := by
  induction h generalizing output' with
  | done => exact h'.of_nil.symm
  | @step bytes output program rest hinstruction hrest ih =>
    have hne : bytes ++ program ≠ [] := by
      cases hinstruction <;> exact nofun
    obtain ⟨bytes', rest', first, others, hsplit, rfl, hfirst, hothers⟩ := h'.first hne
    obtain ⟨rfl, rfl⟩ := single_instruction hsplit hinstruction hfirst
    rw [← append_cancel_left hsplit] at hothers
    rw [ih hothers]

/-- What the loop returns. -/
def Applied (base delta : Bytes) (cursor resultSize : Nat) (result : Bytes) :
    Except String Bytes → Prop
  | .ok extended => ∃ output, Produces base (delta.drop cursor) output ∧ extended = result ++ output ∧
      extended.length ≤ resultSize
  | .error _ => ∀ output, Produces base (delta.drop cursor) output → resultSize < (result ++ output).length

theorem applyInstructions_returns {fuel : Nat} (hresult : result.length ≤ resultSize)
    (hfuel : delta.length - cursor < fuel) : Returns (applyInstructions base delta resultSize fuel result) cursor
      fun outcome _ => Applied base delta cursor resultSize result outcome := by
  induction fuel generalizing cursor result with
  | zero => omega
  | succ fuel ih =>
  rw [applyInstructions]
  refine Returns.get ?_
  by_cases hcursor : cursor < delta.length
  · have hne : delta.drop cursor ≠ [] := fun h => by
      rw [drop_eq_nil_iff] at h
      omega
    rw [if_pos hcursor]
    refine Returns.bind (applyInstruction_reads hcursor) ?_ ?_
    · rintro extended cursor' ⟨read, hread, output, hinstruction, rfl, hextended⟩
      have hpos : 0 < read.length := by
        cases hinstruction <;> rw [length_cons] <;> omega
      have hlength := congrArg List.length hread
      rw [length_append, length_drop, length_drop] at hlength
      refine (ih hextended (by omega)).mono fun outcome _ happlied => ?_
      cases outcome with
      | ok extended =>
        obtain ⟨others, hothers, rfl, hsize⟩ := happlied
        refine ⟨output ++ others, ?_, append_assoc _ _ _, hsize⟩
        rw [hread]
        exact .step hinstruction hothers
      | error error =>
        intro total htotal
        obtain ⟨bytes, rest, first, others, hsplit, rfl, hfirst, hothers⟩ := htotal.first hne
        obtain ⟨rfl, rfl⟩ := single_instruction (hread.symm.trans hsplit) hinstruction hfirst
        have hrest : delta.drop cursor' = rest := append_cancel_left (hread.symm.trans hsplit)
        have hlong := happlied others (by rwa [hrest])
        rwa [append_assoc] at hlong
    · intro error cursor' hnone output houtput
      obtain ⟨bytes, rest, first, others, hsplit, rfl, hfirst, -⟩ := houtput.first hne
      refine Nat.lt_of_not_le fun hle => hnone bytes rest (result ++ first) hsplit ⟨first, hfirst, rfl, ?_⟩
      rw [← append_assoc, length_append] at hle
      omega
  · have hend : delta.drop cursor = [] := drop_eq_nil_of_le (by omega)
    rw [if_neg hcursor]
    refine Returns.pure ⟨[], ?_, (append_nil _).symm, hresult⟩
    rw [hend]
    exact .done

/-- A delta whose sizes are known. -/
theorem describes_iff {resultLimit sourceSize : Nat} {source target program : Bytes}
    (hsource : FitsVarint bits source sourceSize) (htarget : FitsVarint bits target resultSize) :
    Describes bits base (source ++ (target ++ program)) resultLimit result ↔ sourceSize = base.length ∧
      resultSize = result.length ∧ resultSize ≤ maxObjectBytes ∧ resultSize ≤ resultLimit ∧
      Produces base program result := by
  constructor
  · rintro ⟨source', target', program', happend, hsource', htarget', hmax, hlimit, hproduces⟩
    obtain ⟨rfl, rfl⟩ := single_fitsVarint happend hsource hsource'
    have hrest := append_cancel_left happend
    obtain ⟨rfl, rfl⟩ := single_fitsVarint hrest htarget htarget'
    rw [append_cancel_left hrest]
    exact ⟨rfl, rfl, hmax, hlimit, hproduces⟩
  · rintro ⟨rfl, rfl, hmax, hlimit, hproduces⟩
    exact ⟨source, target, program, rfl, hsource, htarget, hmax, hlimit, hproduces⟩

theorem applySized_returns (resultLimit sourceSize resultSize : Nat) :
    Returns (applySized base delta resultLimit sourceSize resultSize) cursor
      fun outcome _ => ∀ result, outcome = .ok result ↔ sourceSize = base.length ∧ resultSize = result.length ∧
        resultSize ≤ maxObjectBytes ∧ resultSize ≤ resultLimit ∧ Produces base (delta.drop cursor) result := by
  rw [applySized]
  by_cases hsizes : sourceSize ≠ base.length ∨ maxObjectBytes < resultSize
  · rw [if_pos hsizes]
    exact Returns.throw fun result => ⟨nofun, fun ⟨hsource, _, hmax, _⟩ => by omega⟩
  · rw [if_neg hsizes]
    by_cases hlimit : resultLimit < resultSize
    · rw [if_pos hlimit]
      exact Returns.throw fun result => ⟨nofun, fun ⟨_, _, _, hle, _⟩ => by omega⟩
    · rw [if_neg hlimit]
      refine Returns.bind (applyInstructions_returns (zero_le _) (lt_succ_of_le (sub_le _ _))) ?_ ?_
      · rintro extended cursor' ⟨output, houtput, rfl, -⟩
        by_cases hlength : extended.length ≠ resultSize
        · rw [if_pos hlength]
          refine Returns.throw fun result => ⟨nofun, ?_⟩
          rintro ⟨-, rfl, -, -, hresult⟩
          exact absurd (congrArg List.length (houtput.unique hresult)) hlength
        · rw [if_neg hlength]
          refine Returns.pure fun result => ?_
          constructor
          · intro hok
            cases hok
            exact ⟨by omega, by omega, by omega, by omega, houtput⟩
          · rintro ⟨-, -, -, -, hresult⟩
            rw [houtput.unique hresult]
      · intro error cursor' hlong result
        refine ⟨nofun, ?_⟩
        rintro ⟨-, rfl, -, -, hresult⟩
        exact absurd (hlong result hresult) (lt_irrefl _)

theorem applyDeltaFrom_returns (bits : Nat) (base delta : Bytes) (resultLimit : Nat) :
    Returns (applyDeltaFrom bits base delta resultLimit) 0
      fun outcome _ => ∀ result, outcome = .ok result ↔ Describes bits base delta resultLimit result := by
  refine Returns.bind readDeltaVarint_reads ?_ ?_
  · rintro sourceSize cursor ⟨source, hsource, hfits⟩
    rw [drop_zero] at hsource
    refine Returns.bind readDeltaVarint_reads ?_ ?_
    · rintro resultSize cursor' ⟨target, htarget, hfits'⟩
      refine (applySized_returns resultLimit sourceSize resultSize).mono fun outcome _ houtcome result => ?_
      rw [houtcome, ← describes_iff hfits hfits', ← htarget, ← hsource]
    · intro error cursor' hnone result
      refine ⟨nofun, ?_⟩
      rintro ⟨source', target, program, hdelta, hsource', htarget, -⟩
      obtain ⟨rfl, -⟩ := single_fitsVarint (hsource.symm.trans hdelta) hfits hsource'
      exact absurd htarget (hnone target program _ (append_cancel_left (hsource.symm.trans hdelta)))
  · intro error cursor hnone result
    refine ⟨nofun, ?_⟩
    rintro ⟨source, target, program, hdelta, hsource, -⟩
    exact absurd hsource (hnone source _ _ hdelta)

theorem applyDelta_returns (bits : Nat) (base delta : Bytes) (resultLimit : Nat) :
    ∃ outcome, applyDelta bits base delta resultLimit = some outcome ∧
      ∀ result, outcome = .ok result ↔ Describes bits base delta resultLimit result := by
  obtain ⟨outcome, cursor, hrun, houtcome⟩ := applyDeltaFrom_returns bits base delta resultLimit
  exact ⟨outcome, by rw [applyDelta, hrun, Option.map_some], houtcome⟩

/-- **`apply_delta` always returns, and it accepts exactly what a delta of the format describes.** -/
theorem applyDelta_exact (bits : Nat) (base delta : List UInt8) (resultLimit : Nat) :
    (∃ outcome, applyDelta bits base delta resultLimit = some outcome) ∧
      ∀ result, applyDelta bits base delta resultLimit = some (.ok result) ↔
        Describes bits base delta resultLimit result := by
  obtain ⟨outcome, hrun, houtcome⟩ := applyDelta_returns bits base delta resultLimit
  refine ⟨⟨outcome, hrun⟩, fun result => ?_⟩
  rw [hrun, Option.some.injEq, houtcome]

/-- The size zero in eleven groups has no bit outside the type, and is rejected. -/
theorem overlong_size_rejected : IsVarint (List.replicate 10 0x80 ++ [0]) 0 ∧ IsVarint [0] 0 ∧ Produces [] [] [] ∧
    applyDelta 64 [] (List.replicate 10 0x80 ++ [0] ++ [0]) 0 ≠ some (.ok []) := by
  have hzero : IsVarint [0] 0 := .last (by decide)
  have hmore {bytes : Bytes} (h : IsVarint bytes 0) : IsVarint (0x80 :: bytes) 0 := .more (by decide) h
  have hlong : IsVarint (List.replicate 10 0x80 ++ [0]) 0 :=
    hmore (hmore (hmore (hmore (hmore (hmore (hmore (hmore (hmore (hmore hzero)))))))))
  refine ⟨hlong, hzero, .done, fun hok => ?_⟩
  obtain ⟨outcome, hrun, houtcome⟩ := applyDelta_returns 64 [] (List.replicate 10 0x80 ++ [0] ++ [0]) 0
  obtain ⟨source, target, program, hdelta, hsource, -⟩ :=
    (houtcome []).mp (Option.some.inj (hrun.symm.trans hok))
  obtain ⟨rfl, -⟩ := single_isVarint hdelta hlong hsource.1
  exact absurd hsource.2.1 (by decide)

end Nia.Git
