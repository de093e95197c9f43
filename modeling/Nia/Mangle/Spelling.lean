import Nia.Mangle.Symbol

/-! How a symbol is spelled.

The decoder accepts more spellings of a key than the one the encoder writes: a number may have more
bytes than it needs or bits beyond a `u64`, and an argument may be written out again or named by any
index that leads to it. `SymbolForm` is a record as it stands in a symbol, with the bytes of its numbers
and the form of each argument; `demangle_eq` says that the decoder reads a form and forgets everything
but its values. -/
namespace Nia.Mangle
open Nia.Lib.Code Nia.Lib.BackReference

/-! ### Numbers -/

/-- The bytes of the number at the front, of which `steps` are allowed. -/
def takeNumberLoop : Nat → Reader UInt8 Bytes
  | 0, _ => none
  | _ + 1, [] => none
  | steps + 1, byte :: rest =>
    if byte &&& 0x80 = 0 then some ([byte], rest)
    else (takeNumberLoop steps rest).map fun taken => (byte :: taken.1, taken.2)

def takeNumber : Reader UInt8 Bytes := takeNumberLoop 10

/-- The value of a number's bytes, from a shift on. -/
def numberFrom (shift value : UInt64) : Bytes → UInt64
  | [] => value
  | byte :: rest => numberFrom (shift + 7) (value ||| ((byte &&& 0x7f).toUInt64 <<< shift)) rest

def numberValue (word : Bytes) : UInt64 := numberFrom 0 0 word

theorem getVarintLoop_eq (steps : Nat) (shift value : UInt64) (stream : Bytes) :
    getVarintLoop steps shift value stream =
      (takeNumberLoop steps stream).map fun taken => (numberFrom shift value taken.1, taken.2) := by
  induction steps generalizing shift value stream with
  | zero => rfl
  | succ steps ih =>
    cases stream with
    | nil => rfl
    | cons byte rest =>
      rw [getVarintLoop, takeNumberLoop]
      split
      · rfl
      · rw [ih, Option.map_map]
        rfl

theorem getVarint_eq : getVarint = numberValue <$> takeNumber := by
  funext stream
  refine (getVarintLoop_eq 10 0 0 stream).trans ?_
  show (takeNumber stream).map _ = (takeNumber stream).bind _
  cases takeNumber stream <;> rfl

/-- Every byte but the last says that more follow. -/
def IsNumber : Bytes → Prop
  | [] => False
  | [last] => last < 128
  | byte :: rest => 128 ≤ byte ∧ IsNumber rest

theorem and_128_eq_zero_iff (byte : UInt8) : byte &&& 0x80 = 0 ↔ byte < 128 := by
  have hall : ∀ b : Fin 256, (UInt8.ofNat b &&& 0x80 = 0 ↔ UInt8.ofNat b < 128) := by decide +kernel
  simpa using hall ⟨byte.toNat, byte.toNat_lt⟩

theorem IsNumber.cons {byte : UInt8} {rest : Bytes} (hbyte : ¬byte &&& 0x80 = 0) (hrest : IsNumber rest) :
    IsNumber (byte :: rest) := by
  have hmore : 128 ≤ byte := UInt8.not_lt.mp (mt (and_128_eq_zero_iff byte).mpr hbyte)
  cases rest with
  | nil => exact hrest.elim
  | cons next rest => exact ⟨hmore, hrest⟩

variable {steps : Nat} {stream word : Bytes}

theorem takeNumberLoop_eq_some {rest : Bytes} (h : takeNumberLoop steps stream = some (word, rest)) :
    stream = word ++ rest ∧ IsNumber word ∧ word.length ≤ steps := by
  induction steps generalizing stream word with
  | zero => cases h
  | succ steps ih =>
    cases stream with
    | nil => cases h
    | cons byte stream =>
      rw [takeNumberLoop] at h
      split at h
      · cases h
        exact ⟨rfl, (and_128_eq_zero_iff byte).mp ‹_›, Nat.le_add_left ..⟩
      · obtain ⟨⟨word', rest'⟩, htaken, heq⟩ := Option.map_eq_some_iff.mp h
        cases heq
        obtain ⟨hstream, hnumber, hlength⟩ := ih htaken
        exact ⟨congrArg (byte :: ·) hstream, .cons ‹_› hnumber, Nat.succ_le_succ hlength⟩

theorem takeNumberLoop_of_isNumber (h : IsNumber word) (hlength : word.length ≤ steps)
    (rest : Bytes) : takeNumberLoop steps (word ++ rest) = some (word, rest) := by
  induction word generalizing steps with
  | nil => exact h.elim
  | cons byte word ih =>
    obtain ⟨steps, rfl⟩ : ∃ fewer, steps = fewer + 1 := ⟨steps - 1, by rw [List.length_cons] at hlength; omega⟩
    rw [List.cons_append, takeNumberLoop]
    cases word with
    | nil => rw [if_pos ((and_128_eq_zero_iff byte).mpr h)]; rfl
    | cons next word =>
      rw [if_neg (mt (and_128_eq_zero_iff byte).mp (UInt8.not_lt.mpr h.1)), ih h.2 (Nat.le_of_succ_le_succ hlength)]
      rfl

/-- The bytes of a number in a record. -/
structure NumberForm (word : Bytes) : Prop where
  isNumber : IsNumber word
  length : word.length ≤ 10

theorem takeNumber_eq_some {rest : Bytes} (h : takeNumber stream = some (word, rest)) :
    stream = word ++ rest ∧ NumberForm word := by
  obtain ⟨hstream, hnumber, hlength⟩ := takeNumberLoop_eq_some h
  exact ⟨hstream, hnumber, hlength⟩

theorem NumberForm.reads (h : NumberForm word) : Reads getVarint word (numberValue word) := by
  intro rest
  have htake : takeNumberLoop 10 (word ++ rest) = some (word, rest) :=
    takeNumberLoop_of_isNumber h.isNumber h.length rest
  rw [getVarint, getVarintLoop_eq, htake]
  rfl

/-! ### Shortest numbers -/

/-- No byte is left over at the end, and nothing is beyond a `u64`. -/
structure Minimal (word : Bytes) : Prop where
  short : word.length = 1 ∨ word.getLast? ≠ some 0
  fits : word.length = 10 → word.getLast? = some 1

/-- The number of its groups of seven bits. -/
def groups : Bytes → Nat
  | [] => 0
  | byte :: rest => byte.toNat % 128 + 128 * groups rest

theorem groups_append (front back : Bytes) :
    groups (front ++ back) = groups front + 128 ^ front.length * groups back := by
  induction front with
  | nil => rw [List.nil_append, groups, List.length_nil, Nat.pow_zero, Nat.one_mul, Nat.zero_add]
  | cons byte front ih =>
    rw [List.cons_append, groups, groups, ih, List.length_cons, Nat.pow_succ']
    ring

theorem groups_lt (word : Bytes) : groups word < 128 ^ word.length := by
  induction word with
  | nil => exact Nat.one_pos
  | cons byte word ih =>
    rw [groups, List.length_cons, Nat.pow_succ']
    omega

theorem groups_snoc (front : Bytes) (last : UInt8) :
    groups (front ++ [last]) = groups front + 128 ^ front.length * (last.toNat % 128) := by
  rw [groups_append, groups, groups, Nat.mul_zero, Nat.add_zero]

theorem isNumber_snoc {front : Bytes} {last : UInt8} (h : IsNumber (front ++ [last])) : last < 128 := by
  induction front with
  | nil => exact h
  | cons byte front ih =>
    cases front with
    | nil => exact h.2
    | cons next front => exact ih h.2

theorem groups_pos (h : IsNumber word) (hlast : word.getLast? ≠ some 0) : 0 < groups word := by
  obtain ⟨front, last, rfl⟩ : ∃ front last, word = front ++ [last] := by
    rcases List.eq_nil_or_concat word with rfl | hword
    · exact h.elim
    · simpa using hword
  have hlt : last.toNat < 128 := UInt8.lt_iff_toNat_lt.mp (isNumber_snoc h)
  have hne : last.toNat ≠ 0 := by
    intro hzero
    rw [List.getLast?_concat] at hlast
    exact hlast (congrArg some (UInt8.toNat_inj.mp hzero))
  rw [groups_snoc, Nat.mod_eq_of_lt hlt]
  have := Nat.mul_pos (Nat.pow_pos (n := front.length) (show 0 < 128 by decide)) (Nat.pos_of_ne_zero hne)
  omega

theorem groups_lt_of_minimal (hlength : word.length ≤ 10) (h : Minimal word) : groups word < 2 ^ 64 := by
  have hlt := groups_lt word
  by_cases hten : word.length = 10
  · obtain ⟨front, rfl⟩ := List.getLast?_eq_some_iff.mp (h.fits hten)
    have hfront : front.length = 9 := by simpa using hten
    have hgroups := groups_lt front
    rw [hfront] at hgroups
    rw [groups_snoc, hfront]
    have hone : (1 : UInt8).toNat % 128 = 1 := rfl
    rw [hone]
    omega
  · have hpow : 128 ^ word.length ≤ 128 ^ 9 := Nat.pow_le_pow_right (by decide) (by omega)
    omega

theorem or_128 (byte : UInt8) : byte ||| 0x80 = UInt8.ofNat (byte.toNat % 128 + 128) := by
  have hall : ∀ b : Fin 256, UInt8.ofNat b ||| 0x80 = UInt8.ofNat ((UInt8.ofNat b).toNat % 128 + 128) := by
    decide +kernel
  simpa using hall ⟨byte.toNat, byte.toNat_lt⟩

theorem toNat_or_128 (byte : UInt8) : (byte ||| 0x80).toNat = byte.toNat % 128 + 128 := by
  rw [or_128, UInt8.toNat_ofNat_of_lt' (by have : UInt8.size = 256 := rfl; omega)]

theorem toNat_shiftRight_seven (value : UInt64) : (value >>> 7).toNat = value.toNat / 128 := by
  rw [UInt64.toNat_shiftRight]
  show value.toNat >>> 7 = _
  rw [Nat.shiftRight_eq_div_pow]

theorem ge_128_iff (value : UInt64) : value ≥ 0x80 ↔ 128 ≤ value.toNat := UInt64.le_iff_toNat_le

theorem putVarintLoop_small (more : Nat) {value : UInt64} (h : value.toNat < 128) :
    putVarintLoop more value = [value.toUInt8] := by
  cases more with
  | zero => rfl
  | succ more => rw [putVarintLoop, if_neg (mt (ge_128_iff value).mp (Nat.not_le.mpr h))]

/-- A number as it is written: it has its value, and is as short as can be. -/
structure Written (value limit : Nat) (word : Bytes) : Prop where
  isNumber : IsNumber word
  length : word.length ≤ limit
  groups : groups word = value
  short : word.length = 1 ∨ word.getLast? ≠ some 0

theorem written_small {value : UInt64} (more : Nat) (h : value.toNat < 128) :
    Written value.toNat (more + 1) (putVarintLoop more value) := by
  have hbyte : value.toUInt8.toNat = value.toNat % 256 := UInt64.toNat_toUInt8 value
  rw [putVarintLoop_small more h]
  refine ⟨UInt8.lt_iff_toNat_lt.mpr ?_, Nat.le_add_left .., ?_, .inl rfl⟩
  · rw [hbyte]
    show _ < 128
    omega
  · rw [Mangle.groups, Mangle.groups, hbyte]
    omega

theorem written_putVarintLoop (more : Nat) (value : UInt64) (hvalue : value.toNat < 128 ^ (more + 1)) :
    Written value.toNat (more + 1) (putVarintLoop more value) := by
  induction more generalizing value with
  | zero => exact written_small 0 (by simpa using hvalue)
  | succ more ih =>
    by_cases hsmall : value.toNat < 128
    · exact written_small (more + 1) hsmall
    have hbyte : value.toUInt8.toNat = value.toNat % 256 := UInt64.toNat_toUInt8 value
    have hnext : (value >>> 7).toNat < 128 ^ (more + 1) := by
      rw [toNat_shiftRight_seven]
      rw [Nat.pow_succ'] at hvalue
      omega
    obtain ⟨hnumber, hlength, hgroups, hshort⟩ := ih (value >>> 7) hnext
    rw [toNat_shiftRight_seven] at hgroups
    rw [putVarintLoop, if_pos ((ge_128_iff value).mpr (Nat.not_lt.mp hsmall))]
    generalize putVarintLoop more (value >>> 7) = rest at hnumber hlength hgroups hshort ⊢
    refine ⟨.cons (more_bit _) hnumber, Nat.succ_le_succ hlength, ?_, .inr ?_⟩
    · rw [Mangle.groups, hgroups, toNat_or_128, hbyte]
      omega
    · -- A single byte that follows is not zero, because the value goes on.
      cases rest with
      | nil => exact hnumber.elim
      | cons first rest =>
        rw [List.getLast?_cons_cons]
        intro hzero
        obtain hone | hne := hshort
        · obtain rfl : rest = [] := List.length_eq_zero_iff.mp (Nat.succ.inj hone)
          obtain rfl : first = 0 := by simpa using hzero
          have hnothing : Mangle.groups [0] = 0 := rfl
          omega
        · exact hne hzero

theorem minimal_putVarint (value : UInt64) : Minimal (putVarint value) := by
  obtain ⟨hnumber, -, hgroups, hshort⟩ := written_putVarintLoop 9 value (by have := value.toNat_lt; omega)
  refine ⟨hshort, fun hlength => ?_⟩
  rw [putVarint] at hlength ⊢
  generalize putVarintLoop 9 value = word at hnumber hgroups hshort hlength ⊢
  obtain ⟨front, last, rfl⟩ : ∃ front last, word = front ++ [last] := by
    rcases List.eq_nil_or_concat word with rfl | hword
    · exact hnumber.elim
    · simpa using hword
  have hfront : front.length = 9 := by simpa using hlength
  have hlt : last.toNat < 128 := UInt8.lt_iff_toNat_lt.mp (isNumber_snoc hnumber)
  have hne : last ≠ 0 := by
    rintro rfl
    rw [hlength, List.getLast?_concat] at hshort
    simp at hshort
  have hzero : last.toNat ≠ 0 := fun h => hne (UInt8.toNat_inj.mp h)
  have hvalue := value.toNat_lt
  rw [groups_snoc, hfront, Nat.mod_eq_of_lt hlt] at hgroups
  have hone : last.toNat = 1 := by omega
  rw [List.getLast?_concat]
  exact congrArg some (UInt8.toNat_inj.mp hone)

theorem putVarintLoop_groups (h : IsNumber word)
    (hshort : word.length = 1 ∨ word.getLast? ≠ some 0) (hvalue : groups word < 2 ^ 64) {more : Nat}
    (hlength : word.length ≤ more + 1) : putVarintLoop more (UInt64.ofNat (groups word)) = word := by
  induction word generalizing more with
  | nil => exact h.elim
  | cons byte rest ih =>
    have hnat : (UInt64.ofNat (groups (byte :: rest))).toNat = groups (byte :: rest) :=
      UInt64.toNat_ofNat_of_lt' hvalue
    have hbyte := UInt64.toNat_toUInt8 (UInt64.ofNat (groups (byte :: rest)))
    rw [hnat] at hbyte
    cases rest with
    | nil =>
      have hlt : byte.toNat < 128 := UInt8.lt_iff_toNat_lt.mp h
      have hgroups : groups [byte] = byte.toNat := by
        rw [groups, groups, Nat.mod_eq_of_lt hlt]
        omega
      rw [hgroups] at hnat hbyte ⊢
      rw [putVarintLoop_small more (by omega)]
      exact congrArg ([·]) (UInt8.toNat_inj.mp (by omega))
    | cons next rest =>
      have hlast : (next :: rest).getLast? ≠ some 0 := by
        rw [List.getLast?_cons_cons] at hshort
        exact hshort.resolve_left (by simp)
      have hpos := groups_pos h.2 hlast
      have hmore : 128 ≤ byte.toNat := UInt8.le_iff_toNat_le.mp h.1
      have hrest : groups (byte :: next :: rest) = byte.toNat % 128 + 128 * groups (next :: rest) := rfl
      rw [List.length_cons] at hlength
      obtain ⟨fewer, rfl⟩ : ∃ fewer, more = fewer + 1 := ⟨more - 1, by rw [List.length_cons] at hlength; omega⟩
      have hhead : (UInt64.ofNat (groups (byte :: next :: rest))).toUInt8 ||| 0x80 = byte := by
        have := byte.toNat_lt
        apply UInt8.toNat_inj.mp
        rw [toNat_or_128, hbyte]
        omega
      have htail : UInt64.ofNat (groups (byte :: next :: rest)) >>> 7 = UInt64.ofNat (groups (next :: rest)) := by
        apply UInt64.toNat_inj.mp
        rw [toNat_shiftRight_seven, hnat, UInt64.toNat_ofNat_of_lt' (show groups (next :: rest) < 2 ^ 64 by omega)]
        omega
      rw [putVarintLoop, if_pos ((ge_128_iff _).mpr (by omega)), hhead, htail,
        ih h.2 (.inr hlast) (by omega) (by omega)]

/-- The encoder writes a number of a record as it stands there exactly when it is minimal. -/
theorem NumberForm.putVarint_eq_iff (h : NumberForm word) : putVarint (numberValue word) = word ↔ Minimal word := by
  refine ⟨fun heq => heq ▸ minimal_putVarint _, fun hminimal => ?_⟩
  have hput : putVarint (UInt64.ofNat (groups word)) = word :=
    putVarintLoop_groups h.isNumber hminimal.short (groups_lt_of_minimal h.length hminimal) h.length
  have hvalue : numberValue word = UInt64.ofNat (groups word) := by
    have hread := getVarint_put (UInt64.ofNat (groups word))
    rw [hput] at hread
    exact (h.reads.unique hread (show word ++ [] = word ++ [] from rfl)).1
  rw [hvalue, hput]

/-! ### Forms -/

/-- A text with the bytes of its length. -/
structure TextForm where
  length : Bytes
  text : String
deriving DecidableEq

/-- An argument that is written out, or the bytes of a back reference's index. -/
inductive ArgForm where
  | written (text : TextForm)
  | reference (index : Bytes)
deriving DecidableEq

structure HeaderForm where
  module : Bytes
  definition : TextForm
  kind : MangleSymbolKind
  package : TextForm
  packageId : SymbolPackageIdentity
  name : TextForm
  count : Bytes

structure SymbolForm where
  header : HeaderForm
  args : List ArgForm

def takeText : Reader UInt8 TextForm := do
  let length ← takeNumber
  let bytes ← getSlice (numberValue length).toNat
  let text ← StateT.lift (fromUtf8 bytes)
  pure ⟨length, text⟩

/-- The forms of the arguments; `read` are the arguments read so far. -/
def takeArgs : Nat → List String → Reader UInt8 (List ArgForm)
  | 0, _ => pure []
  | count + 1, read => do
    let tag ← getByte
    if tag = 0 then do
      let index ← takeNumber
      let arg ← StateT.lift read[(numberValue index).toNat]?
      let args ← takeArgs count (read ++ [arg])
      pure (.reference index :: args)
    else if tag = 1 then do
      let text ← takeText
      let args ← takeArgs count (read ++ [text.text])
      pure (.written text :: args)
    else StateT.lift none

def takeHeader : Reader UInt8 HeaderForm := do
  let module ← takeNumber
  let definition ← takeText
  let tag ← getByte
  let kind ← StateT.lift (MangleSymbolKind.fromTag tag)
  let package ← takeText
  let packageId ← StateT.lift (SymbolPackageIdentity.tryNew package.text)
  let name ← takeText
  let count ← takeNumber
  pure ⟨module, definition, kind, package, packageId, name, count⟩

def takeRecord : Reader UInt8 SymbolForm := do
  let header ← takeHeader
  let args ← takeArgs (numberValue header.count).toNat []
  pure ⟨header, args⟩

/-- The record of a symbol, behind its format number. -/
def symbolRecord (symbol : String) : Option Bytes :=
  match symbol.toList with
  | '_' :: 'N' :: payload =>
    match decodeBase64url payload with
    | some (78 :: 73 :: 65 :: 1 :: record) => some record
    | _ => none
  | _ => none

/-- What a reader takes of a stream, if it leaves nothing. -/
def readAll {α : Type} (get : Reader UInt8 α) (stream : Bytes) : Option α :=
  (get stream).bind fun taken => if taken.2 = [] then some taken.1 else none

/-- How a symbol is spelled, if it is one. -/
def symbolForm (symbol : String) : Option SymbolForm := (symbolRecord symbol).bind (readAll takeRecord)

/-! ### Values -/

/-- The arguments of their forms, where `read` are those in front. -/
def argValues (read : List String) : List ArgForm → List String
  | [] => []
  | .written text :: forms => text.text :: argValues (read ++ [text.text]) forms
  | .reference index :: forms =>
    let arg := read.getD (numberValue index).toNat ""
    arg :: argValues (read ++ [arg]) forms

def HeaderForm.value (form : HeaderForm) : SymbolHeader :=
  ⟨numberValue form.module, form.definition.text, form.kind, form.packageId, form.name.text, numberValue form.count⟩

def SymbolForm.value (form : SymbolForm) : DecodedStableSymbol :=
  ⟨form.header.packageId, numberValue form.header.module, form.header.definition.text, form.header.name.text,
    form.header.kind, argValues [] form.args⟩

theorem lift_some_bind {α β : Type} (a : α) (next : α → Reader UInt8 β) : StateT.lift (some a) >>= next = next a := rfl

theorem getText_eq : getText = TextForm.text <$> takeText := by
  rw [getText, getBytes, getVarint_eq, takeText]
  simp only [map_eq_pure_bind, bind_assoc, pure_bind, bind_pure]

theorem getHeader_eq : getHeader = HeaderForm.value <$> takeHeader := by
  rw [getHeader, takeHeader, getText_eq, getVarint_eq]
  simp only [map_eq_pure_bind, bind_assoc, pure_bind]
  rfl

theorem getArgs_eq (count : Nat) (read : List String) :
    getArgs count read = argValues read <$> takeArgs count read := by
  induction count generalizing read with
  | zero => rfl
  | succ count ih =>
    rw [getArgs, takeArgs, map_eq_pure_bind, bind_assoc]
    refine bind_congr fun tag => ?_
    split_ifs with hreference hwritten
    · rw [getVarint_eq]
      simp only [map_eq_pure_bind, bind_assoc, pure_bind]
      refine bind_congr fun index => ?_
      cases hfound : read[(numberValue index).toNat]? with
      | none => rfl
      | some arg =>
        have harg : read.getD (numberValue index).toNat "" = arg := by
          rw [List.getD_eq_getElem?_getD, hfound, Option.getD_some]
        rw [lift_some_bind, lift_some_bind, ih, map_eq_pure_bind, bind_assoc]
        refine bind_congr fun args => ?_
        rw [pure_bind, argValues, harg]
    · rw [getText_eq]
      simp only [map_eq_pure_bind, bind_assoc, pure_bind]
      refine bind_congr fun text => ?_
      rw [ih, map_eq_pure_bind, bind_assoc]
      refine bind_congr fun args => ?_
      rw [pure_bind, argValues]
    · rfl

theorem demangleRecord_eq : demangleRecord = SymbolForm.value <$> takeRecord := by
  rw [demangleRecord, takeRecord, getHeader_eq]
  simp only [map_eq_pure_bind, bind_assoc, pure_bind]
  refine bind_congr fun header => ?_
  show (getArgs (numberValue header.count).toNat [] >>= _) = _
  rw [getArgs_eq, map_eq_pure_bind, bind_assoc]
  rfl

theorem demangle_eq_record (symbol : String) :
    demangleStableSymbol symbol = (symbolRecord symbol).bind (readAll demangleRecord) := by
  by_cases hsymbol : ∃ payload, symbol.toList = '_' :: 'N' :: payload
  · obtain ⟨payload, hpayload⟩ := hsymbol
    rw [demangleStableSymbol, symbolRecord]
    simp only [hpayload]
    cases decodeBase64url payload with
    | none => rfl
    | some bytes =>
      dsimp only [Option.bind_eq_bind, Option.bind_some]
      split
      · rfl
      · rename_i hother
        split
        · rename_i record hrecord
          exact absurd (Option.some.inj hrecord) (hother record)
        · rfl
  · have hnone : demangleStableSymbol symbol = none := by
      rw [demangleStableSymbol]
      split
      · exact absurd ⟨_, ‹_›⟩ hsymbol
      · rfl
    have hrecord : symbolRecord symbol = none := by
      rw [symbolRecord]
      split
      · exact absurd ⟨_, ‹_›⟩ hsymbol
      · rfl
    rw [hnone, hrecord]
    rfl

/-- The decoder returns the value of a symbol's form. -/
theorem demangle_eq (symbol : String) : demangleStableSymbol symbol = (symbolForm symbol).map SymbolForm.value := by
  rw [demangle_eq_record, symbolForm, demangleRecord_eq, Option.map_bind]
  congr 1
  funext record
  show ((takeRecord record).bind fun taken => some (taken.1.value, taken.2)).bind _ = ((takeRecord record).bind _).map _
  cases takeRecord record with
  | none => rfl
  | some taken =>
    dsimp only [Option.bind_some]
    split <;> rfl

end Nia.Mangle
