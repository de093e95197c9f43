import Nia.Lexer.Rest

/-! Literals and the ends of lines.

A string or a character that is not closed is meant to end with its line. Its scanner looks at the next byte before it
takes it, but for three places: behind a backslash, inside of `\u{…}`, and where the closing quote of a character is
expected. A literal runs over the end of its line exactly when the line stops at one of these. -/
namespace Nia.Lexer

open Lib.Utf8 Scan List

/-! ### Where a line stops -/

/-- The bytes up to the end of the line. -/
def line (l : Bytes) : Bytes := l.takeWhile fun byte => !isLineEnd byte

/-- A line that stops behind a backslash and `l`, where the escape goes on with any byte. -/
def escapeCut : Bytes → Bool
  | [] => true
  | [letter] => letter = ascii 'u'
  | letter :: brace :: digits =>
    letter = ascii 'u' && brace = ascii '{' && digits.all isHex && 0 < digits.length && digits.length ≤ 6

/-- A line that stops inside of an escape of a string. -/
def stringCut : Nat → Bytes → Bool
  | 0, _ => false
  | _ + 1, [] => false
  | left + 1, byte :: l =>
    if byte = quote then false
    else if byte = backslash then escapeCut l || stringCut left (l.drop (escape l).2)
    else stringCut left l

/-- A line that stops inside of the escape of a character literal, or behind its one character. -/
def charCut : Bytes → Bool
  | [] => false
  | first :: l =>
    if first = apostrophe then false
    else if first = backslash then escapeCut l || ((escape l).1.join.isSome && (escape l).2 = l.length)
    else utf8Width first = l.length + 1

/-- A line with a literal that stops where the literal goes on with any byte. -/
def literalCut (l : Bytes) : Bool :=
  match if l.head? = some (ascii 'b') then l.tail else l with
  | [] => false
  | mark :: inner => if mark = quote then stringCut inner.length inner else charCut inner

/-- A literal whose line ends, but is cut. -/
def runsOver (l : Bytes) : Bool := l.any isLineEnd && literalCut (line l)

/-! ### Escapes -/

/-- A line without its end. -/
def Clear (l : Bytes) : Prop := ∀ byte ∈ l, isLineEnd byte = false

variable {chars : List Char} {body lead : Bytes}

section

variable {l after : Bytes} {stop : UInt8}

theorem eq_of_isLineEnd (hstop : isLineEnd stop = true) : stop = 10 ∨ stop = 13 := by
  simpa [isLineEnd] using hstop

theorem not_isHex_of_isLineEnd (hstop : isLineEnd stop = true) : isHex stop = false := by
  obtain rfl | rfl := eq_of_isLineEnd hstop <;> rfl

theorem takeWhile_append_stop {holds : UInt8 → Bool} (hholds : holds stop = false) :
    (l ++ stop :: after).takeWhile holds = l.takeWhile holds := by
  induction l with
  | nil => exact takeWhile_cons_of_neg (by simp [hholds])
  | cons byte l ih => rw [cons_append, takeWhile_cons, takeWhile_cons, ih]

/-- A `\x` escape never takes the end of the line. -/
theorem hexEscape_line (hstop : isLineEnd stop = true) : hexEscape (l ++ stop :: after) = hexEscape l := by
  have hdigit : isDigitOf 16 stop = false := by
    obtain rfl | rfl := eq_of_isLineEnd hstop <;> rfl
  have htake : ((l ++ stop :: after).take 2).takeWhile (isDigitOf 16) = (l.take 2).takeWhile (isDigitOf 16) := by
    match l with
    | [] => exact takeWhile_cons_of_neg (by simp [hdigit])
    | [byte] =>
      have htwo : ([byte] ++ stop :: after).take 2 = [byte] ++ stop :: [] := rfl
      rw [htwo, takeWhile_append_stop hdigit]
      rfl
    | byte :: byte' :: l => rfl
  rw [hexEscape, hexEscape, htake]

/-- An escape that is cut takes the end of the line. -/
theorem escape_of_cut (hcut : escapeCut l = true) (hstop : isLineEnd stop = true) :
    escape (l ++ stop :: after) = (some none, l.length + 1) := by
  match l with
  | [] => obtain rfl | rfl := eq_of_isLineEnd hstop <;> rfl
  | [letter] =>
    have hletter : letter = ascii 'u' := by simpa [escapeCut] using hcut
    obtain rfl | rfl := eq_of_isLineEnd hstop <;> rw [hletter] <;> rfl
  | letter :: brace :: digits =>
    simp only [escapeCut, Bool.and_eq_true, decide_eq_true_eq, and_assoc] at hcut
    obtain ⟨rfl, rfl, hhex, hpos, hsix⟩ := hcut
    have hdigits : (digits ++ stop :: after).takeWhile isHex = digits := by
      rw [takeWhile_append_stop (not_isHex_of_isLineEnd hstop)]
      exact takeWhile_eq_self_iff.mpr (all_eq_true.mp hhex)
    have hunicode : unicodeEscape (ascii '{' :: (digits ++ stop :: after)) = (none, 2 + digits.length) := by
      rw [unicodeEscape, if_neg (by simp), hdigits]
      dsimp only
      rw [drop_left]
      have hfits : ¬(digits.length = 0 || 6 < digits.length) = true := by
        rw [Bool.or_eq_true, decide_eq_true_eq, decide_eq_true_eq]
        omega
      have hclose : stop ≠ ascii '}' := by
        obtain rfl | rfl := eq_of_isLineEnd hstop <;> decide
      rw [if_neg hfits]
      dsimp only
      rw [if_pos hclose]
    have hescape : escape (ascii 'u' :: ascii '{' :: (digits ++ stop :: after)) =
        (some (unicodeEscape (ascii '{' :: (digits ++ stop :: after))).1,
          1 + (unicodeEscape (ascii '{' :: (digits ++ stop :: after))).2) := rfl
    rw [cons_append, cons_append, hescape, hunicode]
    exact Prod.ext rfl (by simp only [length_cons]; omega)

/-- A `u` escape that the line does not cut stays on it. -/
theorem unicodeEscape_of_not_cut (after : Bytes) (hcut : escapeCut (ascii 'u' :: l) = false)
    (hstop : isLineEnd stop = true) :
    unicodeEscape (l ++ stop :: after) = unicodeEscape l ∧ (unicodeEscape l).2 ≤ l.length := by
  match l with
  | [] => cases hcut
  | brace :: digits =>
    rw [cons_append, unicodeEscape, unicodeEscape]
    by_cases hbrace : brace ≠ ascii '{'
    · rw [if_pos hbrace, if_pos hbrace]
      exact ⟨rfl, by simp⟩
    · rw [if_neg hbrace, if_neg hbrace, takeWhile_append_stop (not_isHex_of_isLineEnd hstop)]
      have hfront := takeWhile_prefix isHex (l := digits)
      have hle := hfront.length_le
      dsimp only
      by_cases hcount : ((digits.takeWhile isHex).length = 0 || 6 < (digits.takeWhile isHex).length) = true
      · rw [if_pos hcount, if_pos hcount]
        exact ⟨rfl, by simp only [length_cons]; omega⟩
      rw [if_neg hcount, if_neg hcount, drop_append_of_le_length hle]
      cases hdrop : digits.drop (digits.takeWhile isHex).length with
      | nil =>
        -- all of the line is digits, so it is cut
        have hall : digits.takeWhile isHex = digits := by
          rw [drop_eq_nil_iff] at hdrop
          exact hfront.eq_of_length_le hdrop
        rw [hall, Bool.or_eq_true, decide_eq_true_eq, decide_eq_true_eq, not_or] at hcount
        rw [escapeCut, not_not.mp hbrace, ← hall, all_takeWhile, hall] at hcut
        simp only [decide_true, Bool.true_and, Bool.and_eq_false_iff, decide_eq_false_iff_not] at hcut
        omega
      | cons close rest =>
        have hlength := congrArg List.length hdrop
        rw [length_drop, length_cons] at hlength
        exact ⟨rfl, by simp only [length_cons]; omega⟩

/-- Any other escape ends in its line. -/
theorem escape_of_not_cut (after : Bytes) (hcut : escapeCut l = false) (hstop : isLineEnd stop = true) :
    escape (l ++ stop :: after) = escape l ∧ (escape l).2 ≤ l.length := by
  cases l with
  | nil => cases hcut
  | cons letter l =>
    rw [cons_append, escape, escape]
    cases simpleEscapes.lookup letter with
    | some value => exact ⟨rfl, by simp⟩
    | none =>
      dsimp only
      by_cases hx : letter = ascii 'x'
      · rw [if_pos hx, if_pos hx, hexEscape_line hstop]
        have hle : (hexEscape l).2 ≤ l.length :=
          Nat.le_trans ( takeWhile_prefix _).length_le (length_take_le' 2 l)
        exact ⟨rfl, by simp only [length_cons]; omega⟩
      rw [if_neg hx, if_neg hx]
      by_cases hu : letter = ascii 'u'
      · subst hu
        obtain ⟨hescape, hle⟩ := unicodeEscape_of_not_cut after hcut hstop
        rw [if_pos rfl, if_pos rfl, hescape]
        exact ⟨rfl, by simp only [length_cons]; omega⟩
      · rw [if_neg hu, if_neg hu]
        exact ⟨rfl, by simp⟩

/-! ### Strings -/

theorem Clear.tail {byte : UInt8} (h : Clear (byte :: l)) : Clear l :=
  fun byte hmem => h byte (mem_cons_of_mem _ hmem)

theorem Clear.drop (h : Clear l) (count : Nat) : Clear (l.drop count) :=
  fun byte hmem => h byte (mem_of_mem_drop hmem)

/-- A string ends in its line, if that is not cut. -/
theorem stringScan_line (after : Bytes) (left left' : Nat) (invalid : Bool) (hclear : Clear l)
    (hstop : isLineEnd stop = true) (hleft : l.length < left) (hleft' : l.length ≤ left') :
    (stringScan left (l ++ stop :: after) invalid).2 ≤ l.length ↔ stringCut left' l = false := by
  induction hlength : l.length using Nat.strong_induction_on generalizing l left left' invalid with
  | _ length ih =>
    obtain ⟨left, rfl⟩ : ∃ n, left = n + 1 := Nat.exists_eq_add_one.mpr (by omega)
    cases l with
    | nil =>
      have hquote : stop ≠ quote := by
        obtain rfl | rfl := eq_of_isLineEnd hstop <;> decide
      rw [nil_append, stringScan, if_neg hquote, if_pos hstop]
      cases left' <;> simp [stringCut]
    | cons byte l =>
      rw [length_cons] at hleft hleft' hlength
      obtain ⟨left', rfl⟩ : ∃ n, left' = n + 1 := Nat.exists_eq_add_one.mpr (by omega)
      rw [cons_append, stringScan, stringCut, if_neg (c := isLineEnd byte = true)
        (by rw [hclear byte mem_cons_self]; exact Bool.false_ne_true)]
      by_cases hquote : byte = quote
      · rw [if_pos hquote, if_pos hquote]
        exact iff_of_true (by dsimp only; omega) rfl
      rw [if_neg hquote, if_neg hquote]
      by_cases hbackslash : byte = backslash
      · rw [if_pos hbackslash, if_pos hbackslash]
        cases hcut : escapeCut l with
        | true =>
          rw [escape_of_cut hcut hstop]
          exact iff_of_false (by dsimp only; omega) (by simp)
        | false =>
          obtain ⟨hescape, hle⟩ := escape_of_not_cut after hcut hstop
          have hdrop : (l.drop (escape l).2).length = l.length - (escape l).2 := length_drop
          have ih := ih (l.drop (escape l).2).length (by omega) left left' (invalid || (escape l).1.join.isNone)
            (hclear.tail.drop _) (by omega) (by omega) rfl
          rw [hescape, drop_append_of_le_length hle, Bool.false_or, ← ih]
          dsimp only
          omega
      · have ih := ih l.length (by omega) left left' invalid hclear.tail (by omega) (by omega) rfl
        rw [if_neg hbackslash, if_neg hbackslash, ← ih]
        dsimp only
        omega

/-! ### Characters -/

theorem ne_apostrophe_of_isLineEnd (hstop : isLineEnd stop = true) : stop ≠ apostrophe := by
  obtain rfl | rfl := eq_of_isLineEnd hstop <;> decide

/-- The recovery stays on the line. -/
theorem recovered_line (l after : Bytes) (hstop : isLineEnd stop = true) :
    recovered (l ++ stop :: after) ≤ l.length := by
  have htake : (l ++ stop :: after).takeWhile (fun byte => byte ≠ apostrophe && !isLineEnd byte) =
      l.takeWhile fun byte => byte ≠ apostrophe && !isLineEnd byte :=
    takeWhile_append_stop (by simp [hstop])
  have hle := ( takeWhile_prefix (fun byte => byte ≠ apostrophe && !isLineEnd byte) (l := l)).length_le
  rw [recovered, htake]
  split
  · rename_i hhead
    refine Nat.lt_of_le_of_ne hle fun hlength => ne_apostrophe_of_isLineEnd hstop ?_
    rw [hlength, drop_left] at hhead
    exact Option.some.inj hhead
  · exact hle

/-- Behind its value a character takes one byte, which may be the end of the line. -/
theorem charScan_of_value (isByte : Bool) {value : CharValue} {passed : Nat}
    (hvalue : charValue (l ++ stop :: after) = (.value value, passed)) (hle : passed ≤ l.length)
    (hstop : isLineEnd stop = true) :
    (charScan isByte (l ++ stop :: after)).2 ≤ l.length ↔ passed ≠ l.length := by
  rw [charScan, hvalue]
  dsimp only
  rw [drop_append_of_le_length hle]
  have hlength : (l.drop passed).length = l.length - passed := length_drop
  cases hdrop : l.drop passed with
  | nil =>
    rw [hdrop, length_nil] at hlength
    rw [nil_append]
    dsimp only
    rw [if_neg (ne_apostrophe_of_isLineEnd hstop)]
    exact iff_of_false (by dsimp only; omega) (by omega)
  | cons byte rest =>
    rw [hdrop, length_cons] at hlength
    rw [cons_append]
    dsimp only
    refine iff_of_true ?_ (by omega)
    split
    · dsimp only
      omega
    · have hrecovered := recovered_line rest after hstop
      dsimp only
      omega

/-- What the escape of a character stands for. -/
def escapeValue : Option (Option CharValue) → CharScan
  | some (some value) => .value value
  | some none => .invalidEscape
  | none => .unterminated

/-- A character that is an escape stays on its line unless it is cut, or fills the line. -/
theorem charScan_of_escape (isByte : Bool) {first : UInt8} (hstop : isLineEnd stop = true)
    (hvalue : charValue (first :: (l ++ stop :: after)) =
      (escapeValue (escape (l ++ stop :: after)).1, 1 + (escape (l ++ stop :: after)).2)) :
    (charScan isByte (first :: (l ++ stop :: after))).2 ≤ l.length + 1 ↔
      (escapeCut l || ((escape l).1.join.isSome && (escape l).2 = l.length)) = false := by
  cases hcut : escapeCut l with
  | true =>
    rw [escape_of_cut hcut hstop] at hvalue
    rw [charScan, hvalue, Bool.true_or]
    exact iff_of_false (by dsimp only [escapeValue]; omega) (by simp)
  | false =>
    obtain ⟨hescape, hle⟩ := escape_of_not_cut after hcut hstop
    rw [hescape] at hvalue
    rw [Bool.false_or]
    cases hresult : (escape l).1 with
    | none =>
      rw [hresult] at hvalue
      rw [charScan, hvalue]
      exact iff_of_true (by dsimp only [escapeValue]; omega) rfl
    | some result =>
      rw [hresult] at hvalue
      cases result with
      | none =>
        rw [charScan, hvalue]
        dsimp only [escapeValue]
        rw [Nat.add_comm 1, drop_succ_cons, drop_append_of_le_length hle]
        have hrecovered := recovered_line (l.drop (escape l).2) after hstop
        rw [length_drop] at hrecovered
        exact iff_of_true (by omega) rfl
      | some value =>
        have hclose := charScan_of_value (l := first :: l) isByte hvalue (by rw [length_cons]; omega) hstop
        rw [length_cons, cons_append] at hclose
        rw [hclose]
        simp only [Option.join_some, Option.isSome_some, Bool.true_and, decide_eq_false_iff_not]
        omega

theorem encoded_bytes : ∀ b : Fin 256, (b.val < 128 → utf8Width (.ofNat b.val) = 1) ∧
    utf8Width (.ofNat b.val &&& 0x1f ||| 0xc0) = 2 ∧ utf8Width (.ofNat b.val &&& 0x0f ||| 0xe0) = 3 ∧
    utf8Width (.ofNat b.val &&& 0x07 ||| 0xf0) = 4 ∧ (UInt8.ofNat b.val &&& 0x3f ||| 0x80) &&& 0xc0 = 0x80 := by
  decide +kernel

/-- The bytes of a character are as `utf8Width` tells. -/
theorem encodeChar_spec (c : Char) : ∃ first following, String.utf8EncodeChar c = first :: following ∧
    utf8Width first = c.utf8Size ∧ ∀ byte ∈ following, byte &&& 0xc0 = 0x80 := by
  have hbytes (byte : UInt8) := encoded_bytes ⟨byte.toNat, byte.toNat_lt⟩
  simp only [UInt8.ofNat_toNat] at hbytes
  obtain hone | htwo | hthree | hfour := c.utf8Size_eq
  · have hlt : c.val.toUInt8.toNat < 128 := by
      have hle := UInt32.le_iff_toNat_le.mp (Char.utf8Size_eq_one_iff.mp hone)
      rw [UInt32.toNat_toUInt8]
      exact Nat.lt_of_le_of_lt (Nat.mod_le _ _) (Nat.lt_succ_of_le hle)
    rw [String.utf8EncodeChar_eq_singleton hone, hone]
    exact ⟨_, _, rfl, (hbytes _).1 hlt, fun _ h => absurd h not_mem_nil⟩
  · rw [String.utf8EncodeChar_eq_cons_cons htwo, htwo]
    refine ⟨_, _, rfl, (hbytes _).2.1, ?_⟩
    simp only [mem_singleton, forall_eq]
    exact (hbytes _).2.2.2.2
  · rw [String.utf8EncodeChar_eq_cons_cons_cons hthree, hthree]
    refine ⟨_, _, rfl, (hbytes _).2.2.1, ?_⟩
    simp only [forall_mem_cons]
    exact ⟨(hbytes _).2.2.2.2, (hbytes _).2.2.2.2, fun _ h => absurd h not_mem_nil⟩
  · rw [String.utf8EncodeChar_eq_cons_cons_cons_cons hfour, hfour]
    refine ⟨_, _, rfl, (hbytes _).2.2.2.1, ?_⟩
    simp only [forall_mem_cons]
    exact ⟨(hbytes _).2.2.2.2, (hbytes _).2.2.2.2, (hbytes _).2.2.2.2, fun _ h => absurd h not_mem_nil⟩

/-- The first character of a text is read whole. -/
theorem codepoint_encode (c : Char) (chars : List Char) :
    codepoint (encode (c :: chars)) = (.value ⟨c.toNat, c.utf8Size⟩, c.utf8Size) := by
  obtain ⟨first, following, hbytes, hwidth, hfollowing⟩ := encodeChar_spec c
  have hlength := String.length_utf8EncodeChar c
  rw [hbytes, length_cons] at hlength
  have htake : (following ++ encode chars).take (c.utf8Size - 1) = following := by
    rw [← hlength, Nat.add_sub_cancel, take_left]
  have hall : following.takeWhile (fun byte => byte &&& 0xc0 = 0x80) = following :=
    takeWhile_eq_self_iff.mpr fun byte hmem => decide_eq_true (hfollowing byte hmem)
  have hchar : (first :: (following ++ encode chars)).take c.utf8Size = encode [c] := by
    rw [← hlength, take_succ_cons, take_left, encode, flatMap_cons, flatMap_nil, append_nil,
      hbytes]
  have hfits : ¬(c.utf8Size = 0 || (following ++ encode chars).length < c.utf8Size - 1) = true := by
    rw [length_append, Bool.or_eq_true, decide_eq_true_eq, decide_eq_true_eq]
    omega
  rw [encode_cons, hbytes, cons_append, codepoint, hwidth]
  dsimp only
  rw [if_neg hfits, htake, hall, if_neg (by omega), hchar, fromUtf8, fromUTF8?_encode, Option.map_some,
    String.toList_ofList]

/-- A plain character stays on its line unless the line ends right behind it. -/
theorem charScan_of_codepoint (isByte : Bool) {first : UInt8}
    (hchars : first :: (l ++ stop :: after) = encode chars) (hstop : isLineEnd stop = true)
    (hvalue : charValue (first :: (l ++ stop :: after)) = codepoint (first :: (l ++ stop :: after))) :
    (charScan isByte (first :: (l ++ stop :: after))).2 ≤ l.length + 1 ↔ utf8Width first ≠ l.length + 1 := by
  cases chars with
  | nil => cases hchars
  | cons c chars =>
    obtain ⟨first', following, hbytes, hwidth, hfollowing⟩ := encodeChar_spec c
    have hsplit := hchars
    rw [encode_cons, hbytes, cons_append] at hsplit
    obtain ⟨rfl, hrest⟩ := List.cons.inj hsplit
    rw [hchars, codepoint_encode] at hvalue
    -- no byte of the character ends a line
    have hle : c.utf8Size ≤ l.length + 1 := by
      rw [← String.length_utf8EncodeChar, hbytes, length_cons, Nat.add_le_add_iff_right]
      by_contra hlt
      have hstop' : following[l.length]? = some stop := by
        rw [← List.getElem?_append_left (Nat.not_le.mp hlt), ← hrest, List.getElem?_append_right (Nat.le_refl _),
          Nat.sub_self, List.getElem?_cons_zero]
      have hcontinuation := hfollowing stop (mem_of_getElem? hstop')
      obtain rfl | rfl := eq_of_isLineEnd hstop <;> exact absurd hcontinuation (by decide)
    have hclose := charScan_of_value (l := first :: l) isByte (by rw [cons_append, hchars]; exact hvalue) hle hstop
    rw [length_cons, cons_append] at hclose
    rw [hclose, hwidth]

/-- A character ends in its line, if that is not cut. -/
theorem charScan_line (isByte : Bool) (hchars : l ++ stop :: after = encode chars)
    (hclear : Clear l) (hstop : isLineEnd stop = true) :
    (charScan isByte (l ++ stop :: after)).2 ≤ l.length ↔ charCut l = false := by
  cases l with
  | nil =>
    rw [nil_append, charScan, charValue, if_neg (ne_apostrophe_of_isLineEnd hstop), if_pos hstop]
    exact iff_of_true (Nat.le_refl 0) rfl
  | cons first l =>
    have hend : ¬isLineEnd first = true := by
      rw [hclear first mem_cons_self]
      exact Bool.false_ne_true
    rw [charCut, length_cons]
    by_cases hquote : first = apostrophe
    · rw [cons_append, charScan, charValue, if_pos hquote, if_pos hquote]
      exact iff_of_true (by dsimp only; omega) rfl
    rw [if_neg hquote]
    by_cases hbackslash : first = backslash
    · rw [if_pos hbackslash]
      refine charScan_of_escape isByte hstop ?_
      rw [charValue, if_neg hquote, if_neg hend, if_pos hbackslash]
      cases (escape (l ++ stop :: after)).1 with
      | none => rfl
      | some result => cases result <;> rfl
    · rw [if_neg hbackslash, decide_eq_false_iff_not]
      refine charScan_of_codepoint isByte hchars hstop ?_
      rw [charValue, if_neg hquote, if_neg hend, if_neg hbackslash]

/-! ### Tokens -/

/-- A prefix has no line end exactly when it stops before the first. -/
theorem clear_take_iff (after : Bytes) (hclear : Clear l) (hstop : isLineEnd stop = true) (passed : Nat) :
    Clear ((l ++ stop :: after).take passed) ↔ passed ≤ l.length := by
  constructor
  · intro htake
    by_contra hlt
    have hmem : stop ∈ (l ++ stop :: after).take passed := by
      rw [take_append, mem_append]
      obtain ⟨more, hmore⟩ : ∃ n, passed - l.length = n + 1 := Nat.exists_eq_add_one.mpr (by omega)
      rw [hmore, take_succ_cons]
      exact .inr mem_cons_self
    rw [htake stop hmem] at hstop
    cases hstop
  · intro hle byte hmem
    rw [take_append_of_le_length hle] at hmem
    exact hclear byte (mem_of_mem_take hmem)

/-- The first line of what has more than one. -/
theorem exists_line (hends : body.any isLineEnd = true) :
    ∃ stop after, body = line body ++ stop :: after ∧ Clear (line body) ∧ isLineEnd stop = true := by
  have hclear : Clear (line body) := fun byte hmem => by simpa using mem_takeWhile_imp hmem
  obtain ⟨byte, hmem, hend⟩ := any_eq_true.mp hends
  cases hdrop : body.dropWhile fun byte => !isLineEnd byte with
  | nil =>
    have hnone := dropWhile_eq_nil_iff.mp hdrop byte hmem
    rw [hend] at hnone
    cases hnone
  | cons stop after =>
    refine ⟨stop, after, ?_, hclear, ?_⟩
    · rw [line, ← hdrop, takeWhile_append_dropWhile]
    · have hstop := head_dropWhile_not (fun byte => !isLineEnd byte) (l := body)
        (by rw [hdrop]; exact cons_ne_nil _ _)
      simp only [hdrop, head_cons] at hstop
      simpa using hstop

/-- A literal behind its quote, which takes the end of the line exactly when that is cut. -/
theorem literal_line {passed : Nat} {cut : Bytes → Bool} (hlead : Clear lead)
    (hcut : ∀ stop after, body = line body ++ stop :: after → Clear (line body) → isLineEnd stop = true →
      (passed ≤ (line body).length ↔ cut (line body) = false)) :
    Clear ((lead ++ body).take (lead.length + passed)) ↔ (body.any isLineEnd && cut (line body)) = false := by
  cases hends : body.any isLineEnd with
  | false =>
    refine iff_of_true (fun byte hmem => ?_) rfl
    rcases mem_append.mp (mem_of_mem_take hmem) with hmem | hmem
    · exact hlead byte hmem
    · exact Bool.eq_false_iff.mpr (any_eq_false.mp hends byte hmem)
  | true =>
    obtain ⟨stop, after, hbody, hclear, hstop⟩ := exists_line hends
    have hclear' : Clear (lead ++ line body) := fun byte hmem =>
      (mem_append.mp hmem).elim (hlead byte) (hclear byte)
    have htake := clear_take_iff after hclear' hstop (lead.length + passed)
    rw [append_assoc, ← hbody, length_append, Nat.add_le_add_iff_left] at htake
    rw [htake, Bool.true_and]
    exact hcut stop after hbody hclear hstop

end

/-- The bytes of a token. -/
def tokenBytes (source : String) (token : Token) : Bytes :=
  ((bytes source).drop token.span.start).take (token.span.stop - token.span.start)

section

variable {source : String} {t : Tokenizer}

theorem runsOver_cons {mark : UInt8} (hmark : isLineEnd mark = false) (hb : mark ≠ ascii 'b') (l : Bytes) :
    runsOver (mark :: l) =
      (l.any isLineEnd && if mark = quote then stringCut (line l).length (line l) else charCut (line l)) := by
  rw [runsOver, any_cons, hmark, Bool.false_or, line, takeWhile_cons_of_pos (by simp [hmark]), literalCut,
    List.head?_cons, if_neg (by simpa using hb)]
  rfl

theorem runsOver_b {mark : UInt8} (hmark : isLineEnd mark = false) (l : Bytes) :
    runsOver (ascii 'b' :: mark :: l) =
      (l.any isLineEnd && if mark = quote then stringCut (line l).length (line l) else charCut (line l)) := by
  have hb : isLineEnd (ascii 'b') = false := rfl
  rw [runsOver, any_cons, hb, Bool.false_or, any_cons, hmark, Bool.false_or, line,
    takeWhile_cons_of_pos (by simp [hb]), takeWhile_cons_of_pos (by simp [hmark]), literalCut,
    List.head?_cons, if_pos rfl]
  rfl

/-- A string stays on its line unless the line cuts it. -/
theorem string_line (hsource : t.source = bytes source) (hlead : Clear lead)
    (hrest : t.rest = lead ++ body) {kind : TokenKind} {answer : Token × Tokenizer}
    (hanswer : answer = (string t.pos kind).run (t.advance lead.length)) : answer.1.span.start = t.pos ∧
      (Clear (tokenBytes source answer.1) ↔
        (body.any isLineEnd && stringCut (line body).length (line body)) = false) := by
  have hrest₁ : (t.advance lead.length).rest = body := by rw [rest_advance, hrest, drop_left]
  rw [string_run, hrest₁] at hanswer
  subst hanswer
  refine ⟨rfl, ?_⟩
  rw [Tokenizer.rest, hsource] at hrest
  dsimp only [tokenBytes]
  rw [hrest, pos_advance, Nat.add_assoc, Nat.add_sub_cancel_left]
  refine literal_line hlead fun stop after hbody hclear hstop => ?_
  have hlt : (line body).length < body.length := by
    have hlength := congrArg List.length hbody
    rw [length_append, length_cons] at hlength
    omega
  have hscan := stringScan_line after body.length (line body).length false hclear hstop hlt (Nat.le_refl _)
  rwa [← hbody] at hscan

/-- So does a character. -/
theorem char_line (hsource : t.source = bytes source) (hlead : Clear lead)
    (hrest : t.rest = lead ++ body) (hchars : body = encode chars) {isByte : Bool} {answer : Token × Tokenizer}
    (hanswer : answer = (charLit t.pos isByte).run (t.advance lead.length)) : answer.1.span.start = t.pos ∧
      (Clear (tokenBytes source answer.1) ↔ (body.any isLineEnd && charCut (line body)) = false) := by
  have hrest₁ : (t.advance lead.length).rest = body := by rw [rest_advance, hrest, drop_left]
  rw [charLit_run, hrest₁] at hanswer
  subst hanswer
  refine ⟨rfl, ?_⟩
  rw [Tokenizer.rest, hsource] at hrest
  rw [tokenBytes, hrest, pos_advance, Nat.add_assoc, Nat.add_sub_cancel_left]
  refine literal_line hlead fun stop after hbody hclear hstop => ?_
  rw [← charScan_line isByte (hbody.symm.trans hchars) hclear hstop, ← hbody]

/-- A string or a character stays on its line unless it runs over. -/
theorem scanToken_line (hsource : t.source = bytes source) (hboundary : IsBoundary source t.pos)
    (hkind : (scanToken.run t).1.kind.isText = true) : (scanToken.run t).1.span.start = t.pos ∧
      (Clear (tokenBytes source (scanToken.run t).1) ↔ runsOver t.rest = false) := by
  obtain ⟨chars, hchars⟩ : ∃ chars, t.rest = encode chars := by
    rw [Tokenizer.rest, hsource]
    exact hboundary.drop
  have hliteral : (scanToken.run t).1.kind.isLiteral = true := by rw [TokenKind.isLiteral, hkind, Bool.true_or]
  cases scanToken_origin t hliteral with
  | byteString l hrest hrun =>
    have hlead : Clear [ascii 'b', quote] := by simp [Clear]; decide
    rw [hrest, runsOver_b rfl, if_pos rfl]
    exact string_line hsource hlead hrest hrun
  | byteChar l hrest hrun =>
    have hlead : Clear [ascii 'b', apostrophe] := by simp [Clear]; decide
    obtain ⟨chars, rfl, htail⟩ := encode_eq_cons (hchars.symm.trans hrest) (by decide)
    obtain ⟨chars, rfl, rfl⟩ := encode_eq_cons htail (by decide)
    rw [hrest, runsOver_b rfl, if_neg (by decide)]
    exact char_line hsource hlead hrest rfl hrun
  | string l hrest hrun =>
    have hlead : Clear [quote] := by simp [Clear]; decide
    rw [hrest, runsOver_cons rfl (by decide), if_pos rfl]
    exact string_line hsource hlead hrest hrun
  | char l hrest hrun =>
    have hlead : Clear [apostrophe] := by simp [Clear]; decide
    obtain ⟨chars, rfl, rfl⟩ := encode_eq_cons (hchars.symm.trans hrest) (by decide)
    rw [hrest, runsOver_cons rfl (by decide), if_neg (by decide)]
    exact char_line hsource hlead hrest rfl hrun
  | number byte l hrest hdigit hrun =>
    rw [hrun, number_isText] at hkind
    cases hkind

end

/-- **A literal stays on its line exactly when the line is not cut**: of every source there are tokens, and a string
or a character among them, accepted or not, has no end of a line unless its line stops inside of an escape or where
the closing quote of a character is expected. -/
theorem text_on_line (source : String) (more : Nat) :
    ∃ tokens, tokenize ((bytes source).length + 1 + more) source = some tokens ∧
      ∀ token ∈ tokens, token.kind.isText = true →
        (Clear (tokenBytes source token) ↔ runsOver ((bytes source).drop token.span.start) = false) := by
  obtain ⟨tokens, -, hruns⟩ := lexes (t := .new source) rfl (isBoundary_zero source)
  obtain ⟨-, htokens⟩ := hruns ((bytes source).length + 1 + more) (by simp only [Tokenizer.new]; omega)
  refine ⟨_, htokens, fun token hmem hkind => ?_⟩
  obtain ⟨t, hsource, hboundary, rfl⟩ := mem_tokenize rfl (isBoundary_zero source) htokens hmem
  obtain ⟨hstart, hline⟩ := scanToken_line hsource hboundary hkind
  rw [hline, hstart, Tokenizer.rest, hsource]

/-- A string whose line stops behind a backslash swallows the next line. -/
theorem string_swallows_line : ∃ tokens, tokenize 3 "\"\\\nx\"" = some tokens ∧
    ∃ token ∈ tokens, token.kind.isText = true ∧ ¬Clear (tokenBytes "\"\\\nx\"" token) := by
  refine ⟨[⟨.error .invalidStringEscape, 0, 5⟩, ⟨.eof, 5, 5⟩], by rfl, ⟨.error .invalidStringEscape, 0, 5⟩,
    mem_cons_self, rfl, fun hclear => ?_⟩
  exact absurd (hclear 10 (by decide)) (by decide)

end Nia.Lexer
