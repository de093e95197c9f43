import Nia.Lexer.Tokenizer
import Nia.Lib.Utf8

/-! Nothing of a source is lost.

A scanner reads bytes, and may stop in the middle of a character. Where it must not, it stops at the end of
the source, before an ASCII byte or after one, and these are boundaries of the text. Each scanner is given
the specification that it moves on and stops so; literals may pass any bytes on the way, and only the arm of
`scan_token` for a byte that is not ASCII jumps by the width of a character. The two loops over tokens are
then compared step by step: trivia is a token of `tokenize_lossless` and skipped by `tokenize`. -/
namespace Nia.Lexer

open Std.Do Lib.Utf8

set_option mvcgen.warning false

/-! ### Where a scanner may stop -/

/-- The tokenizer has moved on from the base, and no further than the end of the source. -/
structure After (base t : Tokenizer) : Prop where
  source_eq : t.source = base.source
  previous_eq : t.previousKind = base.previousKind
  le : base.pos ≤ t.pos
  fits : t.pos ≤ t.source.length

/-- The tokenizer is at the end, before an ASCII byte, or after one. -/
def Clean (t : Tokenizer) : Prop :=
  t.pos = t.source.length ∨ (∃ byte < 128, t.source[t.pos]? = some byte) ∨
    ∃ byte < 128, ∃ before, t.pos = before + 1 ∧ t.source[before]? = some byte

variable {base t : Tokenizer} {byte : UInt8}

@[grind →]
theorem After.bump (h : After base t) (hbyte : t.source[t.pos]? = some byte) :
    After base { t with pos := t.pos + 1 } :=
  ⟨h.source_eq, h.previous_eq, Nat.le_succ_of_le h.le, (List.getElem?_eq_some_iff.mp hbyte).1⟩

/-- The end of the source is a place to stop. -/
@[grind →]
theorem After.clean_of_end (h : After base t) (hend : t.source[t.pos]? = none) : Clean t :=
  .inl (Nat.le_antisymm h.fits (List.getElem?_eq_none_iff.mp hend))

/-- So is the place behind an ASCII byte. -/
@[grind →]
theorem After.clean_bump (_ : After base t) (hbyte : t.source[t.pos]? = some byte) (hascii : byte < 128) :
    Clean { t with pos := t.pos + 1 } :=
  .inr (.inr ⟨byte, hascii, t.pos, rfl, hbyte⟩)

/-- So is the place before one. -/
@[grind →]
theorem After.clean_of_ascii (_ : After base t) (hbyte : t.source[t.pos]? = some byte) (hascii : byte < 128) :
    Clean t :=
  .inr (.inl ⟨byte, hascii, hbyte⟩)

/-! ### ASCII bytes -/

/-- A predicate of bytes that only holds of ASCII ones. -/
structure AsciiOnly (holds : UInt8 → Bool) : Prop where
  lt_128 : ∀ byte, holds byte = true → byte < 128

/-- The classes of bytes the scanners read, and the letters of a radix, are of ASCII bytes. -/
theorem not_class_of_ge : ∀ b : Fin 256, 128 ≤ b.val →
    isIdentContinue (.ofNat b.val) = false ∧ isAsciiWhitespace (.ofNat b.val) = false ∧
      isLineEnd (.ofNat b.val) = false ∧ digitValue (.ofNat b.val) = none ∧
      Scan.radixOf (some (.ofNat b.val)) = none := by
  decide +kernel

/-- A byte beyond ASCII is in none of the classes. -/
theorem lt_128_or_not_class (byte : UInt8) : byte < 128 ∨ isIdentContinue byte = false ∧
    isAsciiWhitespace byte = false ∧ isLineEnd byte = false ∧ digitValue byte = none ∧
    Scan.radixOf (some byte) = none := by
  rcases Nat.lt_or_ge byte.toNat 128 with hlt | hge
  · exact .inl (UInt8.lt_iff_toNat_lt.mpr hlt)
  · refine .inr ?_
    simpa using not_class_of_ge ⟨byte.toNat, byte.toNat_lt⟩ hge

theorem isIdentContinue_ascii : AsciiOnly isIdentContinue where
  lt_128 byte h := by grind [lt_128_or_not_class byte]

theorem isAsciiWhitespace_ascii : AsciiOnly isAsciiWhitespace where
  lt_128 byte h := by grind [lt_128_or_not_class byte]

@[grind →]
theorem lt_128_of_isIdentStart (h : isIdentStart byte = true) : byte < 128 :=
  isIdentContinue_ascii.lt_128 byte (by grind [isIdentStart, isIdentContinue])

@[grind →]
theorem lt_128_of_isLineEnd (h : isLineEnd byte = true) : byte < 128 := by
  grind [lt_128_or_not_class byte]

@[grind →]
theorem lt_128_of_digitValue (h : (digitValue byte).isSome = true) : byte < 128 := by
  grind [lt_128_or_not_class byte]

@[grind →]
theorem lt_128_of_isDigitOf {radix : Nat} (h : isDigitOf radix byte = true) : byte < 128 := by
  rw [isDigitOf, Option.any_eq_true] at h
  obtain ⟨value, hvalue, -⟩ := h
  exact lt_128_of_digitValue (by simp [hvalue])

variable {holds : UInt8 → Bool} {kind : LosslessTokenKind}

namespace Scan

/-! ### Scanners of ASCII bytes -/

/-- What a scanner that returns a token promises. -/
def Scanned (base : Tokenizer) (start : Nat) (token : Token) (t : Tokenizer) : Prop :=
  After base t ∧ Clean t ∧ token.span = ⟨start, t.pos⟩ ∧ token.kind ≠ .eof

/-- What a byte of the class keeps, the loop keeps, and it stops before a byte of another class. -/
theorem bumpWhileUpTo_spec (inv : Tokenizer → Prop)
    (hstep : ∀ t byte, inv t → t.source[t.pos]? = some byte → holds byte = true → inv { t with pos := t.pos + 1 })
    (left : Nat) :
    ⦃fun t => ⌜inv t ∧ t.source.length - t.pos ≤ left⌝⦄ bumpWhileUpTo holds left
    ⦃⇓ _ t => ⌜inv t ∧ ∀ byte, t.source[t.pos]? = some byte → holds byte = false⌝⦄ := by
  induction left with
  | zero =>
    mvcgen [bumpWhileUpTo]
    all_goals grind
  | succ left ih =>
    mvcgen [bumpWhileUpTo, peek, bump, ih]
    all_goals grind

/-- What each byte that holds keeps, the loop keeps. -/
theorem bumpWhile_spec (holds : UInt8 → Bool) (inv : Tokenizer → Prop)
    (hstep : ∀ t byte, inv t → t.source[t.pos]? = some byte → holds byte = true → inv { t with pos := t.pos + 1 }) :
    ⦃fun t => ⌜inv t⌝⦄ bumpWhile holds
    ⦃⇓ _ t => ⌜inv t ∧ ∀ byte, t.source[t.pos]? = some byte → holds byte = false⌝⦄ := by
  have hloop := bumpWhileUpTo_spec inv hstep
  mvcgen [bumpWhile, hloop]

/-- A loop over ASCII bytes. -/
theorem bumpWhile_ascii (base : Tokenizer) (hascii : AsciiOnly holds) :
    ⦃fun t => ⌜After base t ∧ Clean t⌝⦄ bumpWhile holds ⦃⇓ _ t => ⌜After base t ∧ Clean t⌝⦄ := by
  have hloop := bumpWhile_spec holds (fun t => After base t ∧ Clean t) fun t byte h hbyte hholds =>
    ⟨h.1.bump hbyte, h.1.clean_bump hbyte (hascii.lt_128 byte hholds)⟩
  mvcgen [hloop]
  grind

theorem forall_of_lookup {α β : Type} [DecidableEq α] {p : β → Prop} {table : List (α × β)} {key : α} {value : β}
    (htable : ∀ entry ∈ table, p entry.2) (h : table.lookup key = some value) : p value := by
  obtain ⟨before, after, rfl, -⟩ := List.lookup_eq_some_iff.mp h
  exact htable (key, value) (by simp)

/-- No text is scanned as the end of the file. -/
theorem keyword_ne_eof (text : String) : (keyword text).getD .ident ≠ .eof := by
  cases hkind : keyword text with
  | none => decide
  | some kind =>
    refine forall_of_lookup (p := (· ≠ .eof)) ?_ hkind
    decide

section

variable (base : Tokenizer)

theorem identOrKeyword_spec (start : Nat) : ⦃fun t => ⌜After base t ∧ Clean t⌝⦄ identOrKeyword start
    ⦃⇓ token t => ⌜Scanned base start token t⌝⦄ := by
  have hloop := bumpWhile_ascii base isIdentContinue_ascii
  mvcgen [identOrKeyword, textFrom, token, hloop]
  all_goals grind [Scanned, keyword_ne_eof]

/-- Digits and underscores are ASCII, so a run of them ends at a place to stop. -/
theorem consumeDigitsUpTo_spec (radix left : Nat) (previousWasDigit : Bool) (digits : Nat) (invalid : Bool) :
    ⦃fun t => ⌜After base t ∧ Clean t⌝⦄ consumeDigitsUpTo radix left previousWasDigit digits invalid
    ⦃⇓ _ t => ⌜After base t ∧ Clean t⌝⦄ := by
  induction left generalizing previousWasDigit digits invalid with
  | zero => mvcgen [consumeDigitsUpTo]
  | succ left ih =>
    mvcgen [consumeDigitsUpTo, peek, peekNext, bump, ih]
    all_goals grind [show ascii '_' < 128 by decide]

theorem consumeNumericSuffix_spec : ⦃fun t => ⌜After base t ∧ Clean t⌝⦄ consumeNumericSuffix
    ⦃⇓ _ t => ⌜After base t ∧ Clean t⌝⦄ := by
  have hloop := bumpWhile_ascii base isIdentContinue_ascii
  mvcgen [consumeNumericSuffix, peek, bump, hloop]
  all_goals grind

theorem tryScanExponent_spec : ⦃fun t => ⌜After base t ∧ Clean t⌝⦄ tryScanExponent
    ⦃⇓ _ t => ⌜After base t ∧ Clean t⌝⦄ := by
  have hdigits := consumeDigitsUpTo_spec base
  mvcgen [tryScanExponent, peek, bump, consumeDigits, hdigits]
  all_goals grind [show ascii 'e' < 128 by decide, show ascii 'E' < 128 by decide,
    show ascii '+' < 128 by decide, show ascii '-' < 128 by decide]

theorem radixNumber_spec (start radix : Nat) : ⦃fun t => ⌜After base t ∧ Clean t⌝⦄ radixNumber start radix
    ⦃⇓ token t => ⌜Scanned base start token t⌝⦄ := by
  have hdigits := consumeDigitsUpTo_spec base
  have hsuffix := consumeNumericSuffix_spec base
  mvcgen [radixNumber, consumeDigits, token, hdigits, hsuffix]
  all_goals grind [Scanned]

theorem finishFloat_spec (start : Nat) (valid : Bool) : ⦃fun t => ⌜After base t ∧ Clean t⌝⦄ finishFloat start valid
    ⦃⇓ token t => ⌜Scanned base start token t⌝⦄ := by
  have hsuffix := consumeNumericSuffix_spec base
  mvcgen [finishFloat, token, hsuffix]
  all_goals grind [Scanned]

end

theorem lt_128_of_radixOf {radix : Nat} (h : radixOf (some byte) = some radix) : byte < 128 := by
  grind [lt_128_or_not_class byte]

/-- Every arm of a number ends behind ASCII bytes. -/
theorem number_spec (base : Tokenizer) (start : Nat) :
    ⦃fun t => ⌜After base t ∧ Clean t⌝⦄ number start
    ⦃⇓ token t => ⌜Scanned base start token t⌝⦄ := by
  have hdigits := consumeDigitsUpTo_spec base
  have hsuffix := consumeNumericSuffix_spec base
  have hexponent := tryScanExponent_spec base
  have hfloat := finishFloat_spec base
  have hradix := radixNumber_spec base
  mvcgen [number, peek, peekNext, bump, token, consumeDigits, hdigits, hsuffix, hexponent, hfloat, hradix]
  all_goals grind [Scanned, lt_128_of_radixOf, show ascii '.' < 128 by decide]

/-! ### Characters and strings -/

/-- No more than so many bytes are left. -/
def Within (base : Tokenizer) (left : Nat) (t : Tokenizer) : Prop :=
  After base t ∧ t.source.length - t.pos ≤ left

section

variable (base : Tokenizer)

theorem consumeExactHexDigits_spec (left start count : Nat) :
    ⦃fun t => ⌜Within base left t⌝⦄ consumeExactHexDigits start count ⦃⇓ _ t => ⌜Within base left t⌝⦄ := by
  induction count with
  | zero => mvcgen [consumeExactHexDigits, textFrom]
  | succ count ih =>
    mvcgen [consumeExactHexDigits, peek, bump, ih]
    all_goals grind [Within]

theorem scanUnicodeEscape_spec (left : Nat) :
    ⦃fun t => ⌜Within base left t⌝⦄ scanUnicodeEscape ⦃⇓ _ t => ⌜Within base left t⌝⦄ := by
  have hloop := bumpWhile_spec (fun byte => (digitValue byte).isSome) (Within base left)
    (by grind [Within])
  mvcgen [scanUnicodeEscape, bump, textFrom, hloop]
  all_goals grind [Within]

/-- An escape that gives nothing has met the end of the source. -/
theorem scanEscape_spec (left : Nat) : ⦃fun t => ⌜Within base left t⌝⦄ scanEscape
    ⦃⇓ escape t => ⌜Within base left t ∧ (escape = none → Clean t)⌝⦄ := by
  have hhex := consumeExactHexDigits_spec base left
  have hunicode := scanUnicodeEscape_spec base left
  mvcgen [scanEscape, bump, hhex, hunicode]
  all_goals grind [Within]

/-- A string ends behind its quote, before the end of the line, or at the end of the source. -/
theorem stringUpTo_spec (start : Nat) (kind : TokenKind) (hkind : kind ≠ .eof) (left : Nat) (invalidEscape : Bool) :
    ⦃fun t => ⌜Within base left t⌝⦄ stringUpTo start kind left invalidEscape
    ⦃⇓ token t => ⌜Scanned base start token t⌝⦄ := by
  induction left generalizing invalidEscape with
  | zero =>
    mvcgen [stringUpTo, token]
    all_goals grind [Within, Scanned]
  | succ left ih =>
    have hescape := scanEscape_spec base left
    mvcgen [stringUpTo, peek, bump, token, ih, hescape]
    all_goals grind [Within, Scanned, show quote < 128 by decide]

theorem scanContinuation_spec (count : Nat) : ⦃fun t => ⌜After base t⌝⦄ scanContinuation count
    ⦃⇓ failure t => ⌜After base t ∧ failure ≠ some .empty ∧ (failure = some .unterminated → Clean t)⌝⦄ := by
  induction count with
  | zero =>
    mvcgen [scanContinuation]
    all_goals grind
  | succ count ih =>
    mvcgen [scanContinuation, bump, ih]
    all_goals grind

theorem scanUtf8Codepoint_spec : ⦃fun t => ⌜After base t⌝⦄ scanUtf8Codepoint
    ⦃⇓ scan t => ⌜After base t ∧ scan ≠ .empty ∧ (scan = .unterminated → Clean t)⌝⦄ := by
  have hcontinuation := scanContinuation_spec base
  mvcgen [scanUtf8Codepoint, bump, textFrom, hcontinuation]
  all_goals grind

/-- A character that is empty stands before the apostrophe that closes it. -/
theorem scanCharValue_spec : ⦃fun t => ⌜After base t⌝⦄ scanCharValue
    ⦃⇓ scan t => ⌜After base t ∧ (scan = .empty → t.source[t.pos]? = some apostrophe) ∧
      (scan = .unterminated → Clean t)⌝⦄ := by
  have hescape := scanEscape_spec base base.source.length
  have hcodepoint := scanUtf8Codepoint_spec base
  mvcgen [scanCharValue, peek, bump, hescape, hcodepoint]
  all_goals grind [Within, After]

/-- The recovery stops at an apostrophe, at the end of the line or at the end of the source. -/
theorem recoverCharLiteralUpTo_spec (left : Nat) :
    ⦃fun t => ⌜Within base left t⌝⦄ recoverCharLiteralUpTo left ⦃⇓ _ t => ⌜After base t ∧ Clean t⌝⦄ := by
  induction left with
  | zero =>
    mvcgen [recoverCharLiteralUpTo]
    all_goals grind [Within]
  | succ left ih =>
    mvcgen [recoverCharLiteralUpTo, peek, bump, ih]
    all_goals grind [Within, show apostrophe < 128 by decide]

end

theorem charKind_ne_eof (isByte : Bool) (value : CharValue) : charKind isByte value ≠ .eof := by
  grind [charKind]

theorem charLit_spec (base : Tokenizer) (start : Nat) (isByte : Bool) :
    ⦃fun t => ⌜After base t⌝⦄ charLit start isByte ⦃⇓ token t => ⌜Scanned base start token t⌝⦄ := by
  have hvalue := scanCharValue_spec base
  have hrecover := recoverCharLiteralUpTo_spec base
  mvcgen [charLit, bump, token, recoverCharLiteral, hvalue, hrecover]
  all_goals grind [Within, Scanned, charKind_ne_eof, show apostrophe < 128 by decide]

/-! ### Tokens -/

theorem maybeEq_spec (base : Tokenizer) (start : Nat) (plain withEq : TokenKind) (hplain : plain ≠ .eof)
    (hwithEq : withEq ≠ .eof) :
    ⦃fun t => ⌜After base t ∧ Clean t⌝⦄ maybeEq start plain withEq
    ⦃⇓ token t => ⌜Scanned base start token t⌝⦄ := by
  mvcgen [maybeEq, eat, peek, bump, token]
  all_goals grind [Scanned, show ascii '=' < 128 by decide]

theorem dots_spec (base : Tokenizer) (start : Nat) :
    ⦃fun t => ⌜After base t ∧ Clean t⌝⦄ dots start ⦃⇓ token t => ⌜Scanned base start token t⌝⦄ := by
  have heq := maybeEq_spec base
  mvcgen [dots, eat, peek, peekNext, bump, token, heq]
  all_goals grind [Scanned, show ascii '.' < 128 by decide]

/-- Operators are one to three ASCII bytes. -/
theorem operator_spec (base : Tokenizer) (start : Nat) (byte : UInt8) :
    ⦃fun t => ⌜After base t ∧ Clean t⌝⦄ operator start byte ⦃⇓ token t => ⌜Scanned base start token t⌝⦄ := by
  have heq := maybeEq_spec base
  mvcgen [operator, eat, peek, bump, token, heq]
  all_goals grind [Scanned, show ascii ':' < 128 by decide, show ascii '>' < 128 by decide,
    show ascii '=' < 128 by decide, show ascii '<' < 128 by decide]

/-- What a scanner of the next token promises: it moves on, to a boundary of the text. -/
structure Advanced (text : String) (base : Tokenizer) (span : Span) (t : Tokenizer) : Prop where
  source_eq : t.source = base.source
  span_eq : span = ⟨base.pos, t.pos⟩
  lt : base.pos < t.pos
  boundary : IsBoundary text t.pos

variable {text : String}

/-- A place to stop is a boundary between the characters of the text. -/
theorem isBoundary_of_clean (hsource : t.source = bytes text) (h : Clean t) : IsBoundary text t.pos := by
  obtain hend | ⟨byte, hascii, hbyte⟩ | ⟨byte, hascii, before, hpos, hbyte⟩ := h
  · rw [hend, hsource]
    exact isBoundary_length text
  · exact isBoundary_of_ascii (hsource ▸ hbyte) hascii
  · rw [hpos]
    exact isBoundary_succ_of_ascii (hsource ▸ hbyte) hascii

/-- A token that was scanned covers what was passed. -/
theorem advanced_of_scanned (hsource : base.source = bytes text) {token : Token}
    (h : Scanned { base with pos := base.pos + 1 } base.pos token t) :
    Advanced text base token.span t ∧ token.kind ≠ .eof := by
  obtain ⟨hafter, hclean, hspan, hkind⟩ := h
  exact ⟨⟨hafter.source_eq, hspan, hafter.le, isBoundary_of_clean (hafter.source_eq.trans hsource) hclean⟩, hkind⟩

theorem singleTokens_ne_eof {kind : TokenKind} (h : singleTokens.lookup byte = some kind) : kind ≠ .eof := by
  refine forall_of_lookup (p := (· ≠ .eof)) ?_ h
  decide

theorem eqTokens_ne_eof {plain withEq : TokenKind} (h : eqTokens.lookup byte = some (plain, withEq)) :
    plain ≠ .eof ∧ withEq ≠ .eof := by
  refine forall_of_lookup (p := fun kinds => kinds.1 ≠ .eof ∧ kinds.2 ≠ .eof) ?_ h
  decide

/-- From an ASCII byte on, every arm of `scan_token` stops cleanly. -/
theorem scanToken_ascii (base first : Tokenizer) (hfirst : first = { base with pos := base.pos + 1 })
    (hbyte : base.source[base.pos]? = some byte) (hascii : byte < 128) :
    ⦃fun t => ⌜t = base⌝⦄ scanToken ⦃⇓ token t => ⌜Scanned first base.pos token t⌝⦄ := by
  have hlt := (List.getElem?_eq_some_iff.mp hbyte).1
  have hafter : After first first := ⟨rfl, rfl, Nat.le_refl _, by rw [hfirst]; exact hlt⟩
  have hclean : Clean first := by
    rw [hfirst]
    exact After.clean_bump ⟨rfl, rfl, Nat.le_refl _, Nat.le_of_lt hlt⟩ hbyte hascii
  have hstring := stringUpTo_spec first
  have hchar := charLit_spec first
  have hident := identOrKeyword_spec first
  have hnumber := number_spec first
  have hdots := dots_spec first
  have hoperator := operator_spec first
  have heq := maybeEq_spec first
  mvcgen [scanToken, bump, peek, string, token, unexpected, hstring, hchar, hident, hnumber, hdots, hoperator, heq]
  all_goals grind [Within, Scanned, singleTokens_ne_eof, eqTokens_ne_eof, UInt8.not_le]

/-- No arm of `scan_token` but the last is for a byte that is not ASCII. -/
theorem last_arm_of_ge : ∀ b : Fin 256, 128 ≤ b.val →
    (.ofNat b.val ≠ ascii 'b' ∧ isAsciiAlphabetic (.ofNat b.val) = false ∧ .ofNat b.val ≠ ascii '_' ∧
      isAsciiDigit (.ofNat b.val) = false ∧ .ofNat b.val ≠ quote ∧ .ofNat b.val ≠ apostrophe ∧
      .ofNat b.val ≠ ascii '.' ∧ ([':', '-', '=', '<', '>'].map ascii).contains (.ofNat b.val) = false ∧
      singleTokens.lookup (.ofNat b.val) = none ∧ eqTokens.lookup (.ofNat b.val) = none) ∧
    ((UInt8.ofNat b.val).IsUTF8FirstByte → utf8Width (.ofNat b.val) = width (.ofNat b.val)) := by
  decide +kernel

/-- A byte that is not ASCII is an error as wide as the character it leads. -/
theorem scanToken_not_ascii (base : Tokenizer) (hbyte : base.source[base.pos]? = some byte) (hge : 0x80 ≤ byte) :
    ⦃fun t => ⌜t = base⌝⦄ scanToken
    ⦃⇓ token t => ⌜token = ⟨.error (.unexpectedByte byte), base.pos, base.pos + utf8Width byte⟩ ∧
      t = { base with pos := base.pos + utf8Width byte }⌝⦄ := by
  have hnat : 128 ≤ byte.toNat := UInt8.le_iff_toNat_le.mp hge
  have hlast := (last_arm_of_ge ⟨byte.toNat, byte.toNat_lt⟩ hnat).1
  simp only [UInt8.ofNat_toNat] at hlast
  mvcgen [scanToken, bump, peek, unexpected, token]
  all_goals grind

/-- The width the scanner jumps by is that of the character. -/
theorem utf8Width_eq (hfirst : byte.IsUTF8FirstByte) (hge : 0x80 ≤ byte) : utf8Width byte = width byte := by
  have hnat : 128 ≤ byte.toNat := UInt8.le_iff_toNat_le.mp hge
  have hwidth := (last_arm_of_ge ⟨byte.toNat, byte.toNat_lt⟩ hnat).2
  rw [UInt8.ofNat_toNat] at hwidth
  exact hwidth hfirst

theorem width_pos (byte : UInt8) : 0 < width byte := by
  unfold width
  split_ifs <;> simp

/-- A specification, read as a fact about the run. -/
theorem run_of_triple {α : Type} {scan : Scan α} {p : α → Tokenizer → Prop}
    (h : ⦃fun t => ⌜t = base⌝⦄ scan ⦃⇓ a t => ⌜p a t⌝⦄) : p (scan.run base).1 (scan.run base).2 :=
  StateM.of_wp_run_eq rfl (fun r => p r.1 r.2) (fun _ => h base rfl)

/-- A token moves on from a boundary to a boundary. -/
theorem scanToken_spec (hsource : base.source = bytes text) (hboundary : IsBoundary text base.pos)
    (hbyte : base.source[base.pos]? = some byte) :
    Advanced text base (scanToken.run base).1.span (scanToken.run base).2 ∧ (scanToken.run base).1.kind ≠ .eof := by
  rcases UInt8.lt_or_le byte 0x80 with hascii | hge
  · exact advanced_of_scanned hsource (run_of_triple (scanToken_ascii base _ rfl hbyte hascii))
  · obtain ⟨htoken, hstate⟩ := run_of_triple (scanToken_not_ascii base hbyte hge)
    rw [hsource] at hbyte
    have hwidth := utf8Width_eq (hboundary.isFirst hbyte) hge
    rw [htoken, hstate, hwidth]
    exact ⟨⟨rfl, rfl, Nat.lt_add_of_pos_right (width_pos byte), hboundary.next hbyte⟩, by simp⟩

/-! ### Trivia -/

/-- Trivia that is there is passed. -/
theorem bumpWhile_passes (base first : Tokenizer) (hfirst : first = { base with pos := base.pos + 1 })
    (hbyte : base.source[base.pos]? = some byte) (hholds : holds byte = true) :
    ⦃fun t => ⌜t = base⌝⦄ bumpWhile holds
    ⦃⇓ _ t => ⌜After first t ∧ (∀ byte, t.source[t.pos]? = some byte → holds byte = false) ∧
      (AsciiOnly holds → Clean t)⌝⦄ := by
  have hlt := (List.getElem?_eq_some_iff.mp hbyte).1
  have hbase : After base base := ⟨rfl, rfl, Nat.le_refl _, Nat.le_of_lt hlt⟩
  have hloop := bumpWhile_spec holds (fun t => t = base ∨ After first t ∧ (AsciiOnly holds → Clean t)) (by
    rintro t byte (rfl | ⟨hafter, -⟩) hat hbyte'
    · refine .inr ⟨?_, fun hascii => hbase.clean_bump hat (hascii.lt_128 byte hbyte')⟩
      rw [hfirst]
      exact ⟨rfl, rfl, Nat.le_refl _, hlt⟩
    · exact .inr ⟨hafter.bump hat, fun hascii => hafter.clean_bump hat (hascii.lt_128 byte hbyte')⟩)
  mvcgen [hloop]
  all_goals grind

/-- The trivia the tokenizer is at, with the bytes it goes on for. -/
def triviaAt (t : Tokenizer) : Option (LosslessTokenKind × (UInt8 → Bool)) :=
  if t.source[t.pos]?.any isAsciiWhitespace then some (.whitespace, isAsciiWhitespace)
  else if t.source[t.pos]? = some (ascii '/') ∧ t.source[t.pos + 1]? = some (ascii '/') then
    some (.lineComment, (· ≠ 10))
  else none

section Equations

variable {α β : Type}

theorem run_bind (scan : Scan α) (next : α → Scan β) (t : Tokenizer) :
    (scan >>= next).run t = (next (scan.run t).1).run (scan.run t).2 := rfl

theorem run_pure (a : α) (t : Tokenizer) : (pure a : Scan α).run t = (a, t) := rfl

theorem run_get (t : Tokenizer) : (get : Scan Tokenizer).run t = (t, t) := rfl

theorem run_ite (c : Prop) [Decidable c] (x y : Scan α) (t : Tokenizer) :
    (if c then x else y).run t = if c then x.run t else y.run t := by
  split_ifs <;> rfl

theorem run_peek (t : Tokenizer) : peek.run t = (t.source[t.pos]?, t) := rfl

theorem run_atComment (t : Tokenizer) : atComment.run t =
    (decide (t.source[t.pos]? = some (ascii '/')) && decide (t.source[t.pos + 1]? = some (ascii '/')), t) := rfl

/-- At the end the lossless token is the end of the file, -/
theorem nextLosslessToken_end (h : t.source[t.pos]? = none) :
    nextLosslessToken.run t = (⟨.token .eof, t.pos, t.pos⟩, t) := by
  simp only [nextLosslessToken, run_bind, run_get, run_peek, h, run_pure]

/-- at trivia it is the whole of the trivia, -/
theorem nextLosslessToken_trivia (h : triviaAt t = some (kind, holds)) : nextLosslessToken.run t =
      (⟨kind, t.pos, ((bumpWhile holds).run t).2.pos⟩, ((bumpWhile holds).run t).2) := by
  unfold triviaAt at h
  split_ifs at h with hspace hcomment
  · cases h
    obtain ⟨byte, hbyte, hholds⟩ := Option.any_eq_true .. |>.mp hspace
    simp only [nextLosslessToken, run_bind, run_get, run_peek, hbyte, if_pos hholds, consumeWhitespace, run_pure]
  · cases h
    have hslash : ¬ isAsciiWhitespace (ascii '/') = true := by decide
    simp only [nextLosslessToken, run_bind, run_get, run_peek, run_atComment, hcomment, if_neg hslash,
      consumeLineComment, run_pure, decide_true, Bool.and_self, if_true]

/-- and elsewhere it is the token without trivia. -/
theorem nextLosslessToken_token (hbyte : t.source[t.pos]? = some byte) (h : triviaAt t = none) :
    nextLosslessToken.run t =
      (⟨.token (nextToken.run t).1.kind, (nextToken.run t).1.span⟩, (nextToken.run t).2) := by
  unfold triviaAt at h
  split_ifs at h with hspace hcomment
  simp only [nextLosslessToken, run_bind, run_get, run_peek, run_ite, run_atComment, hbyte, run_pure]
  grind

/-- The skipping passes one run of trivia after the other. -/
theorem skipTriviaUpTo_succ (left : Nat) (t : Tokenizer) : (skipTriviaUpTo (left + 1)).run t =
    match triviaAt t with
    | some (_, holds) => (skipTriviaUpTo left).run ((bumpWhile holds).run t).2
    | none => ((), t) := by
  simp only [skipTriviaUpTo, run_bind, run_ite]
  unfold triviaAt
  rcases Bool.eq_false_or_eq_true (t.source[t.pos]?.any isAsciiWhitespace) with hspace | hspace
  · simp only [run_peek, hspace, if_true, consumeWhitespace, run_bind, run_pure]
  · simp only [run_peek, hspace, run_atComment, Bool.false_eq_true, if_false, consumeLineComment, run_bind, run_pure]
    grind

theorem skipTriviaUpTo_none (left : Nat) (h : triviaAt t = none) : (skipTriviaUpTo left).run t = ((), t) := by
  cases left with
  | zero => rfl
  | succ left => rw [skipTriviaUpTo_succ, h]

theorem run_nextToken (t : Tokenizer) : nextToken.run t =
    ((scanToken.run t).1, { (scanToken.run t).2 with previousKind := some (scanToken.run t).1.kind }) := rfl

theorem scanToken_end (h : t.source[t.pos]? = none) : scanToken.run t = (⟨.eof, t.pos, t.pos⟩, t) := by
  simp only [scanToken, bump, token, run_bind, run_get, h, run_pure]

end Equations

variable {kind : LosslessTokenKind} {holds : UInt8 → Bool}

theorem triviaAt_end (h : t.source[t.pos]? = none) : triviaAt t = none := by
  simp [triviaAt, h]

/-- Trivia starts with one of its bytes, and stops cleanly. -/
theorem triviaAt_spec (h : triviaAt t = some (kind, holds)) :
    (kind = .whitespace ∨ kind = .lineComment) ∧ (∃ byte, t.source[t.pos]? = some byte ∧ holds byte = true) ∧
      (AsciiOnly holds ∨ ∀ byte, holds byte = false → byte < 128) := by
  unfold triviaAt at h
  split_ifs at h with hspace hcomment
  · cases h
    exact ⟨.inl rfl, Option.any_eq_true .. |>.mp hspace, .inl isAsciiWhitespace_ascii⟩
  · cases h
    exact ⟨.inr rfl, ⟨_, hcomment.1, by decide⟩, .inr (by simp)⟩

/-- Trivia covers what was passed, too. -/
theorem advanced_of_trivia (hsource : t.source = bytes text) (h : triviaAt t = some (kind, holds)) :
    Advanced text t ⟨t.pos, ((bumpWhile holds).run t).2.pos⟩ ((bumpWhile holds).run t).2 := by
  obtain ⟨-, ⟨byte, hbyte, hholds⟩, hstop⟩ := triviaAt_spec h
  obtain ⟨hafter, hnot, hclean⟩ := run_of_triple (bumpWhile_passes t _ rfl hbyte hholds)
  refine ⟨hafter.source_eq, rfl, hafter.le, isBoundary_of_clean (hafter.source_eq.trans hsource) ?_⟩
  rcases hstop with hascii | hascii
  · exact hclean hascii
  · cases hat : ((bumpWhile holds).run t).2.source[((bumpWhile holds).run t).2.pos]? with
    | none => exact hafter.clean_of_end hat
    | some byte => exact hafter.clean_of_ascii hat (hascii byte (hnot byte hat))

/-- More rounds than bytes change nothing. -/
theorem skipTriviaUpTo_eq (a b : Nat) (hsource : t.source = bytes text)
    (ha : t.source.length - t.pos ≤ a) (hb : t.source.length - t.pos ≤ b) :
    (skipTriviaUpTo a).run t = (skipTriviaUpTo b).run t := by
  induction a generalizing b t with
  | zero =>
    have htrivia : triviaAt t = none := triviaAt_end (List.getElem?_eq_none (by omega))
    rw [skipTriviaUpTo_none 0 htrivia, skipTriviaUpTo_none b htrivia]
  | succ a ih =>
    cases htrivia : triviaAt t with
    | none => rw [skipTriviaUpTo_none _ htrivia, skipTriviaUpTo_none b htrivia]
    | some trivia =>
      obtain ⟨kind, holds⟩ := trivia
      have hadvanced := advanced_of_trivia hsource htrivia
      have hlt := hadvanced.lt
      have hle := hadvanced.boundary.le_length
      rw [← hsource] at hle
      obtain ⟨b, rfl⟩ : ∃ b', b = b' + 1 := Nat.exists_eq_add_one.mpr (by omega)
      simp only [skipTriviaUpTo_succ, htrivia]
      refine ih b (hadvanced.source_eq.trans hsource) ?_ ?_
      · rw [hadvanced.source_eq]
        omega
      · rw [hadvanced.source_eq]
        omega

/-- Trivia that is passed is not seen again. -/
theorem skipTrivia_trivia (hsource : t.source = bytes text) (h : triviaAt t = some (kind, holds)) :
    skipTrivia.run t = skipTrivia.run ((bumpWhile holds).run t).2 := by
  have hadvanced := advanced_of_trivia hsource h
  have hlt := hadvanced.lt
  have hle := hadvanced.boundary.le_length
  rw [← hsource] at hle
  obtain ⟨left, hleft⟩ : ∃ left, t.source.length - t.pos = left + 1 := Nat.exists_eq_add_one.mpr (by omega)
  calc skipTrivia.run t
    _ = (skipTriviaUpTo (left + 1)).run t := by simp only [skipTrivia, run_bind, run_get, hleft]
    _ = (skipTriviaUpTo left).run ((bumpWhile holds).run t).2 := by simp only [skipTriviaUpTo_succ, h]
    _ = skipTrivia.run ((bumpWhile holds).run t).2 := by
      simp only [skipTrivia, run_bind, run_get]
      refine skipTriviaUpTo_eq _ _ (hadvanced.source_eq.trans hsource) ?_ (Nat.le_refl _)
      rw [hadvanced.source_eq]
      omega

end Scan

/-! ### Runs -/

/-- The tokens follow one another from an offset to another, from boundary to boundary, each with a byte of
its own and none of them the end. -/
def Tiles (text : String) : Nat → List LosslessToken → Nat → Prop
  | start, [], stop => start = stop
  | start, token :: rest, stop =>
    token.span.start = start ∧ start < token.span.stop ∧ IsBoundary text start ∧
      IsBoundary text token.span.stop ∧ token.kind ≠ .token .eof ∧ Tiles text token.span.stop rest stop

/-- The token at the end of a source. -/
def eofAt (offset : Nat) : LosslessToken := ⟨.token .eof, offset, offset⟩

/-- What both loops make of the rest of a source, however many tokens they are allowed beyond its bytes. -/
def Lexes (text : String) (t : Tokenizer) : Prop :=
  ∃ tokens, Tiles text t.pos tokens (bytes text).length ∧
    ∀ limit > (bytes text).length - t.pos,
      t.tokenizeLossless limit = some (tokens ++ [eofAt (bytes text).length]) ∧
      t.tokenize limit = some ((tokens ++ [eofAt (bytes text).length]).filterMap LosslessToken.significant)

open Scan

theorem tokenizeLossless_succ (limit : Nat) (t : Tokenizer) : t.tokenizeLossless (limit + 1) =
    if (nextLosslessToken.run t).1.kind = .token .eof then some [(nextLosslessToken.run t).1]
    else ((nextLosslessToken.run t).2.tokenizeLossless limit).map ((nextLosslessToken.run t).1 :: ·) := rfl

theorem tokenize_succ (limit : Nat) (t : Tokenizer) : t.tokenize (limit + 1) =
    if (nextToken.run (skipTrivia.run t).2).1.kind = .eof then some [(nextToken.run (skipTrivia.run t).2).1]
    else ((nextToken.run (skipTrivia.run t).2).2.tokenize limit).map
      ((nextToken.run (skipTrivia.run t).2).1 :: ·) := rfl

theorem skipTrivia_none (h : triviaAt t = none) : (skipTrivia.run t).2 = t := by
  have hrun := skipTriviaUpTo_none (t.source.length - t.pos) h
  simp only [skipTrivia, run_bind, run_get, hrun]

section Lexes

variable {text : String} (hsource : t.source = bytes text)
include hsource

/-- At the end both loops give the end of the file alone. -/
theorem lexes_end (hend : t.pos = (bytes text).length) : Lexes text t := by
  have hnone : t.source[t.pos]? = none := List.getElem?_eq_none (by rw [hsource, hend])
  refine ⟨[], hend, fun limit hlimit => ?_⟩
  obtain ⟨limit, rfl⟩ : ∃ n, limit = n + 1 := Nat.exists_eq_add_one.mpr (by omega)
  constructor
  · rw [tokenizeLossless_succ, nextLosslessToken_end hnone, hend]
    rfl
  · rw [tokenize_succ, skipTrivia_none (triviaAt_end hnone), run_nextToken, scanToken_end hnone, hend]
    rfl

/-- Trivia is a token of one loop, and nothing to the other. -/
theorem lexes_trivia (hboundary : IsBoundary text t.pos)
    (htrivia : triviaAt t = some (kind, holds)) (h : Lexes text ((bumpWhile holds).run t).2) : Lexes text t := by
  obtain ⟨tokens, htiles, hruns⟩ := h
  obtain ⟨hkind, -⟩ := triviaAt_spec htrivia
  have hadvanced := advanced_of_trivia hsource htrivia
  have hlt := hadvanced.lt
  have hle := hadvanced.boundary.le_length
  have hnot : kind ≠ .token .eof := by
    rintro rfl
    simp at hkind
  refine ⟨⟨kind, t.pos, ((bumpWhile holds).run t).2.pos⟩ :: tokens,
    ⟨rfl, hlt, hboundary, hadvanced.boundary, hnot, htiles⟩, fun limit hlimit => ?_⟩
  constructor
  · obtain ⟨limit, rfl⟩ : ∃ n, limit = n + 1 := Nat.exists_eq_add_one.mpr (by omega)
    rw [tokenizeLossless_succ, nextLosslessToken_trivia htrivia, if_neg hnot, (hruns limit (by omega)).1]
    rfl
  · obtain ⟨left, rfl⟩ : ∃ n, limit = n + 1 := Nat.exists_eq_add_one.mpr (by omega)
    rw [tokenize_succ, skipTrivia_trivia hsource htrivia, ← tokenize_succ, (hruns (left + 1) (by omega)).2]
    rcases hkind with rfl | rfl <;> rfl

/-- Any other token is one of both loops. -/
theorem lexes_token (hboundary : IsBoundary text t.pos) {byte : UInt8} (hbyte : t.source[t.pos]? = some byte)
    (htrivia : triviaAt t = none) (h : Lexes text (nextToken.run t).2) : Lexes text t := by
  obtain ⟨tokens, htiles, hruns⟩ := h
  obtain ⟨hadvanced, hkind⟩ := scanToken_spec hsource hboundary hbyte
  have hlt := hadvanced.lt
  have hle := hadvanced.boundary.le_length
  have hspan := hadvanced.span_eq
  rw [run_nextToken] at htiles hruns
  refine ⟨⟨.token (scanToken.run t).1.kind, (scanToken.run t).1.span⟩ :: tokens, ?_, fun limit hlimit => ?_⟩
  · rw [Tiles, hspan]
    exact ⟨rfl, hlt, hboundary, hadvanced.boundary, by simpa using hkind, htiles⟩
  · obtain ⟨limit, rfl⟩ : ∃ n, limit = n + 1 := Nat.exists_eq_add_one.mpr (by omega)
    obtain ⟨hlossless, htokens⟩ := hruns limit (by simp only; omega)
    constructor
    · rw [tokenizeLossless_succ, nextLosslessToken_token hbyte htrivia, run_nextToken, if_neg (by simpa using hkind),
        hlossless]
      rfl
    · rw [tokenize_succ, skipTrivia_none htrivia, run_nextToken, if_neg hkind, htokens]
      rfl

/-- From every boundary on, both loops read the rest of the source. -/
theorem lexes (hboundary : IsBoundary text t.pos) : Lexes text t := by
  induction hleft : (bytes text).length - t.pos using Nat.strong_induction_on generalizing t with
  | _ left ih =>
    have hle := hboundary.le_length
    cases hat : t.source[t.pos]? with
    | none =>
      have hend := List.getElem?_eq_none_iff.mp hat
      rw [hsource] at hend
      exact lexes_end hsource (Nat.le_antisymm hle hend)
    | some byte =>
      have hlt := (List.getElem?_eq_some_iff.mp hat).1
      rw [hsource] at hlt
      cases htrivia : triviaAt t with
      | none =>
        obtain ⟨hadvanced, -⟩ := scanToken_spec hsource hboundary hat
        have hpos := hadvanced.lt
        refine lexes_token hsource hboundary hat htrivia ?_
        rw [run_nextToken]
        exact ih _ (by simp only; omega) (hadvanced.source_eq.trans hsource) hadvanced.boundary rfl
      | some trivia =>
        have hadvanced := advanced_of_trivia hsource htrivia
        have hpos := hadvanced.lt
        exact lexes_trivia hsource hboundary htrivia
          (ih _ (by omega) (hadvanced.source_eq.trans hsource) hadvanced.boundary rfl)

end Lexes

/-- **Nothing of a source is lost**: for every text there are tokens that follow one another from its
first byte to its last, each from one character boundary to a later one and none of them the end, such that
`tokenize_lossless` gives these and the end, and `tokenize` gives the same without trivia. The number is how
many tokens are allowed beyond the bytes of the text and the end. -/
theorem lossless_and_significant (text : String) :
    ∃ tokens, Tiles text 0 tokens (bytes text).length ∧
      ∀ more, tokenizeLossless ((bytes text).length + 1 + more) text =
          some (tokens ++ [eofAt (bytes text).length]) ∧
        tokenize ((bytes text).length + 1 + more) text =
          some ((tokens ++ [eofAt (bytes text).length]).filterMap LosslessToken.significant) := by
  obtain ⟨tokens, htiles, hruns⟩ := lexes (t := .new text) rfl (isBoundary_zero text)
  exact ⟨tokens, htiles, fun more => hruns _ (by simp only [Tokenizer.new]; omega)⟩

end Nia.Lexer
