import Nia.Lexer.Lossless

/-! The scanners of literals, on what is left of the source.

What a scanner does depends on the bytes from its position on. Each is followed here along that list: it answers,
and it passes so many bytes. -/
namespace Nia.Lexer

open List

/-- The bytes from the position on. -/
def Tokenizer.rest (t : Tokenizer) : Bytes := t.source.drop t.pos

/-- The tokenizer behind some more bytes. -/
def Tokenizer.advance (t : Tokenizer) (count : Nat) : Tokenizer := { t with pos := t.pos + count }

variable (t : Tokenizer) {byte : UInt8} {l : Bytes}

theorem rest_advance (count : Nat) : (t.advance count).rest = t.rest.drop count :=
  drop_drop.symm

theorem advance_advance (count count' : Nat) : (t.advance count).advance count' = t.advance (count + count') :=
  congrArg (fun pos => { t with pos }) (Nat.add_assoc _ _ _)

theorem pos_advance (count : Nat) : (t.advance count).pos = t.pos + count := rfl

theorem advance_zero : t.advance 0 = t := rfl

theorem head?_rest : t.source[t.pos]? = t.rest.head? := by
  rw [Tokenizer.rest, List.head?_drop]

theorem length_rest : t.rest.length = t.source.length - t.pos := length_drop

/-- A string or a character, be it malformed. -/
def TokenKind.isText : TokenKind → Bool
  | .string | .byteString | .char | .byteChar | .error .unterminatedString | .error .invalidStringEscape
  | .error .unterminatedChar | .error .emptyChar | .error .invalidByteChar | .error .invalidCharEscape => true
  | _ => false

/-- A token whose text has a value. -/
def TokenKind.isLiteral (kind : TokenKind) : Bool := kind.isText || kind = .integer

namespace Scan

/-! ### Single bytes -/

theorem peek_run : peek.run t = (t.rest.head?, t) := by
  rw [run_peek, head?_rest]

theorem peekNext_run : peekNext.run t = (t.rest[1]?, t) := by
  show (t.source[t.pos + 1]?, t) = _
  rw [Tokenizer.rest, List.getElem?_drop]

theorem bump_end {t : Tokenizer} (h : t.rest = []) : bump.run t = (none, t) := by
  have hnone : t.source[t.pos]? = none := by rw [head?_rest, h, List.head?_nil]
  simp only [bump, run_bind, run_get, hnone, run_pure]

theorem bump_cons {t : Tokenizer} (h : t.rest = byte :: l) : bump.run t = (some byte, t.advance 1) := by
  have hsome : t.source[t.pos]? = some byte := by rw [head?_rest, h, List.head?_cons]
  simp only [bump, run_bind, run_get, hsome]
  rfl

theorem rest_advance_one {t : Tokenizer} (h : t.rest = byte :: l) : (t.advance 1).rest = l := by
  rw [rest_advance, h, drop_one, tail_cons]

theorem textFrom_run (count : Nat) : (textFrom t.pos).run (t.advance count) = (t.rest.take count, t.advance count) := by
  show ((t.source.drop t.pos).take (t.pos + count - t.pos), t.advance count) = _
  rw [Nat.add_sub_cancel_left]
  rfl

/-! ### Loops -/

theorem bumpWhileUpTo_run {t : Tokenizer} (holds : UInt8 → Bool) {left : Nat} (hleft : t.rest.length ≤ left) :
    (bumpWhileUpTo holds left).run t =
      ((t.rest.takeWhile holds).length, t.advance (t.rest.takeWhile holds).length) := by
  induction left generalizing t with
  | zero =>
    rw [length_eq_zero_iff.mp (Nat.le_zero.mp hleft)]
    rfl
  | succ left ih =>
    rw [bumpWhileUpTo, run_bind, peek_run]
    cases hrest : t.rest with
    | nil => rfl
    | cons byte l =>
      rw [hrest, length_cons] at hleft
      dsimp only [List.head?_cons]
      by_cases hholds : holds byte = true
      · have hrest₁ := rest_advance_one hrest
        rw [if_pos hholds, run_bind, bump_cons hrest, run_bind, ih (by rw [hrest₁]; omega), hrest₁,
          takeWhile_cons_of_pos hholds, run_pure, advance_advance, length_cons, Nat.add_comm 1]
      · rw [if_neg hholds, takeWhile_cons_of_neg hholds]
        rfl

/-- The loop passes the longest run of bytes that hold. -/
theorem bumpWhile_run (holds : UInt8 → Bool) (t : Tokenizer) : (bumpWhile holds).run t =
    ((t.rest.takeWhile holds).length, t.advance (t.rest.takeWhile holds).length) := by
  rw [bumpWhile, run_bind, run_get]
  exact bumpWhileUpTo_run holds (Nat.le_of_eq (length_rest t))

/-! ### Escapes -/

def isHex (byte : UInt8) : Bool := (digitValue byte).isSome

/-- What `\xHH` stands for behind its letter, and the bytes that are passed. -/
def hexEscape (l : Bytes) : Option Nat × Nat :=
  let digits := (l.take 2).takeWhile (isDigitOf 16)
  (if digits.length = 2 then fromHex digits else none, digits.length)

/-- What `\u` with a number in braces stands for behind its letter, and the bytes that are passed. -/
def unicodeEscape : Bytes → Option CharValue × Nat
  | [] => (none, 0)
  | c :: l =>
    if c ≠ ascii '{' then (none, 1)
    else
      let digits := l.takeWhile isHex
      if digits.length = 0 || 6 < digits.length then (none, 1 + digits.length)
      else
        match l.drop digits.length with
        | [] => (none, 1 + digits.length)
        | close :: _ =>
          (if close ≠ ascii '}' then none
            else ((fromHex digits).bind charFromU32).map fun c => ⟨c.toNat, c.utf8Size⟩, 2 + digits.length)

/-- What stands behind a backslash, and the bytes that are passed. -/
def escape : Bytes → Option (Option CharValue) × Nat
  | [] => (none, 0)
  | c :: l =>
    match simpleEscapes.lookup c with
    | some value => (some (some ⟨value, 1⟩), 1)
    | none =>
      if c = ascii 'x' then (some ((hexEscape l).1.map fun value => ⟨value, 1⟩), 1 + (hexEscape l).2)
      else if c = ascii 'u' then (some (unicodeEscape l).1, 1 + (unicodeEscape l).2)
      else (some none, 1)

/-- Fewer than `count` hexadecimal digits give nothing, and are passed. -/
theorem consumeExactHexDigits_run (passed count : Nat) : (consumeExactHexDigits t.pos count).run (t.advance passed) =
      let digits := ((t.rest.drop passed).take count).takeWhile (isDigitOf 16)
      (if digits.length = count then fromHex (t.rest.take (passed + count)) else none,
        t.advance (passed + digits.length)) := by
  induction count generalizing passed with
  | zero =>
    rw [consumeExactHexDigits, run_bind, textFrom_run, run_pure, take_zero, takeWhile_nil]
    rfl
  | succ count ih =>
    rw [consumeExactHexDigits, run_bind, peek_run, rest_advance, run_ite]
    cases hrest : t.rest.drop passed with
    | nil => rfl
    | cons byte l =>
      have hrest₁ : (t.advance passed).rest = byte :: l := (rest_advance t passed).trans hrest
      have hdrop : t.rest.drop (passed + 1) = l := by rw [← drop_drop, hrest, drop_one, tail_cons]
      by_cases hdigit : isDigitOf 16 byte = true
      · simp only [List.head?_cons, Option.any_some, hdigit, if_true, run_bind, bump_cons hrest₁, advance_advance, ih,
          hdrop, take_succ_cons, takeWhile_cons_of_pos, length_cons, Nat.add_right_cancel_iff,
          Nat.add_assoc, Nat.add_comm 1]
      · simp only [List.head?_cons, Option.any_some, hdigit, Bool.false_eq_true, if_false, run_pure,
          take_succ_cons, not_false_eq_true, takeWhile_cons_of_neg]
        rfl

/-- The scanner of a `\x` escape computes `hexEscape`. -/
theorem hexEscape_run : (consumeExactHexDigits t.pos 2).run t =
    ((hexEscape t.rest).1, t.advance (hexEscape t.rest).2) := by
  have hrun := consumeExactHexDigits_run t 0 2
  rw [advance_zero, drop_zero, Nat.zero_add] at hrun
  dsimp only at hrun
  rw [Nat.zero_add] at hrun
  rw [hrun, hexEscape]
  dsimp only
  split
  · rename_i htwo
    have htake : (t.rest.take 2).takeWhile (isDigitOf 16) = t.rest.take 2 := by
      refine ( takeWhile_prefix _).eq_of_length_le ?_
      rw [htwo]
      exact length_take_le 2 _
    rw [htake]
  · rfl

/-- The scanner of a `u` escape computes `unicodeEscape`. -/
theorem scanUnicodeEscape_run : scanUnicodeEscape.run t =
    ((unicodeEscape t.rest).1, t.advance (unicodeEscape t.rest).2) := by
  rw [scanUnicodeEscape, run_bind]
  cases hrest : t.rest with
  | nil =>
    rw [bump_end hrest, run_ite, if_pos (by simp)]
    rfl
  | cons c l =>
    have hrest₁ := rest_advance_one hrest
    rw [bump_cons hrest, unicodeEscape]
    by_cases hopen : c = ascii '{'
    · rw [run_ite, if_neg (by simp [hopen]), if_neg (by simp [hopen]), run_bind, run_get, run_bind, bumpWhile_run,
        hrest₁]
      have hhex : (fun byte => (digitValue byte).isSome) = isHex := rfl
      simp only [hhex, run_ite]
      have hdigits : (l.takeWhile isHex) = l.take (l.takeWhile isHex).length :=
        prefix_iff_eq_take.mp ( takeWhile_prefix _)
      generalize (l.takeWhile isHex).length = count at hdigits ⊢
      split
      · rw [run_pure, advance_advance]
      · have hrest₂ : ((t.advance 1).advance count).rest = l.drop count := by rw [rest_advance, hrest₁]
        rw [run_bind, textFrom_run, hrest₁, ← hdigits, run_bind]
        cases htail : l.drop count with
        | nil =>
          rw [htail] at hrest₂
          rw [bump_end hrest₂, run_ite, if_pos (by simp), run_pure, advance_advance]
        | cons close tail =>
          rw [htail] at hrest₂
          rw [bump_cons hrest₂, run_ite, advance_advance, advance_advance, show 1 + (count + 1) = 2 + count by omega]
          by_cases hclose : close = ascii '}'
          · simp only [hclose, ne_eq, not_true_eq_false, if_false, run_pure]
          · simp only [Option.some.injEq, hclose, ne_eq, not_false_eq_true, if_true, run_pure]
    · rw [run_ite, if_pos (by simpa using hopen), if_pos hopen]
      rfl

/-- The scanner of an escape computes `escape`. -/
theorem scanEscape_run : scanEscape.run t = ((escape t.rest).1, t.advance (escape t.rest).2) := by
  rw [scanEscape, run_bind]
  cases hrest : t.rest with
  | nil =>
    rw [bump_end hrest]
    rfl
  | cons c l =>
    have hrest₁ := rest_advance_one hrest
    rw [bump_cons hrest, escape]
    dsimp only
    cases simpleEscapes.lookup c with
    | some value => rfl
    | none =>
      dsimp only
      rw [run_ite]
      split
      · rw [run_bind, run_get]
        dsimp only
        rw [run_bind, hexEscape_run, hrest₁, run_pure, advance_advance]
      · rw [run_ite]
        split
        · rw [run_bind, scanUnicodeEscape_run, hrest₁, run_pure, advance_advance]
        · rfl

/-! ### Strings -/

/-- The body of a string: whether it is closed and has an invalid escape, and the bytes that are passed. -/
def stringScan : Nat → Bytes → Bool → Option Bool × Nat
  | 0, _, _ => (none, 0)
  | _ + 1, [], _ => (none, 0)
  | left + 1, byte :: l, invalidEscape =>
    if byte = quote then (some invalidEscape, 1)
    else if isLineEnd byte then (none, 0)
    else if byte = backslash then
      let scan := stringScan left (l.drop (escape l).2) (invalidEscape || (escape l).1.join.isNone)
      (scan.1, 1 + (escape l).2 + scan.2)
    else
      let scan := stringScan left l invalidEscape
      (scan.1, 1 + scan.2)

def stringKind (successKind : TokenKind) : Option Bool → TokenKind
  | none => .error .unterminatedString
  | some true => .error .invalidStringEscape
  | some false => successKind

theorem token_run (kind : TokenKind) (start : Nat) (t : Tokenizer) :
    (token kind start).run t = (⟨kind, start, t.pos⟩, t) := rfl

variable (start : Nat)

/-- The scanner of a string computes `stringScan`. -/
theorem stringUpTo_run (successKind : TokenKind) (left : Nat) (invalidEscape : Bool) (t : Tokenizer) :
    (stringUpTo start successKind left invalidEscape).run t =
      let scan := stringScan left t.rest invalidEscape
      (⟨stringKind successKind scan.1, start, t.pos + scan.2⟩, t.advance scan.2) := by
  induction left generalizing invalidEscape t with
  | zero => rfl
  | succ left ih =>
    rw [stringUpTo, run_bind, peek_run]
    cases hrest : t.rest with
    | nil => rfl
    | cons byte l =>
      have hrest₁ := rest_advance_one hrest
      rw [stringScan]
      dsimp only [List.head?_cons]
      rw [run_ite]
      split
      · rw [run_bind, bump_cons hrest, token_run]
        cases invalidEscape <;> rfl
      rw [run_ite]
      split
      · rfl
      rw [run_ite]
      split
      · rw [run_bind, bump_cons hrest, run_bind, scanEscape_run, hrest₁, ih]
        dsimp only
        rw [rest_advance, hrest₁, advance_advance, advance_advance, pos_advance, Nat.add_assoc]
      · rw [run_bind, bump_cons hrest, ih, hrest₁]
        dsimp only
        rw [advance_advance, pos_advance, Nat.add_assoc]

/-- The length of the rest is enough fuel for a string. -/
theorem string_run (successKind : TokenKind) (t : Tokenizer) : (string start successKind).run t =
      let scan := stringScan t.rest.length t.rest false
      (⟨stringKind successKind scan.1, start, t.pos + scan.2⟩, t.advance scan.2) := by
  rw [string, run_bind, run_get, length_rest]
  exact stringUpTo_run start successKind _ false t

/-! ### Characters -/

/-- What the bytes of a character stand for, and the bytes that are passed. -/
def codepoint : Bytes → CharScan × Nat
  | [] => (.unterminated, 0)
  | first :: l =>
    let width := utf8Width first
    if width = 0 || l.length < width - 1 then (.invalidEscape, 1)
    else
      let following := (l.take (width - 1)).takeWhile fun byte => byte &&& 0xc0 = 0x80
      if following.length < width - 1 then (.invalidEscape, 1 + following.length + 1)
      else
        (match (fromUtf8 ((first :: l).take width)).map String.toList with
          | some [c] => .value ⟨c.toNat, width⟩
          | _ => .invalidEscape, width)

/-- The value of a character literal, and the bytes that are passed. -/
def charValue : Bytes → CharScan × Nat
  | [] => (.unterminated, 0)
  | first :: l =>
    if first = apostrophe then (.empty, 0)
    else if isLineEnd first then (.unterminated, 0)
    else if first = backslash then
      (match (escape l).1 with
        | some (some value) => .value value
        | some none => .invalidEscape
        | none => .unterminated, 1 + (escape l).2)
    else codepoint (first :: l)

/-- The bytes that are passed to recover from an invalid character. -/
def recovered (l : Bytes) : Nat :=
  let skipped := l.takeWhile fun byte => byte ≠ apostrophe && !isLineEnd byte
  if (l.drop skipped.length).head? = some apostrophe then skipped.length + 1 else skipped.length

/-- A character literal behind its quote: the kind, and the bytes that are passed. -/
def charScan (isByte : Bool) (l : Bytes) : TokenKind × Nat :=
  let (scan, passed) := charValue l
  match scan with
  | .empty => (.error .emptyChar, passed + 1)
  | .unterminated => (.error .unterminatedChar, passed)
  | .invalidEscape => (.error .invalidCharEscape, passed + recovered (l.drop passed))
  | .value value =>
    match l.drop passed with
    | [] => (.error .unterminatedChar, passed)
    | byte :: l =>
      if byte = apostrophe then (charKind isByte value, passed + 1)
      else (.error .unterminatedChar, passed + 1 + recovered l)

/-- The bytes that follow a first byte are passed as long as they continue it. -/
theorem scanContinuation_run (count : Nat) (t : Tokenizer) (hfits : count ≤ t.rest.length) :
    (scanContinuation count).run t =
      let following := (t.rest.take count).takeWhile fun byte => byte &&& 0xc0 = 0x80
      if following.length < count then (some .invalidEscape, t.advance (following.length + 1))
      else (none, t.advance count) := by
  induction count generalizing t with
  | zero => rfl
  | succ count ih =>
    rw [scanContinuation, run_bind]
    cases hrest : t.rest with
    | nil =>
      rw [hrest] at hfits
      exact absurd hfits (by simp)
    | cons byte l =>
      have hrest₁ := rest_advance_one hrest
      rw [hrest, length_cons] at hfits
      rw [bump_cons hrest]
      dsimp only
      rw [run_ite, take_succ_cons]
      by_cases hbyte : byte &&& 0xc0 = 0x80
      · rw [if_neg (by simpa using hbyte), ih (t.advance 1) (by rw [hrest₁]; omega), hrest₁,
          takeWhile_cons_of_pos (by simpa using hbyte)]
        dsimp only [length_cons]
        simp only [advance_advance, Nat.add_lt_add_iff_right, Nat.add_comm 1]
      · rw [if_pos hbyte, takeWhile_cons_of_neg (by simpa using hbyte)]
        rfl

/-- The scanner of a character computes `codepoint`. -/
theorem scanUtf8Codepoint_run : scanUtf8Codepoint.run t = ((codepoint t.rest).1, t.advance (codepoint t.rest).2) := by
  rw [scanUtf8Codepoint, run_bind, run_get]
  dsimp only
  rw [run_bind]
  cases hrest : t.rest with
  | nil =>
    rw [bump_end hrest]
    rfl
  | cons first l =>
    have hrest₁ := rest_advance_one hrest
    have hlength : (t.advance 1).source.length < (t.advance 1).pos + (utf8Width first - 1) ↔
        l.length < utf8Width first - 1 := by
      have hlength := length_rest (t.advance 1)
      have hrest_length := length_rest t
      rw [hrest, length_cons] at hrest_length
      rw [hrest₁] at hlength
      have hpos := pos_advance t 1
      have hsource : (t.advance 1).source = t.source := rfl
      rw [hsource] at hlength ⊢
      omega
    rw [bump_cons hrest, codepoint]
    dsimp only
    rw [run_bind, run_get]
    dsimp only
    rw [run_ite]
    simp only [hlength]
    split
    · rfl
    rename_i hfits
    have hfits : utf8Width first ≠ 0 ∧ utf8Width first - 1 ≤ l.length := by
      simpa using hfits
    rw [run_bind, scanContinuation_run _ _ (by rw [hrest₁]; exact hfits.2), hrest₁]
    dsimp only
    by_cases hshort :
        ((l.take (utf8Width first - 1)).takeWhile fun byte => byte &&& 0xc0 = 0x80).length < utf8Width first - 1
    · rw [if_pos hshort, if_pos hshort]
      dsimp only
      rw [run_pure, advance_advance, Nat.add_assoc]
    · rw [if_neg hshort, if_neg hshort, advance_advance]
      dsimp only
      rw [show 1 + (utf8Width first - 1) = utf8Width first by omega, run_bind, textFrom_run, hrest]
      dsimp only
      rcases (fromUtf8 ((first :: l).take (utf8Width first))).map String.toList with _ | _ | ⟨c, _ | ⟨c', chars⟩⟩ <;>
        rfl

/-- The scanner of a value computes `charValue`. -/
theorem scanCharValue_run : scanCharValue.run t = ((charValue t.rest).1, t.advance (charValue t.rest).2) := by
  rw [scanCharValue, run_bind, peek_run]
  cases hrest : t.rest with
  | nil => rfl
  | cons first l =>
    have hrest₁ := rest_advance_one hrest
    dsimp only [List.head?_cons]
    rw [charValue, run_ite]
    split
    · rfl
    rw [run_ite]
    split
    · rfl
    rw [run_ite]
    split
    · rw [run_bind, bump_cons hrest, run_bind, scanEscape_run, hrest₁, advance_advance]
      dsimp only
      cases (escape l).1 with
      | none => rfl
      | some value => cases value <;> rfl
    · rw [scanUtf8Codepoint_run, hrest]

/-- The recovery passes what `recovered` counts. -/
theorem recoverCharLiteralUpTo_run {left : Nat} (hleft : t.rest.length ≤ left) :
    (recoverCharLiteralUpTo left).run t = ((), t.advance (recovered t.rest)) := by
  induction left generalizing t with
  | zero =>
    rw [length_eq_zero_iff.mp (Nat.le_zero.mp hleft)]
    rfl
  | succ left ih =>
    rw [recoverCharLiteralUpTo, run_bind, peek_run]
    cases hrest : t.rest with
    | nil => rfl
    | cons byte l =>
      have hrest₁ := rest_advance_one hrest
      rw [hrest, length_cons] at hleft
      dsimp only [List.head?_cons]
      rw [run_ite, recovered]
      split
      · rename_i hbyte
        rw [run_bind, bump_cons hrest, takeWhile_cons_of_neg (by simp [hbyte]), hbyte]
        rfl
      rename_i hbyte
      rw [run_ite]
      split
      · rename_i hend
        rw [takeWhile_cons_of_neg (by simp [hend])]
        dsimp only [length_nil, drop_zero, List.head?_cons]
        rw [if_neg (by simpa using hbyte)]
        rfl
      · rename_i hend
        rw [run_bind, bump_cons hrest, ih _ (by rw [hrest₁]; omega), hrest₁,
          takeWhile_cons_of_pos (by simp [hbyte, hend])]
        dsimp only [length_cons, drop_succ_cons]
        rw [advance_advance, recovered]
        split
        · rw [if_pos ‹_›, Nat.add_comm 1]
        · rw [if_neg ‹_›, Nat.add_comm 1]

theorem recoverCharLiteral_run : recoverCharLiteral.run t = ((), t.advance (recovered t.rest)) := by
  rw [recoverCharLiteral, run_bind, run_get]
  exact recoverCharLiteralUpTo_run t (Nat.le_of_eq (length_rest t))

theorem codepoint_ne_empty (l : Bytes) : (codepoint l).1 ≠ .empty := by
  cases l with
  | nil => simp [codepoint]
  | cons first l =>
    rw [codepoint]
    dsimp only
    split
    · simp
    split
    · simp
    · split <;> simp

/-- An empty character has passed nothing, and the closing apostrophe is next. -/
theorem charValue_empty {passed : Nat} (h : charValue l = (.empty, passed)) :
    passed = 0 ∧ ∃ l', l = apostrophe :: l' := by
  cases l with
  | nil => cases h
  | cons first l =>
    rw [charValue] at h
    split at h
    · rename_i hfirst
      cases h
      exact ⟨rfl, l, by rw [hfirst]⟩
    split at h
    · cases h
    split at h
    · have hscan := congrArg Prod.fst h
      dsimp only at hscan
      split at hscan <;> cases hscan
    · exact absurd (congrArg Prod.fst h) (codepoint_ne_empty _)

/-- The scanner of a character literal computes `charScan`. -/
theorem charLit_run (isByte : Bool) (t : Tokenizer) : (charLit start isByte).run t =
    (⟨(charScan isByte t.rest).1, start, t.pos + (charScan isByte t.rest).2⟩,
      t.advance (charScan isByte t.rest).2) := by
  rw [charLit, run_bind, scanCharValue_run, charScan]
  rcases hvalue : charValue t.rest with ⟨value | _ | _ | _, passed⟩
  · dsimp only
    have hrest₁ := rest_advance t passed
    rw [run_bind]
    cases htail : t.rest.drop passed with
    | nil =>
      rw [htail] at hrest₁
      rw [bump_end hrest₁, run_ite, if_pos (by simp), run_bind, recoverCharLiteral_run, hrest₁]
      rfl
    | cons byte l =>
      rw [htail] at hrest₁
      rw [bump_cons hrest₁, run_ite]
      by_cases hbyte : byte = apostrophe
      · simp only [hbyte, ne_eq, not_true_eq_false, if_false, if_true, token_run, advance_advance]
        rfl
      · have hrest₂ := rest_advance_one hrest₁
        simp only [hbyte, ne_eq, Option.some.injEq, not_false_eq_true, if_true, if_false, run_bind,
          recoverCharLiteral_run, token_run]
        rw [hrest₂, advance_advance, advance_advance, pos_advance, Nat.add_assoc]
  · obtain ⟨rfl, l, hrest⟩ := charValue_empty hvalue
    dsimp only
    rw [run_bind, advance_zero, bump_cons hrest]
    rfl
  · rfl
  · dsimp only
    rw [run_bind, recoverCharLiteral_run, rest_advance, advance_advance]
    rfl

/-! ### Numbers -/

theorem finishFloat_isText (valid : Bool) (t : Tokenizer) :
    ((finishFloat start valid).run t).1.kind.isText = false := by
  rw [finishFloat, run_bind, token_run]
  cases valid <;> rfl

/-- A number is never a string or a character. -/
theorem number_isText (t : Tokenizer) : ((number start).run t).1.kind.isText = false := by
  have hkind (invalid : Prop) [Decidable invalid] :
      (if invalid then TokenKind.error .invalidNumber else .integer).isText = false := by
    split <;> rfl
  rw [number, run_bind, run_get, run_bind, peek_run]
  dsimp only
  split
  · rw [run_bind, radixNumber, run_bind, run_bind, token_run]
    exact hkind _
  · rw [run_bind, run_bind, peek_run, run_bind, peekNext_run]
    dsimp only
    rw [run_ite]
    split
    · rw [run_bind, run_bind, run_bind]
      exact finishFloat_isText _ _ _
    · rw [run_bind]
      split
      · exact finishFloat_isText _ _ _
      · rw [run_bind, token_run]
        exact hkind _

/-! ### Tokens -/

theorem identOrKeyword_kind (t : Tokenizer) : ((identOrKeyword start).run t).1.kind.isLiteral = false := by
  rw [identOrKeyword, run_bind, run_bind, token_run]
  dsimp only
  generalize (fromUtf8 _).getD "" = text
  cases hkind : keyword text with
  | none => rfl
  | some kind =>
    refine forall_of_lookup (p := fun kind => TokenKind.isLiteral kind = false) ?_ hkind
    decide

theorem maybeEq_kind {plain withEq : TokenKind} (t : Tokenizer) (hplain : plain.isLiteral = false)
    (hwithEq : withEq.isLiteral = false) : ((maybeEq start plain withEq).run t).1.kind.isLiteral = false := by
  rw [maybeEq, run_bind, run_ite]
  split
  · exact hwithEq
  · exact hplain

theorem dots_kind (t : Tokenizer) : ((dots start).run t).1.kind.isLiteral = false := by
  rw [dots, run_bind, run_bind, run_ite]
  split
  · rfl
  rw [run_bind, run_ite]
  split
  · exact maybeEq_kind start _ rfl rfl
  · rfl

/-- An operator is never a literal. -/
theorem operator_kind (byte : UInt8) (t : Tokenizer) : ((operator start byte).run t).1.kind.isLiteral = false := by
  rw [operator, run_ite]
  split
  · rw [run_bind, run_ite]
    split <;> rfl
  rw [run_ite]
  split
  · rw [run_bind, run_ite]
    split
    · rfl
    · exact maybeEq_kind start _ rfl rfl
  rw [run_ite]
  split
  · rw [run_bind, run_ite]
    split
    · rfl
    rw [run_bind, run_ite]
    split <;> rfl
  rw [run_ite]
  split
  · rw [run_bind, run_ite]
    split <;> exact maybeEq_kind start _ rfl rfl
  · rw [run_bind, run_ite]
    split <;> exact maybeEq_kind start _ rfl rfl

/-- Where a token with a text comes from. -/
inductive Origin (t : Tokenizer) (answer : Token × Tokenizer) : Prop
  | byteString (l : Bytes) (hrest : t.rest = ascii 'b' :: quote :: l)
    (hrun : answer = (string t.pos .byteString).run (t.advance 2))
  | byteChar (l : Bytes) (hrest : t.rest = ascii 'b' :: apostrophe :: l)
    (hrun : answer = (charLit t.pos true).run (t.advance 2))
  | string (l : Bytes) (hrest : t.rest = quote :: l) (hrun : answer = (string t.pos .string).run (t.advance 1))
  | char (l : Bytes) (hrest : t.rest = apostrophe :: l) (hrun : answer = (charLit t.pos false).run (t.advance 1))
  | number (byte : UInt8) (l : Bytes) (hrest : t.rest = byte :: l) (hdigit : isAsciiDigit byte = true)
    (hrun : answer = (number t.pos).run (t.advance 1))

/-- A literal comes from the scanner its first bytes select. -/
theorem scanToken_origin (hkind : (scanToken.run t).1.kind.isLiteral = true) : Origin t (scanToken.run t) := by
  rw [scanToken, run_bind, run_get] at hkind ⊢
  dsimp only at hkind ⊢
  rw [run_bind] at hkind ⊢
  cases hrest : t.rest with
  | nil =>
    rw [bump_end hrest] at hkind
    cases hkind
  | cons byte l =>
    have hrest₁ := rest_advance_one hrest
    rw [bump_cons hrest] at hkind ⊢
    dsimp only at hkind ⊢
    rw [run_bind, peek_run, hrest₁] at hkind ⊢
    dsimp only at hkind ⊢
    rw [run_ite] at hkind ⊢
    split at hkind
    · rename_i hbytes
      rw [if_pos hbytes]
      obtain ⟨rfl, hquote⟩ : byte = ascii 'b' ∧ l.head? = some quote := by simpa using hbytes
      obtain ⟨l, rfl⟩ := List.head?_eq_some_iff.mp hquote
      rw [run_bind, bump_cons hrest₁, advance_advance]
      exact .byteString l hrest rfl
    rename_i hbytes
    rw [if_neg hbytes]
    rw [run_ite] at hkind ⊢
    split at hkind
    · rename_i hbytes
      rw [if_pos hbytes]
      obtain ⟨rfl, hquote⟩ : byte = ascii 'b' ∧ l.head? = some apostrophe := by simpa using hbytes
      obtain ⟨l, rfl⟩ := List.head?_eq_some_iff.mp hquote
      rw [run_bind, bump_cons hrest₁, advance_advance]
      exact .byteChar l hrest rfl
    rename_i hbytes
    rw [if_neg hbytes]
    rw [run_ite] at hkind ⊢
    split at hkind
    · exact absurd hkind (Bool.eq_false_iff.mp (identOrKeyword_kind _ _))
    rename_i hletter
    rw [if_neg hletter]
    rw [run_ite] at hkind ⊢
    split at hkind
    · rw [run_ite] at hkind
      split at hkind
      · exact absurd hkind (Bool.eq_false_iff.mp (identOrKeyword_kind _ _))
      · cases hkind
    rename_i hunderscore
    rw [if_neg hunderscore]
    rw [run_ite] at hkind ⊢
    split at hkind
    · rename_i hdigit
      rw [if_pos hdigit]
      exact .number byte l hrest hdigit rfl
    rename_i hdigit
    rw [if_neg hdigit]
    rw [run_ite] at hkind ⊢
    split at hkind
    · rename_i hquote
      rw [if_pos hquote]
      exact .string l (hquote ▸ hrest) rfl
    rename_i hquote
    rw [if_neg hquote]
    rw [run_ite] at hkind ⊢
    split at hkind
    · rename_i hapostrophe
      rw [if_pos hapostrophe]
      exact .char l (hapostrophe ▸ hrest) rfl
    exfalso
    rw [run_ite] at hkind
    split at hkind
    · exact absurd hkind (Bool.eq_false_iff.mp (dots_kind _ _))
    rw [run_ite] at hkind
    split at hkind
    · exact absurd hkind (Bool.eq_false_iff.mp (operator_kind _ _ _))
    split at hkind
    · rename_i hsingle
      have hplain := forall_of_lookup (p := fun kind => TokenKind.isLiteral kind = false) (by decide) hsingle
      exact absurd hkind (Bool.eq_false_iff.mp hplain)
    · rename_i plain withEq _ heq
      have hplain := forall_of_lookup
        (p := fun kinds : TokenKind × TokenKind => kinds.1.isLiteral = false ∧ kinds.2.isLiteral = false)
          (by decide) heq
      exact absurd hkind (Bool.eq_false_iff.mp (maybeEq_kind _ _ hplain.1 hplain.2))
    · rw [unexpected, run_ite] at hkind
      split at hkind <;> cases hkind

end Scan

open Scan Lib.Utf8

/-- Skipping trivia leads from a boundary to a boundary. -/
theorem skipTriviaUpTo_boundary {t : Tokenizer} {text : String} (left : Nat) (hsource : t.source = bytes text)
    (hboundary : IsBoundary text t.pos) : ((skipTriviaUpTo left).run t).2.source = bytes text ∧
      IsBoundary text ((skipTriviaUpTo left).run t).2.pos := by
  induction left generalizing t with
  | zero => exact ⟨hsource, hboundary⟩
  | succ left ih =>
    rw [skipTriviaUpTo_succ]
    cases htrivia : triviaAt t with
    | none => exact ⟨hsource, hboundary⟩
    | some trivia =>
      obtain ⟨kind, holds⟩ := trivia
      have hadvanced := advanced_of_trivia hsource htrivia
      exact ih (hadvanced.source_eq.trans hsource) hadvanced.boundary

/-- Every token was scanned at a boundary. -/
theorem mem_tokenize {t : Tokenizer} {text : String} {limit : Nat} {tokens : List Token} {token : Token}
    (hsource : t.source = bytes text) (hboundary : IsBoundary text t.pos) (h : t.tokenize limit = some tokens)
    (hmem : token ∈ tokens) :
    ∃ t' : Tokenizer, t'.source = bytes text ∧ IsBoundary text t'.pos ∧ token = (scanToken.run t').1 := by
  induction limit generalizing t tokens with
  | zero => cases h
  | succ limit ih =>
    rw [tokenize_succ, run_nextToken] at h
    obtain ⟨hsource₁, hboundary₁⟩ := skipTriviaUpTo_boundary (t.source.length - t.pos) hsource hboundary
    have hskip : skipTrivia.run t = (skipTriviaUpTo (t.source.length - t.pos)).run t := rfl
    rw [← hskip] at hsource₁ hboundary₁
    generalize (skipTrivia.run t).2 = t₁ at h hsource₁ hboundary₁
    split at h
    · cases h
      rw [mem_singleton.mp hmem]
      exact ⟨t₁, hsource₁, hboundary₁, rfl⟩
    · rename_i hkind
      obtain ⟨rest, hrest, rfl⟩ := Option.map_eq_some_iff.mp h
      obtain rfl | hmem := mem_cons.mp hmem
      · exact ⟨t₁, hsource₁, hboundary₁, rfl⟩
      · cases hbyte : t₁.source[t₁.pos]? with
        | none =>
          rw [scanToken_end hbyte] at hkind
          exact absurd rfl hkind
        | some byte =>
          obtain ⟨hadvanced, -⟩ := scanToken_spec hsource₁ hboundary₁ hbyte
          refine ih ?_ ?_ hrest hmem
          · exact hadvanced.source_eq.trans hsource₁
          · exact hadvanced.boundary

end Nia.Lexer
