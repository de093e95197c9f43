import Nia.Lib.Slices

/-! The tokenizer.

It walks over the bytes of a source and cuts them into tokens. A number is scanned differently after a
dot, so the kind of the previous token is part of the state; whitespace and comments do not change it.
Scanning is a computation on that state, with the names and the branches of the source. The two loops
over tokens are cut off after a number of tokens, since a byte that no UTF-8 text has at the start of a
character would be a token without bytes. -/
namespace Nia.Lexer

/-! ### Tokens -/

/-- `LexError`. -/
inductive LexError where
  | unexpectedByte (byte : UInt8)
  | unterminatedString
  | unterminatedChar
  | emptyChar
  | invalidByteChar
  | invalidNumber
  | invalidStringEscape
  | invalidCharEscape
  deriving DecidableEq

/-- `TokenKind`; the kinds of keywords start with `kw`. -/
inductive TokenKind where
  | ident | integer | float | string | byteString | char | byteChar
  | kwAnd | kwAs | kwBool | kwBreak | kwConst | kwContinue | kwDefer | kwElse | kwEnum | kwExtern
  | kwExtend | kwFalse | kwFun | kwFor | kwIf | kwIn | kwIs | kwLet | kwLoop | kwModule | kwMut | kwNever
  | kwNot | kwNull | kwOpaque | kwOr | kwPub | kwRoot | kwReturn | kwSelfValue | kwStruct | kwSelfType
  | kwStatic | kwSuper | kwMatch | kwTrue | kwTrait | kwType | kwUnion | kwUsing | kwVar | kwWhere | kwWhile
  | lParen | rParen | lBrace | rBrace | lBracket | rBracket | comma | dot | dotDot | dotDotEq | ellipsis
  | colon | colonColon | semicolon | at | backslash | question | underscore
  | plus | minus | star | slash | percent | amp | pipe | caret | tilde | bang | eq | lt | gt | ltLt | gtGt
  | plusEq | minusEq | starEq | slashEq | percentEq | ampEq | pipeEq | caretEq | eqEq | bangEq | ltEq | gtEq
  | ltLtEq | gtGtEq | fatArrow | thinArrow
  | eof
  | error (error : LexError)
  deriving DecidableEq

/-- `Span`: a half-open range of byte offsets. -/
structure Span where
  start : Nat
  stop : Nat
  deriving DecidableEq

/-- `Token`. -/
structure Token where
  kind : TokenKind
  span : Span
  deriving DecidableEq

/-- `LosslessTokenKind`. -/
inductive LosslessTokenKind where
  | token (kind : TokenKind)
  | whitespace
  | lineComment
  deriving DecidableEq

/-- `LosslessToken`. -/
structure LosslessToken where
  kind : LosslessTokenKind
  span : Span
  deriving DecidableEq

/-- The token that is not trivia. -/
def LosslessToken.significant (token : LosslessToken) : Option Token :=
  match token.kind with
  | .token kind => some ⟨kind, token.span⟩
  | .whitespace | .lineComment => none

/-! ### Bytes -/

/-- The byte of an ASCII character. -/
def ascii (c : Char) : UInt8 := c.toUInt8

def isAsciiWhitespace (byte : UInt8) : Bool :=
  byte = ascii ' ' || byte = 9 || byte = 10 || byte = 12 || byte = 13

def isAsciiDigit (byte : UInt8) : Bool := ascii '0' ≤ byte && byte ≤ ascii '9'

def isAsciiAlphabetic (byte : UInt8) : Bool :=
  (ascii 'a' ≤ byte && byte ≤ ascii 'z') || (ascii 'A' ≤ byte && byte ≤ ascii 'Z')

def isIdentContinue (byte : UInt8) : Bool :=
  isAsciiAlphabetic byte || isAsciiDigit byte || byte = ascii '_'

def isIdentStart (byte : UInt8) : Bool := isAsciiAlphabetic byte || byte = ascii '_'

/-- The value of a hexadecimal digit of either case. -/
def digitValue (byte : UInt8) : Option Nat :=
  if ascii '0' ≤ byte && byte ≤ ascii '9' then some (byte - ascii '0').toNat
  else if ascii 'a' ≤ byte && byte ≤ ascii 'f' then some (byte - ascii 'a' + 10).toNat
  else if ascii 'A' ≤ byte && byte ≤ ascii 'F' then some (byte - ascii 'A' + 10).toNat
  else none

/-- How many bytes a character with this first byte takes; zero if none starts with it. -/
def utf8Width (first : UInt8) : Nat :=
  if first ≤ 0x7f then 1
  else if 0xc0 ≤ first && first ≤ 0xdf then 2
  else if 0xe0 ≤ first && first ≤ 0xef then 3
  else if 0xf0 ≤ first && first ≤ 0xf7 then 4
  else 0

def quote : UInt8 := 34

def apostrophe : UInt8 := 39

def backslash : UInt8 := 92

/-- Where a literal on one line has to end. -/
def isLineEnd (byte : UInt8) : Bool := byte = 10 || byte = 13

/-- The digit is one of the radix. -/
def isDigitOf (radix : Nat) (byte : UInt8) : Bool := (digitValue byte).any (· < radix)

/-! ### The state -/

/-- `Tokenizer`. -/
structure Tokenizer where
  source : Bytes
  pos : Nat
  previousKind : Option TokenKind

/-- A method of the tokenizer that may move it. -/
abbrev Scan (α : Type) := StateM Tokenizer α

/-- `Tokenizer::new`. -/
def Tokenizer.new (source : String) : Tokenizer :=
  { source := source.toByteArray.data.toList, pos := 0, previousKind := none }

namespace Scan

def peek : Scan (Option UInt8) := do
  let t ← get
  return t.source[t.pos]?

def peekNext : Scan (Option UInt8) := do
  let t ← get
  return t.source[t.pos + 1]?

def bump : Scan (Option UInt8) := do
  let t ← get
  match t.source[t.pos]? with
  | none => return none
  | some byte =>
    set { t with pos := t.pos + 1 }
    return some byte

def eat (byte : UInt8) : Scan Bool := do
  if (← peek) = some byte then
    let _ ← bump
    return true
  else
    return false

/-- `self.token(kind, start, self.pos)`. -/
def token (kind : TokenKind) (start : Nat) : Scan Token := do
  let t ← get
  return ⟨kind, start, t.pos⟩

/-- The text of the source from an offset to the position. -/
def textFrom (start : Nat) : Scan Bytes := do
  let t ← get
  return (t.source.drop start).take (t.pos - start)

/-- `while self.peek().is_some_and(holds) { self.bump(); }`, with the number of rounds; the first
argument bounds the rounds by the bytes that are left. -/
def bumpWhileUpTo (holds : UInt8 → Bool) : Nat → Scan Nat
  | 0 => return 0
  | left + 1 => do
    match ← peek with
    | none => return 0
    | some byte =>
      if holds byte then
        let _ ← bump
        return (← bumpWhileUpTo holds left) + 1
      else
        return 0

/-- Passes over the bytes that hold, and counts them. -/
def bumpWhile (holds : UInt8 → Bool) : Scan Nat := do
  let t ← get
  bumpWhileUpTo holds (t.source.length - t.pos)

/-- An operator that an equals sign may continue. -/
def maybeEq (start : Nat) (plain withEq : TokenKind) : Scan Token := do
  if ← eat (ascii '=') then token withEq start else token plain start

/-! ### Names and numbers -/

/-- The keywords. -/
def keyword (text : String) : Option TokenKind :=
  [("and", .kwAnd), ("as", .kwAs), ("bool", .kwBool), ("break", .kwBreak), ("const", .kwConst),
    ("continue", .kwContinue), ("defer", .kwDefer), ("else", .kwElse), ("enum", .kwEnum),
    ("extern", .kwExtern), ("extend", .kwExtend), ("false", .kwFalse), ("fun", .kwFun), ("for", .kwFor),
    ("if", .kwIf), ("in", .kwIn), ("is", .kwIs), ("let", .kwLet), ("loop", .kwLoop),
    ("module", .kwModule), ("mut", .kwMut), ("never", .kwNever), ("not", .kwNot), ("null", .kwNull),
    ("opaque", .kwOpaque), ("or", .kwOr), ("root", .kwRoot), ("pub", .kwPub), ("return", .kwReturn),
    ("self", .kwSelfValue), ("Self", .kwSelfType), ("static", .kwStatic), ("struct", .kwStruct),
    ("super", .kwSuper), ("match", .kwMatch), ("trait", .kwTrait), ("true", .kwTrue), ("type", .kwType),
    ("union", .kwUnion), ("using", .kwUsing), ("where", .kwWhere), ("while", .kwWhile)].lookup text

/-- `std::str::from_utf8`. -/
def fromUtf8 (bytes : Bytes) : Option String := String.fromUTF8? ⟨bytes.toArray⟩

/-- A word: a keyword if it is one, a name otherwise. -/
def identOrKeyword (start : Nat) : Scan Token := do
  let _ ← bumpWhile isIdentContinue
  let text := (fromUtf8 (← textFrom start)).getD ""
  token ((keyword text).getD .ident) start

/-- The loop of `consume_digits`: how many digits there were, and whether one is out of place. -/
def consumeDigitsUpTo (radix : Nat) : Nat → Bool → Nat → Bool → Scan (Nat × Bool)
  | 0, _, digits, invalid => return (digits, invalid)
  | left + 1, previousWasDigit, digits, invalid => do
    match ← peek with
    | none => return (digits, invalid)
    | some byte =>
      if byte = ascii '_' then
        let nextIsDigit := (← peekNext).any (isDigitOf radix)
        let _ ← bump
        consumeDigitsUpTo radix left false digits (invalid || !previousWasDigit || !nextIsDigit)
      else if isDigitOf radix byte then
        let _ ← bump
        consumeDigitsUpTo radix left true (digits + 1) invalid
      else if radix ≠ 10 && (digitValue byte).isSome then
        let _ ← bump
        consumeDigitsUpTo radix left false digits true
      else
        return (digits, invalid)

/-- Digits of the radix, where an underscore may stand between two of them. -/
def consumeDigits (radix : Nat) (previousWasDigit : Bool) : Scan (Nat × Bool) := do
  let t ← get
  consumeDigitsUpTo radix (t.source.length - t.pos) previousWasDigit 0 false

/-- A name right after a number, such as its type. -/
def consumeNumericSuffix : Scan Unit := do
  if (← peek).any isIdentStart then
    let _ ← bump
    let _ ← bumpWhile isIdentContinue

/-- An exponent if one stands here, and whether it is valid. -/
def tryScanExponent : Scan (Option Bool) := do
  let next ← peek
  if next = some (ascii 'e') || next = some (ascii 'E') then
    let _ ← bump
    let sign ← peek
    if sign = some (ascii '+') || sign = some (ascii '-') then
      let _ ← bump
    let (digits, invalid) ← consumeDigits 10 false
    return some (0 < digits && !invalid)
  else
    return none

def radixNumber (start radix : Nat) : Scan Token := do
  let (digits, invalid) ← consumeDigits radix false
  consumeNumericSuffix
  token (if digits = 0 || invalid then .error .invalidNumber else .integer) start

/-- The radix a prefix stands for. -/
def radixOf (letter : Option UInt8) : Option Nat :=
  if letter = some (ascii 'x') || letter = some (ascii 'X') then some 16
  else if letter = some (ascii 'b') || letter = some (ascii 'B') then some 2
  else if letter = some (ascii 'o') || letter = some (ascii 'O') then some 8
  else none

/-- The end of a number with a fraction or an exponent. -/
def finishFloat (start : Nat) (valid : Bool) : Scan Token := do
  consumeNumericSuffix
  token (if valid then .float else .error .invalidNumber) start

/-- A number after its first digit. After a dot no fraction is read: `a.0.1` has two fields. -/
def number (start : Nat) : Scan Token := do
  let t ← get
  let letter ← peek
  match if t.source[start]? = some (ascii '0') then radixOf letter else none with
  | some radix =>
    let _ ← bump
    radixNumber start radix
  | none =>
    let (_, invalid) ← consumeDigits 10 true
    let next ← peek
    let after ← peekNext
    if t.previousKind ≠ some .dot && next = some (ascii '.') && after.any isAsciiDigit then
      let _ ← bump
      let (_, fractionInvalid) ← consumeDigits 10 false
      let exponent ← tryScanExponent
      finishFloat start (!(invalid || fractionInvalid) && exponent ≠ some false)
    else
      match ← tryScanExponent with
      | some valid => finishFloat start (!invalid && valid)
      | none =>
        consumeNumericSuffix
        token (if invalid then .error .invalidNumber else .integer) start

/-! ### Characters and strings -/

/-- `CharValue`. -/
structure CharValue where
  value : Nat
  byteLen : Nat

/-- `CharScan`. -/
inductive CharScan where
  | value (value : CharValue)
  | empty
  | unterminated
  | invalidEscape

/-- `char::from_u32`. -/
def charFromU32 (value : Nat) : Option Char := if value.isValidChar then some (Char.ofNat value) else none

/-- `u32::from_str_radix(text, 16)` for at most six digits. -/
def fromHex (digits : Bytes) : Option Nat :=
  digits.foldlM (fun value digit => (digitValue digit).map (value * 16 + ·)) 0

def consumeExactHexDigits (start : Nat) : Nat → Scan (Option Nat)
  | 0 => return fromHex (← textFrom start)
  | count + 1 => do
    if (← peek).any (isDigitOf 16) then
      let _ ← bump
      consumeExactHexDigits start count
    else
      return none

/-- The rest of a `\u` escape: one to six hexadecimal digits in braces. -/
def scanUnicodeEscape : Scan (Option CharValue) := do
  if (← bump) ≠ some (ascii '{') then
    return none
  else
    let digitsStart := (← get).pos
    let digits ← bumpWhile fun byte => (digitValue byte).isSome
    if digits = 0 || 6 < digits then
      return none
    else
      let text ← textFrom digitsStart
      if (← bump) ≠ some (ascii '}') then
        return none
      else
        return ((fromHex text).bind charFromU32).map fun c => ⟨c.toNat, c.utf8Size⟩

/-- The escapes of one byte: its letter and what it stands for. -/
def simpleEscapes : List (UInt8 × Nat) :=
  [(ascii 'n', 10), (ascii 'r', 13), (ascii 't', 9), (backslash, 92), (apostrophe, 39), (quote, 34),
    (ascii '0', 0)]

/-- What follows a backslash: `none` at the end of the source, `some none` for an invalid escape. -/
def scanEscape : Scan (Option (Option CharValue)) := do
  match ← bump with
  | none => return none
  | some escaped =>
    match simpleEscapes.lookup escaped with
    | some value => return some (some ⟨value, 1⟩)
    | none =>
      if escaped = ascii 'x' then
        let start := (← get).pos
        return some ((← consumeExactHexDigits start 2).map fun value => ⟨value, 1⟩)
      else if escaped = ascii 'u' then
        return some (← scanUnicodeEscape)
      else
        return some none

/-- The loop of `scan_utf8_codepoint` over the bytes after the first. -/
def scanContinuation : Nat → Scan (Option CharScan)
  | 0 => return none
  | count + 1 => do
    match ← bump with
    | none => return some .unterminated
    | some byte =>
      if byte &&& 0xc0 ≠ 0x80 then return some .invalidEscape else scanContinuation count

def scanUtf8Codepoint : Scan CharScan := do
  let start := (← get).pos
  match ← bump with
  | none => return .unterminated
  | some first =>
    let width := utf8Width first
    let t ← get
    if width = 0 || t.source.length < t.pos + (width - 1) then
      return .invalidEscape
    else
      match ← scanContinuation (width - 1) with
      | some failure => return failure
      | none =>
        match (fromUtf8 (← textFrom start)).map String.toList with
        | some [c] => return .value ⟨c.toNat, width⟩
        | _ => return .invalidEscape

/-- The character of a literal, up to its closing apostrophe. -/
def scanCharValue : Scan CharScan := do
  match ← peek with
  | none => return .unterminated
  | some first =>
    if first = apostrophe then
      return .empty
    else if isLineEnd first then
      return .unterminated
    else if first = backslash then
      let _ ← bump
      match ← scanEscape with
      | some (some value) => return .value value
      | some none => return .invalidEscape
      | none => return .unterminated
    else
      scanUtf8Codepoint

/-- Goes on past the next apostrophe, or to the end of the line. -/
def recoverCharLiteralUpTo : Nat → Scan Unit
  | 0 => return ()
  | left + 1 => do
    match ← peek with
    | none => return ()
    | some byte =>
      if byte = apostrophe then
        let _ ← bump
      else if isLineEnd byte then
        return ()
      else
        let _ ← bump
        recoverCharLiteralUpTo left

def recoverCharLiteral : Scan Unit := do
  let t ← get
  recoverCharLiteralUpTo (t.source.length - t.pos)

/-- The kind of a character literal that was read to its end. -/
def charKind (isByte : Bool) (value : CharValue) : TokenKind :=
  if isByte then
    if value.byteLen ≠ 1 || 255 < value.value then .error .invalidByteChar else .byteChar
  else if (charFromU32 value.value).isSome then .char
  else .error .invalidCharEscape

/-- A character literal after its first apostrophe. -/
def charLit (start : Nat) (isByte : Bool) : Scan Token := do
  match ← scanCharValue with
  | .empty =>
    let _ ← bump
    token (.error .emptyChar) start
  | .unterminated => token (.error .unterminatedChar) start
  | .invalidEscape =>
    recoverCharLiteral
    token (.error .invalidCharEscape) start
  | .value value =>
    if (← bump) ≠ some apostrophe then
      recoverCharLiteral
      token (.error .unterminatedChar) start
    else
      token (charKind isByte value) start

/-- The loop of `string`: an invalid escape is only reported at the closing quote. -/
def stringUpTo (start : Nat) (successKind : TokenKind) : Nat → Bool → Scan Token
  | 0, _ => token (.error .unterminatedString) start
  | left + 1, invalidEscape => do
    match ← peek with
    | none => token (.error .unterminatedString) start
    | some byte =>
      if byte = quote then
        let _ ← bump
        token (if invalidEscape then .error .invalidStringEscape else successKind) start
      else if isLineEnd byte then
        token (.error .unterminatedString) start
      else if byte = backslash then
        let _ ← bump
        let escape ← scanEscape
        stringUpTo start successKind left (invalidEscape || escape.join.isNone)
      else
        let _ ← bump
        stringUpTo start successKind left invalidEscape

def string (start : Nat) (successKind : TokenKind) : Scan Token := do
  let t ← get
  stringUpTo start successKind (t.source.length - t.pos) false

/-! ### Tokens of the source -/

/-- The bytes that are a token, whatever follows. -/
def singleTokens : List (UInt8 × TokenKind) :=
  [(backslash, .backslash), (ascii '(', .lParen), (ascii ')', .rParen), (ascii '{', .lBrace),
    (ascii '}', .rBrace), (ascii '[', .lBracket), (ascii ']', .rBracket), (ascii ',', .comma),
    (ascii ';', .semicolon), (ascii '@', .at), (ascii '?', .question), (ascii '~', .tilde)]

/-- The operators that may only be continued by an equals sign. -/
def eqTokens : List (UInt8 × TokenKind × TokenKind) :=
  [(ascii '+', .plus, .plusEq), (ascii '*', .star, .starEq), (ascii '/', .slash, .slashEq),
    (ascii '%', .percent, .percentEq), (ascii '^', .caret, .caretEq), (ascii '!', .bang, .bangEq),
    (ascii '&', .amp, .ampEq), (ascii '|', .pipe, .pipeEq)]

/-- The arm of `scan_token` for a dot. -/
def dots (start : Nat) : Scan Token := do
  let next ← peek
  let after ← peekNext
  if next = some (ascii '.') && after = some (ascii '.') then
    let _ ← bump
    let _ ← bump
    token .ellipsis start
  else if ← eat (ascii '.') then
    maybeEq start .dotDot .dotDotEq
  else
    token .dot start

/-- The arms of `scan_token` for operators that another byte may continue. -/
def operator (start : Nat) (byte : UInt8) : Scan Token := do
  if byte = ascii ':' then
    if ← eat (ascii ':') then token .colonColon start else token .colon start
  else if byte = ascii '-' then
    if ← eat (ascii '>') then token .thinArrow start else maybeEq start .minus .minusEq
  else if byte = ascii '=' then
    if ← eat (ascii '=') then token .eqEq start
    else if ← eat (ascii '>') then token .fatArrow start
    else token .eq start
  else if byte = ascii '<' then
    if ← eat (ascii '<') then maybeEq start .ltLt .ltLtEq
    else maybeEq start .lt .ltEq
  else
    if ← eat (ascii '>') then maybeEq start .gtGt .gtGtEq
    else maybeEq start .gt .gtEq

/-- The last arm of `scan_token`. -/
def unexpected (start : Nat) (byte : UInt8) : Scan Token := do
  if 0x80 ≤ byte then
    modify fun t => { t with pos := start + utf8Width byte }
  token (.error (.unexpectedByte byte)) start

/-- The token at the position, `eof` at the end of the source. -/
def scanToken : Scan Token := do
  let start := (← get).pos
  match ← bump with
  | none => token .eof start
  | some byte =>
    let next ← peek
    if byte = ascii 'b' && next = some quote then
      let _ ← bump
      string start .byteString
    else if byte = ascii 'b' && next = some apostrophe then
      let _ ← bump
      charLit start true
    else if isAsciiAlphabetic byte then identOrKeyword start
    else if byte = ascii '_' then
      if next.any isIdentContinue then identOrKeyword start else token .underscore start
    else if isAsciiDigit byte then number start
    else if byte = quote then string start .string
    else if byte = apostrophe then charLit start false
    else if byte = ascii '.' then dots start
    else if [':', '-', '=', '<', '>'].map ascii |>.contains byte then operator start byte
    else
      match singleTokens.lookup byte, eqTokens.lookup byte with
      | some kind, _ => token kind start
      | none, some (plain, withEq) => maybeEq start plain withEq
      | none, none => unexpected start byte

/-- The next token; its kind is kept, for a number after a dot. -/
def nextToken : Scan Token := do
  let token ← scanToken
  modify fun t => { t with previousKind := some token.kind }
  return token

/-! ### Trivia -/

def consumeWhitespace : Scan Unit := do
  let _ ← bumpWhile isAsciiWhitespace

def consumeLineComment : Scan Unit := do
  let _ ← bumpWhile (· ≠ 10)

/-- A line comment starts here. -/
def atComment : Scan Bool := do
  return (← peek) = some (ascii '/') && (← peekNext) = some (ascii '/')

def skipTriviaUpTo : Nat → Scan Unit
  | 0 => return ()
  | left + 1 => do
    if (← peek).any isAsciiWhitespace then
      consumeWhitespace
      skipTriviaUpTo left
    else if ← atComment then
      consumeLineComment
      skipTriviaUpTo left

def skipTrivia : Scan Unit := do
  let t ← get
  skipTriviaUpTo (t.source.length - t.pos)

/-- The next token or the next piece of trivia. -/
def nextLosslessToken : Scan LosslessToken := do
  let start := (← get).pos
  match ← peek with
  | none => return ⟨.token .eof, start, start⟩
  | some byte =>
    if isAsciiWhitespace byte then
      consumeWhitespace
      return ⟨.whitespace, start, (← get).pos⟩
    else if ← atComment then
      consumeLineComment
      return ⟨.lineComment, start, (← get).pos⟩
    else
      let token ← nextToken
      return ⟨.token token.kind, token.span⟩

end Scan

/-! ### The loops over tokens -/

/-- `tokenize`, for at most so many tokens. -/
def Tokenizer.tokenize : Nat → Tokenizer → Option (List Token)
  | 0, _ => none
  | limit + 1, t =>
    let (token, t) := (do Scan.skipTrivia; Scan.nextToken).run t
    if token.kind = .eof then some [token] else (tokenize limit t).map (token :: ·)

/-- `tokenize_lossless`, for at most so many tokens. -/
def Tokenizer.tokenizeLossless : Nat → Tokenizer → Option (List LosslessToken)
  | 0, _ => none
  | limit + 1, t =>
    let (token, t) := Scan.nextLosslessToken.run t
    if token.kind = .token .eof then some [token] else (tokenizeLossless limit t).map (token :: ·)

/-- `tokenize`; `limit` bounds the number of tokens. -/
def tokenize (limit : Nat) (source : String) : Option (List Token) := (Tokenizer.new source).tokenize limit

/-- `tokenize_lossless`. -/
def tokenizeLossless (limit : Nat) (source : String) : Option (List LosslessToken) :=
  (Tokenizer.new source).tokenizeLossless limit

end Nia.Lexer
