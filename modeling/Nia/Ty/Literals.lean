import Mathlib

/-! Integer and string literals.

A spelling is read as a list of characters. An integer literal may have a radix prefix,
digit separators between digits, and a suffix that names an integer type. A string literal
is quoted, and a backslash in it starts an escape. -/
namespace Nia.Ty

def digitValue (c : Char) : Option Nat :=
  if '0' ≤ c ∧ c ≤ '9' then some (c.toNat - '0'.toNat)
  else if 'a' ≤ c ∧ c ≤ 'f' then some (c.toNat - 'a'.toNat + 10)
  else if 'A' ≤ c ∧ c ≤ 'F' then some (c.toNat - 'A'.toNat + 10)
  else none

/-- The radix of a prefix, and what follows it. -/
def stripRadix : List Char → Nat × List Char
  | '0' :: 'x' :: rest | '0' :: 'X' :: rest => (16, rest)
  | '0' :: 'b' :: rest | '0' :: 'B' :: rest => (2, rest)
  | '0' :: 'o' :: rest | '0' :: 'O' :: rest => (8, rest)
  | text => (10, text)

def isDecimalPart (c : Char) : Bool := c == '_' || c.isDigit

/-- Splits off a fraction: a dot and the digits after it. -/
def spanFraction : List Char → List Char × List Char
  | '.' :: rest => ('.' :: rest.takeWhile isDecimalPart, rest.dropWhile isDecimalPart)
  | text => ([], text)

/-- Splits off an exponent: its letter, a sign and the digits after it. -/
def spanExponent : List Char → List Char × List Char
  | c :: rest =>
    if c = 'e' ∨ c = 'E' then
      match rest with
      | sign :: digits =>
        if sign = '+' ∨ sign = '-' then
          (c :: sign :: digits.takeWhile isDecimalPart, digits.dropWhile isDecimalPart)
        else (c :: rest.takeWhile isDecimalPart, rest.dropWhile isDecimalPart)
      | [] => ([c], [])
    else ([], c :: rest)
  | [] => ([], [])

/-- The spelling without its type suffix, and the suffix. -/
def splitSuffix (text : List Char) : List Char × List Char :=
  if (stripRadix text).1 ≠ 10 then
    let isPart (c : Char) := c == '_' || (digitValue c).isSome
    (text.take 2 ++ (text.drop 2).takeWhile isPart, (text.drop 2).dropWhile isPart)
  else
    let whole := text.takeWhile isDecimalPart
    let (fraction, rest) := spanFraction (text.dropWhile isDecimalPart)
    let (exponent, suffix) := spanExponent rest
    (whole ++ fraction ++ exponent, suffix)

def isIntegerSuffix (suffix : List Char) : Bool :=
  ["i8", "i16", "i32", "i64", "i128", "isize", "u8", "u16", "u32", "u64", "u128", "usize"].contains
    (String.ofList suffix)

/-- Every separator stands between two digits of the radix. -/
def hasValidDigitSeparators (radix : Nat) (digits : List Char) : Bool :=
  let isDigit (c : Option Char) : Bool := (c.bind digitValue).any (· < radix)
  (List.range digits.length).all fun index =>
    digits[index]? != some '_' ||
      ((decide (0 < index) && isDigit digits[index - 1]?) && isDigit digits[index + 1]?)

/-- Reads digits; a character that is not a digit of the radix fails. -/
def fromDigits (radix : Nat) : Nat → List Char → Option Nat
  | value, [] => some value
  | value, c :: rest =>
    match digitValue c with
    | some digit => if digit < radix then fromDigits radix (value * radix + digit) rest else none
    | none => none

def evalIntLiteral (text : String) : Option Nat :=
  let (body, suffix) := splitSuffix text.toList
  if !suffix.isEmpty && !isIntegerSuffix suffix then none
  else
    let (radix, digits) := stripRadix body
    if !hasValidDigitSeparators radix digits then none
    else
      let digits := digits.filter (· != '_')
      if digits.isEmpty then none
      else
        match fromDigits radix 0 digits with
        | some value => if value < 2 ^ 128 then some value else none
        | none => none

/-! ### String literals -/

/-- `char::from_u32`. -/
def charFromU32 (scalar : Nat) : Option Char := if scalar.isValidChar then some (Char.ofNat scalar) else none

/-- `u32::from_str_radix` for sixteen, with the sign it allows, as a character. -/
def hexScalar (text : List Char) : Option Char :=
  let digits := if text.head? = some '+' then text.tail else text
  if digits.isEmpty then none else (fromDigits 16 0 digits).bind charFromU32

/-- Where in an escape the decoder is. -/
inductive EscapeMode where
  | plain
  | escape
  | hex
  | hexLow (hi : Char)
  | unicode
  | scalar (digits : List Char)

/-- The escapes of one character, by their codes: a backslash, quotes, and control characters. -/
def simpleEscapes : List (Nat × Nat) :=
  [('n'.toNat, 10), ('r'.toNat, 13), ('t'.toNat, 9), (92, 92), (39, 39), (34, 34), ('0'.toNat, 0)]

/-- `decode_scalar_literal_inner`. -/
def decodeScalars : EscapeMode → List Char → Option (List Char)
  | .plain, [] => some []
  | _, [] => none
  | .plain, c :: rest =>
    if c.toNat = 92 then decodeScalars .escape rest else (decodeScalars .plain rest).map (c :: ·)
  | .escape, c :: rest =>
    if c = 'x' then decodeScalars .hex rest
    else if c = 'u' then decodeScalars .unicode rest
    else
      match simpleEscapes.lookup c.toNat with
      | some scalar => (decodeScalars .plain rest).map (Char.ofNat scalar :: ·)
      | none => none
  | .hex, hi :: rest => decodeScalars (.hexLow hi) rest
  | .hexLow hi, lo :: rest =>
    match (fromDigits 16 0 [hi, lo]).bind charFromU32 with
    | some scalar => (decodeScalars .plain rest).map (scalar :: ·)
    | none => none
  | .unicode, c :: rest => if c.toNat = 123 then decodeScalars (.scalar []) rest else none
  | .scalar digits, c :: rest =>
    if c.toNat = 125 then
      match hexScalar digits with
      | some scalar => (decodeScalars .plain rest).map (scalar :: ·)
      | none => none
    else decodeScalars (.scalar (digits ++ [c])) rest

/-- `eval_string_literal_parts` of one part. -/
def evalStringLiteral (text : String) : Option String :=
  match text.toList with
  | [] => none
  | first :: rest =>
    if first.toNat = 34 ∧ rest.getLast?.map Char.toNat = some 34 then
      (decodeScalars .plain rest.dropLast).map String.ofList
    else none

end Nia.Ty
