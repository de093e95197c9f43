import Nia.Lexer.Tokenizer
import Nia.Lib.Utf8

/-! The values of integer literals.

A literal is read byte by byte: a suffix is what is left behind the digits, and the digits of a radix are those that
follow its prefix. Nothing here knows the tokenizer; only what stands for methods of the standard library is shared. -/
namespace Nia.Literals

open Lexer (ascii isAsciiDigit)
open Lib.Utf8

def digitValue (byte : UInt8) : Option Nat :=
  if ascii '0' ≤ byte && byte ≤ ascii '9' then some (byte - ascii '0').toNat
  else if ascii 'a' ≤ byte && byte ≤ ascii 'f' then some ((byte - ascii 'a').toNat + 10)
  else if ascii 'A' ≤ byte && byte ≤ ascii 'F' then some ((byte - ascii 'A').toNat + 10)
  else none

/-- The bytes of an ASCII text. -/
def word (text : String) : Bytes := text.toList.map ascii

def isIntegerSuffix (suffix : Bytes) : Bool :=
  (["i8", "i16", "i32", "i64", "i128", "isize", "u8", "u16", "u32", "u64", "u128", "usize"].map word).contains suffix

/-- The byte is a digit of the radix. -/
def isDigitOf (radix : Nat) (byte : UInt8) : Bool := (digitValue byte).any (· < radix)

def hasValidDigitSeparators (text : Bytes) (radix : Nat) : Bool :=
  text.zipIdx.all fun (byte, index) => byte ≠ ascii '_' ||
    (if index = 0 then none else text[index - 1]?).any (isDigitOf radix) && text[index + 1]?.any (isDigitOf radix)

/-- `while index < bytes.len() && holds(bytes[index]) { index += 1; }`. -/
def skipWhile (holds : UInt8 → Bool) (text : Bytes) (index : Nat) : Nat :=
  index + ((text.drop index).takeWhile holds).length

def isNonDecimalRadix (text : Bytes) : Bool :=
  ["0x", "0X", "0b", "0B", "0o", "0O"].any fun lead => (word lead).isPrefixOf text

/-- The end of the fraction, if there is one. -/
def skipFraction (text : Bytes) (index : Nat) : Nat :=
  if text[index]? = some (ascii '.') then skipWhile (fun byte => byte = ascii '_' || isAsciiDigit byte) text (index + 1)
  else index

/-- The end of the exponent, if there is one. -/
def skipExponent (text : Bytes) (index : Nat) : Nat :=
  if text[index]? = some (ascii 'e') || text[index]? = some (ascii 'E') then
    let index := index + 1
    let index := if text[index]? = some (ascii '+') || text[index]? = some (ascii '-') then index + 1 else index
    skipWhile (fun byte => byte = ascii '_' || isAsciiDigit byte) text index
  else index

def numericSuffixStart (text : Bytes) : Option Nat :=
  let index :=
    if isNonDecimalRadix text then skipWhile (fun byte => byte = ascii '_' || (digitValue byte).isSome) text 2
    else skipExponent text (skipFraction text (skipWhile (fun byte => byte = ascii '_' || isAsciiDigit byte) text 0))
  if index < text.length then some index else none

def numericLiteralBody (text : Bytes) : Bytes :=
  text.take ((numericSuffixStart text).getD text.length)

def numericLiteralSuffix (text : Bytes) : Option Bytes :=
  (numericSuffixStart text).map fun start => text.drop start

/-- `text.strip_prefix(lead)`. -/
def stripLead (lead : String) (text : Bytes) : Option Bytes :=
  if (word lead).isPrefixOf text then some (text.drop (word lead).length) else none

/-- The radix of the digits, and the digits. -/
def radixDigits (text : Bytes) : Nat × Bytes :=
  match (stripLead "0x" text).or (stripLead "0X" text) with
  | some rest => (16, rest)
  | none => match (stripLead "0b" text).or (stripLead "0B" text) with
    | some rest => (2, rest)
    | none => match (stripLead "0o" text).or (stripLead "0O" text) with
      | some rest => (8, rest)
      | none => (10, text)

/-- One more digit of a number below the limit. -/
def pushDigit (limit radix value : Nat) (byte : UInt8) : Option Nat := do
  let digit ← digitValue byte
  if digit < radix ∧ value * radix + digit < limit then some (value * radix + digit) else none

/-- `from_str_radix` of an unsigned type with so many values. -/
def fromStrRadix (limit radix : Nat) (text : Bytes) : Option Nat :=
  let digits := if text.head? = some (ascii '+') && 1 < text.length then text.tail else text
  if digits.isEmpty then none else digits.foldlM (pushDigit limit radix) 0

def parseIntLiteral (text : Bytes) : Except String Nat :=
  if (numericLiteralSuffix text).any fun suffix => !isIntegerSuffix suffix then .error "invalid integer constant"
  else
    let (radix, digits) := radixDigits (numericLiteralBody text)
    if !hasValidDigitSeparators digits radix then .error "invalid integer constant"
    else
      let digits := digits.filter (· ≠ ascii '_')
      if digits.isEmpty then .error "invalid integer constant"
      else match fromStrRadix (2 ^ 128) radix digits with
        | some value => .ok value
        | none => .error "integer literal is out of range for const evaluation"

def evalIntLiteral (text : String) : Except String Nat := parseIntLiteral (bytes text)

end Nia.Literals
