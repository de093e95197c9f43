import Mathlib

/-! The secure hash standard, for SHA-256.

This is the function of the standard, and nothing of the code: messages of whole bytes, the words of the message
schedule by their recurrence, and the constants as the first bits of roots of primes. -/
namespace Nia.Crypto.Fips180

/-- A word of 32 bits. -/
abbrev Word := BitVec 32

/-! ### Functions of words -/

def rotr (n : Nat) (x : Word) : Word := (x >>> n) ||| (x <<< (32 - n))

def ch (x y z : Word) : Word := (x &&& y) ^^^ (~~~x &&& z)

def maj (x y z : Word) : Word := (x &&& y) ^^^ (x &&& z) ^^^ (y &&& z)

def upperSigma0 (x : Word) : Word := rotr 2 x ^^^ rotr 13 x ^^^ rotr 22 x

def upperSigma1 (x : Word) : Word := rotr 6 x ^^^ rotr 11 x ^^^ rotr 25 x

def lowerSigma0 (x : Word) : Word := rotr 7 x ^^^ rotr 18 x ^^^ (x >>> 3)

def lowerSigma1 (x : Word) : Word := rotr 17 x ^^^ rotr 19 x ^^^ (x >>> 10)

/-! ### Constants -/

def isPrime (n : Nat) : Bool := 2 ≤ n && (List.range n).all fun d => d < 2 || n % d ≠ 0

/-- The first sixty-four prime numbers. -/
def primes : List Nat := (List.range 312).filter isPrime

/-- The first thirty-two bits of the fraction of a root. -/
def fraction (degree n : Nat) : Word := BitVec.ofNat 32 (Nat.nthRoot degree (n * 2 ^ (32 * degree)))

/-- The constants of the rounds, from cube roots. -/
def constants : List Word := primes.map (fraction 3)

/-- The words of a hash value, or the working variables. -/
structure Words where
  a : Word
  b : Word
  c : Word
  d : Word
  e : Word
  f : Word
  g : Word
  h : Word
  deriving DecidableEq

/-- The initial hash value, from square roots. -/
def initial : Words where
  a := fraction 2 2
  b := fraction 2 3
  c := fraction 2 5
  d := fraction 2 7
  e := fraction 2 11
  f := fraction 2 13
  g := fraction 2 17
  h := fraction 2 19

/-! ### Blocks -/

/-- The number whose bytes these are, the highest first. -/
def bigEndian (bytes : List UInt8) : Nat := bytes.foldl (fun value byte => value * 256 + byte.toNat) 0

/-- So many bytes of a number, the highest first. -/
def bigEndianBytes (count value : Nat) : List UInt8 :=
  (List.range count).map fun i => UInt8.ofNat (value / 256 ^ (count - 1 - i))

/-- The word of a block. -/
def wordAt (block : List UInt8) (t : Nat) : Word := BitVec.ofNat 32 (bigEndian ((block.drop (4 * t)).take 4))

/-- The message schedule. -/
def schedule (block : List UInt8) (t : Nat) : Word :=
  if t < 16 then wordAt block t
  else lowerSigma1 (schedule block (t - 2)) + schedule block (t - 7) + lowerSigma0 (schedule block (t - 15)) +
    schedule block (t - 16)
termination_by t

/-- A round, with its constant and its word of the schedule. -/
def round (k w : Word) (v : Words) : Words :=
  let t1 := v.h + upperSigma1 v.e + ch v.e v.f v.g + k + w
  let t2 := upperSigma0 v.a + maj v.a v.b v.c
  { a := t1 + t2, b := v.a, c := v.b, d := v.c, e := v.d + t1, f := v.e, g := v.f, h := v.g }

/-- The working variables after the first rounds. -/
def rounds (block : List UInt8) (value : Words) (count : Nat) : Words :=
  (List.range count).foldl (fun v t => round (constants.getD t 0) (schedule block t) v) value

/-- The next hash value. -/
def compress (value : Words) (block : List UInt8) : Words :=
  let v := rounds block value 64
  { a := v.a + value.a, b := v.b + value.b, c := v.c + value.c, d := v.d + value.d
    e := v.e + value.e, f := v.f + value.f, g := v.g + value.g, h := v.h + value.h }

/-! ### Messages -/

/-- The number of zero bytes: the least that leaves room for a length at the end of a block. -/
def zeros (length : Nat) : Nat := (119 - length % 64) % 64

/-- The message with its padding: a one bit, zeros, and the length in bits. -/
def pad (message : List UInt8) : List UInt8 :=
  message ++ [0x80] ++ List.replicate (zeros message.length) 0 ++ bigEndianBytes 8 (8 * message.length)

/-- The blocks of a padded message. -/
def blocks (padded : List UInt8) : List (List UInt8) :=
  (List.range (padded.length / 64)).map fun i => (padded.drop (64 * i)).take 64

/-- The bytes of a hash value. -/
def bytesOf (value : Words) : List UInt8 :=
  [value.a, value.b, value.c, value.d, value.e, value.f, value.g, value.h].flatMap fun word =>
    bigEndianBytes 4 word.toNat

/-- SHA-256. -/
def sha256 (message : List UInt8) : List UInt8 := bytesOf ((blocks (pad message)).foldl compress initial)

end Nia.Crypto.Fips180
