import Nia.Lib.Checks
import Nia.Lib.Slices

/-! What the transports share: their errors, ASCII case, and the fields of SSH packets. -/
namespace Nia.Git

inductive IoErrorKind where
  | permissionDenied
  | notFound
  | invalidData
  | connectionAborted
  | brokenPipe
  | other
  deriving DecidableEq

/-- `io::Error`: its kind and its text. -/
abbrev IoError := IoErrorKind × String

def invalidPacket (message : String) : IoError := (.invalidData, message)

def require (condition : Prop) [Decidable condition] (error : IoError) : Except IoError Unit :=
  if condition then .ok () else .error error

@[simp]
theorem require_eq_ok {condition : Prop} [Decidable condition] {error : IoError} {u : Unit} :
    require condition error = .ok u ↔ condition := by
  rw [require]
  split <;> simp [*]

/-- `u8::to_ascii_lowercase` -/
def asciiLower (byte : UInt8) : UInt8 := if 65 ≤ byte ∧ byte ≤ 90 then byte + 32 else byte

/-! ### Fields

A reader is the bytes that are left. Lengths are below `2 ^ 32`, so no sum of them overflows. -/

namespace SshReader

def take (length : Nat) (bytes : Bytes) : Except IoError (Bytes × Bytes) :=
  if length ≤ bytes.length then .ok (bytes.take length, bytes.drop length)
  else .error (invalidPacket "truncated SSH payload")

def fromBe (bytes : Bytes) : Nat := bytes.foldl (fun value byte => value * 256 + byte.toNat) 0

def u32 (bytes : Bytes) : Except IoError (Nat × Bytes) := do
  let (value, bytes) ← take 4 bytes
  pure (fromBe value, bytes)

def boolean (bytes : Bytes) : Except IoError (Bool × Bytes) := do
  let (value, bytes) ← take 1 bytes
  match value with
  | [0] => pure (false, bytes)
  | [1] => pure (true, bytes)
  | _ => .error (invalidPacket "SSH boolean is not zero or one")

def string (bytes : Bytes) : Except IoError (Bytes × Bytes) := do
  let (length, bytes) ← u32 bytes
  take length bytes

def finish (bytes : Bytes) : Except IoError Unit :=
  require (bytes = []) (invalidPacket "SSH payload has trailing bytes")

end SshReader

end Nia.Git
