import Mathlib

/-! Codes read off the front of a stream.

A writer turns a value into a list of symbols; a reader takes a value off the
front of a stream and leaves the rest, or fails. `Reads` ties the two: whatever
follows the word, the reader returns the value and what follows. Readers are
run one after another by `Reads.bind`, and a word with a reader is told apart
from every other such word by the stream alone (`Reads.unique`). -/
namespace Nia.Lib.Code

variable {α β σ : Type}

/-- A reader over streams of `σ`. -/
abbrev Reader (σ α : Type) := StateT (List σ) Option α

/-- `get` takes `word` off the front of any stream and returns `a`. -/
def Reads (get : Reader σ α) (word : List σ) (a : α) : Prop :=
  ∀ rest, get (word ++ rest) = some (a, rest)

theorem Reads.pure (a : α) : Reads (pure a : Reader σ α) [] a := fun _ => rfl

variable {get : Reader σ α} {next : α → Reader σ β} {u v : List σ} {a : α} {b : β}

theorem Reads.bind (ha : Reads get u a) (hb : Reads (next a) v b) : Reads (get >>= next) (u ++ v) b := by
  intro rest
  have hget := ha (v ++ rest)
  have hnext := hb rest
  rw [List.append_assoc]
  show (get (u ++ (v ++ rest))).bind (fun p => next p.1 p.2) = _
  rw [hget]
  exact hnext

/-- Computing with the value read takes nothing more. -/
theorem Reads.bind_pure {word : List σ} (h : Reads get word a)
    (f : α → β) : Reads (get >>= fun a => Pure.pure (f a)) word (f a) := by
  have hread : Reads (get >>= fun a => Pure.pure (f a)) (word ++ []) (f a) := h.bind (Reads.pure (f a))
  rwa [List.append_nil] at hread

/-- A check between two readers, which the value read passes. -/
theorem Reads.lift_bind {found : Option α} {word : List σ} (h : found = some a) (hb : Reads (next a) word b) :
    Reads (StateT.lift found >>= next) word b := by
  subst h
  exact hb

/-- A check after a reader. -/
theorem Reads.bind_lift {word : List σ} {check : α → Option β} (ha : Reads get word a) (h : check a = some b) :
    Reads (get >>= fun a => StateT.lift (check a)) word b := by
  have hlift : Reads (StateT.lift (check a) : Reader σ β) [] b := by
    rw [h]
    exact fun _ => rfl
  have hread : Reads (get >>= fun a => StateT.lift (check a)) (word ++ []) b := ha.bind hlift
  rwa [List.append_nil] at hread

/-- Two words at the front of one stream, read by one reader, are one word. -/
theorem Reads.unique {x y : List σ} {b : α} (ha : Reads get u a)
    (hb : Reads get v b) (h : u ++ x = v ++ y) : a = b ∧ x = y := by
  have hread := ha x
  rw [h, hb y] at hread
  simpa [eq_comm] using hread

end Nia.Lib.Code
