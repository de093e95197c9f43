import Nia.Lib.Slices

/-! The buffer of hashes with blocks of a fixed size.

Full blocks are given to a callback with a state, and what is left is kept for the next call. After any calls the
callback has had the blocks of all bytes so far, in order, and the buffer has the rest (`Holds`). -/
namespace Nia.Hash

open Lib.Slices List

/-- `BlockBuffer[N]`. -/
structure BlockBuffer (N : Nat) where
  bytes : Bytes
  len : Nat

namespace BlockBuffer

variable {N : Nat} {σ : Type}

def init (N : Nat) : Option (BlockBuffer N) := if N = 0 then none else some ⟨List.replicate N 0, 0⟩

def pending (self : BlockBuffer N) : Option Bytes := slice self.bytes 0 self.len

/-- The loop over the full blocks; without an end for blocks of no bytes. -/
def takeBlocks (N : Nat) (process : σ → Bytes → Option σ) (state : σ) (remaining : Bytes) :
    Option (σ × Bytes) :=
  if N ≤ remaining.length then
    if N = 0 then none
    else do
      let state ← process state (← slice remaining 0 N)
      takeBlocks N process state (remaining.drop N)
  else some (state, remaining)
termination_by remaining.length
decreasing_by
  rw [length_drop]
  omega

/-- The end of `update`: full blocks, and the rest into the buffer. -/
def takeRest (self : BlockBuffer N) (process : σ → Bytes → Option σ) (state : σ) (remaining : Bytes) :
    Option (BlockBuffer N × σ) := do
  let (state, remaining) ← takeBlocks N process state remaining
  let bytes ← copyFrom self.bytes 0 remaining.length remaining
  return ({ bytes, len := remaining.length }, state)

def update (self : BlockBuffer N) (process : σ → Bytes → Option σ) (state : σ) (bytes : Bytes) :
    Option (BlockBuffer N × σ) :=
  let remaining := bytes
  if 0 < self.len then do
    let count := min (← sub N self.len) remaining.length
    let buffered ← copyFrom self.bytes self.len (self.len + count) (← slice remaining 0 count)
    let self : BlockBuffer N := { bytes := buffered, len := self.len + count }
    let remaining ← sliceFrom remaining count
    if self.len < N then
      return (self, state)
    else
      let state ← process state self.bytes
      takeRest { self with len := 0 } process state remaining
  else self.takeRest process state remaining

/-! ### What a buffer stands for -/

/-- The callback had these blocks, and the rest is in the buffer. -/
structure Holds (process : σ → Bytes → Option σ) (start : σ) (blocks : List Bytes) (rest : Bytes)
    (buffer : BlockBuffer N) (state : σ) : Prop where
  sizes : ∀ block ∈ blocks, block.length = N
  state_eq : blocks.foldlM process start = some state
  room : buffer.bytes.length = N
  len : buffer.len = rest.length
  lt : rest.length < N
  kept : buffer.bytes.take rest.length = rest

section

variable {process : σ → Bytes → Option σ} {start state : σ} {blocks : List Bytes}
  {rest bytes : Bytes} {buffer : BlockBuffer N}

theorem Holds.pending_eq (h : Holds process start blocks rest buffer state) : buffer.pending = some rest := by
  have hlt := h.lt
  rw [pending, h.len, slice_zero (by rw [h.room]; omega), h.kept]

theorem holds_init (hN : 0 < N) (process : σ → Bytes → Option σ) (start : σ) :
    Holds process start [] [] (⟨List.replicate N 0, 0⟩ : BlockBuffer N) start where
  sizes := by simp
  state_eq := rfl
  room := length_replicate
  len := rfl
  lt := hN
  kept := rfl

variable (hprocess : ∀ state block, block.length = N → ∃ after, process state block = some after)

include hprocess

theorem takeBlocks_eq (hN : 0 < N) (state : σ) (remaining : Bytes) :
    ∃ (taken : List Bytes) (rest : Bytes) (after : σ),
      takeBlocks N process state remaining = some (after, rest) ∧ taken.foldlM process state = some after ∧
      (∀ block ∈ taken, block.length = N) ∧ rest.length < N ∧ taken.flatten ++ rest = remaining := by
  induction hlength : remaining.length using Nat.strongRecOn generalizing state remaining with
  | _ length ih =>
    rw [takeBlocks]
    by_cases hfull : N ≤ remaining.length
    · have hblock : (remaining.take N).length = N := length_take_of_le hfull
      obtain ⟨next, hnext⟩ := hprocess state (remaining.take N) hblock
      obtain ⟨taken, rest, after, hrun, hfold, hsizes, hlt, hflatten⟩ :=
        ih (remaining.drop N).length (by rw [length_drop]; omega) next (remaining.drop N) rfl
      refine ⟨remaining.take N :: taken, rest, after, ?_, ?_, forall_mem_cons.mpr ⟨hblock, hsizes⟩, hlt, ?_⟩
      · rw [if_pos hfull, if_neg (by omega), slice_zero hfull, Option.bind_eq_bind, Option.bind_some, hnext,
          Option.bind_eq_bind, Option.bind_some, hrun]
      · rw [foldlM_cons, hnext, Option.bind_eq_bind, Option.bind_some, hfold]
      · rw [flatten_cons, append_assoc, hflatten, take_append_drop]
    · exact ⟨[], remaining, state, if_neg hfull, rfl, by simp, Nat.lt_of_not_le hfull, rfl⟩

/-- After a full number of blocks. -/
theorem takeRest_holds (hN : 0 < N) (hsizes : ∀ block ∈ blocks, block.length = N)
    (hstate : blocks.foldlM process start = some state) (hroom : buffer.bytes.length = N) (remaining : Bytes) :
    ∃ blocks' rest' buffer' state', buffer.takeRest process state remaining = some (buffer', state') ∧
      Holds process start blocks' rest' buffer' state' ∧ blocks'.flatten ++ rest' = blocks.flatten ++ remaining := by
  obtain ⟨taken, rest, after, hrun, hfold, htaken, hlt, hflatten⟩ := takeBlocks_eq hprocess hN state remaining
  have hfits : 0 + rest.length ≤ buffer.bytes.length := by omega
  refine ⟨blocks ++ taken, rest, ⟨overwrite buffer.bytes 0 rest, rest.length⟩, after, ?_, ?_, ?_⟩
  · rw [takeRest, hrun, Option.bind_eq_bind, Option.bind_some]
    dsimp only
    rw [copyFrom_of_length (by omega) (Nat.zero_add _)]
    rfl
  · constructor
    · exact forall_mem_append.mpr ⟨hsizes, htaken⟩
    · rw [foldlM_append, hstate, Option.bind_eq_bind, Option.bind_some, hfold]
    · exact (length_overwrite hfits).trans hroom
    · rfl
    · exact hlt
    · have htake := take_overwrite hfits
      rwa [Nat.zero_add, take_zero, nil_append] at htake
  · rw [flatten_append, append_assoc, hflatten]

/-- **A step**: `update` returns, and the buffer stands for all bytes so far. -/
theorem Holds.update (h : Holds process start blocks rest buffer state) (bytes : Bytes) :
    ∃ blocks' rest' buffer' state', buffer.update process state bytes = some (buffer', state') ∧
      Holds process start blocks' rest' buffer' state' ∧
      blocks'.flatten ++ rest' = blocks.flatten ++ (rest ++ bytes) := by
  have hroom := h.room
  have hlt := h.lt
  rw [BlockBuffer.update]
  dsimp only
  rw [h.len]
  by_cases hpos : 0 < rest.length
  · have htake : (bytes.take (min (N - rest.length) bytes.length)).length = min (N - rest.length) bytes.length :=
      length_take_of_le (Nat.min_le_right _ _)
    have hfits : rest.length + (bytes.take (min (N - rest.length) bytes.length)).length ≤ buffer.bytes.length := by
      omega
    have hcopy : copyFrom buffer.bytes rest.length (rest.length + min (N - rest.length) bytes.length)
        (bytes.take (min (N - rest.length) bytes.length)) =
        some (overwrite buffer.bytes rest.length (bytes.take (min (N - rest.length) bytes.length))) :=
      copyFrom_of_length (by omega) (by omega)
    simp only [if_pos hpos, sub_of_le (Nat.le_of_lt hlt), Option.bind_eq_bind, Option.bind_some,
      slice_zero (Nat.min_le_right _ _), hcopy, sliceFrom_of_le (Nat.min_le_right _ _)]
    by_cases hshort : rest.length + min (N - rest.length) bytes.length < N
    · -- all bytes go into the buffer
      have hall : bytes.take (min (N - rest.length) bytes.length) = bytes := take_of_length_le (by omega)
      rw [if_pos hshort]
      rw [hall] at hfits htake ⊢
      refine ⟨blocks, rest ++ bytes, _, state, rfl, ?_, rfl⟩
      constructor
      · exact h.sizes
      · exact h.state_eq
      · exact (length_overwrite hfits).trans hroom
      · rw [length_append]
        exact congrArg (rest.length + ·) htake.symm
      · rw [length_append, htake]
        exact hshort
      · rw [length_append]
        exact (take_overwrite hfits).trans (by rw [h.kept])
    · -- the buffer is full
      have hcount : min (N - rest.length) bytes.length = N - rest.length := by omega
      rw [hcount] at hfits htake hshort ⊢
      have hblock : (rest ++ bytes.take (N - rest.length)).length = N := by
        rw [length_append, htake]
        omega
      have hbuffer : overwrite buffer.bytes rest.length (bytes.take (N - rest.length)) =
          rest ++ bytes.take (N - rest.length) := by
        have hall := take_overwrite hfits
        rwa [h.kept, take_of_length_le (by rw [length_overwrite hfits]; omega)] at hall
      obtain ⟨next, hnext⟩ := hprocess state (rest ++ bytes.take (N - rest.length)) hblock
      have hsizes : ∀ block ∈ blocks ++ [rest ++ bytes.take (N - rest.length)], block.length = N :=
        forall_mem_append.mpr ⟨h.sizes, forall_mem_singleton.mpr hblock⟩
      have hstate : (blocks ++ [rest ++ bytes.take (N - rest.length)]).foldlM process start = some next := by
        rw [foldlM_append, h.state_eq, Option.bind_eq_bind, Option.bind_some, foldlM_cons, hnext]
        rfl
      have hroom' : (⟨rest ++ bytes.take (N - rest.length), 0⟩ : BlockBuffer N).bytes.length = N := hblock
      obtain ⟨blocks', rest', buffer', state', hrun, hholds, hflatten⟩ :=
        takeRest_holds hprocess (by omega) hsizes hstate hroom' (bytes.drop (N - rest.length))
      refine ⟨blocks', rest', buffer', state', ?_, hholds, ?_⟩
      · rw [if_neg hshort, hbuffer, hnext, Option.bind_some]
        exact hrun
      · rw [hflatten, flatten_append, flatten_singleton, append_assoc, append_assoc,
          take_append_drop]
  · have hrest : rest = [] := length_eq_zero_iff.mp (by omega)
    subst hrest
    rw [if_neg hpos]
    exact takeRest_holds hprocess hlt h.sizes h.state_eq hroom bytes

end

end BlockBuffer

end Nia.Hash
