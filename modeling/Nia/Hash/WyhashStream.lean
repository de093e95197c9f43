import Nia.Hash.Wyhash

/-! The streaming hash does not depend on the calls of `update`.

After any calls the hasher stands for a number of blocks and a rest of at most 48 bytes, which are determined by all
bytes so far (`Holds`): its lanes are those of the blocks, the buffer starts with the rest, and if the rest is short
then the end of the buffer has the end of the last block. The value at the end is read from these alone. -/
namespace Nia.Hash

open Lib.Slices List

namespace Wyhash

/-! ### Reads and rounds -/

theorem read4_of_length {bytes : Bytes} (h : 4 ≤ bytes.length) : ∃ value, read4 bytes = some value := by
  obtain ⟨b0, b1, b2, b3, rest, rfl⟩ : ∃ b0 b1 b2 b3 rest, bytes = b0 :: b1 :: b2 :: b3 :: rest := by
    match bytes, h with
    | b0 :: b1 :: b2 :: b3 :: rest, _ => exact ⟨b0, b1, b2, b3, rest, rfl⟩
  exact ⟨_, rfl⟩

theorem read8_of_length {bytes : Bytes} (h : 8 ≤ bytes.length) : ∃ value, read8 bytes = some value := by
  match bytes, h with
  | b0 :: b1 :: b2 :: b3 :: b4 :: b5 :: b6 :: b7 :: rest, _ => exact ⟨_, rfl⟩

/-- A read of eight bytes in a slice. -/
theorem read8_sliceFrom (bytes : Bytes) (start : Nat) (h : start + 8 ≤ bytes.length) :
    ∃ value, (sliceFrom bytes start >>= read8) = some value := by
  rw [sliceFrom_of_le (by omega)]
  exact read8_of_length (by rw [length_drop]; omega)

/-- A read of four. -/
theorem read4_sliceFrom (bytes : Bytes) (start : Nat) (h : start + 4 ≤ bytes.length) :
    ∃ value, (sliceFrom bytes start >>= read4) = some value := by
  rw [sliceFrom_of_le (by omega)]
  exact read4_of_length (by rw [length_drop]; omega)

/-- A round changes the lanes, each by itself. -/
theorem round_of_length {block : Bytes} (h : block.length = 48) : ∃ f0 f1 f2 : UInt64 → UInt64,
    ∀ self : Wyhash, self.round block =
      some { self with state0 := f0 self.state0, state1 := f1 self.state1, state2 := f2 self.state2 } := by
  obtain ⟨v0, h0⟩ := read8_sliceFrom block 0 (by omega)
  obtain ⟨v1, h1⟩ := read8_sliceFrom block 8 (by omega)
  obtain ⟨v2, h2⟩ := read8_sliceFrom block 16 (by omega)
  obtain ⟨v3, h3⟩ := read8_sliceFrom block 24 (by omega)
  obtain ⟨v4, h4⟩ := read8_sliceFrom block 32 (by omega)
  obtain ⟨v5, h5⟩ := read8_sliceFrom block 40 (by omega)
  refine ⟨fun state => mix (v0 ^^^ wyhashSecret1) (v1 ^^^ state),
    fun state => mix (v2 ^^^ wyhashSecret2) (v3 ^^^ state), fun state => mix (v4 ^^^ wyhashSecret3) (v5 ^^^ state),
      fun self => ?_⟩
  simp only [round, ← bind_assoc, h0, h1, h2, h3, h4, h5]
  rfl

/-- So do many rounds. -/
theorem foldlM_round {blocks : List Bytes} (h : ∀ block ∈ blocks, block.length = 48) :
    ∃ f0 f1 f2 : UInt64 → UInt64, ∀ self : Wyhash, blocks.foldlM round self =
      some { self with state0 := f0 self.state0, state1 := f1 self.state1, state2 := f2 self.state2 } := by
  induction blocks with
  | nil => exact ⟨id, id, id, fun self => rfl⟩
  | cons block blocks ih =>
    obtain ⟨f0, f1, f2, hround⟩ := round_of_length (h block mem_cons_self)
    obtain ⟨g0, g1, g2, hrounds⟩ := ih fun block hmem => h block (mem_cons_of_mem _ hmem)
    refine ⟨g0 ∘ f0, g1 ∘ f1, g2 ∘ f2, fun self => ?_⟩
    rw [foldlM_cons, hround, Option.bind_eq_bind, Option.bind_some, hrounds]
    rfl

/-- The blocks that the loop takes. -/
structure Taken (bytes : Bytes) (start stop : Nat) (blocks : List Bytes) : Prop where
  sizes : ∀ block ∈ blocks, block.length = 48
  bytes_eq : bytes.take stop = bytes.take start ++ blocks.flatten
  le : start ≤ stop
  stop_le : stop ≤ bytes.length
  short : bytes.length - stop ≤ 48
  pending : start < bytes.length → stop < bytes.length

theorem rounds_eq {bytes : Bytes} {index : Nat} (hindex : index ≤ bytes.length) :
    ∃ stop blocks, Taken bytes index stop blocks ∧
      ∀ self : Wyhash, self.rounds bytes index = (blocks.foldlM round self).map (·, stop) := by
  induction hleft : bytes.length - index using Nat.strong_induction_on generalizing index with
  | _ left ih =>
    by_cases hmore : 48 < bytes.length - index
    · obtain ⟨stop, blocks, htaken, hrounds⟩ := ih (bytes.length - (index + 48)) (by omega) (by omega) rfl
      have hblock : ((bytes.drop index).take 48).length = 48 := by
        rw [length_take, length_drop]
        omega
      refine ⟨stop, (bytes.drop index).take 48 :: blocks, ?_, fun self => ?_⟩
      · constructor
        · exact forall_mem_cons.mpr ⟨hblock, htaken.sizes⟩
        · rw [htaken.bytes_eq, take_add, flatten_cons, append_assoc]
        · exact Nat.le_of_add_right_le htaken.le
        · exact htaken.stop_le
        · exact htaken.short
        · exact fun _ => htaken.pending (by omega)
      · rw [rounds, if_neg (by omega), if_pos hmore]
        dsimp only
        rw [slice_of_le (by omega) (by omega), Nat.add_sub_cancel_left, foldlM_cons]
        simp only [Option.bind_eq_bind, Option.bind_some, hrounds, Option.map_bind]
        rfl
    · refine ⟨index, [], ?_, fun self => ?_⟩
      · exact ⟨by simp, by simp, Nat.le_refl _, hindex, by omega, id⟩
      · rw [rounds, if_neg (by omega), if_neg hmore]
        rfl

/-! ### What a hasher stands for -/

/-- The hasher without its books. -/
def bare (self : Wyhash) : Wyhash :=
  { self with totalLen := 0, longInput := false, buf := List.replicate 48 0, bufLen := 0 }

/-- The hasher has taken these blocks, and has the rest in its buffer. -/
structure Holds (seed : UInt64) (blocks : List Bytes) (rest : Bytes) (hasher : Wyhash) : Prop where
  sizes : ∀ block ∈ blocks, block.length = 48
  lanes : blocks.foldlM round (init seed) = some hasher.bare
  total : hasher.totalLen = .ofNat (blocks.flatten.length + rest.length)
  long : hasher.longInput = decide (16 < blocks.flatten.length + rest.length)
  room : hasher.buf.length = 48
  len : hasher.bufLen = rest.length
  fits : rest.length ≤ 48
  kept : hasher.buf.take rest.length = rest
  pending : blocks ≠ [] → rest ≠ []
  tail : blocks ≠ [] → rest.length < 16 →
    hasher.buf.drop (32 + rest.length) = blocks.flatten.drop (blocks.flatten.length - (16 - rest.length))

theorem holds_init (seed : UInt64) : Holds seed [] [] (init seed) := by
  constructor <;> simp [init, bare]

section

variable {seed : UInt64} {blocks : List Bytes} {rest bytes : Bytes} {self : Wyhash}

theorem length_flatten_of_sizes (h : ∀ block ∈ blocks, block.length = 48) :
    blocks.flatten.length = 48 * blocks.length := by
  induction blocks with
  | nil => rfl
  | cons block blocks ih =>
    rw [flatten_cons, length_append, h block mem_cons_self,
      ih fun block hmem => h block (mem_cons_of_mem _ hmem), length_cons]
    omega

section

variable (h : Holds seed blocks rest self)
include h

theorem Holds.length_flatten (hblocks : blocks ≠ []) : 48 ≤ blocks.flatten.length := by
  have hpos := length_pos_iff.mpr hblocks
  rw [length_flatten_of_sizes h.sizes]
  omega

theorem Holds.longInput_eq (arch : Ty.Arch) : self.nextLongInput arch bytes =
      some (decide (16 < blocks.flatten.length + (rest.length + bytes.length))) := by
  rw [nextLongInput, h.long]
  by_cases hlong : 16 < blocks.flatten.length + rest.length
  · simp only [hlong, decide_true, Bool.not_true, Bool.false_eq_true, if_false]
    rw [decide_eq_true (by omega)]
    rfl
  · have hwidth : 16 < 2 ^ arch.pointerWidth := by cases arch <;> decide
    have htotal : self.totalLen.toNat % 2 ^ arch.pointerWidth = blocks.flatten.length + rest.length := by
      rw [h.total, UInt64.toNat_ofNat', Nat.mod_eq_of_lt (by omega), Nat.mod_eq_of_lt (by omega)]
    simp only [hlong, decide_false, Bool.not_false, if_true, htotal]
    rw [sub_of_le (by omega), Option.bind_eq_bind, Option.bind_some, Option.pure_def, Option.some.injEq,
      decide_eq_decide]
    omega

theorem Holds.totalLen_eq :
    addWrap64 self.totalLen (.ofNat bytes.length) = .ofNat (blocks.flatten.length + (rest.length + bytes.length)) := by
  rw [addWrap64, h.total, UInt64.toNat_ofNat', UInt64.toNat_ofNat', ← Nat.add_assoc]
  refine UInt64.toNat_inj.mp ?_
  rw [UInt64.toNat_ofNat', UInt64.toNat_ofNat', ← Nat.add_mod]

/-- The bytes fit in the buffer. -/
theorem Holds.update_fits (arch : Ty.Arch) (hfits : bytes.length ≤ 48 - rest.length) :
    ∃ self', self.update arch bytes = some self' ∧ Holds seed blocks (rest ++ bytes) self' := by
  have hle := h.fits
  have hroom := h.room
  refine ⟨{ self with
    longInput := decide (16 < blocks.flatten.length + (rest.length + bytes.length))
    totalLen := .ofNat (blocks.flatten.length + (rest.length + bytes.length))
    buf := overwrite self.buf rest.length bytes, bufLen := rest.length + bytes.length }, ?_, ?_⟩
  · rw [update, h.longInput_eq, Option.bind_eq_bind, Option.bind_some, h.totalLen_eq]
    dsimp only
    rw [h.len, sub_of_le hle, Option.bind_eq_bind, Option.bind_some, if_pos hfits,
      copyFrom_of_length (by omega) rfl, Option.bind_eq_bind, Option.bind_some]
    rfl
  · have hfits' : rest.length + bytes.length ≤ self.buf.length := by omega
    constructor
    · exact h.sizes
    · exact h.lanes
    · rw [length_append]
    · rw [length_append]
    · exact (length_overwrite hfits').trans hroom
    · rw [length_append]
    · rw [length_append]
      omega
    · rw [length_append]
      exact (take_overwrite hfits').trans (by rw [h.kept])
    · intro hblocks hnil
      exact h.pending hblocks (append_eq_nil_iff.mp hnil).1
    · intro hblocks hshort
      rw [length_append] at hshort ⊢
      have htail := h.tail hblocks (by omega)
      show (overwrite self.buf rest.length bytes).drop (32 + (rest.length + bytes.length)) = _
      rw [drop_overwrite hfits' (by omega), ← Nat.add_assoc, ← drop_drop, htail, drop_drop]
      have hlength := h.length_flatten hblocks
      congr 1
      omega

end

/-- The hasher after the buffer was filled up with the first bytes of an input. -/
structure Filled (seed : UInt64) (old blocks : List Bytes) (rest bytes : Bytes) (index : Nat)
    (before after : Wyhash) : Prop where
  sizes : ∀ block ∈ blocks, block.length = 48
  lanes : blocks.foldlM round (init seed) = some after.bare
  flatten_eq : blocks.flatten = old.flatten ++ rest ++ bytes.take index
  room : after.buf.length = 48
  short : index < 48
  lt : index < bytes.length
  total : after.totalLen = before.totalLen
  long : after.longInput = before.longInput
  last : blocks ≠ [] → after.buf = blocks.flatten.drop (blocks.flatten.length - 48)

theorem Holds.fillBuffer_eq (h : Holds seed blocks rest self) (hover : 48 - rest.length < bytes.length)
    (longInput : Bool) (totalLen : UInt64) : ∃ blocks' after index,
      { self with longInput, totalLen }.fillBuffer bytes = some (after, index) ∧
      Filled seed blocks blocks' rest bytes index { self with longInput, totalLen } after := by
  have hle := h.fits
  have hroom := h.room
  rw [fillBuffer]
  dsimp only
  rw [h.len]
  by_cases hpos : 0 < rest.length
  · -- the buffer becomes the block of the rest and the first bytes
    have htake : (bytes.take (48 - rest.length)).length = 48 - rest.length := length_take_of_le (by omega)
    have hblock : (rest ++ bytes.take (48 - rest.length)).length = 48 := by
      rw [length_append, htake]
      omega
    have hbuf : overwrite self.buf rest.length (bytes.take (48 - rest.length)) =
        rest ++ bytes.take (48 - rest.length) := by
      have hfits : rest.length + (bytes.take (48 - rest.length)).length ≤ self.buf.length := by omega
      have hall := take_overwrite hfits
      rw [h.kept, take_of_length_le (by rw [length_overwrite hfits]; omega)] at hall
      exact hall
    obtain ⟨f0, f1, f2, hround⟩ := round_of_length hblock
    have hflatten : (blocks ++ [rest ++ bytes.take (48 - rest.length)]).flatten =
        blocks.flatten ++ rest ++ bytes.take (48 - rest.length) := by
      rw [flatten_append, flatten_singleton, append_assoc]
    rw [if_pos hpos, sub_of_le hle, Option.bind_eq_bind, Option.bind_some, slice_zero (by omega), Option.bind_eq_bind,
      Option.bind_some, copyFrom_of_length (by omega) (by omega), hbuf, Option.bind_eq_bind, Option.bind_some, hround]
    refine ⟨blocks ++ [rest ++ bytes.take (48 - rest.length)], _, _, rfl, ?_⟩
    constructor
    · exact forall_mem_append.mpr ⟨h.sizes, forall_mem_singleton.mpr hblock⟩
    · rw [foldlM_append, h.lanes, Option.bind_eq_bind, Option.bind_some, foldlM_cons, hround]
      rfl
    · exact hflatten
    · exact hblock
    · omega
    · exact hover
    · rfl
    · rfl
    · intro _
      show rest ++ bytes.take (48 - rest.length) = _
      rw [hflatten, append_assoc, length_append, hblock, Nat.add_sub_cancel, drop_left]
  · rw [if_neg hpos]
    have hrest : rest = [] := length_eq_zero_iff.mp (by omega)
    have hblocks : blocks = [] := by
      by_contra hblocks
      exact h.pending hblocks hrest
    subst hrest hblocks
    exact ⟨[], _, 0, rfl, by simp, h.lanes, rfl, hroom, by omega,
      by simpa using Nat.lt_of_le_of_lt (Nat.zero_le _) hover, rfl, rfl, fun hne => absurd rfl hne⟩

/-- The end of the last block is in the buffer, if it is needed. -/
theorem Filled.keepTail_eq {old blocks more : List Bytes} {index stop : Nat} {before after : Wyhash}
    (hfilled : Filled seed old blocks rest bytes index before after) (htaken : Taken bytes index stop more)
    (hasher : Wyhash) (hbuf : hasher.buf = after.buf) :
    ∃ buf, hasher.keepTail bytes (bytes.drop stop) stop = some buf ∧ buf.length = 48 ∧
      (blocks ++ more ≠ [] → (bytes.drop stop).length < 16 → buf.drop (32 + (bytes.drop stop).length) =
        (blocks ++ more).flatten.drop ((blocks ++ more).flatten.length - (16 - (bytes.drop stop).length))) := by
  have hroom := hfilled.room
  have hstop := htaken.stop_le
  have hflatten : (blocks ++ more).flatten = old.flatten ++ rest ++ bytes.take stop := by
    rw [flatten_append, hfilled.flatten_eq, append_assoc (old.flatten ++ rest), ← htaken.bytes_eq]
  rw [keepTail, hbuf]
  generalize (bytes.drop stop).length = left
  by_cases hkeep : left < 16 ∧ 48 ≤ stop
  · -- the last bytes in front of the rest
    obtain ⟨hleft, hblock⟩ := hkeep
    have hsource : ((bytes.drop (stop - (16 - left))).take (stop - (stop - (16 - left)))).length = 16 - left := by
      rw [length_take, length_drop]
      omega
    have hfits : 48 - (16 - left) + ((bytes.drop (stop - (16 - left))).take (stop - (stop - (16 - left)))).length ≤
        after.buf.length := by
      omega
    refine ⟨overwrite after.buf (48 - (16 - left)) ((bytes.drop (stop - (16 - left))).take
      (stop - (stop - (16 - left)))), ?_, (length_overwrite hfits).trans hroom, fun _ _ => ?_⟩
    · rw [if_pos (by simp [hleft, hblock]), sub_of_le (by omega), Option.bind_eq_bind, Option.bind_some,
        sub_of_le (by omega), Option.bind_eq_bind, Option.bind_some, sub_of_le (by omega), Option.bind_some,
        slice_of_le (by omega) hstop, Option.bind_some, copyFrom_of_length (by omega) (by omega)]
    · have hstart : 32 + left = 48 - (16 - left) := by omega
      have htake : (bytes.take stop).length = stop := length_take_of_le hstop
      have hdrop : (old.flatten ++ rest ++ bytes.take stop).length - (16 - left) =
          (old.flatten ++ rest).length + (stop - (16 - left)) := by
        rw [length_append, htake]
        omega
      rw [hstart, drop_overwrite_start hfits, hsource, drop_of_length_le (l := after.buf) (by omega),
        append_nil, hflatten, hdrop, ← drop_drop, drop_left, drop_take]
  · -- the buffer is the last block
    refine ⟨after.buf, by rw [if_neg (by simpa using hkeep)]; rfl, hroom, fun hblocks hleft => ?_⟩
    have hstop' : stop < 48 := by omega
    have hmore : more = [] := by
      have hlength := congrArg List.length htaken.bytes_eq
      rw [length_append, length_take_of_le hstop, length_flatten_of_sizes htaken.sizes] at hlength
      exact length_eq_zero_iff.mp (by omega)
    subst hmore
    rw [append_nil] at hblocks ⊢
    have hpos := length_pos_iff.mpr hblocks
    rw [hfilled.last hblocks, drop_drop, length_flatten_of_sizes hfilled.sizes]
    congr 1
    omega

/-- The bytes go beyond the buffer. -/
theorem Holds.update_over (h : Holds seed blocks rest self) (arch : Ty.Arch) (hover : 48 - rest.length < bytes.length) :
    ∃ blocks' rest' self', self.update arch bytes = some self' ∧ Holds seed blocks' rest' self' ∧
      blocks'.flatten ++ rest' = blocks.flatten ++ (rest ++ bytes) := by
  have hle := h.fits
  obtain ⟨filledBlocks, filled, index, hfill, hfilled⟩ := h.fillBuffer_eq hover
    (decide (16 < blocks.flatten.length + (rest.length + bytes.length)))
    (.ofNat (blocks.flatten.length + (rest.length + bytes.length)))
  obtain ⟨stop, more, htaken, hrounds⟩ := rounds_eq (Nat.le_of_lt hfilled.lt)
  obtain ⟨f0, f1, f2, hlanes⟩ := foldlM_round htaken.sizes
  obtain ⟨buf, hkeep, hroom, htail⟩ := hfilled.keepTail_eq htaken { filled with
    state0 := f0 filled.state0, state1 := f1 filled.state1, state2 := f2 filled.state2 } rfl
  have hpending := htaken.pending hfilled.lt
  have hshort := htaken.short
  have hlength : (bytes.drop stop).length = bytes.length - stop := length_drop
  have hflatten : (filledBlocks ++ more).flatten ++ bytes.drop stop = blocks.flatten ++ (rest ++ bytes) := by
    rw [flatten_append, hfilled.flatten_eq, append_assoc (blocks.flatten ++ rest), ← htaken.bytes_eq,
      append_assoc, take_append_drop, append_assoc]
  have htotal : (filledBlocks ++ more).flatten.length + (bytes.drop stop).length =
      blocks.flatten.length + (rest.length + bytes.length) := by
    rw [← length_append, hflatten, length_append, length_append]
  refine ⟨filledBlocks ++ more, bytes.drop stop, { filled with
    state0 := f0 filled.state0, state1 := f1 filled.state1, state2 := f2 filled.state2
    buf := overwrite buf 0 (bytes.drop stop), bufLen := (bytes.drop stop).length }, ?_, ?_, hflatten⟩
  · rw [h.len] at hfill
    rw [update, h.longInput_eq, Option.bind_eq_bind, Option.bind_some, h.totalLen_eq]
    dsimp only
    rw [h.len, sub_of_le hle, Option.bind_eq_bind, Option.bind_some, if_neg (by omega), hfill, Option.bind_eq_bind,
      Option.bind_some]
    dsimp only
    rw [hrounds, hlanes, Option.map_some, Option.bind_eq_bind, Option.bind_some]
    dsimp only
    rw [sliceFrom_of_le htaken.stop_le, Option.bind_some, hkeep, Option.bind_some,
      copyFrom_of_length (by omega) (Nat.zero_add _)]
    rfl
  · have hfits : 0 + (bytes.drop stop).length ≤ buf.length := by omega
    constructor
    · exact forall_mem_append.mpr ⟨hfilled.sizes, htaken.sizes⟩
    · rw [foldlM_append, hfilled.lanes, Option.bind_eq_bind, Option.bind_some, hlanes]
      rfl
    · rw [htotal]
      exact hfilled.total
    · rw [htotal]
      exact hfilled.long
    · exact (length_overwrite hfits).trans hroom
    · rfl
    · omega
    · have htake := take_overwrite hfits
      rw [Nat.zero_add, take_zero, nil_append] at htake
      exact htake
    · intro _ hnil
      rw [hnil, length_nil] at hlength
      omega
    · intro hblocks hless
      rw [← htail hblocks hless]
      exact drop_overwrite hfits (by omega)

/-- **A step**: whatever the bytes, `update` returns, and the hasher stands for all bytes so far. -/
theorem Holds.update (h : Holds seed blocks rest self) (arch : Ty.Arch) (bytes : Bytes) :
    ∃ blocks' rest' self', self.update arch bytes = some self' ∧ Holds seed blocks' rest' self' ∧
      blocks'.flatten ++ rest' = blocks.flatten ++ (rest ++ bytes) := by
  by_cases hfits : bytes.length ≤ 48 - rest.length
  · obtain ⟨self', hupdate, hholds⟩ := h.update_fits arch hfits
    exact ⟨blocks, rest ++ bytes, self', hupdate, hholds, rfl⟩
  · exact h.update_over arch (Nat.not_le.mp hfits)

/-! ### The value at the end -/

theorem flatten_inj {blocks blocks' : List Bytes} (h : ∀ block ∈ blocks, block.length = 48)
    (h' : ∀ block ∈ blocks', block.length = 48) (hflatten : blocks.flatten = blocks'.flatten) : blocks = blocks' := by
  induction blocks generalizing blocks' with
  | nil =>
    have hlength := congrArg List.length hflatten
    rw [length_flatten_of_sizes h'] at hlength
    exact (length_eq_zero_iff.mp (by simpa using hlength)).symm
  | cons block blocks ih =>
    cases blocks' with
    | nil =>
      have hlength := congrArg List.length hflatten
      rw [length_flatten_of_sizes h] at hlength
      cases hlength
    | cons block' blocks' =>
      obtain ⟨hblock, hblocks⟩ := forall_mem_cons.mp h
      obtain ⟨hblock', hblocks'⟩ := forall_mem_cons.mp h'
      rw [flatten_cons, flatten_cons] at hflatten
      obtain ⟨rfl, hrest⟩ := append_inj hflatten (hblock.trans hblock'.symm)
      rw [ih hblocks hblocks' hrest]

/-- The bytes determine what the hasher stands for. -/
theorem Holds.unique {blocks' : List Bytes} {rest' : Bytes} {self' : Wyhash}
    (h : Holds seed blocks rest self) (h' : Holds seed blocks' rest' self')
    (hbytes : blocks.flatten ++ rest = blocks'.flatten ++ rest') : blocks = blocks' ∧ rest = rest' := by
  have hlength := congrArg List.length hbytes
  rw [length_append, length_append] at hlength
  have hflatten := length_flatten_of_sizes h.sizes
  have hflatten' := length_flatten_of_sizes h'.sizes
  have hfits := h.fits
  have hfits' := h'.fits
  have hpending : blocks.length ≠ 0 → rest.length ≠ 0 := by simpa using h.pending
  have hpending' : blocks'.length ≠ 0 → rest'.length ≠ 0 := by simpa using h'.pending
  obtain ⟨hblocks, hrest⟩ := append_inj hbytes (by omega)
  exact ⟨flatten_inj h.sizes h'.sizes hblocks, hrest⟩

/-- The last bytes of the input, at least 16, and where the rest starts in them. -/
def lastInput (blocks : List Bytes) (rest : Bytes) : Bytes × Nat :=
  if rest.length < 16 then
    (blocks.flatten.drop (blocks.flatten.length - (16 - rest.length)) ++ rest, 16 - rest.length)
  else (rest, 0)

theorem Holds.finalInput_eq (h : Holds seed blocks rest self)
    (hlong : 16 < blocks.flatten.length + rest.length) : self.finalInput = some (lastInput blocks rest) := by
  have hroom := h.room
  have hfits := h.fits
  have hkept := h.kept
  rw [finalInput, lastInput, h.len, slice_zero (by omega), Option.bind_eq_bind, Option.bind_some, hkept]
  by_cases hshort : rest.length < 16
  · have hblocks : blocks ≠ [] := by
      rintro rfl
      rw [flatten_nil, length_nil] at hlong
      omega
    have hlength := h.length_flatten hblocks
    have hend : (self.buf.drop (48 - (16 - rest.length))).take (48 - (48 - (16 - rest.length))) =
        blocks.flatten.drop (blocks.flatten.length - (16 - rest.length)) := by
      rw [show 48 - (16 - rest.length) = 32 + rest.length by omega, h.tail hblocks hshort, take_of_length_le]
      rw [length_drop]
      omega
    have htail : (blocks.flatten.drop (blocks.flatten.length - (16 - rest.length))).length = 16 - rest.length := by
      rw [length_drop]
      omega
    rw [if_pos hshort, if_pos hshort, sub_of_le (by omega), Option.bind_eq_bind, Option.bind_some,
      sub_of_le (by omega), Option.bind_some, slice_of_le (by omega) (by omega), Option.bind_some, hend]
    generalize blocks.flatten.drop (blocks.flatten.length - (16 - rest.length)) = tail at htail ⊢
    have hscratch : overwrite (List.replicate 16 (0 : UInt8)) 0 tail = tail ++ List.replicate rest.length 0 := by
      rw [overwrite, take_zero, nil_append, Nat.zero_add, htail, drop_replicate,
        show 16 - (16 - rest.length) = rest.length by omega]
    have hscratch' : overwrite (tail ++ List.replicate rest.length 0) (16 - rest.length) rest = tail ++ rest := by
      rw [overwrite, ← htail, take_left, drop_of_length_le, append_nil]
      rw [length_append, length_replicate]
    rw [copyFrom_of_length (by rw [length_replicate]; omega) (by omega), Option.bind_some, Option.bind_some,
      hscratch, copyFrom_of_length (by rw [length_append, length_replicate]; omega) (by omega), hscratch']
    rfl
  · rw [if_neg hshort, if_neg hshort]
    rfl

theorem Holds.shallowCopy_eq {self' : Wyhash} (h : Holds seed blocks rest self) (h' : Holds seed blocks rest self') :
    self.shallowCopy = self'.shallowCopy := by
  have hbare : self.bare = self'.bare := Option.some.inj (h.lanes.symm.trans h'.lanes)
  have hcopy (hasher : Wyhash) : hasher.shallowCopy =
      { hasher.bare with totalLen := hasher.totalLen, longInput := hasher.longInput } := rfl
  rw [hcopy, hcopy, hbare, h.total, h'.total, h.long, h'.long]

/-- The value at the end is that of every hasher for the same bytes. -/
theorem Holds.finishValue_eq {self' : Wyhash} (h : Holds seed blocks rest self) (h' : Holds seed blocks rest self') :
    self.finishValue = self'.finishValue := by
  have hfits := h.fits
  have hroom := h.room
  have hroom' := h'.room
  rw [finishValue, finishValue, h.shallowCopy_eq h', h.long, h'.long, h.len, h'.len, slice_zero (by omega),
    slice_zero (by omega), h.kept, h'.kept]
  by_cases hlong : 16 < blocks.flatten.length + rest.length
  · rw [h.finalInput_eq hlong, h'.finalInput_eq hlong]
  · simp only [hlong, decide_false, Bool.not_false, if_true]

theorem finalRounds_isSome (state0 : UInt64) (input : Bytes) (i : Nat) :
    ∃ state0', finalRounds state0 input i = some state0' := by
  induction hleft : input.length - i using Nat.strong_induction_on generalizing state0 i with
  | _ left ih =>
    rw [finalRounds]
    by_cases hmore : i + 16 < input.length
    · obtain ⟨v0, h0⟩ := read8_sliceFrom input i (by omega)
      obtain ⟨v1, h1⟩ := read8_sliceFrom input (i + 8) (by omega)
      rw [if_pos hmore]
      simp only [← bind_assoc, h0, h1]
      exact ih (input.length - (i + 16)) (by omega) _ _ rfl
    · rw [if_neg hmore]
      exact ⟨state0, rfl⟩

theorem final1_isSome (hasher : Wyhash) {input : Bytes} {offset : Nat} (hlength : 16 ≤ input.length)
    (hoffset : offset ≤ input.length) : ∃ after, hasher.final1 input offset = some after := by
  obtain ⟨state0, hstate0⟩ := finalRounds_isSome hasher.state0 (input.drop offset) 0
  obtain ⟨a, ha⟩ := read8_sliceFrom input (input.length - 16) (by omega)
  obtain ⟨b, hb⟩ := read8_sliceFrom input (input.length - 8) (by omega)
  rw [Option.bind_eq_bind] at ha hb
  rw [final1, sliceFrom_of_le hoffset, sub_of_le hlength, sub_of_le (by omega)]
  simp only [Option.bind_eq_bind, Option.bind_some, hstate0, ← Option.bind_assoc, ha, hb]
  exact ⟨_, rfl⟩

theorem smallKey_isSome (hasher : Wyhash) (bytes : Bytes) : ∃ after, hasher.smallKey bytes = some after := by
  rw [smallKey]
  dsimp only
  by_cases hfour : 4 ≤ bytes.length
  · rw [if_pos hfour]
    have hquarter : (bytes.length >>> 3) <<< 2 ≤ bytes.length - 4 := by
      rw [Nat.shiftRight_eq_div_pow, Nat.shiftLeft_eq]
      omega
    generalize (bytes.length >>> 3) <<< 2 = quarter at hquarter
    obtain ⟨v0, h0⟩ := read4_sliceFrom bytes 0 (by omega)
    obtain ⟨v1, h1⟩ := read4_sliceFrom bytes quarter (by omega)
    obtain ⟨v2, h2⟩ := read4_sliceFrom bytes (bytes.length - 4) (by omega)
    obtain ⟨v3, h3⟩ := read4_sliceFrom bytes (bytes.length - 4 - quarter) (by omega)
    rw [Option.bind_eq_bind] at h0 h1 h2 h3
    rw [sub_of_le hfour]
    simp only [Option.bind_eq_bind, Option.bind_some, sub_of_le hquarter, ← Option.bind_assoc, h0, h1, h2, h3]
    exact ⟨_, rfl⟩
  rw [if_neg hfour]
  by_cases hpos : 0 < bytes.length
  · have hhalf : bytes.length >>> 1 < bytes.length := by
      rw [Nat.shiftRight_eq_div_pow]
      omega
    rw [if_pos hpos, sub_of_le hpos, List.getElem?_eq_getElem hpos, List.getElem?_eq_getElem hhalf]
    simp only [Option.bind_eq_bind, Option.bind_some, List.getElem?_eq_getElem (Nat.sub_one_lt_of_lt hpos)]
    exact ⟨_, rfl⟩
  · rw [if_neg hpos]
    exact ⟨_, rfl⟩

theorem Holds.finishValue_isSome (h : Holds seed blocks rest self) : ∃ value, self.finishValue = some value := by
  have hfits := h.fits
  have hroom := h.room
  rw [finishValue, h.long, h.len, slice_zero (by omega), h.kept]
  by_cases hlong : 16 < blocks.flatten.length + rest.length
  · have hlast : 16 ≤ (lastInput blocks rest).1.length ∧
        (lastInput blocks rest).2 ≤ (lastInput blocks rest).1.length := by
      rw [lastInput]
      split
      · simp only [length_append, length_drop]
        omega
      · dsimp only
        omega
    obtain ⟨after, hafter⟩ := final1_isSome self.shallowCopy.final0 hlast.1 hlast.2
    simp only [hlong, decide_true, Bool.not_true, Bool.false_eq_true, if_false]
    rw [h.finalInput_eq hlong, Option.bind_eq_bind, Option.bind_some, hafter]
    exact ⟨_, rfl⟩
  · obtain ⟨after, hafter⟩ := smallKey_isSome self.shallowCopy rest
    simp only [hlong, decide_false, Bool.not_false, if_true]
    rw [Option.bind_eq_bind, Option.bind_some, hafter]
    exact ⟨_, rfl⟩

/-- The one-shot hash is that of every hasher for the bytes. -/
theorem Holds.finishValue_eq_wyhash (h : Holds seed blocks rest self) (arch : Ty.Arch) :
    self.finishValue = wyhash arch seed (blocks.flatten ++ rest) := by
  obtain ⟨blocks', rest', once, hupdate, honce, hbytes⟩ := (holds_init seed).update arch (blocks.flatten ++ rest)
  rw [flatten_nil, nil_append, nil_append] at hbytes
  obtain ⟨rfl, rfl⟩ := honce.unique h hbytes
  rw [wyhash, hupdate, Option.bind_eq_bind, Option.bind_some]
  exact h.finishValue_eq honce

end

end Wyhash

/-! ### Runs -/

/-- A call of a hasher. -/
inductive Call where
  | update (bytes : Bytes)
  | finish

/-- The values that the calls of `finish` return; `none` if a call traps. -/
def run (arch : Ty.Arch) (hasher : Wyhash) : List Call → Option (List UInt64)
  | [] => some []
  | .update bytes :: calls => do run arch (← hasher.update arch bytes) calls
  | .finish :: calls => do return (← hasher.finishValue) :: (← run arch hasher calls)

/-- The one-shot hashes of all bytes in front of each call of `finish`. -/
def oneShots (arch : Ty.Arch) (seed : UInt64) (bytes : Bytes) : List Call → List (Option UInt64)
  | [] => []
  | .update chunk :: calls => oneShots arch seed (bytes ++ chunk) calls
  | .finish :: calls => wyhash arch seed bytes :: oneShots arch seed bytes calls

theorem Wyhash.Holds.run_eq {arch : Ty.Arch} {seed : UInt64} {blocks : List Bytes} {rest : Bytes}
    {hasher : Wyhash} (h : hasher.Holds seed blocks rest) (calls : List Call) :
    ∃ values, run arch hasher calls = some values ∧
      values.map some = oneShots arch seed (blocks.flatten ++ rest) calls := by
  induction calls generalizing blocks rest hasher with
  | nil => exact ⟨[], rfl, rfl⟩
  | cons call calls ih =>
    cases call with
    | update bytes =>
      obtain ⟨blocks', rest', after, hupdate, hafter, hbytes⟩ := h.update arch bytes
      obtain ⟨values, hrun, hvalues⟩ := ih hafter
      refine ⟨values, ?_, ?_⟩
      · rw [run, hupdate]
        exact hrun
      · rw [hvalues, hbytes, oneShots, append_assoc]
    | finish =>
      obtain ⟨value, hvalue⟩ := h.finishValue_isSome
      obtain ⟨values, hrun, hvalues⟩ := ih h
      refine ⟨value :: values, ?_, ?_⟩
      · rw [run, hvalue, hrun]
        rfl
      · rw [map_cons, hvalues, oneShots, ← h.finishValue_eq_wyhash arch, hvalue]

/-- **The hash does not depend on the calls**: for every seed and all calls of `update` and `finish`, no call traps, and
each `finish` returns the one-shot hash of all bytes in front of it. -/
theorem wyhash_chunks (arch : Ty.Arch) (seed : UInt64) (calls : List Call) :
    ∃ values, run arch (.init seed) calls = some values ∧ values.map some = oneShots arch seed [] calls :=
  (Wyhash.holds_init seed).run_eq calls

end Nia.Hash
