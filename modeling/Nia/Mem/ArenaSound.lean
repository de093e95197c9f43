import Nia.Mem.ArenaBooks

/-! Soundness of the arena.

A system is an arena with the blocks that its callers hold. Each block that is not empty lies in the part in use of
a chunk in use, and no two share a byte. The end of the first chunk moves back only over a block that ends there;
all that lies behind that block's start is the block itself, so that what others hold stays below the end. -/
namespace Nia.Mem.Arena

open Lib Lib.Trapping List

/-! ### The system -/

/-- An arena and the blocks that its callers hold. -/
structure System where
  world : World := {}
  live : List Block := []

/-- A call of the arena. -/
inductive Op where
  | alloc (layout : Layout)
  | resize (block : Block) (newLayout : Layout)
  | remap (block : Block) (newLayout : Layout)
  | free (block : Block)
  | reset
  | deinit

/-- What a call returned. -/
inductive Result where
  | allocated (result : Except Error Block)
  | resized (result : Bool)
  | remapped (result : Option Block)
  | finished (result : Except Error Unit)

section

variable [Target]

/-- The blocks after one of them was replaced. -/
def replaced (block newBlock : Block) (live : List Block) : List Block :=
  if block ∈ live then newBlock :: live.erase block else live

/-- One call. -/
def step (child : Child) (system : System) : Op → Option (Result × System)
  | .alloc layout => do
    let (result, world) ← alloc child layout system.world
    match result with
    | .ok block => return (.allocated result, ⟨world, block :: system.live⟩)
    | .error _ => return (.allocated result, ⟨world, system.live⟩)
  | .resize block newLayout => do
    let (result, world) ← resize block newLayout system.world
    if result then return (.resized result, ⟨world, replaced block (block.withLayout newLayout) system.live⟩)
    else return (.resized result, ⟨world, system.live⟩)
  | .remap block newLayout => do
    let (result, world) ← remap block newLayout system.world
    match result with
    | some newBlock => return (.remapped result, ⟨world, replaced block newBlock system.live⟩)
    | none => return (.remapped result, ⟨world, system.live⟩)
  | .free block => do
    let (result, world) ← free block system.world
    match result with
    | .ok () => return (.finished result, ⟨world, system.live.erase block⟩)
    | .error _ => return (.finished result, ⟨world, system.live⟩)
  | .reset => do
    let ((), world) ← reset system.world
    return (.finished (.ok ()), ⟨world, []⟩)
  | .deinit => do
    let (result, world) ← deinit child system.world
    return (.finished result, ⟨world, []⟩)

/-- The caller holds the block, or the block has no byte of one that is held, or no chunk has it. -/
def MayPass (system : System) (block : Block) : Prop :=
  block ∈ system.live ∨ (∀ other ∈ system.live, ApartBlocks block other) ∨ ownsBlock system.world block = false

/-- A call that its caller may make. -/
def MayCall (system : System) : Op → Prop
  | .resize block _ | .remap block _ | .free block => MayPass system block
  | .alloc _ | .reset | .deinit => True

/-- What calls lead to. -/
inductive Reachable (child : Child) : System → Prop where
  | init : Reachable child {}
  | step {system system' op result} : Reachable child system → MayCall system op →
    step child system op = some (result, system') → Reachable child system'

/-! ### The invariant -/

/-- Where a block lies that a caller holds. -/
structure Placed (usedList : List Chunk) (block : Block) : Prop where
  aligned : block.ptr % block.align = 0
  within : block.size ≠ 0 → ∃ chunk ∈ usedList, Within chunk block

/-- No block in use shares a byte with another, and each lies in a chunk in use. -/
structure Sound (world : World) (live : List Block) : Prop where
  books : Books world world.chunkBlocks
  ends : ∀ chunk ∈ world.usedList, chunk.endIndex ≤ chunkPayloadCapacity chunk
  placed : ∀ block ∈ live, Placed world.usedList block
  apart : live.Pairwise ApartBlocks

variable {child : Child} {world world' : World} {live live' : List Block} {block newBlock other : Block}
  {layout : Layout} {first : Chunk} {rest : List Chunk}

omit [Target] in
theorem ApartBlocks.of_isEmpty (h : block.isEmpty = true) : ApartBlocks block other := Or.inl (beq_iff_eq.mp h)

omit [Target] in
theorem size_ne_zero (h : block.isEmpty = false) : block.size ≠ 0 := fun hsize =>
  Bool.false_ne_true (h.symm.trans (beq_iff_eq.mpr hsize))

section

variable (h : Sound world live)
include h

/-- The others have no byte of a block that is held. -/
theorem Sound.apart_erase (hblock : block ∈ live) : ∀ other ∈ live.erase block,
    ApartBlocks block other :=
  (pairwise_cons.mp (((perm_cons_erase hblock).pairwise_iff fun h => ApartBlocks.symm h).mp h.apart)).1

theorem MayPass.apart_erase (hpass : MayPass ⟨world, live⟩ block)
    (howns : ownsBlock world block = true) : ∀ other ∈ live.erase block, ApartBlocks block other := by
  obtain hblock | hapart | hforeign := hpass
  · exact h.apart_erase hblock
  · exact fun other hother => hapart other (mem_of_mem_erase hother)
  · exact absurd (howns.symm.trans hforeign) (by decide)

theorem Sound.subset (hlive : live'.Sublist live) : Sound world live' where
  books := h.books
  ends := h.ends
  placed block hblock := h.placed block (hlive.subset hblock)
  apart := h.apart.sublist hlive

theorem Sound.cons (hplaced : Placed world.usedList block)
    (hapart : ∀ other ∈ live, ApartBlocks block other) : Sound world (block :: live) where
  books := h.books
  ends := h.ends
  placed := forall_mem_cons.mpr ⟨hplaced, h.placed⟩
  apart := pairwise_cons.mpr ⟨hapart, h.apart⟩

/-- A block of the first chunk, behind all that a caller holds of that chunk. -/
theorem Sound.apart_first (hused : world.usedList = first :: rest) (hother : other ∈ live)
    (hbelow : other.size ≠ 0 → Within first other → other.ptr + other.size ≤ block.ptr)
    (hinside : Region.Inside block.region first.block.region) : ApartBlocks block other := by
  by_cases hempty : other.size = 0
  · exact Or.inr (Or.inl hempty)
  · obtain ⟨chunk, hchunk, hwithin⟩ := (h.placed other hother).within hempty
    have hend := h.ends chunk hchunk
    rw [hused] at hchunk
    obtain rfl | hrest := mem_cons.mp hchunk
    · exact Or.inr (Or.inr (Or.inr (hbelow hempty hwithin)))
    · have hbooks := h.books.apart
      rw [World.chunkBlocks, hused, cons_append, map_cons, pairwise_cons] at hbooks
      have hchunks : ApartBlocks first.block chunk.block :=
        hbooks.1 chunk.block (mem_map_of_mem (mem_append_left _ hrest))
      exact Region.Apart.of_inside_of_inside hchunks hinside (hwithin.inside hend)

/-- The end of the first chunk moves, with all that is held still below it. -/
theorem Sound.moveEnd (hused : world.usedList = first :: rest) {endIndex : Nat}
    (hend : endIndex ≤ chunkPayloadCapacity first)
    (hbelow : ∀ block ∈ live, block.size ≠ 0 → Within first block → Within { first with endIndex } block) :
    Sound { world with usedList := { first with endIndex } :: rest } live where
  books := by
    have hbooks := h.books
    rw [World.chunkBlocks, hused] at hbooks
    exact hbooks.of_eq rfl rfl rfl
  ends := by
    have hends := h.ends
    rw [hused] at hends
    exact forall_mem_cons.mpr ⟨hend, (forall_mem_cons.mp hends).2⟩
  placed block hblock := by
    refine ⟨(h.placed block hblock).aligned, fun hsize => ?_⟩
    obtain ⟨chunk, hchunk, hwithin⟩ := (h.placed block hblock).within hsize
    rw [hused] at hchunk
    obtain rfl | hrest := mem_cons.mp hchunk
    · exact ⟨_, mem_cons_self, hbelow block hblock hsize hwithin⟩
    · exact ⟨chunk, mem_cons_of_mem _ hrest, hwithin⟩
  apart := h.apart

theorem Sound.of_books (hused : world'.usedList = world.usedList)
    (hbooks : Books world' world'.chunkBlocks) : Sound world' live where
  books := hbooks
  ends := hused ▸ h.ends
  placed := hused ▸ h.placed
  apart := h.apart

/-- A chunk without blocks comes to be the first. -/
theorem Sound.push {chunk : Chunk} (hused : world'.usedList = world.usedList)
    (hbooks : Books world' (chunk.block :: world'.chunkBlocks)) (hend : chunk.endIndex = 0) :
    Sound { world' with usedList := chunk :: world'.usedList } live where
  books := hbooks.of_eq rfl rfl rfl
  ends := by
    rw [hused]
    exact forall_mem_cons.mpr ⟨hend ▸ Nat.zero_le _, h.ends⟩
  placed block hblock := by
    obtain ⟨haligned, hwithin⟩ := h.placed block hblock
    refine ⟨haligned, fun hsize => ?_⟩
    obtain ⟨holder, hholder, hwithin⟩ := hwithin hsize
    exact ⟨holder, mem_cons_of_mem _ (hused ▸ hholder), hwithin⟩
  apart := h.apart

end

/-- A held block is replaced by one that has no byte of the others. -/
theorem Sound.replaced (h : Sound world (live.erase block)) (hplaced : block ∈ live → Placed world.usedList newBlock)
    (hapart : ∀ other ∈ live.erase block, ApartBlocks newBlock other) :
    Sound world (replaced block newBlock live) := by
  rw [Arena.replaced]
  split
  · rename_i hblock
    exact h.cons (hplaced hblock) hapart
  · rename_i hblock
    rwa [erase_of_not_mem hblock] at h

/-! ### The calls -/

theorem allocFromFirst_eq (h : Sound world live) (layout : Layout) :
    ∃ result world', allocFromFirst layout world = some (result, world') ∧ (result = none → world' = world) ∧
      ∀ block, result = some block → block.layout = layout ∧ Sound world' (block :: live) := by
  rw [allocFromFirst, bind_of_eq (rfl : (get : Code World World) world = some (world, world))]
  cases hused : world.usedList with
  | nil => exact ⟨none, world, rfl, fun _ => rfl, fun _ hsome => (nomatch hsome)⟩
  | cons first rest =>
    dsimp only
    cases halloc : allocFromChunk first layout with
    | none => exact ⟨none, world, rfl, fun _ => rfl, fun _ hsome => (nomatch hsome)⟩
    | some answer =>
      obtain ⟨block, ⟨chunkBlock, endIndex⟩⟩ := answer
      obtain ⟨hlayout, haligned, hblock, hstart, hwithin, hgrown, hend⟩ := allocFromChunk_eq_some halloc
      cases hblock
      refine ⟨some block, _, rfl, fun hnone => (nomatch hnone), fun block' hblock => ?_⟩
      cases hblock
      have hmoved : Sound { world with usedList := { first with endIndex } :: rest } live := by
        refine h.moveEnd hused hend fun other _ _ hother => ⟨hother.1, Nat.le_trans hother.2 ?_⟩
        exact Nat.add_le_add_left hgrown _
      refine ⟨hlayout, hmoved.cons ⟨haligned, fun _ => ⟨_, mem_cons_self, hwithin⟩⟩ fun other hother => ?_⟩
      exact h.apart_first hused hother (fun _ hother => Nat.le_trans hother.2 hstart) (hwithin.inside hend)

theorem allocFromNew_eq {chunk : Chunk} (layout : Layout)
    (h : Sound { world with usedList := chunk :: world.usedList } live) :
    ∃ result world', allocFromNew chunk layout world = some (result, world') ∧
      (∀ error, result = .error error → Sound world' live) ∧
      ∀ block, result = .ok block → block.layout = layout ∧ Sound world' (block :: live) := by
  obtain ⟨result, world', hrun, hnone, hsome⟩ := allocFromFirst_eq h layout
  have hpushed : (modify fun world => { world with usedList := chunk :: world.usedList } : Code World Unit) world =
      some ((), { world with usedList := chunk :: world.usedList }) := rfl
  rw [allocFromNew, bind_of_eq hpushed, bind_of_eq hrun]
  cases result with
  | none =>
    exact ⟨.error .outOfMemory, world', rfl, fun _ _ => hnone rfl ▸ h, fun _ hok => (nomatch hok)⟩
  | some block =>
    refine ⟨.ok block, world', rfl, fun _ herror => (nomatch herror), fun block' hblock => ?_⟩
    cases hblock
    exact hsome block rfl

theorem alloc_eq (hlawful : child.Lawful) (h : Sound world live) (layout : Layout) :
    ∃ result world', alloc child layout world = some (result, world') ∧
      (∀ error, result = .error error → Sound world' live) ∧
      ∀ block, result = .ok block → block.layout = layout ∧ Sound world' (block :: live) := by
  rw [alloc]
  by_cases hempty : layout.isEmpty = true
  · rw [if_pos hempty]
    refine ⟨.ok (Block.empty layout), world, rfl, fun _ herror => (by cases herror), fun block hblock => ?_⟩
    cases hblock
    refine ⟨rfl, h.cons ⟨Nat.mod_self _, fun hsize => absurd (beq_iff_eq.mp hempty) hsize⟩ fun other _ => ?_⟩
    exact ApartBlocks.of_isEmpty hempty
  · rw [if_neg hempty]
    obtain ⟨result, world₁, hrun, hnone, hsome⟩ := allocFromFirst_eq h layout
    rw [bind_of_eq hrun]
    cases result with
    | some block =>
      refine ⟨.ok block, world₁, rfl, fun _ herror => (by cases herror), fun block' hblock => ?_⟩
      cases hblock
      exact hsome block rfl
    | none =>
      obtain rfl := hnone rfl
      obtain ⟨popped, world₂, hpop, hused, hnone, hsome⟩ := popFreeChunk_eq hlawful h.books layout
      dsimp only
      rw [bind_of_eq hpop]
      cases popped with
      | some chunk =>
        obtain ⟨hend, hbooks⟩ := hsome chunk rfl
        exact allocFromNew_eq layout (h.push hused hbooks hend)
      | none =>
        have h₂ : Sound world₂ live := h.of_books hused (hnone rfl)
        dsimp only
        rw [bind_of_eq (rfl : (get : Code World World) world₂ = some (world₂, world₂))]
        obtain ⟨made, world₃, hmake, hused₃, hfree₃, herror, hok⟩ := allocateChunk_eq hlawful h₂.books layout
          ((world₂.usedList.head?.map chunkPayloadCapacity).getD 0)
        have hblocks : world₃.chunkBlocks = world₂.chunkBlocks := by
          rw [World.chunkBlocks, hused₃, hfree₃, World.chunkBlocks]
        rw [bind_of_eq hmake]
        cases made with
        | error error =>
          refine ⟨.error error, world₃, rfl, fun _ _ => ?_, fun _ hok => (by cases hok)⟩
          exact h₂.of_books hused₃ (hblocks ▸ herror error rfl)
        | ok chunk =>
          obtain ⟨hend, hbooks⟩ := hok chunk rfl
          exact allocFromNew_eq layout (h₂.push hused₃ (hblocks ▸ hbooks) hend)

/-- What others hold of the first chunk ends before the block at its end. -/
theorem below_last (hsize : block.isEmpty = false) (howns : chunkOwnsBlock first block = true)
    (hlast : isLastAllocation first block = true) (hapart : ApartBlocks block other) (hother : other.size ≠ 0)
    (hwithin : Within first other) : other.ptr + other.size ≤ block.ptr := by
  obtain ⟨-, hend⟩ := last_eq hsize howns hlast
  obtain hempty | hempty | hle | hle := hapart
  · exact absurd hempty (size_ne_zero hsize)
  · exact absurd hempty hother
  · have hstop : block.ptr + block.size ≤ other.ptr := hle
    have hwithin := hwithin.2
    omega
  · exact hle

section

variable (h : Sound world live)
include h

/-- The block at the end of the first chunk is made to end elsewhere. -/
theorem Sound.resizeLast (hused : world.usedList = first :: rest)
    (hsize : block.isEmpty = false) (howns : chunkOwnsBlock first block = true)
    (hlast : isLastAllocation first block = true) (hapart : ∀ other ∈ live.erase block, ApartBlocks block other)
    (halign : block.align = layout.align) {endIndex : Nat}
    (hstop : block.ptr + layout.size = first.block.ptr + chunkSize + endIndex)
    (hend : endIndex ≤ chunkPayloadCapacity first) :
    Sound { world with usedList := { first with endIndex } :: rest }
      (Arena.replaced block (block.withLayout layout) live) := by
  obtain ⟨hstart, -⟩ := last_eq hsize howns hlast
  have hwithin : Within { first with endIndex } (block.withLayout layout) := ⟨hstart, Nat.le_of_eq hstop⟩
  have hinside : Region.Inside (block.withLayout layout).region first.block.region := hwithin.inside hend
  have herase : Sound world (live.erase block) := h.subset erase_sublist
  have hmoved : Sound { world with usedList := { first with endIndex } :: rest } (live.erase block) := by
    refine herase.moveEnd hused hend fun other hother hsize' hwithin' => ⟨hwithin'.1, ?_⟩
    refine Nat.le_trans (below_last hsize howns hlast (hapart other hother) hsize' hwithin') ?_
    exact Nat.le_trans (Nat.le_add_right _ _) (Nat.le_of_eq hstop)
  refine hmoved.replaced (fun hblock => ⟨?_, fun _ => ⟨_, mem_cons_self, hwithin⟩⟩) fun other hother => ?_
  · have haligned := (h.placed block hblock).aligned
    rwa [halign] at haligned
  · have hbelow : other.size ≠ 0 → Within first other → other.ptr + other.size ≤ block.ptr :=
      below_last hsize howns hlast (hapart other hother)
    exact herase.apart_first hused hother hbelow hinside

variable (hpass : MayPass ⟨world, live⟩ block)
include hpass

theorem resize_eq (newLayout : Layout) :
    ∃ result world', resize block newLayout world = some (result, world') ∧ (result = false → world' = world) ∧
      (result = true → Sound world' (replaced block (block.withLayout newLayout) live)) := by
  have refused : ∃ result world', (pure false : Code World Bool) world = some (result, world') ∧
      (result = false → world' = world) ∧
      (result = true → Sound world' (replaced block (block.withLayout newLayout) live)) :=
    ⟨false, world, rfl, fun _ => rfl, fun htrue => (nomatch htrue)⟩
  have herase : Sound world (live.erase block) := h.subset erase_sublist
  rw [resize, bind_of_eq (rfl : (get : Code World World) world = some (world, world))]
  by_cases halign : block.align ≠ newLayout.align
  · rw [if_pos halign]
    exact refused
  rw [if_neg halign]
  have halign : block.align = newLayout.align := not_ne_iff.mp halign
  have haligned (hblock : block ∈ live) : block.ptr % newLayout.align = 0 := by
    have haligned := (h.placed block hblock).aligned
    rwa [halign] at haligned
  by_cases hempty : block.isEmpty = true
  · rw [if_pos hempty]
    refine ⟨newLayout.isEmpty, world, rfl, fun _ => rfl, fun hnew => ?_⟩
    refine herase.replaced (fun hblock => ⟨haligned hblock, fun hsize => ?_⟩) fun other _ => ?_
    · exact absurd (beq_iff_eq.mp hnew) hsize
    · exact ApartBlocks.of_isEmpty hnew
  rw [if_neg hempty]
  have hsize : block.isEmpty = false := Bool.eq_false_iff.mpr hempty
  cases hused : world.usedList with
  | nil => exact refused
  | cons first rest =>
    dsimp only
    by_cases howns : ownsBlock world block = false
    · rw [if_pos howns]
      exact refused
    rw [if_neg howns]
    have hapart := hpass.apart_erase h (Bool.not_eq_false _ ▸ howns)
    by_cases hlast : chunkOwnsBlock first block = false ∨ isLastAllocation first block = false
    · rw [if_pos hlast]
      refine ⟨decide (newLayout.size ≤ block.size), world, rfl, fun _ => rfl, fun hle => ?_⟩
      have hle : newLayout.size ≤ block.size := of_decide_eq_true hle
      refine herase.replaced (fun hblock => ⟨haligned hblock, fun _ => ?_⟩) fun other hother => ?_
      · obtain ⟨chunk, hchunk, hwithin⟩ := (h.placed block hblock).within (size_ne_zero hsize)
        exact ⟨chunk, hchunk, hwithin.1, Nat.le_trans (Nat.add_le_add_left hle _) hwithin.2⟩
      · refine Region.Apart.of_inside (hapart other hother) (Or.inr ⟨Nat.le_refl _, ?_⟩)
        exact Nat.add_le_add_left hle _
    rw [if_neg hlast]
    rw [not_or, Bool.not_eq_false, Bool.not_eq_false] at hlast
    obtain ⟨hfirst, hlast⟩ := hlast
    obtain ⟨hstart, hend⟩ := last_eq hsize hfirst hlast
    have hends : first.endIndex ≤ chunkPayloadCapacity first :=
      h.ends first (hused ▸ mem_cons_self)
    by_cases hle : newLayout.size ≤ block.size
    · rw [if_pos hle, if_neg (by omega)]
      refine ⟨true, _, rfl, fun hfalse => (nomatch hfalse), fun _ => ?_⟩
      exact h.resizeLast hused hsize hfirst hlast hapart halign (by omega) (by omega)
    · rw [if_neg hle]
      cases hsum : checkedAdd first.endIndex (newLayout.size - block.size) with
      | none => exact refused
      | some newEnd =>
        obtain rfl := checkedAdd_eq_some hsum
        dsimp only
        split
        · exact refused
        · rename_i hfits
          refine ⟨true, _, rfl, fun hfalse => (nomatch hfalse), fun _ => ?_⟩
          exact h.resizeLast hused hsize hfirst hlast hapart halign (by omega) (by omega)

theorem remap_eq (newLayout : Layout) :
    ∃ result world', remap block newLayout world = some (result, world') ∧ (result = none → Sound world' live) ∧
      ∀ newBlock, result = some newBlock →
        newBlock.layout = newLayout ∧ Sound world' (replaced block newBlock live) := by
  obtain ⟨resized, world', hrun, hfalse, htrue⟩ := resize_eq h hpass newLayout
  rw [remap, bind_of_eq hrun]
  cases resized with
  | true =>
    refine ⟨some _, world', rfl, fun hnone => (nomatch hnone), fun newBlock hblock => ?_⟩
    cases hblock
    exact ⟨rfl, htrue rfl⟩
  | false =>
    obtain rfl := hfalse rfl
    rw [if_neg Bool.false_ne_true]
    split
    · rename_i hempty
      have hnew : newLayout.isEmpty = true := (Bool.and_eq_true_iff.mp hempty).2
      refine ⟨some _, world', rfl, fun hnone => (nomatch hnone), fun newBlock hblock => ?_⟩
      cases hblock
      refine ⟨rfl, Sound.replaced (h.subset erase_sublist) (fun _ => ⟨Nat.mod_self _, fun hsize => ?_⟩)
        fun other _ => ?_⟩
      · exact absurd (beq_iff_eq.mp hnew) hsize
      · exact ApartBlocks.of_isEmpty hnew
    · exact ⟨none, world', rfl, fun _ => h, fun _ hsome => (nomatch hsome)⟩

/-- `free` takes the block out of those in use, or fails with the same blocks in use. -/
theorem free_eq :
    ∃ result world', free block world = some (result, world') ∧ (∀ error, result = .error error → Sound world' live) ∧
      (result = .ok () → Sound world' (live.erase block)) := by
  have refused : ∃ result world', (pure (.error .invalid) : Code World (Except Error Unit)) world =
      some (result, world') ∧ (∀ error, result = .error error → Sound world' live) ∧
      (result = .ok () → Sound world' (live.erase block)) :=
    ⟨.error .invalid, world, rfl, fun _ _ => h, fun hok => (nomatch hok)⟩
  have herase : Sound world (live.erase block) := h.subset erase_sublist
  rw [free, bind_of_eq (rfl : (get : Code World World) world = some (world, world))]
  by_cases hempty : block.isEmpty = true
  · rw [if_pos hempty]
    exact ⟨.ok (), world, rfl, fun _ herror => (nomatch herror), fun _ => herase⟩
  rw [if_neg hempty]
  have hsize : block.isEmpty = false := Bool.eq_false_iff.mpr hempty
  cases hused : world.usedList with
  | nil => exact refused
  | cons first rest =>
    dsimp only
    by_cases howns : ownsBlock world block = false
    · rw [if_pos howns]
      exact refused
    rw [if_neg howns]
    have hapart := hpass.apart_erase h (Bool.not_eq_false _ ▸ howns)
    split
    · rename_i hlast
      obtain ⟨hfirst, hlast⟩ := Bool.and_eq_true_iff.mp hlast
      obtain ⟨hstart, hend⟩ := last_eq hsize hfirst hlast
      have hends : first.endIndex ≤ chunkPayloadCapacity first :=
        h.ends first (hused ▸ mem_cons_self)
      rw [if_neg (by omega)]
      refine ⟨.ok (), _, rfl, fun _ herror => (nomatch herror), fun _ => ?_⟩
      refine herase.moveEnd hused (by omega) fun other hother hsize' hwithin => ⟨hwithin.1, ?_⟩
      have hbelow := below_last hsize hfirst hlast (hapart other hother) hsize' hwithin
      dsimp only
      omega
    · exact ⟨.ok (), world, rfl, fun _ herror => (nomatch herror), fun _ => herase⟩

end

/-! ### Giving back -/

omit [Target] in
theorem blocks_foldl_perm (chunks freeList : List Chunk) :
    ((chunks.foldl (fun freeList chunk => { chunk with endIndex := 0 } :: freeList) freeList).map Chunk.block).Perm
      ((chunks ++ freeList).map Chunk.block) := by
  induction chunks generalizing freeList with
  | nil => exact List.Perm.refl _
  | cons chunk rest ih =>
    refine (ih _).trans ?_
    rw [map_append, map_cons, cons_append, map_cons, map_append]
    exact perm_middle

theorem reset_eq (h : Sound world live) : ∃ world', reset world = some ((), world') ∧ Sound world' [] := by
  refine ⟨_, rfl, ?_, fun _ hchunk => (nomatch hchunk), fun _ hblock => (nomatch hblock), List.Pairwise.nil⟩
  exact (h.books.perm (blocks_foldl_perm world.usedList world.freeList).symm).of_eq rfl rfl rfl

/-- What a `deinit` has done: it tried every chunk once, kept those that were refused and returns the first failure. -/
structure CleanedUp (child : Child) (world world' : World) (result : Except Error Unit) : Prop where
  used : world'.usedList = []
  tries : world'.tries = (answers child world.calls world.chunkBlocks).reverse ++ world.tries
  kept : world'.freeList = keptChunks (answers child world.calls world.chunkBlocks)
  taken : world'.released = takenRanges (answers child world.calls world.chunkBlocks) ++ world.released
  returned : result = finish (firstFailure none (answers child world.calls world.chunkBlocks))
  success : result = .ok () → world'.freeList = [] ∧ world'.obtained.Perm world'.released

omit [Target] in
theorem finish_attempt (first second : Option Error) :
    finish (attempt (attempt none (finish first)) (finish second)) = finish (first.or second) := by
  cases first <;> cases second <;> rfl

omit [Target] in
/-- Without a failure no chunk was kept. -/
theorem keptChunks_of_ok {tried : List (Block × Option Error)} (h : finish (firstFailure none tried) = .ok ()) :
    keptChunks tried = [] := by
  have hnone : tried.findSome? Prod.snd = none := by
    cases hfirst : tried.findSome? Prod.snd with
    | none => rfl
    | some error =>
      rw [firstFailure, Option.none_or, hfirst] at h
      cases h
  have hfilter : tried.filter (·.2.isSome) = [] := by
    refine filter_eq_nil_iff.mpr fun entry hentry => ?_
    rw [List.findSome?_eq_none_iff.mp hnone entry hentry]
    exact Bool.false_ne_true
  rw [keptChunks, hfilter]
  rfl

/-- After `deinit` no block is in use, whether or not it fails. -/
theorem deinit_eq (child : Child) (h : Sound world live) : ∃ result world', deinit child world = some (result, world') ∧
    Sound world' [] ∧ CleanedUp child world world' result := by
  have hbooks : Books { world with usedList := [], freeList := [] }
      (world.usedList.map Chunk.block ++ ([] ++ world.freeList.map Chunk.block)) := by
    have hbooks := h.books
    rw [World.chunkBlocks, map_append] at hbooks
    exact hbooks.of_eq rfl rfl rfl
  obtain ⟨world₁, hrun₁, htried₁, hbooks₁⟩ := freeChunks_eq child _ none _ hbooks
  have hbooks₁ : Books world₁ (world.freeList.map Chunk.block ++ (world₁.freeList.map Chunk.block ++ [])) := by
    rw [append_nil]
    exact hbooks₁.perm perm_append_comm
  obtain ⟨world₂, hrun₂, htried₂, hbooks₂⟩ := freeChunks_eq child _ none _ hbooks₁
  have htried := htried₁.trans htried₂
  rw [htried₁.calls, length_answers, ← answers_append, ← map_append] at htried
  rw [append_nil] at hbooks₂
  have hblocks : world₂.chunkBlocks = world₂.freeList.map Chunk.block := by
    rw [World.chunkBlocks, htried.used, nil_append]
  have hsound : Sound world₂ [] := by
    refine ⟨hblocks ▸ hbooks₂, ?_, fun _ hblock => absurd hblock not_mem_nil, List.Pairwise.nil⟩
    rw [htried.used]
    exact fun _ hchunk => absurd hchunk not_mem_nil
  have hkept := htried.kept.trans (append_nil _)
  refine ⟨_, world₂, ?_, hsound, htried.used, htried.tries, hkept, htried.taken, rfl, fun hok => ?_⟩
  · have hset : (set { world with usedList := [], freeList := [] } : Code World Unit) world =
        some ((), { world with usedList := [], freeList := [] }) := rfl
    rw [deinit, bind_of_eq (rfl : (get : Code World World) world = some (world, world)), bind_of_eq hset,
      freeChunkList, bind_of_eq hrun₁, freeChunkList, bind_of_eq hrun₂, World.chunkBlocks, map_append,
      answers_append, length_map]
    have hcalls : world₁.calls = world.calls + world.usedList.length := by
      rw [htried₁.calls, length_answers, length_map]
    rw [hcalls, firstFailure, firstFailure, firstFailure, List.findSome?_append, Option.none_or, Option.none_or,
      Option.none_or, ← finish_attempt]
    rfl
  · have hfree : world₂.freeList = [] := hkept.trans (keptChunks_of_ok hok)
    refine ⟨hfree, ?_⟩
    have hobtained := hbooks₂.obtained
    rw [hfree] at hobtained
    exact (append_nil world₂.released) ▸ hobtained

/-! ### Runs -/

/-- What a call promises of its answer, and of what is held then. -/
def Keeps (child : Child) (system system' : System) : Op → Result → Prop
  | .alloc layout, .allocated (.ok block) => block.layout = layout ∧ block ∈ system'.live
  | .resize block newLayout, .resized true => block ∈ system.live → block.withLayout newLayout ∈ system'.live
  | .remap block newLayout, .remapped (some newBlock) =>
    newBlock.layout = newLayout ∧ (block ∈ system.live → newBlock ∈ system'.live)
  | .deinit, .finished result => CleanedUp child system.world system'.world result
  | _, _ => True

omit [Target] in
theorem mem_replaced (h : block ∈ live) : newBlock ∈ replaced block newBlock live := by
  rw [replaced, if_pos h]
  exact mem_cons_self

/-- A call that its caller may make returns, and leaves a sound arena. -/
theorem step_eq (hlawful : child.Lawful) {system : System} (h : Sound system.world system.live) {op : Op}
    (hcall : MayCall system op) : ∃ result system', step child system op = some (result, system') ∧
      Sound system'.world system'.live ∧ Keeps child system system' op result := by
  cases op with
  | alloc layout =>
    obtain ⟨result, world', hrun, herror, hok⟩ := alloc_eq hlawful h layout
    cases result with
    | error error => exact ⟨_, _, some_bind hrun, herror error rfl, trivial⟩
    | ok block => exact ⟨_, _, some_bind hrun, (hok block rfl).2, (hok block rfl).1, mem_cons_self⟩
  | resize block newLayout =>
    obtain ⟨result, world', hrun, hfalse, htrue⟩ := resize_eq h hcall newLayout
    cases result with
    | false => exact ⟨_, _, some_bind hrun, hfalse rfl ▸ h, trivial⟩
    | true => exact ⟨_, _, some_bind hrun, htrue rfl, mem_replaced⟩
  | remap block newLayout =>
    obtain ⟨result, world', hrun, hnone, hsome⟩ := remap_eq h hcall newLayout
    cases result with
    | none => exact ⟨_, _, some_bind hrun, hnone rfl, trivial⟩
    | some newBlock => exact ⟨_, _, some_bind hrun, (hsome newBlock rfl).2, (hsome newBlock rfl).1, mem_replaced⟩
  | free block =>
    obtain ⟨result, world', hrun, herror, hok⟩ := free_eq h hcall
    cases result with
    | error error => exact ⟨_, _, some_bind hrun, herror error rfl, trivial⟩
    | ok answer => exact ⟨_, _, some_bind hrun, hok rfl, trivial⟩
  | reset =>
    obtain ⟨world', hrun, hsound⟩ := reset_eq h
    exact ⟨_, _, some_bind hrun, hsound, trivial⟩
  | deinit =>
    obtain ⟨result, world', hrun, hsound, hcleaned⟩ := deinit_eq child h
    exact ⟨_, _, some_bind hrun, hsound, hcleaned⟩

theorem Reachable.sound (hlawful : child.Lawful) {system : System} (h : Reachable child system) :
    Sound system.world system.live := by
  induction h with
  | init =>
    exact ⟨⟨List.Pairwise.nil, List.Perm.nil, List.Perm.nil⟩, fun _ hchunk => (nomatch hchunk),
      fun _ hblock => (nomatch hblock), List.Pairwise.nil⟩
  | step _ hcall hstep ih =>
    obtain ⟨result, system', hrun, hsound, -⟩ := step_eq hlawful ih hcall
    cases hrun.symm.trans hstep
    exact hsound

/-- **In every state that calls lead to**, a block that is held is aligned, lies in the part in use of one chunk and
has no byte of another one; what the child gave is what it took back and the blocks of the chunks, each once. Every
call returns: a block that is given has the layout that was asked for, and a `deinit` tries each chunk once and keeps
those that were refused; when it returns success, the child has taken back all it gave. -/
theorem reachable_disjoint (hlawful : child.Lawful) {system : System} (h : Reachable child system) :
    (∀ block ∈ system.live, block.ptr % block.align = 0 ∧ (block.size ≠ 0 →
      ∃ chunk ∈ system.world.usedList, Within chunk block ∧ chunk.endIndex ≤ chunkPayloadCapacity chunk)) ∧
    system.live.Pairwise ApartBlocks ∧
    system.world.obtained.Perm (system.world.released ++ system.world.chunkBlocks.map Block.release) ∧
    ∀ op, MayCall system op → ∃ result system', step child system op = some (result, system') ∧
      Keeps child system system' op result := by
  have hsound := h.sound hlawful
  refine ⟨fun block hblock => ?_, hsound.apart, hsound.books.obtained, fun op hcall => ?_⟩
  · obtain ⟨haligned, hwithin⟩ := hsound.placed block hblock
    refine ⟨haligned, fun hsize => ?_⟩
    obtain ⟨chunk, hchunk, hwithin⟩ := hwithin hsize
    exact ⟨chunk, hchunk, hwithin, hsound.ends chunk hchunk⟩
  · obtain ⟨result, system', hstep, -, hkeeps⟩ := step_eq hlawful hsound hcall
    exact ⟨result, system', hstep, hkeeps⟩

end

/-- A child that gives memory behind all that it has out, and does not take a block back at its third call. -/
def bumpChild : Child where
  alloc _ outstanding layout := .ok (Block.init (max 4096 (topOf outstanding)) layout)
  resize _ _ _ _ := false
  free calls _ := if calls = 2 then some .system else none

theorem bumpChild_lawful : bumpChild.Lawful where
  alloc {_ outstanding _ _} h other hother := by
    cases h
    exact apart_topOf hother (Nat.le_max_right _ _)
  resize h := nomatch h

local instance wide : Target := ⟨64, Or.inr rfl⟩

def firstBlock : Block := Block.init 4096 ⟨96, 8, rfl⟩

def secondBlock : Block := Block.init 4192 ⟨128, 16, rfl⟩

/-- One chunk with so many bytes in use. -/
def oneChunk (endIndex : Nat) : World :=
  { usedList := [⟨firstBlock, endIndex⟩], calls := 1, outstanding := [firstBlock], obtained := [firstBlock.release] }

/-- A second chunk with so many bytes in use. -/
def twoChunks (endIndex : Nat) : World where
  usedList := [⟨secondBlock, endIndex⟩, ⟨firstBlock, 27⟩]
  calls := 2
  outstanding := [secondBlock, firstBlock]
  obtained := [secondBlock.release, firstBlock.release]

/-- The first chunk was taken back, and the second was not. -/
def oneKept : World where
  freeList := [⟨secondBlock, 0⟩]
  calls := 4
  outstanding := [secondBlock]
  tries := [(firstBlock, none), (secondBlock, some .system)]
  obtained := [secondBlock.release, firstBlock.release]
  released := [firstBlock.release]

/-- Blocks in two chunks, one of them freed; a chunk that is refused is kept, and taken back by a second `deinit`. -/
theorem deinit_retries : ∃ before : System, Reachable bumpChild before ∧
    before.live.map Block.size = [8, 3, 24] ∧ before.live.Pairwise ApartBlocks ∧
    step bumpChild before .deinit = some (.finished (.error .system), ⟨oneKept, []⟩) ∧
    CleanedUp bumpChild before.world oneKept (.error .system) ∧
    ∃ done, step bumpChild ⟨oneKept, []⟩ .deinit = some (.finished (.ok ()), done) ∧
      done.world.obtained.Perm done.world.released := by
  let large : Block := Block.init 4160 ⟨24, 8, rfl⟩
  let small : Block := Block.init 4184 ⟨3, 4, rfl⟩
  let freed : Block := Block.init 4256 ⟨40, 16, rfl⟩
  let last : Block := Block.init 4256 ⟨8, 8, rfl⟩
  have halloc {system system' : System} {layout : Layout} {result : Result} (h : Reachable bumpChild system)
      (hstep : step bumpChild system (.alloc layout) = some (result, system')) : Reachable bumpChild system' :=
    .step h (by exact trivial) hstep
  have hlarge : step bumpChild {} (.alloc ⟨24, 8, rfl⟩) =
      some (.allocated (.ok large), ⟨oneChunk 24, [large]⟩) := rfl
  have hsmall : step bumpChild ⟨oneChunk 24, [large]⟩ (.alloc ⟨3, 4, rfl⟩) =
      some (.allocated (.ok small), ⟨oneChunk 27, [small, large]⟩) := rfl
  have hnew : step bumpChild ⟨oneChunk 27, [small, large]⟩ (.alloc ⟨40, 16, rfl⟩) =
      some (.allocated (.ok freed), ⟨twoChunks 40, [freed, small, large]⟩) :=
    some_bind (rfl : alloc bumpChild ⟨40, 16, rfl⟩ (oneChunk 27) = some (.ok freed, twoChunks 40))
  have hfree : step bumpChild ⟨twoChunks 40, [freed, small, large]⟩ (.free freed) =
      some (.finished (.ok ()), ⟨twoChunks 0, [small, large]⟩) := rfl
  have hlast : step bumpChild ⟨twoChunks 0, [small, large]⟩ (.alloc ⟨8, 8, rfl⟩) =
      some (.allocated (.ok last), ⟨twoChunks 8, [last, small, large]⟩) := rfl
  have hnewReached := halloc (halloc (halloc .init hlarge) hsmall) hnew
  have hbefore := halloc (.step hnewReached (by exact Or.inl mem_cons_self) hfree) hlast
  have hfails : step bumpChild ⟨twoChunks 8, [last, small, large]⟩ .deinit =
      some (.finished (.error .system), ⟨oneKept, []⟩) := rfl
  obtain ⟨-, hapart, -, hcalls⟩ := reachable_disjoint bumpChild_lawful hbefore
  obtain ⟨_, _, hstep, hkeeps⟩ := hcalls .deinit trivial
  cases hfails.symm.trans hstep
  obtain ⟨-, -, -, hcalls⟩ := reachable_disjoint bumpChild_lawful (.step hbefore (by exact trivial) hfails)
  obtain ⟨_, done, hstep, hdone⟩ := hcalls .deinit trivial
  have hsucceeds : step bumpChild ⟨oneKept, []⟩ .deinit = some (.finished (.ok ()), _) := rfl
  cases hsucceeds.symm.trans hstep
  exact ⟨_, hbefore, rfl, hapart, hfails, hkeeps, _, hsucceeds, (hdone.success rfl).2⟩

end Nia.Mem.Arena
