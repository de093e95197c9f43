import Nia.Mem.Arena

/-! The blocks that the arena owes to its child.

The child keeps its blocks apart. What it has out are the blocks of the chunks in use and of the free ones, each
once, and what it ever gave is that and what it took back (`Books`). The functions that call the child keep these
books, with a chunk on its way between the lists counted beside them. The loop that gives chunks back tries each of
them once and keeps those that were refused (`freeChunks_eq`). -/
namespace Nia.Mem.Arena

open Lib Lib.Trapping List

/-! ### The child and its blocks -/

/-- Memory that the child hands out is apart from what it has out. -/
structure Child.Lawful (child : Child) : Prop where
  alloc : ∀ {calls outstanding layout block}, child.alloc calls outstanding layout = .ok block →
    ∀ other ∈ outstanding, Region.Apart block.region other.region
  resize : ∀ {calls outstanding block layout}, child.resize calls outstanding block layout = true →
    ∀ other ∈ outstanding.erase block, Region.Apart (block.withLayout layout).region other.region

/-- The blocks that are owed to the child. -/
structure Books (world : World) (blocks : List Block) : Prop where
  apart : blocks.Pairwise ApartBlocks
  outstanding : world.outstanding.Perm blocks
  obtained : world.obtained.Perm (world.released ++ blocks.map Block.release)

variable {child : Child} {world : World} {blocks blocks' : List Block} {block : Block} {layout : Layout}

theorem Books.perm (h : Books world blocks) (hperm : blocks.Perm blocks') : Books world blocks' where
  apart := (hperm.pairwise_iff fun h => ApartBlocks.symm h).mp h.apart
  outstanding := h.outstanding.trans hperm
  obtained := h.obtained.trans ((hperm.map _).append_left _)

/-- The books do not depend on where the arena keeps its chunks. -/
theorem Books.of_eq {world' : World} (h : Books world blocks) (houtstanding : world'.outstanding = world.outstanding)
    (hobtained : world'.obtained = world.obtained) (hreleased : world'.released = world.released) :
    Books world' blocks where
  apart := h.apart
  outstanding := houtstanding ▸ h.outstanding
  obtained := by
    rw [hobtained, hreleased]
    exact h.obtained

theorem childAlloc_eq (hlawful : child.Lawful) (h : Books world blocks) (layout : Layout) :
    ∃ result world', childAlloc child layout world = some (result, world') ∧ world'.usedList = world.usedList ∧
      world'.freeList = world.freeList ∧ (∀ error, result = .error error → Books world' blocks) ∧
      ∀ block, result = .ok block → Books world' (block :: blocks) := by
  rw [childAlloc]
  cases hanswer : child.alloc world.calls world.outstanding layout with
  | error error =>
    exact ⟨.error error, _, rfl, rfl, rfl, fun _ _ => h.of_eq rfl rfl rfl, fun _ hok => (nomatch hok)⟩
  | ok block =>
    refine ⟨.ok block, _, rfl, rfl, rfl, fun _ herror => (nomatch herror), fun block' hok => ?_⟩
    cases hok
    refine ⟨pairwise_cons.mpr ⟨fun other hother => ?_, h.apart⟩, h.outstanding.cons _, ?_⟩
    · exact hlawful.alloc hanswer other (h.outstanding.mem_iff.mpr hother)
    · exact (h.obtained.cons _).trans perm_middle.symm

theorem childResize_eq (hlawful : child.Lawful) (h : Books world (block :: blocks)) (layout : Layout) :
    ∃ result world', childResize child block layout world = some (result, world') ∧
      world'.usedList = world.usedList ∧ world'.freeList = world.freeList ∧
      (result = false → Books world' (block :: blocks)) ∧
      (result = true → Books world' (block.withLayout layout :: blocks)) := by
  rw [childResize]
  split
  · rename_i hanswer
    have herase : (world.outstanding.erase block).Perm blocks := by
      have hperm := h.outstanding.erase block
      rwa [erase_cons_head] at hperm
    refine ⟨true, _, rfl, rfl, rfl, fun hfalse => (nomatch hfalse), fun _ => ⟨?_, herase.cons _, h.obtained⟩⟩
    refine pairwise_cons.mpr ⟨fun other hother => ?_, (pairwise_cons.mp h.apart).2⟩
    exact hlawful.resize hanswer other (herase.mem_iff.mpr hother)
  · exact ⟨false, _, rfl, rfl, rfl, fun _ => h.of_eq rfl rfl rfl, fun htrue => (nomatch htrue)⟩

/-! ### Giving back -/

/-- What the child answers to the release of some blocks one after the other. -/
def answers (child : Child) : Nat → List Block → List (Block × Option Error)
  | _, [] => []
  | calls, block :: rest => (block, child.free calls block) :: answers child (calls + 1) rest

/-- The chunks that were not taken back, the last one first. -/
def keptChunks (tried : List (Block × Option Error)) : List Chunk :=
  ((tried.filter (·.2.isSome)).map fun entry => ⟨entry.1, 0⟩).reverse

/-- The ranges that were taken back, the last one first. -/
def takenRanges (tried : List (Block × Option Error)) : List (Nat × Nat) :=
  ((tried.filter (·.2.isNone)).map fun entry => entry.1.release).reverse

/-- Releases were tried: what was not taken back is free, and nothing else has changed. -/
structure Tried (world world' : World) (tried : List (Block × Option Error)) : Prop where
  used : world'.usedList = world.usedList
  calls : world'.calls = world.calls + tried.length
  tries : world'.tries = tried.reverse ++ world.tries
  kept : world'.freeList = keptChunks tried ++ world.freeList
  taken : world'.released = takenRanges tried ++ world.released
  obtained : world'.obtained = world.obtained

theorem Tried.nil (world : World) : Tried world world [] := ⟨rfl, rfl, rfl, rfl, rfl, rfl⟩

theorem Tried.trans {world₁ world₂ : World} {tried tried' : List (Block × Option Error)}
    (h : Tried world world₁ tried) (h' : Tried world₁ world₂ tried') : Tried world world₂ (tried ++ tried') where
  used := h'.used.trans h.used
  calls := by rw [h'.calls, h.calls, length_append, Nat.add_assoc]
  tries := by rw [h'.tries, h.tries, reverse_append, append_assoc]
  kept := by
    rw [h'.kept, h.kept, keptChunks, keptChunks, keptChunks, filter_append, map_append,
      reverse_append, append_assoc]
  taken := by
    rw [h'.taken, h.taken, takenRanges, takenRanges, takenRanges, filter_append, map_append,
      reverse_append, append_assoc]
  obtained := h'.obtained.trans h.obtained

theorem length_answers (child : Child) (calls : Nat) (blocks : List Block) :
    (answers child calls blocks).length = blocks.length := by
  induction blocks generalizing calls with
  | nil => rfl
  | cons block rest ih => exact congrArg (· + 1) (ih _)

theorem answers_append (child : Child) (calls : Nat) (blocks blocks' : List Block) :
    answers child calls (blocks ++ blocks') =
      answers child calls blocks ++ answers child (calls + blocks.length) blocks' := by
  induction blocks generalizing calls with
  | nil => rfl
  | cons block rest ih =>
    rw [cons_append, answers, ih, answers, cons_append, length_cons, Nat.add_right_comm, Nat.add_assoc]

/-- The first failure, unless there was one before. -/
def firstFailure (cleanup : Option Error) (tried : List (Block × Option Error)) : Option Error :=
  cleanup.or (tried.findSome? Prod.snd)

/-- The world after the child took a block back. -/
def World.taken (world : World) (block : Block) : World := { world with
  calls := world.calls + 1
  tries := (block, none) :: world.tries
  outstanding := world.outstanding.erase block
  released := block.release :: world.released }

theorem Books.taken (h : Books world (block :: blocks)) : Books (world.taken block) blocks where
  apart := (pairwise_cons.mp h.apart).2
  outstanding := by
    have hperm := h.outstanding.erase block
    rwa [erase_cons_head] at hperm
  obtained := h.obtained.trans perm_middle

/-- **The loop over a list of chunks** tries each of them once, whatever came of the others. -/
theorem freeChunks_eq (child : Child) (chunks : List Chunk) (cleanup : Option Error) (blocks : List Block)
    (h : Books world (chunks.map Chunk.block ++ (world.freeList.map Chunk.block ++ blocks))) :
    ∃ world', freeChunks child chunks cleanup world =
        some (finish (firstFailure cleanup (answers child world.calls (chunks.map Chunk.block))), world') ∧
      Tried world world' (answers child world.calls (chunks.map Chunk.block)) ∧
      Books world' (world'.freeList.map Chunk.block ++ blocks) := by
  induction chunks generalizing world cleanup with
  | nil => exact ⟨world, by rw [firstFailure, map_nil, answers, List.findSome?_nil, Option.or_none]; rfl, .nil world, h⟩
  | cons chunk rest ih =>
    rw [map_cons, answers, freeChunks]
    cases hanswer : child.free world.calls chunk.block with
    | some error =>
      let world₁ := { world with
        calls := world.calls + 1
        tries := (chunk.block, some error) :: world.tries
        freeList := { chunk with endIndex := 0 } :: world.freeList }
      have hbooks : Books world₁ (rest.map Chunk.block ++ (world₁.freeList.map Chunk.block ++ blocks)) :=
        (h.perm perm_middle.symm).of_eq rfl rfl rfl
      obtain ⟨world', hrun, htried, hbooks'⟩ := ih (attempt cleanup (.error error)) hbooks
      have hfirst : Tried world world₁ [(chunk.block, some error)] := ⟨rfl, rfl, rfl, rfl, rfl, rfl⟩
      refine ⟨world', ?_, hfirst.trans htried, hbooks'⟩
      have hfree : childFree child chunk.block world = some (.error error, { world with
          calls := world.calls + 1, tries := (chunk.block, some error) :: world.tries }) := by
        rw [childFree, hanswer]
      have hcleanup :
          firstFailure (attempt cleanup (.error error)) (answers child world₁.calls (rest.map Chunk.block)) =
          firstFailure cleanup ((chunk.block, some error) :: answers child world₁.calls (rest.map Chunk.block)) := by
        cases cleanup <;> rfl
      rw [bind_of_eq hfree, ← hcleanup, ← hrun]
      rfl
    | none =>
      have hbooks := h.taken
      obtain ⟨world', hrun, htried, hbooks'⟩ := ih cleanup hbooks
      have hfirst : Tried world (world.taken chunk.block) [(chunk.block, none)] := ⟨rfl, rfl, rfl, rfl, rfl, rfl⟩
      refine ⟨world', ?_, hfirst.trans htried, hbooks'⟩
      have hfree : childFree child chunk.block world = some (.ok (), world.taken chunk.block) := by
        rw [childFree, hanswer]
        rfl
      rw [bind_of_eq hfree]
      exact hrun

/-! ### Chunks -/

variable [Target]

/-- A block lies in the part in use of a chunk. -/
def Within (chunk : Chunk) (block : Block) : Prop :=
  chunk.block.ptr + chunkSize ≤ block.ptr ∧ block.ptr + block.size ≤ chunk.block.ptr + chunkSize + chunk.endIndex

theorem chunkPayloadCapacity_eq (chunk : Chunk) : chunkPayloadCapacity chunk = chunk.block.size - chunkSize := by
  rw [chunkPayloadCapacity]
  split <;> omega

theorem Within.inside {chunk : Chunk} (h : Within chunk block) (hend : chunk.endIndex ≤ chunkPayloadCapacity chunk) :
    Region.Inside block.region chunk.block.region := by
  obtain ⟨hstart, hstop⟩ := h
  rw [chunkPayloadCapacity_eq] at hend
  by_cases hempty : block.size = 0
  · exact Or.inl hempty
  · refine Or.inr ⟨Nat.le_trans (Nat.le_add_right _ _) hstart, ?_⟩
    show block.ptr + block.size ≤ chunk.block.ptr + chunk.block.size
    omega

theorem allocFromChunk_eq_some {chunk chunk' : Chunk} (h : allocFromChunk chunk layout = some (block, chunk')) :
    block.layout = layout ∧ block.ptr % block.align = 0 ∧ chunk'.block = chunk.block ∧
      chunk.block.ptr + chunkSize + chunk.endIndex ≤ block.ptr ∧ Within chunk' block ∧
      chunk.endIndex ≤ chunk'.endIndex ∧ chunk'.endIndex ≤ chunkPayloadCapacity chunk' := by
  simp only [allocFromChunk, chunkPayloadBase, Option.bind_eq_bind, Option.bind_eq_some_iff] at h
  obtain ⟨payloadBase, hbase, current, hcurrent, aligned, haligned, newEnd, hend, h⟩ := h
  obtain rfl := checkedAdd_eq_some hbase
  obtain rfl := checkedAdd_eq_some hcurrent
  obtain rfl := checkedAdd_eq_some hend
  obtain ⟨hle, -, hmod⟩ := alignForward_eq_some haligned
  split at h
  · cases h
  · rename_i hfits
    cases h
    have hfits := Nat.le_of_not_lt hfits
    refine ⟨rfl, hmod, rfl, hle, ⟨?_, ?_⟩, ?_, hfits⟩
    · exact Nat.le_trans (Nat.le_add_right _ _) hle
    · show aligned + layout.size ≤ chunk.block.ptr + chunkSize + (aligned - (chunk.block.ptr + chunkSize) + layout.size)
      omega
    · show chunk.endIndex ≤ aligned - (chunk.block.ptr + chunkSize) + layout.size
      omega

/-- A block at the end of what is in use of a chunk. -/
theorem last_eq {chunk : Chunk} (hsize : block.isEmpty = false) (howns : chunkOwnsBlock chunk block = true)
    (hlast : isLastAllocation chunk block = true) :
    chunk.block.ptr + chunkSize ≤ block.ptr ∧
      block.ptr + block.size = chunk.block.ptr + chunkSize + chunk.endIndex := by
  rw [chunkOwnsBlock, if_neg (by rw [hsize]; exact Bool.false_ne_true)] at howns
  rw [isLastAllocation] at hlast
  split at howns
  · cases howns
  · rename_i base hbase
    rw [hbase] at hlast
    obtain rfl := checkedAdd_eq_some hbase
    dsimp only at hlast
    split at howns
    · cases howns
    · split at howns
      · cases howns
      · rename_i hstart
        split at hlast
        · rename_i cursor blockEnd hcursor hblockEnd
          obtain rfl := checkedAdd_eq_some hcursor
          obtain rfl := checkedAdd_eq_some hblockEnd
          exact ⟨Nat.le_of_not_lt hstart, of_decide_eq_true hlast⟩
        · cases hlast

theorem allocateChunk_eq (hlawful : child.Lawful) (h : Books world blocks) (layout : Layout) (prevCapacity : Nat) :
    ∃ result world', allocateChunk child layout prevCapacity world = some (result, world') ∧
      world'.usedList = world.usedList ∧ world'.freeList = world.freeList ∧
      (∀ error, result = .error error → Books world' blocks) ∧
      ∀ chunk, result = .ok chunk → chunk.endIndex = 0 ∧ Books world' (chunk.block :: blocks) := by
  have failed (error : Error) : ∃ result world', (pure (.error error) : Code World (Except Error Chunk)) world =
      some (result, world') ∧ world'.usedList = world.usedList ∧ world'.freeList = world.freeList ∧
      (∀ error, result = .error error → Books world' blocks) ∧
      ∀ chunk, result = .ok chunk → chunk.endIndex = 0 ∧ Books world' (chunk.block :: blocks) :=
    ⟨.error error, world, rfl, rfl, rfl, fun _ _ => h, fun _ hok => (nomatch hok)⟩
  rw [allocateChunk]
  cases chunkCapacityFor layout prevCapacity with
  | error error => exact failed error
  | ok payloadCapacity =>
    dsimp only
    cases checkedAdd chunkSize payloadCapacity with
    | none => exact failed _
    | some totalSize =>
      dsimp only
      cases Layout.init totalSize (max chunkAlign layout.align) with
      | error error => exact failed error
      | ok blockLayout =>
        obtain ⟨result, world', hrun, hused, hfree, herror, hok⟩ := childAlloc_eq hlawful h blockLayout
        cases result with
        | error error =>
          refine ⟨.error error, world', bind_of_eq hrun, hused, hfree, fun _ _ => herror error rfl, ?_⟩
          exact fun _ hresult => (nomatch hresult)
        | ok block =>
          refine ⟨.ok ⟨block, 0⟩, world', bind_of_eq hrun, hused, hfree, fun _ hresult => (nomatch hresult), ?_⟩
          intro chunk hchunk
          cases hchunk
          exact ⟨rfl, hok block rfl⟩

theorem growFreeChunk_eq {chunk : Chunk} (hlawful : child.Lawful) (h : Books world (chunk.block :: blocks))
    (layout : Layout) :
    ∃ result world', growFreeChunk child chunk layout world = some (result, world') ∧
      world'.usedList = world.usedList ∧ world'.freeList = world.freeList ∧
      (result = none → Books world' (chunk.block :: blocks)) ∧
      ∀ chunk', result = some chunk' → Books world' (chunk'.block :: blocks) := by
  have failed : ∃ result world', (pure none : Code World (Option Chunk)) world = some (result, world') ∧
      world'.usedList = world.usedList ∧ world'.freeList = world.freeList ∧
      (result = none → Books world' (chunk.block :: blocks)) ∧
      ∀ chunk', result = some chunk' → Books world' (chunk'.block :: blocks) :=
    ⟨none, world, rfl, rfl, rfl, fun _ => h, fun _ hsome => (nomatch hsome)⟩
  rw [growFreeChunk]
  cases chunkFitEnd chunk layout with
  | none => exact failed
  | some fitEnd =>
    dsimp only
    by_cases hfits : fitEnd ≤ chunkPayloadCapacity chunk
    · rw [if_pos hfits]
      refine ⟨some chunk, world, rfl, rfl, rfl, fun hnone => (nomatch hnone), fun chunk' hchunk => ?_⟩
      cases hchunk
      exact h
    · rw [if_neg hfits]
      cases checkedAdd chunkSize fitEnd with
      | none => exact failed
      | some newSize =>
        dsimp only
        cases Layout.init newSize (max chunk.block.align layout.align) with
        | error error => exact failed
        | ok newLayout =>
          obtain ⟨result, world', hrun, hused, hfree, hfalse, htrue⟩ := childResize_eq hlawful h newLayout
          cases result with
          | false =>
            exact ⟨none, world', bind_of_eq hrun, hused, hfree, fun _ => hfalse rfl, fun _ hsome => (nomatch hsome)⟩
          | true =>
            refine ⟨some _, world', bind_of_eq hrun, hused, hfree, fun hnone => (nomatch hnone), ?_⟩
            intro chunk' hchunk
            cases hchunk
            exact htrue rfl

/-! ### Free chunks -/

/-- The blocks of all chunks. -/
def World.chunkBlocks (world : World) : List Block := (world.usedList ++ world.freeList).map Chunk.block

/-- What a search has found are places of the list. -/
structure Search.Valid (search : Search) (count : Nat) : Prop where
  best : ∀ {position}, search.best = some position → position < count
  closest : ∀ {position}, search.closest = some position → position < count

theorem Search.Valid.consider {search : Search} {entry : Chunk × Nat} {count : Nat} (h : search.Valid count)
    (hentry : entry.2 < count) : (consider layout search entry).Valid count := by
  rw [Arena.consider]
  cases chunkFitEnd entry.1 layout with
  | none => exact h
  | some fitEnd =>
    dsimp only
    split
    · split
      · exact ⟨fun hbest => Option.some.inj hbest ▸ hentry, h.closest⟩
      · exact h
    · split
      · exact ⟨h.best, fun hclosest => Option.some.inj hclosest ▸ hentry⟩
      · exact h

theorem Search.Valid.foldl {count : Nat} (entries : List (Chunk × Nat)) (search : Search) (h : search.Valid count)
    (hentries : ∀ entry ∈ entries, entry.2 < count) : (entries.foldl (Arena.consider layout) search).Valid count := by
  induction entries generalizing search with
  | nil => exact h
  | cons entry rest ih =>
    exact ih _ (h.consider (hentries entry mem_cons_self)) fun other hother =>
      hentries other (mem_cons_of_mem _ hother)

theorem search_valid (layout : Layout) (freeList : List Chunk) :
    (freeList.zipIdx.foldl (consider layout) .start).Valid freeList.length := by
  refine Search.Valid.foldl _ _ ⟨fun hbest => (nomatch hbest), fun hclosest => (nomatch hclosest)⟩ ?_
  intro entry hentry
  obtain ⟨-, hlt, -⟩ := mem_zipIdx hentry
  rwa [Nat.zero_add] at hlt

omit [Target] in
/-- A chunk out of the free ones. -/
theorem chunkBlocks_perm_unlink {position : Nat} {chunk : Chunk} (hposition : world.freeList[position]? = some chunk) :
    world.chunkBlocks.Perm (chunk.block :: (world.usedList ++ world.freeList.eraseIdx position).map Chunk.block) := by
  obtain ⟨hlt, hget⟩ := List.getElem?_eq_some_iff.mp hposition
  have hfree : world.freeList.Perm (chunk :: world.freeList.eraseIdx position) := by
    have hperm := getElem_cons_eraseIdx_perm hlt
    rw [hget] at hperm
    exact hperm.symm
  exact ((hfree.append_left _).trans perm_middle).map Chunk.block

theorem popFreeChunk_eq (hlawful : child.Lawful) (h : Books world world.chunkBlocks) (layout : Layout) :
    ∃ result world', popFreeChunk child layout world = some (result, world') ∧
      world'.usedList = world.usedList ∧ (result = none → Books world' world'.chunkBlocks) ∧
      ∀ chunk, result = some chunk → chunk.endIndex = 0 ∧ Books world' (chunk.block :: world'.chunkBlocks) := by
  have hvalid := search_valid layout world.freeList
  rw [popFreeChunk, bind_of_eq (rfl : (get : Code World World) world = some (world, world))]
  generalize world.freeList.zipIdx.foldl (consider layout) .start = search at hvalid
  cases hbest : search.best with
  | some position =>
    have hget := List.getElem?_eq_getElem (hvalid.best hbest)
    have hperm := chunkBlocks_perm_unlink hget
    dsimp only
    refine ⟨_, _, lift_bind hget, rfl, fun hnone => (nomatch hnone), fun chunk hchunk => ?_⟩
    cases hchunk
    exact ⟨rfl, (h.perm hperm).of_eq rfl rfl rfl⟩
  | none =>
    cases hclosest : search.closest with
    | none => exact ⟨none, world, rfl, rfl, fun _ => h, fun _ hsome => (nomatch hsome)⟩
    | some position =>
      have hget := List.getElem?_eq_getElem (hvalid.closest hclosest)
      have hperm := chunkBlocks_perm_unlink hget
      obtain ⟨result, world', hrun, hused, hfree, hnone, hsome⟩ := growFreeChunk_eq hlawful (h.perm hperm) layout
      dsimp only
      cases result with
      | none =>
        refine ⟨none, world', (lift_bind hget).trans (bind_of_eq hrun), hused, fun _ => ?_, fun _ hchunk =>
          (nomatch hchunk)⟩
        rw [World.chunkBlocks, hused, hfree]
        exact (hnone rfl).perm hperm.symm
      | some grown =>
        refine ⟨_, _, (lift_bind hget).trans (bind_of_eq hrun), hused, fun hresult => (nomatch hresult), ?_⟩
        intro chunk hchunk
        cases hchunk
        refine ⟨rfl, ?_⟩
        show Books { world' with freeList := world'.freeList.eraseIdx position }
          (grown.block :: (world'.usedList ++ world'.freeList.eraseIdx position).map Chunk.block)
        rw [hused, hfree]
        exact (hsome grown rfl).of_eq rfl rfl rfl

end Nia.Mem.Arena
