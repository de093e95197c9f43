import Nia.Lib.Slices
import Nia.Lib.Trapping
import Nia.Lib.Triangular

/-! The probe sequence of the hash map.

A cursor starts anywhere in the table and moves on by strides that grow by the width of a group, modulo the
capacity. After a number of steps it has moved by the triangular number of groups, so that the groups of a whole
probe cover each slot once (`probe_perm`). The control bytes of the first slots are repeated behind the table,
where a group that starts near the end reads them, and every function that writes control bytes keeps the copy
(`Table.mirrored`). The search for a free slot therefore finds one where there is one (`findInsertIndex_free`). -/
namespace Nia.Collections.HashMap
open Lib.Slices Lib.Triangular Nat Lib.Trapping

def ctrlEmpty : UInt8 := 0xff
def ctrlDeleted : UInt8 := 0x80
def groupWidth : Nat := 8

/-! ### Cursors -/

def addMod (width value offset capacity : Nat) : Option Nat := do
  let mask ← sub capacity 1
  let left := value &&& mask
  let right := offset &&& mask
  let complement ← sub capacity right
  if complement ≤ left then sub left complement else word width (left + right)

def isPowerOfTwo (n : Nat) : Bool := n != 0 && n &&& (n - 1) == 0

structure ProbeCursor where
  pos : Nat
  stride : Nat
  visited : Nat
  capacity : Nat

namespace ProbeCursor

def init (width valueHash capacity : Nat) : ProbeCursor :=
  if capacity < groupWidth || !isPowerOfTwo capacity then ⟨0, 0, 0, 0⟩
  else ⟨valueHash % 2 ^ width &&& (capacity - 1), 0, 0, capacity⟩

def hasRemaining (cursor : ProbeCursor) : Bool := cursor.visited < cursor.capacity

def index (width : Nat) (cursor : ProbeCursor) (offset : Nat) : Option Nat :=
  if cursor.capacity = 0 then none else addMod width cursor.pos offset cursor.capacity

def advanceGroup (width : Nat) (cursor : ProbeCursor) : Option ProbeCursor :=
  if cursor.capacity = 0 || cursor.visited ≥ cursor.capacity then some cursor
  else do
    let stride ← addMod width cursor.stride groupWidth cursor.capacity
    let pos ← addMod width cursor.pos stride cursor.capacity
    let visited ← word width (cursor.visited + groupWidth)
    return { cursor with stride, pos, visited }

/-- The cursors at which a probe looks while something remains, with fuel. -/
def cursors (width : Nat) : Nat → ProbeCursor → Option (List ProbeCursor)
  | fuel, cursor =>
    if cursor.hasRemaining then
      match fuel with
      | 0 => none
      | fuel + 1 => do
        let next ← cursor.advanceGroup width
        return cursor :: (← cursors width fuel next)
    else some []

end ProbeCursor

/-- The slots of all groups that a probe visits, in order. -/
def probe (width fuel valueHash capacity : Nat) : Option (List Nat) := do
  let visited ← ProbeCursor.cursors width fuel (.init width valueHash capacity)
  let groups ← visited.mapM fun cursor => (List.range groupWidth).mapM (cursor.index width)
  return groups.flatten

section Cursor

variable {width k start n : Nat}

theorem addMod_two_pow (hk : 2 ^ k < 2 ^ width) (value offset : Nat) :
    addMod width value offset (2 ^ k) = some ((value + offset) % 2 ^ k) := by
  have hpos : 0 < 2 ^ k := Nat.two_pow_pos k
  have hleft := Nat.mod_lt value hpos
  have hright := Nat.mod_lt offset hpos
  unfold addMod
  simp only [sub_of_le hpos, Option.bind_eq_bind, Option.bind_some, and_two_pow_sub_one_eq_mod,
    sub_of_le hright.le]
  rw [add_mod]
  generalize value % 2 ^ k = left at *
  generalize offset % 2 ^ k = right at *
  split
  · next hwrap =>
    rw [sub_of_le hwrap, mod_eq_sub_mod (by omega), mod_eq_of_lt (by omega)]
    congr 1
    omega
  · next hfits => rw [word_of_lt (by omega), mod_eq_of_lt (by omega)]

/-- The cursor after a number of steps. -/
def cursorAt (k start n : Nat) : ProbeCursor :=
  ⟨(start + groupWidth * triangle n) % 2 ^ k, groupWidth * n % 2 ^ k, groupWidth * n, 2 ^ k⟩

theorem init_two_pow (hk : 3 ≤ k) (valueHash : Nat) :
    ProbeCursor.init width valueHash (2 ^ k) = cursorAt k (valueHash % 2 ^ width) 0 := by
  have hwidth : groupWidth ≤ 2 ^ k := Nat.pow_le_pow_right Nat.two_pos hk
  have hpower : isPowerOfTwo (2 ^ k) = true := by simp [isPowerOfTwo, and_two_pow_sub_one_eq_mod]
  simp [ProbeCursor.init, cursorAt, hpower, hwidth.not_gt, and_two_pow_sub_one_eq_mod, triangle]

theorem index_cursorAt (hk : 2 ^ k < 2 ^ width) (offset : Nat) :
    (cursorAt k start n).index width offset = some (position start groupWidth (2 ^ k) (n, offset)) := by
  have hpos := Nat.two_pow_pos k
  rw [ProbeCursor.index, if_neg (show (cursorAt k start n).capacity ≠ 0 from hpos.ne')]
  show addMod width _ offset (2 ^ k) = _
  rw [addMod_two_pow hk, cursorAt, mod_add_mod]
  rfl

/-- The number of groups of a table. -/
theorem groups_mul (hk : 3 ≤ k) : groupWidth * 2 ^ (k - 3) = 2 ^ k := by
  show 2 ^ 3 * 2 ^ (k - 3) = 2 ^ k
  rw [← Nat.pow_add, Nat.add_sub_cancel' hk]

theorem hasRemaining_cursorAt (hk : 3 ≤ k) : (cursorAt k start n).hasRemaining = true ↔ n < 2 ^ (k - 3) := by
  simp only [ProbeCursor.hasRemaining, cursorAt, ← groups_mul hk, decide_eq_true_eq]
  exact Nat.mul_lt_mul_left (by decide)

theorem advanceGroup_cursorAt (hk : 3 ≤ k) (hwidth : 2 ^ k < 2 ^ width) (hn : n < 2 ^ (k - 3)) :
    (cursorAt k start n).advanceGroup width = some (cursorAt k start (n + 1)) := by
  have hgroups := groups_mul hk
  have hstep : groupWidth * (n + 1) ≤ groupWidth * 2 ^ (k - 3) := mul_le_mul_left _ hn
  have hremaining : ¬ ((cursorAt k start n).capacity = 0 ∨
      (cursorAt k start n).visited ≥ (cursorAt k start n).capacity) := by
    have hpos := Nat.two_pow_pos k
    show ¬ (2 ^ k = 0 ∨ groupWidth * n ≥ 2 ^ k)
    unfold groupWidth at *
    omega
  unfold ProbeCursor.advanceGroup
  simp only [Bool.or_eq_true, decide_eq_true_eq, if_neg hremaining]
  have hvisited : word width (groupWidth * n + groupWidth) = some (groupWidth * n + groupWidth) :=
    word_of_lt (by unfold groupWidth at *; omega)
  simp only [cursorAt, addMod_two_pow hwidth, Option.bind_eq_bind, Option.bind_some, hvisited, Option.pure_def,
     Option.some.injEq, ProbeCursor.mk.injEq, and_true, triangle]
  refine ⟨?_, ?_, ?_⟩
  · have hsum : start + groupWidth * (triangle n + (n + 1)) =
        start + groupWidth * triangle n + (groupWidth * n + groupWidth) := by ring
    rw [hsum, mod_add_mod, mod_add_mod, add_mod_mod]
  · rw [mod_add_mod, mul_add, mul_one]
  · rw [mul_add, mul_one]

theorem cursors_cursorAt (hk : 3 ≤ k) (hwidth : 2 ^ k < 2 ^ width) {fuel : Nat} (hfuel : 2 ^ (k - 3) ≤ fuel + n) :
    (cursorAt k start n).cursors width fuel =
      some ((List.range (2 ^ (k - 3) - n)).map fun i => cursorAt k start (n + i)) := by
  induction fuel generalizing n with
  | zero =>
    have hdone : ¬ (cursorAt k start n).hasRemaining = true := by
      rw [hasRemaining_cursorAt hk]
      omega
    rw [ProbeCursor.cursors, if_neg hdone, Nat.sub_eq_zero_of_le (by omega)]
    rfl
  | succ fuel ih =>
    rw [ProbeCursor.cursors]
    split
    · next hremaining =>
      have hn := (hasRemaining_cursorAt hk).mp hremaining
      rw [some_bind (advanceGroup_cursorAt hk hwidth hn), some_bind (ih (by omega))]
      have hcount : 2 ^ (k - 3) - n = 2 ^ (k - 3) - (n + 1) + 1 := by omega
      rw [hcount, List.range_succ_eq_map, List.map_cons, List.map_map]
      simp only [add_zero, Option.pure_def, Option.some.injEq, List.cons.injEq, true_and]
      refine List.map_congr_left fun i _ => ?_
      rw [Function.comp_apply, add_right_comm, add_assoc]
    · next hdone =>
      rw [hasRemaining_cursorAt hk] at hdone
      rw [Nat.sub_eq_zero_of_le (by omega)]
      rfl

/-- A probe visits every slot once. -/
theorem probe_perm (hk : 3 ≤ k) (hwidth : 2 ^ k < 2 ^ width) {fuel : Nat} (hfuel : 2 ^ (k - 3) ≤ fuel)
    (valueHash : Nat) : ∃ slots, probe width fuel valueHash (2 ^ k) = some slots ∧ slots.Perm (List.range (2 ^ k)) := by
  refine ⟨(places (2 ^ (k - 3)) groupWidth).map (position (valueHash % 2 ^ width) groupWidth (2 ^ k)), ?_, ?_⟩
  · have hvisited : (cursorAt k (valueHash % 2 ^ width) 0).cursors width fuel = _ :=
      cursors_cursorAt hk hwidth (by omega)
    have hgroup : ∀ cursor ∈ (List.range (2 ^ (k - 3) - 0)).map fun i => cursorAt k (valueHash % 2 ^ width) (0 + i),
        (List.range groupWidth).mapM (cursor.index width) =
          some ((List.range groupWidth).map fun offset => (cursor.pos + offset) % 2 ^ k) := by
      intro cursor hcursor
      obtain ⟨i, -, rfl⟩ := List.mem_map.mp hcursor
      refine mapM_of_eq fun offset _ => ?_
      rw [index_cursorAt hwidth, position, cursorAt, mod_add_mod]
    rw [probe, init_two_pow hk, some_bind hvisited,
      some_bind (mapM_of_eq hgroup)]
    simp [places, position, cursorAt, List.flatMap_def, Function.comp_def]
  · have hperm := perm_places (valueHash % 2 ^ width) (k - 3) (show 0 < groupWidth by decide)
    rwa [groups_mul hk] at hperm

end Cursor

/-! ### Control bytes -/

def fillCtrl (ctrl : Bytes) (value : UInt8) : Bytes := ctrl.map fun _ => value

/-- The first rounds of `mirrorCtrlTail`. -/
def mirrorRounds (ctrl : Bytes) (bucketCount : Nat) : Nat → Bytes
  | 0 => ctrl
  | round + 1 =>
    let ctrl := mirrorRounds ctrl bucketCount round
    ctrl.set (bucketCount + round) (ctrl.getD round 0)

def mirrorCtrlTail (ctrl : Bytes) (bucketCount : Nat) : Bytes :=
  if bucketCount = 0 then ctrl else mirrorRounds ctrl bucketCount (groupWidth - 1)

def setCtrl (bucketCount : Nat) (ctrl : Bytes) (index : Nat) (value : UInt8) : Bytes :=
  let ctrl := ctrl.set index value
  if index < groupWidth - 1 then ctrl.set (bucketCount + index) value else ctrl

/-- The control bytes that a table of a capacity can have: those of `allocate`, and what `clear` and `setCtrl` make
of them. -/
inductive Table (capacity : Nat) : Bytes → Prop where
  | allocate (memory : Bytes) (h : memory.length = capacity + (groupWidth - 1)) :
    Table capacity (fillCtrl memory ctrlEmpty)
  | clear {ctrl : Bytes} (h : Table capacity ctrl) :
    Table capacity (mirrorCtrlTail (fillCtrl (ctrl.take capacity) ctrlEmpty ++ ctrl.drop capacity) capacity)
  | set {ctrl : Bytes} (h : Table capacity ctrl) {index : Nat} (hindex : index < capacity) (value : UInt8) :
    Table capacity (setCtrl capacity ctrl index value)

/-- The first bytes are repeated behind the table. -/
structure Mirrored (capacity : Nat) (ctrl : Bytes) : Prop where
  length : ctrl.length = capacity + (groupWidth - 1)
  copy : ∀ i < groupWidth - 1, ctrl[capacity + i]? = ctrl[i]?

section Control

variable {capacity : Nat} {ctrl : Bytes}

theorem mirrorRounds_spec (hcapacity : groupWidth ≤ capacity) (hlength : ctrl.length = capacity + (groupWidth - 1))
    {rounds : Nat} (hrounds : rounds ≤ groupWidth - 1) :
    (mirrorRounds ctrl capacity rounds).length = ctrl.length ∧
      (∀ i < capacity, (mirrorRounds ctrl capacity rounds)[i]? = ctrl[i]?) ∧
      ∀ i < rounds, (mirrorRounds ctrl capacity rounds)[capacity + i]? = ctrl[i]? := by
  unfold groupWidth at *
  induction rounds with
  | zero => exact ⟨rfl, fun _ _ => rfl, nofun⟩
  | succ round ih =>
    obtain ⟨hsize, hfront, hcopy⟩ := ih (by omega)
    rw [mirrorRounds]
    refine ⟨by rw [List.length_set, hsize], fun i hi => ?_, fun i hi => ?_⟩
    · rw [List.getElem?_set_ne (by omega), hfront i hi]
    · by_cases hlast : i = round
      · subst hlast
        rw [List.getElem?_set_self (by omega), List.getD_eq_getElem?_getD, hfront i (by omega),
          List.getElem?_eq_getElem (by omega)]
        rfl
      · rw [List.getElem?_set_ne (by omega), hcopy i (by omega)]

theorem Table.mirrored (hcapacity : groupWidth ≤ capacity) (h : Table capacity ctrl) : Mirrored capacity ctrl := by
  induction h with
  | allocate memory h =>
    refine ⟨by rw [fillCtrl, List.length_map, h], fun i hi => ?_⟩
    simp only [fillCtrl, List.getElem?_map]
    rw [List.getElem?_eq_getElem (by omega), List.getElem?_eq_getElem (by omega)]
    rfl
  | @clear ctrl _ ih =>
    have hlength : (fillCtrl (ctrl.take capacity) ctrlEmpty ++ ctrl.drop capacity).length =
        capacity + (groupWidth - 1) := by
      have := ih.length
      simp [fillCtrl, this]
    obtain ⟨hsize, hfront, hcopy⟩ := mirrorRounds_spec hcapacity hlength le_rfl
    rw [mirrorCtrlTail, if_neg (by unfold groupWidth at hcapacity; omega)]
    refine ⟨hsize.trans hlength, fun i hi => ?_⟩
    rw [hcopy i hi, hfront i (by omega)]
  | @set ctrl _ index hindex value ih =>
    obtain ⟨hlength, hcopy⟩ := ih
    unfold setCtrl
    dsimp only
    split
    · next hfirst =>
      refine ⟨by simpa using hlength, fun i hi => ?_⟩
      unfold groupWidth at *
      by_cases hi' : i = index
      · subst hi'
        rw [List.getElem?_set_self (by simp; omega), List.getElem?_set_ne (by omega), List.getElem?_set_self (by omega)]
      · rw [List.getElem?_set_ne (by omega), List.getElem?_set_ne (by omega), List.getElem?_set_ne (by omega),
          List.getElem?_set_ne (by omega), hcopy i hi]
    · next hlate =>
      refine ⟨by simpa using hlength, fun i hi => ?_⟩
      rw [List.getElem?_set_ne (by omega), List.getElem?_set_ne (by unfold groupWidth at *; omega), hcopy i hi]

/-- A byte of a group is the byte of its slot. -/
theorem Mirrored.getElem?_add (h : Mirrored capacity ctrl) (hcapacity : groupWidth ≤ capacity) {pos offset : Nat}
    (hpos : pos < capacity) (hoffset : offset < groupWidth) :
    ctrl[pos + offset]? = ctrl[(pos + offset) % capacity]? := by
  rcases lt_or_ge (pos + offset) capacity with hin | hout
  · rw [mod_eq_of_lt hin]
  · obtain ⟨i, hi⟩ := Nat.exists_eq_add_of_le hout
    rw [hi, add_mod_left, mod_eq_of_lt (by unfold groupWidth at *; omega)]
    exact h.copy i (by omega)

end Control

/-! ### The search for a free slot -/

structure ProbeGroup where
  matchMask : Nat
  emptyMask : Nat
  availableMask : Nat

/-- `bitmask(bytes == splat(needle))` for the eight bytes from a position. -/
def bitmask (ctrl : Bytes) (pos : Nat) (needle : UInt8) : Nat :=
  Nat.ofBits fun lane : Fin groupWidth => ctrl[pos + lane]? == some needle

/-- A load that would read behind the control bytes is a trap. -/
def ProbeGroup.load (ctrl : Bytes) (cursor : ProbeCursor) (needle : UInt8) : Option ProbeGroup :=
  if cursor.pos + groupWidth ≤ ctrl.length then
    let emptyMask := bitmask ctrl cursor.pos ctrlEmpty
    let deletedMask := bitmask ctrl cursor.pos ctrlDeleted
    some { matchMask := bitmask ctrl cursor.pos needle, emptyMask, availableMask := emptyMask ||| deletedMask }
  else none

def tag (valueHash : Nat) : UInt8 := UInt8.ofNat (valueHash >>> 57) &&& 0x7f

/-- The count of trailing zeros of a `usize`. -/
def firstSet (width mask : Nat) : Nat := ((List.range width).find? mask.testBit).getD width

/-- The loop of `findInsertIndex`, with fuel; a probe that ends without a slot is a trap. -/
def findInsertLoop (width valueHash : Nat) (ctrl : Bytes) : Nat → ProbeCursor → Option Nat
  | 0, _ => none
  | fuel + 1, cursor =>
    if cursor.hasRemaining then do
      let group ← ProbeGroup.load ctrl cursor (tag valueHash)
      if group.availableMask ≠ 0 then cursor.index width (firstSet width group.availableMask)
      else findInsertLoop width valueHash ctrl fuel (← cursor.advanceGroup width)
    else none

def findInsertIndex (width fuel valueHash capacity : Nat) (ctrl : Bytes) : Option Nat :=
  findInsertLoop width valueHash ctrl fuel (ProbeCursor.init width valueHash capacity)

/-- A slot that holds no entry: it is empty, or its entry was deleted. -/
def IsFree (ctrl : Bytes) (slot : Nat) : Prop := ctrl[slot]? = some ctrlEmpty ∨ ctrl[slot]? = some ctrlDeleted

section Insert

variable {width k start n : Nat} {ctrl : Bytes}

theorem exists_firstSet {mask : Nat} (hmask : mask ≠ 0) (hbits : mask < 2 ^ groupWidth) (hwidth : groupWidth ≤ width) :
    firstSet width mask < groupWidth ∧ mask.testBit (firstSet width mask) = true := by
  obtain ⟨bit, hbit⟩ := exists_testBit_of_ne_zero hmask
  have hbound : ∀ bit, mask.testBit bit = true → bit < groupWidth := fun bit hbit => by
    by_contra hge
    rw [Nat.testBit_lt_two_pow (hbits.trans_le (Nat.pow_le_pow_right (by decide) (by omega)))] at hbit
    cases hbit
  have hfound : ((List.range width).find? mask.testBit).isSome := by
    rw [List.find?_isSome]
    exact ⟨bit, List.mem_range.mpr ((hbound bit hbit).trans_le hwidth), hbit⟩
  obtain ⟨first, hfirst⟩ := Option.isSome_iff_exists.mp hfound
  have hset : mask.testBit first = true := List.find?_some hfirst
  rw [firstSet, hfirst, Option.getD_some]
  exact ⟨hbound first hset, hset⟩

/-- What a load sees: the bits of the available mask are the free slots of the group. -/
theorem load_cursorAt (start n : Nat) (h : Mirrored (2 ^ k) ctrl) (hk : 3 ≤ k) (needle : UInt8) :
    ∃ group, ProbeGroup.load ctrl (cursorAt k start n) needle = some group ∧ group.availableMask < 2 ^ groupWidth ∧
      ∀ offset < groupWidth, (group.availableMask.testBit offset = true ↔
        IsFree ctrl (position start groupWidth (2 ^ k) (n, offset))) := by
  have hcapacity : groupWidth ≤ 2 ^ k := Nat.pow_le_pow_right (n := 2) (by decide) hk
  have hpos : (cursorAt k start n).pos < 2 ^ k := Nat.mod_lt _ (Nat.two_pow_pos k)
  have hlength : (cursorAt k start n).pos + groupWidth ≤ ctrl.length := by
    rw [h.length]
    unfold groupWidth
    omega
  refine ⟨_, if_pos hlength, or_lt_two_pow (ofBits_lt_two_pow _) (ofBits_lt_two_pow _), ?_⟩
  intro offset hoffset
  have hbyte := h.getElem?_add hcapacity hpos hoffset
  have hslot : ((cursorAt k start n).pos + offset) % 2 ^ k = position start groupWidth (2 ^ k) (n, offset) := by
    rw [cursorAt, position, mod_add_mod]
  rw [hslot] at hbyte
  simp only [testBit_or, bitmask, testBit_ofBits_lt _ _ hoffset, hbyte, Bool.or_eq_true, beq_iff_eq, IsFree]

/-- The loop returns a free slot if there is one in a group that is still to come. -/
theorem findInsertLoop_free (h : Mirrored (2 ^ k) ctrl) (hk : 3 ≤ k) (hwidth : 2 ^ k < 2 ^ width)
    (hlanes : groupWidth ≤ width) {valueHash fuel later offset : Nat} (hn : n ≤ later) (hlater : later < 2 ^ (k - 3))
    (hoffset : offset < groupWidth) (hfree : IsFree ctrl (position start groupWidth (2 ^ k) (later, offset)))
    (hfuel : later < fuel + n) :
    ∃ index < 2 ^ k, findInsertLoop width valueHash ctrl fuel (cursorAt k start n) = some index ∧
      IsFree ctrl index := by
  induction fuel generalizing n with
  | zero => omega
  | succ fuel ih =>
    obtain ⟨group, hload, hbits, hmask⟩ := load_cursorAt start n h hk (tag valueHash)
    rw [findInsertLoop, if_pos ((hasRemaining_cursorAt hk).mpr (hn.trans_lt hlater)), some_bind hload]
    by_cases havailable : group.availableMask = 0
    · have hne : n ≠ later := by
        rintro rfl
        have hbit := (hmask offset hoffset).mpr hfree
        rw [havailable, zero_testBit] at hbit
        cases hbit
      rw [if_neg (not_not.mpr havailable),
        some_bind (advanceGroup_cursorAt hk hwidth (hn.trans_lt hlater))]
      exact ih (by omega) (by omega)
    · obtain ⟨hfirst, hset⟩ := exists_firstSet havailable hbits hlanes
      rw [if_pos havailable, index_cursorAt hwidth]
      exact ⟨_, Nat.mod_lt _ (Nat.two_pow_pos k), rfl, (hmask _ hfirst).mp hset⟩

theorem findInsertIndex_free (h : Mirrored (2 ^ k) ctrl) (hk : 3 ≤ k) (hwidth : 2 ^ k < 2 ^ width)
    (hlanes : groupWidth ≤ width) {valueHash fuel slot : Nat} (hslot : slot < 2 ^ k) (hfree : IsFree ctrl slot)
    (hfuel : 2 ^ (k - 3) ≤ fuel) :
    ∃ index < 2 ^ k, findInsertIndex width fuel valueHash (2 ^ k) ctrl = some index ∧ IsFree ctrl index := by
  -- the slot lies in one of the groups, since they cover the table
  have hperm := perm_places (valueHash % 2 ^ width) (k - 3) (show 0 < groupWidth by decide)
  rw [groups_mul hk] at hperm
  obtain ⟨⟨later, offset⟩, hplace, rfl⟩ := List.mem_map.mp (hperm.mem_iff.mpr (List.mem_range.mpr hslot))
  obtain ⟨hlater, hoffset⟩ := mem_places.mp hplace
  rw [findInsertIndex, init_two_pow hk]
  exact findInsertLoop_free h hk hwidth hlanes (zero_le _) hlater hoffset hfree (by omega)

end Insert

/-- **A probe visits each slot exactly once and never overflows, and `findInsertIndex` finds a free slot of every
table that has one.** -/
theorem probe_covers_table (pointer : PointerWidth) {capacity : Nat} (hpower : ∃ k, capacity = 2 ^ k)
    (hcapacity : 8 ≤ capacity) (hfits : capacity < 2 ^ pointer.bits) (valueHash : Nat) {fuel : Nat}
    (hfuel : capacity / groupWidth ≤ fuel) :
    (∃ slots, probe pointer.bits fuel valueHash capacity = some slots ∧ slots.Perm (List.range capacity)) ∧
      ∀ ctrl, Table capacity ctrl → (∃ slot < capacity, IsFree ctrl slot) →
        ∃ index < capacity, findInsertIndex pointer.bits fuel valueHash capacity ctrl = some index ∧
          IsFree ctrl index := by
  obtain ⟨k, rfl⟩ := hpower
  have hk : 3 ≤ k := (Nat.pow_le_pow_iff_right (by decide : 1 < 2)).mp hcapacity
  have hgroups : 2 ^ (k - 3) ≤ fuel := by
    rwa [← groups_mul hk, Nat.mul_div_cancel_left _ (by decide)] at hfuel
  refine ⟨probe_perm hk hfits hgroups valueHash, fun ctrl htable ⟨slot, hslot, hfree⟩ => ?_⟩
  have hlanes : groupWidth ≤ pointer.bits := by cases pointer <;> decide
  exact findInsertIndex_free (htable.mirrored hcapacity) hk hfits hlanes hslot hfree hgroups

/-- The control bytes of 32 slots, of which the eight of the first group of hash 13 hold entries. -/
def crowded : Bytes :=
  (List.range' 13 8).foldl (fun ctrl index => setCtrl 32 ctrl index 3) (fillCtrl (List.replicate 39 0) ctrlEmpty)

theorem Table.foldl_set {capacity : Nat} {ctrl : Bytes} (h : Table capacity ctrl) {indices : List Nat}
    (hindices : ∀ index ∈ indices, index < capacity) (value : UInt8) :
    Table capacity (indices.foldl (fun ctrl index => setCtrl capacity ctrl index value) ctrl) := by
  induction indices generalizing ctrl with
  | nil => exact h
  | cons index indices ih =>
    obtain ⟨hindex, hrest⟩ := List.forall_mem_cons.mp hindices
    exact ih (h.set hindex value) hrest

theorem probe_covers_table_crowded :
    (∃ slots, probe PointerWidth.w64.bits 4 13 32 = some slots ∧ slots.Perm (List.range 32)) ∧
      ∃ index < 32, findInsertIndex PointerWidth.w64.bits 4 13 32 crowded = some index ∧ IsFree crowded index := by
  have hcovers := probe_covers_table .w64 ⟨5, rfl⟩ (by decide : 8 ≤ 32) (by decide) 13 (by decide : _ ≤ 4)
  have htable : Table 32 crowded := (Table.allocate _ rfl).foldl_set (by decide) 3
  exact ⟨hcovers.1, hcovers.2 crowded htable ⟨0, by decide, .inl (by decide)⟩⟩

end Nia.Collections.HashMap
