import Nia.Lib.Fallible
import Nia.Lib.Slices

/-! The buffered writer.

Small writes are gathered in a buffer, which goes to the inner writer when it is full or on `flush`; large ones bypass
it. The inner writer may do anything: take less than it is given, nothing at all, fail, or report an impossible count.
What it has accepted and what is in the buffer are together the bytes that the calls took (`Holds`), over any sequence
of calls and errors (`calls_hold`). -/
namespace Nia.Io
open Lib Lib.Slices List

/-- An inner writer. When `writeAll` fails, it also says how many bytes it had accepted. -/
structure InnerWriter (σ E : Type) where
  write : σ → Bytes → Except E Nat × σ
  writeAll : σ → Bytes → Except (E × Nat) Unit × σ
  flush : σ → Except E Unit × σ
  shortWrite : σ → E
  invalidWrite : σ → E

/-- `BufferedWriter`, its inner writer, and a record of the bytes that the inner writer accepted. -/
structure BufferedWriter (σ : Type) where
  buffer : Bytes
  len : Nat
  writer : σ
  accepted : Bytes

namespace BufferedWriter

variable {σ E : Type}

abbrev Code (σ E α : Type) := Fallible (BufferedWriter σ) E α

def init (writer : σ) (buffer : Bytes) : BufferedWriter σ := ⟨buffer, 0, writer, []⟩

/-- What a reported count means: an impossible one accepts nothing. -/
def counted (bytes : Bytes) : Except E Nat → Bytes
  | .ok n => if n ≤ bytes.length then bytes.take n else []
  | .error _ => []

/-- `self.writer.write(bytes)`. -/
def innerWrite (W : InnerWriter σ E) (bytes : Bytes) : Code σ E Nat := ExceptT.mk fun self =>
  let (result, writer) := W.write self.writer bytes
  some (result, { self with writer, accepted := self.accepted ++ counted bytes result })

/-- `self.writer.writeAll(bytes)`. -/
def innerWriteAll (W : InnerWriter σ E) (bytes : Bytes) : Code σ E Unit := ExceptT.mk fun self =>
  match W.writeAll self.writer bytes with
  | (.ok _, writer) => some (.ok (), { self with writer, accepted := self.accepted ++ bytes })
  | (.error (error, n), writer) =>
    some (.error error, { self with writer, accepted := self.accepted ++ bytes.take n })

/-- `self.writer.flush()`. -/
def innerFlush (W : InnerWriter σ E) : Code σ E Unit := ExceptT.mk fun self =>
  let (result, writer) := W.flush self.writer
  some (result, { self with writer })

def appendBuffered (bytes : Bytes) : Code σ E Unit := do
  let self ← get
  let buffer ← Fallible.orTrap (copyFrom self.buffer self.len (self.len + bytes.length) bytes)
  set { self with buffer, len := self.len + bytes.length }

/-- The loop of `flush`, with fuel; each round takes something from the buffer. -/
def flushLoop (W : InnerWriter σ E) : Nat → Code σ E Unit
  | 0 => Fallible.orTrap none
  | fuel + 1 => do
    let self ← get
    if self.len = 0 then innerFlush W
    else do
      let pending ← Fallible.orTrap (slice self.buffer 0 self.len)
      let n ← innerWrite W pending
      let after ← get
      if n = 0 then throw (W.shortWrite after.writer)
      else if self.len < n then throw (W.invalidWrite after.writer)
      else if n = self.len then do
        set { after with len := 0 }
        flushLoop W fuel
      else do
        let rest ← Fallible.orTrap (slice self.buffer n self.len)
        let buffer ← Fallible.orTrap (copyFrom self.buffer 0 (self.len - n) rest)
        set { after with buffer, len := self.len - n }
        flushLoop W fuel

def flush (W : InnerWriter σ E) : Code σ E Unit := do
  let self ← get
  flushLoop W (self.len + 1)

/-- The part of `write` and `writeAll` for bytes that the buffer can take. -/
def writeBuffered (W : InnerWriter σ E) (bytes : Bytes) : Code σ E Unit := do
  let self ← get
  let available ← Fallible.orTrap (sub self.buffer.length self.len)
  if available < bytes.length then flush W else pure ()
  appendBuffered bytes

def write (W : InnerWriter σ E) (bytes : Bytes) : Code σ E Nat :=
  if bytes.length = 0 then pure 0
  else do
    let self ← get
    if self.buffer.length < bytes.length then do
      flush W
      let n ← innerWrite W bytes
      let after ← get
      if bytes.length < n then throw (W.invalidWrite after.writer) else pure n
    else do
      writeBuffered W bytes
      pure bytes.length

def writeAll (W : InnerWriter σ E) (bytes : Bytes) : Code σ E Unit :=
  if bytes.length = 0 then pure ()
  else do
    let self ← get
    if self.buffer.length < bytes.length then do
      flush W
      innerWriteAll W bytes
    else writeBuffered W bytes

/-- A call of the writer's user. -/
inductive Call where
  | write (bytes : Bytes)
  | writeAll (bytes : Bytes)
  | flush

/-- What a call returns, as the number of bytes that it took. -/
def perform (W : InnerWriter σ E) : Call → Code σ E Nat
  | .write bytes => write W bytes
  | .writeAll bytes => do
    writeAll W bytes
    pure bytes.length
  | .flush => do
    flush W
    pure 0

def calls (W : InnerWriter σ E) : List Call → BufferedWriter σ → Option (List (Except E Nat) × BufferedWriter σ)
  | [], self => some ([], self)
  | call :: rest, self => do
    let (result, self) ← (perform W call).run self
    let (results, self) ← calls W rest self
    return (result :: results, self)

/-! ### What a writer holds -/

/-- The inner writer has accepted some bytes and the rest is in the buffer. -/
structure Holds (given : Bytes) (w : BufferedWriter σ) : Prop where
  le : w.len ≤ w.buffer.length
  eq : w.accepted ++ w.buffer.take w.len = given

section

variable {W : InnerWriter σ E} {w : BufferedWriter σ} {given bytes : Bytes}

theorem innerWrite_spec (bytes : Bytes) : Fallible.Returns (innerWrite W bytes) w fun result after =>
    ∃ writer, after = { w with writer, accepted := w.accepted ++ counted bytes result } :=
  ⟨_, _, rfl, _, rfl⟩

theorem innerWriteAll_spec (bytes : Bytes) : Fallible.Returns (innerWriteAll W bytes) w fun result after =>
    ∃ writer taken, (result.isOk = true → taken = bytes) ∧ taken <+: bytes ∧
      after = { w with writer, accepted := w.accepted ++ taken } := by
  rcases hinner : W.writeAll w.writer bytes with ⟨⟨error, n⟩ | _, writer⟩
  · refine ⟨.error error, _, ?_, writer, bytes.take n, nofun, take_prefix n bytes, rfl⟩
    simp only [innerWriteAll, ExceptT.run_mk, hinner]
  · refine ⟨.ok (), _, ?_, writer, bytes, fun _ => rfl, prefix_rfl, rfl⟩
    simp only [innerWriteAll, ExceptT.run_mk, hinner]

theorem counted_of_le {n : Nat} (h : n ≤ bytes.length) : counted bytes (.ok n : Except E Nat) = bytes.take n := if_pos h

theorem counted_of_lt {n : Nat} (h : bytes.length < n) : counted bytes (.ok n : Except E Nat) = [] :=
  if_neg (Nat.not_le.mpr h)

/-- The inner writer accepts the first of the pending bytes, and the others move to the front. -/
theorem Holds.shift (h : Holds given w) {n : Nat} (hn : n ≤ w.len) (writer : σ) :
    ∃ rest buffer, slice w.buffer n w.len = some rest ∧ copyFrom w.buffer 0 (w.len - n) rest = some buffer ∧
      buffer.length = w.buffer.length ∧
      Holds given ⟨buffer, w.len - n, writer, w.accepted ++ (w.buffer.take w.len).take n⟩ := by
  have hle := h.le
  have hrest : ((w.buffer.drop n).take (w.len - n)).length = w.len - n := by
    rw [length_take, length_drop]
    omega
  have hfits : 0 + ((w.buffer.drop n).take (w.len - n)).length ≤ w.buffer.length := by omega
  refine ⟨_, _, slice_of_le hn hle, copyFrom_of_length (by omega) (by omega), length_overwrite hfits, ?_, ?_⟩
  · show w.len - n ≤ _
    rw [length_overwrite hfits]
    omega
  · have htake := take_overwrite hfits
    rw [hrest, Nat.zero_add, take_zero, nil_append] at htake
    have hsplit : (w.buffer.take w.len).take n ++ (w.buffer.drop n).take (w.len - n) = w.buffer.take w.len := by
      rw [← drop_take, take_append_drop]
    rw [htake, append_assoc, hsplit, h.eq]

theorem flushLoop_spec {fuel : Nat} (h : Holds given w) (hfuel : w.len < fuel) :
    Fallible.Returns (flushLoop W fuel) w fun result after =>
      Holds given after ∧ after.buffer.length = w.buffer.length ∧ (result = .ok () → after.len = 0) := by
  induction fuel generalizing w with
  | zero => omega
  | succ fuel ih =>
    refine Fallible.Returns.get ?_
    split
    · next hempty => exact ⟨_, _, rfl, ⟨h.le, h.eq⟩, rfl, fun _ => hempty⟩
    · next hsome =>
      have hpending : (w.buffer.take w.len).length = w.len := length_take_of_le h.le
      have hnothing (writer : σ) : Holds given { w with writer, accepted := w.accepted ++ [] } :=
        ⟨h.le, by rw [append_nil]; exact h.eq⟩
      refine Fallible.Returns.orTrap (slice_zero h.le) ?_
      refine Fallible.Returns.bind (innerWrite_spec _) ?_ fun error _ ⟨writer, hafter⟩ => ?_
      · rintro n _ ⟨writer, rfl⟩
        refine Fallible.Returns.get ?_
        split
        · next hzero =>
          refine Fallible.Returns.throw ⟨?_, rfl, nofun⟩
          rw [hzero, counted_of_le (Nat.zero_le _), take_zero]
          exact hnothing writer
        · split
          · next hzero hlt =>
            refine Fallible.Returns.throw ⟨?_, rfl, nofun⟩
            rw [counted_of_lt (by omega)]
            exact hnothing writer
          · next hzero hle =>
            rw [counted_of_le (by omega)]
            obtain ⟨rest, buffer, hslice, hcopy, hlength, hshift⟩ := h.shift (Nat.le_of_not_lt hle) writer
            split
            · next hall =>
              -- a round that empties the buffer leaves its bytes where they were
              have hempty : Holds given { w with len := 0, writer, accepted :=
                  w.accepted ++ (w.buffer.take w.len).take n } := by
                refine ⟨Nat.zero_le _, ?_⟩
                rw [hall, take_of_length_le (Nat.le_of_eq hpending), take_zero, append_nil]
                exact h.eq
              exact Fallible.Returns.update (ih hempty (by dsimp only; omega))
            · refine Fallible.Returns.orTrap hslice (Fallible.Returns.orTrap hcopy ?_)
              refine Fallible.Returns.mono (ih hshift (by dsimp only; omega)) fun result after hafter => ?_
              exact ⟨hafter.1, hafter.2.1.trans hlength, hafter.2.2⟩
      · subst hafter
        exact ⟨hnothing writer, rfl, nofun⟩

theorem flush_spec (h : Holds given w) : Fallible.Returns (flush W) w fun result after =>
    Holds given after ∧ after.buffer.length = w.buffer.length ∧ (result = .ok () → after.len = 0) :=
  Fallible.Returns.get (flushLoop_spec h (Nat.lt_succ_self _))

theorem appendBuffered_spec (h : Holds given w) (hfits : w.len + bytes.length ≤ w.buffer.length) :
    Fallible.Returns (appendBuffered bytes : Code σ E Unit) w fun result after =>
      result = .ok () ∧ Holds (given ++ bytes) after := by
  refine Fallible.Returns.get (Fallible.Returns.orTrap (copyFrom_of_length hfits rfl) ?_)
  refine ⟨.ok (), _, rfl, rfl, ?_, ?_⟩
  · show w.len + bytes.length ≤ _
    rwa [length_overwrite hfits]
  · show w.accepted ++ List.take (w.len + bytes.length) _ = _
    rw [take_overwrite hfits, ← append_assoc, h.eq]

theorem writeBuffered_spec (h : Holds given w) (hfits : bytes.length ≤ w.buffer.length) :
    Fallible.Returns (writeBuffered W bytes) w fun result after =>
      Holds (if result.isOk then given ++ bytes else given) after := by
  refine Fallible.Returns.get (Fallible.Returns.orTrap (sub_of_le h.le) ?_)
  have happend {after : BufferedWriter σ} (hafter : Holds given after)
      (hroom : after.len + bytes.length ≤ after.buffer.length) :
      Fallible.Returns (appendBuffered bytes : Code σ E Unit) after fun result after =>
        Holds (if result.isOk then given ++ bytes else given) after :=
    (appendBuffered_spec hafter hroom).mono fun result _ ⟨hok, hholds⟩ => hok ▸ hholds
  split
  · refine Fallible.Returns.bind (flush_spec h) (fun _ after hafter => ?_) fun _ _ hafter => hafter.1
    have hempty := hafter.2.2 rfl
    exact happend hafter.1 (by rw [hempty, hafter.2.1]; omega)
  · next hroom =>
    have hle := h.le
    exact happend h (by omega)

/-! ### Calls -/

/-- What a call took, as its result says. A `writeAll` that fails has taken the beginning of its bytes that the inner
writer accepted after everything that was in the buffer, and none if something is still there. -/
def Took (before after : BufferedWriter σ) : Call → Except E Nat → Bytes → Prop
  | .write bytes, .ok n, taken => n ≤ bytes.length ∧ taken = bytes.take n
  | .writeAll bytes, .ok _, taken => taken = bytes
  | .writeAll bytes, .error _, taken => taken <+: bytes ∧
    (taken ≠ [] → after.len = 0 ∧ after.accepted = before.accepted ++ before.buffer.take before.len ++ taken)
  | _, _, taken => taken = []

/-- A run: what each call returned and took. -/
inductive Ran (W : InnerWriter σ E) :
    BufferedWriter σ → List Call → List (Except E Nat) → List Bytes → BufferedWriter σ → Prop where
  | done {w : BufferedWriter σ} : Ran W w [] [] [] w
  | call {w next after : BufferedWriter σ} {call : Call} {rest : List Call} {result : Except E Nat}
      {results : List (Except E Nat)} {taken : Bytes} {takens : List Bytes} :
      (perform W call).run w = some (result, next) → Took w next call result taken →
      Ran W next rest results takens after → Ran W w (call :: rest) (result :: results) (taken :: takens) after

section

variable (h : Holds given w)
include h

theorem Holds.none_taken : Holds (given ++ []) w := by
  rwa [append_nil]

theorem Holds.accepted_of_empty (hempty : w.len = 0) : w.accepted = given := by
  have heq := h.eq
  rwa [hempty, take_zero, append_nil] at heq

/-- With an empty buffer the inner writer may take bytes directly. -/
theorem Holds.accept (hempty : w.len = 0) (writer : σ) (taken : Bytes) :
    Holds (given ++ taken) { w with writer, accepted := w.accepted ++ taken } := by
  refine ⟨h.le, ?_⟩
  show _ ++ List.take w.len _ = _
  rw [hempty, take_zero, append_nil, h.accepted_of_empty hempty]

theorem write_spec (bytes : Bytes) : Fallible.Returns (write W bytes) w fun result after =>
    ∃ taken, Took w after (.write bytes) result taken ∧ Holds (given ++ taken) after := by
  unfold write
  split
  · exact Fallible.Returns.pure ⟨[], ⟨Nat.zero_le _, rfl⟩, h.none_taken⟩
  · refine Fallible.Returns.get ?_
    split
    · refine Fallible.Returns.bind (flush_spec h) (fun _ flushed hflushed => ?_) fun _ _ hafter =>
        ⟨[], rfl, hafter.1.none_taken⟩
      have hholds := hflushed.1.accept (hflushed.2.2 rfl)
      refine Fallible.Returns.bind (innerWrite_spec bytes) ?_ ?_
      · rintro n _ ⟨writer, rfl⟩
        refine Fallible.Returns.get ?_
        split
        · next hlt =>
          rw [counted_of_lt hlt]
          exact Fallible.Returns.throw ⟨[], rfl, hholds writer []⟩
        · next hle =>
          rw [counted_of_le (Nat.le_of_not_lt hle)]
          exact Fallible.Returns.pure ⟨bytes.take n, ⟨Nat.le_of_not_lt hle, rfl⟩, hholds writer _⟩
      · rintro error _ ⟨writer, rfl⟩
        exact ⟨[], rfl, hholds writer []⟩
    · next hfits =>
      refine Fallible.Returns.bind (writeBuffered_spec h (Nat.le_of_not_lt hfits)) (fun _ after hafter => ?_)
        fun _ _ hafter => ⟨[], rfl, hafter.none_taken⟩
      exact Fallible.Returns.pure ⟨bytes, ⟨Nat.le_refl _, (take_length).symm⟩, hafter⟩

theorem writeAll_spec (bytes : Bytes) : Fallible.Returns (writeAll W bytes) w fun result after =>
      ∃ taken, Took w after (.writeAll bytes) (result.map fun _ => bytes.length) taken ∧
        Holds (given ++ taken) after := by
  unfold writeAll
  split
  · next hzero =>
    obtain rfl := length_eq_zero_iff.mp hzero
    exact Fallible.Returns.pure ⟨[], rfl, h.none_taken⟩
  · refine Fallible.Returns.get ?_
    split
    · refine Fallible.Returns.bind (flush_spec h) (fun _ flushed hflushed => ?_) fun _ _ hafter =>
        ⟨[], ⟨ nil_prefix, nofun⟩, hafter.1.none_taken⟩
      have hempty := hflushed.2.2 rfl
      refine (innerWriteAll_spec bytes).mono ?_
      rintro result _ ⟨writer, taken, hok, hpart, rfl⟩
      refine ⟨taken, ?_, hflushed.1.accept hempty writer taken⟩
      cases result with
      | ok _ => exact hok rfl
      | error _ =>
        refine ⟨hpart, fun _ => ⟨hempty, ?_⟩⟩
        rw [h.eq, hflushed.1.accepted_of_empty hempty]
    · next hfits =>
      refine (writeBuffered_spec h (Nat.le_of_not_lt hfits)).mono fun result after hafter => ?_
      cases result with
      | ok _ => exact ⟨bytes, rfl, hafter⟩
      | error _ => exact ⟨[], ⟨ nil_prefix, nofun⟩, hafter.none_taken⟩

/-- A step. -/
theorem perform_spec (call : Call) : Fallible.Returns (perform W call) w fun result after =>
    ∃ taken, Took w after call result taken ∧ Holds (given ++ taken) after := by
  cases call with
  | write bytes => exact write_spec h bytes
  | writeAll bytes =>
    exact Fallible.Returns.bind (writeAll_spec h bytes) (fun _ _ hafter => Fallible.Returns.pure hafter)
      fun _ _ hafter => hafter
  | flush =>
    refine Fallible.Returns.bind (flush_spec h) (fun _ after hafter => ?_) fun _ _ hafter =>
      ⟨[], rfl, hafter.1.none_taken⟩
    exact Fallible.Returns.pure ⟨[], rfl, hafter.1.none_taken⟩

/-- A run. -/
theorem calls_hold (made : List Call) :
    ∃ results after takens, calls W made w = some (results, after) ∧ Ran W w made results takens after ∧
      Holds (given ++ takens.flatten) after := by
  induction made generalizing given w with
  | nil => exact ⟨[], w, [], rfl, .done, h.none_taken⟩
  | cons call rest ih =>
    obtain ⟨result, next, hrun, taken, htook, hnext⟩ := perform_spec (W := W) h call
    obtain ⟨results, after, takens, hcalls, hran, hafter⟩ := ih hnext
    refine ⟨result :: results, after, taken :: takens, ?_, .call hrun htook hran, ?_⟩
    · rw [calls, Trapping.some_bind hrun]
      dsimp only
      rw [Trapping.some_bind hcalls]
      rfl
    · rwa [flatten_cons, ← append_assoc]

end

end

end BufferedWriter

end Nia.Io
