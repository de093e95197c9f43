import Nia.Io.BufferedWriter

/-! The buffered reader.

Small reads are served from a buffer that the inner reader fills; large ones go to the inner reader while the buffer is
empty. The inner reader may do anything: deliver less than there is room for, nothing at all, fail, or report an
impossible count. What has been handed out and what is in the buffer are together the bytes that it delivered, in
order (`Delivered`), over any sequence of calls and errors (`reads_deliver`). -/
namespace Nia.Io
open Lib Lib.Slices List

/-- An inner reader. It gets a place for bytes, and leaves something there whatever it reports. -/
structure InnerReader (σ E : Type) where
  read : σ → (place : Bytes) → Except E Nat × {content : Bytes // content.length = place.length} × σ
  invalidRead : σ → E

/-- `BufferedReader`, its inner reader, and a record of the bytes that the inner reader delivered. -/
structure BufferedReader (σ : Type) where
  buffer : Bytes
  start : Nat
  stop : Nat
  reader : σ
  delivered : Bytes

namespace BufferedReader

variable {σ E : Type}

abbrev Code (σ E α : Type) := Fallible (BufferedReader σ) E α

def init (reader : σ) (buffer : Bytes) : BufferedReader σ := ⟨buffer, 0, 0, reader, []⟩

/-- `self.reader.read(place)`: what it reports, and what it leaves in the place. -/
def innerRead (R : InnerReader σ E) (place : Bytes) : Code σ E (Except E Nat × Bytes) :=
  ExceptT.mk fun self =>
    let (result, content, reader) := R.read self.reader place
    some (.ok (result, content.1),
      { self with reader, delivered := self.delivered ++ BufferedWriter.counted content.1 result })

def buffered : Code σ E Bytes := do
  let self ← get
  Fallible.orTrap (slice self.buffer self.start self.stop)

def discardBuffered : Code σ E Unit := modify fun self => { self with start := 0, stop := 0 }

/-- Returns the count, and the place with the bytes in it. -/
def readBuffered (bytes : Bytes) : Code σ E (Nat × Bytes) := do
  let self ← get
  let len ← Fallible.orTrap (sub self.stop self.start)
  let count := if len < bytes.length then len else bytes.length
  let source ← Fallible.orTrap (slice self.buffer self.start (self.start + count))
  let content ← Fallible.orTrap (copyFrom bytes 0 count source)
  set { self with start := self.start + count }
  if self.start + count = self.stop then discardBuffered else pure ()
  pure (count, content)

/-- `.?` on what an inner call reported. -/
def report (result : Except E Nat) : Code σ E Nat := ExceptT.mk (pure result)

def read (R : InnerReader σ E) (bytes : Bytes) : Code σ E (Nat × Bytes) :=
  if bytes.length = 0 then pure (0, bytes)
  else do
    let self ← get
    let len ← Fallible.orTrap (sub self.stop self.start)
    if len ≠ 0 then readBuffered bytes
    else if self.buffer.length ≤ bytes.length then do
      let (result, content) ← innerRead R bytes
      let n ← report result
      let after ← get
      if bytes.length < n then throw (R.invalidRead after.reader) else pure (n, content)
    else do
      set { self with start := 0 }
      let (result, content) ← innerRead R self.buffer
      modify fun self => { self with buffer := content }
      let n ← report result
      let after ← get
      if after.buffer.length < n then do
        set { after with stop := 0 }
        throw (R.invalidRead after.reader)
      else do
        set { after with stop := n }
        if n = 0 then pure (0, bytes) else readBuffered bytes

/-- A call of the reader's user. -/
inductive Call where
  | read (bytes : Bytes)
  | discardBuffered

/-- What a call hands out: the bytes that a read counts, or those that are dropped. -/
def perform (R : InnerReader σ E) : Call → Code σ E Bytes
  | .read bytes => do
    let (n, content) ← read R bytes
    Fallible.orTrap (slice content 0 n)
  | .discardBuffered => do
    let dropped ← buffered
    discardBuffered
    pure dropped

def calls (R : InnerReader σ E) : List Call → BufferedReader σ →
    Option (List (Except E Bytes) × BufferedReader σ)
  | [], self => some ([], self)
  | call :: rest, self => do
    let (result, self) ← (perform R call).run self
    let (results, self) ← calls R rest self
    return (result :: results, self)

/-! ### What a reader holds -/

/-- The bytes of the buffer that are still to be read. -/
def pending (r : BufferedReader σ) : Bytes := (r.buffer.drop r.start).take (r.stop - r.start)

/-- Some of the delivered bytes were handed out and the others are in the buffer; an empty buffer starts at its
beginning. -/
structure Delivered (handed : Bytes) (r : BufferedReader σ) : Prop where
  le : r.start ≤ r.stop
  stop_le : r.stop ≤ r.buffer.length
  empty : r.start = r.stop → r.stop = 0
  eq : r.delivered = handed ++ r.pending

/-- What a result hands out. -/
def handedOf : Except E Bytes → Bytes
  | .ok bytes => bytes
  | .error _ => []

section

variable {R : InnerReader σ E} {r : BufferedReader σ} {handed bytes : Bytes}

theorem readBuffered_spec (h : Delivered handed r) :
    Fallible.Returns (readBuffered bytes : Code σ E (Nat × Bytes)) r fun result after =>
      ∃ n content, result = .ok (n, content) ∧ n ≤ content.length ∧ content.length = bytes.length ∧
        Delivered (handed ++ content.take n) after := by
  obtain ⟨hle, hstop, hempty, heq⟩ := h
  refine Fallible.Returns.get (Fallible.Returns.orTrap (sub_of_le hle) ?_)
  dsimp only
  generalize hcount : (if r.stop - r.start < bytes.length then r.stop - r.start else bytes.length) = count
  have hcountLen : count ≤ bytes.length := by rw [← hcount]; split <;> omega
  have hcountBuf : count ≤ r.stop - r.start := by rw [← hcount]; split <;> omega
  have hsource : ((r.buffer.drop r.start).take count).length = count := by
    rw [length_take, length_drop]
    omega
  have hinside : r.start + count ≤ r.buffer.length := by omega
  have hslice := slice_of_le (Nat.le_add_right r.start count) hinside
  rw [Nat.add_sub_cancel_left] at hslice
  have hfits : 0 + ((r.buffer.drop r.start).take count).length ≤ bytes.length := by omega
  refine Fallible.Returns.orTrap hslice (Fallible.Returns.orTrap (copyFrom_of_length hcountLen (by omega)) ?_)
  have htaken : (overwrite bytes 0 ((r.buffer.drop r.start).take count)).take count =
      (r.buffer.drop r.start).take count := by
    have htake := take_overwrite hfits
    rwa [hsource, Nat.zero_add, take_zero, nil_append] at htake
  have hsplit : (r.buffer.drop r.start).take count ++
      (r.buffer.drop (r.start + count)).take (r.stop - (r.start + count)) = r.pending := by
    rw [pending, ← drop_drop, ← take_add]
    congr 1
    omega
  have hresult : Delivered (handed ++ (r.buffer.drop r.start).take count)
      (if r.start + count = r.stop then { r with start := 0, stop := 0 } else { r with start := r.start + count }) := by
    split
    · next hall =>
      -- everything was handed out
      refine ⟨Nat.le_refl _, Nat.zero_le _, fun _ => rfl, ?_⟩
      rw [hall, Nat.sub_self, take_zero, append_nil] at hsplit
      rw [hsplit]
      simpa [pending] using heq
    · next hmore =>
      refine ⟨?_, hstop, fun hsame => absurd hsame hmore, ?_⟩
      · show r.start + count ≤ r.stop
        omega
      · rw [append_assoc, pending]
        exact heq.trans (congrArg (handed ++ ·) hsplit.symm)
  refine Fallible.Returns.update (f := fun _ => { r with start := r.start + count }) ?_
  split
  · next hall =>
    rw [if_pos hall] at hresult
    refine ⟨_, _, rfl, count, _, rfl, ?_, length_overwrite hfits, by rw [htaken]; exact hresult⟩
    rwa [length_overwrite hfits]
  · next hmore =>
    rw [if_neg hmore] at hresult
    refine ⟨_, _, rfl, count, _, rfl, ?_, length_overwrite hfits, by rw [htaken]; exact hresult⟩
    rwa [length_overwrite hfits]

/-- What the inner reader leaves in a place, and what it has then delivered. -/
theorem innerRead_spec (place : Bytes) :
    Fallible.Returns (innerRead R place) r fun outcome after => ∃ result content reader,
      outcome = .ok (result, content) ∧ content.length = place.length ∧
      after = { r with reader, delivered := r.delivered ++ BufferedWriter.counted content result } :=
  ⟨_, _, rfl, _, _, _, rfl, (R.read r.reader place).2.1.2, rfl⟩

theorem Delivered.pending_of_empty (h : Delivered handed r) (hsame : r.stop - r.start = 0) :
    r.start = 0 ∧ r.stop = 0 ∧ r.delivered = handed := by
  have hle := h.le
  have hzero := h.empty (by omega)
  refine ⟨by omega, hzero, ?_⟩
  have heq := h.eq
  rwa [pending, hsame, take_zero, append_nil] at heq

variable {α : Type} {next : Nat → Code σ E α} {Q : Except E α → BufferedReader σ → Prop}

theorem report_ok {n : Nat} (h : Fallible.Returns (next n) r Q) : Fallible.Returns (report (.ok n) >>= next) r Q := h

theorem report_error {error : E}
    (h : Q (.error error) r) : Fallible.Returns (report (.error error) >>= next) r Q := ⟨.error error, r, rfl, h⟩

/-- A reader with an empty buffer, whatever is in the buffer behind it. -/
theorem delivered_empty (buffer : Bytes) (reader : σ) (handed : Bytes) :
    Delivered handed ⟨buffer, 0, 0, reader, handed⟩ :=
  ⟨Nat.le_refl _, Nat.zero_le _, fun _ => rfl, by simp [pending]⟩

theorem read_spec (h : Delivered handed r) (bytes : Bytes) :
    Fallible.Returns (read R bytes) r fun result after =>
      match result with
      | .ok (n, content) => n ≤ content.length ∧ Delivered (handed ++ content.take n) after
      | .error _ => Delivered handed after := by
  have hbuffered {r : BufferedReader σ} (h : Delivered handed r) :
      Fallible.Returns (readBuffered bytes : Code σ E (Nat × Bytes)) r fun result after =>
        match result with
        | .ok (n, content) => n ≤ content.length ∧ Delivered (handed ++ content.take n) after
        | .error _ => Delivered handed after := by
    refine (readBuffered_spec h).mono ?_
    rintro _ after ⟨n, content, rfl, hn, -, hafter⟩
    exact ⟨hn, hafter⟩
  unfold read
  split
  · refine Fallible.Returns.pure ⟨Nat.zero_le _, ?_⟩
    rwa [take_zero, append_nil]
  · refine Fallible.Returns.get (Fallible.Returns.orTrap (sub_of_le h.le) ?_)
    split
    · exact hbuffered h
    · next hempty =>
      obtain ⟨hstart, hstop, hdelivered⟩ := h.pending_of_empty (not_not.mp hempty)
      split
      · refine Fallible.Returns.bind (innerRead_spec bytes) ?_ fun _ _ ⟨_, _, _, hok, _⟩ => (nomatch hok)
        rintro ⟨result, content⟩ _ ⟨_, _, reader, hok, hlength, rfl⟩
        cases hok
        cases result with
        | error error =>
          refine report_error ?_
          rw [hstart, hstop, hdelivered, BufferedWriter.counted, append_nil]
          exact delivered_empty _ _ _
        | ok n =>
          refine report_ok (Fallible.Returns.get ?_)
          split
          · next hlt =>
            refine Fallible.Returns.throw ?_
            rw [hstart, hstop, hdelivered, BufferedWriter.counted_of_lt (by omega), append_nil]
            exact delivered_empty _ _ _
          · next hn =>
            refine Fallible.Returns.pure ⟨by omega, ?_⟩
            rw [hstart, hstop, hdelivered, BufferedWriter.counted_of_le (by omega)]
            exact delivered_empty _ _ _
      · refine Fallible.Returns.update (f := fun _ => { r with start := 0 }) ?_
        refine Fallible.Returns.bind (innerRead_spec r.buffer) ?_ fun _ _ ⟨_, _, _, hok, _⟩ => (nomatch hok)
        rintro ⟨result, content⟩ _ ⟨_, _, reader, hok, hlength, rfl⟩
        cases hok
        refine Fallible.Returns.update ?_
        cases result with
        | error error =>
          refine report_error ?_
          dsimp only
          rw [hstop, hdelivered, BufferedWriter.counted, append_nil]
          exact delivered_empty _ _ _
        | ok n =>
          refine report_ok (Fallible.Returns.get ?_)
          dsimp only
          split
          · next hlt =>
            refine Fallible.Returns.update (f := fun _ => _) (Fallible.Returns.throw ?_)
            dsimp only
            rw [hdelivered, BufferedWriter.counted_of_lt hlt, append_nil]
            exact delivered_empty _ _ _
          · next hn =>
            rw [hdelivered, BufferedWriter.counted_of_le (Nat.le_of_not_lt hn)]
            refine Fallible.Returns.update (f := fun _ => _) ?_
            split
            · next hzero =>
              refine Fallible.Returns.pure ⟨Nat.zero_le _, ?_⟩
              rw [hzero, take_zero, take_zero, append_nil]
              exact delivered_empty _ _ _
            · next hsome =>
              refine hbuffered ⟨Nat.zero_le _, Nat.le_of_not_lt hn, fun hsame => absurd hsame.symm hsome, ?_⟩
              rfl

/-- A step. -/
theorem perform_spec (h : Delivered handed r) (call : Call) :
    Fallible.Returns (perform R call) r fun result after => Delivered (handed ++ handedOf result) after := by
  cases call with
  | read bytes =>
    refine Fallible.Returns.bind (read_spec h bytes) ?_ ?_
    · rintro ⟨n, content⟩ after ⟨hn, hafter⟩
      exact ⟨.ok (content.take n), after, by dsimp only; rw [slice_zero hn]; rfl, hafter⟩
    · intro error after hafter
      rwa [handedOf, append_nil]
  | discardBuffered =>
    have hslice := slice_of_le h.le h.stop_le
    refine ⟨.ok r.pending, { r with start := 0, stop := 0 }, ?_, ?_⟩
    · show (Fallible.orTrap (slice r.buffer r.start r.stop) >>= _ : Code σ E Bytes).run r = _
      rw [hslice]
      rfl
    · show Delivered (handed ++ r.pending) _
      rw [← h.eq]
      exact delivered_empty _ _ _

/-- A run. -/
theorem reads_deliver (h : Delivered handed r) (made : List Call) :
    ∃ results after, calls R made r = some (results, after) ∧
      Delivered (handed ++ (results.map handedOf).flatten) after := by
  induction made generalizing handed r with
  | nil => exact ⟨[], r, rfl, by rwa [map_nil, flatten_nil, append_nil]⟩
  | cons call rest ih =>
    obtain ⟨result, next, hrun, hnext⟩ := perform_spec (R := R) h call
    obtain ⟨results, after, hcalls, hafter⟩ := ih hnext
    refine ⟨result :: results, after, ?_, ?_⟩
    · rw [calls, Trapping.some_bind hrun]
      dsimp only
      rw [Trapping.some_bind hcalls]
      rfl
    · rwa [map_cons, flatten_cons, ← append_assoc]

end

end BufferedReader

/-- **Buffering changes nothing of the streams**: whatever the buffer, the inner writer and reader and the calls, no
index leaves the buffer, the bytes that the calls took are those that the inner writer accepted and those in the
buffer, and the bytes that the inner reader delivered are those handed out and those in the buffer. -/
theorem buffered_transparent {σ ρ E : Type} (W : InnerWriter σ E) (R : InnerReader ρ E) (writer : σ) (reader : ρ)
    (buffer : List UInt8) :
    (∀ made, ∃ results after takens, BufferedWriter.calls W made (.init writer buffer) = some (results, after) ∧
      BufferedWriter.Ran W (.init writer buffer) made results takens after ∧
      after.accepted ++ after.buffer.take after.len = takens.flatten) ∧
    ∀ made, ∃ results after, BufferedReader.calls R made (.init reader buffer) = some (results, after) ∧
      (results.map BufferedReader.handedOf).flatten ++ after.pending = after.delivered := by
  constructor
  · intro made
    have hinit : BufferedWriter.Holds [] (.init writer buffer) := ⟨Nat.zero_le _, rfl⟩
    obtain ⟨results, after, takens, hcalls, hran, hholds⟩ := BufferedWriter.calls_hold (W := W) hinit made
    exact ⟨results, after, takens, hcalls, hran, hholds.eq⟩
  · intro made
    obtain ⟨results, after, hcalls, hdelivered⟩ :=
      BufferedReader.reads_deliver (R := R) (BufferedReader.delivered_empty buffer reader []) made
    exact ⟨results, after, hcalls, hdelivered.eq.symm⟩

/-- A writer that takes one byte and then fails. -/
def oneByteWriter : InnerWriter Bool Unit where
  write full _ := if full then (.error (), true) else (.ok 1, true)
  writeAll _ _ := (.error ((), 1), true)
  flush full := (.ok (), full)
  shortWrite _ := ()
  invalidWrite _ := ()

/-- A reader that delivers 1 and 2, and then nothing. -/
def twoByteReader : InnerReader Bool Unit where
  read done place :=
    if done then (.ok 0, ⟨place, rfl⟩, true)
    else (.ok (min 2 place.length), ⟨[1, 2].take place.length ++ place.drop 2, by simp; omega⟩, true)
  invalidRead _ := ()

/-- A `writeAll` that fails may leave some of its bytes with the inner writer, and `discardBuffered` drops a byte that
the inner reader delivered and that no read returns. -/
theorem failed_writeAll_leaves_bytes :
    (∃ after, BufferedWriter.calls oneByteWriter [.writeAll [1, 2]] (.init false []) = some ([.error ()], after) ∧
      after.accepted ++ after.buffer.take after.len = [1]) ∧
    ∃ dropped after, BufferedReader.calls twoByteReader [.read [0], .discardBuffered, .read [0]]
        (.init false [0, 0, 0]) = some ([.ok [1], dropped, .ok []], after) ∧
      after.pending = [] ∧ after.delivered = [1, 2] := ⟨⟨_, rfl, rfl⟩, _, _, rfl, rfl, rfl⟩

end Nia.Io
