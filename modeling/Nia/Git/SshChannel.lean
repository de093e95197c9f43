import Nia.Git.Wire

/-! Flow control of an SSH channel.

The one channel of a connection keeps two windows: what the server may still send, credited back
as its data is read, and what it has granted to us. Packets are received inside reads and inside
writes that wait for a window. A run is a list of calls against the packets the server sends, up
to the first error; `run_respects` says what holds after it, in terms of the packets received, the
bytes the reads returned and the packets sent.

Packets are their decrypted payloads. Whether a write to the stream succeeds is a parameter, and
so is the text of bytes that are not UTF-8. -/
namespace Nia.Git.Ssh

open Nia.Lib.Checks List

def channelWindow : Nat := 2097152

def channelMaxPacket : Nat := 32768

def maxResponseBytes : Nat := 128 * 1024 * 1024

/-! ### Messages -/

/-- What a packet says, once its fields have been read. -/
inductive Message where
  | data (bytes : Bytes)
  | extendedData (bytes : Bytes)
  | windowAdjust (amount : Nat)
  | eof
  | close
  | exitStatus (wantReply : Bool) (status : Nat)
  | exitSignal (wantReply : Bool) (signal : Bytes)
  | request (wantReply : Bool)
  | disconnect
  | ignored

open SshReader in
/-- `exit-status` and `exit-signal` are the requests with fields of their own. -/
def parseRequest (bytes : Bytes) : Except IoError Message := do
  let (request, bytes) ← string bytes
  let (wantReply, bytes) ← boolean bytes
  if request = "exit-status".toUTF8.toList then
    let (status, bytes) ← u32 bytes
    finish bytes
    pure (.exitStatus wantReply status)
  else if request = "exit-signal".toUTF8.toList then
    let (signal, bytes) ← string bytes
    let (_, bytes) ← boolean bytes
    let (_, bytes) ← string bytes
    let (_, bytes) ← string bytes
    finish bytes
    pure (.exitSignal wantReply signal)
  else pure (.request wantReply)

open SshReader in
/-- Every field is read before the channel changes. -/
def parseFields (message : UInt8) (bytes : Bytes) : Except IoError Message :=
  if message = 94 then do
    let (data, bytes) ← string bytes
    finish bytes
    pure (.data data)
  else if message = 95 then do
    let (kind, bytes) ← u32 bytes
    require (kind = 1) (invalidPacket "SSH extended data type is unsupported")
    let (data, bytes) ← string bytes
    finish bytes
    pure (.extendedData data)
  else if message = 93 then do
    let (adjustment, bytes) ← u32 bytes
    finish bytes
    pure (.windowAdjust adjustment)
  else if message = 96 then do
    finish bytes
    pure .eof
  else if message = 97 then do
    finish bytes
    pure .close
  else if message = 98 then parseRequest bytes
  else if message = 1 then pure .disconnect
  else if message = 2 then do
    let (_, bytes) ← string bytes
    finish bytes
    pure .ignored
  else if message = 4 then do
    let (_, bytes) ← boolean bytes
    let (_, bytes) ← string bytes
    let (_, bytes) ← string bytes
    finish bytes
    pure .ignored
  else .error (invalidPacket "SSH server sent an unexpected channel message")

open SshReader in
def parseMessage (payload : Bytes) : Except IoError Message :=
  match payload with
  | [] => .error (invalidPacket "SSH channel packet is empty")
  | message :: bytes =>
    if 93 ≤ message ∧ message ≤ 98 then do
      let (recipient, bytes) ← u32 bytes
      require (recipient = 0) (invalidPacket "SSH channel message has the wrong recipient")
      parseFields message bytes
    else parseFields message bytes

/-! ### The channel -/

/-- A packet to the server's channel. -/
inductive Outbound where
  | windowAdjust (amount : Nat)
  | data (bytes : Bytes)
  | channelMessage (message : UInt8)
  deriving DecidableEq

structure Channel where
  remoteWindow : Nat
  remoteMaxPacket : Nat
  localWindow : Nat
  pending : Bytes
  pendingOffset : Nat
  receivedBytes : Nat
  exitStatus : Option Nat
  eof : Bool
  closed : Bool
  eofSent : Bool
  closeSent : Bool
  /-- What has been written to the stream. -/
  sent : List Outbound
  deriving DecidableEq

/-- The stream: which write fails, given those before, and with which errors. -/
structure Stream where
  writable : List Outbound → Bool
  writeError : IoError
  readError : IoError
  /-- `String::from_utf8_lossy` -/
  lossy : Bytes → String

def Channel.new (remoteWindow remoteMaxPacket : Nat) : Except IoError Channel := do
  require (remoteMaxPacket ≠ 0) (invalidPacket "SSH server channel packet limit is zero")
  pure ⟨remoteWindow, min remoteMaxPacket channelMaxPacket, channelWindow, [], 0, 0, none, false, false, false, false,
    []⟩

variable (stream : Stream)

def writePacket (c : Channel) (packet : Outbound) : Except IoError Channel := do
  require (stream.writable c.sent = true) stream.writeError
  pure { c with sent := c.sent ++ [packet] }

def finishWriting (c : Channel) : Except IoError Channel :=
  if c.eofSent = false ∧ c.closed = false then do
    let c ← writePacket stream c (.channelMessage 96)
    pure { c with eofSent := true }
  else pure c

def sendClose (c : Channel) : Except IoError Channel :=
  if c.closeSent = false then do
    let c ← writePacket stream c (.channelMessage 97)
    pure { c with closeSent := true }
  else pure c

def creditLocalWindow (c : Channel) (amount : Nat) : Except IoError Channel :=
  if amount = 0 ∨ c.closed = true then pure c
  else do
    require (amount < 2 ^ 32) (invalidPacket "SSH channel read length overflows uint32")
    require (c.localWindow + amount < 2 ^ 32) (invalidPacket "SSH local channel window overflows")
    writePacket stream { c with localWindow := c.localWindow + amount } (.windowAdjust amount)

/-- Takes data off the window. -/
def acceptData (c : Channel) (data : Bytes) : Except IoError Channel := do
  require (¬ (c.eof = true ∨ c.localWindow < data.length ∨ channelMaxPacket < data.length))
    (invalidPacket "SSH channel data exceeds its window or follows EOF")
  pure { c with localWindow := c.localWindow - data.length }

def applyMessage (c : Channel) : Message → Except IoError Channel
  | .data bytes => do
    let c ← acceptData c bytes
    pure { c with pending := c.pending ++ bytes }
  | .extendedData bytes => do
    let c ← acceptData c bytes
    creditLocalWindow stream c bytes.length
  | .windowAdjust adjustment => do
    require (c.remoteWindow + adjustment < 2 ^ 32) (invalidPacket "SSH remote channel window overflows")
    pure { c with remoteWindow := c.remoteWindow + adjustment }
  | .eof => do
    require (c.eof = false) (invalidPacket "SSH channel sent duplicate EOF")
    pure { c with eof := true }
  | .close => sendClose stream { c with eof := true, closed := true }
  | .exitStatus wantReply status => do
    require (¬ (wantReply = true ∨ c.exitStatus.isSome = true))
      (invalidPacket "SSH exit status is repeated or requests a reply")
    require (status = 0) (.other, "SSH git-upload-pack exited with status " ++ toString status)
    pure { c with exitStatus := some status }
  | .exitSignal wantReply signal => do
    require (¬ (wantReply = true ∨ c.exitStatus.isSome = true))
      (invalidPacket "SSH exit signal is repeated or requests a reply")
    .error (.other, "SSH git-upload-pack terminated by signal " ++ stream.lossy signal)
  | .request wantReply => if wantReply then writePacket stream c (.channelMessage 100) else pure c
  | .disconnect => .error (.connectionAborted, "SSH server disconnected during Git transfer")
  | .ignored => pure c

def receivePacket (c : Channel) (payload : Bytes) : Except IoError Channel := do
  require (c.receivedBytes + payload.length ≤ maxResponseBytes)
    (invalidPacket "SSH channel traffic exceeds size limit")
  let message ← parseMessage payload
  applyMessage stream { c with receivedBytes := c.receivedBytes + payload.length } message

/-! ### Calls

The packets that the server will still send stand beside the channel; when there are none left,
reading one fails. -/

/-- `wait_for_remote_window` -/
def waitForRemoteWindow : List Bytes → Channel → Except IoError (List Bytes × Channel)
  | inbound, c =>
    if c.remoteWindow = 0 ∧ c.closed = false then
      match inbound with
      | [] => .error stream.readError
      | payload :: inbound => do
        let c ← receivePacket stream c payload
        waitForRemoteWindow inbound c
    else if c.closed = true then
      .error (.brokenPipe, "SSH server closed the channel while awaiting window space")
    else pure (inbound, c)

/-- The loop of `read`: until there is something to return or the channel is closed. -/
def fillPending : List Bytes → Channel → Except IoError (List Bytes × Channel)
  | inbound, c =>
    if c.pendingOffset = c.pending.length then
      if c.closed = true then pure (inbound, { c with pending := [], pendingOffset := 0 })
      else match inbound with
        | [] => .error stream.readError
        | payload :: inbound => do
          let c ← receivePacket stream { c with pending := [], pendingOffset := 0 } payload
          fillPending inbound c
    else pure (inbound, c)

inductive Call where
  | read (length : Nat)
  | write (input : Bytes)
  | finishWriting

structure System where
  inbound : List Bytes
  channel : Channel
  deriving DecidableEq

/-- The bytes returned. A channel closed with nothing pending returns none. -/
def read (length : Nat) (s : System) : Except IoError (System × Bytes) :=
  if length = 0 then pure (s, [])
  else do
    let (inbound, c) ← fillPending stream s.inbound s.channel
    let amount := min length (c.pending.length - c.pendingOffset)
    let c' ← creditLocalWindow stream { c with pendingOffset := c.pendingOffset + amount } amount
    pure (⟨inbound, c'⟩, (c.pending.drop c.pendingOffset).take amount)

def write (input : Bytes) (s : System) : Except IoError System :=
  if input = [] then pure s
  else do
    require (¬ (s.channel.eofSent = true ∨ s.channel.closed = true)) (.brokenPipe, "SSH channel write side is closed")
    let (inbound, c) ← waitForRemoteWindow stream s.inbound s.channel
    let amount := min (min input.length c.remoteMaxPacket) c.remoteWindow
    let c ← writePacket stream c (.data (input.take amount))
    pure ⟨inbound, { c with remoteWindow := c.remoteWindow - amount }⟩

/-- A call and the bytes it returned. -/
def call (s : System) : Call → Except IoError (System × Bytes)
  | .read length => read stream length s
  | .write input => do
    let s ← write stream input s
    pure (s, [])
  | .finishWriting => do
    let c ← finishWriting stream s.channel
    pure (⟨s.inbound, c⟩, [])

/-- Calls in turn and all bytes returned; the first error ends the run. -/
def run : List Call → System → Except IoError (System × Bytes)
  | [], s => pure (s, [])
  | first :: calls, s => do
    let (s, bytes) ← call stream s first
    let (s, more) ← run calls s
    pure (s, bytes ++ more)

/-! ### What is respected -/

def dataOf (payload : Bytes) : Bytes :=
  match parseMessage payload with
  | .ok (.data bytes) => bytes
  | _ => []

def grantOf (payload : Bytes) : Nat :=
  match parseMessage payload with
  | .ok (.windowAdjust amount) => amount
  | _ => 0

/-- The server has ended its data, by an EOF or by closing. -/
def EndsData (payload : Bytes) : Prop := parseMessage payload = .ok .eof ∨ parseMessage payload = .ok .close

/-- A packet of data, of either kind. -/
def CarriesData (payload : Bytes) : Prop :=
  ∃ bytes, parseMessage payload = .ok (.data bytes) ∨ parseMessage payload = .ok (.extendedData bytes)

def sentData : Outbound → Bytes
  | .data bytes => bytes
  | _ => []

/-- What holds of a channel opened with a window and a packet size, when these packets have been
received and these bytes returned. -/
structure Respects (window maxPacket : Nat) (received : List Bytes) (returned : Bytes) (c : Channel) :
    Prop where
  offset_le : c.pendingOffset ≤ c.pending.length
  /-- Until close, the local window and the unread bytes make up the window advertised. -/
  advertised : c.closed = false → c.localWindow + (c.pending.length - c.pendingOffset) = channelWindow
  /-- What was returned and what is unread is what was received. -/
  delivered : returned ++ c.pending.drop c.pendingOffset = received.flatMap dataOf
  /-- What was sent and what may still be sent is what was granted. -/
  granted : (c.sent.flatMap sentData).length + c.remoteWindow = window + (received.map grantOf).sum
  maxPacket_le : c.remoteMaxPacket ≤ maxPacket
  packet_le : ∀ packet ∈ c.sent, (sentData packet).length ≤ maxPacket
  ended : c.eof = false → ∀ payload ∈ received, ¬ EndsData payload
  quiet : ∀ before payload after, received = before ++ payload :: after → EndsData payload →
    ∀ later ∈ after, ¬ CarriesData later

variable {stream} {window maxPacket : Nat} {received : List Bytes} {returned : Bytes} {c c' : Channel}

theorem Respects.new (h : Channel.new window maxPacket = .ok c) : Respects window maxPacket [] [] c := by
  obtain ⟨_, -, h⟩ := bind_eq_ok.mp h
  obtain rfl := pure_eq_ok.mp h
  exact ⟨Nat.le_refl _, fun _ => rfl, rfl, by simp, min_le_left .., nofun, nofun, by simp⟩

theorem writePacket_eq_ok {packet : Outbound} (h : writePacket stream c packet = .ok c') :
    c' = { c with sent := c.sent ++ [packet] } := by
  obtain ⟨_, -, h⟩ := bind_eq_ok.mp h
  exact (pure_eq_ok.mp h).symm

section

variable (h : Respects window maxPacket received returned c)
include h

/-- What is respected does not mention the rest of the channel. -/
theorem Respects.update (receivedBytes : Nat) (exitStatus : Option Nat) (eofSent closeSent : Bool) :
    Respects window maxPacket received returned
      { c with receivedBytes := receivedBytes, exitStatus := exitStatus, eofSent := eofSent, closeSent := closeSent } :=
  ⟨h.offset_le, h.advertised, h.delivered, h.granted, h.maxPacket_le, h.packet_le, h.ended, h.quiet⟩

/-- The end of data, and with it perhaps of the channel. -/
theorem Respects.ending {closed : Bool} (hclosed : closed = false → c.closed = false) :
    Respects window maxPacket received returned { c with eof := true, closed := closed } :=
  ⟨h.offset_le, fun hopen => h.advertised (hclosed hopen), h.delivered, h.granted, h.maxPacket_le, h.packet_le, nofun,
    h.quiet⟩

/-- Writing a packet without data touches nothing that is respected. -/
theorem Respects.writePacket {packet : Outbound}
    (hpacket : sentData packet = []) (hwrite : writePacket stream c packet = .ok c') :
    Respects window maxPacket received returned c' := by
  obtain rfl := writePacket_eq_ok hwrite
  refine ⟨h.offset_le, h.advertised, h.delivered, ?_, h.maxPacket_le, ?_, h.ended, h.quiet⟩
  · simpa [flatMap_append, hpacket] using h.granted
  · intro other hother
    rcases mem_append.mp hother with hother | hother
    · exact h.packet_le other hother
    · rw [mem_singleton.mp hother, hpacket]
      exact Nat.zero_le _

end

theorem creditLocalWindow_eq_ok {amount : Nat} (h : creditLocalWindow stream c amount = .ok c') :
    ((amount = 0 ∨ c.closed = true) ∧ c' = c) ∨
      (c.closed = false ∧ writePacket stream { c with localWindow := c.localWindow + amount } (.windowAdjust amount) =
        .ok c') := by
  rw [creditLocalWindow] at h
  split at h
  · next hnone => exact .inl ⟨hnone, (pure_eq_ok.mp h).symm⟩
  · next hsome =>
    obtain ⟨_, -, h⟩ := bind_eq_ok.mp h
    obtain ⟨_, -, h⟩ := bind_eq_ok.mp h
    exact .inr ⟨Bool.eq_false_iff.mpr fun hclosed => hsome (.inr hclosed), h⟩

/-- Data is only accepted before the end, and comes off the window. -/
theorem acceptData_eq_ok {data : Bytes} (h : acceptData c data = .ok c') :
    c.eof = false ∧ data.length ≤ c.localWindow ∧ c' = { c with localWindow := c.localWindow - data.length } := by
  obtain ⟨_, hfits, h⟩ := bind_eq_ok.mp h
  simp only [require_eq_ok, not_or, Bool.not_eq_true, Nat.not_lt] at hfits
  exact ⟨hfits.1, hfits.2.1, (pure_eq_ok.mp h).symm⟩

variable {payload : Bytes}

theorem Respects.quiet_concat (h : Respects window maxPacket received returned c)
    (hdata : CarriesData payload → c.eof = false) {before after : List Bytes} {ending : Bytes}
    (heq : received ++ [payload] = before ++ ending :: after) (hends : EndsData ending) :
    ∀ later ∈ after, ¬ CarriesData later := by
  rcases eq_nil_or_concat after with rfl | ⟨rest, last, rfl⟩
  · exact fun _ hmem => absurd hmem not_mem_nil
  · rw [concat_eq_append, ← cons_append, ← append_assoc] at heq
    obtain ⟨hreceived, hlast⟩ := append_inj' heq rfl
    obtain rfl := singleton_inj.mp hlast
    intro later hmem
    rw [concat_eq_append] at hmem
    rcases mem_append.mp hmem with hmem | hmem
    · exact h.quiet before ending rest hreceived hends later hmem
    · rw [mem_singleton.mp hmem]
      exact fun hcarries => h.ended (hdata hcarries) ending (by rw [hreceived]; simp) hends

theorem Respects.ended_concat (h : Respects window maxPacket received returned c)
    (hends : EndsData payload → c.eof = true) (heof : c.eof = false) :
    ∀ other ∈ received ++ [payload], ¬ EndsData other := by
  intro other hother hend
  rcases mem_append.mp hother with hother | hother
  · exact h.ended heof other hother hend
  · rw [hends (mem_singleton.mp hother ▸ hend)] at heof
    cases heof

/-- A packet that changes no window, no data and no end of data. -/
theorem Respects.extend (h : Respects window maxPacket received returned c)
    (hdata : dataOf payload = []) (hgrant : grantOf payload = 0)
    (hcarries : CarriesData payload → c.eof = false) (hends : EndsData payload → c.eof = true) :
    Respects window maxPacket (received ++ [payload]) returned c where
  offset_le := h.offset_le
  advertised := h.advertised
  delivered := by rw [h.delivered, flatMap_append]; simp [hdata]
  granted := by rw [h.granted]; simp [hgrant]
  maxPacket_le := h.maxPacket_le
  packet_le := h.packet_le
  ended := h.ended_concat hends
  quiet := fun _ _ _ heq => h.quiet_concat hcarries heq

variable {bytes : Bytes}

section

variable (h : Respects window maxPacket received returned c)
include h

theorem Respects.data
    (hparse : parseMessage payload = .ok (.data bytes)) (heof : c.eof = false) (hfits : bytes.length ≤ c.localWindow) :
    Respects window maxPacket (received ++ [payload]) returned
      { c with localWindow := c.localWindow - bytes.length, pending := c.pending ++ bytes } where
  offset_le := by
    have := h.offset_le
    simp only [length_append]
    omega
  advertised := fun hopen => by
    have := h.advertised hopen
    have := h.offset_le
    simp only [length_append]
    omega
  delivered := by
    have hdata : dataOf payload = bytes := by rw [dataOf, hparse]
    simp only [drop_append_of_le_length h.offset_le, ← append_assoc, h.delivered, flatMap_append]
    simp [hdata]
  granted := by
    have hgrant : grantOf payload = 0 := by rw [grantOf, hparse]
    simpa [hgrant] using h.granted
  maxPacket_le := h.maxPacket_le
  packet_le := h.packet_le
  ended := h.ended_concat (by simp [EndsData, hparse])
  quiet := fun _ _ _ heq => h.quiet_concat (fun _ => heof) heq

theorem Respects.windowAdjust {amount : Nat} (hparse : parseMessage payload = .ok (.windowAdjust amount)) :
    Respects window maxPacket (received ++ [payload]) returned { c with remoteWindow := c.remoteWindow + amount } where
  offset_le := h.offset_le
  advertised := h.advertised
  delivered := by
    have hdata : dataOf payload = [] := by rw [dataOf, hparse]
    simpa [hdata] using h.delivered
  granted := by
    have hgrant : grantOf payload = amount := by rw [grantOf, hparse]
    have := h.granted
    simp only [map_append, map_cons, map_nil, sum_append, sum_singleton, hgrant]
    omega
  maxPacket_le := h.maxPacket_le
  packet_le := h.packet_le
  ended := h.ended_concat (by simp [EndsData, hparse])
  quiet := fun _ _ _ heq => h.quiet_concat (fun ⟨_, hcarries⟩ => by simp [hparse] at hcarries) heq

theorem Respects.sendClose
    (hsend : sendClose stream c = .ok c') : Respects window maxPacket received returned c' ∧ c'.eof = c.eof := by
  rw [Ssh.sendClose] at hsend
  split at hsend
  · obtain ⟨written, hwrite, hsend⟩ := bind_eq_ok.mp hsend
    obtain rfl := pure_eq_ok.mp hsend
    exact ⟨(h.writePacket rfl hwrite).update _ _ _ _, by rw [writePacket_eq_ok hwrite]⟩
  · obtain rfl := pure_eq_ok.mp hsend
    exact ⟨h, rfl⟩

/-- One packet, whatever it says. -/
theorem Respects.applyMessage (hopen : c.closed = false) {message : Message}
    (hparse : parseMessage payload = .ok message)
    (happly : applyMessage stream c message = .ok c') :
    Respects window maxPacket (received ++ [payload]) returned c' := by
  cases message with
  | data bytes =>
    obtain ⟨accepted, haccept, happly⟩ := bind_eq_ok.mp happly
    obtain ⟨heof, hfits, rfl⟩ := acceptData_eq_ok haccept
    obtain rfl := pure_eq_ok.mp happly
    exact h.data hparse heof hfits
  | extendedData bytes =>
    obtain ⟨accepted, haccept, happly⟩ := bind_eq_ok.mp happly
    obtain ⟨heof, hfits, rfl⟩ := acceptData_eq_ok haccept
    -- what the data took off the window is credited at once
    have hsame : Respects window maxPacket received returned c' := by
      rcases creditLocalWindow_eq_ok happly with ⟨hnone | hclosed, rfl⟩ | ⟨-, hwrite⟩
      · rw [hnone]
        exact h
      · rw [hopen] at hclosed
        cases hclosed
      · rw [show c.localWindow - bytes.length + bytes.length = c.localWindow from Nat.sub_add_cancel hfits] at hwrite
        exact h.writePacket rfl hwrite
    have hkept : c'.eof = false := by
      rcases creditLocalWindow_eq_ok happly with ⟨-, rfl⟩ | ⟨-, hwrite⟩
      · exact heof
      · rw [writePacket_eq_ok hwrite]
        exact heof
    exact hsame.extend (by rw [dataOf, hparse]) (by rw [grantOf, hparse]) (fun _ => hkept)
      (by simp [EndsData, hparse])
  | windowAdjust amount =>
    obtain ⟨_, -, happly⟩ := bind_eq_ok.mp happly
    obtain rfl := pure_eq_ok.mp happly
    exact h.windowAdjust hparse
  | eof =>
    obtain ⟨_, -, happly⟩ := bind_eq_ok.mp happly
    obtain rfl := pure_eq_ok.mp happly
    exact (h.ending fun _ => hopen).extend (by rw [dataOf, hparse]) (by rw [grantOf, hparse])
      (by simp [CarriesData, hparse]) (fun _ => rfl)
  | close =>
    have hclosed : Respects window maxPacket received returned { c with eof := true, closed := true } := h.ending nofun
    obtain ⟨hsent, heof⟩ := hclosed.sendClose happly
    exact hsent.extend (by rw [dataOf, hparse]) (by rw [grantOf, hparse]) (by simp [CarriesData, hparse])
      (fun _ => heof)
  | exitStatus wantReply status =>
    obtain ⟨_, -, happly⟩ := bind_eq_ok.mp happly
    obtain ⟨_, -, happly⟩ := bind_eq_ok.mp happly
    obtain rfl := pure_eq_ok.mp happly
    exact (h.update _ _ _ _).extend (by rw [dataOf, hparse]) (by rw [grantOf, hparse])
      (by simp [CarriesData, hparse]) (by simp [EndsData, hparse])
  | exitSignal wantReply signal =>
    obtain ⟨_, -, happly⟩ := bind_eq_ok.mp happly
    cases happly
  | request wantReply =>
    have hsame : Respects window maxPacket received returned c' := by
      cases wantReply with
      | false => exact pure_eq_ok.mp happly ▸ h
      | true => exact h.writePacket rfl happly
    exact hsame.extend (by rw [dataOf, hparse]) (by rw [grantOf, hparse]) (by simp [CarriesData, hparse])
      (by simp [EndsData, hparse])
  | disconnect => cases happly
  | ignored =>
    obtain rfl := pure_eq_ok.mp happly
    exact h.extend (by rw [dataOf, hparse]) (by rw [grantOf, hparse]) (by simp [CarriesData, hparse])
      (by simp [EndsData, hparse])

theorem Respects.receivePacket (hopen : c.closed = false) (hreceive : receivePacket stream c payload = .ok c') :
    Respects window maxPacket (received ++ [payload]) returned c' := by
  obtain ⟨_, -, hreceive⟩ := bind_eq_ok.mp hreceive
  obtain ⟨message, hparse, happly⟩ := bind_eq_ok.mp hreceive
  have hcounted := h.update (c.receivedBytes + payload.length) c.exitStatus c.eofSent c.closeSent
  exact hcounted.applyMessage hopen hparse happly

end

/-! ### Runs -/

variable {inbound inbound' : List Bytes}

section

variable (h : Respects window maxPacket received returned c)
include h

/-- The loops receive the packets in front. -/
theorem Respects.waitForRemoteWindow (hwait : waitForRemoteWindow stream inbound c = .ok (inbound', c')) :
    ∃ taken, inbound = taken ++ inbound' ∧ Respects window maxPacket (received ++ taken) returned c' := by
  induction inbound generalizing received c with
  | nil =>
    rw [Ssh.waitForRemoteWindow] at hwait
    split at hwait
    · cases hwait
    · split at hwait
      · cases hwait
      · cases hwait
        exact ⟨[], rfl, by rwa [append_nil]⟩
  | cons payload inbound ih =>
    rw [Ssh.waitForRemoteWindow] at hwait
    split at hwait
    · next hblocked =>
      obtain ⟨between, hreceive, hwait⟩ := bind_eq_ok.mp hwait
      obtain ⟨taken, rfl, hrest⟩ := ih (h.receivePacket hblocked.2 hreceive) hwait
      exact ⟨payload :: taken, rfl, by rwa [append_assoc] at hrest⟩
    · split at hwait
      · cases hwait
      · cases hwait
        exact ⟨[], rfl, by rwa [append_nil]⟩

/-- Nothing is unread, so the buffer may be emptied. -/
theorem Respects.clear (hempty : c.pendingOffset = c.pending.length) :
    Respects window maxPacket received returned { c with pending := [], pendingOffset := 0 } where
  offset_le := Nat.le_refl _
  advertised := fun hopen => by
    have := h.advertised hopen
    simp only [length_nil]
    omega
  delivered := by
    have := h.delivered
    rwa [hempty, drop_length] at this
  granted := h.granted
  maxPacket_le := h.maxPacket_le
  packet_le := h.packet_le
  ended := h.ended
  quiet := h.quiet

theorem Respects.fillPending (hfill : fillPending stream inbound c = .ok (inbound', c')) :
    ∃ taken, inbound = taken ++ inbound' ∧ Respects window maxPacket (received ++ taken) returned c' := by
  induction inbound generalizing received c with
  | nil =>
    rw [Ssh.fillPending] at hfill
    split at hfill
    · next hempty =>
      split at hfill
      · cases hfill
        exact ⟨[], rfl, by simpa using h.clear hempty⟩
      · cases hfill
    · cases hfill
      exact ⟨[], rfl, by rwa [append_nil]⟩
  | cons payload inbound ih =>
    rw [Ssh.fillPending] at hfill
    split at hfill
    · next hempty =>
      split at hfill
      · cases hfill
        exact ⟨[], rfl, by simpa using h.clear hempty⟩
      · next hclosed =>
        obtain ⟨between, hreceive, hfill⟩ := bind_eq_ok.mp hfill
        obtain ⟨taken, rfl, hrest⟩ := ih ((h.clear hempty).receivePacket (Bool.eq_false_iff.mpr hclosed) hreceive) hfill
        exact ⟨payload :: taken, rfl, by rwa [append_assoc] at hrest⟩
    · cases hfill
      exact ⟨[], rfl, by rwa [append_nil]⟩

/-- Bytes returned move from the unread ones to the returned ones, and their room is credited. -/
theorem Respects.take {amount : Nat} (hamount : amount ≤ c.pending.length - c.pendingOffset)
    (hcredit : creditLocalWindow stream { c with pendingOffset := c.pendingOffset + amount } amount = .ok c') :
    Respects window maxPacket received (returned ++ (c.pending.drop c.pendingOffset).take amount) c' := by
  have hoffset := h.offset_le
  have hdelivered : (returned ++ (c.pending.drop c.pendingOffset).take amount) ++
      c.pending.drop (c.pendingOffset + amount) = received.flatMap dataOf := by
    rw [← h.delivered, append_assoc, ← drop_drop, take_append_drop]
  rcases creditLocalWindow_eq_ok hcredit with ⟨hnone, rfl⟩ | ⟨hopen, hwrite⟩
  · refine ⟨by simp only; omega, fun hopen => ?_, hdelivered, h.granted, h.maxPacket_le, h.packet_le, h.ended, h.quiet⟩
    have hzero : amount = 0 := hnone.resolve_right fun hclosed => by
      rw [show c.closed = false from hopen] at hclosed
      cases hclosed
    rw [hzero]
    exact h.advertised hopen
  · have htaken : Respects window maxPacket received (returned ++ (c.pending.drop c.pendingOffset).take amount)
        { c with pendingOffset := c.pendingOffset + amount, localWindow := c.localWindow + amount } := by
      refine ⟨by simp only; omega, fun _ => ?_, hdelivered, h.granted, h.maxPacket_le, h.packet_le, h.ended, h.quiet⟩
      have := h.advertised hopen
      simp only
      omega
    exact htaken.writePacket rfl hwrite

theorem Respects.sendData (hfits : bytes.length ≤ c.remoteWindow) (hpacket : bytes.length ≤ c.remoteMaxPacket)
    (hwrite : Ssh.writePacket stream c (.data bytes) = .ok c') :
    Respects window maxPacket received returned { c' with remoteWindow := c'.remoteWindow - bytes.length } := by
  obtain rfl := writePacket_eq_ok hwrite
  refine ⟨h.offset_le, h.advertised, h.delivered, ?_, h.maxPacket_le, fun packet hmem => ?_, h.ended, h.quiet⟩
  · have := h.granted
    simp only [flatMap_append, length_append, flatMap_cons, flatMap_nil, append_nil, sentData]
    omega
  · rcases mem_append.mp hmem with hmem | hmem
    · exact h.packet_le packet hmem
    · rw [mem_singleton.mp hmem]
      exact hpacket.trans h.maxPacket_le

theorem Respects.finishWriting (hfinish : finishWriting stream c = .ok c') :
    Respects window maxPacket received returned c' := by
  rw [Ssh.finishWriting] at hfinish
  split at hfinish
  · obtain ⟨written, hwrite, hfinish⟩ := bind_eq_ok.mp hfinish
    obtain rfl := pure_eq_ok.mp hfinish
    exact (h.writePacket rfl hwrite).update _ _ _ _
  · exact pure_eq_ok.mp hfinish ▸ h

end

/-- A call takes packets from the front of those that are left, and returns bytes. -/
def Served (window maxPacket : Nat) (received : List Bytes) (returned : Bytes) (s s' : System) : Prop :=
  ∃ taken, s.inbound = taken ++ s'.inbound ∧ Respects window maxPacket (received ++ taken) returned s'.channel

section

variable {s s' : System} (h : Respects window maxPacket received returned s.channel)
include h

theorem Respects.served : Served window maxPacket received returned s s :=
  ⟨[], rfl, by rwa [append_nil]⟩

theorem Respects.read {length : Nat} (hread : read stream length s = .ok (s', bytes)) :
    Served window maxPacket received (returned ++ bytes) s s' := by
  rw [Ssh.read] at hread
  split at hread
  · cases hread
    rw [append_nil]
    exact h.served
  · obtain ⟨⟨inbound, c⟩, hfill, hread⟩ := bind_eq_ok.mp hread
    obtain ⟨c', hcredit, hread⟩ := bind_eq_ok.mp hread
    obtain ⟨taken, hinbound, hfilled⟩ := h.fillPending hfill
    cases hread
    exact ⟨taken, hinbound, hfilled.take (Nat.min_le_right ..) hcredit⟩

theorem Respects.write {input : Bytes} (hwrite : write stream input s = .ok s') :
    Served window maxPacket received returned s s' := by
  rw [Ssh.write] at hwrite
  split at hwrite
  · cases hwrite
    exact h.served
  · obtain ⟨_, -, hwrite⟩ := bind_eq_ok.mp hwrite
    obtain ⟨⟨inbound, c⟩, hwait, hwrite⟩ := bind_eq_ok.mp hwrite
    obtain ⟨c', hsend, hwrite⟩ := bind_eq_ok.mp hwrite
    obtain ⟨taken, hinbound, hwaited⟩ := h.waitForRemoteWindow hwait
    cases hwrite
    have hlength : (input.take (min (min input.length c.remoteMaxPacket) c.remoteWindow)).length =
        min (min input.length c.remoteMaxPacket) c.remoteWindow := by
      rw [length_take]
      omega
    have hsent := hwaited.sendData (by omega) (by omega) hsend
    rw [hlength] at hsent
    exact ⟨taken, hinbound, hsent⟩

theorem Respects.call {one : Call} (hcall : call stream s one = .ok (s', bytes)) :
    Served window maxPacket received (returned ++ bytes) s s' := by
  cases one with
  | read length => exact h.read hcall
  | write input =>
    obtain ⟨s', hwrite, hcall⟩ := bind_eq_ok.mp hcall
    cases hcall
    rw [append_nil]
    exact h.write hwrite
  | finishWriting =>
    obtain ⟨c', hfinish, hcall⟩ := bind_eq_ok.mp hcall
    cases hcall
    exact ⟨[], rfl, by simpa using h.finishWriting hfinish⟩

theorem Respects.run {calls : List Call} (hrun : run stream calls s = .ok (s', bytes)) :
    Served window maxPacket received (returned ++ bytes) s s' := by
  induction calls generalizing s received returned bytes with
  | nil =>
    cases hrun
    rw [append_nil]
    exact h.served
  | cons one calls ih =>
    obtain ⟨⟨between, first⟩, hcall, hrun⟩ := bind_eq_ok.mp hrun
    obtain ⟨⟨last, more⟩, hrest, hrun⟩ := bind_eq_ok.mp hrun
    cases hrun
    obtain ⟨taken, hinbound, hbetween⟩ := h.call hcall
    obtain ⟨later, hlater, hlast⟩ := ih hbetween hrest
    exact ⟨taken ++ later, by rw [hinbound, hlater, append_assoc], by simpa using hlast⟩

end

/-- **Flow control is respected.** After any calls that met no error, with whatever the server
sent, on any stream. -/
theorem run_respects (stream : Stream) (remoteWindow remoteMaxPacket : Nat) (inbound : List (List UInt8))
    (calls : List Call) (c : Channel) (s : System) (returned : List UInt8)
    (hnew : Channel.new remoteWindow remoteMaxPacket = .ok c)
    (hrun : run stream calls ⟨inbound, c⟩ = .ok (s, returned)) :
    ∃ received, inbound = received ++ s.inbound ∧
      -- the window advertised
      (s.channel.closed = false →
        s.channel.localWindow + (s.channel.pending.length - s.channel.pendingOffset) = channelWindow) ∧
      -- what the reads returned
      returned <+: received.flatMap dataOf ∧
      -- what was sent, in all and packet by packet
      (s.channel.sent.flatMap sentData).length ≤ remoteWindow + (received.map grantOf).sum ∧
      (∀ packet ∈ s.channel.sent, (sentData packet).length ≤ remoteMaxPacket) ∧
      -- no data after the end of data
      ∀ before payload after, received = before ++ payload :: after → EndsData payload →
        ∀ later ∈ after, ¬ CarriesData later := by
  obtain ⟨received, hinbound, h⟩ := (Respects.new hnew).run hrun
  rw [nil_append, nil_append] at h
  refine ⟨received, hinbound, h.advertised, ⟨_, h.delivered⟩, ?_, h.packet_le, h.quiet⟩
  have := h.granted
  omega

/-- A data packet with one byte, read, and a byte written. -/
theorem run_respects_one_byte :
    ∃ received, [[94, 0, 0, 0, 0, 0, 0, 0, 1, 7]] = received ++ ([] : List (List UInt8)) ∧
      [7] <+: received.flatMap dataOf := by
  have hrun : run ⟨fun _ => true, (.other, ""), (.other, ""), fun _ => ""⟩ [.read 5, .write [1]]
      ⟨[[94, 0, 0, 0, 0, 0, 0, 0, 1, 7]], ⟨1, 9, channelWindow, [], 0, 0, none, false, false, false, false, []⟩⟩ =
        .ok (⟨[], ⟨0, 9, channelWindow, [7], 1, 10, none, false, false, false, false,
          [.windowAdjust 1, .data [1]]⟩⟩, [7]) := by decide +kernel
  obtain ⟨received, hinbound, -, hreturned, -⟩ := run_respects _ 1 9 _ _ _ _ _ rfl hrun
  exact ⟨received, hinbound, hreturned⟩

end Nia.Git.Ssh
