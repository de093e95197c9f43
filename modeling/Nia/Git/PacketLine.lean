import Nia.Git.Wire

/-! Packet lines of the Git protocol.

A packet is four hexadecimal digits of its length, header included, and its payload; the lengths 0, 1 and 2
are packets of their own and 3 is reserved. `decodePacketLines` takes a whole input apart,
`readPacketSection` reads a stream up to the first flush packet. Both go packet by packet, and the second
accepts a part of what the first does, so that `packetLines_correct` is about one packet
(`decodePacket_data`) and two loops. -/
namespace Nia.Git

open List

/-! ### The code -/

def maxPacketPayload : Nat := 65516

def maxPacketSectionBytes : Nat := 16 * 1024 * 1024

inductive PacketLine where
  | data (payload : Bytes)
  | flush
  | delimiter
  | responseEnd
deriving DecidableEq

def hexDigit (byte : UInt8) : Except String Nat :=
  if 48 ≤ byte ∧ byte ≤ 57 then .ok (byte - 48).toNat
  else if 97 ≤ byte ∧ byte ≤ 102 then .ok (byte - 97 + 10).toNat
  else if 65 ≤ byte ∧ byte ≤ 70 then .ok (byte - 65 + 10).toNat
  else .error "invalid Git packet-line header"

def parseHexUsize (bytes : Bytes) : Except String Nat :=
  bytes.foldlM (fun value byte => (hexDigit byte).map fun digit => value <<< 4 ||| digit) 0

/-- One round of the loop of `decode_packet_lines`: a packet and what is behind it. -/
def decodePacket (input : Bytes) : Except String (PacketLine × Bytes) :=
  if input.length < 4 then .error "truncated Git packet-line header"
  else match parseHexUsize (input.take 4) with
    | .error error => .error error
    | .ok length =>
      let rest := input.drop (max length 4)
      if length = 0 then .ok (.flush, rest)
      else if length = 1 then .ok (.delimiter, rest)
      else if length = 2 then .ok (.responseEnd, rest)
      else if length = 3 then .error "reserved Git packet-line length"
      else if maxPacketPayload + 4 < length then .error "Git packet-line exceeds protocol limit"
      else if length < 4 ∨ input.length < length then .error "truncated Git packet-line payload"
      else .ok (.data ((input.take length).drop 4), rest)

variable {input rest : Bytes} {packet : PacketLine}

theorem decodePacket_rest (h : decodePacket input = .ok (packet, rest)) : rest.length < input.length := by
  rw [decodePacket] at h
  split at h
  · cases h
  rename_i hlength
  split at h
  · cases h
  rename_i length _
  have hdrop : (input.drop (max length 4)).length < input.length := by
    rw [length_drop]
    omega
  dsimp only at h
  split_ifs at h <;> cases h <;> exact hdrop

/-- The loop of `decode_packet_lines`, with the packets so far. -/
def decodePacketLinesFrom (input : Bytes) (packets : List PacketLine) : Except String (List PacketLine) :=
  if input.isEmpty then .ok packets
  else match _ : decodePacket input with
    | .error error => .error error
    | .ok (packet, rest) => decodePacketLinesFrom rest (packets ++ [packet])
termination_by input.length
decreasing_by exact decodePacket_rest ‹_›

def decodePacketLines (input : Bytes) : Except String (List PacketLine) := decodePacketLinesFrom input []

/-- A hexadecimal digit in lower case. -/
def hexByte (digit : Nat) : UInt8 := if digit < 10 then UInt8.ofNat (48 + digit) else UInt8.ofNat (87 + digit)

/-- `{length:04x}`: at least four digits. -/
def paddedHex (value : Nat) : Bytes :=
  let digits := (Nat.digits 16 value).reverse
  (List.replicate (4 - digits.length) 0 ++ digits).map hexByte

def encodePacketLine (payload output : Bytes) : Except String Bytes :=
  if maxPacketPayload < payload.length then .error "Git packet-line exceeds protocol limit"
  else .ok (output ++ paddedHex (payload.length + 4) ++ payload)

/-- `Read::read_exact` of so many bytes. -/
def readExact (stream : Bytes) (count : Nat) : Except String (Bytes × Bytes) :=
  if stream.length < count then .error "failed to fill whole buffer" else .ok (stream.take count, stream.drop count)

theorem readExact_eq {stream part : Bytes} {count : Nat} (h : readExact stream count = .ok (part, rest)) :
    stream = part ++ rest ∧ part.length = count := by
  rw [readExact] at h
  split at h
  · cases h
  · cases h
    exact ⟨(take_append_drop count stream).symm, by rw [length_take]; omega⟩

/-- The loop of `read_packet_section`, with the section so far. -/
def readPacketSectionFrom (stream part : Bytes) : Except String (Bytes × Bytes) :=
  match _ : readExact stream 4 with
  | .error error => .error error
  | .ok (header, behind) =>
    match parseHexUsize header with
    | .error error => .error error
    | .ok length =>
      if maxPacketSectionBytes - part.length < max length 4 then
        .error "Git packet-line section exceeds size limit"
      else if length = 0 then .ok (part ++ header, behind)
      else if ¬(4 ≤ length ∧ length ≤ maxPacketPayload + 4) then .error "Git packet-line exceeds protocol limit"
      else match _ : readExact behind (length - 4) with
        | .error error => .error error
        | .ok (payload, rest) => readPacketSectionFrom rest (part ++ header ++ payload)
termination_by stream.length
decreasing_by
  obtain ⟨rfl, hfour⟩ := readExact_eq ‹readExact stream 4 = _›
  obtain ⟨rfl, -⟩ := readExact_eq ‹readExact behind _ = _›
  rw [length_append, length_append]
  omega

/-- The section, and what is left of the stream. -/
def readPacketSection (stream : Bytes) : Except String (Bytes × Bytes) := readPacketSectionFrom stream []

/-! ### One packet -/

/-- A header of a length and as many bytes as it says are a data packet. -/
theorem decodePacket_data {header payload : Bytes} {length : Nat} (hheader : header.length = 4)
    (hparse : parseHexUsize header = .ok length) (hmin : 4 ≤ length) (hmax : length ≤ maxPacketPayload + 4)
    (hpayload : payload.length = length - 4) (rest : Bytes) :
    decodePacket (header ++ (payload ++ rest)) = .ok (.data payload, rest) := by
  have hlength : (header ++ payload).length = length := by rw [length_append]; omega
  have hwhole : header ++ (payload ++ rest) = header ++ payload ++ rest := (append_assoc ..).symm
  rw [decodePacket, take_left' hheader, hparse]
  dsimp only
  rw [if_neg (by rw [length_append]; omega), if_neg (by omega), if_neg (by omega), if_neg (by omega),
    if_neg (by omega), if_neg (by omega), if_neg (by rw [length_append, length_append]; omega),
    Nat.max_eq_left hmin, hwhole, take_left' hlength, drop_left' hlength, drop_left' hheader]

/-- A header alone is one of the other packets. -/
theorem decodePacket_control {header : Bytes} {length : Nat} (hheader : header.length = 4)
    (hparse : parseHexUsize header = .ok length)
    (hpacket : (length, packet) ∈ [(0, PacketLine.flush), (1, .delimiter), (2, .responseEnd)]) (rest : Bytes) :
    decodePacket (header ++ rest) = .ok (packet, rest) := by
  rw [decodePacket, if_neg (by rw [length_append]; omega), take_left' hheader, hparse]
  dsimp only
  simp only [mem_cons, Prod.mk.injEq, not_mem_nil, or_false] at hpacket
  obtain ⟨rfl, rfl⟩ | ⟨rfl, rfl⟩ | ⟨rfl, rfl⟩ := hpacket
  · rw [if_pos rfl, show max 0 4 = 4 from rfl, drop_left' hheader]
  · rw [if_neg (by decide), if_pos rfl, show max 1 4 = 4 from rfl, drop_left' hheader]
  · rw [if_neg (by decide), if_neg (by decide), if_pos rfl, show max 2 4 = 4 from rfl, drop_left' hheader]

theorem decodePacketLinesFrom_nil (packets : List PacketLine) : decodePacketLinesFrom [] packets = .ok packets := by
  rw [decodePacketLinesFrom]
  rfl

theorem decodePacketLinesFrom_packet (h : decodePacket input = .ok (packet, rest)) (packets : List PacketLine) :
    decodePacketLinesFrom input packets = decodePacketLinesFrom rest (packets ++ [packet]) := by
  have hsome : ¬input.isEmpty = true := by
    intro hempty
    rw [isEmpty_iff.mp hempty] at h
    exact absurd h nofun
  rw [decodePacketLinesFrom, if_neg hsome]
  split
  · rename_i herror
    rw [h] at herror
    cases herror
  · rename_i hok
    rw [h] at hok
    cases hok
    rfl

/-! ### Headers -/

theorem hexDigit_hexByte {digit : Nat} (h : digit < 16) : hexDigit (hexByte digit) = .ok digit := by
  interval_cases digit <;> rfl

theorem parseHexUsize_digits {digits : List Nat} (h : ∀ digit ∈ digits, digit < 16) :
    parseHexUsize (digits.map hexByte) = .ok (digits.foldl (fun value digit => value * 16 + digit) 0) := by
  have hloop : ∀ (digits : List Nat), (∀ digit ∈ digits, digit < 16) → ∀ value,
      (digits.map hexByte).foldlM (fun value byte => (hexDigit byte).map fun digit => value <<< 4 ||| digit) value =
        (.ok (digits.foldl (fun value digit => value * 16 + digit) value) : Except String Nat) := by
    intro digits
    induction digits with
    | nil => intro _ value; rfl
    | cons digit digits ih =>
      intro hdigits value
      have hdigit := hdigits digit mem_cons_self
      rw [map_cons, foldlM_cons, hexDigit_hexByte hdigit]
      refine (ih (fun other hother => hdigits other (.tail _ hother)) _).trans ?_
      dsimp only
      rw [foldl_cons, ← Nat.shiftLeft_add_eq_or_of_lt (show digit < 2 ^ 4 from hdigit), Nat.shiftLeft_eq]
  exact hloop digits h 0

theorem foldl_reverse_eq_ofDigits (digits : List Nat) :
    digits.reverse.foldl (fun value digit => value * 16 + digit) 0 = Nat.ofDigits 16 digits := by
  rw [foldl_reverse]
  induction digits with
  | nil => rfl
  | cons digit digits ih =>
    rw [foldr_cons, ih, Nat.ofDigits_cons]
    omega

theorem foldl_replicate_zero (count : Nat) :
    (List.replicate count 0).foldl (fun value digit => value * 16 + digit) 0 = 0 := by
  induction count with
  | zero => rfl
  | succ count ih => rw [replicate_succ, foldl_cons, ih]

theorem parse_paddedHex (value : Nat) : parseHexUsize (paddedHex value) = .ok value := by
  rw [paddedHex, parseHexUsize_digits]
  · rw [foldl_append, foldl_replicate_zero, foldl_reverse_eq_ofDigits, Nat.ofDigits_digits]
  · intro digit hdigit
    rcases mem_append.mp hdigit with hzero | hdigits
    · rw [eq_of_mem_replicate hzero]
      decide
    · exact Nat.digits_lt_base (by decide) (mem_reverse.mp hdigits)

theorem length_paddedHex {value : Nat} (h : value < 16 ^ 4) : (paddedHex value).length = 4 := by
  have hdigits : (Nat.digits 16 value).length ≤ 4 := (Nat.digits_length_le_iff (by decide) value).mpr h
  rw [paddedHex, length_map, length_append, length_replicate, length_reverse]
  omega

/-! ### All packets -/

namespace PacketLine

/-- A packet to the end of an output; the protocol's other packets have no function of their own. -/
def encode (output : Bytes) : PacketLine → Except String Bytes
  | data payload => encodePacketLine payload output
  | flush => .ok (output ++ [48, 48, 48, 48])
  | delimiter => .ok (output ++ [48, 48, 48, 49])
  | responseEnd => .ok (output ++ [48, 48, 48, 50])

/-- The payload is not too long for a packet. -/
def Fits : PacketLine → Prop
  | data payload => payload.length ≤ maxPacketPayload
  | _ => True

theorem encode_of_fits (h : packet.Fits) : ∃ wire, (∀ output, packet.encode output = .ok (output ++ wire)) ∧
      ∀ rest, decodePacket (wire ++ rest) = .ok (packet, rest) := by
  have hcontrol : ∀ (header : Bytes) (length : Nat), header.length = 4 → parseHexUsize header = .ok length →
      (length, packet) ∈ [(0, PacketLine.flush), (1, .delimiter), (2, .responseEnd)] →
        ∀ rest, decodePacket (header ++ rest) = .ok (packet, rest) :=
    fun header length hheader hparse hpacket => decodePacket_control hheader hparse hpacket
  cases packet with
  | data payload =>
    have hfits : payload.length ≤ maxPacketPayload := h
    have hmax : maxPacketPayload = 65516 := rfl
    refine ⟨paddedHex (payload.length + 4) ++ payload, fun output => ?_, fun rest => ?_⟩
    · rw [encode, encodePacketLine, if_neg (Nat.not_lt.mpr hfits), append_assoc]
    · rw [append_assoc]
      exact decodePacket_data (length_paddedHex (by omega)) (parse_paddedHex _) (Nat.le_add_left ..) (by omega)
        (Nat.add_sub_cancel ..).symm rest
  | flush => exact ⟨_, fun _ => rfl, hcontrol _ 0 rfl rfl (by decide)⟩
  | delimiter => exact ⟨_, fun _ => rfl, hcontrol _ 1 rfl rfl (by decide)⟩
  | responseEnd => exact ⟨_, fun _ => rfl, hcontrol _ 2 rfl rfl (by decide)⟩

end PacketLine

/-- Packets behind one another are decoded behind one another. -/
theorem decode_encoded {packets : List PacketLine} (h : ∀ packet ∈ packets, packet.Fits) :
    ∃ wire, (∀ output, packets.foldlM PacketLine.encode output = .ok (output ++ wire)) ∧
      ∀ done, decodePacketLinesFrom wire done = .ok (done ++ packets) := by
  induction packets with
  | nil =>
    refine ⟨[], fun output => ?_, fun done => ?_⟩
    · rw [append_nil]
      rfl
    · rw [append_nil, decodePacketLinesFrom_nil]
  | cons packet packets ih =>
    obtain ⟨first, hencode, hdecode⟩ := PacketLine.encode_of_fits (h packet mem_cons_self)
    obtain ⟨wire, hencodes, hdecodes⟩ := ih fun other hother => h other (.tail _ hother)
    refine ⟨first ++ wire, fun output => ?_, fun done => ?_⟩
    · rw [foldlM_cons, hencode, ← append_assoc]
      exact hencodes (output ++ first)
    · rw [decodePacketLinesFrom_packet (hdecode wire), hdecodes, append_assoc, singleton_append]

/-! ### Sections -/

/-- A section that is read is made of data packets and a flush, behind what was read before. -/
theorem readPacketSectionFrom_spec {stream part whole : Bytes}
    (h : readPacketSectionFrom stream part = .ok (whole, rest)) (hpart : part.length ≤ maxPacketSectionBytes) :
    ∃ (wire : Bytes) (payloads : List Bytes), whole = part ++ wire ∧ stream = wire ++ rest ∧
      whole.length ≤ maxPacketSectionBytes ∧
      ∀ done, decodePacketLinesFrom wire done = .ok (done ++ (payloads.map PacketLine.data ++ [.flush])) := by
  induction hsize : stream.length using Nat.strongRecOn generalizing stream part with
  | _ size ih =>
  rw [readPacketSectionFrom] at h
  split at h
  · cases h
  rename_i header behind hread
  obtain ⟨rfl, hheader⟩ := readExact_eq hread
  split at h
  · cases h
  rename_i length hparse
  split at h
  · cases h
  rename_i hlimit
  split at h
  · -- The flush ends the section.
    rename_i hzero
    cases h
    subst hzero
    refine ⟨header, [], rfl, rfl, by rw [length_append]; omega, fun done => ?_⟩
    have hflush : decodePacket (header ++ []) = .ok (.flush, []) :=
      decodePacket_control hheader hparse (by decide) []
    rw [append_nil] at hflush
    rw [decodePacketLinesFrom_packet hflush, decodePacketLinesFrom_nil]
    rfl
  split at h
  · cases h
  rename_i hrange
  obtain ⟨hmin, hmax⟩ := not_not.mp hrange
  split at h
  · cases h
  rename_i payload behind' hread'
  obtain ⟨rfl, hpayload⟩ := readExact_eq hread'
  have hlength : (part ++ header ++ payload).length ≤ maxPacketSectionBytes := by
    rw [length_append, length_append]
    omega
  have hshorter : behind'.length < size := by
    rw [← hsize, length_append, length_append]
    omega
  obtain ⟨wire, payloads, rfl, rfl, hwhole, hdecode⟩ := ih _ hshorter h hlength rfl
  refine ⟨header ++ (payload ++ wire), payload :: payloads, ?_, ?_, hwhole, fun done => ?_⟩
  · simp only [append_assoc]
  · simp only [append_assoc]
  · rw [decodePacketLinesFrom_packet (decodePacket_data hheader hparse hmin hmax hpayload wire), hdecode,
      append_assoc]
    rfl

/-- **Packet lines round-trip, and sections are read as they are decoded**: whatever is encoded is decoded, and what is
read of a stream is its beginning, of data packets up to one flush. -/
theorem packetLines_correct :
    (∀ packets : List PacketLine, (∀ payload, .data payload ∈ packets → payload.length ≤ maxPacketPayload) →
      ∃ wire, packets.foldlM PacketLine.encode [] = .ok wire ∧ decodePacketLines wire = .ok packets) ∧
    ∀ stream part rest, readPacketSection stream = .ok (part, rest) →
      stream = part ++ rest ∧ part.length ≤ maxPacketSectionBytes ∧
        ∃ payloads : List (List UInt8), decodePacketLines part = .ok (payloads.map PacketLine.data ++ [.flush]) := by
  refine ⟨fun packets hfits => ?_, fun stream part rest h => ?_⟩
  · have hall : ∀ packet ∈ packets, packet.Fits := by
      intro packet hpacket
      cases packet with
      | data payload => exact hfits payload hpacket
      | flush => trivial
      | delimiter => trivial
      | responseEnd => trivial
    obtain ⟨wire, hencode, hdecode⟩ := decode_encoded hall
    exact ⟨wire, hencode [], hdecode []⟩
  · obtain ⟨wire, payloads, rfl, hstream, hsize, hdecode⟩ := readPacketSectionFrom_spec h (Nat.zero_le _)
    exact ⟨hstream, hsize, payloads, hdecode []⟩

/-- `0006hi0000`, and a byte behind it. -/
theorem packetLines_hi :
    readPacketSection [48, 48, 48, 54, 104, 105, 48, 48, 48, 48, 33] =
      .ok ([48, 48, 48, 54, 104, 105, 48, 48, 48, 48], [33]) ∧
    (∃ payloads : List (List UInt8), decodePacketLines [48, 48, 48, 54, 104, 105, 48, 48, 48, 48] =
      .ok (payloads.map PacketLine.data ++ [.flush])) ∧
    ∃ wire, [PacketLine.data [104, 105], .flush].foldlM PacketLine.encode [] = .ok wire ∧
      decodePacketLines wire = .ok [.data [104, 105], .flush] := by
  have hread : readPacketSection [48, 48, 48, 54, 104, 105, 48, 48, 48, 48, 33] =
      .ok ([48, 48, 48, 54, 104, 105, 48, 48, 48, 48], [33]) := by decide +kernel
  refine ⟨hread, (packetLines_correct.2 _ _ _ hread).2.2, packetLines_correct.1 _ fun payload hmem => ?_⟩
  obtain rfl : payload = [104, 105] := by simpa using hmem
  decide

end Nia.Git
