import Nia.Git.Wire

/-! Framing of HTTP responses.

A chunked body is a list of chunks, a chunk of size zero and a trailer section. `Chunked` is that
grammar, with a bound on the length of a chunk's header line and of the trailer section;
`decodeChunkedBodyWithLimit` accepts exactly the bodies of the grammar whose data and whose text
stay within their limits (`decodeChunked_eq_ok`). A response is accepted under one framing only:
chunked, a content length, or neither, when its body is all that follows (`FramedAs`). -/
namespace Nia.Git.Http

open Nia.Lib.Checks List

def maxHttpHeaderBytes : Nat := 64 * 1024

/-- The largest `usize` of so many bits. -/
def usizeMax (bits : Nat) : Nat := 2 ^ bits - 1

def saturatingAdd (bits a b : Nat) : Nat := min (a + b) (usizeMax bits)

def crlf : Bytes := [13, 10]

/-- The bytes before the first line end and those after it. -/
def splitLine : Bytes → Option (Bytes × Bytes)
  | 13 :: 10 :: rest => some ([], rest)
  | byte :: rest => (splitLine rest).map fun (line, rest) => (byte :: line, rest)
  | [] => none

/-- A control byte other than the tab. -/
def isControl (byte : UInt8) : Bool := (byte < 0x20 && byte != 9) || byte == 0x7f

def isAsciiDigit (byte : UInt8) : Bool := 48 ≤ byte && byte ≤ 57

def isAsciiAlpha (byte : UInt8) : Bool := (65 ≤ byte && byte ≤ 90) || (97 ≤ byte && byte ≤ 122)

/-- A letter, a digit or one of the marks of a field name. -/
def isToken (byte : UInt8) : Bool :=
  isAsciiAlpha byte || isAsciiDigit byte ||
    [33, 35, 36, 37, 38, 39, 42, 43, 45, 46, 94, 95, 96, 124, 126].contains byte

def isUtf8 (bytes : Bytes) : Bool := (String.fromUTF8? ⟨bytes.toArray⟩).isSome

def isBlank (byte : UInt8) : Bool := byte == 32 || byte == 9

/-- Name and value, the value without blanks around it. -/
def parseHttpField (line : Bytes) : Except IoError (Bytes × Bytes) := do
  require (58 ∈ line) (invalidPacket "Git HTTP header field is malformed")
  let name := line.takeWhile (· ≠ 58)
  let value := (line.dropWhile (· ≠ 58)).tail
  require (name ≠ [] ∧ (∀ byte ∈ name, isToken byte = true) ∧ ∀ byte ∈ value, isControl byte = false)
    (invalidPacket "Git HTTP header field is malformed")
  pure (name, (value.dropWhile isBlank).rdropWhile isBlank)

def contentLength : Bytes := "content-length".toUTF8.toList

def transferEncoding : Bytes := "transfer-encoding".toUTF8.toList

/-! ### Chunks -/

def isHexDigit (byte : UInt8) : Bool :=
  isAsciiDigit byte || (65 ≤ byte && byte ≤ 70) || (97 ≤ byte && byte ≤ 102)

def hexDigitValue (byte : UInt8) : Nat :=
  if byte ≤ 57 then byte.toNat - 48 else if byte ≤ 70 then byte.toNat - 55 else byte.toNat - 87

def hexValue (digits : Bytes) : Nat := digits.foldl (fun value digit => value * 16 + hexDigitValue digit) 0

/-- The loop over trailer lines, with the bytes of the section so far. Each round takes a line end,
so that the bytes left bound the rounds. -/
def decodeTrailers : Nat → Nat → Bytes → Except IoError Unit
  | 0, _, _ => .error (invalidPacket "Git HTTP trailers are truncated")
  | fuel + 1, consumed, input =>
    match splitLine input with
    | none => .error (invalidPacket "Git HTTP trailers are truncated")
    | some (line, rest) => do
      require (consumed + line.length + 2 ≤ maxHttpHeaderBytes) (invalidPacket "Git HTTP trailers exceed size limit")
      if line = [] then require (rest = []) (invalidPacket "Git HTTP chunked body has trailing data")
      else do
        require (isUtf8 line = true) (invalidPacket "Git HTTP trailer is not UTF-8")
        let (name, _) ← parseHttpField line
        require (name.map asciiLower ≠ contentLength ∧ name.map asciiLower ≠ transferEncoding)
          (invalidPacket "Git HTTP trailer contains a framing field")
        decodeTrailers fuel (consumed + line.length + 2) rest

/-- The size in a chunk's header line. -/
def parseChunkHeader (bits : Nat) (line : Bytes) : Except IoError Nat := do
  require (line.length + 2 ≤ maxHttpHeaderBytes) (invalidPacket "Git HTTP chunk header exceeds size limit")
  require (∀ byte ∈ line, isControl byte = false) (invalidPacket "Git HTTP chunk header is invalid")
  let sizeText := line.takeWhile (· ≠ 59)
  require (sizeText ≠ [] ∧ ∀ digit ∈ sizeText, isHexDigit digit = true) (invalidPacket "Git HTTP chunk size is invalid")
  require (hexValue sizeText ≤ usizeMax bits) (invalidPacket "Git HTTP chunk size is invalid")
  pure (hexValue sizeText)

/-- The loop over chunks. -/
def decodeChunks (bits limit : Nat) : Nat → Bytes → Bytes → Except IoError Bytes
  | 0, _, _ => .error (invalidPacket "Git HTTP chunk header is truncated")
  | fuel + 1, input, output =>
    match splitLine input with
    | none => .error (invalidPacket "Git HTTP chunk header is truncated")
    | some (line, input) => do
      let size ← parseChunkHeader bits line
      if size = 0 then do
        decodeTrailers (input.length + 1) 0 input
        pure output
      else do
        require (size + 2 ≤ usizeMax bits) (invalidPacket "Git HTTP chunk size overflows")
        require (size + 2 ≤ input.length ∧ (input.drop size).take 2 = crlf)
          (invalidPacket "Git HTTP chunk is truncated")
        require (size ≤ limit - output.length) (invalidPacket "Git HTTP response exceeds size limit")
        decodeChunks bits limit fuel (input.drop (size + 2)) (output ++ input.take size)

def decodeChunkedBodyWithLimit (bits : Nat) (input : Bytes) (limit : Nat) : Except IoError Bytes := do
  require (input.length ≤ saturatingAdd bits limit maxHttpHeaderBytes)
    (invalidPacket "Git HTTP response exceeds size limit")
  decodeChunks bits limit (input.length + 1) input []

/-! ### The grammar -/

/-- Digits of the size, and an extension after a semicolon. -/
structure ChunkHeader (max : Nat) (line : Bytes) (size : Nat) : Prop where
  short : line.length + 2 ≤ max
  clean : ∀ byte ∈ line, isControl byte = false
  sized : ∃ digits extension, line = digits ++ extension ∧ digits ≠ [] ∧ (∀ digit ∈ digits, isHexDigit digit = true) ∧
    hexValue digits = size ∧ (extension = [] ∨ extension.head? = some 59)

/-- A field line that says nothing about framing. -/
structure TrailerLine (line : Bytes) : Prop where
  utf8 : isUtf8 line = true
  field : ∃ name value, line = name ++ 58 :: value ∧ name ≠ [] ∧ (∀ byte ∈ name, isToken byte = true) ∧
    (∀ byte ∈ value, isControl byte = false) ∧ name.map asciiLower ≠ contentLength ∧
    name.map asciiLower ≠ transferEncoding

/-- Lines and an empty line, and nothing after it. -/
def TrailerSection (max : Nat) (text : Bytes) : Prop :=
  text.length ≤ max ∧ ∃ lines : List Bytes, text = lines.flatMap (· ++ crlf) ++ crlf ∧
    ∀ line ∈ lines, TrailerLine line

/-- A chunked body and its data. -/
inductive Chunked (max : Nat) : Bytes → Bytes → Prop where
  | last {line trailers : Bytes} (header : ChunkHeader max line 0) (section_ : TrailerSection max trailers) :
    Chunked max (line ++ crlf ++ trailers) []
  | chunk {line data rest out : Bytes} (header : ChunkHeader max line data.length) (data_ne : data ≠ [])
    (more : Chunked max rest out) : Chunked max (line ++ crlf ++ data ++ crlf ++ rest) (data ++ out)

variable {input line rest : Bytes}

theorem splitLine_eq_some (h : splitLine input = some (line, rest)) : input = line ++ crlf ++ rest := by
  fun_induction splitLine input generalizing line rest with
  | case1 rest' => cases h; rfl
  | case2 byte rest' _ ih =>
    obtain ⟨⟨line', rest''⟩, hsplit, heq⟩ := Option.map_eq_some_iff.mp h
    cases heq
    rw [ih hsplit]
    rfl
  | case3 => cases h

theorem splitLine_append (hline : 13 ∉ line) (rest : Bytes) :
    splitLine (line ++ crlf ++ rest) = some (line, rest) := by
  induction line with
  | nil => rfl
  | cons byte line ih =>
    obtain ⟨hbyte, hline⟩ := not_or.mp (mem_cons.not.mp hline)
    rw [cons_append, cons_append, splitLine, ih hline]
    · rfl
    · rintro rest' rfl
      exact absurd rfl hbyte

/-- Bytes before a separator that are none of it are what stands before the first one. -/
theorem takeWhile_append_of_head {separator : UInt8} {front back : Bytes} (hfront : separator ∉ front)
    (hback : back = [] ∨ back.head? = some separator) :
    (front ++ back).takeWhile (· ≠ separator) = front := by
  have hkeep : ∀ byte ∈ front, decide (byte ≠ separator) = true := fun byte hbyte =>
    decide_eq_true fun h => hfront (h ▸ hbyte)
  rw [takeWhile_append_of_pos hkeep]
  rcases hback with rfl | hback
  · simp
  · obtain ⟨rest, rfl⟩ := List.head?_eq_some_iff.mp hback
    simp

theorem head_dropWhile (separator : UInt8) (line : Bytes) :
    line.dropWhile (· ≠ separator) = [] ∨ (line.dropWhile (· ≠ separator)).head? = some separator := by
  have h := List.head?_dropWhile_not (· ≠ separator) line
  cases hrest : line.dropWhile (· ≠ separator) with
  | nil => exact .inl rfl
  | cons byte rest =>
    rw [hrest] at h
    simp only [List.head?_cons, decide_eq_false_iff_not, not_not] at h
    exact .inr (by rw [List.head?_cons, h])

theorem notMem_of_forall {separator : UInt8} {bytes : Bytes} {p : UInt8 → Bool} (h : ∀ byte ∈ bytes, p byte = true)
    (hseparator : p separator = false) : separator ∉ bytes := fun hmem => by
  rw [h _ hmem] at hseparator
  cases hseparator

theorem carriageReturn_notMem (h : ∀ byte ∈ line, isControl byte = false) : 13 ∉ line := fun hmem =>
  absurd (h 13 hmem) (by decide)

theorem parseChunkHeader_eq_ok {bits size : Nat} :
    parseChunkHeader bits line = .ok size ↔ ChunkHeader maxHttpHeaderBytes line size ∧ size ≤ usizeMax bits := by
  simp only [parseChunkHeader, bind_eq_ok, require_eq_ok, pure_eq_ok, exists_and_left, exists_const]
  constructor
  · rintro ⟨hshort, hclean, ⟨hne, hdigits⟩, hsize, rfl⟩
    exact ⟨⟨hshort, hclean, _, _, takeWhile_append_dropWhile.symm, hne, hdigits, rfl, head_dropWhile _ line⟩,
      hsize⟩
  · rintro ⟨⟨hshort, hclean, digits, extension, rfl, hne, hdigits, hvalue, hextension⟩, hsize⟩
    have htext := takeWhile_append_of_head (notMem_of_forall hdigits (by decide)) hextension
    rw [htext]
    exact ⟨hshort, hclean, ⟨hne, hdigits⟩, hvalue ▸ hsize, hvalue⟩

theorem parseHttpField_eq_ok {name value : Bytes} (h : parseHttpField line = .ok (name, value)) :
    ∃ text, line = name ++ 58 :: text ∧ name ≠ [] ∧ (∀ byte ∈ name, isToken byte = true) ∧
      (∀ byte ∈ text, isControl byte = false) ∧ value = (text.dropWhile isBlank).rdropWhile isBlank := by
  simp only [parseHttpField, bind_eq_ok, require_eq_ok, pure_eq_ok, exists_and_left, exists_const, Prod.mk.injEq] at h
  obtain ⟨hcolon, ⟨hne, hname, hvalue⟩, rfl, rfl⟩ := h
  refine ⟨_, ?_, hne, hname, hvalue, rfl⟩
  conv_lhs => rw [← takeWhile_append_dropWhile (p := (· ≠ 58)) (l := line)]
  rcases head_dropWhile 58 line with hnone | hsome
  · have := dropWhile_eq_nil_iff.mp hnone 58 hcolon
    simp at this
  · obtain ⟨rest, hrest⟩ := List.head?_eq_some_iff.mp hsome
    rw [hrest, tail_cons]

theorem parseHttpField_append {name text : Bytes} (hne : name ≠ []) (hname : ∀ byte ∈ name, isToken byte = true)
    (htext : ∀ byte ∈ text, isControl byte = false) :
    parseHttpField (name ++ 58 :: text) = .ok (name, (text.dropWhile isBlank).rdropWhile isBlank) := by
  have hcolon : 58 ∉ name := notMem_of_forall hname (by decide)
  have htake : (name ++ 58 :: text).takeWhile (· ≠ 58) = name := takeWhile_append_of_head hcolon (.inr rfl)
  have hdrop : (name ++ 58 :: text).dropWhile (· ≠ 58) = 58 :: text := by
    have := takeWhile_append_dropWhile (p := (· ≠ 58)) (l := name ++ 58 :: text)
    rw [htake] at this
    exact append_cancel_left this
  simp only [parseHttpField, bind_eq_ok, require_eq_ok, pure_eq_ok, exists_and_left, exists_const, htake, hdrop,
    tail_cons]
  exact ⟨by simp, ⟨hne, hname, htext⟩, trivial⟩

theorem TrailerLine.carriageReturn_notMem (h : TrailerLine line) : 13 ∉ line := by
  obtain ⟨name, value, rfl, -, hname, hvalue, -⟩ := h.field
  intro hmem
  rcases mem_append.mp hmem with hmem | hmem
  · exact notMem_of_forall hname (by decide) hmem
  · rcases mem_cons.mp hmem with heq | hmem
    · exact absurd heq (by decide)
    · exact Http.carriageReturn_notMem hvalue hmem

theorem decodeTrailers_eq_ok {fuel consumed : Nat} (hconsumed : consumed ≤ maxHttpHeaderBytes)
    (hfuel : input.length < fuel) :
    decodeTrailers fuel consumed input = .ok () ↔ TrailerSection (maxHttpHeaderBytes - consumed) input := by
  induction fuel generalizing consumed input with
  | zero => exact absurd hfuel (Nat.not_lt_zero _)
  | succ fuel ih =>
    constructor
    · intro h
      rw [decodeTrailers] at h
      split at h
      · cases h
      · next line rest hsplit =>
        obtain rfl := splitLine_eq_some hsplit
        obtain ⟨_, hshort, h⟩ := bind_eq_ok.mp h
        rw [require_eq_ok] at hshort
        split at h
        · next hline =>
          obtain rfl := require_eq_ok.mp h
          subst hline
          exact ⟨by simpa [crlf] using Nat.le_sub_of_add_le' hshort, [], rfl, nofun⟩
        · obtain ⟨_, hutf8, h⟩ := bind_eq_ok.mp h
          obtain ⟨⟨name, value⟩, hfield, h⟩ := bind_eq_ok.mp h
          obtain ⟨_, hframing, h⟩ := bind_eq_ok.mp h
          obtain ⟨text, rfl, hne, hname, htext, -⟩ := parseHttpField_eq_ok hfield
          rw [require_eq_ok] at hutf8 hframing
          have hrest : rest.length < fuel := by
            simp only [length_append, crlf, length_cons, length_nil] at hfuel
            omega
          obtain ⟨hlength, lines, rfl, hlines⟩ := (ih hshort hrest).mp h
          refine ⟨?_, (name ++ 58 :: text) :: lines, ?_, ?_⟩
          · simp only [length_append, crlf, length_cons, length_nil] at hlength hshort ⊢
            omega
          · simp only [flatMap_cons, append_assoc]
          · exact forall_mem_cons.mpr ⟨⟨hutf8, name, text, rfl, hne, hname, htext, hframing⟩, hlines⟩
    · rintro ⟨hlength, lines, rfl, hlines⟩
      rw [decodeTrailers]
      cases lines with
      | nil =>
        have hsplit : splitLine (List.flatMap (· ++ crlf) [] ++ crlf) = some ([], []) := rfl
        rw [hsplit]
        refine bind_eq_ok.mpr ⟨(), require_eq_ok.mpr ?_, require_eq_ok.mpr rfl⟩
        simp only [flatMap_nil, nil_append, crlf, length_cons, length_nil] at hlength ⊢
        omega
      | cons line lines =>
        obtain ⟨hline, hothers⟩ := forall_mem_cons.mp hlines
        rw [flatMap_cons, append_assoc] at hlength hfuel ⊢
        rw [splitLine_append hline.carriageReturn_notMem]
        simp only [length_append, crlf, length_cons, length_nil] at hlength hfuel
        refine bind_eq_ok.mpr ⟨(), require_eq_ok.mpr (by omega), ?_⟩
        obtain ⟨name, value, rfl, hne, hname, hvalue, hframing⟩ := hline.field
        rw [if_neg (by simp)]
        refine bind_eq_ok.mpr ⟨(), require_eq_ok.mpr hline.utf8,
          bind_eq_ok.mpr ⟨_, parseHttpField_append hne hname hvalue,
            bind_eq_ok.mpr ⟨(), require_eq_ok.mpr hframing, ?_⟩⟩⟩
        refine (ih (by omega) ?_).mpr ⟨?_, lines, rfl, hothers⟩
        · simp only [length_append, crlf, length_cons, length_nil] at hfuel ⊢
          omega
        · simp only [length_append, crlf, length_cons, length_nil] at hlength ⊢
          omega

theorem ChunkHeader.splitLine {max size : Nat} (h : ChunkHeader max line size) (rest : Bytes) :
    splitLine (line ++ crlf ++ rest) = some (line, rest) :=
  splitLine_append (carriageReturn_notMem h.clean) rest

theorem chunked_of_decodeChunks {bits limit fuel : Nat} {output out : Bytes}
    (h : decodeChunks bits limit fuel input output = .ok out) (houtput : output.length ≤ limit) :
    ∃ body, out = output ++ body ∧ Chunked maxHttpHeaderBytes input body ∧ out.length ≤ limit := by
  induction fuel generalizing input output with
  | zero => cases h
  | succ fuel ih =>
    rw [decodeChunks] at h
    split at h
    · cases h
    · next line rest hsplit =>
      obtain rfl := splitLine_eq_some hsplit
      obtain ⟨size, hsize, h⟩ := bind_eq_ok.mp h
      obtain ⟨hheader, -⟩ := parseChunkHeader_eq_ok.mp hsize
      split at h
      · next hzero =>
        subst hzero
        obtain ⟨_, htrailers, h⟩ := bind_eq_ok.mp h
        obtain rfl := pure_eq_ok.mp h
        have hsection := (decodeTrailers_eq_ok (Nat.zero_le _) (Nat.lt_succ_self _)).mp htrailers
        exact ⟨[], (append_nil _).symm, .last hheader hsection, houtput⟩
      · next hsome =>
        obtain ⟨_, -, h⟩ := bind_eq_ok.mp h
        obtain ⟨_, hend, h⟩ := bind_eq_ok.mp h
        obtain ⟨_, hfits, h⟩ := bind_eq_ok.mp h
        rw [require_eq_ok] at hend hfits
        have hlength : (rest.take size).length = size := length_take_of_le (by omega)
        obtain ⟨body, rfl, hmore, hlimit⟩ := ih h (by rw [length_append, hlength]; omega)
        refine ⟨rest.take size ++ body, append_assoc .., ?_, hlimit⟩
        -- the rest is the data, a line end and what follows
        have hrest : rest.take size ++ crlf ++ rest.drop (size + 2) = rest := by
          rw [← hend.2, append_assoc, ← drop_drop, take_append_drop, take_append_drop]
        have hchunk := Chunked.chunk (hlength.symm ▸ hheader) (fun hnil => hsome (by rw [← hlength, hnil]; rfl)) hmore
        rwa [append_assoc (line ++ crlf ++ rest.take size), append_assoc (line ++ crlf),
          ← append_assoc (rest.take size), hrest] at hchunk

theorem decodeChunks_of_chunked {bits limit fuel : Nat} {output body : Bytes}
    (h : Chunked maxHttpHeaderBytes input body) (hfuel : input.length < fuel)
    (hlimit : output.length + body.length ≤ limit) (husize : input.length ≤ usizeMax bits) :
    decodeChunks bits limit fuel input output = .ok (output ++ body) := by
  induction h generalizing fuel output with
  | @last line trailers header section_ =>
    obtain ⟨fuel, rfl⟩ := Nat.exists_eq_succ_of_ne_zero (Nat.ne_zero_of_lt hfuel)
    rw [decodeChunks, header.splitLine, append_nil]
    refine bind_eq_ok.mpr ⟨0, parseChunkHeader_eq_ok.mpr ⟨header, Nat.zero_le _⟩, bind_eq_ok.mpr ⟨(), ?_, rfl⟩⟩
    exact (decodeTrailers_eq_ok (Nat.zero_le _) (Nat.lt_succ_self _)).mpr section_
  | @chunk line data rest body header data_ne more ih =>
    obtain ⟨fuel, rfl⟩ := Nat.exists_eq_succ_of_ne_zero (Nat.ne_zero_of_lt hfuel)
    rw [append_assoc (line ++ crlf ++ data), append_assoc (line ++ crlf)] at hfuel husize ⊢
    rw [decodeChunks, header.splitLine]
    simp only [length_append, crlf, length_cons, length_nil] at hfuel husize hlimit
    refine bind_eq_ok.mpr ⟨data.length, parseChunkHeader_eq_ok.mpr ⟨header, by omega⟩, ?_⟩
    have hnext : (data ++ (crlf ++ rest)).drop (data.length + 2) = rest := by
      rw [← drop_drop, drop_left]
      rfl
    rw [if_neg (by simpa using data_ne), hnext, take_left, drop_left, ← append_assoc]
    have hmore : decodeChunks bits limit fuel rest (output ++ data) = .ok (output ++ data ++ body) :=
      ih (by omega) (by rw [length_append]; omega) (by omega)
    refine bind_eq_ok.mpr ⟨(), require_eq_ok.mpr (by omega), bind_eq_ok.mpr ⟨(), require_eq_ok.mpr ⟨?_, rfl⟩,
      bind_eq_ok.mpr ⟨(), require_eq_ok.mpr (by omega), hmore.trans (by rw [append_assoc])⟩⟩⟩
    simp only [length_append, crlf, length_cons, length_nil]
    omega

/-- Chunked decoding accepts the grammar, within the limits. -/
theorem decodeChunked_eq_ok {bits limit : Nat} {out : Bytes} :
    decodeChunkedBodyWithLimit bits input limit = .ok out ↔
      Chunked maxHttpHeaderBytes input out ∧ out.length ≤ limit ∧
        input.length ≤ saturatingAdd bits limit maxHttpHeaderBytes := by
  constructor
  · intro h
    obtain ⟨_, hshort, h⟩ := bind_eq_ok.mp h
    obtain ⟨body, rfl, hbody, hlimit⟩ := chunked_of_decodeChunks h (Nat.zero_le _)
    exact ⟨hbody, hlimit, require_eq_ok.mp hshort⟩
  · rintro ⟨hbody, hlimit, hshort⟩
    refine bind_eq_ok.mpr ⟨(), require_eq_ok.mpr hshort, ?_⟩
    exact decodeChunks_of_chunked hbody (Nat.lt_succ_self _) (by simpa using hlimit) (hshort.trans (min_le_right ..))

/-! ### Responses -/

/-- The bytes before the first empty line and those after it. -/
def splitHeader : Bytes → Option (Bytes × Bytes)
  | 13 :: 10 :: 13 :: 10 :: rest => some ([], rest)
  | byte :: rest => (splitHeader rest).map fun (header, rest) => (byte :: header, rest)
  | [] => none

/-- `split("\r\n")` -/
def splitLines : Bytes → List Bytes
  | 13 :: 10 :: rest => [] :: splitLines rest
  | byte :: rest =>
    match splitLines rest with
    | line :: lines => (byte :: line) :: lines
    | [] => [[byte]]
  | [] => [[]]

def decimalValue (digits : Bytes) : Nat := digits.foldl (fun value digit => value * 10 + (digit.toNat - 48)) 0

/-- Version and code are the fields before the second space. -/
def parseHttpStatus (line : Bytes) : Except IoError Nat := do
  let malformed := invalidPacket "Git HTTP response status is malformed"
  require (∀ byte ∈ line, ¬ (byte < 0x20 ∨ byte = 0x7f)) malformed
  let version := line.takeWhile (· ≠ 32)
  let code := (line.dropWhile (· ≠ 32)).tail.takeWhile (· ≠ 32)
  require (32 ∈ line ∧ code.length = 3 ∧ ∀ byte ∈ code, isAsciiDigit byte = true) malformed
  require ((version = "HTTP/1.0".toUTF8.toList ∨ version = "HTTP/1.1".toUTF8.toList) ∧
    100 ≤ decimalValue code ∧ decimalValue code ≤ 599) malformed
  pure (decimalValue code)

/-- Whether a transfer encoding was read, and the content length. -/
abbrev Framing := Bool × Option Nat

def readField (bits : Nat) (framing : Framing) (line : Bytes) : Except IoError Framing := do
  let (name, value) ← parseHttpField line
  if name.map asciiLower = transferEncoding then do
    require (framing.1 = false ∧ value.map asciiLower = "chunked".toUTF8.toList)
      (invalidPacket "Git HTTP transfer encoding is unsupported or repeated")
    pure (true, framing.2)
  else if name.map asciiLower = contentLength then do
    require (framing.2 = none ∧ value ≠ [] ∧ ∀ byte ∈ value, isAsciiDigit byte = true)
      (invalidPacket "Git HTTP content length is malformed or repeated")
    require (decimalValue value ≤ usizeMax bits) (invalidPacket "Git HTTP content length is malformed")
    pure (framing.1, some (decimalValue value))
  else pure framing

/-- The body under the framing read. -/
def takeBody (bits : Nat) (framing : Framing) (body : Bytes) (limit : Nat) : Except IoError Bytes := do
  require (¬ (framing.1 = true ∧ framing.2.isSome = true))
    (invalidPacket "Git HTTP response has conflicting body framing")
  if framing.1 then decodeChunkedBodyWithLimit bits body limit
  else match framing.2 with
    | some length => do
      require (length ≤ limit) (invalidPacket "Git HTTP response exceeds size limit")
      require (body.length = length) (invalidPacket "Git HTTP body length does not match content length")
      pure (body.take length)
    | none => do
      require (body.length ≤ limit) (invalidPacket "Git HTTP response exceeds size limit")
      pure body

def parseHttpResponseWithLimit (bits : Nat) (response : Bytes) (limit : Nat) : Except IoError Bytes := do
  require (response.length ≤ saturatingAdd bits limit maxHttpHeaderBytes)
    (invalidPacket "Git HTTP response exceeds size limit")
  match splitHeader response with
  | none => .error (invalidPacket "Git HTTP response has no header terminator")
  | some (header, body) => do
    require (header.length + 4 ≤ maxHttpHeaderBytes) (invalidPacket "Git HTTP response headers exceed size limit")
    require (isUtf8 header = true) (invalidPacket "Git HTTP response headers are not UTF-8")
    let status ← parseHttpStatus ((splitLines header).headD [])
    require (200 ≤ status ∧ status < 300)
      (if status = 401 then .permissionDenied else .other, "Git HTTP server returned status " ++ toString status)
    let framing ← (splitLines header).tail.foldlM (readField bits) (false, none)
    takeBody bits framing body limit

/-- The values of the fields of one name, in any case. -/
def fieldsNamed (name : Bytes) (fields : List (Bytes × Bytes)) : List Bytes :=
  (fields.filter fun field => decide (field.1.map asciiLower = name)).map Prod.snd

/-- How the fields frame what follows the header, and the body that is in it. -/
inductive FramedAs (fields : List (Bytes × Bytes)) (rest : Bytes) : Bytes → Prop where
  | chunked {encoding body : Bytes} (encodings : fieldsNamed transferEncoding fields = [encoding])
    (is_chunked : encoding.map asciiLower = "chunked".toUTF8.toList) (lengths : fieldsNamed contentLength fields = [])
    (framed : Chunked maxHttpHeaderBytes rest body) : FramedAs fields rest body
  | sized {text : Bytes} (encodings : fieldsNamed transferEncoding fields = [])
    (lengths : fieldsNamed contentLength fields = [text]) (digits : ∀ byte ∈ text, isAsciiDigit byte = true)
    (size : decimalValue text = rest.length) : FramedAs fields rest rest
  | unframed (encodings : fieldsNamed transferEncoding fields = []) (lengths : fieldsNamed contentLength fields = []) :
    FramedAs fields rest rest

/-- What has been read of the framing says which fields there were. -/
structure FramingOf (fields : List (Bytes × Bytes)) (framing : Framing) : Prop where
  encoded : framing.1 = true → ∃ encoding, fieldsNamed transferEncoding fields = [encoding] ∧
    encoding.map asciiLower = "chunked".toUTF8.toList
  plain : framing.1 = false → fieldsNamed transferEncoding fields = []
  sized : ∀ length, framing.2 = some length → ∃ text, fieldsNamed contentLength fields = [text] ∧
    (∀ byte ∈ text, isAsciiDigit byte = true) ∧ decimalValue text = length
  unsized : framing.2 = none → fieldsNamed contentLength fields = []

theorem fieldsNamed_concat (name : Bytes) (fields : List (Bytes × Bytes))
    (field : Bytes × Bytes) :
    fieldsNamed name (fields ++ [field]) =
      fieldsNamed name fields ++ if field.1.map asciiLower = name then [field.2] else [] := by
  rw [fieldsNamed, filter_append, map_append, ← fieldsNamed]
  by_cases h : field.1.map asciiLower = name <;> simp [h]

variable {fields : List (Bytes × Bytes)} {framing framing' : Framing}

theorem FramingOf.readField {bits : Nat}
    (h : FramingOf fields framing) (hread : readField bits framing line = .ok framing') :
    ∃ field, parseHttpField line = .ok field ∧ FramingOf (fields ++ [field]) framing' := by
  have hnames : transferEncoding ≠ contentLength := by decide +kernel
  obtain ⟨⟨name, value⟩, hfield, hread⟩ := bind_eq_ok.mp hread
  refine ⟨_, hfield, ?_⟩
  simp only at hread
  split at hread
  · next hname =>
    obtain ⟨_, hchunked, hread⟩ := bind_eq_ok.mp hread
    obtain ⟨hfirst, hvalue⟩ := require_eq_ok.mp hchunked
    obtain rfl := pure_eq_ok.mp hread
    have hother : ¬ name.map asciiLower = contentLength := by rw [hname]; exact hnames
    refine ⟨fun _ => ⟨value, ?_, hvalue⟩, nofun, fun length hlength => ?_, fun hnone => ?_⟩
    · rw [fieldsNamed_concat, h.plain hfirst, if_pos hname, nil_append]
    · rw [fieldsNamed_concat, if_neg hother, append_nil]
      exact h.sized length hlength
    · rw [fieldsNamed_concat, if_neg hother, append_nil]
      exact h.unsized hnone
  · next hother =>
    have hplain : fieldsNamed transferEncoding (fields ++ [(name, value)]) = fieldsNamed transferEncoding fields := by
      rw [fieldsNamed_concat, if_neg hother, append_nil]
    split at hread
    · next hname =>
      obtain ⟨_, hdigits, hread⟩ := bind_eq_ok.mp hread
      obtain ⟨_, -, hread⟩ := bind_eq_ok.mp hread
      obtain ⟨hfirst, -, hdigits⟩ := require_eq_ok.mp hdigits
      obtain rfl := pure_eq_ok.mp hread
      refine ⟨hplain ▸ h.encoded, hplain ▸ h.plain, fun length hlength => ⟨value, ?_, hdigits, Option.some.inj hlength⟩,
        nofun⟩
      rw [fieldsNamed_concat, h.unsized hfirst, if_pos hname, nil_append]
    · next hneither =>
      obtain rfl := pure_eq_ok.mp hread
      have hunsized : fieldsNamed contentLength (fields ++ [(name, value)]) = fieldsNamed contentLength fields := by
        rw [fieldsNamed_concat, if_neg hneither, append_nil]
      exact ⟨hplain ▸ h.encoded, hplain ▸ h.plain, hunsized ▸ h.sized, hunsized ▸ h.unsized⟩

theorem FramingOf.foldlM {bits : Nat} {lines : List Bytes} (h : FramingOf fields framing)
    (hread : lines.foldlM (Http.readField bits) framing = .ok framing') :
    ∃ more, lines.mapM parseHttpField = .ok more ∧ FramingOf (fields ++ more) framing' := by
  induction lines generalizing fields framing with
  | nil =>
    obtain rfl := pure_eq_ok.mp hread
    exact ⟨[], rfl, by rwa [append_nil]⟩
  | cons line lines ih =>
    rw [foldlM_cons] at hread
    obtain ⟨between, hline, hread⟩ := bind_eq_ok.mp hread
    obtain ⟨field, hfield, hbetween⟩ := h.readField hline
    obtain ⟨more, hmore, hlast⟩ := ih hbetween hread
    refine ⟨field :: more, ?_, by rwa [append_assoc] at hlast⟩
    rw [mapM_cons]
    exact bind_eq_ok.mpr ⟨field, hfield, bind_eq_ok.mpr ⟨more, hmore, rfl⟩⟩

theorem FramingOf.takeBody {body : Bytes}
    {bits limit : Nat} (h : FramingOf fields framing) (hbody : takeBody bits framing rest limit = .ok body) :
    FramedAs fields rest body ∧ body.length ≤ limit := by
  obtain ⟨chunked, length⟩ := framing
  obtain ⟨_, hone, hbody⟩ := bind_eq_ok.mp hbody
  rw [require_eq_ok] at hone
  cases chunked with
  | true =>
    have hnone : length = none := by simpa using hone
    obtain ⟨encoding, hencoding, hchunked⟩ := h.encoded rfl
    obtain ⟨hframed, hlimit, -⟩ := decodeChunked_eq_ok.mp hbody
    exact ⟨.chunked hencoding hchunked (h.unsized hnone) hframed, hlimit⟩
  | false =>
    cases length with
    | some length =>
      obtain ⟨_, hlimit, hbody⟩ := bind_eq_ok.mp hbody
      obtain ⟨_, hlength, hbody⟩ := bind_eq_ok.mp hbody
      rw [require_eq_ok] at hlimit hlength
      obtain rfl := pure_eq_ok.mp hbody
      obtain ⟨text, htext, hdigits, hvalue⟩ := h.sized length rfl
      rw [take_of_length_le (Nat.le_of_eq hlength)]
      exact ⟨.sized (h.plain rfl) htext hdigits (hvalue.trans hlength.symm), hlength ▸ hlimit⟩
    | none =>
      obtain ⟨_, hlimit, hbody⟩ := bind_eq_ok.mp hbody
      obtain rfl := pure_eq_ok.mp hbody
      exact ⟨.unframed (h.plain rfl) (h.unsized rfl), require_eq_ok.mp hlimit⟩

theorem splitHeader_eq_some {response header : Bytes} (h : splitHeader response = some (header, rest)) :
    response = header ++ crlf ++ crlf ++ rest := by
  fun_induction splitHeader response generalizing header rest with
  | case1 rest' => cases h; rfl
  | case2 byte rest' _ ih =>
    obtain ⟨⟨header', rest''⟩, hsplit, heq⟩ := Option.map_eq_some_iff.mp h
    cases heq
    rw [ih hsplit]
    rfl
  | case3 => cases h

/-- **Bodies are framed exactly.** Chunked decoding accepts the chunked bodies within the limits and
returns their data; a response is only accepted under one framing, with all of what follows its
header as that framing has it. -/
theorem bodies_framed_exactly (bits : Nat) :
    (∀ input limit out, decodeChunkedBodyWithLimit bits input limit = .ok out ↔
      Chunked maxHttpHeaderBytes input out ∧ out.length ≤ limit ∧
        input.length ≤ saturatingAdd bits limit maxHttpHeaderBytes) ∧
    ∀ response limit body, parseHttpResponseWithLimit bits response limit = .ok body →
      ∃ header rest fields, response = header ++ crlf ++ crlf ++ rest ∧
        (splitLines header).tail.mapM parseHttpField = .ok fields ∧ FramedAs fields rest body ∧
        body.length ≤ limit := by
  refine ⟨fun input limit out => decodeChunked_eq_ok, fun response limit body h => ?_⟩
  obtain ⟨_, -, h⟩ := bind_eq_ok.mp h
  split at h
  · cases h
  · next header rest hsplit =>
    obtain ⟨_, -, h⟩ := bind_eq_ok.mp h
    obtain ⟨_, -, h⟩ := bind_eq_ok.mp h
    obtain ⟨status, -, h⟩ := bind_eq_ok.mp h
    obtain ⟨_, -, h⟩ := bind_eq_ok.mp h
    obtain ⟨framing, hfields, h⟩ := bind_eq_ok.mp h
    have hstart : FramingOf [] (false, none) := ⟨nofun, fun _ => rfl, nofun, fun _ => rfl⟩
    obtain ⟨fields, hparsed, hframing⟩ := hstart.foldlM hfields
    obtain ⟨hframed, hlimit⟩ := hframing.takeBody h
    exact ⟨header, rest, fields, splitHeader_eq_some hsplit, hparsed, hframed, hlimit⟩

/-- A last chunk with a long size is refused for its length, and a body without any framing is
accepted. -/
theorem long_size_is_refused :
    (Chunked 65538 (List.replicate 65536 48 ++ crlf ++ crlf) [] ∧
      decodeChunkedBodyWithLimit 64 (List.replicate 65536 48 ++ crlf ++ crlf) 0 ≠ .ok []) ∧
    parseHttpResponseWithLimit 64 ("HTTP/1.1 200 OK".toUTF8.toList ++ crlf ++ crlf ++ [120]) 1 = .ok [120] := by
  refine ⟨⟨?_, fun h => ?_⟩, ?_⟩
  · have hzero : ∀ n, hexValue (List.replicate n 48) = 0 := fun n => by
      induction n with
      | zero => rfl
      | succ n ih => rwa [replicate_succ, hexValue, foldl_cons]
    refine .last ⟨by rw [length_replicate], fun byte hbyte => ?_, _, [], (append_nil _).symm, ?_,
      fun digit hdigit => ?_, hzero _, .inl rfl⟩ ⟨by decide, [], rfl, nofun⟩
    · rw [eq_of_mem_replicate hbyte]
      decide
    · exact ne_nil_of_length_pos (by rw [length_replicate]; decide)
    · rw [eq_of_mem_replicate hdigit]
      decide
  · have hlength := (decodeChunked_eq_ok.mp h).2.2
    simp only [length_append, length_replicate] at hlength
    revert hlength
    decide
  · decide +kernel

end Nia.Git.Http
