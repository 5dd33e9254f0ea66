import Vakya.Http

/-!
# The body decoder (`decode.rs`)

`BodyDecoder.decode` is called with the retained input and reports how much of
it was consumed. Two scan offsets survive between calls, so that a line or a
trailer block which arrives in pieces is not scanned again from its start.
The reusable trailer workspace is storage only and is left out.
-/

namespace Vakya

inductive BodyMode
  | none
  | fixed (length : ℕ)
  | chunked
  | untilEof
deriving DecidableEq, Repr

/-- `usize` and `u64` hold the numbers below 2^64. -/
abbrev wordSize : ℕ := 18446744073709551616

theorem zero_lt_wordSize : 0 < wordSize := by decide

def checkedAdd (a b : ℕ) : Option ℕ := if a + b < wordSize then some (a + b) else none

def checkedMul (a b : ℕ) : Option ℕ := if a * b < wordSize then some (a * b) else none

/-- The constructor asserts the three positive bounds; the extension budget may be zero. -/
structure DecodeLimits where
  maxChunkLineBytes : ℕ
  maxChunkExtensionBytes : ℕ
  maxTrailerBytes : ℕ
  maxTrailers : ℕ
  chunkLine_pos : 0 < maxChunkLineBytes
  trailerBytes_pos : 0 < maxTrailerBytes
  trailers_pos : 0 < maxTrailers
  extension_lt : maxChunkExtensionBytes < wordSize

namespace DecodeLimits

def new (chunkLine trailerBytes trailers : ℕ) (hc : 0 < chunkLine) (hb : 0 < trailerBytes)
    (ht : 0 < trailers) : DecodeLimits :=
  ⟨chunkLine, 16 * 1024, trailerBytes, trailers, hc, hb, ht, by decide⟩

def default : DecodeLimits := new (8 * 1024) (16 * 1024) 32 (by decide) (by decide) (by decide)

end DecodeLimits

inductive DecodeLimit
  | chunkLineBytes
  | chunkExtensionBytes
  | trailerBytes
  | trailers
  | trailerMap
deriving DecidableEq, Repr

inductive DecodeError
  | unexpectedEof
  | invalidChunkSize
  | invalidChunkExtension
  | invalidChunkTerminator
  | invalidTrailer
  | forbiddenTrailer
  | limit (which : DecodeLimit)
deriving DecidableEq, Repr

/-- `data` carries the payload range `start..stop` of the input. -/
inductive DecodeOutcome
  | needMore (consumed : ℕ)
  | data (start stop consumed : ℕ)
  | trailers (trailers : Headers) (consumed : ℕ)
  | ended (consumed : ℕ)
deriving DecidableEq

def DecodeOutcome.consumed : DecodeOutcome → ℕ
  | .needMore consumed | .data _ _ consumed | .trailers _ consumed | .ended consumed => consumed

inductive ChunkState
  | size (scanned : ℕ)
  | data (remaining : ℕ)
  | dataCrlf
  | trailers (scanned : ℕ)
deriving DecidableEq, Repr

inductive DecoderState
  | empty
  | fixed (remaining : ℕ)
  | chunked (state : ChunkState)
  | untilEof
  | done
  | failed (error : DecodeError)
deriving DecidableEq, Repr

/-- The order in which the decoding loop visits chunk states within one call. -/
def ChunkState.rank : ChunkState → ℕ
  | .dataCrlf => 2
  | .size _ => 1
  | _ => 0

structure BodyDecoder where
  state : DecoderState
  limits : DecodeLimits
  extensionBytes : ℕ

def hex (b : UInt8) : Option ℕ :=
  if 48 ≤ b ∧ b ≤ 57 then some (b.toNat - 48)
  else if 97 ≤ b ∧ b ≤ 102 then some (b.toNat - 97 + 10)
  else if 65 ≤ b ∧ b ≤ 70 then some (b.toNat - 65 + 10)
  else none

def hexFold (size : ℕ) (digits : Bytes) : Option ℕ :=
  digits.foldlM (fun size digit => (checkedMul size 16).bind (checkedAdd · ((hex digit).getD 0))) size

/-- The length of an extension value that follows `=`. -/
def extensionValueLen (input : Bytes) : Option ℕ :=
  if input.head? = some DQUOTE then quotedStringLen input
  else
    let value := (input.takeWhile isTchar).length
    if value = 0 then none else some value

/-- The token at the front of the input is an extension name; what follows it, trimmed. -/
def extensionName (input : Bytes) : Option Bytes :=
  let name := (input.takeWhile isTchar).length
  if name = 0 then none else some (trimOws (input.drop name))

/-- An optional `=` and value; what follows, trimmed. -/
def extensionValue (input : Bytes) : Option Bytes :=
  if input.head? = some EQUALS then
    let input := trimOws input.tail
    (extensionValueLen input).map fun value => trimOws (input.drop value)
  else some input

/-- One turn of the loop in `validate_extensions`: the input left after one extension. -/
def extensionTurn (input : Bytes) : Option Bytes :=
  let input := trimOws input
  if input.head? ≠ some SEMICOLON then none
  else
    (extensionName (trimOws input.tail)).bind fun input =>
      (extensionValue input).bind fun input =>
        if input ≠ [] ∧ input.head? ≠ some SEMICOLON then none else some input

theorem length_extensionName {input rest : Bytes} (h : extensionName input = some rest) :
    rest.length ≤ input.length := by
  simp only [extensionName] at h
  split_ifs at h
  obtain rfl := Option.some.inj h
  exact (length_trimOws_le _).trans (by simp)

theorem length_extensionValue {input rest : Bytes} (h : extensionValue input = some rest) :
    rest.length ≤ input.length := by
  simp only [extensionValue] at h
  split_ifs at h
  · obtain ⟨value, -, rfl⟩ := Option.map_eq_some_iff.mp h
    have h1 := length_trimOws_le ((trimOws input.tail).drop value)
    have h2 := length_trimOws_le input.tail
    simp only [List.length_drop, List.length_tail] at h1 h2
    omega
  · rw [Option.some.inj h]

theorem length_extensionTurn {input rest : Bytes} (h : extensionTurn input = some rest) :
    rest.length < input.length := by
  simp only [extensionTurn] at h
  split_ifs at h with hs
  obtain ⟨a, ha, h⟩ := Option.bind_eq_some_iff.mp h
  obtain ⟨b, hb, h⟩ := Option.bind_eq_some_iff.mp h
  split_ifs at h
  obtain rfl := Option.some.inj h
  have h1 := length_extensionName ha
  have h2 := length_extensionValue hb
  have h3 := length_trimOws_le (trimOws input).tail
  have h4 := length_trimOws_le input
  cases ht : trimOws input with
  | nil => simp [ht] at hs
  | cons c cs =>
    simp only [ht, List.length_tail, List.length_cons] at h1 h3 h4
    omega

def validateExtensions (input : Bytes) : Except DecodeError Unit :=
  if input = [] then .ok ()
  else
    match extensionTurn input, @length_extensionTurn input with
    | none, _ => .error .invalidChunkExtension
    | some rest, shorter =>
      have := shorter rfl
      validateExtensions rest
termination_by input.length

def splitExtension (line : Bytes) : Bytes × Bytes :=
  (line.takeWhile (· != SEMICOLON), line.dropWhile (· != SEMICOLON))

/-- The free function `parse_chunk_line`: the size of a line without its CRLF. -/
def parseChunkLine (line : Bytes) : Except DecodeError ℕ :=
  let (size, extensions) := splitExtension line
  let sizeText := trimEnd size
  if sizeText = [] ∨ ¬ sizeText.all isAsciiHexdigit then .error .invalidChunkSize
  else
    match hexFold 0 sizeText with
    | none => .error .invalidChunkSize
    | some size =>
      match validateExtensions extensions with
      | .error e => .error e
      | .ok () => .ok size

/-- One turn of the loop in `own_headers`; the caller maps its failures to `invalidTrailer`. -/
def ownHeader (x : Crates) (owned : Headers) (header : RawHeader) : Except DecodeError Headers :=
  match x.headerName header.name, x.headerValue header.value with
  | some name, some value => .ok (owned.append name value)
  | _, _ => .error .invalidTrailer

def ownHeaders (x : Crates) (headers : List RawHeader) : Except DecodeError Headers :=
  if x.mapCapacity headers.length then headers.foldlM (ownHeader x) HeaderMap.empty
  else .error (.limit .trailerMap)

def forbiddenTrailers : List HeaderName :=
  [.transferEncoding, .contentLength, .host, .connection, .trailer, .te, .upgrade, .expect,
    .authorization, .proxyAuthorization, .proxyAuthenticate, .wwwAuthenticate, .contentEncoding,
    .contentType, .contentRange]

def validateTrailers (trailers : Headers) : Except DecodeError Unit :=
  if trailers.keys.any (forbiddenTrailers.contains ·) then .error .forbiddenTrailer else .ok ()

/-- The parse of a complete trailer block: bytes consumed and the owned map. -/
def parseTrailers (x : Crates) (slots : ℕ) (block : Bytes) : Except DecodeError (ℕ × Headers) :=
  match x.parseHeaders block slots with
  | .ok (.complete consumed headers) =>
    match ownHeaders x headers with
    | .error e => .error e
    | .ok trailers =>
      match validateTrailers trailers with
      | .error e => .error e
      | .ok () => .ok (consumed, trailers)
  | .ok .incomplete => .error .invalidTrailer
  | .error .tooManyHeaders => .error (.limit .trailers)
  | .error _ => .error .invalidTrailer

/-- Whether the newline at `index` closes an empty line. -/
def emptyLineAt (input : Bytes) (index : ℕ) : Bool :=
  input[index]? == some LF &&
    (index == 0 || (index == 1 && input[0]? == some CR) || input[index - 1]? == some LF ||
      (2 ≤ index && input[index - 2]? == some LF && input[index - 1]? == some CR))

inductive LineScan
  | line (index : ℕ)
  | invalid
  | unfinished
deriving DecidableEq, Repr

/-- The loop of `BodyDecoder::parse_chunk_line` from `index` on; `prev` is the byte before it. -/
def scanLine (prev : Option UInt8) (index : ℕ) : Bytes → LineScan
  | [] => .unfinished
  | b :: rest =>
    if b = LF then if prev = some CR then .line index else .invalid
    -- a CR that no newline follows
    else if prev = some CR then .invalid
    else scanLine (some b) (index + 1) rest

namespace BodyDecoder

def withLimits (mode : BodyMode) (limits : DecodeLimits) : BodyDecoder where
  state := match mode with
    | .none => .empty
    | .fixed remaining => .fixed remaining
    | .chunked => .chunked (.size 0)
    | .untilEof => .untilEof
  limits := limits
  extensionBytes := 0

def isComplete (d : BodyDecoder) : Bool :=
  match d.state with
  | .empty | .fixed 0 | .done => true
  | _ => false

def fail {A : Type} (d : BodyDecoder) (error : DecodeError) : BodyDecoder × Except DecodeError A :=
  ({ d with state := .failed error }, .error error)

def chargeExtensions (d : BodyDecoder) (line : Bytes) : Except DecodeError BodyDecoder :=
  match line.idxOf? SEMICOLON with
  | none => .ok d
  | some start =>
    match checkedAdd d.extensionBytes (line.length - start) with
    | none => .error (.limit .chunkExtensionBytes)
    | some total =>
      if total > d.limits.maxChunkExtensionBytes then .error (.limit .chunkExtensionBytes)
      else .ok { d with extensionBytes := total }

/-- The method `parse_chunk_line`: the size and length of a complete line, or none,
with the offset to resume the scan from. -/
def parseChunkLine (d : BodyDecoder) (input : Bytes) (scanned : ℕ) :
    Except DecodeError (BodyDecoder × Option (ℕ × ℕ) × ℕ) :=
  let scanned := if input.length < scanned then 0 else scanned
  match scanLine (input.take scanned).getLast? scanned (input.drop scanned) with
  | .invalid => .error .invalidChunkSize
  | .line index =>
    let consumed := index + 1
    if consumed > d.limits.maxChunkLineBytes then .error (.limit .chunkLineBytes)
    else
      let line := input.take (index - 1)
      match Vakya.parseChunkLine line with
      | .error e => .error e
      | .ok size =>
        match d.chargeExtensions line with
        | .error e => .error e
        | .ok d => .ok (d, some (size, consumed), 0)
  | .unfinished =>
    if input.length > d.limits.maxChunkLineBytes then .error (.limit .chunkLineBytes)
    else .ok (d, none, input.length)

def trailerEnd (d : BodyDecoder) (input : Bytes) (scanned : ℕ) :
    Except DecodeError (Option ℕ × ℕ) :=
  let scanned := if input.length < scanned then 0 else scanned
  let bounded := min input.length d.limits.maxTrailerBytes
  let first := min scanned bounded
  match (List.range' first (bounded - first)).find? (emptyLineAt input ·) with
  | some index => .ok (some (index + 1), 0)
  | none =>
    if input.length > d.limits.maxTrailerBytes then .error (.limit .trailerBytes)
    else .ok (none, bounded)

def decodeTrailers (x : Crates) (d : BodyDecoder) (input : Bytes) (cursor : ℕ) (eof : Bool)
    (scanned : ℕ) : BodyDecoder × Except DecodeError DecodeOutcome :=
  let available := input.drop cursor
  match d.trailerEnd available scanned with
  | .error e => d.fail e
  | .ok (none, scanned) =>
    if eof then d.fail .unexpectedEof
    else ({ d with state := .chunked (.trailers scanned) }, .ok (.needMore cursor))
  | .ok (some trailerBytes, _) =>
    match parseTrailers x d.limits.maxTrailers (available.take trailerBytes) with
    | .error e => d.fail e
    | .ok (consumed, trailers) =>
      ({ d with state := .done }, .ok (.trailers trailers (cursor + consumed)))

/-- One iteration of the loop in `decode_chunked`. -/
inductive Iteration
  | again (d : BodyDecoder) (state : ChunkState) (cursor : ℕ)
  | leave (result : BodyDecoder × Except DecodeError DecodeOutcome)

def chunkIteration (x : Crates) (d : BodyDecoder) (state : ChunkState) (cursor : ℕ)
    (input : Bytes) (eof : Bool) : Iteration :=
  match state with
  | .size scanned =>
    match d.parseChunkLine (input.drop cursor) scanned with
    | .error e => .leave (d.fail e)
    | .ok (d, none, scanned) =>
      if eof then .leave (d.fail .unexpectedEof)
      else .leave ({ d with state := .chunked (.size scanned) }, .ok (.needMore cursor))
    | .ok (d, some (size, consumed), _) =>
      -- the last chunk has no data, and trailers may follow it
      .again d (if size = 0 then .trailers 0 else .data size) (cursor + consumed)
  | .data remaining =>
    if cursor = input.length then
      if eof then .leave (d.fail .unexpectedEof)
      else .leave ({ d with state := .chunked state }, .ok (.needMore cursor))
    else
      let count := min (input.length - cursor) remaining
      let remaining := remaining - count
      .leave ({ d with state := .chunked (if remaining = 0 then .dataCrlf else .data remaining) },
        .ok (.data cursor (cursor + count) (cursor + count)))
  | .dataCrlf =>
    let remaining := input.drop cursor
    if remaining.length < 2 then
      -- one byte is enough to see that the terminator is wrong
      if remaining ≠ [] ∧ remaining.head? ≠ some CR then .leave (d.fail .invalidChunkTerminator)
      else if eof then .leave (d.fail .unexpectedEof)
      else .leave ({ d with state := .chunked state }, .ok (.needMore cursor))
    else if remaining.take 2 ≠ CRLF then .leave (d.fail .invalidChunkTerminator)
    else .again d (.size 0) (cursor + 2)
  | .trailers scanned => .leave (d.decodeTrailers x input cursor eof scanned)

/-- Within one call the loop visits the states in order of decreasing rank. -/
theorem rank_lt_of_again {x : Crates} {d d' : BodyDecoder} {state state' : ChunkState}
    {cursor cursor' : ℕ} {input : Bytes} {eof : Bool}
    (h : chunkIteration x d state cursor input eof = .again d' state' cursor') :
    state'.rank < state.rank := by
  cases state with
  | size scanned =>
    simp only [chunkIteration] at h
    split at h
    · cases h
    · split_ifs at h
    · cases h
      split_ifs <;> simp [ChunkState.rank]
  | data remaining =>
    simp only [chunkIteration] at h
    split_ifs at h
  | dataCrlf =>
    simp only [chunkIteration] at h
    split_ifs at h
    cases h
    simp [ChunkState.rank]
  | trailers scanned => cases h

def chunkLoop (x : Crates) (d : BodyDecoder) (state : ChunkState) (cursor : ℕ)
    (input : Bytes) (eof : Bool) : BodyDecoder × Except DecodeError DecodeOutcome :=
  match h : chunkIteration x d state cursor input eof with
  | .again d' state' cursor' =>
    have := rank_lt_of_again h
    chunkLoop x d' state' cursor' input eof
  | .leave result => result
termination_by state.rank

def decodeChunked (x : Crates) (d : BodyDecoder) (state : ChunkState) (input : Bytes)
    (eof : Bool) : BodyDecoder × Except DecodeError DecodeOutcome :=
  d.chunkLoop x state 0 input eof

def decode (x : Crates) (d : BodyDecoder) (input : Bytes) (eof : Bool) :
    BodyDecoder × Except DecodeError DecodeOutcome :=
  match d.state with
  | .empty | .fixed 0 => ({ d with state := .done }, .ok (.ended 0))
  | .fixed remaining =>
    if input ≠ [] then
      let count := min input.length remaining
      ({ d with state := .fixed (remaining - count) }, .ok (.data 0 count count))
    else if eof then d.fail .unexpectedEof
    else (d, .ok (.needMore 0))
  | .chunked state => d.decodeChunked x state input eof
  | .untilEof =>
    if input ≠ [] then
      -- the last bytes of the transport also close the body
      ({ d with state := if eof then .done else .untilEof },
        .ok (.data 0 input.length input.length))
    else if eof then ({ d with state := .done }, .ok (.ended 0))
    else (d, .ok (.needMore 0))
  | .done => (d, .ok (.ended 0))
  | .failed error => (d, .error error)

end BodyDecoder

end Vakya
