import Vakya.Encode

/-!
# The head encoder (`encode.rs`)

`prepare_request_head` and `prepare_response_head` choose the framing from the
body metadata, write it into the fields, validate the resulting head and render
it. The validated head is returned beside the bytes: it is what the sender
believes the bytes say.
-/

namespace Vakya

structure MessagePlan (H : Type) where
  bytes : Bytes
  head : H

def mapHeadError : HeadError → EncodeError
  | .limit .bytes => .limit .headBytes
  | .limit .headers => .limit .headerCount
  | .limit .headerMap => .limit .headMapCapacity
  | .unsupportedTransferCoding | .unsupportedVersion => .unsupported
  | .ambiguousMessageLength | .invalidContentLength | .invalidTransferEncoding => .invalidFraming
  | _ => .invalidHead

def versionBytes : Version → Except EncodeError Bytes
  | .http10 => .ok (ascii "HTTP/1.0")
  | .http11 => .ok (ascii "HTTP/1.1")
  | _ => .error .unsupported

def decimalText (n : ℕ) : Bytes := (Nat.toDigits 10 n).map fun c => c.toNat.toUInt8

theorem decimalText_visible (n : ℕ) : (decimalText n).all isFieldByte = true := by
  simp only [decimalText, List.all_map, List.all_eq_true]
  intro c hc
  have hd : c.isDigit = true := Nat.isDigit_of_mem_toDigits (by decide) (by decide) hc
  have hlow : 48 ≤ c.toNat := by simpa using (Char.isDigit_iff_toNat.mp hd).1
  have hhigh : c.toNat ≤ 57 := by simpa using (Char.isDigit_iff_toNat.mp hd).2
  have key : ∀ k < 10, isFieldByte (48 + k).toUInt8 = true := by decide
  have := key (c.toNat - 48) (by omega)
  rwa [show 48 + (c.toNat - 48) = c.toNat by omega] at this

def HeaderValue.ofLength (n : ℕ) : HeaderValue := ⟨decimalText n, decimalText_visible n⟩

def HeaderValue.chunked : HeaderValue := ⟨ascii "chunked", by decide⟩

def setExactLength (headers : Headers) (length : ℕ) : Except EncodeError Headers := do
  let encoding ← (parseTransferEncoding headers).mapError mapHeadError
  ensure (encoding = none) .invalidFraming
  match ← (parseContentLength headers).mapError mapHeadError with
  | some declared => if declared = length then .ok headers else .error .lengthMismatch
  | none => .ok (headers.insert .contentLength (.ofLength length))

def setChunked (headers : Headers) : Except EncodeError Headers := do
  ensure (headers.containsKey .contentLength = false) .invalidFraming
  match ← (parseTransferEncoding headers).mapError mapHeadError with
  | none => .ok (headers.insert .transferEncoding .chunked)
  | some _ => .ok headers

def rejectFramingHeaders (headers : Headers) : Except EncodeError Unit :=
  if headers.containsKey .contentLength || headers.containsKey .transferEncoding then
    .error .invalidFraming
  else .ok ()

/-- The length to announce, when the metadata fixes it and no trailers can follow. -/
def BodyMetadata.fixedLength (metadata : BodyMetadata) : Option ℕ :=
  if metadata.trailers = .none then metadata.size.exact else none

def planRequestFraming (headers : Headers) (version : Version) (metadata : BodyMetadata) :
    Except EncodeError (Headers × BodyMode) :=
  match metadata.fixedLength with
  | some length => do return (← setExactLength headers length, .fixed length)
  | none => do
    ensure (version = .http11) .unsupported
    return (← setChunked headers, .chunked)

def planRepresentationFraming (headers : Headers) (version : Version) (metadata : BodyMetadata) :
    Except EncodeError (Headers × BodyMode) :=
  match metadata.fixedLength with
  | some length => do return (← setExactLength headers length, .fixed length)
  | none => do
    if version = .http11 then return (← setChunked headers, .chunked)
    ensure (metadata.trailers ≠ .mayHave) .trailersForbidden
    rejectFramingHeaders headers
    return (headers, .untilEof)

def planResponseFraming (headers : Headers) (version : Version) (status : StatusCode)
    (metadata : BodyMetadata) (requestMethod : Method) : Except EncodeError (Headers × BodyMode) := do
  let tunnel := requestMethod = .connect ∧ status.isSuccess
  let strictlyForbidden := status.isInformational ∨ status = .noContent
  let metadataOnly := requestMethod = .head ∨ status = .notModified
  if tunnel ∨ strictlyForbidden then
    ensure (metadata.size.exact = some 0 ∧ metadata.trailers = .none) .bodyForbidden
    ensure (headers.containsKey .contentLength = false ∧
      headers.containsKey .transferEncoding = false) .bodyForbidden
    return (headers, .none)
  if metadataOnly then
    -- The fields describe the representation; no producer frame is sent.
    let (headers, _) ← planRepresentationFraming headers version metadata
    return (headers, .none)
  if status = .resetContent then
    -- A zero length stops a peer from reading until the connection closes.
    ensure (metadata.size.exact = some 0 ∧ metadata.trailers = .none ∧
      headers.containsKey .transferEncoding = false) .bodyForbidden
    return (← setExactLength headers 0, .none)
  planRepresentationFraming headers version metadata

namespace BoundedWriter

/-- `write_str`: the failure is kept in the writer, since `fmt::Error` carries nothing. -/
def writeStr (x : Crates) (w : BoundedWriter) (value : Bytes) : Except BoundedWriter BoundedWriter :=
  match w.push x value with
  | .ok w => .ok w
  | .error error => .error { w with failure := some error }

def writeTarget (x : Crates) (w : BoundedWriter) (target : x.Uri) :
    Except EncodeError BoundedWriter :=
  match (x.uriDisplay target).foldlM (writeStr x) w with
  | .ok w => .ok w
  | .error w => .error (w.failure.getD (.limit .headBytes))

end BoundedWriter

def writeRequestHead (x : Crates) (head : RequestHead x) (originalCase : Option HeaderCaseMap)
    (config : EncodeConfig) : Except EncodeError BoundedWriter := do
  let w := BoundedWriter.new config.maxHeadBytes
  let w ← w.push x head.method.text
  let w ← w.push x [SP]
  let w ← w.writeTarget x head.target
  let w ← w.push x [SP]
  let w ← w.push x (← versionBytes head.version)
  let w ← w.push x CRLF
  let w ← writeHeaders x w head.headers originalCase config.titleCaseHeaders
  w.push x CRLF

def writeResponseHead (x : Crates) (head : ResponseHead) (originalCase : Option HeaderCaseMap)
    (config : EncodeConfig) : Except EncodeError BoundedWriter := do
  let w := BoundedWriter.new config.maxHeadBytes
  let w ← w.push x (← versionBytes head.version)
  let w ← w.push x [SP]
  let w ← w.push x head.status.text
  let w ← w.push x [SP]
  let w ← w.push x ((x.canonicalReason head.status).getD [])
  let w ← w.push x CRLF
  let w ← writeHeaders x w head.headers originalCase config.titleCaseHeaders
  w.push x CRLF

def prepareRequestHead (x : Crates) (method : Method) (target : x.Uri) (version : Version)
    (headers : Headers) (originalCase : Option HeaderCaseMap) (metadata : BodyMetadata)
    (config : EncodeConfig) : Except EncodeError (MessagePlan (ValidatedRequestHead x)) := do
  let (headers, mode) ← planRequestFraming headers version metadata
  let validated ← (RequestHead.validate ⟨method, target, version, headers, none⟩).mapError mapHeadError
  ensure (validated.body = mode) .invalidFraming
  let w ← writeRequestHead x validated.head originalCase config
  return ⟨w.bytes, validated⟩

def prepareResponseHead (x : Crates) (status : StatusCode) (version : Version) (headers : Headers)
    (originalCase : Option HeaderCaseMap) (metadata : BodyMetadata) (requestMethod : Method)
    (config : EncodeConfig) : Except EncodeError (MessagePlan ValidatedResponseHead) := do
  let (headers, mode) ← planResponseFraming headers version status metadata requestMethod
  let validated ←
    (ResponseHead.validate ⟨version, status, headers, none⟩ requestMethod).mapError mapHeadError
  ensure (validated.body = mode) .invalidFraming
  let w ← writeResponseHead x validated.head originalCase config
  return ⟨w.bytes, validated⟩

end Vakya
