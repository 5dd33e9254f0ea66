import Vakya.Error

/-!
# The body encoder (`encode.rs`)

`BodyEncoder` checks each frame against the size promised before the body was
polled and returns the bytes that go around it. `BoundedWriter` is the buffer
that heads and trailers are written to.
-/

namespace Vakya

/-- Bounds on the payload bytes still to come. `with_bounds` rejects an upper bound below the
lower one. -/
structure SizeHint where
  lower : ℕ
  upper : Option ℕ
  ordered : ∀ u ∈ upper, lower ≤ u
  lower_lt : lower < wordSize
  upper_lt : ∀ u ∈ upper, u < wordSize

namespace SizeHint

def new : SizeHint := ⟨0, none, by simp, zero_lt_wordSize, by simp⟩

def withExact (bytes : ℕ) (h : bytes < wordSize) : SizeHint :=
  ⟨bytes, some bytes, by simp, h, by simpa using h⟩

def exact (s : SizeHint) : Option ℕ :=
  match s.upper with
  | some upper => if upper = s.lower then some upper else none
  | none => none

theorem exact_eq_some {s : SizeHint} {n : ℕ} (h : s.exact = some n) :
    s.lower = n ∧ s.upper = some n := by
  unfold exact at h
  split at h
  · split_ifs at h with hu
    cases h
    exact ⟨hu.symm, ‹_›⟩
  · cases h

end SizeHint

inductive TrailerHint
  | none
  | mayHave
deriving DecidableEq, Repr

structure BodyMetadata where
  size : SizeHint
  trailers : TrailerHint

structure EncodeConfig where
  maxHeadBytes : ℕ
  maxTrailerBytes : ℕ
  titleCaseHeaders : Bool
  head_pos : 0 < maxHeadBytes
  trailer_pos : 0 < maxTrailerBytes

inductive EncodeError
  | invalidHead
  | invalidFraming
  | lengthMismatch
  | bodyForbidden
  | trailersForbidden
  | frameAfterEnd
  | unsupported
  | limit (which : LimitKind)
  | allocation
deriving DecidableEq, Repr

structure BoundedWriter where
  kind : LimitKind
  failure : Option EncodeError
  bytes : Bytes
  limit : ℕ

def titleCase (capitalize : Bool) : Bytes → Bytes
  | [] => []
  | b :: bs => (if capitalize then toAsciiUppercase b else b) :: titleCase (b == 45) bs

namespace BoundedWriter

def new (limit : ℕ) : BoundedWriter := ⟨.headBytes, none, [], limit⟩

/-- The checks that `push` and `push_title_case` share; `text` is what is then appended. -/
def extend (x : Crates) (w : BoundedWriter) (count : ℕ) (text : Bytes) :
    Except EncodeError BoundedWriter :=
  match checkedAdd w.bytes.length count with
  | none => .error (.limit w.kind)
  | some length =>
    if length > w.limit then .error (.limit w.kind)
    else if x.reserve w.bytes.length count then .ok { w with bytes := w.bytes ++ text }
    else .error .allocation

def push (x : Crates) (w : BoundedWriter) (value : Bytes) : Except EncodeError BoundedWriter :=
  w.extend x value.length value

def pushTitleCase (x : Crates) (w : BoundedWriter) (value : Bytes) :
    Except EncodeError BoundedWriter :=
  w.extend x value.length (titleCase true value)

end BoundedWriter

def writeHeaderName (x : Crates) (w : BoundedWriter) (name : HeaderName) (original : Option Bytes)
    (titleCase : Bool) : Except EncodeError BoundedWriter :=
  match original with
  | some original => w.push x original
  | none => if titleCase then w.pushTitleCase x name.text else w.push x name.text

def writeHeader (x : Crates) (w : BoundedWriter) (name : HeaderName) (original : Option Bytes)
    (titleCase : Bool) (value : HeaderValue) : Except EncodeError BoundedWriter := do
  let w ← writeHeaderName x w name original titleCase
  let w ← w.push x [COLON, SP]
  let w ← w.push x value.bytes
  w.push x CRLF

def writeValues (x : Crates) (name : HeaderName) (titleCase : Bool) :
    BoundedWriter → List Bytes → List HeaderValue → Except EncodeError BoundedWriter
  | w, _, [] => .ok w
  | w, spellings, value :: values => do
    let w ← writeHeader x w name spellings.head? titleCase value
    writeValues x name titleCase w spellings.tail values

def writeHeaders (x : Crates) (w : BoundedWriter) (headers : Headers)
    (originalCase : Option HeaderCaseMap) (titleCase : Bool) : Except EncodeError BoundedWriter :=
  match originalCase with
  | some original =>
    headers.keys.foldlM (fun w name =>
      writeValues x name titleCase w (original.getAll name) (headers.getAll name)) w
  | none => headers.iter.foldlM (fun w e => writeHeader x w e.1 none titleCase e.2) w

def HEX : Bytes := ascii "0123456789abcdef"

def leadingZeros (n : ℕ) : ℕ := if n = 0 then 64 else 63 - n.log2

def CHUNK_PREFIX_CAPACITY : ℕ := 18

/-- The loop of `chunk_prefix`: digits are stored from the last one down. -/
def chunkDigits : ℕ → ℕ → Bytes → Bytes
  | 0, _, bytes => bytes
  | cursor + 1, length, bytes =>
    chunkDigits cursor (length >>> 4) (bytes.set cursor (HEX.getD (length &&& 0x0f) 0))

def chunkPrefix (length : ℕ) : Bytes :=
  let digits := (64 - leadingZeros length + 3) / 4
  let bytes := chunkDigits digits length (List.replicate CHUNK_PREFIX_CAPACITY 0)
  ((bytes.set digits CR).set (digits + 1) LF).take (digits + 2)

structure DataFraming where
  before : Bytes
  after : Bytes
deriving DecidableEq

namespace DataFraming

def bare : DataFraming := ⟨[], []⟩

end DataFraming

inductive BodyState
  | none
  | fixed
  | chunked
  | closeDelimited
  | done
  | failed (error : EncodeError)
deriving DecidableEq

structure BodyEncoder where
  state : BodyState
  maxTrailerBytes : ℕ
  titleCaseHeaders : Bool
  remainingLower : ℕ
  remainingUpper : Option ℕ
  trailers : TrailerHint

namespace BodyEncoder

def new (mode : BodyMode) (metadata : BodyMetadata) (config : EncodeConfig) :
    Except EncodeError BodyEncoder :=
  let built (state : BodyState) : Except EncodeError BodyEncoder :=
    .ok ⟨state, config.maxTrailerBytes, config.titleCaseHeaders, metadata.size.lower,
      metadata.size.upper, metadata.trailers⟩
  match mode with
  | .fixed length =>
    if metadata.size.exact ≠ some length ∨ metadata.trailers ≠ .none then .error .invalidFraming
    else built .fixed
  | .untilEof =>
    if metadata.trailers ≠ .none then .error .trailersForbidden else built .closeDelimited
  | .none => built .none
  | .chunked => built .chunked

def fail {A : Type} (e : BodyEncoder) (error : EncodeError) : BodyEncoder × Except EncodeError A :=
  ({ e with state := .failed error }, .error error)

def frameData (e : BodyEncoder) (length : ℕ) : BodyEncoder × Except EncodeError DataFraming :=
  match e.state with
  | .none => e.fail .bodyForbidden
  | .fixed => (e, .ok .bare)
  | .chunked => (e, .ok (if length = 0 then .bare else ⟨chunkPrefix length, CRLF⟩))
  | .closeDelimited => (e, .ok .bare)
  | .done => e.fail .frameAfterEnd
  | .failed error => (e, .error error)

def data (e : BodyEncoder) (length : ℕ) : BodyEncoder × Except EncodeError DataFraming :=
  match e.state with
  | .failed error => (e, .error error)
  | .done => e.fail .frameAfterEnd
  | .none => e.fail .bodyForbidden
  | _ =>
    -- `u64::try_from(length)`
    if wordSize ≤ length then e.fail .lengthMismatch
    else if e.remainingUpper.any (length > ·) then e.fail .lengthMismatch
    else
      frameData { e with
        remainingLower := e.remainingLower - length
        remainingUpper := e.remainingUpper.map (· - length) } length

/-- The bytes of `trailers`: the last chunk, the fields and the empty line. -/
def writeTrailers (x : Crates) (e : BodyEncoder) (trailers : Headers) :
    Except EncodeError BoundedWriter := do
  let w : BoundedWriter := { BoundedWriter.new e.maxTrailerBytes with kind := .trailerBytes }
  let w ← w.push x (ascii "0\r\n")
  let w ← writeHeaders x w trailers none e.titleCaseHeaders
  w.push x CRLF

def sendTrailers (x : Crates) (e : BodyEncoder) (trailers : Headers) :
    BodyEncoder × Except EncodeError Bytes :=
  match e.state with
  | .failed error => (e, .error error)
  | .done => e.fail .frameAfterEnd
  | .chunked =>
    if e.remainingLower ≠ 0 then e.fail .lengthMismatch
    else if e.trailers = .none ∨ validateTrailers trailers ≠ .ok () then e.fail .trailersForbidden
    else
      match e.writeTrailers x trailers with
      | .error error => e.fail error
      | .ok w => ({ e with state := .done }, .ok w.bytes)
  | _ => e.fail .trailersForbidden

/-- The last bytes of a body that passed the checks of `finish`. -/
def finishState (e : BodyEncoder) : BodyEncoder × Except EncodeError Bytes :=
  match e.state with
  | .none | .fixed | .closeDelimited => ({ e with state := .done }, .ok [])
  | .chunked => ({ e with state := .done }, .ok (ascii "0\r\n\r\n"))
  | .done => e.fail .frameAfterEnd
  | .failed error => (e, .error error)

def finish (e : BodyEncoder) : BodyEncoder × Except EncodeError Bytes :=
  match e.state with
  | .failed error => (e, .error error)
  | .done => e.fail .frameAfterEnd
  | .none => e.finishState
  | _ => if e.remainingLower ≠ 0 then e.fail .lengthMismatch else e.finishState

end BodyEncoder

theorem length_titleCase (capitalize : Bool) (text : Bytes) :
    (titleCase capitalize text).length = text.length := by
  induction text generalizing capitalize with
  | nil => rfl
  | cons b bs ih => simp [titleCase, ih]

theorem lowercase_titleCase (capitalize : Bool) (text : Bytes) :
    lowercase (titleCase capitalize text) = lowercase text := by
  induction text generalizing capitalize with
  | nil => rfl
  | cons b bs ih =>
    have hb : toAsciiLowercase (if capitalize then toAsciiUppercase b else b) =
        toAsciiLowercase b := by
      split_ifs
      · exact toAsciiLowercase_toAsciiUppercase b
      · rfl
    simpa [titleCase, lowercase, hb] using ih (b == 45)

namespace BoundedWriter

variable {x : Crates} {w w' : BoundedWriter}

theorem bytes_of_extend {count : ℕ} {text : Bytes} (h : w.extend x count text = .ok w') :
    w' = { w with bytes := w.bytes ++ text } ∧ w.bytes.length + count ≤ w.limit := by
  unfold extend at h
  split at h
  · cases h
  · next length ha =>
    have hlen : w.bytes.length + count = length := by
      unfold checkedAdd at ha
      split_ifs at ha
      exact Option.some.inj ha
    by_cases hl : length > w.limit
    · rw [if_pos hl] at h
      cases h
    rw [if_neg hl] at h
    split_ifs at h
    cases h
    exact ⟨rfl, by omega⟩

theorem bytes_of_push {value : Bytes} (h : w.push x value = .ok w') :
    w' = { w with bytes := w.bytes ++ value } := (bytes_of_extend h).1

end BoundedWriter

/-- `f` is the line a sender writes for the pair `e`. -/
def Spells (f : RawHeader) (e : HeaderName × HeaderValue) : Prop :=
  lowercase f.name = e.1.text ∧ f.value = SP :: e.2.bytes

variable {x : Crates} {w w' : BoundedWriter}

theorem writeHeaderName_ok {name : HeaderName} {original : Option Bytes} {title : Bool}
    (ho : ∀ o ∈ original, lowercase o = name.text)
    (h : writeHeaderName x w name original title = .ok w') :
    ∃ text, lowercase text = name.text ∧ w' = { w with bytes := w.bytes ++ text } := by
  unfold writeHeaderName at h
  split at h
  · exact ⟨_, ho _ rfl, BoundedWriter.bytes_of_push h⟩
  · split_ifs at h
    · exact ⟨_, (lowercase_titleCase _ _).trans name.lower, (BoundedWriter.bytes_of_extend h).1⟩
    · exact ⟨_, name.lower, BoundedWriter.bytes_of_push h⟩

theorem writeHeader_ok {name : HeaderName} {original : Option Bytes} {title : Bool}
    {value : HeaderValue} (ho : ∀ o ∈ original, lowercase o = name.text)
    (h : writeHeader x w name original title value = .ok w') :
    ∃ f, Spells f (name, value) ∧ w' = { w with bytes := w.bytes ++ f.line } := by
  obtain ⟨w₁, h1, h⟩ := bind_eq_ok h
  obtain ⟨w₂, h2, h⟩ := bind_eq_ok h
  obtain ⟨w₃, h3, h4⟩ := bind_eq_ok h
  obtain ⟨text, ht, rfl⟩ := writeHeaderName_ok ho h1
  obtain rfl := BoundedWriter.bytes_of_push h2
  obtain rfl := BoundedWriter.bytes_of_push h3
  obtain rfl := BoundedWriter.bytes_of_push h4
  exact ⟨⟨text, SP :: value.bytes⟩, ⟨ht, rfl⟩, by simp [RawHeader.line]⟩

theorem writeValues_ok {name : HeaderName} {title : Bool} {values : List HeaderValue}
    {spellings : List Bytes} (ho : ∀ o ∈ spellings, lowercase o = name.text)
    (h : writeValues x name title w spellings values = .ok w') :
    ∃ fields, List.Forall₂ Spells fields (values.map (name, ·)) ∧
      w' = { w with bytes := w.bytes ++ fields.flatMap RawHeader.line } := by
  induction values generalizing w spellings with
  | nil =>
    cases h
    exact ⟨[], .nil, by simp⟩
  | cons value values ih =>
    obtain ⟨w₁, h1, h2⟩ := bind_eq_ok h
    obtain ⟨f, hf, rfl⟩ := writeHeader_ok (fun o hm => ho o (List.mem_of_mem_head? hm)) h1
    obtain ⟨fields, hfs, rfl⟩ := ih (fun o hm => ho o (List.mem_of_mem_tail hm)) h2
    exact ⟨f :: fields, .cons hf hfs, by simp⟩

theorem writeNames_ok {original : HeaderCaseMap} {title : Bool} {headers : Headers}
    {names : List HeaderName}
    (h : names.foldlM (fun w name => writeValues x name title w (original.getAll name)
      (headers.getAll name)) w = .ok w') :
    ∃ fields, List.Forall₂ Spells fields
        (names.flatMap fun n => (headers.getAll n).map (n, ·)) ∧
      w' = { w with bytes := w.bytes ++ fields.flatMap RawHeader.line } := by
  induction names generalizing w with
  | nil =>
    cases h
    exact ⟨[], .nil, by simp⟩
  | cons name names ih =>
    rw [List.foldlM_cons] at h
    obtain ⟨w₁, h1, h2⟩ := bind_eq_ok h
    obtain ⟨fields, hfs, rfl⟩ := writeValues_ok (original.folds name) h1
    obtain ⟨fields', hfs', rfl⟩ := ih h2
    exact ⟨fields ++ fields', List.rel_append hfs hfs', by simp⟩

theorem writePairs_ok {title : Bool} {pairs : List (HeaderName × HeaderValue)}
    (h : pairs.foldlM (fun w e => writeHeader x w e.1 none title e.2) w = .ok w') :
    ∃ fields, List.Forall₂ Spells fields pairs ∧
      w' = { w with bytes := w.bytes ++ fields.flatMap RawHeader.line } := by
  induction pairs generalizing w with
  | nil =>
    cases h
    exact ⟨[], .nil, by simp⟩
  | cons e pairs ih =>
    rw [List.foldlM_cons] at h
    obtain ⟨w₁, h1, h2⟩ := bind_eq_ok h
    obtain ⟨f, hf, rfl⟩ := writeHeader_ok (by simp) h1
    obtain ⟨fields, hfs, rfl⟩ := ih h2
    exact ⟨f :: fields, .cons hf hfs, by simp⟩

/-- `write_headers` writes one line for each pair, in the order of the map. -/
theorem writeHeaders_ok {headers : Headers} {original : Option HeaderCaseMap} {title : Bool}
    (h : writeHeaders x w headers original title = .ok w') :
    ∃ fields, List.Forall₂ Spells fields headers.iter ∧
      w' = { w with bytes := w.bytes ++ fields.flatMap RawHeader.line } := by
  unfold writeHeaders at h
  split at h
  · obtain ⟨fields, hfs, rfl⟩ := writeNames_ok h
    exact ⟨fields, by rwa [headers.flatMap_getAll] at hfs, rfl⟩
  · exact writePairs_ok h

end Vakya
