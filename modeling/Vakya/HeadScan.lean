import Vakya.Head

/-!
# Head scanning and parsing (`head/scan.rs`)

`HeadScan` looks for the empty line that ends a head and remembers how far it
has looked; `httparse` remains the authority on the syntax. The parser's role is
the choice between the two `parse_shared` functions, and its workspace is a
number of header slots.
-/

namespace Vakya

structure HeadLimits where
  maxBytes : ℕ
  maxHeaders : ℕ
  bytes_pos : 0 < maxBytes
  headers_pos : 0 < maxHeaders

/-- Where the scan stands in a line; `lineEnd` is the start of a line after the first. -/
inductive ScanLine
  | leading
  | content
  | lineEnd
  | lineEndCr
deriving DecidableEq, Repr

namespace ScanLine

def closes (line : ScanLine) (b : UInt8) : Bool := (line = .lineEnd || line = .lineEndCr) && b == LF

def next (line : ScanLine) (b : UInt8) : ScanLine :=
  if line = .leading ∧ (b = CR ∨ b = LF) then .leading
  else if line = .lineEnd ∧ b = CR then .lineEndCr
  else if b = LF then .lineEnd
  else .content

end ScanLine

inductive HeadScan
  | scanning (scanned : ℕ) (line : ScanLine)
  | complete (length : ℕ)
deriving DecidableEq, Repr

namespace HeadScan

def default : HeadScan := .scanning 0 .leading

/-- The loop of `complete` over the bytes not yet scanned. -/
def scanFrom (scanned : ℕ) (line : ScanLine) : Bytes → HeadScan
  | [] => .scanning scanned line
  | b :: rest =>
    if line.closes b then .complete (scanned + 1) else scanFrom (scanned + 1) (line.next b) rest

def found : HeadScan → Option ℕ
  | .scanning _ _ => none
  | .complete length => some length

/-- The scan of `input` by `complete`, with what it reports. -/
def completeHead (s : HeadScan) (input : Bytes) : HeadScan × Option ℕ :=
  let scan (scanned : ℕ) (line : ScanLine) :=
    let s := scanFrom scanned line (input.drop scanned)
    (s, s.found)
  match s with
  | .scanning scanned line => if input.length < scanned then scan 0 .leading else scan scanned line
  | .complete length => if length ≤ input.length then (s, some length) else scan 0 .leading

end HeadScan

structure HeadParser where
  limits : HeadLimits
  scan : HeadScan
  preserveHeaderCase : Bool

namespace HeadParser

def withLimits (limits : HeadLimits) : HeadParser := ⟨limits, .default, false⟩

def withPreservedHeaderCase (p : HeadParser) (enabled : Bool) : HeadParser :=
  { p with preserveHeaderCase := enabled }

def parseInputLen (p : HeadParser) (input : Bytes) : ℕ := min input.length p.limits.maxBytes

def headLen (p : HeadParser) (input : Bytes) : HeadParser × Except HeadError (Option ℕ) :=
  match p.scan.completeHead (input.take (p.parseInputLen input)) with
  | (scan, some length) => ({ p with scan := scan }, .ok (some length))
  | (scan, none) =>
    if input.length > p.limits.maxBytes then
      ({ p with scan := .default }, .error (.limit .bytes))
    else ({ p with scan := scan }, .ok none)

end HeadParser

def versionOf : ℕ → Except HeadError Version
  | 0 => .ok .http10
  | 1 => .ok .http11
  | _ => .error .unsupportedVersion

def mapRequestError : HttparseError → HeadError
  | .tooManyHeaders => .limit .headers
  | .headerName | .headerValue => .invalidHeader
  | .version => .unsupportedVersion
  | .newLine | .token | .status => .invalidStartLine

def mapResponseError : HttparseError → HeadError
  | .tooManyHeaders => .limit .headers
  | .headerName | .headerValue => .invalidHeader
  | .version => .unsupportedVersion
  | .newLine | .status | .token => .invalidStartLine

/-- One field of `shared_headers`. `HeaderValue::from_maybe_shared` checks bytes as `from_bytes`
does. `HeaderName::from_bytes` only changes case, so the spelling always belongs to the name. -/
def sharedHeader (x : Crates) (state : Headers × Option HeaderCaseMap) (field : RawHeader) :
    Except HeadError (Headers × Option HeaderCaseMap) :=
  match x.headerName field.name, x.headerValue field.value with
  | some name, some value =>
    let original := state.2.map fun original =>
      if h : lowercase field.name = name.text then original.append name field.name h else original
    .ok (state.1.append name value, original)
  | _, _ => .error .invalidHeader

def sharedHeaders (x : Crates) (fields : List RawHeader) (preserveHeaderCase : Bool) :
    Except HeadError (Headers × Option HeaderCaseMap) :=
  if x.mapCapacity fields.length then
    fields.foldlM (sharedHeader x) (.empty, if preserveHeaderCase then some .empty else none)
  else .error (.limit .headerMap)

def okOr {A : Type} (value : Option A) (error : HeadError) : Except HeadError A :=
  match value with
  | some a => .ok a
  | none => .error error

def buildSharedRequestHead (x : Crates) (request : RawRequest) (preserveHeaderCase : Bool) :
    Except HeadError (RequestHead x) := do
  let method ← okOr request.method .invalidStartLine
  let method ← okOr (x.methodFromBytes method) .invalidMethod
  let target ← okOr request.path .invalidStartLine
  let target ← okOr (x.uriFromShared target) .invalidTarget
  let version ← versionOf (← okOr request.version .invalidStartLine)
  let (headers, headerCase) ← sharedHeaders x request.headers preserveHeaderCase
  return ⟨method, target, version, headers, headerCase⟩

def statusFromU16 (code : ℕ) : Option StatusCode :=
  if h : 100 ≤ code ∧ code ≤ 999 then some ⟨code, h⟩ else none

def buildSharedResponseHead (x : Crates) (response : RawResponse) (preserveHeaderCase : Bool) :
    Except HeadError ResponseHead := do
  let version ← versionOf (← okOr response.version .invalidStartLine)
  let code ← okOr response.code .invalidStartLine
  ensure (code ≤ 599) .invalidStatus
  let status ← okOr (statusFromU16 code) .invalidStatus
  let (headers, headerCase) ← sharedHeaders x response.headers preserveHeaderCase
  return ⟨version, status, headers, headerCase⟩

namespace HeadParser

/-- The shape both `parse_shared` functions have: the input is one whole head. -/
def parseWhole {A B : Type} (p : HeadParser) (input : Bytes)
    (parsed : Except HttparseError (Parsed A)) (mapError : HttparseError → HeadError)
    (build : A → Except HeadError B) : HeadParser × Except HeadError B :=
  ({ p with scan := .default },
    if input.length > p.limits.maxBytes then .error (.limit .bytes)
    else
      match parsed with
      | .ok (.complete consumed a) =>
        if consumed = input.length then build a else .error .invalidStartLine
      | .ok .incomplete => .error .invalidStartLine
      | .error e => .error (mapError e))

def parseSharedRequest (x : Crates) (p : HeadParser) (input : Bytes) :
    HeadParser × Except HeadError (RequestHead x) :=
  p.parseWhole input (x.parseRequest input p.limits.maxHeaders) mapRequestError
    (buildSharedRequestHead x · p.preserveHeaderCase)

def parseSharedResponse (x : Crates) (p : HeadParser) (input : Bytes) :
    HeadParser × Except HeadError ResponseHead :=
  p.parseWhole input (x.parseResponse input p.limits.maxHeaders) mapResponseError
    (buildSharedResponseHead x · p.preserveHeaderCase)

end HeadParser

namespace HeadScan

def resume : HeadScan → Bytes → HeadScan
  | .scanning scanned line, more => scanFrom scanned line more
  | .complete length, _ => .complete length

theorem scanFrom_append (scanned : ℕ) (line : ScanLine) (xs ys : Bytes) :
    scanFrom scanned line (xs ++ ys) = (scanFrom scanned line xs).resume ys := by
  induction xs generalizing scanned line with
  | nil => rfl
  | cons b bs ih =>
    simp only [List.cons_append, scanFrom]
    split_ifs
    · rfl
    · exact ih _ _

theorem scanned_of_scanFrom {scanned scanned' : ℕ} {line line' : ScanLine} {xs : Bytes}
    (h : scanFrom scanned line xs = .scanning scanned' line') : scanned' = scanned + xs.length := by
  induction xs generalizing scanned line with
  | nil =>
    cases h
    rfl
  | cons b bs ih =>
    simp only [scanFrom] at h
    split_ifs at h
    rw [ih h, List.length_cons]
    omega

theorem length_of_scanFrom {scanned length : ℕ} {line : ScanLine} {xs : Bytes}
    (h : scanFrom scanned line xs = .complete length) :
    scanned < length ∧ length ≤ scanned + xs.length := by
  induction xs generalizing scanned line with
  | nil => cases h
  | cons b bs ih =>
    simp only [scanFrom] at h
    split_ifs at h
    · cases h
      simp
    · have := ih h
      simp only [List.length_cons]
      omega

def Follows (s : HeadScan) (input : Bytes) : Prop :=
  s = scanFrom 0 .leading input ∧ s.found = none

theorem follows_default : HeadScan.default.Follows [] := ⟨rfl, rfl⟩

theorem Follows.completeHead {s : HeadScan} {input : Bytes} (h : s.Follows input) (more : Bytes) :
    s.completeHead (input ++ more) =
      (scanFrom 0 .leading (input ++ more), (scanFrom 0 .leading (input ++ more)).found) := by
  obtain ⟨rfl, hnone⟩ := h
  cases hs : scanFrom 0 .leading input with
  | complete length =>
    rw [hs] at hnone
    cases hnone
  | scanning scanned line =>
    obtain rfl : scanned = input.length := by simpa using scanned_of_scanFrom hs
    have hlen : ¬ (input ++ more).length < input.length := by simp
    simp only [HeadScan.completeHead, if_neg hlen, scanFrom_append, hs, resume, List.drop_left]

end HeadScan

end Vakya
