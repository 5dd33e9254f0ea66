import Vakya.Http

/-!
# A small implementation of the crate functions

It reads well-formed heads and header blocks as `httparse` does and rejects the rest of what
that crate tolerates. The hypotheses on `Crates` are satisfied by it, and results that rest on
them can be evaluated with it.
-/

namespace Vakya
namespace Reference

abbrev Reading (A : Type) := Except HttparseError (Option (A × Bytes))

def newline (input : Bytes) : Reading Unit :=
  match input with
  | [] => .ok none
  | b :: rest =>
    if b = LF then .ok (some ((), rest))
    else if b = CR then
      match rest with
      | [] => .ok none
      | c :: rest => if c = LF then .ok (some ((), rest)) else .error .newLine
    else .error .newLine

def field (input : Bytes) : Reading RawHeader :=
  let name := input.takeWhile isTchar
  match input.dropWhile isTchar with
  | [] => .ok none
  | b :: rest =>
    if name = [] ∨ b ≠ COLON then .error .headerName
    else
      match newline (rest.dropWhile isFieldByte) with
      | .ok (some (_, after)) => .ok (some (⟨name, trimOws (rest.takeWhile isFieldByte)⟩, after))
      | .ok none => .ok none
      | .error _ => .error .headerValue

/-- The field lines up to the empty line, in at most `slots` fields. -/
def fields (slots : ℕ) (input : Bytes) : Reading (List RawHeader) :=
  match newline input with
  | .ok (some (_, rest)) => .ok (some ([], rest))
  | .ok none => .ok none
  | .error _ =>
    match slots with
    | 0 => .error .tooManyHeaders
    | slots + 1 =>
      match field input with
      | .error e => .error e
      | .ok none => .ok none
      | .ok (some (f, rest)) =>
        match fields slots rest with
        | .error e => .error e
        | .ok none => .ok none
        | .ok (some (fs, rest)) => .ok (some (f :: fs, rest))

def andThen {A B : Type} (r : Reading A) (f : A → Bytes → Reading B) : Reading B :=
  match r with
  | .error e => .error e
  | .ok none => .ok none
  | .ok (some (a, rest)) => f a rest

def stretch (p : UInt8 → Bool) (input : Bytes) : Reading Bytes :=
  if input.dropWhile p = [] then .ok none
  else if input.takeWhile p = [] then .error .token
  else .ok (some (input.takeWhile p, input.dropWhile p))

def space (input : Bytes) : Reading Unit :=
  match input with
  | [] => .ok none
  | b :: rest => if b = SP then .ok (some ((), rest)) else .error .token

def version (input : Bytes) : Reading ℕ :=
  if input.take 8 = ascii "HTTP/1.0" then .ok (some (0, input.drop 8))
  else if input.take 8 = ascii "HTTP/1.1" then .ok (some (1, input.drop 8))
  else if input.length < 8 then .ok none
  else .error .version

def target (input : Bytes) : Reading Bytes :=
  andThen (stretch (fun b => 33 ≤ b && b != 127) input) fun text rest =>
    if isUtf8 text then .ok (some (text, rest)) else .error .token

def request (slots : ℕ) (input : Bytes) : Reading RawRequest :=
  andThen (stretch isTchar input) fun method rest =>
  andThen (space rest) fun _ rest =>
  andThen (target rest) fun target rest =>
  andThen (space rest) fun _ rest =>
  andThen (version rest) fun version rest =>
  andThen (newline rest) fun _ rest =>
  andThen (fields slots rest) fun fields rest =>
    .ok (some (⟨some method, some target, some version, fields⟩, rest))

def code (input : Bytes) : Reading ℕ :=
  match input with
  | a :: b :: c :: rest =>
    if [a, b, c].all isAsciiDigit then
      .ok (some (((a.toNat - 48) * 10 + (b.toNat - 48)) * 10 + (c.toNat - 48), rest))
    else .error .status
  | _ => .ok none

def reason (input : Bytes) : Reading Unit := newline (input.dropWhile isFieldByte)

def response (slots : ℕ) (input : Bytes) : Reading RawResponse :=
  andThen (version input) fun version rest =>
  andThen (space rest) fun _ rest =>
  andThen (code rest) fun code rest =>
  andThen (space rest) fun _ rest =>
  andThen (reason rest) fun _ rest =>
  andThen (fields slots rest) fun fields rest =>
    .ok (some (⟨some version, some code, fields⟩, rest))

def report {A : Type} (input : Bytes) : Reading A → Except HttparseError (Parsed A)
  | .error e => .error e
  | .ok none => .ok .incomplete
  | .ok (some (a, rest)) => .ok (.complete (input.length - rest.length) a)

def headerName (bytes : Bytes) : Option HeaderName :=
  if h : isToken (lowercase bytes) = true ∧ bytes.length ≤ 65535 then
    some ⟨lowercase bytes, h.1, lowercase_idem bytes, by simpa [lowercase] using h.2⟩
  else none

def headerValue (bytes : Bytes) : Option HeaderValue :=
  if h : bytes.all isFieldByte = true then some ⟨bytes, h⟩ else none

def method (bytes : Bytes) : Option Method :=
  if h : isToken bytes = true then some ⟨bytes, h⟩ else none

def isAuthority (bytes : Bytes) : Bool :=
  !bytes.isEmpty && bytes.all fun b => isAsciiAlphanumeric b || (ascii "-._~:[]@,").contains b

def Target : Type := { text : Bytes // (!text.isEmpty && text.all fun b => 33 ≤ b && b ≤ 126) = true }

namespace Target

def parse (bytes : Bytes) : Option Target :=
  if h : (!bytes.isEmpty && bytes.all fun b => 33 ≤ b && b ≤ 126) = true then some ⟨bytes, h⟩ else none

def split (t : Target) : Option (Bytes × Bytes) :=
  let scheme := t.1.takeWhile isAsciiAlphanumeric
  let rest := t.1.drop scheme.length
  if scheme ≠ [] ∧ rest.take 3 = ascii "://" then some (scheme, rest.drop 3) else none

def isPath (t : Target) : Bool := t.1.head? == some 47 || t.1 == ascii "*"

def scheme (t : Target) : Option Bytes := t.split.map Prod.fst

def authority (t : Target) : Option Bytes :=
  let text := match t.split with
    | some (_, rest) => some (rest.takeWhile fun b => b != 47 && b != 63)
    | none => if t.isPath then none else some t.1
  text.filter isAuthority

def path (t : Target) : Bytes :=
  match t.split with
  | some (_, rest) =>
    let path := (rest.dropWhile fun b => b != 47 && b != 63).takeWhile (· != 63)
    if path = [] then [47] else path
  | none => if t.isPath then t.1.takeWhile (· != 63) else []

def pathAndQuery (t : Target) : Option Bytes :=
  match t.split with
  | some (_, rest) => some (rest.dropWhile fun b => b != 47 && b != 63)
  | none => if t.isPath then some t.1 else none

end Target

def hasPort (bytes : Bytes) : Bool :=
  let digits := (bytes.reverse.takeWhile isAsciiDigit).length
  digits != 0 && bytes.reverse[digits]? == some COLON

theorem newline_crlf (rest : Bytes) : newline (CRLF ++ rest) = .ok (some ((), rest)) := rfl

theorem takeWhile_append_stop {p : UInt8 → Bool} {xs ys : Bytes} (h : xs.all p = true)
    (hy : ∀ b ∈ ys.head?, p b = false) : (xs ++ ys).takeWhile p = xs := by
  have hp : ∀ b ∈ xs, p b = true := List.all_eq_true.mp h
  rw [List.takeWhile_append_of_pos hp]
  cases ys with
  | nil => simp
  | cons b bs => simp [hy b rfl]

theorem dropWhile_append_stop {p : UInt8 → Bool} {xs ys : Bytes} (h : xs.all p = true)
    (hy : ∀ b ∈ ys.head?, p b = false) : (xs ++ ys).dropWhile p = ys := by
  have hp : ∀ b ∈ xs, p b = true := List.all_eq_true.mp h
  rw [List.dropWhile_append_of_pos hp]
  cases ys with
  | nil => rfl
  | cons b bs => simp [hy b rfl]

theorem field_line {f : RawHeader} (h : f.WellFormed) (rest : Bytes) :
    field (f.line ++ rest) = .ok (some (f.trimmed, rest)) := by
  obtain ⟨hname, hvalue⟩ := h
  simp only [isToken, Bool.and_eq_true, Bool.not_eq_true', List.isEmpty_eq_false_iff] at hname
  have hsplit : f.line ++ rest = f.name ++ COLON :: (f.value ++ (CRLF ++ rest)) := by
    simp [RawHeader.line]
  have hcolon : ∀ b ∈ (COLON :: (f.value ++ (CRLF ++ rest))).head?, isTchar b = false := by
    simp; decide
  have hcr : ∀ b ∈ (CRLF ++ rest).head?, isFieldByte b = false := by
    simp; decide
  rw [field, hsplit, takeWhile_append_stop hname.2 hcolon, dropWhile_append_stop hname.2 hcolon]
  dsimp only
  rw [if_neg (by simp [hname.1]), dropWhile_append_stop hvalue hcr,
    takeWhile_append_stop hvalue hcr, newline_crlf]
  rfl

theorem newline_line {f : RawHeader} (h : f.WellFormed) (rest : Bytes) :
    newline (f.line ++ rest) = .error .newLine := by
  obtain ⟨hname, -⟩ := h
  cases hn : f.name with
  | nil => simp [isToken, hn] at hname
  | cons b bs =>
    have hb : isTchar b = true := by
      simp only [isToken, hn, List.all_cons, Bool.and_eq_true] at hname
      exact hname.2.1
    have hlf : b ≠ LF := by rintro rfl; revert hb; decide
    have hcr : b ≠ CR := by rintro rfl; revert hb; decide
    simp [RawHeader.line, hn, newline, hlf, hcr]

theorem fields_block (fs : List RawHeader) (h : ∀ f ∈ fs, f.WellFormed) (slots : ℕ)
    (hs : fs.length ≤ slots) (rest : Bytes) :
    fields slots (headerBlock fs ++ rest) = .ok (some (fs.map RawHeader.trimmed, rest)) := by
  induction fs generalizing slots with
  | nil =>
    have hn : newline (headerBlock [] ++ rest) = .ok (some ((), rest)) := rfl
    cases slots <;> simp [fields, hn]
  | cons f fs ih =>
    obtain ⟨slots, rfl⟩ : ∃ k, slots = k + 1 := ⟨slots - 1, by simp at hs; omega⟩
    have hf : f.WellFormed := h f (by simp)
    have hsplit : headerBlock (f :: fs) ++ rest = f.line ++ (headerBlock fs ++ rest) := by
      simp [headerBlock]
    rw [fields, hsplit, newline_line hf, field_line hf]
    dsimp only
    rw [ih (fun g hg => h g (by simp [hg])) slots (by simpa using hs)]
    rfl

theorem andThen_ok {A B : Type} (a : A) (rest : Bytes) (f : A → Bytes → Reading B) :
    andThen (.ok (some (a, rest))) f = f a rest := rfl

theorem stretch_append {p : UInt8 → Bool} {text rest : Bytes} (h : text.all p = true)
    (hne : text ≠ []) (hrest : rest ≠ []) (hstop : ∀ b ∈ rest.head?, p b = false) :
    stretch p (text ++ rest) = .ok (some (text, rest)) := by
  rw [stretch, dropWhile_append_stop h hstop, takeWhile_append_stop h hstop, if_neg hrest,
    if_neg hne]

theorem space_cons (rest : Bytes) : space (SP :: rest) = .ok (some ((), rest)) := rfl

theorem version_append {minor : ℕ} (h : minor ≤ 1) (rest : Bytes) :
    version (versionText minor ++ rest) = .ok (some (minor, rest)) := by
  obtain rfl | rfl : minor = 0 ∨ minor = 1 := by omega
  · rfl
  · rfl

theorem target_append {text : Bytes} (h : isTarget text = true) (rest : Bytes) :
    target (text ++ SP :: rest) = .ok (some (text, SP :: rest)) := by
  simp only [isTarget, Bool.and_eq_true, Bool.not_eq_true', List.isEmpty_eq_false_iff] at h
  have hstop : ∀ b ∈ (SP :: rest).head?, (decide (33 ≤ b) && b != 127) = false := by
    simp only [List.head?_cons, Option.mem_some_iff]
    rintro _ rfl
    decide
  rw [target, stretch_append h.2 h.1.1 (by simp) hstop, andThen_ok, if_pos h.1.2]

theorem request_head {method text : Bytes} {minor : ℕ} {fs : List RawHeader} {slots : ℕ}
    (hm : isToken method = true) (ht : isTarget text = true) (hv : minor ≤ 1)
    (hf : ∀ f ∈ fs, f.WellFormed) (hs : fs.length ≤ slots) :
    request slots (requestLine method text minor ++ CRLF ++ headerBlock fs) =
      .ok (some (⟨some method, some text, some minor, fs.map RawHeader.trimmed⟩, [])) := by
  simp only [isToken, Bool.and_eq_true, Bool.not_eq_true', List.isEmpty_eq_false_iff] at hm
  have hsplit : requestLine method text minor ++ CRLF ++ headerBlock fs =
      method ++ SP :: (text ++ SP :: (versionText minor ++ (CRLF ++ (headerBlock fs ++ [])))) := by
    simp [requestLine]
  have hstop : ∀ b ∈ (SP :: (text ++ SP :: (versionText minor ++
      (CRLF ++ (headerBlock fs ++ []))))).head?, isTchar b = false := by
    simp; decide
  rw [request, hsplit, stretch_append hm.2 hm.1 (by simp) hstop, andThen_ok, space_cons, andThen_ok,
    target_append ht, andThen_ok, space_cons, andThen_ok, version_append hv, andThen_ok,
    newline_crlf, andThen_ok, fields_block fs hf slots hs]
  rfl

theorem code_text (status : StatusCode) (rest : Bytes) :
    code (status.text ++ rest) = .ok (some (status.code, rest)) := by
  obtain ⟨k, hlow, hhigh⟩ := status
  have hdigit : ∀ d < 10, isAsciiDigit (48 + d).toUInt8 = true ∧ (48 + d).toUInt8.toNat = 48 + d := by
    decide
  have h1 := hdigit (k / 100) (by omega)
  have h2 := hdigit (k / 10 % 10) (by omega)
  have h3 := hdigit (k % 10) (by omega)
  have hvalue : (k / 100 * 10 + k / 10 % 10) * 10 + k % 10 = k := by omega
  simp only [code, StatusCode.text, List.map_cons, List.map_nil, List.cons_append, List.nil_append,
    List.all_cons, List.all_nil, h1.1, h2.1, h3.1, h1.2, h2.2, h3.2, Nat.add_sub_cancel_left, hvalue,
    Bool.and_self, if_true]

theorem response_head {minor : ℕ} {status : StatusCode} {text : Bytes} {fs : List RawHeader}
    {slots : ℕ} (hv : minor ≤ 1) (hr : text.all isFieldByte = true) (hf : ∀ f ∈ fs, f.WellFormed)
    (hs : fs.length ≤ slots) :
    response slots (statusLine minor status text ++ CRLF ++ headerBlock fs) =
      .ok (some (⟨some minor, some status.code, fs.map RawHeader.trimmed⟩, [])) := by
  have hsplit : statusLine minor status text ++ CRLF ++ headerBlock fs =
      versionText minor ++ SP :: (status.text ++ SP :: (text ++ (CRLF ++ (headerBlock fs ++ [])))) := by
    simp [statusLine]
  have hstop : ∀ b ∈ (CRLF ++ (headerBlock fs ++ [])).head?, isFieldByte b = false := by
    simp; decide
  rw [response, hsplit, version_append hv, andThen_ok, space_cons, andThen_ok, code_text, andThen_ok,
    space_cons, andThen_ok, reason, dropWhile_append_stop hr hstop, newline_crlf, andThen_ok,
    fields_block fs hf slots hs]
  rfl

end Reference

def reference : Crates where
  Uri := Reference.Target
  uriFromShared := Reference.Target.parse
  uriDisplay t := [t.1]
  uriScheme := Reference.Target.scheme
  uriAuthority := Reference.Target.authority
  uriPath := Reference.Target.path
  uriPathAndQuery := Reference.Target.pathAndQuery
  authority := Reference.isAuthority
  authorityPort := Reference.hasPort
  headerValueFromStr bytes := if bytes.all (· < 127) then Reference.headerValue bytes else none
  parseHeaders input slots := Reference.report input (Reference.fields slots input)
  parseRequest input slots := Reference.report input (Reference.request slots input)
  parseResponse input slots := Reference.report input (Reference.response slots input)
  headerName := Reference.headerName
  headerValue := Reference.headerValue
  methodFromBytes := Reference.method
  mapCapacity n := n ≤ 24576
  canonicalReason status :=
    if status = .ok then some (ascii "OK")
    else if status = .switchingProtocols then some (ascii "Switching Protocols")
    else if status = .noContent then some (ascii "No Content")
    else none
  reserve _ _ := true

namespace Reference

theorem headersWithin : reference.HeadersWithin := by
  intro input slots consumed headers h
  simp only [reference, report] at h
  split at h <;> cases h
  exact Nat.sub_le _ _

theorem headerBlocks : reference.HeaderBlocks := by
  intro fs slots h hs
  have hb := fields_block fs h slots hs []
  rw [List.append_nil] at hb
  simp [reference, report, hb]

theorem requestHeads : reference.RequestHeads := by
  intro method target minor fs slots hm ht hv hf hs
  simp only [reference, request_head hm ht hv hf hs, report, List.length_nil, Nat.sub_zero]

theorem responseHeads : reference.ResponseHeads := by
  intro minor status reason fs slots hv hr hf hs
  simp only [reference, response_head hv hr hf hs, report, List.length_nil, Nat.sub_zero]

theorem keepsMethods : reference.KeepsMethods := by
  intro m
  simp only [reference, method, dif_pos m.token]

theorem plainReasons : reference.PlainReasons := by
  intro status reason h
  simp only [reference] at h
  split_ifs at h <;> cases h <;> decide

theorem foldsNames : reference.FoldsNames := by
  intro n text h
  have hl : text.length ≤ 65535 := by
    have := n.short
    rw [← h] at this
    simpa [lowercase] using this
  have hd : isToken (lowercase text) = true ∧ text.length ≤ 65535 := ⟨h ▸ n.token, hl⟩
  simp only [reference, headerName, dif_pos hd]
  cases n
  simpa using h

theorem keepsValues : reference.KeepsValues := by
  intro v
  simp only [reference, headerValue, dif_pos v.visible]

end Reference
end Vakya
