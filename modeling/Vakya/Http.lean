import Vakya.Syntax
import Mathlib.Data.List.Nodup

/-!
# Message value types and the crates the code calls

The value types of the `http` crate, reduced to what the code reads, and the
functions of `http` and `httparse` whose bodies are not part of the repository.
The latter are a parameter, `Crates`; what a result needs of them is a named
hypothesis.
-/

namespace Vakya

inductive Version
  | http09
  | http10
  | http11
  | http2
  | http3
deriving DecidableEq, Repr

/-- A method name is a nonempty token; methods compare by their bytes. -/
structure Method where
  text : Bytes
  token : isToken text = true
deriving DecidableEq

namespace Method

def get : Method := ⟨ascii "GET", by decide⟩
def head : Method := ⟨ascii "HEAD", by decide⟩
def post : Method := ⟨ascii "POST", by decide⟩
def connect : Method := ⟨ascii "CONNECT", by decide⟩
def options : Method := ⟨ascii "OPTIONS", by decide⟩

end Method

structure StatusCode where
  code : ℕ
  three_digits : 100 ≤ code ∧ code ≤ 999
deriving DecidableEq

namespace StatusCode

def switchingProtocols : StatusCode := ⟨101, by decide⟩
def ok : StatusCode := ⟨200, by decide⟩
def noContent : StatusCode := ⟨204, by decide⟩
def resetContent : StatusCode := ⟨205, by decide⟩
def notModified : StatusCode := ⟨304, by decide⟩

def text (s : StatusCode) : Bytes :=
  [s.code / 100, s.code / 10 % 10, s.code % 10].map fun d => (48 + d).toUInt8

def isInformational (s : StatusCode) : Bool := 100 ≤ s.code && s.code < 200
def isSuccess (s : StatusCode) : Bool := 200 ≤ s.code && s.code < 300

end StatusCode

/-- Field names are kept lowercase, and the crate bounds their length. -/
structure HeaderName where
  text : Bytes
  token : isToken text = true
  lower : lowercase text = text
  short : text.length ≤ 65535
deriving DecidableEq

def isFieldByte (b : UInt8) : Bool := b == HTAB || (32 ≤ b && b != 127)

structure HeaderValue where
  bytes : Bytes
  visible : bytes.all isFieldByte = true
deriving DecidableEq

def HeaderValue.trimmed (v : HeaderValue) : HeaderValue where
  bytes := trimOws v.bytes
  visible := List.all_eq_true.mpr fun b hb =>
    List.all_eq_true.mp v.visible b (mem_of_mem_trimOws hb)

namespace HeaderName

def host : HeaderName := ⟨ascii "host", by decide, by decide, by decide⟩
def connection : HeaderName := ⟨ascii "connection", by decide, by decide, by decide⟩
def contentLength : HeaderName := ⟨ascii "content-length", by decide, by decide, by decide⟩
def transferEncoding : HeaderName := ⟨ascii "transfer-encoding", by decide, by decide, by decide⟩
def trailer : HeaderName := ⟨ascii "trailer", by decide, by decide, by decide⟩
def te : HeaderName := ⟨ascii "te", by decide, by decide, by decide⟩
def upgrade : HeaderName := ⟨ascii "upgrade", by decide, by decide, by decide⟩
def expect : HeaderName := ⟨ascii "expect", by decide, by decide, by decide⟩
def authorization : HeaderName := ⟨ascii "authorization", by decide, by decide, by decide⟩
def proxyAuthorization : HeaderName := ⟨ascii "proxy-authorization", by decide, by decide, by decide⟩
def proxyAuthenticate : HeaderName := ⟨ascii "proxy-authenticate", by decide, by decide, by decide⟩
def wwwAuthenticate : HeaderName := ⟨ascii "www-authenticate", by decide, by decide, by decide⟩
def contentEncoding : HeaderName := ⟨ascii "content-encoding", by decide, by decide, by decide⟩
def contentType : HeaderName := ⟨ascii "content-type", by decide, by decide, by decide⟩
def contentRange : HeaderName := ⟨ascii "content-range", by decide, by decide, by decide⟩
def date : HeaderName := ⟨ascii "date", by decide, by decide, by decide⟩

end HeaderName

/-- A multimap: names in iteration order, each with its values in insertion order. -/
structure HeaderMap (V : Type) where
  entries : List (HeaderName × List V)
  names_nodup : (entries.map Prod.fst).Nodup
  values_ne_nil : ∀ e ∈ entries, e.2 ≠ []
deriving DecidableEq

namespace HeaderMap

variable {V : Type}

@[ext] theorem ext {m m' : HeaderMap V} (h : m.entries = m'.entries) : m = m' := by
  cases m; cases m'; simp_all

def empty : HeaderMap V := ⟨[], by simp, by simp⟩

def keys (m : HeaderMap V) : List HeaderName := m.entries.map Prod.fst

def getAll (m : HeaderMap V) (n : HeaderName) : List V :=
  ((m.entries.find? fun e => e.1 = n).map Prod.snd).getD []

def containsKey (m : HeaderMap V) (n : HeaderName) : Bool := m.keys.contains n

def iter (m : HeaderMap V) : List (HeaderName × V) :=
  m.entries.flatMap fun e => e.2.map fun v => (e.1, v)

/-- Replace the values of `n` by `f` of the present ones, at the end if absent. -/
def updateEntries (n : HeaderName) (f : List V → List V) :
    List (HeaderName × List V) → List (HeaderName × List V)
  | [] => [(n, f [])]
  | e :: es => if e.1 = n then (n, f e.2) :: es else e :: updateEntries n f es

theorem map_fst_updateEntries (n : HeaderName) (f : List V → List V)
    (es : List (HeaderName × List V)) :
    (updateEntries n f es).map Prod.fst =
      if n ∈ es.map Prod.fst then es.map Prod.fst else es.map Prod.fst ++ [n] := by
  induction es with
  | nil => simp [updateEntries]
  | cons e es ih =>
    by_cases h : e.1 = n
    · simp [updateEntries, h]
    · have hn : n ≠ e.1 := fun h' => h h'.symm
      simp only [updateEntries, if_neg h, List.map_cons, ih, List.mem_cons, hn, false_or]
      split_ifs <;> rfl

theorem mem_updateEntries {n : HeaderName} {f : List V → List V}
    {es : List (HeaderName × List V)} {e : HeaderName × List V}
    (h : e ∈ updateEntries n f es) : e ∈ es ∨ ∃ vs, e = (n, f vs) := by
  induction es with
  | nil => exact .inr ⟨[], by simpa [updateEntries] using h⟩
  | cons e' es ih =>
    by_cases hn : e'.1 = n
    · simp only [updateEntries, if_pos hn, List.mem_cons] at h
      rcases h with rfl | h
      · exact .inr ⟨_, rfl⟩
      · exact .inl (List.mem_cons_of_mem _ h)
    · simp only [updateEntries, if_neg hn, List.mem_cons] at h
      rcases h with rfl | h
      · exact .inl (List.mem_cons_self ..)
      · exact (ih h).imp (List.mem_cons_of_mem _) id

def update (m : HeaderMap V) (n : HeaderName) (f : List V → List V) (hf : ∀ vs, f vs ≠ []) :
    HeaderMap V where
  entries := updateEntries n f m.entries
  names_nodup := by
    rw [map_fst_updateEntries]
    split_ifs with h
    · exact m.names_nodup
    · exact List.nodup_append.mpr ⟨m.names_nodup, by simp, by
        intro a ha b hb
        rw [List.mem_singleton.mp hb]
        exact fun hab => h (hab ▸ ha)⟩
  values_ne_nil := by
    intro e he
    rcases mem_updateEntries he with h | ⟨vs, rfl⟩
    · exact m.values_ne_nil e h
    · exact hf vs

def append (m : HeaderMap V) (n : HeaderName) (v : V) : HeaderMap V :=
  m.update n (· ++ [v]) (by simp)

def insert (m : HeaderMap V) (n : HeaderName) (v : V) : HeaderMap V :=
  m.update n (fun _ => [v]) (by simp)

theorem find?_updateEntries_self (n : HeaderName) (f : List V → List V)
    (es : List (HeaderName × List V)) :
    ((updateEntries n f es).find? fun e => e.1 = n).map Prod.snd =
      some (f (((es.find? fun e => e.1 = n).map Prod.snd).getD [])) := by
  induction es with
  | nil => simp [updateEntries]
  | cons e es ih =>
    by_cases h : e.1 = n
    · simp [updateEntries, h]
    · simpa [updateEntries, h] using ih

theorem find?_updateEntries_ne {n m : HeaderName} (hne : m ≠ n) (f : List V → List V)
    (es : List (HeaderName × List V)) :
    ((updateEntries n f es).find? fun e => e.1 = m) = es.find? fun e => e.1 = m := by
  induction es with
  | nil => simp [updateEntries, hne.symm]
  | cons e es ih =>
    by_cases h : e.1 = n
    · simp [updateEntries, h, hne.symm]
    · simp only [updateEntries, if_neg h, List.find?_cons, ih]

@[simp] theorem getAll_empty (n : HeaderName) : (empty : HeaderMap V).getAll n = [] := rfl

theorem getAll_update_self (m : HeaderMap V) (n : HeaderName) (f : List V → List V)
    (hf : ∀ vs, f vs ≠ []) : (m.update n f hf).getAll n = f (m.getAll n) := by
  simp [getAll, update, find?_updateEntries_self]

theorem getAll_update_ne (m : HeaderMap V) {n n' : HeaderName} (hne : n' ≠ n)
    (f : List V → List V) (hf : ∀ vs, f vs ≠ []) : (m.update n f hf).getAll n' = m.getAll n' := by
  simp [getAll, update, find?_updateEntries_ne hne]

@[simp] theorem getAll_append_self (m : HeaderMap V) (n : HeaderName) (v : V) :
    (m.append n v).getAll n = m.getAll n ++ [v] := m.getAll_update_self n _ _

theorem getAll_append_ne (m : HeaderMap V) {n n' : HeaderName} (hne : n' ≠ n) (v : V) :
    (m.append n v).getAll n' = m.getAll n' := m.getAll_update_ne hne _ _

@[simp] theorem getAll_insert_self (m : HeaderMap V) (n : HeaderName) (v : V) :
    (m.insert n v).getAll n = [v] := m.getAll_update_self n _ _

theorem getAll_insert_ne (m : HeaderMap V) {n n' : HeaderName} (hne : n' ≠ n) (v : V) :
    (m.insert n v).getAll n' = m.getAll n' := m.getAll_update_ne hne _ _

def remove (m : HeaderMap V) (n : HeaderName) : HeaderMap V where
  entries := m.entries.filter fun e => e.1 ≠ n
  names_nodup := m.names_nodup.sublist (List.filter_sublist.map _)
  values_ne_nil := fun e he => m.values_ne_nil e (List.mem_of_mem_filter he)

@[simp] theorem getAll_remove_self (m : HeaderMap V) (n : HeaderName) :
    (m.remove n).getAll n = [] := by
  have hnone : (m.entries.filter fun e => e.1 ≠ n).find? (fun e => e.1 = n) = none := by
    simp [List.find?_eq_none]
  simp only [getAll, remove, hnone, Option.map_none, Option.getD_none]

theorem getAll_remove_ne (m : HeaderMap V) {n n' : HeaderName} (hne : n' ≠ n) :
    (m.remove n).getAll n' = m.getAll n' := by
  have hsame : (m.entries.filter fun e => e.1 ≠ n).find? (fun e => e.1 = n') =
      m.entries.find? fun e => e.1 = n' := by
    rw [List.find?_filter]
    congr 1
    funext e
    by_cases he : e.1 = n'
    · simp [he, hne]
    · simp [he]
  simp only [getAll, remove, hsame]

def setAll (m : HeaderMap V) (n : HeaderName) (vs : List V) : HeaderMap V :=
  vs.foldl (fun m v => m.append n v) (m.remove n)

@[simp] theorem getAll_setAll_self (m : HeaderMap V) (n : HeaderName) (vs : List V) :
    (m.setAll n vs).getAll n = vs := by
  have key (m' : HeaderMap V) : (vs.foldl (fun m v => m.append n v) m').getAll n =
      m'.getAll n ++ vs := by
    induction vs generalizing m' with
    | nil => simp
    | cons v vs ih => simp [ih]
  simp [setAll, key]

theorem getAll_setAll_ne (m : HeaderMap V) {n n' : HeaderName} (hne : n' ≠ n) (vs : List V) :
    (m.setAll n vs).getAll n' = m.getAll n' := by
  have key (m' : HeaderMap V) : (vs.foldl (fun m v => m.append n v) m').getAll n' =
      m'.getAll n' := by
    induction vs generalizing m' with
    | nil => rfl
    | cons v vs ih => rw [List.foldl_cons, ih, getAll_append_ne _ hne]
  rw [setAll, key, getAll_remove_ne _ hne]

theorem insert_insert (m : HeaderMap V) (n : HeaderName) (v : V) :
    (m.insert n v).insert n v = m.insert n v := by
  have key (es : List (HeaderName × List V)) :
      updateEntries n (fun _ => [v]) (updateEntries n (fun _ => [v]) es) =
        updateEntries n (fun _ => [v]) es := by
    induction es with
    | nil => simp [updateEntries]
    | cons e es ih => by_cases h : e.1 = n <;> simp [updateEntries, h, ih]
  exact ext (key m.entries)

theorem containsKey_iff (m : HeaderMap V) (n : HeaderName) :
    m.containsKey n = true ↔ m.getAll n ≠ [] := by
  simp only [containsKey, keys, List.contains_iff_mem, List.mem_map, getAll]
  constructor
  · rintro ⟨e, he, rfl⟩
    have hs : (m.entries.find? fun e' => e'.1 = e.1).isSome := by
      simpa using ⟨e.2, he⟩
    obtain ⟨e', he'⟩ := Option.isSome_iff_exists.mp hs
    simpa [he'] using m.values_ne_nil e' (List.mem_of_find?_eq_some he')
  · intro h
    cases hf : m.entries.find? fun e => e.1 = n with
    | none => simp [hf] at h
    | some e =>
      exact ⟨e, List.mem_of_find?_eq_some hf, by simpa using List.find?_some hf⟩

theorem getAll_of_mem (m : HeaderMap V) {n : HeaderName} {vs : List V} (h : (n, vs) ∈ m.entries) :
    m.getAll n = vs := by
  have hf : m.entries.find? (fun e => e.1 = n) = some (n, vs) := by
    have hs : (m.entries.find? fun e => e.1 = n).isSome := by
      simpa using ⟨vs, h⟩
    obtain ⟨e, he⟩ := Option.isSome_iff_exists.mp hs
    have hn : e.1 = n := by simpa using List.find?_some he
    have hmem : e ∈ m.entries := List.mem_of_find?_eq_some he
    rw [he, List.inj_on_of_nodup_map m.names_nodup hmem h hn]
  simp [getAll, hf]

theorem flatMap_getAll (m : HeaderMap V) :
    (m.keys.flatMap fun n => (m.getAll n).map (n, ·)) = m.iter := by
  simp only [keys, iter, List.flatMap_map]
  exact List.flatMap_congr fun e he => by rw [m.getAll_of_mem he]

def mapValues {W : Type} (m : HeaderMap V) (f : V → W) : HeaderMap W where
  entries := m.entries.map fun e => (e.1, e.2.map f)
  names_nodup := by
    rw [List.map_map]
    exact m.names_nodup
  values_ne_nil := by
    intro e he
    obtain ⟨e', he', rfl⟩ := List.mem_map.mp he
    simpa using m.values_ne_nil e' he'

@[simp] theorem getAll_mapValues {W : Type} (m : HeaderMap V) (f : V → W) (n : HeaderName) :
    (m.mapValues f).getAll n = (m.getAll n).map f := by
  simp only [getAll, mapValues, List.find?_map]
  have hkey : ((fun e : HeaderName × List W => decide (e.1 = n)) ∘
      fun e : HeaderName × List V => (e.1, e.2.map f)) = fun e => decide (e.1 = n) := rfl
  rw [hkey]
  cases m.entries.find? fun e => decide (e.1 = n) <;> rfl

def ofList (pairs : List (HeaderName × V)) : HeaderMap V :=
  pairs.foldl (fun m e => m.append e.1 e.2) empty

theorem updateEntries_append_of_notMem {n : HeaderName} (f : List V → List V)
    {es : List (HeaderName × List V)} (h : n ∉ es.map Prod.fst) (es' : List (HeaderName × List V)) :
    updateEntries n f (es ++ es') = es ++ updateEntries n f es' := by
  induction es with
  | nil => rfl
  | cons e es ih =>
    simp only [List.map_cons, List.mem_cons, not_or] at h
    rw [List.cons_append, updateEntries, if_neg (Ne.symm h.1), ih h.2, List.cons_append]

theorem entries_foldl_append_last {n : HeaderName} (vs : List V) (m : HeaderMap V)
    {es : List (HeaderName × List V)} {us : List V} (hm : m.entries = es ++ [(n, us)])
    (h : n ∉ es.map Prod.fst) :
    ((vs.map (n, ·)).foldl (fun m e => m.append e.1 e.2) m).entries = es ++ [(n, us ++ vs)] := by
  induction vs generalizing m us with
  | nil => simpa using hm
  | cons v vs ih =>
    have hv : (m.append n v).entries = es ++ [(n, us ++ [v])] := by
      simp [append, update, hm, updateEntries_append_of_notMem _ h, updateEntries]
    simpa using ih (m.append n v) hv

theorem entries_foldl_append (es' : List (HeaderName × List V)) (m : HeaderMap V)
    (hne : ∀ e ∈ es', e.2 ≠ []) (hnd : (m.entries.map Prod.fst ++ es'.map Prod.fst).Nodup) :
    ((es'.flatMap fun e => e.2.map (e.1, ·)).foldl (fun m e => m.append e.1 e.2) m).entries =
      m.entries ++ es' := by
  induction es' generalizing m with
  | nil => simp
  | cons e es' ih =>
    obtain ⟨n, vs⟩ := e
    obtain ⟨v, vs, rfl⟩ := List.exists_cons_of_ne_nil (hne (n, vs) (by simp))
    have hn : n ∉ m.entries.map Prod.fst := by
      rw [List.nodup_append] at hnd
      exact fun hin => hnd.2.2 n hin n (by simp) rfl
    have h1 : (m.append n v).entries = m.entries ++ [(n, [v])] := by
      have := updateEntries_append_of_notMem (· ++ [v]) hn []
      rw [List.append_nil] at this
      exact this
    have h2 := entries_foldl_append_last vs (m.append n v) h1 hn
    have hnd' : ((m.entries ++ [(n, v :: vs)]).map Prod.fst ++ es'.map Prod.fst).Nodup := by
      simpa using hnd
    simp only [List.flatMap_cons, List.map_cons, List.cons_append, List.foldl_cons,
      List.foldl_append]
    rw [ih _ (fun e he => hne e (by simp [he])) (by rw [h2]; exact hnd'), h2]
    simp

theorem ofList_iter (m : HeaderMap V) : ofList m.iter = m := by
  have h := entries_foldl_append m.entries empty m.values_ne_nil (by simpa [empty] using m.names_nodup)
  exact ext h

theorem iter_mapValues {W : Type} (m : HeaderMap V) (f : V → W) :
    (m.mapValues f).iter = m.iter.map fun e => (e.1, f e.2) := by
  simp [iter, mapValues, List.flatMap_map, List.map_flatMap, Function.comp_def]

end HeaderMap

abbrev Headers := HeaderMap HeaderValue

/-- `HeaderCaseMap` of `header_case.rs`: the received spellings of each name, in value order.
Only a spelling of the name itself is ever appended under it. -/
structure HeaderCaseMap where
  map : HeaderMap Bytes
  folds : ∀ n, ∀ original ∈ map.getAll n, lowercase original = n.text

namespace HeaderCaseMap

def empty : HeaderCaseMap := ⟨.empty, by simp⟩

def append (m : HeaderCaseMap) (name : HeaderName) (original : Bytes)
    (h : lowercase original = name.text) : HeaderCaseMap where
  map := m.map.append name original
  folds := by
    intro n o ho
    by_cases hn : n = name
    · subst hn
      rw [HeaderMap.getAll_append_self, List.mem_append, List.mem_singleton] at ho
      rcases ho with ho | rfl
      · exact m.folds n o ho
      · exact h
    · rw [HeaderMap.getAll_append_ne _ hn] at ho
      exact m.folds n o ho

def getAll (m : HeaderCaseMap) (name : HeaderName) : List Bytes := m.map.getAll name

end HeaderCaseMap

/-- A field as `httparse` reports it: slices of its input. -/
structure RawHeader where
  name : Bytes
  value : Bytes
deriving DecidableEq

inductive HttparseError
  | headerName
  | headerValue
  | newLine
  | status
  | token
  | tooManyHeaders
  | version
deriving DecidableEq

inductive Parsed (A : Type)
  | complete (consumed : ℕ) (value : A)
  | incomplete
deriving DecidableEq

structure RawRequest where
  method : Option Bytes
  path : Option Bytes
  version : Option ℕ
  headers : List RawHeader

structure RawResponse where
  version : Option ℕ
  code : Option ℕ
  headers : List RawHeader

/-- The functions of `httparse` and `http` that the code calls. -/
structure Crates where
  /-- `http::Uri`, with the parts the code looks at. -/
  Uri : Type
  /-- `Uri::from_maybe_shared`. -/
  uriFromShared : Bytes → Option Uri
  /-- The strings that `Display for Uri` writes, in order. -/
  uriDisplay : Uri → List Bytes
  uriScheme : Uri → Option Bytes
  uriAuthority : Uri → Option Bytes
  uriPath : Uri → Bytes
  uriPathAndQuery : Uri → Option Bytes
  /-- Whether a string parses as an `Authority`. -/
  authority : Bytes → Bool
  /-- Whether `Authority::port` is present. -/
  authorityPort : Bytes → Bool
  /-- `httparse::parse_headers` with the number of header slots. -/
  parseHeaders : Bytes → ℕ → Except HttparseError (Parsed (List RawHeader))
  /-- `parse_request_with_uninit_headers` with the number of header slots. -/
  parseRequest : Bytes → ℕ → Except HttparseError (Parsed RawRequest)
  /-- `parse_response_with_uninit_headers` with the number of header slots. -/
  parseResponse : Bytes → ℕ → Except HttparseError (Parsed RawResponse)
  /-- `HeaderName::from_bytes`. -/
  headerName : Bytes → Option HeaderName
  /-- `HeaderValue::from_bytes`. -/
  headerValue : Bytes → Option HeaderValue
  /-- `HeaderValue::from_str`. -/
  headerValueFromStr : Bytes → Option HeaderValue
  /-- `Method::from_bytes`. -/
  methodFromBytes : Bytes → Option Method
  /-- Whether `HeaderMap::try_with_capacity` succeeds. -/
  mapCapacity : ℕ → Bool
  /-- `StatusCode::canonical_reason`. -/
  canonicalReason : StatusCode → Option Bytes
  /-- Whether `Vec::try_reserve` succeeds, for a length and the bytes to be added. -/
  reserve : ℕ → ℕ → Bool

namespace RawHeader

def line (f : RawHeader) : Bytes := f.name ++ COLON :: f.value ++ CRLF

def trimmed (f : RawHeader) : RawHeader := { f with value := trimOws f.value }

def WellFormed (f : RawHeader) : Prop := isToken f.name = true ∧ f.value.all isFieldByte = true

end RawHeader

def headerBlock (fields : List RawHeader) : Bytes := fields.flatMap RawHeader.line ++ CRLF

def versionText (minor : ℕ) : Bytes := if minor = 0 then ascii "HTTP/1.0" else ascii "HTTP/1.1"

def requestLine (method target : Bytes) (minor : ℕ) : Bytes :=
  method ++ SP :: (target ++ SP :: versionText minor)

def statusLine (minor : ℕ) (status : StatusCode) (reason : Bytes) : Bytes :=
  versionText minor ++ SP :: (status.text ++ SP :: reason)

/-- The bytes `httparse` takes for a request target. -/
def isTarget (text : Bytes) : Bool :=
  !text.isEmpty && isUtf8 text && text.all fun b => 33 ≤ b && b != 127

namespace Crates

/-- `httparse` never reports more bytes consumed than it was given. -/
def HeadersWithin (x : Crates) : Prop :=
  ∀ input slots consumed headers,
    x.parseHeaders input slots = .ok (.complete consumed headers) → consumed ≤ input.length

/-- `httparse` reads a CRLF header block into its fields, without the outer whitespace of values. -/
def HeaderBlocks (x : Crates) : Prop :=
  ∀ fields slots, (∀ f ∈ fields, f.WellFormed) → fields.length ≤ slots →
    x.parseHeaders (headerBlock fields) slots =
      .ok (.complete (headerBlock fields).length (fields.map RawHeader.trimmed))

/-- `httparse` reads a request head into its method, target, version and fields. -/
def RequestHeads (x : Crates) : Prop :=
  ∀ method target minor fields slots, isToken method = true → isTarget target = true → minor ≤ 1 →
    (∀ f ∈ fields, f.WellFormed) → fields.length ≤ slots →
    x.parseRequest (requestLine method target minor ++ CRLF ++ headerBlock fields) slots =
      .ok (.complete (requestLine method target minor ++ CRLF ++ headerBlock fields).length
        ⟨some method, some target, some minor, fields.map RawHeader.trimmed⟩)

/-- `httparse` reads a response head into its version, status code and fields. -/
def ResponseHeads (x : Crates) : Prop :=
  ∀ minor (status : StatusCode) reason fields slots, minor ≤ 1 →
    reason.all isFieldByte = true → (∀ f ∈ fields, f.WellFormed) → fields.length ≤ slots →
    x.parseResponse (statusLine minor status reason ++ CRLF ++ headerBlock fields) slots =
      .ok (.complete (statusLine minor status reason ++ CRLF ++ headerBlock fields).length
        ⟨some minor, some status.code, fields.map RawHeader.trimmed⟩)

/-- `Method::from_bytes` takes the text of every method. -/
def KeepsMethods (x : Crates) : Prop := ∀ m : Method, x.methodFromBytes m.text = some m

def PlainReasons (x : Crates) : Prop :=
  ∀ status reason, x.canonicalReason status = some reason → reason.all isFieldByte = true

/-- `HeaderName::from_bytes` ignores the case of a name. -/
def FoldsNames (x : Crates) : Prop :=
  ∀ (n : HeaderName) (text : Bytes), lowercase text = n.text → x.headerName text = some n

/-- `HeaderValue::from_bytes` takes the bytes of every value. -/
def KeepsValues (x : Crates) : Prop := ∀ v : HeaderValue, x.headerValue v.bytes = some v

end Crates

end Vakya
