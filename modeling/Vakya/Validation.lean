import Vakya.Members
import Vakya.Reference

/-!
# What validation decides

The framing fields of an accepted request are unambiguous, local and received
validation differ only where an HTTP/1.0 recipient ignores a field, and which
responses are taken to end with their head.
-/

namespace Vakya

def decimalValue (digits : Bytes) : ℕ :=
  digits.foldl (fun value digit => value * 10 + (digit.toNat - 48)) 0

theorem le_foldl_decimal (digits : Bytes) (value : ℕ) :
    value ≤ digits.foldl (fun value digit => value * 10 + (digit.toNat - 48)) value := by
  induction digits generalizing value with
  | nil => exact le_rfl
  | cons d digits ih =>
    have := ih (value * 10 + (d.toNat - 48))
    simp only [List.foldl_cons]
    omega

theorem checkedStep_eq (value digit : ℕ) : (checkedMul value 10).bind (checkedAdd · digit) =
    if value * 10 + digit < wordSize then some (value * 10 + digit) else none := by
  unfold checkedMul checkedAdd
  split_ifs with h1 h2 h2
  · simp [h2]
  · simp [h2]
  · omega
  · rfl

theorem decimalFold_eq_some {digits : Bytes} {n : ℕ} :
    decimalFold digits = some n ↔ decimalValue digits = n ∧ n < wordSize := by
  have key (value : ℕ) (hv : value < wordSize) :
      digits.foldlM (fun value digit => if value * 10 + (digit.toNat - 48) < wordSize then
        some (value * 10 + (digit.toNat - 48)) else none) value = some n ↔
      digits.foldl (fun value digit => value * 10 + (digit.toNat - 48)) value = n ∧ n < wordSize := by
    induction digits generalizing value with
    | nil =>
      simp only [List.foldlM_nil, List.foldl_nil, pure, Option.some.injEq]
      exact ⟨fun h => ⟨h, h ▸ hv⟩, fun h => h.1⟩
    | cons d digits ih =>
      simp only [List.foldlM_cons, List.foldl_cons, Option.bind_eq_bind]
      split_ifs with h
      · exact ih _ h
      · have := le_foldl_decimal digits (value * 10 + (d.toNat - 48))
        simp only [Option.bind_none, reduceCtorEq, false_iff, not_and, not_lt]
        rintro rfl
        omega
  simp only [decimalFold, checkedStep_eq]
  exact key 0 (by decide)

def IsLength (n : ℕ) (member : Bytes) : Prop :=
  member ≠ [] ∧ member.all isAsciiDigit = true ∧ decimalValue member = n

theorem contentLengthMember_ok {parsed r : Option ℕ} {member : Bytes}
    (h : contentLengthMember parsed member = .ok r) :
    ∃ n < wordSize, r = some n ∧ IsLength n member ∧ (parsed = none ∨ parsed = some n) := by
  unfold contentLengthMember at h
  split_ifs at h with hc
  simp only [Bool.or_eq_true, List.isEmpty_iff, Bool.not_eq_true', not_or, Bool.not_eq_false] at hc
  cases hd : decimalFold member with
  | none => simp [hd] at h
  | some n =>
    simp only [hd] at h
    split_ifs at h with hp
    obtain ⟨hval, hlt⟩ := decimalFold_eq_some.mp hd
    refine ⟨n, hlt, (Except.ok.inj h).symm, ⟨hc.1, hc.2, hval⟩, ?_⟩
    cases parsed with
    | none => exact .inl rfl
    | some k => exact .inr (by simpa using hp)

theorem contentLength_fold {ms : List Bytes} {parsed r : Option ℕ}
    (h : ms.foldlM contentLengthMember parsed = .ok r) :
    (ms = [] ∧ r = parsed) ∨ ∃ n < wordSize, r = some n ∧ (∀ m ∈ ms, IsLength n m) ∧
      (parsed = none ∨ parsed = some n) := by
  induction ms generalizing parsed with
  | nil => exact .inl ⟨rfl, by cases h; rfl⟩
  | cons m ms ih =>
    obtain ⟨a, h1, h2⟩ := foldlM_cons_eq_ok.mp h
    obtain ⟨n, hn, rfl, hm, hp⟩ := contentLengthMember_ok h1
    refine .inr ?_
    rcases ih h2 with ⟨rfl, rfl⟩ | ⟨k, -, rfl, hms, hk⟩
    · exact ⟨n, hn, rfl, by simpa using hm, hp⟩
    · obtain rfl : n = k := by simpa using hk
      exact ⟨n, hn, rfl, by simpa using ⟨hm, hms⟩, hp⟩

theorem IsLength.plain {n : ℕ} {member : Bytes} (h : IsLength n member) : DQUOTE ∉ member :=
  fun hin => absurd (List.all_eq_true.mp h.2.1 _ hin) (by decide)

theorem parseContentLength_ok {headers : Headers} {r : Option ℕ}
    (h : parseContentLength headers = .ok r) :
    (r = none ∧ headers.getAll .contentLength = []) ∨
      ∃ n < wordSize, r = some n ∧ headers.getAll .contentLength ≠ [] ∧
        ∀ m ∈ commaMembers (headers.getAll .contentLength), IsLength n m := by
  unfold parseContentLength at h
  simp only at h
  cases hf : forEachMember .invalidContentLength (fun a m => contentLengthMember a (trimOws m))
      (headers.getAll .contentLength) none with
  | error e => simp [hf] at h
  | ok parsed =>
    simp only [hf] at h
    split_ifs at h
    cases h
    obtain ⟨ms, hms, hfold⟩ := forEachMember_eq_ok.mp hf
    rw [← List.foldlM_map] at hfold
    rcases contentLength_fold hfold with ⟨hnil, rfl⟩ | ⟨n, hn, rfl, hall, -⟩
    · obtain rfl : ms = [] := by simpa using hnil
      exact .inl ⟨rfl, eq_nil_of_fieldMembers hms⟩
    · refine .inr ⟨n, hn, rfl, ?_, ?_⟩
      · intro hnil
        rw [hnil] at hms
        obtain rfl := Option.some.inj hms
        cases hfold
      · have hplain : ∀ m ∈ ms, DQUOTE ∉ trimOws m := fun m hm =>
          (hall _ (List.mem_map_of_mem hm)).plain
        rwa [← fieldMembers_eq_commaMembers hms hplain]

theorem not_mem_of_eqIgnoreAsciiCase {text word : Bytes} {b : UInt8}
    (h : eqIgnoreAsciiCase text word = true) (hb : toAsciiLowercase b ∉ lowercase word) :
    b ∉ text := by
  intro hin
  have heq : lowercase text = lowercase word := by simpa [eqIgnoreAsciiCase] using h
  exact hb (heq ▸ List.mem_map_of_mem hin)

/-- What one more coding does: the first `chunked` is remembered, any other coding is
unsupported. -/
theorem transferEncodingMember_cases {c c' : Codings} {member : Bytes}
    (h : transferEncodingMember c member = .ok c') :
    (c' = ⟨c.count + 1, some (c.count + 1), c.unsupported⟩ ∧ c.chunkedAt = none ∧
      eqIgnoreAsciiCase (trimOws member) (ascii "chunked") = true) ∨
    c' = ⟨c.count + 1, c.chunkedAt, true⟩ := by
  unfold transferEncodingMember at h
  obtain ⟨⟨coding, parameters⟩, h1, h⟩ := bind_eq_ok h
  obtain ⟨-, -, h⟩ := bind_eq_ok h
  obtain ⟨-, -, h⟩ := bind_eq_ok h
  simp only [splitCoding] at h1
  split_ifs at h1
  obtain ⟨rfl, rfl⟩ := Prod.mk.inj (Except.ok.inj h1)
  cases hadd : checkedAdd c.count 1 with
  | none => simp [hadd] at h
  | some count =>
    obtain rfl : c.count + 1 = count := by
      unfold checkedAdd at hadd
      split_ifs at hadd
      exact Option.some.inj hadd
    simp only [hadd] at h
    split_ifs at h with hch hbad
    · left
      simp only [Bool.or_eq_true, not_or, Bool.not_eq_true, Option.isSome_eq_false_iff,
        Option.isNone_iff_eq_none, Bool.not_eq_false', List.isEmpty_iff] at hbad
      have htake : member.takeWhile (· != SEMICOLON) = member := by
        have happ := List.takeWhile_append_dropWhile (p := (· != SEMICOLON)) (l := member)
        rwa [hbad.2, List.append_nil] at happ
      rw [htake] at hch
      exact ⟨(Except.ok.inj h).symm, hbad.1, hch⟩
    · exact .inr (Except.ok.inj h).symm

theorem transferEncoding_fold {ms : List Bytes} {c c' : Codings}
    (h : ms.foldlM transferEncodingMember c = .ok c') :
    c.count ≤ c'.count ∧ (c'.unsupported = false → c.unsupported = false) := by
  induction ms generalizing c with
  | nil =>
    cases h
    exact ⟨le_rfl, id⟩
  | cons m ms ih =>
    obtain ⟨a, h1, h2⟩ := foldlM_cons_eq_ok.mp h
    obtain ⟨hle, hun⟩ := ih h2
    rcases transferEncodingMember_cases h1 with ⟨rfl, -, -⟩ | rfl
    · exact ⟨by simp at hle; omega, hun⟩
    · exact ⟨by simp at hle; omega, fun hs => absurd (hun hs) (by simp)⟩

theorem parseTransferEncoding_ok {headers : Headers} {r : Option TransferFraming}
    (h : parseTransferEncoding headers = .ok r) :
    (r = none ∧ headers.getAll .transferEncoding = []) ∨
      (r = some .chunked ∧ ∃ m, commaMembers (headers.getAll .transferEncoding) = [m] ∧
        eqIgnoreAsciiCase m (ascii "chunked") = true) := by
  unfold parseTransferEncoding at h
  cases hf : forEachMember .invalidTransferEncoding
      (fun a m => transferEncodingMember a (trimOws m)) (headers.getAll .transferEncoding)
      ⟨0, none, false⟩ with
  | error e => simp [hf] at h
  | ok codings =>
    simp only [hf] at h
    obtain ⟨ms, hms, hfold⟩ := forEachMember_eq_ok.mp hf
    cases ms with
    | nil =>
      cases hfold
      exact .inl ⟨by cases h; rfl, eq_nil_of_fieldMembers hms⟩
    | cons m ms =>
      obtain ⟨c, h1, h2⟩ := foldlM_cons_eq_ok.mp hfold
      rw [← List.foldlM_map] at h2
      obtain ⟨hle, hun⟩ := transferEncoding_fold h2
      have hcount : c.count = 1 := by
        rcases transferEncodingMember_cases h1 with ⟨rfl, -, -⟩ | rfl <;> rfl
      rw [if_neg (by omega)] at h
      split_ifs at h with _ hs
      have hs := hun (by simpa using hs)
      obtain ⟨rfl, hword⟩ : c = ⟨1, some 1, false⟩ ∧
          eqIgnoreAsciiCase (trimOws m) (ascii "chunked") = true := by
        rcases transferEncodingMember_cases h1 with ⟨rfl, -, hw⟩ | rfl
        · exact ⟨rfl, by rwa [trimOws_idem] at hw⟩
        · cases hs
      -- A second member would have to be `chunked` too, and that is refused.
      obtain rfl : ms = [] := by
        cases ms with
        | nil => rfl
        | cons m' ms =>
          obtain ⟨c₂, h3, h4⟩ := foldlM_cons_eq_ok.mp h2
          rcases transferEncodingMember_cases h3 with ⟨-, hnone, -⟩ | rfl
          · cases hnone
          · exact absurd ((transferEncoding_fold h4).2 (by simp_all)) (by simp)
      have hplain : ∀ m' ∈ [m], DQUOTE ∉ trimOws m' := by
        simpa using not_mem_of_eqIgnoreAsciiCase hword (by decide)
      refine .inr ⟨(Except.ok.inj h).symm, trimOws m, ?_, hword⟩
      rw [← fieldMembers_eq_commaMembers hms hplain]
      rfl

/-- The only transfer coding is `chunked`, and nothing contradicts it. -/
def ChunkedFraming (headers : Headers) (version : Version) : Prop :=
  headers.getAll .transferEncoding ≠ [] ∧
    (∃ m, commaMembers (headers.getAll .transferEncoding) = [m] ∧
      eqIgnoreAsciiCase m (ascii "chunked") = true) ∧
    version = .http11 ∧ headers.getAll .contentLength = []

/-- Every length that is given is `n`, and there is no transfer coding. -/
def FixedFraming (headers : Headers) (n : ℕ) : Prop :=
  headers.getAll .contentLength ≠ [] ∧
    (∀ m ∈ commaMembers (headers.getAll .contentLength), IsLength n m) ∧ n < wordSize ∧
    headers.getAll .transferEncoding = []

def NoFraming (headers : Headers) : Prop :=
  headers.getAll .contentLength = [] ∧ headers.getAll .transferEncoding = []

theorem commaMembers_ne_nil {values : List HeaderValue} (h : values ≠ []) :
    commaMembers values ≠ [] := by
  obtain ⟨value, values, rfl⟩ := List.exists_cons_of_ne_nil h
  simp [commaMembers, splitOn]

theorem FixedFraming.unique {headers : Headers} {n k : ℕ} (hn : FixedFraming headers n)
    (hk : FixedFraming headers k) : n = k := by
  obtain ⟨m, hm⟩ := List.exists_mem_of_ne_nil _ (commaMembers_ne_nil hn.1)
  exact (hn.2.1 m hm).2.2.symm.trans (hk.2.1 m hm).2.2

theorem messageLength_ok {headers : Headers} {version : Version} {absent mode : BodyMode}
    (h : messageLength headers version absent = .ok mode) :
    (ChunkedFraming headers version ∧ mode = .chunked) ∨
      (∃ n, FixedFraming headers n ∧ mode = .fixed n) ∨ (NoFraming headers ∧ mode = absent) := by
  obtain ⟨length, encoding, hl, he, hboth, hversion, rfl⟩ := messageLength_eq_ok.mp h
  rcases parseTransferEncoding_ok he with ⟨rfl, hte⟩ | ⟨rfl, m, hte, hm⟩
  · rcases parseContentLength_ok hl with ⟨rfl, hcl⟩ | ⟨n, hn, rfl, hne, hcl⟩
    · exact .inr (.inr ⟨⟨hcl, hte⟩, rfl⟩)
    · exact .inr (.inl ⟨n, ⟨hne, hcl, hn, hte⟩, rfl⟩)
  · rcases parseContentLength_ok hl with ⟨rfl, hcl⟩ | ⟨n, hn, rfl, hne, hcl⟩
    · refine .inl ⟨⟨?_, ⟨m, hte, hm⟩, by simpa using hversion, hcl⟩, rfl⟩
      intro hnil
      rw [hnil] at hte
      cases hte
    · simp at hboth

/-- The framings exclude each other, so the mode says which one it is. -/
theorem mode_iff_framing {headers : Headers} {version : Version} {mode : BodyMode}
    (h : messageLength headers version .none = .ok mode) :
    (mode = .chunked ↔ ChunkedFraming headers version) ∧
      (∀ n, mode = .fixed n ↔ FixedFraming headers n) ∧ (mode = .none ↔ NoFraming headers) ∧
      mode ≠ .untilEof := by
  rcases messageLength_ok h with ⟨hc, rfl⟩ | ⟨n, hf, rfl⟩ | ⟨hno, rfl⟩
  · exact ⟨by simp [hc], fun n => by simpa using fun hf : FixedFraming headers n => hc.1 hf.2.2.2,
      by simpa using fun hno : NoFraming headers => hc.1 hno.2, by simp⟩
  · refine ⟨by simpa using fun hc : ChunkedFraming headers version => hc.1 hf.2.2.2, fun k => ?_,
      by simpa using fun hno : NoFraming headers => hf.1 hno.1, by simp⟩
    constructor
    · rintro ⟨⟩
      exact hf
    · intro hk
      rw [hf.unique hk]
  · exact ⟨by simpa using fun hc : ChunkedFraming headers version => hc.1 hno.2,
      fun n => by simpa using fun hf : FixedFraming headers n => hf.1 hno.1, by simp [hno], by simp⟩

theorem messageLength_congr {headers headers' : Headers}
    (hl : headers'.getAll .contentLength = headers.getAll .contentLength)
    (he : headers'.getAll .transferEncoding = headers.getAll .transferEncoding)
    (version : Version) (absent : BodyMode) :
    messageLength headers' version absent = messageLength headers version absent := by
  simp only [messageLength, parseContentLength, parseTransferEncoding, hl, he]

namespace RequestHead

variable {x : Crates}

theorem getAll_hostHeaders {head : RequestHead x} {form : TargetForm} {headers : Headers}
    (h : head.hostHeaders form = .ok headers) {n : HeaderName} (hn : n ≠ .host) :
    headers.getAll n = head.headers.getAll n := by
  unfold hostHeaders normalizeAbsoluteHost at h
  split_ifs at h
  · split at h
    · cases h
    · split_ifs at h
      split at h
      · cases h
      · cases h
        exact HeaderMap.getAll_insert_ne _ hn _
  · cases h
    rfl

theorem messageLength_of_validateFor {head : RequestHead x} {received : Bool}
    {v : ValidatedRequestHead x} (h : head.validateFor received = .ok v) :
    messageLength head.headers head.version .none = .ok v.body := by
  obtain ⟨form, headers, body, connection, expects, upgrade, -, -, hhost, hbody, -, -, -, -, rfl⟩ :=
    validateFor_eq_ok.mp h
  rwa [messageLength_congr (getAll_hostHeaders hhost (by decide))
    (getAll_hostHeaders hhost (by decide))] at hbody

/-- The body mode of an accepted request is its one framing, and a request whose fields are
none of the framings is rejected. -/
theorem request_framing (head : RequestHead x) (received : Bool) :
    (∀ v, head.validateFor received = .ok v →
      (v.body = .chunked ↔ ChunkedFraming head.headers head.version) ∧
      (∀ n, v.body = .fixed n ↔ FixedFraming head.headers n) ∧
      (v.body = .none ↔ NoFraming head.headers) ∧ v.body ≠ .untilEof) ∧
    (¬ ChunkedFraming head.headers head.version → (∀ n, ¬ FixedFraming head.headers n) →
      ¬ NoFraming head.headers → ∃ e, head.validateFor received = .error e) := by
  refine ⟨fun v h => mode_iff_framing (messageLength_of_validateFor h), ?_⟩
  intro hc hf hno
  cases h : head.validateFor received with
  | error e => exact ⟨e, rfl⟩
  | ok v =>
    rcases messageLength_ok (messageLength_of_validateFor h) with ⟨hc', -⟩ | ⟨n, hf', -⟩ | ⟨hno', -⟩
    · exact absurd hc' hc
    · exact absurd hf' (hf n)
    · exact absurd hno' hno

end RequestHead

def sampleLengths : RequestHead reference where
  method := .post
  target := ⟨ascii "/", by decide⟩
  version := .http11
  headers := ((HeaderMap.empty.append .host ⟨ascii "a", by decide⟩).append .contentLength
    ⟨ascii "5 , 05", by decide⟩).append .contentLength ⟨ascii "5", by decide⟩
  headerCase := none

theorem request_framing_sample : FixedFraming sampleLengths.headers 5 ∧
    ¬ NoFraming sampleLengths.headers := by
  have h : ∃ v, sampleLengths.validateFor true = .ok v ∧ v.body = .fixed 5 := ⟨_, rfl, rfl⟩
  obtain ⟨v, hv, hbody⟩ := h
  obtain ⟨-, hfixed, hno, -⟩ := (RequestHead.request_framing sampleLengths true).1 v hv
  exact ⟨(hfixed 5).mp hbody, fun h => by simp [hno.mpr h] at hbody⟩

theorem isTchar_visible {b : UInt8} (h : isTchar b = true) : isFieldByte b = true := by
  have hpunct : ∀ c ∈ ascii "!#$%&'*+-.^_`|~", isFieldByte c = true :=
    List.all_eq_true.mp (by decide)
  simp only [isTchar, Bool.or_eq_true, List.contains_iff_mem] at h
  rcases h with h | h
  · simp only [isAsciiAlphanumeric, isAsciiDigit, Bool.or_eq_true, Bool.and_eq_true,
      decide_eq_true_eq] at h
    simp only [isFieldByte, Bool.or_eq_true, Bool.and_eq_true, decide_eq_true_eq, bne_iff_ne]
    grind
  · exact hpunct b h

theorem token_visible {text : Bytes} (h : isToken text = true) : text.all isFieldByte = true := by
  simp only [isToken, Bool.and_eq_true, List.all_eq_true] at h ⊢
  exact fun b hb => isTchar_visible (h.2 b hb)

theorem isTchar_ne {b c : UInt8} (h : isTchar b = true) (hc : isTchar c = false) : b ≠ c := by
  rintro rfl
  rw [h] at hc
  cases hc

theorem trimOws_token {text : Bytes} (h : isToken text = true) : trimOws text = text := by
  simp only [isToken, Bool.and_eq_true, List.all_eq_true] at h
  have hows (b : UInt8) (hb : b ∈ text) : isOws b = false := by
    have hsp := isTchar_ne (h.2 b hb) (by decide : isTchar SP = false)
    have htab := isTchar_ne (h.2 b hb) (by decide : isTchar HTAB = false)
    simp [isOws, hsp, htab]
  exact trimOws_of_ends (fun b hb => hows b (List.mem_of_mem_head? hb))
    fun b hb => hows b (List.mem_of_mem_getLast? hb)

theorem membersFrom_token {text : Bytes} (h : ∀ b ∈ text, isTchar b = true) (member : Bytes) :
    membersFrom false false member text =
      if (member ++ text).isEmpty then none else some [member ++ text] := by
  induction text generalizing member with
  | nil => simp [membersFrom]
  | cons b text ih =>
    have hq : (b == DQUOTE) = false :=
      beq_eq_false_iff_ne.mpr (isTchar_ne (h b (by simp)) (by decide))
    have hc : (b == COMMA) = false :=
      beq_eq_false_iff_ne.mpr (isTchar_ne (h b (by simp)) (by decide))
    simp only [membersFrom, hq, hc, Bool.false_and, Bool.false_eq_true, if_false]
    rw [ih fun c hc => h c (by simp [hc])]
    simp

theorem fieldMembers_tokens {values : List HeaderValue}
    (h : ∀ value ∈ values, isToken value.bytes = true) :
    fieldMembers values = some (values.map HeaderValue.bytes) := by
  induction values with
  | nil => rfl
  | cons value values ih =>
    have hv := h value (by simp)
    simp only [isToken, Bool.and_eq_true, List.all_eq_true, Bool.not_eq_true',
      List.isEmpty_eq_false_iff] at hv
    have hone : listMembers value.bytes = some [value.bytes] := by
      rw [listMembers, membersFrom_token hv.2]
      simp [hv.1]
    simp [fieldMembers, hone, ih fun v hm => h v (by simp [hm])]

/-- The `Connection` options other than `upgrade`, one to a line. -/
def otherOptions (values : List HeaderValue) : List HeaderValue :=
  (((fieldMembers values).getD []).map trimOws).filterMap fun token =>
    if h : isToken token = true ∧ eqIgnoreAsciiCase token (ascii "upgrade") = false then
      some ⟨token, token_visible h.1⟩
    else none

theorem isToken_of_mem_otherOptions {values : List HeaderValue} {value : HeaderValue}
    (h : value ∈ otherOptions values) : isToken value.bytes = true := by
  obtain ⟨token, -, ht⟩ := List.mem_filterMap.mp h
  split_ifs at ht with hc
  cases ht
  exact hc.1

theorem connectionMember_cases {o o' : ConnectionOptions} {token : Bytes}
    (h : connectionMember o token = .ok o') :
    isToken token = true ∧
      if eqIgnoreAsciiCase token (ascii "upgrade") = true then o' = { o with upgrade := true }
      else o'.upgrade = o.upgrade ∧
        connectionMember { o with upgrade := false } token = .ok { o' with upgrade := false } := by
  have hdistinct (word : Bytes) (hw : lowercase word ≠ lowercase (ascii "upgrade"))
      (ht : eqIgnoreAsciiCase token word = true) :
      eqIgnoreAsciiCase token (ascii "upgrade") = false := by
    simp only [eqIgnoreAsciiCase, beq_iff_eq, beq_eq_false_iff_ne] at ht ⊢
    rwa [ht]
  unfold connectionMember at h ⊢
  split_ifs at h with hbad h1 h2 h3
  all_goals
    have ht : isToken token = true := by simpa using hbad
    cases h
  · have hn := hdistinct _ (by decide) h1
    simp [ht, h1, hn]
  · have hn := hdistinct _ (by decide) h2
    simp [ht, h1, h2, hn]
  · simp [ht, h3]
  · simp [ht, h1, h2, h3]

theorem connectionOptions_otherOptions {values : List HeaderValue} {o o' : ConnectionOptions}
    (h : forEachMember .invalidConnection (fun a m => connectionMember a (trimOws m)) values o =
      .ok o') :
    forEachMember .invalidConnection (fun a m => connectionMember a (trimOws m))
      (otherOptions values) { o with upgrade := false } = .ok { o' with upgrade := false } := by
  obtain ⟨ms, hms, hfold⟩ := forEachMember_eq_ok.mp h
  refine forEachMember_eq_ok.mpr
    ⟨_, fieldMembers_tokens fun value => isToken_of_mem_otherOptions, ?_⟩
  simp only [otherOptions, hms, Option.getD_some]
  clear hms h
  induction ms generalizing o with
  | nil =>
    cases hfold
    rfl
  | cons m ms ih =>
    obtain ⟨a, h1, h2⟩ := foldlM_cons_eq_ok.mp hfold
    obtain ⟨htoken, hcase⟩ := connectionMember_cases h1
    split_ifs at hcase with hup
    · subst hcase
      simpa [hup] using ih h2
    · have hkeep : eqIgnoreAsciiCase (trimOws m) (ascii "upgrade") = false := by simpa using hup
      have hstep : connectionMember { o with upgrade := false } (trimOws (trimOws m)) =
          .ok { a with upgrade := false } := by
        rw [trimOws_idem]
        exact hcase.2
      rw [List.map_cons, List.filterMap_cons, dif_pos ⟨htoken, hkeep⟩]
      exact foldlM_cons_eq_ok.mpr ⟨_, hstep, ih h2⟩

def succeeds {E A : Type} : Except E A → Bool
  | .ok _ => true
  | .error _ => false

namespace RequestHead

variable {x : Crates}

def toAuthority (head : RequestHead x) : Bool :=
  match targetFormOf x head.target with
  | .ok .authority => true
  | _ => false

/-- The head as an HTTP/1.0 recipient reads it: without expectations that are well formed and,
unless the target is an authority, without `Upgrade` and the `upgrade` connection option. -/
def http10View (head : RequestHead x) : RequestHead x :=
  let headers :=
    if succeeds (expectation head.headers .http10 true) then head.headers.remove .expect
    else head.headers
  let headers :=
    if head.toAuthority then headers
    else if succeeds (connectionOptions head.headers) then
      (headers.remove .upgrade).setAll .connection (otherOptions (head.headers.getAll .connection))
    else headers.remove .upgrade
  { head with headers := headers }

/-- The `Host` value that an absolute-form request is given. -/
def hostValue (x : Crates) (target : x.Uri) (form : TargetForm) :
    Except HeadError (Option HeaderValue) :=
  if form = .absolute then
    match x.uriAuthority target with
    | none => .error .invalidTargetForm
    | some authority =>
      if authority.contains AT then .error .invalidTarget
      else
        match x.headerValueFromStr authority with
        | none => .error .invalidHost
        | some value => .ok (some value)
  else .ok none

def withHost (headers : Headers) : Option HeaderValue → Headers
  | none => headers
  | some value => headers.insert .host value

theorem hostHeaders_eq (head : RequestHead x) (form : TargetForm) :
    head.hostHeaders form = (hostValue x head.target form).map (withHost head.headers) := by
  unfold hostHeaders normalizeAbsoluteHost hostValue
  split_ifs
  · cases x.uriAuthority head.target with
    | none => rfl
    | some authority =>
      dsimp only
      split_ifs
      · rfl
      · cases x.headerValueFromStr authority <;> rfl
  · rfl

theorem getAll_withHost (headers : Headers) (value : Option HeaderValue) {n : HeaderName}
    (hn : n ≠ .host) : (withHost headers value).getAll n = headers.getAll n := by
  cases value with
  | none => rfl
  | some value => exact HeaderMap.getAll_insert_ne _ hn _

theorem toAuthority_of_validateRequestTarget {head : RequestHead x} {form : TargetForm}
    (h : validateRequestTarget x head.method head.target = .ok form) :
    head.toAuthority = decide (form = .authority) := by
  unfold validateRequestTarget at h
  unfold toAuthority
  cases hf : targetFormOf x head.target with
  | error e => simp [hf] at h
  | ok f =>
    obtain rfl : f = form := by
      simp only [hf] at h
      split_ifs at h <;> cases h <;> rfl
    cases f <;> rfl

theorem getAll_http10View (head : RequestHead x) {n : HeaderName} (h1 : n ≠ .expect)
    (h2 : n ≠ .upgrade) (h3 : n ≠ .connection) :
    head.http10View.headers.getAll n = head.headers.getAll n := by
  unfold http10View
  simp only
  split_ifs <;> simp [HeaderMap.getAll_setAll_ne, HeaderMap.getAll_remove_ne, h1, h2, h3]

theorem getAll_expect_http10View (head : RequestHead x) :
    head.http10View.headers.getAll .expect =
      if succeeds (expectation head.headers .http10 true) then [] else head.headers.getAll .expect := by
  have h1 : HeaderName.expect ≠ .upgrade := by decide
  have h2 : HeaderName.expect ≠ .connection := by decide
  unfold http10View
  simp only
  split_ifs <;> simp [HeaderMap.getAll_setAll_ne, HeaderMap.getAll_remove_ne, h1, h2]

theorem expectation_http10View (head : RequestHead x) (host : Option HeaderValue) :
    expectation (withHost head.http10View.headers host) .http10 false =
      expectation (withHost head.headers host) .http10 true := by
  have hn : HeaderName.expect ≠ .host := by decide
  have hview := getAll_expect_http10View head
  simp only [expectation, getAll_withHost _ _ hn] at hview ⊢
  cases hf : forEachMember .invalidExpectation (fun a m => expectationMember a (trimOws m))
      (head.headers.getAll .expect) 0 with
  | error e => simp_all [succeeds]
  | ok count =>
    have hnil : head.http10View.headers.getAll .expect = [] := by
      rw [hview, hf]
      by_cases hz : count = 0 <;> simp [hz, succeeds]
    rw [hnil]
    by_cases hz : count = 0 <;> simp [hz]

theorem connectionOptions_congr {headers headers' : Headers}
    (h : headers'.getAll .connection = headers.getAll .connection) :
    connectionOptions headers' = connectionOptions headers := by
  simp only [connectionOptions, h]

theorem connectionOptions_http10View {head : RequestHead x} (h : head.toAuthority = false)
    (host : Option HeaderValue) :
    connectionOptions (withHost head.http10View.headers host) =
      (connectionOptions (withHost head.headers host)).map fun o => { o with upgrade := false } := by
  have hn : HeaderName.connection ≠ .host := by decide
  have h1 : HeaderName.connection ≠ .expect := by decide
  have h2 : HeaderName.connection ≠ .upgrade := by decide
  rw [connectionOptions_congr (getAll_withHost _ host hn),
    connectionOptions_congr (getAll_withHost head.headers host hn)]
  cases ho : connectionOptions head.headers with
  | error e =>
    have hget : head.http10View.headers.getAll .connection = head.headers.getAll .connection := by
      unfold http10View
      simp only [h, ho, succeeds]
      split_ifs <;> simp_all [HeaderMap.getAll_remove_ne]
    rw [connectionOptions_congr hget, ho]
    rfl
  | ok o =>
    have hget : head.http10View.headers.getAll .connection =
        otherOptions (head.headers.getAll .connection) := by
      simp [http10View, h, ho, succeeds]
    rw [connectionOptions, hget]
    exact connectionOptions_otherOptions ho

/-- What validation finds out, without the fields it read it from. -/
structure Finding where
  body : BodyMode
  persistence : Persistence
  targetForm : TargetForm
  expectation : Expectation
  upgrade : Option UpgradeKind
deriving DecidableEq

end RequestHead

def ValidatedRequestHead.finding {x : Crates} (v : ValidatedRequestHead x) : RequestHead.Finding :=
  ⟨v.body, v.persistence, v.targetForm, v.expectation, v.upgrade⟩

theorem map_bind_congr {E A B C : Type} {r : Except E A} {f f' : A → Except E B} {g : B → C}
    (h : ∀ a, r = .ok a → (f a).map g = (f' a).map g) : (r >>= f).map g = (r >>= f').map g := by
  cases r with
  | error e => rfl
  | ok a => exact h a rfl

theorem map_bind {E A B C : Type} (r : Except E A) (k : A → B) (f : B → Except E C) :
    (r.map k >>= f) = r >>= fun a => f (k a) := by
  cases r <;> rfl

namespace RequestHead

variable {x : Crates}

theorem upgradeIntent_http10View {head : RequestHead x} {form : TargetForm}
    (h : validateRequestTarget x head.method head.target = .ok form) (hf : form ≠ .authority)
    (host : Option HeaderValue) {o : ConnectionOptions} (ho : o.upgrade = false) :
    upgradeIntent (withHost head.http10View.headers host) o form = .ok none := by
  have hto : head.toAuthority = false := by simp [toAuthority_of_validateRequestTarget h, hf]
  have hn : HeaderName.upgrade ≠ .host := by decide
  have hc : HeaderName.upgrade ≠ .connection := by decide
  have hnil : head.http10View.headers.getAll .upgrade = [] := by
    unfold http10View
    simp only [hto, Bool.false_eq_true, if_false]
    split_ifs <;> simp [HeaderMap.getAll_setAll_ne, hc]
  simp [upgradeIntent, hf, validateUpgradeValues, getAll_withHost _ _ hn, hnil, ho]

/-- An HTTP/1.0 recipient finds in a head what local validation finds in its view, errors
included. -/
theorem validateReceived_http10 {head : RequestHead x} (hv : head.version = .http10) :
    head.validateReceived.map ValidatedRequestHead.finding =
      head.http10View.validate.map ValidatedRequestHead.finding := by
  have hview : head.http10View.version = .http10 := hv
  have hhost : validateHost x head.http10View.headers .http10 = validateHost x head.headers .http10 := by
    simp only [validateHost, getAll_http10View head (n := .host) (by decide) (by decide) (by decide)]
  simp only [validateReceived, validate, validateFor, hv, hview, hhost, hostHeaders_eq, map_bind]
  refine map_bind_congr fun form hform => map_bind_congr fun _ _ => map_bind_congr fun host _ => ?_
  have hlength : messageLength (withHost head.http10View.headers host) .http10 .none =
      messageLength (withHost head.headers host) .http10 .none := by
    apply messageLength_congr <;>
    · rw [getAll_withHost _ _ (by decide), getAll_withHost _ _ (by decide)]
      exact getAll_http10View head (by decide) (by decide) (by decide)
  rw [hlength, expectation_http10View]
  refine map_bind_congr fun body _ => ?_
  by_cases hf : form = .authority
  · -- A tunnel does not depend on the two fields, which the view keeps.
    have hto : head.toAuthority = true := by
      simp [toAuthority_of_validateRequestTarget hform, hf]
    have hconn : connectionOptions (withHost head.http10View.headers host) =
        connectionOptions (withHost head.headers host) := by
      refine connectionOptions_congr ?_
      rw [getAll_withHost _ _ (by decide), getAll_withHost _ _ (by decide)]
      unfold http10View
      simp only [hto, if_true]
      split_ifs
      · exact HeaderMap.getAll_remove_ne _ (by decide)
      · rfl
    rw [hconn]
    refine map_bind_congr fun o _ => map_bind_congr fun expects _ => ?_
    simp [upgradeFor, upgradeIntent, hf]
    rfl
  · have hto : head.toAuthority = false := by
      simp [toAuthority_of_validateRequestTarget hform, hf]
    rw [connectionOptions_http10View hto, map_bind]
    refine map_bind_congr fun o _ => map_bind_congr fun expects _ => ?_
    have hup : head.http10View.upgradeFor (withHost head.http10View.headers host)
        { o with upgrade := false } form false = .ok none := by
      simp only [upgradeFor, Bool.false_and, Bool.false_eq_true, if_false]
      exact upgradeIntent_http10View hform hf host rfl
    have hup' : head.upgradeFor (withHost head.headers host) o form true = .ok none := by
      simp [upgradeFor, hv, hf]
    rw [hup, hup']
    rfl

theorem expectation_received {headers : Headers} {version : Version} {e : Expectation}
    (h : expectation headers version false = .ok e) : expectation headers version true = .ok e := by
  unfold expectation at h ⊢
  cases hf : forEachMember .invalidExpectation (fun a m => expectationMember a (trimOws m))
      (headers.getAll .expect) 0 with
  | error e => simp [hf] at h
  | ok count =>
    simp only [hf] at h ⊢
    by_cases hz : count = 0
    · rwa [if_pos hz] at h ⊢
    · rw [if_neg hz] at h ⊢
      cases version <;> simp_all

theorem upgradeIntent_ok {headers : Headers} {o : ConnectionOptions} {form : TargetForm}
    {up : Option UpgradeKind} (h : upgradeIntent headers o form = .ok up) (hf : form ≠ .authority) :
    up = none ∨ up = some .protocol := by
  unfold upgradeIntent at h
  rw [if_neg hf] at h
  cases hu : validateUpgradeValues headers with
  | error e => simp [hu] at h
  | ok has =>
    simp only [hu] at h
    split at h <;> cases h
    · exact .inr rfl
    · exact .inl rfl

theorem upgradeFor_received {head : RequestHead x} {headers : Headers} {o : ConnectionOptions}
    {form : TargetForm} {up : Option UpgradeKind}
    (h : head.upgradeFor headers o form false = .ok up)
    (hp : ¬ (up = some .protocol ∧ head.version ≠ .http11)) :
    head.upgradeFor headers o form true = .ok up := by
  simp only [upgradeFor, Bool.false_and, Bool.false_eq_true, if_false, Bool.true_and,
    Bool.and_eq_true, decide_eq_true_eq] at h ⊢
  split_ifs with hc
  · rcases upgradeIntent_ok h (by simpa using hc.2) with rfl | rfl
    · rfl
    · exact absurd ⟨rfl, by simp [hc.1]⟩ hp
  · exact h

theorem validateReceived_of_validate {head : RequestHead x} {v : ValidatedRequestHead x}
    (h : head.validate = .ok v) : head.validateReceived = .ok v := by
  obtain ⟨form, headers, body, connection, expects, upgrade, h1, h2, h3, h4, h5, h6, h7, h8, rfl⟩ :=
    validateFor_eq_ok.mp h
  exact validateFor_eq_ok.mpr ⟨form, headers, body, connection, expects, upgrade, h1, h2, h3, h4, h5,
    expectation_received h6, upgradeFor_received h7 h8, h8, rfl⟩

/-- Only HTTP/1.0 makes a difference. -/
theorem validateReceived_eq {head : RequestHead x} (hv : head.version ≠ .http10) :
    head.validateReceived = head.validate := by
  have he (headers : Headers) :
      expectation headers head.version true = expectation headers head.version false := by
    unfold expectation
    cases hver : head.version <;> simp_all
  have hu (headers : Headers) (o : ConnectionOptions) (form : TargetForm) :
      head.upgradeFor headers o form true = head.upgradeFor headers o form false := by
    simp [upgradeFor, hv]
  simp only [validateReceived, validate, validateFor, he, hu]

/-- Received validation accepts whatever local validation accepts, agrees with it on HTTP/1.1, and
on HTTP/1.0 finds what local validation finds in the head without the ignored fields. -/
theorem received_validation (head : RequestHead x) :
    (∀ v, head.validate = .ok v → head.validateReceived = .ok v) ∧
    (head.version = .http11 → head.validateReceived = head.validate) ∧
    (head.version = .http10 →
      head.validateReceived.map ValidatedRequestHead.finding =
        head.http10View.validate.map ValidatedRequestHead.finding) ∧
    ∀ n, n ≠ .expect → n ≠ .upgrade → n ≠ .connection →
      head.http10View.headers.getAll n = head.headers.getAll n :=
  ⟨fun _ h => validateReceived_of_validate h, fun hv => validateReceived_eq (by simp [hv]),
    validateReceived_http10, fun _ => getAll_http10View head⟩

end RequestHead

def sampleIgnored : RequestHead reference where
  method := .get
  target := ⟨ascii "/", by decide⟩
  version := .http10
  headers := ((HeaderMap.empty.append .expect ⟨ascii "100-Continue", by decide⟩).append .connection
    ⟨ascii "Keep-Alive, upgrade", by decide⟩).append .upgrade ⟨ascii "not a protocol", by decide⟩
  headerCase := none

theorem received_validation_sample :
    sampleIgnored.validate = .error .invalidExpectation ∧
    sampleIgnored.http10View.validate.map ValidatedRequestHead.finding =
      .ok ⟨.none, .reusable, .origin, .none, none⟩ := by
  refine ⟨rfl, ?_⟩
  rw [← (RequestHead.received_validation sampleIgnored).2.2.1 rfl]
  rfl

/-- An authority is nonempty visible ASCII, parses as one and is a field value. -/
def Crates.Authorities (x : Crates) : Prop :=
  ∀ target authority, x.uriAuthority target = some authority →
    authority ≠ [] ∧ (∀ b ∈ authority, 33 ≤ b ∧ b ≤ 126) ∧ x.authority authority = true ∧
      ∀ value, x.headerValueFromStr authority = some value → value.bytes = authority

theorem isUtf8_ascii {text : Bytes} (h : ∀ b ∈ text, 33 ≤ b ∧ b ≤ 126) : isUtf8 text = true := by
  induction text with
  | nil => rfl
  | cons b text ih =>
    have hb : b < 0x80 := by
      have := (h b (by simp)).2
      grind
    rw [isUtf8.eq_def]
    simp only [hb, if_true]
    exact ih fun c hc => h c (by simp [hc])

theorem trimOws_visible {text : Bytes} (h : ∀ b ∈ text, 33 ≤ b ∧ b ≤ 126) : trimOws text = text := by
  have hows (b : UInt8) (hb : b ∈ text) : isOws b = false := by
    have := (h b hb).1
    simp only [isOws, Bool.or_eq_false_iff, beq_eq_false_iff_ne]
    constructor <;> (rintro rfl; revert this; decide)
  exact trimOws_of_ends (fun b hb => hows b (List.mem_of_mem_head? hb))
    fun b hb => hows b (List.mem_of_mem_getLast? hb)

namespace RequestHead

variable {x : Crates}

theorem validateHostValue_authority (hx : x.Authorities) {target : x.Uri} {authority : Bytes}
    (h : x.uriAuthority target = some authority) (hat : AT ∉ authority) :
    validateHostValue x authority = .ok () ↔ COMMA ∉ authority := by
  obtain ⟨hne, hvis, hparse, -⟩ := hx target authority h
  have hempty : authority.isEmpty = false := by simpa using hne
  have hat' : authority.contains AT = false := by simpa using hat
  simp only [validateHostValue, trimOws_visible hvis, hempty, hat', isUtf8_ascii hvis, hparse]
  by_cases hc : COMMA ∈ authority
  · simp [hc]
  · simp [hc]

theorem hostHeaders_absolute {head : RequestHead x} {headers : Headers}
    (h : head.hostHeaders .absolute = .ok headers) : ∃ authority value,
      x.uriAuthority head.target = some authority ∧ AT ∉ authority ∧
      x.headerValueFromStr authority = some value ∧ headers = head.headers.insert .host value := by
  simp only [hostHeaders, if_true, normalizeAbsoluteHost] at h
  cases ha : x.uriAuthority head.target with
  | none => simp [ha] at h
  | some authority =>
    simp only [ha] at h
    split_ifs at h with hat
    cases hv : x.headerValueFromStr authority with
    | none => simp [hv] at h
    | some value =>
      simp only [hv] at h
      cases h
      exact ⟨authority, value, rfl, by simpa using hat, hv, rfl⟩

/-- The head of an accepted absolute-form request is accepted again, with the same findings,
exactly when the authority of its target has no comma: `validate_host` refuses one, and the
authority is written into `Host` without that check. -/
theorem absolute_revalidates (hx : x.Authorities) (head : RequestHead x) (v : ValidatedRequestHead x)
    (h : head.validate = .ok v) (hform : v.targetForm = .absolute) :
    (v.head.validate = .ok v ∧ v.head.validateReceived = .ok v) ↔
      ∀ authority, x.uriAuthority head.target = some authority → COMMA ∉ authority := by
  obtain ⟨form, headers, body, connection, expects, upgrade, h1, h2, h3, h4, h5, h6, h7, h8, rfl⟩ :=
    validateFor_eq_ok.mp h
  obtain rfl : form = .absolute := hform
  obtain ⟨authority, value, ha, hat, hvalue, rfl⟩ := hostHeaders_absolute h3
  have hbytes : value.bytes = authority := (hx head.target authority ha).2.2.2 value hvalue
  have hhost : validateHost x (head.headers.insert .host value) head.version = .ok () ↔
      COMMA ∉ authority := by
    rw [validateHost, HeaderMap.getAll_insert_self]
    dsimp only
    rw [hbytes, validateHostValue_authority hx ha hat]
  constructor
  · rintro ⟨hval, -⟩ a ha'
    obtain rfl : authority = a := Option.some.inj (ha.symm.trans ha')
    obtain ⟨_, _, _, _, _, _, _, hhost', -⟩ := validateFor_eq_ok.mp hval
    exact hhost.mp hhost'
  · intro hno
    have hval : ({ head with headers := head.headers.insert .host value } : RequestHead x).validate =
        .ok ⟨{ head with headers := head.headers.insert .host value }, body,
          persistence head.version connection, .absolute, expects, upgrade⟩ := by
      refine validateFor_eq_ok.mpr ⟨.absolute, head.headers.insert .host value, body, connection,
        expects, upgrade, h1, hhost.mpr (hno authority ha), ?_, h4, h5, h6, h7, h8, rfl⟩
      simp [hostHeaders, normalizeAbsoluteHost, ha, hat, hvalue, HeaderMap.insert_insert]
    exact ⟨hval, validateReceived_of_validate hval⟩

end RequestHead

def sampleComma : RequestHead reference where
  method := .get
  target := ⟨ascii "http://a,b/", by decide⟩
  version := .http11
  headers := HeaderMap.empty.append .host ⟨ascii "a", by decide⟩
  headerCase := none

theorem absolute_revalidates_comma : ∃ v, sampleComma.validate = .ok v ∧
    v.targetForm = .absolute ∧ v.head.validate = .error .invalidHost ∧
    v.head.validateReceived = .error .invalidHost := ⟨_, rfl, rfl, rfl, rfl⟩

def samplePlain : RequestHead reference :=
  { sampleComma with target := ⟨ascii "http://b:80/", by decide⟩ }

theorem Reference.authorities : reference.Authorities := by
  intro target authority h
  have hfilter : isAuthority authority = true := by
    simp only [reference, Target.authority] at h
    exact (Option.filter_eq_some_iff.mp h).2
  simp only [isAuthority, Bool.and_eq_true, Bool.not_eq_true', List.isEmpty_eq_false_iff,
    List.all_eq_true] at hfilter
  refine ⟨hfilter.1, fun b hb => ?_, by simpa [reference, isAuthority] using hfilter, ?_⟩
  · have hall : (ascii "-._~:[]@,").all (fun c => 33 ≤ c && c ≤ 126) = true := by decide
    have hpunct : ∀ c ∈ ascii "-._~:[]@,", 33 ≤ c ∧ c ≤ 126 := by simpa using hall
    have hb := hfilter.2 b hb
    rw [Bool.or_eq_true, List.contains_iff_mem] at hb
    rcases hb with hb | hb
    · simp only [isAsciiAlphanumeric, isAsciiDigit, Bool.or_eq_true, Bool.and_eq_true,
        decide_eq_true_eq] at hb
      grind
    · exact hpunct b hb
  · intro value hv
    simp only [reference, headerValue] at hv
    split_ifs at hv
    cases hv
    rfl

theorem absolute_revalidates_plain : ∃ v, samplePlain.validate = .ok v ∧
    v.head.validate = .ok v ∧ v.head.validateReceived = .ok v := by
  have h : ∃ v, samplePlain.validate = .ok v ∧ v.targetForm = .absolute := ⟨_, rfl, rfl⟩
  obtain ⟨v, hv, hform⟩ := h
  have hcomma : ∀ authority, reference.uriAuthority samplePlain.target = some authority →
      COMMA ∉ authority := by
    rintro authority ⟨⟩
    decide
  exact ⟨v, hv, (RequestHead.absolute_revalidates Reference.authorities samplePlain v hv hform).mpr
    hcomma⟩

/-- The responses that have no body whatever their connection does next. -/
def EndsWithHead (head : ResponseHead) (requestMethod : Method) : Prop :=
  requestMethod = .head ∨ head.status.isInformational = true ∨ head.status = .noContent ∨
    head.status = .notModified ∨ FixedFraming head.headers 0

/-- A response that is taken to have no body on a connection that is then reused ends with its
head, or is a 205, whose framing fields are not looked at. -/
theorem bodyless_reusable (head : ResponseHead) (requestMethod : Method) (v : ValidatedResponseHead)
    (h : head.validate requestMethod = .ok v) (hbody : v.body = .none) (hup : v.upgrade = none)
    (hkeep : v.persistence = .reusable) :
    EndsWithHead head requestMethod ∨ head.status = .resetContent := by
  obtain ⟨-, connection, upgrade, body, -, -, h3, rfl⟩ := ResponseHead.validate_eq_ok.mp h
  obtain rfl : upgrade = none := hup
  obtain rfl : body = .none := hbody
  unfold ResponseHead.bodyOf at h3
  split_ifs at h3 with hb
  · simp only [ResponseHead.bodyless, Option.isSome_none, Bool.false_or, Bool.or_eq_true,
      decide_eq_true_eq] at hb
    unfold EndsWithHead
    tauto
  · -- Framing fields never say that there is no body at all.
    rcases messageLength_ok h3 with ⟨-, hm⟩ | ⟨n, -, hm⟩ | ⟨-, hm⟩ <;> cases hm

def sampleReset : ResponseHead where
  version := .http11
  status := .resetContent
  headers := HeaderMap.empty.append .contentLength ⟨ascii "9", by decide⟩
  headerCase := none

theorem bodyless_reusable_reset : ∃ v, sampleReset.validate .get = .ok v ∧ v.body = .none ∧
    v.upgrade = none ∧ v.persistence = .reusable ∧ ¬ EndsWithHead sampleReset .get := by
  refine ⟨_, rfl, rfl, rfl, rfl, ?_⟩
  rintro (h | h | h | h | h)
  · exact absurd h (by decide)
  · exact absurd h (by decide)
  · exact absurd h (by decide)
  · exact absurd h (by decide)
  · have hmem : ascii "9" ∈ commaMembers (sampleReset.headers.getAll .contentLength) := by decide
    exact absurd (h.2.1 _ hmem).2.2 (by decide)

theorem bodyless_reusable_noContent :
    EndsWithHead { sampleReset with status := .noContent } .get ∨
      StatusCode.noContent = .resetContent :=
  bodyless_reusable { sampleReset with status := .noContent } .get _ rfl rfl rfl rfl

end Vakya
