import Vakya.FramingPlan
import Vakya.HeadScan
import Vakya.RoundTrip

/-!
# Head round trip

A head that the sender prepared is found by the receiver's scan exactly where it
ends, parses, and validates to what the sender believed it says. On the way the
values lose their outer whitespace, and the target is printed and read again.
-/

namespace Vakya

variable {x : Crates}

theorem versionBytes_ok {version : Version} {text : Bytes} (h : versionBytes version = .ok text) :
    ∃ minor ≤ 1, versionOf minor = .ok version ∧ text = versionText minor := by
  cases version with
  | http10 =>
    cases h
    exact ⟨0, by omega, rfl, rfl⟩
  | http11 =>
    cases h
    exact ⟨1, by omega, rfl, rfl⟩
  | _ => cases h

theorem bytes_of_writeTarget {w w' : BoundedWriter} {target : x.Uri}
    (h : w.writeTarget x target = .ok w') :
    w' = { w with bytes := w.bytes ++ (x.uriDisplay target).flatten } := by
  have key (texts : List Bytes) (w w' : BoundedWriter)
      (h : texts.foldlM (BoundedWriter.writeStr x) w = .ok w') :
      w' = { w with bytes := w.bytes ++ texts.flatten } := by
    induction texts generalizing w with
    | nil =>
      cases h
      simp
    | cons text texts ih =>
      rw [List.foldlM_cons] at h
      obtain ⟨w₁, h1, h2⟩ := bind_eq_ok h
      unfold BoundedWriter.writeStr at h1
      split at h1 <;> cases h1
      next hp =>
        obtain rfl := BoundedWriter.bytes_of_push hp
        rw [ih _ h2]
        simp
  unfold BoundedWriter.writeTarget at h
  split at h <;> cases h
  exact key _ _ _ ‹_›

theorem writeRequestHead_ok {head : RequestHead x} {original : Option HeaderCaseMap}
    {config : EncodeConfig} {w : BoundedWriter}
    (h : writeRequestHead x head original config = .ok w) : ∃ minor ≤ 1, ∃ fields,
      versionOf minor = .ok head.version ∧ List.Forall₂ Spells fields head.headers.iter ∧
      w.bytes = requestLine head.method.text (x.uriDisplay head.target).flatten minor ++ CRLF ++
        headerBlock fields := by
  unfold writeRequestHead at h
  obtain ⟨w₁, h1, h⟩ := bind_eq_ok h
  obtain ⟨w₂, h2, h⟩ := bind_eq_ok h
  obtain ⟨w₃, h3, h⟩ := bind_eq_ok h
  obtain ⟨w₄, h4, h⟩ := bind_eq_ok h
  obtain ⟨text, hv, h⟩ := bind_eq_ok h
  obtain ⟨w₅, h5, h⟩ := bind_eq_ok h
  obtain ⟨w₆, h6, h⟩ := bind_eq_ok h
  obtain ⟨w₇, h7, h8⟩ := bind_eq_ok h
  obtain ⟨minor, hm, hversion, rfl⟩ := versionBytes_ok hv
  obtain rfl := BoundedWriter.bytes_of_push h1
  obtain rfl := BoundedWriter.bytes_of_push h2
  obtain rfl := bytes_of_writeTarget h3
  obtain rfl := BoundedWriter.bytes_of_push h4
  obtain rfl := BoundedWriter.bytes_of_push h5
  obtain rfl := BoundedWriter.bytes_of_push h6
  obtain ⟨fields, hf, rfl⟩ := writeHeaders_ok h7
  obtain rfl := BoundedWriter.bytes_of_push h8
  exact ⟨minor, hm, fields, hversion, hf, by simp [BoundedWriter.new, requestLine, headerBlock]⟩

theorem writeResponseHead_ok {head : ResponseHead} {original : Option HeaderCaseMap}
    {config : EncodeConfig} {w : BoundedWriter}
    (h : writeResponseHead x head original config = .ok w) : ∃ minor ≤ 1, ∃ fields,
      versionOf minor = .ok head.version ∧ List.Forall₂ Spells fields head.headers.iter ∧
      w.bytes = statusLine minor head.status ((x.canonicalReason head.status).getD []) ++ CRLF ++
        headerBlock fields := by
  unfold writeResponseHead at h
  obtain ⟨text, hv, h⟩ := bind_eq_ok h
  obtain ⟨w₁, h1, h⟩ := bind_eq_ok h
  obtain ⟨w₂, h2, h⟩ := bind_eq_ok h
  obtain ⟨w₃, h3, h⟩ := bind_eq_ok h
  obtain ⟨w₄, h4, h⟩ := bind_eq_ok h
  obtain ⟨w₅, h5, h⟩ := bind_eq_ok h
  obtain ⟨w₆, h6, h⟩ := bind_eq_ok h
  obtain ⟨w₇, h7, h8⟩ := bind_eq_ok h
  obtain ⟨minor, hm, hversion, rfl⟩ := versionBytes_ok hv
  obtain rfl := BoundedWriter.bytes_of_push h1
  obtain rfl := BoundedWriter.bytes_of_push h2
  obtain rfl := BoundedWriter.bytes_of_push h3
  obtain rfl := BoundedWriter.bytes_of_push h4
  obtain rfl := BoundedWriter.bytes_of_push h5
  obtain rfl := BoundedWriter.bytes_of_push h6
  obtain ⟨fields, hf, rfl⟩ := writeHeaders_ok h7
  obtain rfl := BoundedWriter.bytes_of_push h8
  exact ⟨minor, hm, fields, hversion, hf, by simp [BoundedWriter.new, statusLine, headerBlock]⟩

theorem prepareRequestHead_ok {method : Method} {target : x.Uri} {version : Version}
    {headers : Headers} {original : Option HeaderCaseMap} {metadata : BodyMetadata}
    {config : EncodeConfig} {plan : MessagePlan (ValidatedRequestHead x)}
    (h : prepareRequestHead x method target version headers original metadata config = .ok plan) :
    ∃ edited w, RequestHead.validate ⟨method, target, version, edited, none⟩ = .ok plan.head ∧
      writeRequestHead x plan.head.head original config = .ok w ∧ plan.bytes = w.bytes := by
  unfold prepareRequestHead at h
  obtain ⟨⟨edited, mode⟩, -, h⟩ := bind_eq_ok h
  obtain ⟨v, h2, h⟩ := bind_eq_ok h
  obtain ⟨_, -, h⟩ := bind_eq_ok h
  obtain ⟨w, h4, h⟩ := bind_eq_ok h
  cases h
  exact ⟨edited, w, mapError_eq_ok.mp h2, h4, rfl⟩

theorem prepareResponseHead_ok {status : StatusCode} {version : Version} {headers : Headers}
    {original : Option HeaderCaseMap} {metadata : BodyMetadata} {requestMethod : Method}
    {config : EncodeConfig} {plan : MessagePlan ValidatedResponseHead}
    (h : prepareResponseHead x status version headers original metadata requestMethod config =
      .ok plan) :
    ∃ edited mode w,
      planResponseFraming headers version status metadata requestMethod = .ok (edited, mode) ∧
      ResponseHead.validate ⟨version, status, edited, none⟩ requestMethod = .ok plan.head ∧
      writeResponseHead x plan.head.head original config = .ok w ∧ plan.bytes = w.bytes := by
  unfold prepareResponseHead at h
  obtain ⟨⟨edited, mode⟩, h1, h⟩ := bind_eq_ok h
  obtain ⟨v, h2, h⟩ := bind_eq_ok h
  obtain ⟨_, -, h⟩ := bind_eq_ok h
  obtain ⟨w, h4, h⟩ := bind_eq_ok h
  cases h
  exact ⟨edited, mode, w, h1, mapError_eq_ok.mp h2, h4, rfl⟩

namespace HeadScan

theorem scanFrom_text {text : Bytes} (h : IsLine text) (hne : text ≠ []) (n : ℕ) (line : ScanLine)
    (more : Bytes) : scanFrom n line (text ++ more) = scanFrom (n + text.length) .content more := by
  induction text generalizing n line with
  | nil => exact absurd rfl hne
  | cons b text ih =>
    obtain ⟨hcr, hlf⟩ := h b (by simp)
    have hcloses : line.closes b = false := by simp [ScanLine.closes, hlf]
    have hnext : line.next b = .content := by simp [ScanLine.next, hcr, hlf]
    simp only [List.cons_append, scanFrom, hcloses, hnext, Bool.false_eq_true, if_false]
    by_cases hnil : text = []
    · subst hnil
      rfl
    · rw [ih (fun c hc => h c (by simp [hc])) hnil, List.length_cons, Nat.add_assoc, Nat.add_comm 1]

theorem scanFrom_line {text : Bytes} (h : IsLine text) (hne : text ≠ []) (line : ScanLine) (scanned : ℕ)
    (rest : Bytes) :
    scanFrom scanned line (text ++ CRLF ++ rest) = scanFrom (scanned + text.length + 2) .lineEnd rest := by
  rw [List.append_assoc, scanFrom_text h hne]
  rfl

theorem scanFrom_lines {lines : List Bytes} (h : ∀ l ∈ lines, IsLine l ∧ l ≠ []) (scanned : ℕ)
    (rest : Bytes) :
    scanFrom scanned .lineEnd (lines.flatMap (· ++ CRLF) ++ CRLF ++ rest) =
      .complete (scanned + (lines.flatMap (· ++ CRLF) ++ CRLF).length) := by
  induction lines generalizing scanned with
  | nil => rfl
  | cons l lines ih =>
    obtain ⟨hl, hne⟩ := h l (by simp)
    have hsplit : (l :: lines).flatMap (· ++ CRLF) ++ CRLF ++ rest =
        l ++ CRLF ++ (lines.flatMap (· ++ CRLF) ++ CRLF ++ rest) := by simp
    rw [hsplit, scanFrom_line hl hne, ih fun l' hl' => h l' (by simp [hl'])]
    congr 1
    simp
    omega

theorem scanFrom_head {start : Bytes} (h : IsLine start) (hne : start ≠ [])
    {fields : List RawHeader} (hf : ∀ f ∈ fields, f.WellFormed) (rest : Bytes) :
    scanFrom 0 .leading (start ++ CRLF ++ headerBlock fields ++ rest) =
      .complete (start ++ CRLF ++ headerBlock fields).length := by
  have hlines : ∀ l ∈ fields.map RawHeader.text, IsLine l ∧ l ≠ [] := by
    intro l hl
    obtain ⟨f, hin, rfl⟩ := List.mem_map.mp hl
    exact (hf f hin).isLine
  rw [List.append_assoc, scanFrom_line h hne, headerBlock_eq, scanFrom_lines hlines]
  congr 1
  simp
  omega

end HeadScan

theorem HeadParser.headLen_head (p : HeadParser) (hp : p.scan = .default) {head rest : Bytes}
    (h : ∀ rest, HeadScan.scanFrom 0 .leading (head ++ rest) = .complete head.length)
    (hfit : head.length ≤ p.limits.maxBytes) :
    p.headLen (head ++ rest) =
      ({ p with scan := .complete head.length }, .ok (some head.length)) := by
  have htake : (head ++ rest).take (p.parseInputLen (head ++ rest)) =
      head ++ rest.take (p.parseInputLen (head ++ rest) - head.length) := by
    rw [List.take_append, List.take_of_length_le]
    simp only [parseInputLen, List.length_append]
    omega
  have hscan := HeadScan.follows_default.completeHead
    (head ++ rest.take (p.parseInputLen (head ++ rest) - head.length))
  rw [List.nil_append, h] at hscan
  rw [headLen, hp, htake, hscan]
  rfl

/-- Limits large enough for a head with these fields. -/
structure HeadFits (x : Crates) (limits : HeadLimits) (bytes : Bytes) (headers : Headers) : Prop where
  bytes : bytes.length ≤ limits.maxBytes
  fields : headers.iter.length ≤ limits.maxHeaders
  map : x.mapCapacity headers.iter.length = true

/-- Two targets that the code cannot tell apart. -/
structure SameTarget (x : Crates) (target target' : x.Uri) : Prop where
  scheme : x.uriScheme target' = x.uriScheme target
  authority : x.uriAuthority target' = x.uriAuthority target
  path : x.uriPath target' = x.uriPath target
  pathAndQuery : x.uriPathAndQuery target' = x.uriPathAndQuery target

/-- A target of one of the four forms prints as a request target and is read back as itself. -/
def Crates.TargetsReprint (x : Crates) : Prop :=
  ∀ target form, targetFormOf x target = .ok form →
    isTarget (x.uriDisplay target).flatten = true ∧
      ∃ target', x.uriFromShared (x.uriDisplay target).flatten = some target' ∧
        SameTarget x target target'

theorem sharedHeaders_spelled (hn : x.FoldsNames) (hv : x.KeepsValues) {fields : List RawHeader}
    {headers : Headers} (h : List.Forall₂ Spells fields headers.iter)
    (hcap : x.mapCapacity headers.iter.length = true) (preserve : Bool) :
    ∃ original, sharedHeaders x (fields.map RawHeader.trimmed) preserve =
      .ok (headers.mapValues HeaderValue.trimmed, original) := by
  have hfold (owned : Headers) (original : Option HeaderCaseMap)
      (pairs : List (HeaderName × HeaderValue)) (fs : List RawHeader)
      (hs : List.Forall₂ Spells fs pairs) :
      ∃ original', (fs.map RawHeader.trimmed).foldlM (sharedHeader x) (owned, original) =
        .ok ((pairs.map fun e => (e.1, e.2.trimmed)).foldl (fun m e => m.append e.1 e.2) owned,
          original') := by
    induction hs generalizing owned original with
    | nil => exact ⟨original, rfl⟩
    | @cons f e fs pairs hf hs ih =>
      have h1 : x.headerName f.trimmed.name = some e.1 := hn e.1 f.name hf.1
      have h2 : x.headerValue f.trimmed.value = some e.2.trimmed := by
        rw [RawHeader.trimmed, hf.2]
        exact hv e.2.trimmed
      rw [List.map_cons, List.foldlM_cons, sharedHeader, h1, h2]
      exact ih _ _
  obtain ⟨original, ho⟩ := hfold .empty (if preserve then some .empty else none) _ _ h
  refine ⟨original, ?_⟩
  rw [sharedHeaders, if_pos (by simpa [h.length_eq] using hcap), ho,
    ← headers.iter_mapValues HeaderValue.trimmed]
  exact congrArg (fun m => Except.ok (m, original)) (HeaderMap.ofList_iter _)

theorem isLine_of_token {text : Bytes} (h : isToken text = true) : IsLine text := by
  simp only [isToken, Bool.and_eq_true, List.all_eq_true] at h
  intro b hb
  exact ⟨isTchar_ne (h.2 b hb) (by decide), isTchar_ne (h.2 b hb) (by decide)⟩

theorem isLine_of_fieldBytes {text : Bytes} (h : text.all isFieldByte = true) : IsLine text := by
  intro b hb
  have hv := List.all_eq_true.mp h b hb
  constructor <;> (rintro rfl; revert hv; decide)

theorem isLine_of_target {text : Bytes} (h : isTarget text = true) : IsLine text := by
  simp only [isTarget, Bool.and_eq_true] at h
  intro b hb
  have hv := List.all_eq_true.mp h.2 b hb
  constructor <;> (rintro rfl; revert hv; decide)

theorem IsLine.append {a b : Bytes} (ha : IsLine a) (hb : IsLine b) : IsLine (a ++ b) := by
  intro c hc
  rcases List.mem_append.mp hc with h | h
  · exact ha c h
  · exact hb c h

theorem isLine_versionText (minor : ℕ) : IsLine (versionText minor) := by
  have hplain : (versionText minor).all isFieldByte = true := by
    unfold versionText
    split_ifs <;> decide
  exact isLine_of_fieldBytes hplain

theorem isLine_sp : IsLine [SP] := by
  intro b hb
  obtain rfl := List.mem_singleton.mp hb
  decide

theorem isLine_requestLine {method target : Bytes} (hm : isToken method = true)
    (ht : isTarget target = true) (minor : ℕ) :
    IsLine (requestLine method target minor) ∧ requestLine method target minor ≠ [] := by
  refine ⟨?_, by simp [requestLine]⟩
  exact (isLine_of_token hm).append (isLine_sp.append ((isLine_of_target ht).append
    (isLine_sp.append (isLine_versionText minor))))

theorem isLine_statusText (status : StatusCode) : IsLine status.text := by
  obtain ⟨k, hlow, hhigh⟩ := status
  have hdigit : ∀ d < 10, (48 + d).toUInt8 ≠ CR ∧ (48 + d).toUInt8 ≠ LF := by decide
  intro b hb
  obtain ⟨d, hd, rfl⟩ := List.mem_map.mp hb
  simp only [List.mem_cons, List.not_mem_nil, or_false] at hd
  exact hdigit d (by omega)

theorem isLine_statusLine {reason : Bytes} (hr : reason.all isFieldByte = true) (minor : ℕ)
    (status : StatusCode) :
    IsLine (statusLine minor status reason) ∧ statusLine minor status reason ≠ [] := by
  refine ⟨?_, by simp [statusLine]⟩
  exact (isLine_versionText minor).append (isLine_sp.append ((isLine_statusText status).append
    (isLine_sp.append (isLine_of_fieldBytes hr))))

theorem HeadParser.parseWhole_ok {A B : Type} {p : HeadParser} {input : Bytes} {a : A} {b : B}
    {mapError : HttparseError → HeadError} {build : A → Except HeadError B}
    (hfit : input.length ≤ p.limits.maxBytes) (hbuild : build a = .ok b) :
    (p.parseWhole input (.ok (.complete input.length a)) mapError build).2 = .ok b := by
  simp only [parseWhole, if_neg (Nat.not_lt.mpr hfit), if_true, hbuild]

/-- The heads that `prepare_request_head` writes, as the receiver reads them. -/
theorem request_reread (hreq : x.RequestHeads) (hm : x.KeepsMethods) (ht : x.TargetsReprint)
    (hn : x.FoldsNames) (hv : x.KeepsValues) {head : RequestHead x} {form : TargetForm}
    (hform : targetFormOf x head.target = .ok form) {original : Option HeaderCaseMap}
    {config : EncodeConfig} {w : BoundedWriter}
    (hw : writeRequestHead x head original config = .ok w) {p : HeadParser}
    (hfit : HeadFits x p.limits w.bytes head.headers) :
    (∀ rest, HeadScan.scanFrom 0 .leading (w.bytes ++ rest) = .complete w.bytes.length) ∧
    ∃ target' headerCase, SameTarget x head.target target' ∧
      (p.parseSharedRequest x w.bytes).2 = .ok ⟨head.method, target', head.version,
        head.headers.mapValues HeaderValue.trimmed, headerCase⟩ := by
  obtain ⟨minor, hminor, fields, hversion, hf, hbytes⟩ := writeRequestHead_ok hw
  obtain ⟨htext, target', hparse, hsame⟩ := ht head.target form hform
  have hwell := wellFormed_of_spelled hf
  obtain ⟨hline, hne⟩ := isLine_requestLine head.method.token htext minor
  refine ⟨fun rest => by rw [hbytes]; exact HeadScan.scanFrom_head hline hne hwell rest, ?_⟩
  obtain ⟨headerCase, hshared⟩ := sharedHeaders_spelled hn hv hf hfit.map p.preserveHeaderCase
  refine ⟨target', headerCase, hsame, ?_⟩
  have hslots : fields.length ≤ p.limits.maxHeaders := hf.length_eq.trans_le hfit.fields
  have hread := hreq head.method.text _ minor fields _ head.method.token htext hminor hwell hslots
  rw [← hbytes] at hread
  rw [HeadParser.parseSharedRequest, hread]
  refine HeadParser.parseWhole_ok hfit.bytes ?_
  simp only [buildSharedRequestHead, ok_bind, okOr, hm head.method, hparse, hversion, hshared]
  rfl

/-- The heads that `prepare_response_head` writes, as the receiver reads them. -/
theorem response_reread (hres : x.ResponseHeads) (hr : x.PlainReasons) (hn : x.FoldsNames)
    (hv : x.KeepsValues) {head : ResponseHead} (hstatus : head.status.code ≤ 599)
    {original : Option HeaderCaseMap} {config : EncodeConfig} {w : BoundedWriter}
    (hw : writeResponseHead x head original config = .ok w) {p : HeadParser}
    (hfit : HeadFits x p.limits w.bytes head.headers) :
    (∀ rest, HeadScan.scanFrom 0 .leading (w.bytes ++ rest) = .complete w.bytes.length) ∧
    ∃ headerCase, (p.parseSharedResponse x w.bytes).2 = .ok ⟨head.version, head.status,
      head.headers.mapValues HeaderValue.trimmed, headerCase⟩ := by
  obtain ⟨minor, hminor, fields, hversion, hf, hbytes⟩ := writeResponseHead_ok hw
  have hreason : ((x.canonicalReason head.status).getD []).all isFieldByte = true := by
    cases hc : x.canonicalReason head.status with
    | none => rfl
    | some reason => exact hr head.status reason hc
  have hwell := wellFormed_of_spelled hf
  obtain ⟨hline, hne⟩ := isLine_statusLine hreason minor head.status
  refine ⟨fun rest => by rw [hbytes]; exact HeadScan.scanFrom_head hline hne hwell rest, ?_⟩
  obtain ⟨headerCase, hshared⟩ := sharedHeaders_spelled hn hv hf hfit.map p.preserveHeaderCase
  refine ⟨headerCase, ?_⟩
  have hslots : fields.length ≤ p.limits.maxHeaders := hf.length_eq.trans_le hfit.fields
  have hread := hres minor head.status _ fields _ hminor hreason hwell hslots
  rw [← hbytes] at hread
  rw [HeadParser.parseSharedResponse, hread]
  refine HeadParser.parseWhole_ok hfit.bytes ?_
  have hcode : statusFromU16 head.status.code = some head.status := dif_pos head.status.three_digits
  simp only [buildSharedResponseHead, ok_bind, okOr, hversion, hshared, hcode, ensure,
    if_pos hstatus]
  rfl

/-- The second map has the fields of the first, `Host` apart, with trimmed values. -/
def TrimmedFields (headers headers' : Headers) : Prop :=
  ∀ n, n ≠ .host → headers'.getAll n = (headers.getAll n).map HeaderValue.trimmed

namespace TrimmedFields

variable {headers headers' : Headers}

theorem parseContentLength (ht : TrimmedFields headers headers') {r : Option ℕ}
    (h : parseContentLength headers = .ok r) : Vakya.parseContentLength headers' = .ok r := by
  have hget := ht .contentLength (by decide)
  unfold Vakya.parseContentLength at h ⊢
  simp only at h ⊢
  cases hf : forEachMember .invalidContentLength (fun a m => contentLengthMember a (trimOws m))
      (headers.getAll .contentLength) none with
  | error e => simp [hf] at h
  | ok parsed =>
    rw [hget, forEachMember_trimmed (by simp [contentLengthMember]) hf]
    simpa [hf] using h

theorem parseTransferEncoding (ht : TrimmedFields headers headers') {r : Option TransferFraming}
    (h : parseTransferEncoding headers = .ok r) : Vakya.parseTransferEncoding headers' = .ok r := by
  have hget := ht .transferEncoding (by decide)
  have hempty (c c' : Codings) : transferEncodingMember c [] ≠ .ok c' := by
    intro hc
    cases hc
  unfold Vakya.parseTransferEncoding at h ⊢
  cases hf : forEachMember .invalidTransferEncoding
      (fun a m => transferEncodingMember a (trimOws m)) (headers.getAll .transferEncoding)
      ⟨0, none, false⟩ with
  | error e => simp [hf] at h
  | ok codings =>
    rw [hget, forEachMember_trimmed hempty hf]
    simpa [hf] using h

theorem messageLength (ht : TrimmedFields headers headers') {version : Version}
    {absent mode : BodyMode} (h : messageLength headers version absent = .ok mode) :
    Vakya.messageLength headers' version absent = .ok mode := by
  obtain ⟨length, encoding, h1, h2, h3⟩ := messageLength_eq_ok.mp h
  exact messageLength_eq_ok.mpr
    ⟨length, encoding, ht.parseContentLength h1, ht.parseTransferEncoding h2, h3⟩

theorem connectionOptions (ht : TrimmedFields headers headers') {o : ConnectionOptions}
    (h : connectionOptions headers = .ok o) : Vakya.connectionOptions headers' = .ok o := by
  have hget := ht .connection (by decide)
  unfold Vakya.connectionOptions at h ⊢
  rw [hget]
  exact forEachMember_trimmed (by simp [connectionMember, isToken]) h

theorem expectation (ht : TrimmedFields headers headers') {version : Version} {received : Bool}
    {e : Expectation} (h : expectation headers version received = .ok e) :
    Vakya.expectation headers' version received = .ok e := by
  have hget := ht .expect (by decide)
  have hempty (count count' : ℕ) : expectationMember count [] ≠ .ok count' := by
    intro hc
    cases hc
  unfold Vakya.expectation at h ⊢
  cases hf : forEachMember .invalidExpectation (fun a m => expectationMember a (trimOws m))
      (headers.getAll .expect) 0 with
  | error e => simp [hf] at h
  | ok count =>
    rw [hget, forEachMember_trimmed hempty hf]
    simpa only [hf] using h

theorem validateUpgradeValues (ht : TrimmedFields headers headers') {has : Bool}
    (h : validateUpgradeValues headers = .ok has) :
    Vakya.validateUpgradeValues headers' = .ok has := by
  have hget := ht .upgrade (by decide)
  have hempty (count count' : ℕ) : upgradeMember count [] ≠ .ok count' := by
    intro hc
    cases hc
  unfold Vakya.validateUpgradeValues at h ⊢
  cases hf : forEachMember .invalidUpgrade (fun a m => upgradeMember a (trimOws m))
      (headers.getAll .upgrade) 0 with
  | error e => simp [hf] at h
  | ok protocols =>
    rw [hget, forEachMember_trimmed hempty hf]
    simpa only [hf] using h

theorem upgradeIntent (ht : TrimmedFields headers headers') {o : ConnectionOptions}
    {form : TargetForm} {up : Option UpgradeKind} (h : upgradeIntent headers o form = .ok up) :
    Vakya.upgradeIntent headers' o form = .ok up := by
  unfold Vakya.upgradeIntent at h ⊢
  split_ifs at h ⊢
  · exact h
  · cases hu : Vakya.validateUpgradeValues headers with
    | error e => simp [hu] at h
    | ok has =>
      rw [ht.validateUpgradeValues hu]
      simpa only [hu] using h

theorem upgradeOf (version : Version) (status : StatusCode) (hc hc' : Option HeaderCaseMap)
    (ht : TrimmedFields headers headers') {o : ConnectionOptions} {method : Method}
    {up : Option UpgradeKind}
    (h : ResponseHead.upgradeOf ⟨version, status, headers, hc⟩ o method = .ok up) :
    ResponseHead.upgradeOf ⟨version, status, headers', hc'⟩ o method = .ok up := by
  unfold ResponseHead.upgradeOf validateProtocolUpgrade at h ⊢
  simp only at h ⊢
  cases hu : Vakya.validateUpgradeValues headers with
  | ok has => simpa only [hu, ht.validateUpgradeValues hu] using h
  | error e =>
    -- An unreadable `Upgrade` is fatal where it is looked at.
    simp only [hu] at h
    split_ifs at h ⊢ <;> simp_all

end TrimmedFields

theorem validateHost_trimmed {headers : Headers} {version : Version}
    (h : validateHost x headers version = .ok ()) :
    validateHost x (headers.mapValues HeaderValue.trimmed) version = .ok () := by
  unfold validateHost at h ⊢
  rw [HeaderMap.getAll_mapValues]
  cases hg : headers.getAll .host with
  | nil => simpa [hg] using h
  | cons value values =>
    cases values with
    | nil =>
      rw [hg] at h
      simp only [List.map_cons, List.map_nil]
      unfold validateHostValue at h ⊢
      simpa only [HeaderValue.trimmed, trimOws_idem] using h
    | cons value' values => simp [hg] at h

theorem SameTarget.targetFormOf {target target' : x.Uri} (h : SameTarget x target target') :
    targetFormOf x target' = Vakya.targetFormOf x target := by
  simp only [Vakya.targetFormOf, h.scheme, h.authority, h.path, h.pathAndQuery]

theorem SameTarget.validateRequestTarget {target target' : x.Uri} (h : SameTarget x target target')
    (method : Method) :
    validateRequestTarget x method target' = Vakya.validateRequestTarget x method target := by
  simp only [Vakya.validateRequestTarget, h.targetFormOf, h.authority]

theorem targetFormOf_of_validate {method : Method} {target : x.Uri} {form : TargetForm}
    (h : validateRequestTarget x method target = .ok form) : targetFormOf x target = .ok form := by
  unfold validateRequestTarget at h
  cases hf : targetFormOf x target with
  | error e => simp [hf] at h
  | ok f =>
    simp only [hf] at h
    split_ifs at h <;> cases h <;> rfl

/-- A validated request, read again with trimmed values, is accepted as received unless its
target is absolute, and never as something else. -/
theorem validate_reread {head head' : RequestHead x} {v : ValidatedRequestHead x}
    (h : head.validate = .ok v) (hm : head'.method = head.method)
    (hversion : head'.version = head.version) (htarget : SameTarget x head.target head'.target)
    (hheaders : head'.headers = v.head.headers.mapValues HeaderValue.trimmed) :
    (v.targetForm ≠ .absolute → ∃ v', head'.validateReceived = .ok v') ∧
      ∀ v', head'.validateReceived = .ok v' → v'.finding = v.finding := by
  obtain ⟨form, headers, body, connection, expects, upgrade, h1, h2, h3, h4, h5, h6, h7, h8, rfl⟩ :=
    RequestHead.validateFor_eq_ok.mp (RequestHead.validateReceived_of_validate h)
  have h1' : validateRequestTarget x head'.method head'.target = .ok form := by
    rw [hm, htarget.validateRequestTarget, h1]
  -- Whatever host the receiver inserts, the other fields are the sender's, trimmed.
  have key {headers' : Headers} (hhost : head'.hostHeaders form = .ok headers') :
      messageLength headers' head'.version .none = .ok body ∧
      connectionOptions headers' = .ok connection ∧
      expectation headers' head'.version true = .ok expects ∧
      head'.upgradeFor headers' connection form true = .ok upgrade := by
    have htrim : TrimmedFields headers headers' := by
      intro n hn
      rw [RequestHead.getAll_hostHeaders hhost hn, hheaders, HeaderMap.getAll_mapValues]
    rw [hversion]
    refine ⟨htrim.messageLength h4, htrim.connectionOptions h5, htrim.expectation h6, ?_⟩
    unfold RequestHead.upgradeFor at h7 ⊢
    rw [hversion]
    split_ifs at h7 ⊢
    · exact h7
    · exact htrim.upgradeIntent h7
  constructor
  · intro hform
    have hhost : head'.hostHeaders form = .ok head'.headers := if_neg hform
    have hhost₀ : headers = head.headers := by
      rw [RequestHead.hostHeaders, if_neg hform] at h3
      exact (Except.ok.inj h3).symm
    obtain ⟨k1, k2, k3, k4⟩ := key hhost
    refine ⟨_, RequestHead.validateFor_eq_ok.mpr ⟨form, head'.headers, body, connection, expects,
      upgrade, h1', ?_, hhost, k1, k2, k3, k4, by rwa [hversion], rfl⟩⟩
    rw [hheaders, hversion]
    exact validateHost_trimmed (by rwa [hhost₀])
  · intro v' hv'
    obtain ⟨form', headers', body', connection', expects', upgrade', k1, -, k3, k4, k5, k6, k7, -,
      rfl⟩ := RequestHead.validateFor_eq_ok.mp hv'
    obtain rfl : form = form' := Except.ok.inj (h1'.symm.trans k1)
    obtain ⟨j1, j2, j3, j4⟩ := key k3
    obtain rfl : body = body' := Except.ok.inj (j1.symm.trans k4)
    obtain rfl : connection = connection' := Except.ok.inj (j2.symm.trans k5)
    obtain rfl : expects = expects' := Except.ok.inj (j3.symm.trans k6)
    obtain rfl : upgrade = upgrade' := Except.ok.inj (j4.symm.trans k7)
    simp only [ValidatedRequestHead.finding, hversion]

/-- A validated response, read again with trimmed values. -/
theorem ResponseHead.validate_reread {head : ResponseHead} {method : Method}
    {v : ValidatedResponseHead} (h : head.validate method = .ok v)
    (headerCase : Option HeaderCaseMap) : ∃ v',
      ResponseHead.validate ⟨head.version, head.status, head.headers.mapValues HeaderValue.trimmed,
        headerCase⟩ method = .ok v' ∧
      v'.body = v.body ∧ v'.persistence = v.persistence ∧ v'.upgrade = v.upgrade := by
  obtain ⟨h1, connection, upgrade, body, h2, h3, h4, rfl⟩ := ResponseHead.validate_eq_ok.mp h
  have htrim : TrimmedFields head.headers (head.headers.mapValues HeaderValue.trimmed) :=
    fun n _ => HeaderMap.getAll_mapValues ..
  have hbody : ResponseHead.bodyOf ⟨head.version, head.status,
      head.headers.mapValues HeaderValue.trimmed, headerCase⟩ method upgrade = .ok body := by
    unfold ResponseHead.bodyOf at h4 ⊢
    split_ifs at h4 ⊢
    · exact h4
    · exact htrim.messageLength h4
  exact ⟨_, ResponseHead.validate_eq_ok.mpr ⟨h1, connection, upgrade, body,
    htrim.connectionOptions h2, htrim.upgradeOf head.version head.status head.headerCase _ h3,
    hbody, rfl⟩, rfl, rfl, rfl⟩

theorem prepared_request_reread (hreq : x.RequestHeads) (hm : x.KeepsMethods)
    (ht : x.TargetsReprint) (hn : x.FoldsNames) (hv : x.KeepsValues) {method : Method}
    {target : x.Uri} {version : Version} {headers : Headers} {original : Option HeaderCaseMap}
    {metadata : BodyMetadata} {config : EncodeConfig} {plan : MessagePlan (ValidatedRequestHead x)}
    (hprep : prepareRequestHead x method target version headers original metadata config = .ok plan)
    {p : HeadParser} (hfit : HeadFits x p.limits plan.bytes plan.head.head.headers) :
    (∀ rest, HeadScan.scanFrom 0 .leading (plan.bytes ++ rest) = .complete plan.bytes.length) ∧
    ∃ head, (p.parseSharedRequest x plan.bytes).2 = .ok head ∧
      head.method = plan.head.head.method ∧ head.version = plan.head.head.version ∧
      head.headers = plan.head.head.headers.mapValues HeaderValue.trimmed ∧
      (plan.head.targetForm ≠ .absolute → ∃ v, head.validateReceived = .ok v) ∧
      ∀ v, head.validateReceived = .ok v → v.finding = plan.head.finding := by
  obtain ⟨edited, w, hval, hw, hbytes⟩ := prepareRequestHead_ok hprep
  obtain ⟨hmethod, hversion, htarget, hform⟩ : plan.head.head.method = method ∧
      plan.head.head.version = version ∧ plan.head.head.target = target ∧
      targetFormOf x target = .ok plan.head.targetForm := by
    obtain ⟨form, h, _, _, _, _, h1, -, -, -, -, -, -, -, heq⟩ := RequestHead.validateFor_eq_ok.mp hval
    rw [← heq]
    exact ⟨rfl, rfl, rfl, targetFormOf_of_validate h1⟩
  rw [hbytes] at hfit ⊢
  obtain ⟨hscan, target', headerCase, hsame, hparse⟩ :=
    request_reread hreq hm ht hn hv (by rw [htarget]; exact hform) hw hfit
  rw [htarget] at hsame
  exact ⟨hscan, _, hparse, rfl, rfl, rfl, validate_reread hval hmethod hversion hsame rfl⟩

theorem prepared_response_reread (hres : x.ResponseHeads) (hr : x.PlainReasons) (hn : x.FoldsNames)
    (hv : x.KeepsValues) {status : StatusCode} {version : Version} {headers : Headers}
    {original : Option HeaderCaseMap} {metadata : BodyMetadata} {requestMethod : Method}
    {config : EncodeConfig} {plan : MessagePlan ValidatedResponseHead}
    (hprep : prepareResponseHead x status version headers original metadata requestMethod config =
      .ok plan)
    {p : HeadParser} (hfit : HeadFits x p.limits plan.bytes plan.head.head.headers) :
    (∀ rest, HeadScan.scanFrom 0 .leading (plan.bytes ++ rest) = .complete plan.bytes.length) ∧
    ∃ head v, (p.parseSharedResponse x plan.bytes).2 = .ok head ∧
      head.headers = plan.head.head.headers.mapValues HeaderValue.trimmed ∧ head.status = status ∧
      head.validate requestMethod = .ok v ∧ v.body = plan.head.body ∧
      v.persistence = plan.head.persistence ∧ v.upgrade = plan.head.upgrade := by
  obtain ⟨edited, mode, w, -, hval, hw, hbytes⟩ := prepareResponseHead_ok hprep
  obtain ⟨hstatus, _, _, _, -, -, -, heq⟩ := ResponseHead.validate_eq_ok.mp hval
  have hhead : plan.head.head = ⟨version, status, edited, none⟩ := by rw [← heq]
  rw [hbytes] at hfit ⊢
  obtain ⟨hscan, headerCase, hparse⟩ :=
    response_reread hres hr hn hv (by rw [hhead]; exact hstatus) hw hfit
  rw [hhead] at hparse ⊢
  obtain ⟨v, hvalid, hagree⟩ := ResponseHead.validate_reread hval headerCase
  exact ⟨hscan, _, v, hparse, rfl, rfl, hvalid, hagree⟩

variable (x)

/-- Every prepared head is found exactly where it ends, whatever follows it, parses, and is
validated to the sender's findings. A request with an absolute target may be refused by the
receiver, but is not taken for anything else. -/
theorem head_roundTrip (hreq : x.RequestHeads) (hres : x.ResponseHeads) (hm : x.KeepsMethods)
    (ht : x.TargetsReprint) (hr : x.PlainReasons) (hn : x.FoldsNames) (hv : x.KeepsValues) :
    (∀ (method : Method) (target : x.Uri) (version : Version) (headers : Headers)
      (originalCase : Option HeaderCaseMap) (metadata : BodyMetadata) (config : EncodeConfig)
      (plan : MessagePlan (ValidatedRequestHead x)) (limits : HeadLimits) (preserve : Bool)
      (tail : Bytes),
      prepareRequestHead x method target version headers originalCase metadata config = .ok plan →
      HeadFits x limits plan.bytes plan.head.head.headers →
      ∃ p n head,
        ((HeadParser.withLimits limits).withPreservedHeaderCase preserve).headLen
          (plan.bytes ++ tail) = (p, .ok (some n)) ∧
        n = plan.bytes.length ∧ (plan.bytes ++ tail).drop n = tail ∧
        (p.parseSharedRequest x ((plan.bytes ++ tail).take n)).2 = .ok head ∧
        (plan.head.targetForm ≠ .absolute → ∃ v, head.validateReceived = .ok v) ∧
        ∀ v, head.validateReceived = .ok v →
          v.body = plan.head.body ∧ v.persistence = plan.head.persistence ∧
          v.upgrade = plan.head.upgrade ∧ v.expectation = plan.head.expectation ∧
          v.targetForm = plan.head.targetForm) ∧
    (∀ (status : StatusCode) (version : Version) (headers : Headers)
      (originalCase : Option HeaderCaseMap) (metadata : BodyMetadata) (requestMethod : Method)
      (config : EncodeConfig) (plan : MessagePlan ValidatedResponseHead) (limits : HeadLimits)
      (preserve : Bool) (tail : Bytes),
      prepareResponseHead x status version headers originalCase metadata requestMethod config =
        .ok plan →
      HeadFits x limits plan.bytes plan.head.head.headers →
      ∃ p n head v,
        ((HeadParser.withLimits limits).withPreservedHeaderCase preserve).headLen
          (plan.bytes ++ tail) = (p, .ok (some n)) ∧
        n = plan.bytes.length ∧ (plan.bytes ++ tail).drop n = tail ∧
        (p.parseSharedResponse x ((plan.bytes ++ tail).take n)).2 = .ok head ∧
        head.validate requestMethod = .ok v ∧ v.body = plan.head.body ∧
        v.persistence = plan.head.persistence ∧ v.upgrade = plan.head.upgrade) := by
  constructor
  · intro method target version headers originalCase metadata config plan limits preserve tail
      hprep hfit
    set p₀ := (HeadParser.withLimits limits).withPreservedHeaderCase preserve
    set p : HeadParser := { p₀ with scan := .complete plan.bytes.length }
    obtain ⟨hscan, head, hparse, -, -, -, haccept, hfind⟩ :=
      prepared_request_reread hreq hm ht hn hv hprep (p := p) hfit
    refine ⟨p, plan.bytes.length, head, p₀.headLen_head rfl hscan hfit.bytes, rfl, List.drop_left,
      by rw [List.take_left]; exact hparse, haccept, fun v hv => ?_⟩
    have heq := hfind v hv
    simp only [ValidatedRequestHead.finding, RequestHead.Finding.mk.injEq] at heq
    obtain ⟨e1, e2, e3, e4, e5⟩ := heq
    exact ⟨e1, e2, e5, e4, e3⟩
  · intro status version headers originalCase metadata requestMethod config plan limits preserve tail
      hprep hfit
    set p₀ := (HeadParser.withLimits limits).withPreservedHeaderCase preserve
    set p : HeadParser := { p₀ with scan := .complete plan.bytes.length }
    obtain ⟨hscan, head, v, hparse, -, -, hvalid, hagree⟩ :=
      prepared_response_reread hres hr hn hv hprep (p := p) hfit
    exact ⟨p, plan.bytes.length, head, v, p₀.headLen_head rfl hscan hfit.bytes, rfl, List.drop_left,
      by rw [List.take_left]; exact hparse, hvalid, hagree⟩

theorem Reference.targetsReprint : reference.TargetsReprint := by
  intro target form _
  obtain ⟨text, h⟩ := target
  have hflat : (reference.uriDisplay ⟨text, h⟩).flatten = text := List.append_nil text
  rw [hflat]
  have hparse : reference.uriFromShared text = some ⟨text, h⟩ := dif_pos h
  refine ⟨?_, ⟨text, h⟩, hparse, rfl, rfl, rfl, rfl⟩
  simp only [Bool.and_eq_true, Bool.not_eq_true', List.isEmpty_eq_false_iff, List.all_eq_true,
    decide_eq_true_eq] at h
  simp only [isTarget, Bool.and_eq_true, Bool.not_eq_true', List.isEmpty_eq_false_iff,
    List.all_eq_true, decide_eq_true_eq, bne_iff_ne]
  refine ⟨⟨h.1, isUtf8_ascii h.2⟩, fun b hb => ⟨(h.2 b hb).1, ?_⟩⟩
  have := (h.2 b hb).2
  rintro rfl
  revert this
  decide

def sampleLimits : HeadLimits := ⟨1024, 16, sampleConfig.head_pos, by decide⟩

/-- An upload whose fields carry outer whitespace, followed by its body. -/
theorem head_roundTrip_sample : ∃ plan p n head v,
    prepareRequestHead reference .post ⟨ascii "/up", by decide⟩ .http11
      ((HeaderMap.empty.append .host ⟨ascii "a", by decide⟩).append .connection
        ⟨ascii " keep-alive , close ", by decide⟩) none ⟨.withExact 5 (by decide), .none⟩ sampleConfig = .ok plan ∧
    (HeadParser.withLimits sampleLimits).headLen (plan.bytes ++ ascii "hello") =
      (p, .ok (some n)) ∧
    (p.parseSharedRequest reference ((plan.bytes ++ ascii "hello").take n)).2 = .ok head ∧
    head.validateReceived = .ok v ∧ v.body = .fixed 5 ∧ v.persistence = .close := by
  obtain ⟨plan, hplan, hfit, hform, hbody, hclose⟩ : ∃ plan,
      prepareRequestHead reference .post ⟨ascii "/up", by decide⟩ .http11
        ((HeaderMap.empty.append .host ⟨ascii "a", by decide⟩).append .connection
          ⟨ascii " keep-alive , close ", by decide⟩) none ⟨.withExact 5 (by decide), .none⟩ sampleConfig = .ok plan ∧
      HeadFits reference sampleLimits plan.bytes plan.head.head.headers ∧
      plan.head.targetForm ≠ .absolute ∧ plan.head.body = .fixed 5 ∧
      plan.head.persistence = .close := by
    refine ⟨_, rfl, ⟨?_, ?_, ?_⟩, ?_, rfl, rfl⟩ <;> decide
  obtain ⟨p, n, head, h1, -, -, h2, h3, h4⟩ := (head_roundTrip reference Reference.requestHeads
    Reference.responseHeads Reference.keepsMethods Reference.targetsReprint Reference.plainReasons
    Reference.foldsNames Reference.keepsValues).1 _ _ _ _ _ _ _ plan sampleLimits false
    (ascii "hello") hplan hfit
  obtain ⟨v, hv⟩ := h3 hform
  obtain ⟨e1, e2, -⟩ := h4 v hv
  exact ⟨plan, p, n, head, v, hplan, h1, h2, hv, e1.trans hbody, e2.trans hclose⟩

end Vakya
