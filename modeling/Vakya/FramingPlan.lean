import Vakya.EncodeHead
import Vakya.Validation

/-!
# Planned and validated framing

The planner edits the framing fields from the body metadata; the validator reads
the edited fields back. Whenever both succeed they agree, and the body encoder
accepts the mode.
-/

namespace Vakya

theorem mapError_eq_ok {E F A : Type} {r : Except E A} {f : E → F} {a : A} :
    r.mapError f = .ok a ↔ r = .ok a := by
  cases r <;> simp [Except.mapError]

theorem digit_of_mem_toDigits {n : ℕ} {c : Char} (h : c ∈ Nat.toDigits 10 n) :
    ∃ d < 10, c.toNat = 48 + d := by
  have hd : c.isDigit = true := Nat.isDigit_of_mem_toDigits (by decide) (by decide) h
  have hlow : 48 ≤ c.toNat := by simpa using (Char.isDigit_iff_toNat.mp hd).1
  have hhigh : c.toNat ≤ 57 := by simpa using (Char.isDigit_iff_toNat.mp hd).2
  exact ⟨c.toNat - 48, by omega, by omega⟩

theorem decimalText_digits (n : ℕ) : ∀ b ∈ decimalText n, isAsciiDigit b = true := by
  intro b hb
  obtain ⟨c, hc, rfl⟩ := List.mem_map.mp hb
  obtain ⟨d, hd, heq⟩ := digit_of_mem_toDigits hc
  have key : ∀ d < 10, isAsciiDigit (48 + d).toUInt8 = true := by decide
  rw [heq]
  exact key d hd

theorem decimalText_ne_nil (n : ℕ) : decimalText n ≠ [] := by
  simp [decimalText, Nat.toDigits_ne_nil]

theorem decimalText_token (n : ℕ) : isToken (decimalText n) = true := by
  simp only [isToken, Bool.and_eq_true, Bool.not_eq_true', List.isEmpty_eq_false_iff,
    List.all_eq_true]
  refine ⟨decimalText_ne_nil n, fun b hb => ?_⟩
  simp [isTchar, isAsciiAlphanumeric, decimalText_digits n b hb]

theorem decimalValue_decimalText (n : ℕ) : decimalValue (decimalText n) = n := by
  have hdigit : ∀ d < 10, (48 + d).toUInt8.toNat = 48 + d := by decide
  have key (cs : List Char) (hcs : ∀ c ∈ cs, ∃ d < 10, c.toNat = 48 + d) (value : ℕ) :
      (cs.map fun c => c.toNat.toUInt8).foldl
        (fun value digit => value * 10 + (digit.toNat - 48)) value = Nat.ofDigitChars 10 cs value := by
    induction cs generalizing value with
    | nil => simp
    | cons c cs ih =>
      obtain ⟨d, hd, heq⟩ := hcs c (by simp)
      have hstep : value * 10 + (c.toNat.toUInt8.toNat - 48) = 10 * value + (c.toNat - 48) := by
        rw [heq, hdigit d hd]
        omega
      rw [List.map_cons, List.foldl_cons, hstep, ih fun c' hc' => hcs c' (by simp [hc'])]
      simp [Nat.ofDigitChars_cons]
  rw [decimalValue, decimalText, key _ (fun c => digit_of_mem_toDigits) 0]
  exact Nat.ofDigitChars_ten_toDigits

theorem parseContentLength_insert (headers : Headers) {n : ℕ} (hn : n < wordSize) :
    parseContentLength (headers.insert .contentLength (.ofLength n)) = .ok (some n) := by
  have hmembers : fieldMembers [HeaderValue.ofLength n] = some [decimalText n] :=
    fieldMembers_tokens (by
      rintro _ (_ | ⟨_, ⟨⟩⟩)
      exact decimalText_token n)
  have hall : (decimalText n).all isAsciiDigit = true := List.all_eq_true.mpr (decimalText_digits n)
  have hstep : contentLengthMember none (trimOws (decimalText n)) = .ok (some n) := by
    rw [trimOws_token (decimalText_token n), contentLengthMember,
      decimalFold_eq_some.mpr ⟨decimalValue_decimalText n, hn⟩]
    simp [decimalText_ne_nil, hall]
  have hfold : forEachMember .invalidContentLength (fun a m => contentLengthMember a (trimOws m))
      [HeaderValue.ofLength n] none = .ok (some n) :=
    forEachMember_eq_ok.mpr ⟨_, hmembers, foldlM_cons_eq_ok.mpr ⟨_, hstep, rfl⟩⟩
  rw [parseContentLength, HeaderMap.getAll_insert_self]
  simp [hfold]

theorem parseTransferEncoding_insert (headers : Headers) :
    parseTransferEncoding (headers.insert .transferEncoding .chunked) = .ok (some .chunked) := by
  have hmembers : fieldMembers [HeaderValue.chunked] = some [ascii "chunked"] :=
    fieldMembers_tokens (by decide)
  have hparams : validateTransferParameters [] = .ok () := by
    rw [validateTransferParameters, if_pos rfl]
  have hsplit : splitCoding (trimOws (ascii "chunked")) = .ok (ascii "chunked", []) := by decide
  have hstep : transferEncodingMember ⟨0, none, false⟩ (trimOws (ascii "chunked")) =
      .ok ⟨1, some 1, false⟩ := by
    simp only [transferEncodingMember, hsplit]
    change (validateTransferParameters [] >>= fun _ => _) = _
    rw [hparams]
    decide
  have hfold : forEachMember .invalidTransferEncoding
      (fun a m => transferEncodingMember a (trimOws m)) [HeaderValue.chunked] ⟨0, none, false⟩ =
      .ok ⟨1, some 1, false⟩ :=
    forEachMember_eq_ok.mpr ⟨_, hmembers, foldlM_cons_eq_ok.mpr ⟨_, hstep, rfl⟩⟩
  rw [parseTransferEncoding, HeaderMap.getAll_insert_self, hfold]
  rfl

theorem parseTransferEncoding_congr {headers headers' : Headers}
    (h : headers'.getAll .transferEncoding = headers.getAll .transferEncoding) :
    parseTransferEncoding headers' = parseTransferEncoding headers := by
  simp only [parseTransferEncoding, h]

theorem parseContentLength_nil {headers : Headers} (h : headers.getAll .contentLength = []) :
    parseContentLength headers = .ok none := by
  simp [parseContentLength, h]

theorem parseTransferEncoding_nil {headers : Headers} (h : headers.getAll .transferEncoding = []) :
    parseTransferEncoding headers = .ok none := by
  simp [parseTransferEncoding, h]

theorem not_containsKey {headers : Headers} {n : HeaderName} (h : headers.containsKey n = false) :
    headers.getAll n = [] := by
  by_contra hne
  rw [(headers.containsKey_iff n).mpr hne] at h
  cases h

theorem setExactLength_ok {headers headers' : Headers} {n : ℕ} (hn : n < wordSize)
    (h : setExactLength headers n = .ok headers') :
    parseContentLength headers' = .ok (some n) ∧ parseTransferEncoding headers' = .ok none := by
  unfold setExactLength at h
  obtain ⟨encoding, h1, h⟩ := bind_eq_ok h
  obtain ⟨_, h2, h⟩ := bind_eq_ok h
  obtain ⟨declared, h3, h⟩ := bind_eq_ok h
  obtain rfl := ensure_eq_ok.mp h2
  rw [mapError_eq_ok] at h1 h3
  cases declared with
  | some declared =>
    simp only at h
    split_ifs at h with heq
    cases h
    exact ⟨heq ▸ h3, h1⟩
  | none =>
    cases h
    refine ⟨parseContentLength_insert headers hn, ?_⟩
    rwa [parseTransferEncoding_congr (HeaderMap.getAll_insert_ne _ (by decide) _)]

theorem setChunked_ok {headers headers' : Headers} (h : setChunked headers = .ok headers') :
    parseContentLength headers' = .ok none ∧ parseTransferEncoding headers' = .ok (some .chunked) := by
  unfold setChunked at h
  obtain ⟨_, h1, h⟩ := bind_eq_ok h
  obtain ⟨encoding, h2, h⟩ := bind_eq_ok h
  have hnil := not_containsKey (ensure_eq_ok.mp h1)
  rw [mapError_eq_ok] at h2
  cases encoding with
  | some framing =>
    cases framing
    cases h
    exact ⟨parseContentLength_nil hnil, h2⟩
  | none =>
    cases h
    refine ⟨parseContentLength_nil ?_, parseTransferEncoding_insert headers⟩
    rwa [HeaderMap.getAll_insert_ne _ (by decide)]

def CarriesFraming (headers : Headers) (version : Version) : BodyMode → Prop
  | .fixed n => FixedFraming headers n
  | .chunked => ChunkedFraming headers version
  | .untilEof => NoFraming headers
  | .none => True

/-- The fields and the metadata agree on a mode that has a body. -/
structure Plans (headers : Headers) (version : Version) (metadata : BodyMetadata)
    (mode : BodyMode) : Prop where
  length : messageLength headers version .untilEof = .ok mode
  fixed : ∀ n, mode = .fixed n → metadata.size.exact = some n ∧ metadata.trailers = .none
  eof : mode = .untilEof → metadata.trailers = .none

theorem fixedLength_eq_some {metadata : BodyMetadata} {n : ℕ} (h : metadata.fixedLength = some n) :
    metadata.size.exact = some n ∧ metadata.trailers = .none ∧ n < wordSize := by
  unfold BodyMetadata.fixedLength at h
  split_ifs at h with ht
  obtain ⟨-, hup⟩ := SizeHint.exact_eq_some h
  exact ⟨h, ht, metadata.size.upper_lt n hup⟩

theorem plans_fixed {headers headers' : Headers} (version : Version) {metadata : BodyMetadata} {n : ℕ}
    (hn : metadata.fixedLength = some n) (h : setExactLength headers n = .ok headers') :
    Plans headers' version metadata (.fixed n) := by
  obtain ⟨hexact, htr, hlt⟩ := fixedLength_eq_some hn
  obtain ⟨hcl, hte⟩ := setExactLength_ok hlt h
  refine ⟨messageLength_eq_ok.mpr ⟨_, _, hcl, hte, by simp, by simp, rfl⟩, ?_, by simp⟩
  rintro k ⟨⟩
  exact ⟨hexact, htr⟩

theorem plans_chunked {headers headers' : Headers} {version : Version} (metadata : BodyMetadata)
    (hv : version = .http11) (h : setChunked headers = .ok headers') :
    Plans headers' version metadata .chunked := by
  obtain ⟨hcl, hte⟩ := setChunked_ok h
  exact ⟨messageLength_eq_ok.mpr ⟨_, _, hcl, hte, by simp, by simp [hv], rfl⟩, by simp, by simp⟩

theorem planRequestFraming_ok {headers headers' : Headers} {version : Version}
    {metadata : BodyMetadata} {mode : BodyMode}
    (h : planRequestFraming headers version metadata = .ok (headers', mode)) :
    Plans headers' version metadata mode ∧ mode ≠ .untilEof := by
  unfold planRequestFraming at h
  cases hl : metadata.fixedLength with
  | some n =>
    simp only [hl] at h
    obtain ⟨edited, h1, h⟩ := bind_eq_ok h
    cases h
    exact ⟨plans_fixed version hl h1, by simp⟩
  | none =>
    simp only [hl] at h
    obtain ⟨_, h1, h⟩ := bind_eq_ok h
    obtain ⟨edited, h2, h⟩ := bind_eq_ok h
    cases h
    exact ⟨plans_chunked metadata (ensure_eq_ok.mp h1) h2, by simp⟩

theorem planRepresentationFraming_ok {headers headers' : Headers} {version : Version}
    {metadata : BodyMetadata} {mode : BodyMode}
    (h : planRepresentationFraming headers version metadata = .ok (headers', mode)) :
    Plans headers' version metadata mode := by
  unfold planRepresentationFraming at h
  cases hl : metadata.fixedLength with
  | some n =>
    simp only [hl] at h
    obtain ⟨edited, h1, h⟩ := bind_eq_ok h
    cases h
    exact plans_fixed version hl h1
  | none =>
    simp only [hl] at h
    by_cases hv : version = .http11
    · rw [if_pos hv] at h
      obtain ⟨edited, h1, h⟩ := bind_eq_ok h
      cases h
      exact plans_chunked metadata hv h1
    · rw [if_neg hv] at h
      obtain ⟨_, h1, h⟩ := bind_eq_ok h
      obtain ⟨_, h2, h⟩ := bind_eq_ok h
      cases h
      have htr : metadata.trailers = .none := by
        have hne := ensure_eq_ok.mp h1
        cases ht : metadata.trailers with
        | none => rfl
        | mayHave => exact absurd ht hne
      unfold rejectFramingHeaders at h2
      split_ifs at h2 with hk
      simp only [Bool.or_eq_true, not_or, Bool.not_eq_true] at hk
      refine ⟨messageLength_eq_ok.mpr ⟨_, _, parseContentLength_nil (not_containsKey hk.1),
        parseTransferEncoding_nil (not_containsKey hk.2), by simp, by simp, rfl⟩, by simp,
        fun _ => htr⟩

theorem Plans.carries {headers : Headers} {version : Version} {metadata : BodyMetadata}
    {mode : BodyMode} (h : Plans headers version metadata mode) :
    CarriesFraming headers version mode := by
  rcases messageLength_ok h.length with ⟨hc, rfl⟩ | ⟨n, hf, rfl⟩ | ⟨hno, rfl⟩
  · exact hc
  · exact hf
  · exact hno

theorem Plans.encoder {headers : Headers} {version : Version} {metadata : BodyMetadata}
    {mode : BodyMode} (h : Plans headers version metadata mode) (config : EncodeConfig) :
    ∃ e, BodyEncoder.new mode metadata config = .ok e := by
  cases mode with
  | fixed n =>
    obtain ⟨h1, h2⟩ := h.fixed n rfl
    refine ⟨_, if_neg ?_⟩
    simp [h1, h2]
  | untilEof =>
    refine ⟨_, if_neg ?_⟩
    simp [h.eof rfl]
  | none => exact ⟨_, rfl⟩
  | chunked => exact ⟨_, rfl⟩

theorem CarriesFraming.congr {headers headers' : Headers} {version : Version} {mode : BodyMode}
    (hl : headers'.getAll .contentLength = headers.getAll .contentLength)
    (he : headers'.getAll .transferEncoding = headers.getAll .transferEncoding)
    (h : CarriesFraming headers version mode) : CarriesFraming headers' version mode := by
  cases mode with
  | none => trivial
  | _ => simpa only [CarriesFraming, FixedFraming, ChunkedFraming, NoFraming, hl, he] using h

/-- A mode that the fields give does not depend on what their absence would mean. -/
theorem messageLength_absent {headers : Headers} {version : Version} {absent absent' mode : BodyMode}
    (h : messageLength headers version absent = .ok mode) (hne : mode ≠ absent) :
    messageLength headers version absent' = .ok mode := by
  obtain ⟨length, encoding, h1, h2, h3, h4, rfl⟩ := messageLength_eq_ok.mp h
  refine messageLength_eq_ok.mpr ⟨length, encoding, h1, h2, h3, h4, ?_⟩
  cases encoding with
  | some framing => rfl
  | none =>
    cases length with
    | some n => rfl
    | none => exact absurd rfl hne

def PlannedBodyless (status : StatusCode) (requestMethod : Method) : Prop :=
  (requestMethod = .connect ∧ status.isSuccess) ∨ status.isInformational ∨ status = .noContent ∨
    requestMethod = .head ∨ status = .notModified ∨ status = .resetContent

theorem planResponseFraming_ok {headers headers' : Headers} {version : Version} {status : StatusCode}
    {metadata : BodyMetadata} {requestMethod : Method} {mode : BodyMode}
    (h : planResponseFraming headers version status metadata requestMethod = .ok (headers', mode)) :
    (PlannedBodyless status requestMethod ∧ mode = .none) ∨
      (¬ PlannedBodyless status requestMethod ∧ Plans headers' version metadata mode) := by
  simp only [planResponseFraming] at h
  by_cases h1 : (requestMethod = .connect ∧ status.isSuccess) ∨
      (status.isInformational ∨ status = .noContent)
  · rw [if_pos h1] at h
    obtain ⟨_, -, h⟩ := bind_eq_ok h
    obtain ⟨_, -, h⟩ := bind_eq_ok h
    cases h
    refine .inl ⟨?_, rfl⟩
    unfold PlannedBodyless
    tauto
  rw [if_neg h1] at h
  by_cases h2 : requestMethod = .head ∨ status = .notModified
  · rw [if_pos h2] at h
    obtain ⟨edited, -, h⟩ := bind_eq_ok h
    cases h
    refine .inl ⟨?_, rfl⟩
    unfold PlannedBodyless
    tauto
  rw [if_neg h2] at h
  by_cases h3 : status = .resetContent
  · rw [if_pos h3] at h
    obtain ⟨_, -, h⟩ := bind_eq_ok h
    obtain ⟨edited, -, h⟩ := bind_eq_ok h
    cases h
    exact .inl ⟨by simp [PlannedBodyless, h3], rfl⟩
  rw [if_neg h3] at h
  refine .inr ⟨?_, planRepresentationFraming_ok h⟩
  unfold PlannedBodyless
  tauto

theorem getAll_setExactLength {headers headers' : Headers} {k : ℕ} {n : HeaderName}
    (hn : n ≠ .contentLength) (h : setExactLength headers k = .ok headers') :
    headers'.getAll n = headers.getAll n := by
  unfold setExactLength at h
  obtain ⟨_, -, h⟩ := bind_eq_ok h
  obtain ⟨_, -, h⟩ := bind_eq_ok h
  obtain ⟨declared, -, h⟩ := bind_eq_ok h
  cases declared with
  | some declared =>
    simp only at h
    split_ifs at h
    cases h
    rfl
  | none =>
    cases h
    exact HeaderMap.getAll_insert_ne _ hn _

theorem getAll_setChunked {headers headers' : Headers} {n : HeaderName}
    (hn : n ≠ .transferEncoding) (h : setChunked headers = .ok headers') :
    headers'.getAll n = headers.getAll n := by
  unfold setChunked at h
  obtain ⟨_, -, h⟩ := bind_eq_ok h
  obtain ⟨encoding, -, h⟩ := bind_eq_ok h
  cases encoding <;> cases h
  · exact HeaderMap.getAll_insert_ne _ hn _
  · rfl

theorem getAll_planRepresentationFraming {headers headers' : Headers} {version : Version}
    {metadata : BodyMetadata} {mode : BodyMode} {n : HeaderName} (h1 : n ≠ .contentLength)
    (h2 : n ≠ .transferEncoding)
    (h : planRepresentationFraming headers version metadata = .ok (headers', mode)) :
    headers'.getAll n = headers.getAll n := by
  unfold planRepresentationFraming at h
  cases hl : metadata.fixedLength with
  | some k =>
    simp only [hl] at h
    obtain ⟨edited, he, h⟩ := bind_eq_ok h
    cases h
    exact getAll_setExactLength h1 he
  | none =>
    simp only [hl] at h
    by_cases hv : version = .http11
    · rw [if_pos hv] at h
      obtain ⟨edited, he, h⟩ := bind_eq_ok h
      cases h
      exact getAll_setChunked h2 he
    · rw [if_neg hv] at h
      obtain ⟨_, -, h⟩ := bind_eq_ok h
      obtain ⟨_, -, h⟩ := bind_eq_ok h
      cases h
      rfl

theorem getAll_planResponseFraming {headers headers' : Headers} {version : Version}
    {status : StatusCode} {metadata : BodyMetadata} {requestMethod : Method} {mode : BodyMode}
    {n : HeaderName} (h1 : n ≠ .contentLength) (h2 : n ≠ .transferEncoding)
    (h : planResponseFraming headers version status metadata requestMethod = .ok (headers', mode)) :
    headers'.getAll n = headers.getAll n := by
  simp only [planResponseFraming] at h
  split_ifs at h
  · obtain ⟨_, -, h⟩ := bind_eq_ok h
    obtain ⟨_, -, h⟩ := bind_eq_ok h
    cases h
    rfl
  · obtain ⟨⟨edited, mode'⟩, he, h⟩ := bind_eq_ok h
    cases h
    exact getAll_planRepresentationFraming h1 h2 he
  · obtain ⟨_, -, h⟩ := bind_eq_ok h
    obtain ⟨edited, he, h⟩ := bind_eq_ok h
    cases h
    exact getAll_setExactLength h1 he
  · exact getAll_planRepresentationFraming h1 h2 h

/-- The validator gives no body to exactly the responses that the planner gives none. -/
theorem bodyless_iff {head : ResponseHead} {connection : ConnectionOptions} {requestMethod : Method}
    {upgrade : Option UpgradeKind} (h : head.upgradeOf connection requestMethod = .ok upgrade) :
    ResponseHead.bodyless head.status requestMethod upgrade = true ↔
      PlannedBodyless head.status requestMethod := by
  have hinfo : head.status = .switchingProtocols → head.status.isInformational = true := by
    intro hs
    rw [hs]
    decide
  have hup : upgrade.isSome ↔ head.status = .switchingProtocols ∨
      (requestMethod = .connect ∧ head.status.isSuccess) := by
    unfold ResponseHead.upgradeOf at h
    split_ifs at h with h1 h2 h3
    · split at h <;> cases h
      simp [h1]
    · cases h
      simp [h3]
    · cases h
      simp [h1, h3]
  simp only [ResponseHead.bodyless, PlannedBodyless, Bool.or_eq_true, hup, decide_eq_true_eq]
  constructor
  · rintro ((((((hswitching | htunnel) | hhead) | hinformational) | hnone) | hreset) | hunmodified)
    · exact .inr (.inl (hinfo hswitching))
    · exact .inl htunnel
    · exact .inr (.inr (.inr (.inl hhead)))
    · exact .inr (.inl hinformational)
    · exact .inr (.inr (.inl hnone))
    · exact .inr (.inr (.inr (.inr (.inr hreset))))
    · exact .inr (.inr (.inr (.inr (.inl hunmodified))))
  · rintro (htunnel | hinformational | hnone | hhead | hunmodified | hreset)
    · exact .inl (.inl (.inl (.inl (.inl (.inr htunnel)))))
    · exact .inl (.inl (.inl (.inr hinformational)))
    · exact .inl (.inl (.inr hnone))
    · exact .inl (.inl (.inl (.inl (.inr hhead))))
    · exact .inr hunmodified
    · exact .inl (.inr hreset)

/-- Whatever the planner chose is what the validator reads back and what the encoder takes; a plan
that fails leaves no message. -/
theorem planned_framing (x : Crates) :
    (∀ (method : Method) (target : x.Uri) (version : Version) (headers headers' : Headers)
      (metadata : BodyMetadata) (config : EncodeConfig) (mode : BodyMode)
      (v : ValidatedRequestHead x),
      planRequestFraming headers version metadata = .ok (headers', mode) →
      RequestHead.validate ⟨method, target, version, headers', none⟩ = .ok v →
      v.body = mode ∧ CarriesFraming v.head.headers version mode ∧
        ∃ e, BodyEncoder.new v.body metadata config = .ok e) ∧
    (∀ (status : StatusCode) (version : Version) (headers headers' : Headers)
      (metadata : BodyMetadata) (requestMethod : Method) (config : EncodeConfig) (mode : BodyMode)
      (v : ValidatedResponseHead),
      planResponseFraming headers version status metadata requestMethod = .ok (headers', mode) →
      ResponseHead.validate ⟨version, status, headers', none⟩ requestMethod = .ok v →
      v.body = mode ∧ CarriesFraming v.head.headers version mode ∧
        ∃ e, BodyEncoder.new v.body metadata config = .ok e) ∧
    (∀ (method : Method) (target : x.Uri) (version : Version) (headers : Headers)
      (originalCase : Option HeaderCaseMap) (metadata : BodyMetadata) (config : EncodeConfig)
      (e : EncodeError), planRequestFraming headers version metadata = .error e →
      prepareRequestHead x method target version headers originalCase metadata config = .error e) ∧
    ∀ (status : StatusCode) (version : Version) (headers : Headers)
      (originalCase : Option HeaderCaseMap) (metadata : BodyMetadata) (requestMethod : Method)
      (config : EncodeConfig) (e : EncodeError),
      planResponseFraming headers version status metadata requestMethod = .error e →
      prepareResponseHead x status version headers originalCase metadata requestMethod config =
        .error e := by
  refine ⟨?_, ?_, ?_, ?_⟩
  · intro method target version headers headers' metadata config mode v hplan hval
    obtain ⟨hp, hne⟩ := planRequestFraming_ok hplan
    have hbody : v.body = mode := Except.ok.inj
      ((RequestHead.messageLength_of_validateFor hval).symm.trans (messageLength_absent hp.length hne))
    obtain ⟨form, edited, body, _, _, _, -, -, hhost, -, -, -, -, -, rfl⟩ :=
      RequestHead.validateFor_eq_ok.mp hval
    refine ⟨hbody, hp.carries.congr (RequestHead.getAll_hostHeaders hhost (by decide))
      (RequestHead.getAll_hostHeaders hhost (by decide)), ?_⟩
    rw [hbody]
    exact hp.encoder config
  · intro status version headers headers' metadata requestMethod config mode v hplan hval
    obtain ⟨-, connection, upgrade, body, -, hup, hbody, rfl⟩ := ResponseHead.validate_eq_ok.mp hval
    unfold ResponseHead.bodyOf at hbody
    rcases planResponseFraming_ok hplan with ⟨hless, rfl⟩ | ⟨hless, hp⟩
    · rw [if_pos ((bodyless_iff hup).mpr hless)] at hbody
      cases hbody
      exact ⟨rfl, trivial, _, rfl⟩
    · rw [if_neg (mt (bodyless_iff hup).mp hless)] at hbody
      obtain rfl : mode = body := Except.ok.inj (hp.length.symm.trans hbody)
      exact ⟨rfl, hp.carries, hp.encoder config⟩
  · intro method target version headers originalCase metadata config e h
    rw [prepareRequestHead, h]
    rfl
  · intro status version headers originalCase metadata requestMethod config e h
    rw [prepareResponseHead, h]
    rfl

theorem planned_framing_sample : ∃ v : ValidatedResponseHead,
    ResponseHead.validate ⟨.http10, .ok, .empty, none⟩ .get = .ok v ∧ v.body = .untilEof ∧
      NoFraming v.head.headers := by
  have hplan : planResponseFraming .empty .http10 .ok ⟨.new, .none⟩ .get =
      .ok (.empty, .untilEof) := rfl
  have hval : ∃ v, ResponseHead.validate ⟨.http10, .ok, .empty, none⟩ .get = .ok v := ⟨_, rfl⟩
  obtain ⟨v, hv⟩ := hval
  obtain ⟨hbody, hno, -⟩ := (planned_framing reference).2.1 .ok .http10 .empty .empty ⟨.new, .none⟩
    .get ⟨1, 1, false, by decide, by decide⟩ .untilEof v hplan hv
  exact ⟨v, hv, hbody, hno⟩

end Vakya
