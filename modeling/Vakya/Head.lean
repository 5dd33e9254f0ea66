import Vakya.Decode

/-!
# Message heads and their validation (`head.rs`, `head/validate.rs`)

The fields of a head decide its body mode, persistence, expectation and upgrade
intent. Requests are validated as sent or as received; the two differ only
where an HTTP/1.0 recipient has to ignore a field.
-/

namespace Vakya

inductive Persistence
  | reusable
  | close
deriving DecidableEq, Repr

inductive UpgradeKind
  | protocol
  | tunnel
deriving DecidableEq, Repr

inductive TargetForm
  | origin
  | absolute
  | authority
  | asterisk
deriving DecidableEq, Repr

inductive Expectation
  | none
  | continue
deriving DecidableEq, Repr

inductive HeadLimit
  | bytes
  | headers
  | headerMap
deriving DecidableEq, Repr

inductive HeadError
  | invalidStartLine
  | invalidHeader
  | unsupportedVersion
  | invalidMethod
  | invalidTarget
  | invalidStatus
  | missingHost
  | invalidHost
  | invalidTargetForm
  | invalidContentLength
  | ambiguousMessageLength
  | invalidTransferEncoding
  | unsupportedTransferCoding
  | invalidConnection
  | invalidExpectation
  | invalidUpgrade
  | limit (which : HeadLimit)
deriving DecidableEq, Repr

structure RequestHead (x : Crates) where
  method : Method
  target : x.Uri
  version : Version
  headers : Headers
  headerCase : Option HeaderCaseMap

structure ResponseHead where
  version : Version
  status : StatusCode
  headers : Headers
  headerCase : Option HeaderCaseMap

structure ValidatedRequestHead (x : Crates) where
  head : RequestHead x
  body : BodyMode
  persistence : Persistence
  targetForm : TargetForm
  expectation : Expectation
  upgrade : Option UpgradeKind

structure ValidatedResponseHead where
  upgrade : Option UpgradeKind
  head : ResponseHead
  body : BodyMode
  persistence : Persistence

section Members

variable {A : Type} (error : HeadError) (handle : A → Bytes → Except HeadError A)

/-- The loop of `for_each_list_member`; `member` is what was read since the last comma. -/
def scanMembers (quoted escaped : Bool) (member : Bytes) (state : A) :
    Bytes → Except HeadError A
  | [] => if quoted || escaped || member.isEmpty then .error error else handle state member
  | b :: rest =>
    if escaped then scanMembers quoted false (member ++ [b]) state rest
    else if quoted && b == BACKSLASH then scanMembers quoted true (member ++ [b]) state rest
    else if b == DQUOTE then scanMembers (!quoted) false (member ++ [b]) state rest
    else if b == COMMA && !quoted then
      if member.isEmpty then .error error
      else
        match handle state member with
        | .error e => .error e
        | .ok state => scanMembers quoted false [] state rest
    else scanMembers quoted false (member ++ [b]) state rest

def forEachListMember (input : Bytes) (state : A) : Except HeadError A :=
  if input.isEmpty then .error error else scanMembers error handle false false [] state input

def forEachMember (values : List HeaderValue) (state : A) : Except HeadError A :=
  values.foldlM (fun state value => forEachListMember error handle value.bytes state) state

end Members

def decimalFold (digits : Bytes) : Option ℕ :=
  digits.foldlM (fun value digit => (checkedMul value 10).bind (checkedAdd · (digit.toNat - 48))) 0

/-- One member of `Content-Length`, already trimmed. -/
def contentLengthMember (parsed : Option ℕ) (member : Bytes) : Except HeadError (Option ℕ) :=
  if member.isEmpty || !member.all isAsciiDigit then .error .invalidContentLength
  else
    match decimalFold member with
    | none => .error .invalidContentLength
    | some value =>
      if parsed.any (· != value) then .error .ambiguousMessageLength else .ok (some value)

def parseContentLength (headers : Headers) : Except HeadError (Option ℕ) :=
  let values := headers.getAll .contentLength
  match forEachMember .invalidContentLength (fun a m => contentLengthMember a (trimOws m)) values none with
  | .error e => .error e
  | .ok parsed =>
    if !values.isEmpty && parsed.isNone then .error .invalidContentLength else .ok parsed

inductive TransferFraming
  | chunked
deriving DecidableEq, Repr

def splitCoding (member : Bytes) : Except HeadError (Bytes × Bytes) :=
  let coding := trimOws (member.takeWhile (· != SEMICOLON))
  if coding.isEmpty then .error .invalidTransferEncoding
  else .ok (coding, member.dropWhile (· != SEMICOLON))

/-- One turn of the loop in `validate_transfer_parameters`: the input left after one parameter. -/
def transferParameter (input : Bytes) : Option Bytes :=
  if input.head? ≠ some SEMICOLON then none
  else
    let input := trimOws input.tail
    let nameLen := (input.takeWhile isTchar).length
    if nameLen = 0 then none
    else
      let input := trimOws (input.drop nameLen)
      if input.head? ≠ some EQUALS then none
      else
        let input := trimOws input.tail
        match extensionValueLen input with
        | none => none
        | some valueLen =>
          let input := trimOws (input.drop valueLen)
          if !input.isEmpty && input.head? != some SEMICOLON then none else some input

theorem length_transferParameter {input rest : Bytes} (h : transferParameter input = some rest) :
    rest.length < input.length := by
  unfold transferParameter at h
  split_ifs at h with hs
  simp only at h
  split_ifs at h
  split at h
  · cases h
  · split_ifs at h
    obtain rfl := Option.some.inj h
    cases input with
    | nil => simp at hs
    | cons b bs =>
      have h1 := length_trimOws_le bs
      have h2 := length_trimOws_le ((trimOws bs).drop ((trimOws bs).takeWhile isTchar).length)
      have h3 := length_trimOws_le
        (trimOws ((trimOws bs).drop ((trimOws bs).takeWhile isTchar).length)).tail
      refine Nat.lt_succ_of_le ((length_trimOws_le _).trans ?_)
      simp only [List.length_drop, List.length_tail, List.tail_cons] at *
      omega

def validateTransferParameters (input : Bytes) : Except HeadError Unit :=
  if input = [] then .ok ()
  else
    match transferParameter input, @length_transferParameter input with
    | none, _ => .error .invalidTransferEncoding
    | some rest, shorter =>
      have := shorter rfl
      validateTransferParameters rest
termination_by input.length

structure Codings where
  count : ℕ
  chunkedAt : Option ℕ
  unsupported : Bool
deriving DecidableEq

/-- One member of `Transfer-Encoding`, already trimmed. -/
def transferEncodingMember (codings : Codings) (member : Bytes) : Except HeadError Codings := do
  let (coding, parameters) ← splitCoding member
  ensure (isToken coding = true) .invalidTransferEncoding
  validateTransferParameters parameters
  match checkedAdd codings.count 1 with
  | none => .error .invalidTransferEncoding
  | some count =>
    if eqIgnoreAsciiCase coding (ascii "chunked") then
      if codings.chunkedAt.isSome || !parameters.isEmpty then .error .invalidTransferEncoding
      else .ok { codings with count := count, chunkedAt := some count }
    else .ok { codings with count := count, unsupported := true }

def parseTransferEncoding (headers : Headers) : Except HeadError (Option TransferFraming) :=
  match forEachMember .invalidTransferEncoding (fun a m => transferEncodingMember a (trimOws m))
      (headers.getAll .transferEncoding) ⟨0, none, false⟩ with
  | .error e => .error e
  | .ok codings =>
    if codings.count = 0 then .ok none
    else if codings.chunkedAt ≠ some codings.count then .error .invalidTransferEncoding
    else if codings.unsupported then .error .unsupportedTransferCoding
    else .ok (some .chunked)

structure ConnectionOptions where
  close : Bool
  keepAlive : Bool
  upgrade : Bool
deriving DecidableEq

def connectionMember (options : ConnectionOptions) (token : Bytes) :
    Except HeadError ConnectionOptions :=
  if !isToken token then .error .invalidConnection
  else if eqIgnoreAsciiCase token (ascii "close") then .ok { options with close := true }
  else if eqIgnoreAsciiCase token (ascii "keep-alive") then .ok { options with keepAlive := true }
  else if eqIgnoreAsciiCase token (ascii "upgrade") then .ok { options with upgrade := true }
  else .ok options

def connectionOptions (headers : Headers) : Except HeadError ConnectionOptions :=
  forEachMember .invalidConnection (fun a m => connectionMember a (trimOws m))
    (headers.getAll .connection) ⟨false, false, false⟩

def persistence (version : Version) (options : ConnectionOptions) : Persistence :=
  if options.close || (version = .http10 && !options.keepAlive) then .close else .reusable

def expectationMember (count : ℕ) (token : Bytes) : Except HeadError ℕ :=
  if !eqIgnoreAsciiCase token (ascii "100-continue") then .error .invalidExpectation
  else
    match checkedAdd count 1 with
    | none => .error .invalidExpectation
    | some count => .ok count

def expectation (headers : Headers) (version : Version) (received : Bool) :
    Except HeadError Expectation :=
  match forEachMember .invalidExpectation (fun a m => expectationMember a (trimOws m))
      (headers.getAll .expect) 0 with
  | .error e => .error e
  | .ok count =>
    if count = 0 then .ok .none
    else
      match version with
      | .http11 => .ok .continue
      | .http10 => if received then .ok .none else .error .invalidExpectation
      | _ => .error .invalidExpectation

/-- The pieces of a slice between separators; `split` of the standard library. -/
def splitOn (separator : UInt8) (bytes : Bytes) : List Bytes := bytes.splitOn separator

def isProtocol (member : Bytes) : Bool :=
  match splitOn 47 member with
  | [protocol] => isToken protocol
  | [protocol, version] => isToken protocol && isToken version
  | _ => false

def upgradeMember (protocols : ℕ) (member : Bytes) : Except HeadError ℕ :=
  if !isProtocol member then .error .invalidUpgrade
  else
    match checkedAdd protocols 1 with
    | none => .error .invalidUpgrade
    | some protocols => .ok protocols

def validateUpgradeValues (headers : Headers) : Except HeadError Bool :=
  match forEachMember .invalidUpgrade (fun a m => upgradeMember a (trimOws m))
      (headers.getAll .upgrade) 0 with
  | .error e => .error e
  | .ok protocols => .ok (protocols != 0)

def upgradeIntent (headers : Headers) (connection : ConnectionOptions) (targetForm : TargetForm) :
    Except HeadError (Option UpgradeKind) :=
  if targetForm = .authority then .ok (some .tunnel)
  else
    match validateUpgradeValues headers with
    | .error e => .error e
    | .ok hasUpgrade =>
      match connection.upgrade, connection.close, hasUpgrade with
      | true, false, true => .ok (some .protocol)
      | false, _, false => .ok none
      | _, _, _ => .error .invalidUpgrade

def validateProtocolUpgrade (headers : Headers) (connection : ConnectionOptions) :
    Except HeadError Unit :=
  if connection.upgrade && !connection.close then
    match validateUpgradeValues headers with
    | .error e => .error e
    | .ok true => .ok ()
    | .ok false => .error .invalidUpgrade
  else .error .invalidUpgrade

def AT : UInt8 := 64

def targetFormOf (x : Crates) (target : x.Uri) : Except HeadError TargetForm :=
  let scheme := x.uriScheme target
  let authority := x.uriAuthority target
  if x.uriPath target = ascii "*" ∧ scheme = none ∧ authority = none then .ok .asterisk
  else if scheme.isSome ∧ authority.isSome then .ok .absolute
  else if scheme = none ∧ authority.isSome ∧ x.uriPathAndQuery target = none then .ok .authority
  else if scheme = none ∧ authority = none ∧ (x.uriPath target).head? = some 47 then .ok .origin
  else .error .invalidTargetForm

def validateRequestTarget (x : Crates) (method : Method) (target : x.Uri) :
    Except HeadError TargetForm :=
  match targetFormOf x target with
  | .error e => .error e
  | .ok form =>
    if method = .connect then
      if form = .authority ∧ (x.uriAuthority target).any x.authorityPort then .ok form
      else .error .invalidTargetForm
    else if method = .options ∧ form = .asterisk then .ok form
    else if form = .asterisk ∨ form = .authority then .error .invalidTargetForm
    else .ok form

def normalizeAbsoluteHost (x : Crates) (headers : Headers) (target : x.Uri) :
    Except HeadError Headers :=
  match x.uriAuthority target with
  | none => .error .invalidTargetForm
  | some authority =>
    if authority.contains AT then .error .invalidTarget
    else
      match x.headerValueFromStr authority with
      | none => .error .invalidHost
      | some value => .ok (headers.insert .host value)

/-- The text of a `Host` value that is neither missing nor repeated. -/
def validateHostValue (x : Crates) (value : Bytes) : Except HeadError Unit :=
  let bytes := trimOws value
  if bytes.isEmpty || bytes.contains COMMA || bytes.contains AT then .error .invalidHost
  else if !isUtf8 bytes then .error .invalidHost
  else if x.authority bytes then .ok () else .error .invalidHost

def validateHost (x : Crates) (headers : Headers) (version : Version) : Except HeadError Unit :=
  match headers.getAll .host with
  | [] => if version = .http11 then .error .missingHost else .ok ()
  | [value] => validateHostValue x value.bytes
  | _ :: _ :: _ => .error .invalidHost

/-- Body mode of the two length fields; `absent` when there is neither. -/
def framingOf (transferEncoding : Option TransferFraming) (contentLength : Option ℕ)
    (absent : BodyMode) : BodyMode :=
  match transferEncoding, contentLength with
  | some .chunked, _ => .chunked
  | none, some length => .fixed length
  | none, none => absent

def messageLength (headers : Headers) (version : Version) (absent : BodyMode) :
    Except HeadError BodyMode := do
  let contentLength ← parseContentLength headers
  let transferEncoding ← parseTransferEncoding headers
  ensure (¬ (contentLength.isSome ∧ transferEncoding.isSome)) .ambiguousMessageLength
  ensure (¬ (transferEncoding.isSome ∧ version ≠ .http11)) .invalidTransferEncoding
  return framingOf transferEncoding contentLength absent

theorem messageLength_eq_ok {headers : Headers} {version : Version} {absent mode : BodyMode} :
    messageLength headers version absent = .ok mode ↔ ∃ length encoding,
      parseContentLength headers = .ok length ∧ parseTransferEncoding headers = .ok encoding ∧
      ¬ (length.isSome ∧ encoding.isSome) ∧ ¬ (encoding.isSome ∧ version ≠ .http11) ∧
      framingOf encoding length absent = mode := by
  simp only [messageLength, bind_eq_ok_iff, ensure_eq_ok, exists_const, pure, Except.pure,
    Except.ok.injEq, exists_and_left]

namespace RequestHead

variable {x : Crates}

def upgradeFor (head : RequestHead x) (headers : Headers) (connection : ConnectionOptions)
    (targetForm : TargetForm) (received : Bool) : Except HeadError (Option UpgradeKind) :=
  if received && head.version = .http10 && targetForm ≠ .authority then .ok none
  else upgradeIntent headers connection targetForm

/-- The headers of an absolute-form request name its authority as the host. -/
def hostHeaders (head : RequestHead x) (targetForm : TargetForm) : Except HeadError Headers :=
  if targetForm = .absolute then normalizeAbsoluteHost x head.headers head.target
  else .ok head.headers

def validateFor (head : RequestHead x) (received : Bool) :
    Except HeadError (ValidatedRequestHead x) := do
  let targetForm ← validateRequestTarget x head.method head.target
  validateHost x head.headers head.version
  let headers ← head.hostHeaders targetForm
  let body ← messageLength headers head.version .none
  let connection ← connectionOptions headers
  let expectation ← expectation headers head.version received
  let upgrade ← head.upgradeFor headers connection targetForm received
  ensure (¬ (upgrade = some .protocol ∧ head.version ≠ .http11)) .invalidUpgrade
  return ⟨{ head with headers := headers }, body, persistence head.version connection, targetForm,
    expectation, upgrade⟩

theorem validateFor_eq_ok {head : RequestHead x} {received : Bool} {v : ValidatedRequestHead x} :
    head.validateFor received = .ok v ↔ ∃ form headers body connection expects upgrade,
      validateRequestTarget x head.method head.target = .ok form ∧
      validateHost x head.headers head.version = .ok () ∧
      head.hostHeaders form = .ok headers ∧
      messageLength headers head.version .none = .ok body ∧
      connectionOptions headers = .ok connection ∧
      expectation headers head.version received = .ok expects ∧
      head.upgradeFor headers connection form received = .ok upgrade ∧
      ¬ (upgrade = some .protocol ∧ head.version ≠ .http11) ∧
      ⟨{ head with headers := headers }, body, persistence head.version connection, form, expects,
        upgrade⟩ = v := by
  have hunit (r : Except HeadError Unit) (p : Prop) : (∃ u, r = .ok u ∧ p) ↔ r = .ok () ∧ p :=
    ⟨fun ⟨_, h⟩ => h, fun h => ⟨(), h⟩⟩
  simp only [validateFor, bind_eq_ok_iff, ensure_eq_ok, exists_const, pure, Except.pure,
    Except.ok.injEq, exists_and_left, hunit]

def validate (head : RequestHead x) : Except HeadError (ValidatedRequestHead x) :=
  head.validateFor false

def validateReceived (head : RequestHead x) : Except HeadError (ValidatedRequestHead x) :=
  head.validateFor true

end RequestHead

namespace ResponseHead

def upgradeOf (head : ResponseHead) (connection : ConnectionOptions) (requestMethod : Method) :
    Except HeadError (Option UpgradeKind) :=
  if head.status = .switchingProtocols then
    if head.version ≠ .http11 then .error .invalidUpgrade
    else
      match validateProtocolUpgrade head.headers connection with
      | .error e => .error e
      | .ok () => .ok (some .protocol)
  else if requestMethod = .connect ∧ head.status.isSuccess then .ok (some .tunnel)
  else .ok none

def bodyless (status : StatusCode) (requestMethod : Method) (upgrade : Option UpgradeKind) : Bool :=
  upgrade.isSome || requestMethod = .head || status.isInformational || status = .noContent ||
    status = .resetContent || status = .notModified

def bodyOf (head : ResponseHead) (requestMethod : Method) (upgrade : Option UpgradeKind) :
    Except HeadError BodyMode :=
  if bodyless head.status requestMethod upgrade then .ok .none
  else messageLength head.headers head.version .untilEof

def validate (head : ResponseHead) (requestMethod : Method) :
    Except HeadError ValidatedResponseHead := do
  ensure (head.status.code ≤ 599) .invalidStatus
  let connection ← connectionOptions head.headers
  let upgrade ← head.upgradeOf connection requestMethod
  let body ← head.bodyOf requestMethod upgrade
  return ⟨upgrade, head, body,
    if body = .untilEof then .close else persistence head.version connection⟩

theorem validate_eq_ok {head : ResponseHead} {method : Method} {v : ValidatedResponseHead} :
    head.validate method = .ok v ↔ head.status.code ≤ 599 ∧ ∃ connection upgrade body,
      connectionOptions head.headers = .ok connection ∧
      head.upgradeOf connection method = .ok upgrade ∧ head.bodyOf method upgrade = .ok body ∧
      ⟨upgrade, head, body,
        if body = .untilEof then .close else persistence head.version connection⟩ = v := by
  simp only [validate, bind_eq_ok_iff, ensure_eq_ok, exists_const, pure, Except.pure,
    Except.ok.injEq, exists_and_left]

end ResponseHead

end Vakya
