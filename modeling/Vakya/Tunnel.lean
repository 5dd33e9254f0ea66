import Vakya.Fate
import Vakya.HeaderCase

/-!
# Answering CONNECT (`exchange` and `write_response` of the server)

`exchange` seeds the close flag of the request context from the persistence of the request. A closing
exchange cannot hand the transport over, so a request that is accepted as a tunnel can be answered
with one only if it would also keep the connection open; the policy does not ask for that.
-/

namespace Vakya

/-- The pieces fit into `limit` bytes after `used`, and memory for each of them is to be had. -/
structure Fits (x : Crates) (limit used : ℕ) (pieces : List Bytes) : Prop where
  length_le : used + pieces.flatten.length ≤ limit
  length_lt : used + pieces.flatten.length < wordSize
  reserves : ∀ before piece after, pieces = before ++ piece :: after →
    x.reserve (used + before.flatten.length) piece.length = true

namespace BoundedWriter

variable {x : Crates} {w : BoundedWriter}

theorem push_ok_iff {w' : BoundedWriter} (value : Bytes) : w.push x value = .ok w' ↔
    (w.bytes.length + value.length ≤ w.limit ∧ w.bytes.length + value.length < wordSize ∧
      x.reserve w.bytes.length value.length = true) ∧ { w with bytes := w.bytes ++ value } = w' := by
  unfold push extend checkedAdd
  by_cases hword : w.bytes.length + value.length < wordSize
  · simp only [if_pos hword]
    split_ifs with hlong hreserve
    · simp only [false_iff]
      omega
    · simp [hword, hreserve, Nat.not_lt.mp hlong]
    · simp [hreserve]
  · simp [hword]

theorem fits_cons {limit used : ℕ} {piece : Bytes} {pieces : List Bytes} : Fits x limit used (piece :: pieces) ↔
    x.reserve used piece.length = true ∧ Fits x limit (used + piece.length) pieces := by
  have hlength : used + (piece :: pieces).flatten.length = used + piece.length + pieces.flatten.length := by
    rw [List.flatten_cons, List.length_append, Nat.add_assoc]
  constructor
  · intro h
    refine ⟨h.reserves [] piece pieces rfl, hlength ▸ h.length_le, hlength ▸ h.length_lt, ?_⟩
    intro before next after heq
    have hreserve := h.reserves (piece :: before) next after (by rw [heq, List.cons_append])
    rwa [List.flatten_cons, List.length_append, ← Nat.add_assoc] at hreserve
  · rintro ⟨hreserve, h⟩
    refine ⟨hlength ▸ h.length_le, hlength ▸ h.length_lt, ?_⟩
    intro before next after heq
    cases before with
    | nil =>
      cases heq
      exact hreserve
    | cons first before =>
      obtain ⟨rfl, hpieces⟩ := List.cons.inj heq
      rw [List.flatten_cons, List.length_append, ← Nat.add_assoc]
      exact h.reserves before next after hpieces

theorem pushAll_ok_iff (hle : w.bytes.length ≤ w.limit) (hlt : w.bytes.length < wordSize) (pieces : List Bytes) :
    (∃ w', w.pushAll x pieces = .ok w') ↔ Fits x w.limit w.bytes.length pieces := by
  induction pieces generalizing w with
  | nil =>
    have hnil : Fits x w.limit w.bytes.length [] := ⟨hle, hlt, by simp⟩
    exact iff_of_true ⟨w, rfl⟩ hnil
  | cons piece pieces ih =>
    have hstep : w.pushAll x (piece :: pieces) = (w.push x piece >>= fun w => w.pushAll x pieces) :=
      List.foldlM_cons ..
    rw [hstep, fits_cons]
    constructor
    · rintro ⟨w', h⟩
      obtain ⟨next, hpush, hrest⟩ := bind_eq_ok h
      obtain ⟨⟨hfits, hword, hreserve⟩, rfl⟩ := (push_ok_iff piece).mp hpush
      rw [← List.length_append] at hfits hword
      have hall := (ih hfits hword).mp ⟨w', hrest⟩
      rw [List.length_append] at hall
      exact ⟨hreserve, hall⟩
    · rintro ⟨hreserve, h⟩
      have hfits := (Nat.le_add_right _ _).trans h.length_le
      have hword := (Nat.le_add_right _ _).trans_lt h.length_lt
      have hpush := (push_ok_iff (x := x) (w := w) piece).mpr ⟨⟨hfits, hword, hreserve⟩, rfl⟩
      rw [hpush, ok_bind]
      rw [← List.length_append] at h hfits hword
      exact (ih hfits hword).mpr h

end BoundedWriter

def responsePieces (x : Crates) (version : Bytes) (head : ResponseHead) (original : Option HeaderCaseMap)
    (title : Bool) : List Bytes :=
  [version, [SP], head.status.text, [SP], (x.canonicalReason head.status).getD [], CRLF] ++
    ((headerLines head.headers original title).flatMap HeaderLine.pieces ++ [CRLF])

theorem writeResponseHead_eq {x : Crates} {head : ResponseHead} {original : Option HeaderCaseMap}
    {config : EncodeConfig} {version : Bytes} (hversion : versionBytes head.version = .ok version) :
    writeResponseHead x head original config =
      (BoundedWriter.new config.maxHeadBytes).pushAll x
        (responsePieces x version head original config.titleCaseHeaders) := by
  rw [responsePieces, BoundedWriter.pushAll_append]
  simp only [writeResponseHead, hversion, writeHeaders_eq, BoundedWriter.pushAll, List.foldlM_cons, List.foldlM_nil,
    List.foldlM_append, ok_bind, bind_assoc, bind_pure]

theorem writeResponseHead_ok_iff {x : Crates} {head : ResponseHead} {original : Option HeaderCaseMap}
    {config : EncodeConfig} : (∃ w, writeResponseHead x head original config = .ok w) ↔
      ∃ version, versionBytes head.version = .ok version ∧
        Fits x config.maxHeadBytes 0 (responsePieces x version head original config.titleCaseHeaders) := by
  cases hversion : versionBytes head.version with
  | ok version =>
    have hiff := BoundedWriter.pushAll_ok_iff (x := x) (w := BoundedWriter.new config.maxHeadBytes) (Nat.zero_le _)
      zero_lt_wordSize (responsePieces x version head original config.titleCaseHeaders)
    rw [writeResponseHead_eq hversion, hiff]
    constructor
    · intro h
      exact ⟨version, rfl, h⟩
    · rintro ⟨version', heq, h⟩
      cases heq
      exact h
  | error e =>
    constructor
    · rintro ⟨w, h⟩
      simp only [writeResponseHead, hversion] at h
      cases h
    · rintro ⟨version, heq, -⟩
      cases heq

/-- What `exchange` seeds the close flag of the context with. -/
def ValidatedRequestHead.closes {x : Crates} (v : ValidatedRequestHead x) : Bool := v.persistence = .close

/-- The request leaves the connection open: no `close`, and `keep-alive` in HTTP/1.0. -/
def RequestHead.StaysOpen {x : Crates} (head : RequestHead x) : Prop :=
  ∃ options, connectionOptions head.headers = .ok options ∧ options.close = false ∧
    (head.version = .http10 → options.keepAlive = true)

namespace ServiceResponse

/-- A successful response without a body and without framing fields. -/
structure Bare (r : ServiceResponse) : Prop where
  success : r.status.isSuccess = true
  exact : r.metadata.size.exact = some 0
  trailers : r.metadata.trailers = .none
  contentLength : r.headers.containsKey .contentLength = false
  transferEncoding : r.headers.containsKey .transferEncoding = false

def sentVersion (r : ServiceResponse) (requestVersion : Version) : Version :=
  if requestVersion = .http10 then .http10 else r.version

def sentHead (r : ServiceResponse) (requestVersion : Version) (date : Option HeaderValue) : ResponseHead :=
  ⟨r.sentVersion requestVersion, r.status, r.sentHeaders false date, none⟩

/-- The encoder takes this head: its `Connection` members are tokens, its version is one of
HTTP/1, and it fits. -/
structure Encodes (x : Crates) (r : ServiceResponse) (requestVersion : Version) (date : Option HeaderValue)
    (encoding : EncodeConfig) : Prop where
  connection : ∃ options, connectionOptions r.headers = .ok options
  rendered : ∃ version, versionBytes (r.sentVersion requestVersion) = .ok version ∧
    Fits x encoding.maxHeadBytes 0
      (responsePieces x version (r.sentHead requestVersion date) r.originalCase encoding.titleCaseHeaders)

theorem getAll_sentHeaders (r : ServiceResponse) (date : Option HeaderValue) {n : HeaderName} (hn : n ≠ .date) :
    (r.sentHeaders false date).getAll n = r.headers.getAll n := by
  unfold sentHeaders
  cases date with
  | none => rfl
  | some value =>
    simp only [Bool.false_eq_true, if_false]
    split_ifs
    · rfl
    · exact HeaderMap.getAll_insert_ne _ hn _

theorem containsKey_sentHeaders (r : ServiceResponse) (date : Option HeaderValue) {n : HeaderName} (hn : n ≠ .date) :
    (r.sentHeaders false date).containsKey n = r.headers.containsKey n := by
  rw [Bool.eq_iff_iff, HeaderMap.containsKey_iff, HeaderMap.containsKey_iff, getAll_sentHeaders r date hn]

end ServiceResponse

variable {x : Crates}

theorem authority_of_tunnel {head : RequestHead x} {headers : Headers} {connection : ConnectionOptions}
    {form : TargetForm} {received : Bool}
    (h : head.upgradeFor headers connection form received = .ok (some .tunnel)) : form = .authority := by
  by_contra hform
  simp only [RequestHead.upgradeFor, upgradeIntent, if_neg hform] at h
  split_ifs at h
  · cases h
  · split at h
    · cases h
    · split at h
      · cases h
      · cases h
      · cases h

theorem connect_of_authority {method : Method} {target : x.Uri}
    (h : validateRequestTarget x method target = .ok .authority) : method = .connect := by
  by_contra hnot
  unfold validateRequestTarget at h
  split at h
  · cases h
  · rw [if_neg hnot] at h
    split_ifs at h with hasterisk hother
    · exact absurd (Except.ok.inj h ▸ hasterisk.2) (by decide)
    · exact hother (.inr (Except.ok.inj h))

theorem persistence_eq_reusable_iff {version : Version} {connection : ConnectionOptions} :
    persistence version connection = .reusable ↔
      connection.close = false ∧ (version = .http10 → connection.keepAlive = true) := by
  unfold persistence
  cases connection.close with
  | true => simp
  | false => simp

theorem closes_eq_false_iff {v : ValidatedRequestHead x} : v.closes = false ↔ v.persistence = .reusable := by
  unfold ValidatedRequestHead.closes
  cases v.persistence with
  | reusable => simp
  | close => simp

theorem tunnel_request {head : RequestHead x} {v : ValidatedRequestHead x} (hv : head.validateReceived = .ok v)
    (htunnel : v.upgrade = some .tunnel) :
    v.head.method = .connect ∧ v.head.version = head.version ∧ (v.closes = false ↔ head.StaysOpen) := by
  obtain ⟨form, headers, body, connection, expects, upgrade, htarget, -, hhost, -, hconnection, -, hupgrade, -, rfl⟩ :=
    RequestHead.validateFor_eq_ok.mp hv
  obtain rfl : upgrade = some .tunnel := htunnel
  -- the target has to be an authority, and then the headers stay as they came
  obtain rfl := authority_of_tunnel hupgrade
  have hheaders : headers = head.headers := by
    rw [RequestHead.hostHeaders, if_neg (by decide)] at hhost
    exact (Except.ok.inj hhost).symm
  subst hheaders
  refine ⟨connect_of_authority htarget, rfl, ?_⟩
  rw [closes_eq_false_iff, persistence_eq_reusable_iff]
  constructor
  · rintro ⟨hclose, hkeep⟩
    exact ⟨connection, hconnection, hclose, hkeep⟩
  · rintro ⟨options, hoptions, hclose, hkeep⟩
    obtain rfl := Except.ok.inj (hconnection.symm.trans hoptions)
    exact ⟨hclose, hkeep⟩

theorem not_switching {status : StatusCode} (h : status.isSuccess = true) : status ≠ .switchingProtocols := by
  rintro rfl
  exact absurd h (by decide)

/-- A successful answer to CONNECT that was prepared is a tunnel, and ends with its head. -/
theorem upgrade_of_prepared {status : StatusCode} {version : Version} {headers : Headers}
    {original : Option HeaderCaseMap} {metadata : BodyMetadata} {config : EncodeConfig}
    {plan : MessagePlan ValidatedResponseHead} (hsuccess : status.isSuccess = true)
    (h : prepareResponseHead x status version headers original metadata .connect config = .ok plan) :
    plan.head.upgrade = some .tunnel ∧ plan.head.body = .none := by
  obtain ⟨edited, mode, w, -, hvalid, -, -⟩ := prepareResponseHead_ok h
  obtain ⟨-, connection, upgrade, body, -, hupgrade, hbody, heq⟩ := ResponseHead.validate_eq_ok.mp hvalid
  rw [ResponseHead.upgradeOf, if_neg (not_switching hsuccess), if_pos ⟨rfl, hsuccess⟩] at hupgrade
  cases hupgrade
  rw [ResponseHead.bodyOf, if_pos (by simp [ResponseHead.bodyless])] at hbody
  cases hbody
  rw [← heq]
  exact ⟨rfl, rfl⟩

theorem policy_hands_off {v : ValidatedRequestHead x} (htunnel : v.upgrade = some .tunnel) (max : ℕ)
    {sent : ValidatedResponseHead} (hsent : sent.upgrade = some .tunnel) :
    ∃ state, (ExchangePolicy.new v max).sentResponse sent = (state, .ok ()) ∧
      state.finish .complete .complete = .ok (.handoff .tunnel) ∧
      state.closeAfterExchange.finish .complete .complete = .ok (.handoff .tunnel) := by
  have hadmits : (ExchangePolicy.new v max).phase = .awaitingHead ∧
      (ExchangePolicy.new v max).admitsUpgrade .tunnel sent.head.headers = true := by
    refine ⟨rfl, ?_⟩
    simp [ExchangePolicy.admitsUpgrade, ExchangePolicy.new, htunnel]
  refine ⟨{ ExchangePolicy.new v max with phase := .upgrade .tunnel }, ?_, rfl, rfl⟩
  rw [ExchangePolicy.sentResponse, hsent]
  exact if_pos hadmits

theorem planResponseFraming_bare {r : ServiceResponse} (hbare : r.Bare) (version : Version)
    (date : Option HeaderValue) : planResponseFraming (r.sentHeaders false date) version r.status r.metadata .connect =
      .ok (r.sentHeaders false date, .none) := by
  have hlength : (r.sentHeaders false date).containsKey .contentLength = false :=
    (r.containsKey_sentHeaders date (by decide)).trans hbare.contentLength
  have hencoding : (r.sentHeaders false date).containsKey .transferEncoding = false :=
    (r.containsKey_sentHeaders date (by decide)).trans hbare.transferEncoding
  simp only [planResponseFraming]
  rw [if_pos (.inl ⟨trivial, hbare.success⟩), ensure, if_pos ⟨hbare.exact, hbare.trailers⟩, ok_bind, ensure,
    if_pos ⟨hlength, hencoding⟩]
  rfl

theorem validate_tunnel {head : ResponseHead} {options : ConnectionOptions} (hsuccess : head.status.isSuccess = true)
    (hoptions : connectionOptions head.headers = .ok options) :
    head.validate .connect = .ok ⟨some .tunnel, head, .none, persistence head.version options⟩ := by
  have hcode : head.status.code ≤ 599 := by
    simp only [StatusCode.isSuccess, Bool.and_eq_true, decide_eq_true_eq] at hsuccess
    omega
  refine ResponseHead.validate_eq_ok.mpr ⟨hcode, options, some .tunnel, .none, hoptions, ?_, ?_, rfl⟩
  · rw [ResponseHead.upgradeOf, if_neg (not_switching hsuccess), if_pos ⟨rfl, hsuccess⟩]
  · rw [ResponseHead.bodyOf, if_pos (by simp [ResponseHead.bodyless])]

theorem prepared_iff_encodes {r : ServiceResponse} (hbare : r.Bare) (requestVersion : Version)
    (date : Option HeaderValue) (encoding : EncodeConfig) :
    (∃ plan, prepareResponseHead x r.status (r.sentVersion requestVersion) (r.sentHeaders false date) r.originalCase
        r.metadata .connect encoding = .ok plan) ↔ r.Encodes x requestVersion date encoding := by
  have hsame : connectionOptions (r.sentHeaders false date) = connectionOptions r.headers :=
    RequestHead.connectionOptions_congr (r.getAll_sentHeaders date (by decide))
  constructor
  · rintro ⟨plan, h⟩
    obtain ⟨edited, mode, w, hplan, hvalid, hw, -⟩ := prepareResponseHead_ok h
    rw [planResponseFraming_bare hbare] at hplan
    cases hplan
    obtain ⟨-, options, upgrade, body, hoptions, -, -, heq⟩ := ResponseHead.validate_eq_ok.mp hvalid
    rw [← heq] at hw
    exact ⟨⟨options, hsame ▸ hoptions⟩, writeResponseHead_ok_iff.mp ⟨w, hw⟩⟩
  · rintro ⟨⟨options, hoptions⟩, hrendered⟩
    have hwritten : ∃ w, writeResponseHead x (r.sentHead requestVersion date) r.originalCase encoding = .ok w :=
      writeResponseHead_ok_iff.mpr hrendered
    obtain ⟨w, hw⟩ := hwritten
    have hvalid : (r.sentHead requestVersion date).validate .connect = .ok ⟨some .tunnel,
        r.sentHead requestVersion date, .none, persistence (r.sentVersion requestVersion) options⟩ :=
      validate_tunnel hbare.success (hsame.trans hoptions)
    -- the head as `prepareResponseHead` builds it
    have hvalid' : ResponseHead.validate ⟨r.sentVersion requestVersion, r.status, r.sentHeaders false date, none⟩
        .connect = _ := hvalid
    refine ⟨⟨w.bytes, some .tunnel, r.sentHead requestVersion date, .none,
      persistence (r.sentVersion requestVersion) options⟩, ?_⟩
    simp only [prepareResponseHead, planResponseFraming_bare hbare, ok_bind, hvalid']
    simp only [Except.mapError, ok_bind, ensure, if_true, hw]
    rfl

/-- The response is written, as a head without a body, and the exchange ends in the hand-over of the
transport: the request was fully received, and the service did not ask to close. -/
def AnswersWithTunnel (x : Crates) (v : ValidatedRequestHead x) (r : ServiceResponse) (date : Option HeaderValue)
    (encoding : EncodeConfig) (max : ℕ) : Prop :=
  ∃ state plan, prepareFinal x r v.head.method v.head.version v.closes date encoding (ExchangePolicy.new v max) =
      (state, .ok plan) ∧
    plan.head.body = .none ∧ finishExchange .complete state v.closes = .ok (.handoff .tunnel)

/-- `prepareFinal` of a response other than an interim one, by what became of its head. -/
theorem prepareFinal_eq {r : ServiceResponse} (hinterim : r.status.isInterim = false) (method : Method)
    (requestVersion : Version) (close : Bool) (date : Option HeaderValue) (encoding : EncodeConfig)
    (state : ExchangePolicy) :
    prepareFinal x r method requestVersion close date encoding state =
      match prepareResponseHead x r.status (r.sentVersion requestVersion) (r.sentHeaders close date) r.originalCase
          r.metadata method encoding with
      | .error e => (state, .error e.toError)
      | .ok plan =>
        if plan.head.upgrade.isSome && close then
          (state, .error (.new .upgrade "closing exchange cannot transfer transport ownership"))
        else
          match state.sentResponse plan.head with
          | (state, .error e) => (state, .error e)
          | (state, .ok ()) => (state, .ok plan) := by
  rw [prepareFinal, hinterim]
  rfl

theorem answers_iff {head : RequestHead x} {v : ValidatedRequestHead x} (hv : head.validateReceived = .ok v)
    (htunnel : v.upgrade = some .tunnel) {r : ServiceResponse} (hbare : r.Bare) (date : Option HeaderValue)
    (encoding : EncodeConfig) (max : ℕ) :
    AnswersWithTunnel x v r date encoding max ↔ head.StaysOpen ∧ r.Encodes x head.version date encoding := by
  obtain ⟨hmethod, hversion, hopen⟩ := tunnel_request hv htunnel
  have hinterim : r.status.isInterim = false := by
    have hsuccess := hbare.success
    simp only [StatusCode.isSuccess, Bool.and_eq_true, decide_eq_true_eq] at hsuccess
    have hinformational : r.status.isInformational = false := by
      simp only [StatusCode.isInformational, Bool.and_eq_false_iff, decide_eq_false_iff_not]
      omega
    rw [StatusCode.isInterim, hinformational, Bool.false_and]
  rw [← hopen, ← hversion, ← prepared_iff_encodes hbare]
  constructor
  -- a tunnel that was written belongs to an exchange that does not close
  · rintro ⟨state, plan, hfinal, -⟩
    obtain ⟨-, ⟨version, hplan⟩, hclose, -⟩ := prepareFinal_ok hfinal
    rw [hmethod] at hplan
    have hcloses : v.closes = false := hclose (by rw [(upgrade_of_prepared hbare.success hplan).1]; rfl)
    refine ⟨hcloses, ?_⟩
    rw [prepareFinal_eq hinterim, hcloses, hmethod] at hfinal
    split at hfinal
    · cases hfinal
    · rename_i plan' hplan'
      exact ⟨plan', hplan'⟩
  · rintro ⟨hcloses, plan, hplan⟩
    obtain ⟨hupgrade, hbody⟩ := upgrade_of_prepared hbare.success hplan
    obtain ⟨state, hsent, hfinish, -⟩ := policy_hands_off htunnel max hupgrade
    refine ⟨state, plan, ?_, hbody, ?_⟩
    · rw [prepareFinal_eq hinterim, hcloses, hmethod, hplan]
      simp only [Bool.and_false, Bool.false_eq_true, if_false, hsent]
    · rw [hcloses]
      exact hfinish

theorem policy_receives_tunnel {v : ValidatedRequestHead x} (htunnel : v.upgrade = some .tunnel) (max : ℕ)
    {head : ResponseHead} {received : ValidatedResponseHead} (hvalid : head.validate v.head.method = .ok received)
    (hreceived : received.upgrade = some .tunnel) :
    ∃ client, (ExchangePolicy.new v max).receiveHead head = (client, .ok (received, .upgrade .tunnel)) ∧
      client.finish .complete .complete = .ok (.handoff .tunnel) := by
  have hadmits : (ExchangePolicy.new v max).admitsUpgrade .tunnel received.head.headers = true := by
    simp [ExchangePolicy.admitsUpgrade, ExchangePolicy.new, htunnel]
  have hphase : (ExchangePolicy.new v max).phase = .awaitingHead := rfl
  have hvalid' : head.validate (ExchangePolicy.new v max).method = .ok received := hvalid
  refine ⟨{ ExchangePolicy.new v max with phase := .upgrade .tunnel }, ?_, rfl⟩
  rw [ExchangePolicy.receiveHead, if_neg (not_not.mpr hphase), hvalid']
  simp only [hreceived, if_pos hadmits]

/-- **CONNECT gets its tunnel exactly when the request keeps the connection open.** For a received
request that is accepted as a tunnel and a bare successful response, the response is written and the
exchange hands the transport over if and only if the request neither closes nor, in HTTP/1.0, lacks
`keep-alive`, and the encoder takes the head. The policies of both sides do not depend on the first
condition. -/
theorem connect_tunnel_iff {head : RequestHead x} {v : ValidatedRequestHead x} (hv : head.validateReceived = .ok v)
    (htunnel : v.upgrade = some .tunnel) {r : ServiceResponse} (hbare : r.Bare) (date : Option HeaderValue)
    (encoding : EncodeConfig) (max : ℕ) :
    (AnswersWithTunnel x v r date encoding max ↔ head.StaysOpen ∧ r.Encodes x head.version date encoding) ∧
      ∀ close plan, prepareResponseHead x r.status (r.sentVersion head.version) (r.sentHeaders close date)
          r.originalCase r.metadata v.head.method encoding = .ok plan →
        (∃ state, (ExchangePolicy.new v max).sentResponse plan.head = (state, .ok ()) ∧
          finishExchange .complete state close = .ok (.handoff .tunnel)) ∧
        ∃ client, (ExchangePolicy.new v max).receiveHead plan.head.head =
            (client, .ok (plan.head, .upgrade .tunnel)) ∧
          client.finish .complete .complete = .ok (.handoff .tunnel) := by
  refine ⟨answers_iff hv htunnel hbare date encoding max, ?_⟩
  intro close plan hplan
  obtain ⟨hmethod, -, -⟩ := tunnel_request hv htunnel
  have hupgrade : plan.head.upgrade = some .tunnel := by
    rw [hmethod] at hplan
    exact (upgrade_of_prepared hbare.success hplan).1
  constructor
  · obtain ⟨state, hsent, hfinish, hclosed⟩ := policy_hands_off htunnel max hupgrade
    refine ⟨state, hsent, ?_⟩
    cases close with
    | false => exact hfinish
    | true => exact hclosed
  · obtain ⟨edited, mode, w, -, hvalid, -, -⟩ := prepareResponseHead_ok hplan
    have hhead := (ResponseHead.validate_ok hvalid).1
    rw [← hhead] at hvalid
    exact policy_receives_tunnel htunnel max hvalid hupgrade

/-- `CONNECT example.test:443`, with a host in HTTP/1.1. -/
def connectRequest (version : Version) : RequestHead reference :=
  ⟨.connect, ⟨ascii "example.test:443", by decide⟩, version,
    if version = .http11 then HeaderMap.empty.append .host ⟨ascii "example.test:443", by decide⟩ else .empty, none⟩

def connectOk : ServiceResponse where
  status := .ok
  version := .http11
  headers := .empty
  originalCase := none
  metadata := ⟨.withExact 0 zero_lt_wordSize, .none⟩

theorem connectOk_bare : connectOk.Bare := ⟨by decide, by decide, by decide, by decide, by decide⟩

theorem connectRequest_accepted {version : Version} (h : version = .http10 ∨ version = .http11) :
    ∃ v, (connectRequest version).validateReceived = .ok v ∧ v.upgrade = some .tunnel := by
  have haccepted : (connectRequest version).validateReceived.toOption.map ValidatedRequestHead.upgrade =
      some (some .tunnel) := by
    rcases h with rfl | rfl
    · decide +kernel
    · decide +kernel
  cases hv : (connectRequest version).validateReceived with
  | error e =>
    rw [hv] at haccepted
    cases haccepted
  | ok v =>
    rw [hv] at haccepted
    exact ⟨v, rfl, Option.some.inj haccepted⟩

theorem connect_tunnel_iff_http11 : ∃ v, (connectRequest .http11).validateReceived = .ok v ∧
    AnswersWithTunnel reference v connectOk none sampleConfig 16 := by
  obtain ⟨v, hv, htunnel⟩ := connectRequest_accepted (.inr rfl)
  have hopen : (connectRequest .http11).StaysOpen := ⟨⟨false, false, false⟩, rfl, rfl, by decide⟩
  have hencodes : connectOk.Encodes reference .http11 none sampleConfig :=
    ⟨⟨_, rfl⟩, _, rfl, by decide +kernel, by decide +kernel, fun _ _ _ _ => rfl⟩
  exact ⟨v, hv, (connect_tunnel_iff hv htunnel connectOk_bare none sampleConfig 16).1.mpr ⟨hopen, hencodes⟩⟩

/-- An HTTP/1.0 CONNECT is accepted as a tunnel, and the answer that would open it is refused. -/
theorem http10_connect_refused : ∃ v, (connectRequest .http10).validateReceived = .ok v ∧
    v.upgrade = some .tunnel ∧ connectOk.Bare ∧ connectOk.Encodes reference .http10 none sampleConfig ∧
    ¬ AnswersWithTunnel reference v connectOk none sampleConfig 16 := by
  obtain ⟨v, hv, htunnel⟩ := connectRequest_accepted (.inl rfl)
  have hencodes : connectOk.Encodes reference .http10 none sampleConfig :=
    ⟨⟨_, rfl⟩, _, rfl, by decide +kernel, by decide +kernel, fun _ _ _ _ => rfl⟩
  refine ⟨v, hv, htunnel, connectOk_bare, hencodes, fun hanswers => ?_⟩
  obtain ⟨options, hoptions, -, hkeep⟩ := ((answers_iff hv htunnel connectOk_bare none sampleConfig 16).mp hanswers).1
  cases hoptions
  exact absurd (hkeep rfl) (by decide)

end Vakya
