import Vakya.Exchange
import Vakya.HeadRoundTrip

/-!
# The fate of a connection

Client and server each hold a policy for the exchange, built from its own view
of the request. The server records the head it sends (`write_response`), the
client the head it receives; at the end both reach the same outcome.
-/

namespace Vakya

def EncodeError.toError (e : EncodeError) : Error where
  kind := match e with
    | .limit _ | .allocation => .limit
    | .unsupported => .unsupported
    | _ => .localMessage
  context := "outgoing HTTP message cannot be encoded safely"
  detail := match e with
    | .limit which => some (.outgoingLimit which)
    | .allocation => some .allocation
    | _ => none

/-- A response as the service returns it, without its body. -/
structure ServiceResponse where
  status : StatusCode
  version : Version
  headers : Headers
  originalCase : Option HeaderCaseMap
  metadata : BodyMetadata

namespace ServiceResponse

def closeValue : HeaderValue := ⟨ascii "close", by decide⟩

/-- The fields that `write_response` adds; `date` is the cached value when `auto_date` is set. -/
def sentHeaders (r : ServiceResponse) (close : Bool) (date : Option HeaderValue) : Headers :=
  let headers := if close then r.headers.append .connection closeValue else r.headers
  match date with
  | some value => if headers.containsKey .date then headers else headers.insert .date value
  | none => headers

end ServiceResponse

/-- `write_response` up to the head: what goes out, and the policy that recorded it. -/
def prepareFinal (x : Crates) (response : ServiceResponse) (method : Method)
    (requestVersion : Version) (close : Bool) (date : Option HeaderValue) (encoding : EncodeConfig)
    (state : ExchangePolicy) : ExchangePolicy × Except Error (MessagePlan ValidatedResponseHead) :=
  if response.status.isInterim then
    (state, .error (.new .unsupported
      "informational responses and transport handoff require their dedicated APIs"))
  else
    let version := if requestVersion = .http10 then .http10 else response.version
    match prepareResponseHead x response.status version (response.sentHeaders close date)
        response.originalCase response.metadata method encoding with
    | .error e => (state, .error e.toError)
    | .ok plan =>
      if plan.head.upgrade.isSome && close then
        (state, .error (.new .upgrade "closing exchange cannot transfer transport ownership"))
      else
        match state.sentResponse plan.head with
        | (state, .error e) => (state, .error e)
        | (state, .ok ()) => (state, .ok plan)

def finishExchange (requestEnd : ActivityEnd) (state : ExchangePolicy) (close : Bool) :
    Except Error Outcome :=
  let state := if close then state.closeAfterExchange else state
  state.finish requestEnd .complete

theorem modifyHead_nil_append (l : List Bytes) : l.modifyHead ([] ++ ·) = l := by
  cases l <;> rfl

theorem splitOn_append_left {pre : Bytes} (h : pre.all isOws = true) (rest : Bytes) :
    splitOn COMMA (pre ++ rest) = (splitOn COMMA rest).modifyHead (pre ++ ·) := by
  induction pre with
  | nil => rw [modifyHead_nil_append, List.nil_append]
  | cons b pre ih =>
    simp only [List.all_cons, Bool.and_eq_true] at h
    have hb : (b == COMMA) = false := by
      rw [beq_eq_false_iff_ne]
      rintro rfl
      exact absurd h.1 (by decide)
    rw [List.cons_append, splitOn_cons, hb, ih h.2]
    cases splitOn COMMA rest <;> simp

theorem splitOn_append_right {post : Bytes} (h : post.all isOws = true) (member core : Bytes) :
    ((splitOn COMMA (core ++ post)).modifyHead (member ++ ·)).map trimOws =
      ((splitOn COMMA core).modifyHead (member ++ ·)).map trimOws := by
  induction core generalizing member with
  | nil =>
    have hpost := splitOn_append_left h []
    have hnil : splitOn COMMA [] = [[]] := List.splitOn_nil COMMA
    rw [List.append_nil, hnil] at hpost
    rw [List.nil_append, hpost, hnil]
    simp [trimOws_append_right h]
  | cons b core ih =>
    rw [List.cons_append, splitOn_cons, splitOn_cons]
    split_ifs
    · have ih := ih []
      rw [modifyHead_nil_append, modifyHead_nil_append] at ih
      simp [ih]
    · have ih := ih (member ++ [b])
      have hcons (l : List Bytes) : (l.modifyHead (List.cons b)).modifyHead (member ++ ·) =
          l.modifyHead (member ++ [b] ++ ·) := by
        cases l <;> simp
      rw [hcons, hcons]
      exact ih

theorem splitOn_trimOws (value : Bytes) :
    (splitOn COMMA (trimOws value)).map trimOws = (splitOn COMMA value).map trimOws := by
  obtain ⟨pre, post, hpre, hpost, heq⟩ := exists_trimOws value
  have hright := splitOn_append_right hpost [] (trimOws value)
  rw [modifyHead_nil_append, modifyHead_nil_append] at hright
  conv_rhs => rw [heq, splitOn_append_left hpre]
  rw [← hright]
  cases splitOn COMMA (trimOws value ++ post) with
  | nil => rfl
  | cons m ms => simp [trimOws_append_left hpre]

theorem upgradeMembers_trimmed (values : List HeaderValue) :
    upgradeMembers (values.map HeaderValue.trimmed) = upgradeMembers values := by
  simp only [upgradeMembers, List.flatMap_map, HeaderValue.trimmed, splitOn_trimOws]

theorem upgradeProtocolsMatch_trimmed {offered : List HeaderValue} {selected selected' : Headers}
    (h : selected'.getAll .upgrade = (selected.getAll .upgrade).map HeaderValue.trimmed) :
    upgradeProtocolsMatch offered selected' =
      upgradeProtocolsMatch (offered.map HeaderValue.trimmed) selected := by
  simp only [upgradeProtocolsMatch, h, upgradeMembers_trimmed]

theorem close_of_connectionOptions {headers : Headers} {values : List HeaderValue}
    {o : ConnectionOptions}
    (hget : headers.getAll .connection = values ++ [ServiceResponse.closeValue])
    (h : connectionOptions headers = .ok o) : o.close = true := by
  unfold connectionOptions at h
  rw [hget, forEachMember, List.foldlM_append] at h
  obtain ⟨a, -, h⟩ := bind_eq_ok h
  have hlast : forEachListMember .invalidConnection (fun a m => connectionMember a (trimOws m))
      ServiceResponse.closeValue.bytes a = .ok { a with close := true } := by rfl
  rw [List.foldlM_cons, hlast] at h
  cases h
  rfl

variable {x : Crates}

theorem prepareFinal_ok {response : ServiceResponse} {method : Method} {requestVersion : Version}
    {close : Bool} {date : Option HeaderValue} {encoding : EncodeConfig}
    {state state' : ExchangePolicy} {plan : MessagePlan ValidatedResponseHead}
    (h : prepareFinal x response method requestVersion close date encoding state =
      (state', .ok plan)) :
    response.status.isInterim = false ∧
      (∃ version, prepareResponseHead x response.status version (response.sentHeaders close date)
        response.originalCase response.metadata method encoding = .ok plan) ∧
      (plan.head.upgrade.isSome = true → close = false) ∧
      state.sentResponse plan.head = (state', .ok ()) := by
  unfold prepareFinal at h
  by_cases hi : response.status.isInterim = true
  · rw [if_pos hi] at h
    cases h
  rw [if_neg hi] at h
  simp only at h
  split at h
  · cases h
  · next plan' hplan =>
    by_cases hc : (plan'.head.upgrade.isSome && close) = true
    · rw [if_pos hc] at h
      cases h
    rw [if_neg hc] at h
    rcases hs : state.sentResponse plan'.head with ⟨s, e | u⟩
    · rw [hs] at h
      cases h
    · rw [hs] at h
      cases h
      refine ⟨by simpa using hi, ⟨_, hplan⟩, ?_, hs⟩
      intro hsome
      simpa [hsome] using hc

theorem persistence_of_close {response : ServiceResponse} {version : Version} {method : Method}
    {date : Option HeaderValue} {encoding : EncodeConfig} {plan : MessagePlan ValidatedResponseHead}
    (h : prepareResponseHead x response.status version (response.sentHeaders true date)
      response.originalCase response.metadata method encoding = .ok plan) :
    plan.head.persistence = .close := by
  obtain ⟨edited, mode, w, hplan, hval, -, -⟩ := prepareResponseHead_ok h
  obtain ⟨-, connection, upgrade, body, hconn, -, -, heq⟩ := ResponseHead.validate_eq_ok.mp hval
  have hget : edited.getAll .connection =
      response.headers.getAll .connection ++ [ServiceResponse.closeValue] := by
    rw [getAll_planResponseFraming (by decide) (by decide) hplan]
    unfold ServiceResponse.sentHeaders
    cases date with
    | none => simp
    | some value =>
      simp only [if_true]
      split_ifs
      · simp
      · rw [HeaderMap.getAll_insert_ne _ (by decide)]
        simp
  have hclose : connection.close = true := close_of_connectionOptions hget hconn
  rw [← heq]
  simp [persistence, hclose]

/-- Policies that differ only in how the offered protocols are spelled and in what bounds the
interim heads. -/
structure SamePolicy (client server : ExchangePolicy) : Prop where
  phase : client.phase = server.phase
  persistence : client.persistence = server.persistence
  method : client.method = server.method
  upgrade : client.upgrade = server.upgrade
  offered : server.offeredProtocols = client.offeredProtocols.map HeaderValue.trimmed

theorem SamePolicy.receive {client server server' : ExchangePolicy} (hp : SamePolicy client server)
    {sent : ValidatedResponseHead} (hsent : server.sentResponse sent = (server', .ok ()))
    {head : ResponseHead} {v : ValidatedResponseHead} (hval : head.validate client.method = .ok v)
    (hup : v.upgrade = sent.upgrade) (hpersist : v.persistence = sent.persistence)
    (hinterim : v.upgrade = none → head.status.isInformational = false)
    (hheaders : head.headers = sent.head.headers.mapValues HeaderValue.trimmed) :
    ∃ client', client.receiveHead head = (client', .ok (v, match sent.upgrade with
        | some kind => .upgrade kind
        | none => .final)) ∧
      client'.phase = server'.phase ∧ client'.persistence = server'.persistence ∧
      server'.phase = (match sent.upgrade with
        | some kind => .upgrade kind
        | none => .final) ∧
      (sent.upgrade = none → sent.persistence = .close → server'.persistence = .close) := by
  have hvhead : v.head = head := (ResponseHead.validate_ok hval).1
  unfold ExchangePolicy.sentResponse at hsent
  unfold ExchangePolicy.receiveHead
  rw [hval]
  cases hk : sent.upgrade with
  | some kind =>
    rw [hk] at hup
    simp only [hk] at hsent
    by_cases hadmit : server.phase = .awaitingHead ∧
        server.admitsUpgrade kind sent.head.headers = true
    swap
    · rw [if_neg hadmit] at hsent
      cases hsent
    rw [if_pos hadmit] at hsent
    cases hsent
    have hadmit' : client.admitsUpgrade kind v.head.headers = true := by
      have hmatch : upgradeProtocolsMatch client.offeredProtocols v.head.headers =
          upgradeProtocolsMatch server.offeredProtocols sent.head.headers := by
        rw [hp.offered]
        apply upgradeProtocolsMatch_trimmed
        rw [hvhead, hheaders, HeaderMap.getAll_mapValues]
      have hs := hadmit.2
      simp only [ExchangePolicy.admitsUpgrade] at hs ⊢
      rwa [hp.upgrade, hmatch]
    rw [if_neg (by rw [hp.phase]; simpa using hadmit.1)]
    simp only [hup, if_pos hadmit']
    exact ⟨_, rfl, rfl, hp.persistence, trivial, by simp⟩
  | none =>
    rw [hk] at hup
    simp only [hk, ExchangePolicy.sentFinal] at hsent
    by_cases hphase : server.phase ≠ .awaitingHead
    · rw [if_pos hphase] at hsent
      cases hsent
    rw [if_neg hphase] at hsent
    cases hsent
    rw [if_neg (by rw [hp.phase]; exact hphase)]
    simp only [hup, hvhead, hinterim hup, Bool.false_eq_true, if_false]
    refine ⟨_, rfl, rfl, ?_, rfl, fun _ hc => by simp [ExchangePolicy.toFinal, hc]⟩
    simp only [ExchangePolicy.toFinal, hpersist, hp.persistence]

theorem finish_congr {p q : ExchangePolicy} (hphase : p.phase = q.phase)
    (hpersist : p.persistence = q.persistence) (a b : ActivityEnd) : p.finish a b = q.finish a b := by
  simp only [ExchangePolicy.finish, hphase, hpersist]

/-- The server reads the request that the client prepared, and starts from the same policy. -/
theorem samePolicy_of_prepared (hreq : x.RequestHeads) (hm : x.KeepsMethods) (ht : x.TargetsReprint)
    (hn : x.FoldsNames) (hv : x.KeepsValues) {method : Method} {target : x.Uri} {version : Version}
    {headers : Headers} {originalCase : Option HeaderCaseMap} {metadata : BodyMetadata} {config : EncodeConfig}
    {plan : MessagePlan (ValidatedRequestHead x)}
    (hprep : prepareRequestHead x method target version headers originalCase metadata config = .ok plan)
    {limits : HeadLimits} {preserve : Bool} {tail : Bytes}
    (hfit : HeadFits x limits plan.bytes plan.head.head.headers) {p : HeadParser} {n : ℕ}
    {head : RequestHead x} {v : ValidatedRequestHead x}
    (hlen : ((HeadParser.withLimits limits).withPreservedHeaderCase preserve).headLen (plan.bytes ++ tail) =
      (p, .ok (some n)))
    (hparse : (p.parseSharedRequest x ((plan.bytes ++ tail).take n)).2 = .ok head)
    (hval : head.validateReceived = .ok v) (maxClient maxServer interim : ℕ) :
    SamePolicy { ExchangePolicy.new plan.head maxClient with informational := interim }
        (ExchangePolicy.new v maxServer) ∧
      v.head.method = plan.head.head.method := by
  set p₀ := (HeadParser.withLimits limits).withPreservedHeaderCase preserve
  have hfit₀ : HeadFits x p.limits plan.bytes plan.head.head.headers ∧ n = plan.bytes.length := by
    obtain ⟨hscan, -⟩ := prepared_request_reread hreq hm ht hn hv hprep (p := p₀) hfit
    rw [p₀.headLen_head rfl hscan hfit.bytes] at hlen
    cases hlen
    exact ⟨hfit, rfl⟩
  obtain ⟨hfit₀, rfl⟩ := hfit₀
  obtain ⟨-, head₀, hparse₀, hmethod, -, hheaders, -, hfind⟩ :=
    prepared_request_reread hreq hm ht hn hv hprep hfit₀
  rw [List.take_left, hparse₀] at hparse
  obtain rfl : head₀ = head := Except.ok.inj hparse
  have heq := hfind v hval
  simp only [ValidatedRequestHead.finding, RequestHead.Finding.mk.injEq] at heq
  obtain ⟨-, hpersist, -, -, hupgrade⟩ := heq
  obtain ⟨hvm, hvh⟩ : v.head.method = plan.head.head.method ∧
      v.head.headers.getAll .upgrade =
        (plan.head.head.headers.getAll .upgrade).map HeaderValue.trimmed := by
    obtain ⟨form, h, _, _, _, _, -, -, hhost, -, -, -, -, -, heqv⟩ :=
      RequestHead.validateFor_eq_ok.mp hval
    rw [← heqv]
    refine ⟨hmethod, ?_⟩
    rw [RequestHead.getAll_hostHeaders hhost (by decide), hheaders, HeaderMap.getAll_mapValues]
  refine ⟨⟨rfl, hpersist.symm, hvm.symm, hupgrade.symm, ?_⟩, hvm⟩
  simp only [ExchangePolicy.new, hupgrade, hvh]
  split_ifs <;> rfl

variable (x)

/-- A request that the client prepared and the server accepted, and a final or upgrade head that
the server prepared and recorded: the client takes the head as the same kind, and both policies
end in the same outcome. `interim` is the number of interim heads the client saw before. -/
theorem fate_agrees (hreq : x.RequestHeads) (hres : x.ResponseHeads) (hm : x.KeepsMethods)
    (ht : x.TargetsReprint) (hr : x.PlainReasons) (hn : x.FoldsNames) (hv : x.KeepsValues)
    (method : Method) (target : x.Uri) (version : Version) (headers : Headers)
    (originalCase : Option HeaderCaseMap) (metadata : BodyMetadata) (config : EncodeConfig)
    (plan : MessagePlan (ValidatedRequestHead x))
    (hprep : prepareRequestHead x method target version headers originalCase metadata config =
      .ok plan)
    (limits : HeadLimits) (preserve : Bool) (tail : Bytes)
    (hfit : HeadFits x limits plan.bytes plan.head.head.headers) (p : HeadParser) (n : ℕ)
    (head : RequestHead x) (v : ValidatedRequestHead x)
    (hlen : ((HeadParser.withLimits limits).withPreservedHeaderCase preserve).headLen
      (plan.bytes ++ tail) = (p, .ok (some n)))
    (hparse : (p.parseSharedRequest x ((plan.bytes ++ tail).take n)).2 = .ok head)
    (hval : head.validateReceived = .ok v)
    (response : ServiceResponse) (close : Bool) (date : Option HeaderValue)
    (encoding : EncodeConfig) (maxServer : ℕ) (state : ExchangePolicy)
    (sent : MessagePlan ValidatedResponseHead)
    (hsent : prepareFinal x response v.head.method v.head.version close date encoding
      (ExchangePolicy.new v maxServer) = (state, .ok sent))
    (limits' : HeadLimits) (preserve' : Bool) (tail' : Bytes)
    (hfit' : HeadFits x limits' sent.bytes sent.head.head.headers) (maxClient interim : ℕ) :
    ∃ p' n' head' client received outcome,
      ((HeadParser.withLimits limits').withPreservedHeaderCase preserve').headLen
        (sent.bytes ++ tail') = (p', .ok (some n')) ∧
      (p'.parseSharedResponse x ((sent.bytes ++ tail').take n')).2 = .ok head' ∧
      ({ ExchangePolicy.new plan.head maxClient with informational := interim }).receiveHead head' =
        (client, .ok (received, match sent.head.upgrade with
          | some kind => .upgrade kind
          | none => .final)) ∧
      client.finish .complete .complete = .ok outcome ∧
      finishExchange .complete state close = .ok outcome := by
  obtain ⟨hsame, hvm⟩ := samePolicy_of_prepared hreq hm ht hn hv hprep hfit hlen hparse hval maxClient
    maxServer interim
  obtain ⟨hstatus, ⟨version', hprep'⟩, hup, hrec⟩ := prepareFinal_ok hsent
  rw [hvm] at hprep'
  set q₀ := (HeadParser.withLimits limits').withPreservedHeaderCase preserve'
  set q : HeadParser := { q₀ with scan := .complete sent.bytes.length }
  obtain ⟨hscan', head', received, hparse', hheaders', hst, hval', -, hp', hu'⟩ :=
    prepared_response_reread hres hr hn hv hprep' (p := q) hfit'
  have hinterim : received.upgrade = none → head'.status.isInformational = false := by
    intro hnone
    rw [(ResponseHead.validate_ok hval').2 hnone, hst]
    exact hstatus
  obtain ⟨client, hrecv, hphase, hpers, hsphase, hsclose⟩ :=
    hsame.receive hrec hval' hu' hp' hinterim hheaders'
  have hfinish : ∃ outcome, client.finish .complete .complete = .ok outcome := by
    simp only [ExchangePolicy.finish, hphase, hsphase]
    cases sent.head.upgrade with
    | some kind => exact ⟨.handoff kind, rfl⟩
    | none => cases client.persistence <;> exact ⟨_, rfl⟩
  obtain ⟨outcome, hout⟩ := hfinish
  refine ⟨q, sent.bytes.length, head', client, received, outcome,
    q₀.headLen_head rfl hscan' hfit'.bytes, by rw [List.take_left]; exact hparse', hrecv, hout, ?_⟩
  rw [← hout]
  cases close with
  | false => exact finish_congr hphase.symm hpers.symm _ _
  | true =>
    -- An announced close is in the head, so the policy is closed already.
    have hnone : sent.head.upgrade = none := by
      cases hk : sent.head.upgrade with
      | none => rfl
      | some kind => exact absurd (hup (by simp [hk])) (by simp)
    have hclosed := hsclose hnone (persistence_of_close hprep')
    exact finish_congr (p := state.closeAfterExchange) hphase.symm (hclosed.symm.trans hpers.symm) _ _

def sampleOk : ServiceResponse where
  status := .ok
  version := .http11
  headers := .empty
  originalCase := none
  metadata := ⟨.withExact 2 (by decide), .none⟩

/-- A request that is answered with an announced close. -/
theorem fate_agrees_close : ∃ (plan : MessagePlan (ValidatedRequestHead reference))
    (v : ValidatedRequestHead reference) (state : ExchangePolicy)
    (sent : MessagePlan ValidatedResponseHead) (head : ResponseHead) (client : ExchangePolicy)
    (received : ValidatedResponseHead),
    prepareFinal reference sampleOk .get .http11 true none sampleConfig (ExchangePolicy.new v 16) =
      (state, .ok sent) ∧
    (ExchangePolicy.new plan.head 16).receiveHead head = (client, .ok (received, .final)) ∧
    client.finish .complete .complete = .ok .close ∧
    finishExchange .complete state true = .ok .close := by
  obtain ⟨plan, p, n, head, v, hplan, hfit, hlen, hparse, hval, hmethod, hversion⟩ :
      ∃ (plan : MessagePlan (ValidatedRequestHead reference)) (p : HeadParser) (n : ℕ)
        (head : RequestHead reference) (v : ValidatedRequestHead reference),
      prepareRequestHead reference .get ⟨ascii "/", by decide⟩ .http11
        (HeaderMap.empty.append .host ⟨ascii "a", by decide⟩) none
        ⟨.withExact 0 (by decide), .none⟩ sampleConfig = .ok plan ∧
      HeadFits reference sampleLimits plan.bytes plan.head.head.headers ∧
      ((HeadParser.withLimits sampleLimits).withPreservedHeaderCase false).headLen
        (plan.bytes ++ []) = (p, .ok (some n)) ∧
      (p.parseSharedRequest reference ((plan.bytes ++ []).take n)).2 = .ok head ∧
      head.validateReceived = .ok v ∧ v.head.method = .get ∧ v.head.version = .http11 := by
    refine ⟨_, _, _, _, _, rfl, ⟨?_, ?_, ?_⟩, rfl, rfl, rfl, rfl, rfl⟩ <;> decide
  obtain ⟨state, sent, hsent, hfit', hup, hout⟩ : ∃ state sent,
      prepareFinal reference sampleOk .get .http11 true none sampleConfig
        (ExchangePolicy.new v 16) = (state, .ok sent) ∧
      HeadFits reference sampleLimits sent.bytes sent.head.head.headers ∧
      sent.head.upgrade = none ∧ finishExchange .complete state true = .ok .close := by
    refine ⟨_, _, rfl, ⟨?_, ?_, ?_⟩, rfl, rfl⟩ <;> decide
  rw [← hmethod, ← hversion] at hsent
  obtain ⟨-, -, head', client, received, outcome, -, -, hrecv, hc, hs⟩ := fate_agrees reference
    Reference.requestHeads Reference.responseHeads Reference.keepsMethods Reference.targetsReprint
    Reference.plainReasons Reference.foldsNames Reference.keepsValues _ _ _ _ _ _ _ plan hplan
    sampleLimits false [] hfit p n head v hlen hparse hval sampleOk true none sampleConfig 16 state
    sent hsent sampleLimits false [] hfit' 16 0
  obtain rfl : outcome = .close := Except.ok.inj (hs.symm.trans hout)
  rw [hup] at hrecv
  exact ⟨plan, v, state, sent, head', client, received, by rwa [hmethod, hversion] at hsent, hrecv,
    hc, hs⟩

end Vakya
