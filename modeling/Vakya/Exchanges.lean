import Vakya.ResponseTransfer
import Vakya.Settlement

/-!
# What an exchange guarantees

The results of the two halves and of what couples them, for a whole exchange: when it settles and how,
what the application is told, when the body of the request may be asked for, and what it means that
the connection may carry another exchange.
-/

namespace Vakya

open Library

namespace ClientExchange

open ClientReceive (wireBytes observations bodyCalls sampleClient sampleBuffer sampleBuffer_sound sampleFinal samplePoll
  sampleRead sampleObserve sample_response sample_encoder)
open Upload (sampleUpload sampleUploadHead sampleUpload_eq)

variable {x : Crates} {D V W E U : Type} {cfg : ExchangeConfig D V W} {s : ClientExchange D V W E U}
  {tr : List (ClientExchangeCall D E U × ClientExchangeOutput D E U)} {request : RequestUpload x} {b : RecvBuffer}

def sampleExchange : ExchangeConfig Bytes ((Bytes × Bytes × Bytes) × ℕ) (Bytes × ℕ) :=
  ⟨sampleClient, plainBuffers, fun _ => .other⟩

def samplePolicy : ExchangePolicy := ⟨.awaitingHead, .reusable, .post, none, [], 0, 4⟩

def sampleStart : ClientExchange Bytes ((Bytes × Bytes × Bytes) × ℕ) (Bytes × ℕ) Unit Unit :=
  ⟨.start sampleClient samplePolicy sampleBuffer,
    ⟨.fixed 2, .continue, ⟨.fixed, 1024, true, 2, some 2, .none⟩, false,
      .head (.start plainBuffers.single .scalar sampleUploadHead (some false))⟩, none, false⟩

theorem sample_runs (calls : List (ClientExchangeCall Bytes Unit Unit))
    (test : List (ClientExchangeCall Bytes Unit Unit × ClientExchangeOutput Bytes Unit Unit) →
      ClientExchange Bytes ((Bytes × Bytes × Bytes) × ℕ) (Bytes × ℕ) Unit Unit → Bool)
    (h : ((clientExchange Unit Unit reference sampleExchange).run sampleStart calls).any (fun r => test r.1 r.2) = true) :
    ∃ request tr s, sampleUpload = .ok request ∧ request.plan.bytes = sampleUploadHead ∧
      request.plan.head.body = .fixed 2 ∧ request.plan.head.expectation = .continue ∧ request.policy = samplePolicy ∧
      (clientExchange Unit Unit reference sampleExchange).Reaches (start sampleExchange request sampleBuffer) tr s ∧
      test tr s = true := by
  obtain ⟨request, hrequest, hbytes, hmode, hexpect, hencoder, hpolicy⟩ := sampleUpload_eq
  have hstart : start sampleExchange request sampleBuffer = sampleStart := by
    simp [start, sampleStart, Upload.start, hbytes, hmode, hexpect, hencoder, hpolicy, sampleExchange,
      ExchangeConfig.upload, samplePolicy]
  obtain ⟨⟨tr, s⟩, hrun, htest⟩ := Option.any_eq_true _ _ |>.mp h
  rw [← hstart] at hrun
  exact ⟨request, tr, s, hrequest, hbytes, hmode, hexpect, hpolicy, Machine.reaches_of_run hrun, htest⟩

def samplePermission : Bytes := ascii "HTTP/1.1 100 \r\n\r\n"

def sampleReply : Bytes := samplePermission ++ sampleFinal ++ (ascii "hi" ++ ascii "HT")

def sampleHeadSent : List (ClientExchangeCall Bytes Unit Unit) :=
  [.send .resume, .send (.completed (.ok 30)), .send .resume, .send (.completed (.ok 40)), .send .resume,
    .send (.flushed (.ok ())), .wait () false false]

def samplePermitted : List (ClientExchangeCall Bytes Unit Unit) :=
  ([samplePoll none, samplePoll none, sampleRead (sampleReply.take 30), samplePoll none, samplePoll none] ++
    sampleObserve).map .receive

def sampleBodySent : List (ClientExchangeCall Bytes Unit Unit) :=
  [.wait () false false, .send (.poll (some (.frame (.data (ascii "hi"))))), .send .resume,
    .send (.completed (.ok 2)), .send .resume, .send (.poll (some .finished)), .send .resume, .send (.flushed (.ok ()))]

def sampleReplied : List (ClientExchangeCall Bytes Unit Unit) :=
  ([samplePoll none, samplePoll none, sampleRead (sampleReply.drop 30), samplePoll none, samplePoll none] ++
    sampleObserve ++
    [samplePoll none, samplePoll none, .body .nextFrame, .body (.pollNext ()), samplePoll none, samplePoll none,
      .body (.pollNext ()), .body .dropNext, samplePoll none, samplePoll none]).map .receive

/-- **Both halves settle before an exchange returns.** In every run: an exchange that has returned has
both halves returned, and its result is the composition of theirs, with an abort of the upload that was
asked for before the step in which it returned; it returns as soon as they have. A half that fails
while the other one runs has canceled it, an explicit abort of the upload apart; and without a failed
half only a shutdown, or an application that gave up on a response that was not delivered, cancels the
exchange. -/
theorem exchange_settles (hx : x.HeadersWithin) (hb : b.Sound) (hmax : b.maxRetained = cfg.client.settings.maxRetained)
    (hphase : request.policy.phase = .awaitingHead)
    (hrun : (clientExchange E U x cfg).Reaches (start cfg request b) tr s) :
    (∀ r, s.settled = some r → ∃ sent received aborted, s.upload.phase = .returned sent ∧
      s.receive.point = .returned received ∧ r = ClientDriver.finishExchange sent received aborted ∧
      (sent = .ok () → aborted = s.receive.control.aborted) ∧
      ∃ before y after u, tr = before ++ y :: after ∧
        (clientExchange E U x cfg).Reaches (start cfg request b) (before ++ [y]) u ∧ y.2.settled = some r ∧
        aborted = u.receive.control.aborted) ∧
    (∀ sent received, s.upload.phase = .returned sent → s.receive.point = .returned received →
      s.settled.isSome = true) ∧
    (∀ e, s.upload.phase = .returned (.error e) → (∀ received, s.receive.point ≠ .returned received) →
      e.isCanceled = false ∨ s.receive.control.aborted = false → s.receive.control.exchange = true) ∧
    (∀ received, s.receive.point = .returned received → receivedCancels received = true →
      (∀ sent, s.upload.phase ≠ .returned sent) → s.receive.control.exchange = true) ∧
    (s.receive.control.exchange = true → s.dropped = false → (∃ z ∈ tr, z.1 = .receive .cancel) ∨
      ((∃ z ∈ tr, z.1 = .receive (.pending .drop)) ∧
        ∀ event ∈ observedEvents (observations (receiveTrace tr)), event.isFinal = false) ∨
      (∃ received, s.receive.point = .returned received ∧ receivedCancels received = true) ∨
      ∃ e, s.upload.phase = .returned (.error e)) := by
  have hreasons := reasons_of_reaches hrun
  have hcoupled := hreasons.coupled
  have hnotReceived (h : ∀ received, s.receive.point ≠ .returned received) : s.received = none := by
    cases hr : s.received with
    | none => rfl
    | some r => exact absurd (received_eq.mp hr) (h r)
  have hnotSent (h : ∀ sent, s.upload.phase ≠ .returned sent) : s.sent = none := by
    cases hr : s.sent with
    | none => rfl
    | some r => exact absurd (sent_eq.mp hr) (h r)
  refine ⟨fun r hr => ?_, fun sent received hsent hreceived => ?_, fun e he hopen hcause => ?_,
    fun received hreceived hcancels hopen => ?_, fun hexchange hdropped => ?_⟩
  · obtain ⟨sent, received, before, y, after, u, htrace, hu, hout, hsent, hreceived, hresult, hsame⟩ :=
      settled_at hrun hr
    exact ⟨sent, received, _, sent_eq.mp hsent, received_eq.mp hreceived, hresult, hsame, before, y, after, u, htrace,
      hu, hout, rfl⟩
  · apply hcoupled.both
    · rw [sent_eq.mpr hsent]
      rfl
    · rw [received_eq.mpr hreceived]
      rfl
  · exact hcoupled.sentFailed (hnotReceived hopen) e (sent_eq.mpr he) hcause
  · exact hcoupled.receivedFailed (hnotSent hopen) received (received_eq.mpr hreceived) hcancels
  · have hcontrolled := ClientReceive.controlled_of_reaches hx hb hmax hphase (receive_reaches hrun)
    rcases hcontrolled.exchange.mp hexchange with ⟨y, hy, hcancel⟩ | ⟨hheld, hdelivered⟩
    · rcases hreasons.canceled y hy hcancel with hshutdown | (⟨r, hr, hcancels⟩ | ⟨e, he⟩) | hgone
      · exact .inl hshutdown
      · exact .inr (.inr (.inl ⟨r, received_eq.mp hr, hcancels⟩))
      · exact .inr (.inr (.inr ⟨e, sent_eq.mp he⟩))
      · rw [hgone] at hdropped
        cases hdropped
    · obtain ⟨y, hy, hdrop⟩ := hcontrolled.held.mp hheld
      refine .inr (.inl ⟨hreasons.gaveUp y hy hdrop, ?_⟩)
      obtain ⟨consumed, heads, rest, hhear, -⟩ :=
        ClientReceive.inv_of_reaches hx hb hmax hphase (receive_reaches hrun)
      have hopen := hhear.pending.observed.delivered_iff
      rw [← hhear.pending.observed.events_eq] at hopen
      intro event hmem
      cases hfinal : event.isFinal with
      | false => rfl
      | true =>
        rw [List.any_eq_true.mpr ⟨event, hmem, hfinal⟩, hdelivered] at hopen
        cases hopen

/-- The writer fails behind a part of the head, while the application waits for the response. -/
def sampleFailed : List (ClientExchangeCall Bytes Unit Unit) :=
  [.receive (samplePoll none), .receive (.pending .nextEvent), .receive (.pending (.pollEvent ())), .send .resume,
    .send (.completed (.ok 30)), .send .resume, .send (.completed (.error (.other 5))),
    .receive (samplePoll none), .receive (samplePoll none), .receive (.pending (.pollEvent ()))]

/-- The upload has failed, so the response was canceled; the result tells why. -/
theorem exchange_settles_failed :
    ∃ request tr s e received aborted, sampleUpload = .ok request ∧
      (clientExchange Unit Unit reference sampleExchange).Reaches (start sampleExchange request sampleBuffer) tr s ∧
      s.upload.phase = .returned (.error e) ∧ s.receive.point = .returned received ∧
      s.settled = some (ClientDriver.finishExchange (.error e) received aborted) := by
  obtain ⟨request, tr, s, hrequest, -, -, -, hpolicy, hrun, htest⟩ := sample_runs sampleFailed
    (fun _ s => s.settled.isSome && s.sent.any (fun sent => !sent.isOk)) (by decide +kernel)
  simp only [Bool.and_eq_true] at htest
  obtain ⟨r, hr⟩ := Option.isSome_iff_exists.mp htest.1
  obtain ⟨sent, received, aborted, hsent, hreceived, hresult, -⟩ :=
    (exchange_settles Reference.headersWithin sampleBuffer_sound rfl (by rw [hpolicy]; rfl) hrun).1 r hr
  cases sent with
  | ok u => simp [sent_eq.mpr hsent, Except.isOk, Except.toBool] at htest
  | error e => exact ⟨request, tr, s, e, received, aborted, hrequest, hrun, hsent, hreceived, by rw [hr, hresult]⟩

/-- The one error that `next_event` may return is the one that the exchange returned to its driver, or
the driver was lost with the exchange. -/
theorem exchange_error_observed (hx : x.HeadersWithin) (hb : b.Sound)
    (hmax : b.maxRetained = cfg.client.settings.maxRetained) (hphase : request.policy.phase = .awaitingHead)
    (hrun : (clientExchange E U x cfg).Reaches (start cfg request b) tr s) {e : Error}
    (he : .error e ∈ observations (receiveTrace tr)) :
    s.settled = some (.error e) ∨ e = driverClosed ∧ s.dropped = true := by
  have hreasons := reasons_of_reaches hrun
  rcases ClientReceive.error_cause hx hb hmax hphase (receive_reaches hrun) he with
    ⟨y, hy, hfail⟩ | ⟨hlost, y, hy, hdrop⟩
  · exact .inl (hreasons.failed y hy e hfail)
  · exact .inr ⟨hlost, hreasons.gone y hy hdrop⟩

/-- The application waits for the response and is told why the writer failed. -/
theorem exchange_error_observed_failed :
    ∃ request tr s e, sampleUpload = .ok request ∧
      (clientExchange Unit Unit reference sampleExchange).Reaches (start sampleExchange request sampleBuffer) tr s ∧
      .error e ∈ observations (receiveTrace tr) ∧ s.settled = some (.error e) := by
  obtain ⟨request, tr, s, hrequest, -, -, -, hpolicy, hrun, htest⟩ := sample_runs sampleFailed
    (fun tr s => (observations (receiveTrace tr)).any (fun r => !r.isOk) && !s.dropped) (by decide +kernel)
  simp only [Bool.and_eq_true, List.any_eq_true, Bool.not_eq_true'] at htest
  obtain ⟨⟨r, hmem, hr⟩, hdropped⟩ := htest
  cases r with
  | ok event => cases hr
  | error e =>
    rcases exchange_error_observed Reference.headersWithin sampleBuffer_sound rfl (by rw [hpolicy]; rfl) hrun hmem with
      hsettled | ⟨-, hgone⟩
    · exact ⟨request, tr, s, e, hrequest, hrun, hmem, hsettled⟩
    · rw [hdropped] at hgone
      cases hgone

/-- Where a request expects `100-continue` and the client waits for it, the body is asked for its first
frame only after the whole head was written, and after a head that permits the upload was received or
the wait was polled past its deadline. -/
theorem body_waits_for_permission (hx : x.HeadersWithin) (hk : cfg.buffers.Lawful) (hb : b.Sound)
    (hmax : b.maxRetained = cfg.client.settings.maxRetained) (hphase : request.policy.phase = .awaitingHead)
    (hexpect : request.plan.head.expectation = .continue) (hwait : cfg.client.continueWait = true)
    (hbody : request.plan.head.body ≠ .fixed 0)
    (hrun : (clientExchange E U x cfg).Reaches (start cfg request b) tr s)
    (hasked : (uploadHistory (uploadTrace tr)).obtained ≠ []) :
    request.plan.bytes <+: (uploadHistory (uploadTrace tr)).written ∧
    ((∃ consumed heads rest, b.bytes ++ wireBytes (receiveTrace tr) = consumed ++ rest ∧
      Heard x cfg.client request.policy consumed heads s.receive.policy ∧ heads.any (·.permits) = true) ∨
      ∃ z ∈ tr, ∃ waker overflow, z.1 = .wait waker overflow true) := by
  have hinv := Upload.inv_of_reaches hk (upload_reaches hrun)
  obtain ⟨hhead, hopen⟩ := (hinv.stage.part hk).body hasked
  refine ⟨hhead, ?_⟩
  have hmode := hopen.mode
  rw [hinv.mode] at hmode
  have hawaits : s.upload.awaits cfg.upload = true := by
    simp [Upload.awaits, hinv.mode, hinv.expectation, hexpect, hmode, hbody, ExchangeConfig.upload, hwait]
  obtain ⟨y, hy, q, hq, hgranted | hexpired⟩ := hopen.permitted hawaits
  · have hallowed := ((reasons_of_reaches hrun).waited y hy q hq).1 hgranted
    obtain ⟨consumed, heads, rest, hhear, -⟩ :=
      ClientReceive.inv_of_reaches hx hb hmax hphase (receive_reaches hrun)
    rw [hhear.gate] at hallowed
    exact .inl ⟨consumed, heads, rest, hhear.wire_eq, hhear.heard, hallowed⟩
  · exact .inr (((reasons_of_reaches hrun).waited y hy q hq).2 hexpired)

/-- The permission arrives in the first read; the deadline does not pass. -/
theorem body_waits_for_permission_continued :
    ∃ request tr s, sampleUpload = .ok request ∧
      (clientExchange Unit Unit reference sampleExchange).Reaches (start sampleExchange request sampleBuffer) tr s ∧
      sampleUploadHead <+: (uploadHistory (uploadTrace tr)).written ∧
      ((∃ consumed heads rest, sampleBuffer.bytes ++ wireBytes (receiveTrace tr) = consumed ++ rest ∧
        Heard reference sampleClient samplePolicy consumed heads s.receive.policy ∧ heads.any (·.permits) = true) ∨
        ∃ z ∈ tr, ∃ waker overflow, z.1 = .wait waker overflow true) := by
  obtain ⟨request, tr, s, hrequest, hbytes, hmode, hexpect, hpolicy, hrun, htest⟩ := sample_runs
    (sampleHeadSent ++ samplePermitted ++ sampleBodySent.take 3)
    (fun tr _ => !(uploadHistory (uploadTrace tr)).obtained.isEmpty) (by decide +kernel)
  simp only [Bool.not_eq_true', List.isEmpty_eq_false_iff] at htest
  have hwaits := body_waits_for_permission Reference.headersWithin plainBuffers_lawful sampleBuffer_sound rfl
    (by rw [hpolicy]; rfl) hexpect rfl (by simp [hmode]) hrun htest
  rw [hbytes, hpolicy] at hwaits
  exact ⟨request, tr, s, hrequest, hrun, hwaits⟩

/-- **A connection is used again only between two messages.** In every run whose result keeps the
connection, whatever the peer sends: the request was written to its end, head and encoded body, and
nothing behind it. The input is the heads of the response, the last of them final, with a body behind
them that does not end with the connection; the application was given every head; the body took the
whole payload with its trailers; and what is left is exactly what follows the response. -/
theorem reusable_exchange {buffer : Bytes} {reason : CloseReason} (hx : x.HeadersWithin) (hk : cfg.buffers.Lawful)
    (hb : b.Sound) (hmax : b.maxRetained = cfg.client.settings.maxRetained)
    (hphase : request.policy.phase = .awaitingHead)
    (hrun : (clientExchange E U x cfg).Reaches (start cfg request b) tr s)
    (hsettled : s.settled = some (.ok ⟨buffer, .reusable, reason⟩)) :
    (uploadHistory (uploadTrace tr)).written = request.plan.bytes ++
      bodyWire x cfg.buffers.asInit request.encoder (uploadHistory (uploadTrace tr)).obtained ∧
    (request.plan.head.body ≠ .none →
      ∃ fs : List (Frame D), (uploadHistory (uploadTrace tr)).obtained = fs.map .frame ++ [.finished]) ∧
    ∃ consumed before final rest ds fields charged, b.bytes ++ wireBytes (receiveTrace tr) = consumed ++ rest ∧
      Heard x cfg.client request.policy consumed (before ++ [final]) s.receive.policy ∧ final.isFinal = true ∧
      final.body ≠ .untilEof ∧
      observedEvents (observations (receiveTrace tr)) = (before ++ [final]).map (·.event) ∧
      takenBy (BodyPipe.pipeTrace (bodyCalls (receiveTrace tr))) =
        ds.map .data ++ (fields : Option Headers).toList.map .trailers ∧
      (framing x cfg.client.settings.decode).run final.body.start rest =
        ⟨payloadOf ds, .done (fields, charged) buffer⟩ := by
  obtain ⟨-, sent, received, aborted, hsent, hreceived, hresult, -⟩ := (coupled_of_reaches hrun).settled _ hsettled
  obtain ⟨rfl, -, -, policy, rfl, hfinish⟩ := finishExchange_reusable hresult.symm
  obtain ⟨-, -, hdone, hreusable⟩ := ExchangePolicy.finish_reusable hfinish
  have hupload := Upload.inv_of_reaches hk (upload_reaches hrun)
  have hwhole := hupload.whole (sent_eq.mp hsent)
  have hinv := ClientReceive.inv_of_reaches hx hb hmax hphase (receive_reaches hrun)
  obtain ⟨consumed, before, final, rest, hwire, hheard, hfinal, hpolicy, hevents, hbody⟩ :=
    hinv.received (received_eq.mp hreceived)
  have heof : final.body ≠ .untilEof := hheard.reusable (hpolicy ▸ hdone) (hpolicy ▸ hreusable) rfl hfinal
  obtain ⟨ds, fields, charged, htaken, hdecoded⟩ := hbody rfl heof
  refine ⟨hwhole.written_eq, fun hmode => ?_, consumed, before, final, rest, ds, fields, charged, hwire, hheard, hfinal,
    heof, hevents, htaken, hdecoded⟩
  apply hwhole.ended
  rw [hupload.mode]
  exact hmode

/-- The exchange has returned and keeps the connection, with these bytes. -/
def keeps (s : ClientExchange D V W E U) (buffer : Bytes) : Bool :=
  match s.settled with
  | some (.ok ⟨kept, .reusable, _⟩) => decide (kept = buffer)
  | _ => false

/-- Permission in the first read, the body behind it, and two bytes of what follows the response. -/
theorem reusable_exchange_continued :
    ∃ (request : RequestUpload reference) (reason : CloseReason)
      (tr : List (ClientExchangeCall Bytes Unit Unit × ClientExchangeOutput Bytes Unit Unit))
      (s : ClientExchange Bytes ((Bytes × Bytes × Bytes) × ℕ) (Bytes × ℕ) Unit Unit),
      sampleUpload = .ok request ∧
      (clientExchange Unit Unit reference sampleExchange).Reaches (start sampleExchange request sampleBuffer) tr s ∧
      s.settled = some (.ok ⟨ascii "HT", .reusable, reason⟩) ∧
      (uploadHistory (uploadTrace tr)).written = sampleUploadHead ++ ascii "hi" ∧
      ∃ consumed before final rest ds fields charged, sampleReply = consumed ++ rest ∧
        Heard reference sampleClient samplePolicy consumed (before ++ [final]) s.receive.policy ∧
        observedEvents (observations (receiveTrace tr)) = (before ++ [final]).map (·.event) ∧
        takenBy (BodyPipe.pipeTrace (bodyCalls (receiveTrace tr))) =
          ds.map .data ++ (fields : Option Headers).toList.map .trailers ∧
        (framing reference sampleClient.settings.decode).run final.body.start rest =
          ⟨payloadOf ds, .done (fields, charged) (ascii "HT")⟩ := by
  obtain ⟨request, tr, s, hrequest, -, -, -, hpolicy, hrun, htest⟩ := sample_runs
    (sampleHeadSent ++ samplePermitted ++ sampleBodySent ++ sampleReplied)
    (fun tr s => decide (wireBytes (receiveTrace tr) = sampleReply) &&
      decide ((uploadHistory (uploadTrace tr)).written = sampleUploadHead ++ ascii "hi") && s.keeps (ascii "HT"))
    (by decide +kernel)
  simp only [Bool.and_eq_true, decide_eq_true_eq] at htest
  obtain ⟨⟨hwire, hwritten⟩, hkeeps⟩ := htest
  obtain ⟨reason, hsettled⟩ : ∃ reason, s.settled = some (.ok ⟨ascii "HT", .reusable, reason⟩) := by
    unfold keeps at hkeeps
    split at hkeeps
    · rename_i buffer reason hsettled
      rw [decide_eq_true_eq] at hkeeps
      subst hkeeps
      exact ⟨reason, hsettled⟩
    · cases hkeeps
  obtain ⟨-, -, consumed, before, final, rest, ds, fields, charged, hparts, hheard, -, -, hevents, htaken, hdecoded⟩ :=
    reusable_exchange Reference.headersWithin plainBuffers_lawful sampleBuffer_sound rfl (by rw [hpolicy]; rfl) hrun
      hsettled
  rw [hwire] at hparts
  rw [hpolicy] at hheard
  exact ⟨request, reason, tr, s, hrequest, hrun, hsettled, hwritten, consumed, before, final, rest, ds, fields, charged,
    hparts, hheard, hevents, htaken, hdecoded⟩

end ClientExchange

end Vakya
