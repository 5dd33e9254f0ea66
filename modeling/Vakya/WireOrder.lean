import Vakya.Observation
import Vakya.Reference

/-!
# One response, however it is read

What `next_event` returns is decided by the bytes of the response and by what the application and
the exchange do, never by how the bytes were cut into reads or by who was polled when.
-/

namespace Vakya

open Library

variable {x : Crates} {W : Type} {cfg : ClientConfig} {p₀ : ExchangePolicy}

def observedEvents (rs : List EventResult) : List ResponseEvent :=
  rs.flatMap fun r => match r with
    | .ok (some event) => [event]
    | _ => []

theorem observedEvents_ok (events : List ResponseEvent) :
    observedEvents (events.map fun e => .ok (some e)) = events := by
  induction events with
  | nil => rfl
  | cons event events ih => simpa [observedEvents] using ih

theorem observedEvents_none (k : ℕ) : observedEvents (List.replicate k (.ok none)) = [] := by
  simp [observedEvents]

theorem PendingResponse.Observed.events_eq {ended : List (PipeState ResponseEvent Error)}
    {events : List ResponseEvent} {rs : List EventResult} {delivered finished : Bool}
    (h : Observed ended events rs delivered finished) : observedEvents rs = events := by
  have happ (rs rs' : List EventResult) : observedEvents (rs ++ rs') = observedEvents rs ++ observedEvents rs' :=
    List.flatMap_append ..
  cases h with
  | waiting => exact observedEvents_ok events
  | delivered k => rw [happ, observedEvents_ok, observedEvents_none, List.append_nil]
  | @failed events e k =>
    have hlast : observedEvents (.error e :: List.replicate k (.ok none)) = [] := observedEvents_none k
    rw [happ, observedEvents_ok, hlast, List.append_nil]

theorem PendingResponse.Observed.delivered_iff {ended : List (PipeState ResponseEvent Error)}
    {events : List ResponseEvent} {rs : List EventResult} {delivered finished : Bool}
    (h : Observed ended events rs delivered finished) : delivered = events.any (·.isFinal) := by
  cases h with
  | waiting hinf => simpa using hinf
  | delivered k hinf hlast => simp [hlast]
  | failed k hinf => simpa using hinf

namespace ClientReceive

variable {wire : Bytes} {calls : List (EventCall W × EventCallOutput W)} {rs : List EventResult}
  {btr : List (BodyCall W × BodyOutput W)} {b : RecvBuffer} {s : ClientReceive W}
  {tr : List (ClientCall W × ClientOutput W)}

theorem Hearing.observed {consumed rest : Bytes} {heads : List ValidatedResponseHead}
    (h : Hearing x cfg p₀ wire calls rs s consumed heads rest) (hstage : Stage x cfg heads rest calls btr s) :
    ∃ last, heads.map (·.event) = observedEvents rs ++ last ∧ last.length ≤ 1 := by
  obtain ⟨⟨last, hlast, hone⟩, -⟩ := hstage.parts h.pending
  exact ⟨last, by rw [← h.passed, hlast, h.pending.observed.events_eq], hone⟩

theorem Inv.observed (h : Inv x cfg p₀ wire calls rs btr s) :
    ∃ consumed heads rest last, wire = consumed ++ rest ∧ Heard x cfg p₀ consumed heads s.policy ∧
      heads.map (·.event) = observedEvents rs ++ last ∧ last.length ≤ 1 := by
  obtain ⟨consumed, heads, rest, hhear, hstage⟩ := h
  obtain ⟨last, hevents, hone⟩ := hhear.observed hstage
  exact ⟨consumed, heads, rest, last, hhear.wire_eq, hhear.heard, hevents, hone⟩

/-- Where the bytes behind the heads are: in the buffer of `receive`, or they are the input of the driver
of the body. Only a `receive` that failed or was dropped before its final head was delivered has lost
them. -/
def Holds (x : Crates) (cfg : ClientConfig) (heads : List ValidatedResponseHead) (rest : Bytes)
    (btr : List (BodyCall W × BodyOutput W)) (s : ClientReceive W) : Prop :=
  match s.body with
  | none => s.owner.bytes = some rest ∨ s.point = .dropped ∨ ∃ e, s.point = .returned (.error e)
  | some driver => ∃ before final size trailers, heads = before ++ [final] ∧ final.isFinal = true ∧
      promise final.body = some (size, trailers) ∧
      Receiver.Inv (cfg.reception x final size trailers) rest btr driver

theorem Begun.holds {heads before : List ValidatedResponseHead} {final : ValidatedResponseHead} {rest : Bytes}
    (h : Begun x cfg final rest btr s) (hheads : heads = before ++ [final]) (hfinal : final.isFinal = true) :
    s.Holds x cfg heads rest btr := by
  rcases h with ⟨hnone, -, -, -, b, howner, hbytes⟩ | ⟨driver, size, trailers, hsome, hpromise, hinv⟩
  · rw [Holds, hnone]
    left
    rw [howner, ← hbytes]
    rfl
  · rw [Holds, hsome]
    exact ⟨before, final, size, trailers, hheads, hfinal, hpromise, hinv⟩

theorem Left.holds {heads : List ValidatedResponseHead} {rest : Bytes} (h : Left x cfg heads rest btr s)
    (hended : s.point = .dropped ∨ ∃ e, s.point = .returned (.error e)) : s.Holds x cfg heads rest btr := by
  rcases h with hnone | ⟨before, final, driver, size, trailers, hheads, hfinal, hsome, hpromise, hinv⟩
  · rw [Holds, hnone]
    exact .inr hended
  · rw [Holds, hsome]
    exact ⟨before, final, size, trailers, hheads, hfinal, hpromise, hinv⟩

theorem Listening.holds {heads : List ValidatedResponseHead} {rest : Bytes} (h : Listening cfg rest calls btr s) :
    s.Holds x cfg heads rest btr := by
  rw [Holds, h.no_body.1]
  exact .inl h.retains

/-- No byte behind the heads is lost while `receive` goes on, and none once it has returned. -/
theorem Stage.holds {heads : List ValidatedResponseHead} {rest : Bytes} (h : Stage x cfg heads rest calls btr s) :
    s.Holds x cfg heads rest btr := by
  have hfinalized (h : Finalized x cfg heads rest btr s) : s.Holds x cfg heads rest btr := by
    obtain ⟨before, final, hheads, hfinal, hbegun⟩ := h
    exact hbegun.holds hheads hfinal
  unfold Stage at h
  cases hpoint : s.point with
  | start | top | reading | informing =>
    simp only [hpoint] at h
    exact h.1.holds
  | finalizing =>
    simp only [hpoint] at h
    exact hfinalized h.2.2
  | receiving =>
    simp only [hpoint] at h
    exact hfinalized h.2
  | returned result =>
    cases result with
    | ok r =>
      simp only [hpoint] at h
      exact hfinalized h.2.1
    | error e =>
      simp only [hpoint] at h
      exact h.2.holds (.inr ⟨e, hpoint⟩)
  | dropped =>
    simp only [hpoint] at h
    exact h.2.holds (.inl hpoint)

/-- `next_event` returns the heads of the response in the order of the wire, and `receive` accepts
one head at most before the last one was taken. What was read and is not a head waits in the buffer, or
it is the body's. -/
theorem observed_in_wire_order (hx : x.HeadersWithin) (hb : b.Sound) (hmax : b.maxRetained = cfg.settings.maxRetained)
    (hphase : p₀.phase = .awaitingHead) (hrun : (clientReceive W x cfg).Reaches (start cfg p₀ b) tr s) :
    ∃ consumed heads rest last, b.bytes ++ wireBytes tr = consumed ++ rest ∧
      Heard x cfg p₀ consumed heads s.policy ∧ (∀ head ∈ heads.dropLast, head.isFinal = false) ∧
      heads.map (·.event) = observedEvents (observations tr) ++ last ∧ last.length ≤ 1 ∧
      s.Holds x cfg heads rest (bodyCalls tr) := by
  obtain ⟨consumed, heads, rest, hhear, hstage⟩ := inv_of_reaches hx hb hmax hphase hrun
  obtain ⟨last, hevents, hone⟩ := hhear.observed hstage
  refine ⟨consumed, heads, rest, last, hhear.wire_eq, hhear.heard, ?_, hevents, hone, hstage.holds⟩
  rcases hhear.heard.finals hphase with ⟨-, hall⟩ | ⟨-, before, final, rfl, -, hbefore⟩
  · exact fun head hmem => hall head (List.dropLast_subset heads hmem)
  · rw [List.dropLast_concat]
    exact hbefore

/-- Heads of up to 64 bytes with four fields, read in portable buffers of 48 bytes. -/
def sampleClient : ClientConfig := ⟨sampleServer, true⟩

/-- A `GET` that permits four informational heads. -/
def sampleGetPolicy : ExchangePolicy := ⟨.awaitingHead, .reusable, .get, none, [], 0, 4⟩

def sampleBuffer : RecvBuffer := ⟨.portable (.withCapacity 48), none, 48, 64⟩

theorem sampleBuffer_sound : sampleBuffer.Sound := by
  have hb : sampleBuffer.Reachable := ⟨48, 64, sampleBuffer, [], [], rfl, .start⟩
  exact hb.sound

def sampleContinue : Bytes :=
  ascii "HTTP/1.1 100 Continue\r\n\r\nHTTP/1.1 200 OK\r\ncontent-length:2\r\n\r\nhi"

def samplePoll (completion : Option (Completion × Bool)) : ClientCall Unit := .poll ⟨(), false, false, completion⟩

def sampleRead (piece : Bytes) : ClientCall Unit := samplePoll (some (.portable piece (.ok piece.length), false))

def sampleObserve : List (ClientCall Unit) := [.pending .nextEvent, .pending (.pollEvent ()), .pending .dropEvent]

def sampleReads (first second : Bytes) : List (ClientCall Unit) :=
  [samplePoll none, samplePoll none, sampleRead first, samplePoll none, samplePoll none] ++ sampleObserve ++
    [samplePoll none, samplePoll none, sampleRead second, samplePoll none, samplePoll none] ++ sampleObserve ++
    [samplePoll none]

theorem sample_reaches (calls : List (ClientCall Unit))
    (test : List (ClientCall Unit × ClientOutput Unit) → ClientReceive Unit → Bool)
    (h : ((clientReceive Unit reference sampleClient).run (start sampleClient sampleGetPolicy sampleBuffer) calls).any
      (fun r => test r.1 r.2) = true) :
    ∃ tr s, (clientReceive Unit reference sampleClient).Reaches (start sampleClient sampleGetPolicy sampleBuffer) tr s ∧
      tr.map Prod.fst = calls ∧ test tr s = true := by
  obtain ⟨⟨tr, s⟩, hrun, htest⟩ := Option.any_eq_true _ _ |>.mp h
  exact ⟨tr, s, Machine.reaches_of_run hrun, Machine.run_inputs hrun, htest⟩

/-- The first read ends inside the final head. -/
theorem observed_in_wire_order_sample :
    ∃ tr s, (clientReceive Unit reference sampleClient).Reaches (start sampleClient sampleGetPolicy sampleBuffer) tr s ∧
      wireBytes tr = sampleContinue ∧ (observedEvents (observations tr)).map ResponseEvent.isFinal = [false, true] ∧
      ∃ consumed heads rest last, sampleContinue = consumed ++ rest ∧
        Heard reference sampleClient sampleGetPolicy consumed heads s.policy ∧
        heads.map (·.event) = observedEvents (observations tr) ++ last ∧
        s.Holds reference sampleClient heads rest (bodyCalls tr) := by
  obtain ⟨tr, s, hrun, -, htest⟩ := sample_reaches (sampleReads (sampleContinue.take 30) (sampleContinue.drop 30))
    (fun tr _ => decide (wireBytes tr = sampleContinue) &&
      decide ((observedEvents (observations tr)).map ResponseEvent.isFinal = [false, true])) (by decide +kernel)
  simp only [Bool.and_eq_true, decide_eq_true_eq] at htest
  obtain ⟨hwire, hobserved⟩ := htest
  obtain ⟨consumed, heads, rest, last, hparts, hheard, -, hevents, -, hholds⟩ :=
    observed_in_wire_order Reference.headersWithin sampleBuffer_sound rfl rfl hrun
  rw [hwire] at hparts
  exact ⟨tr, s, hrun, hwire, hobserved, consumed, heads, rest, last, hparts, hheard, hevents, hholds⟩

/-- `receive` waits for input, or it has the final head. -/
def Settled (s : ClientReceive W) : Bool :=
  match s.point with
  | .reading | .receiving | .returned (.ok _) => true
  | _ => false

theorem accept_closed {p : ExchangePolicy} (h : p.phase ≠ .awaitingHead) (text : Bytes) :
    (responseHeads x cfg).accept p text = none := by
  cases haccept : (responseHeads x cfg).accept p text with
  | none => rfl
  | some r =>
    obtain ⟨head, action, -, hreceive⟩ := Heard.accept_cases haccept
    exact absurd (ExchangePolicy.receiveHead_cases hreceive).1 h

theorem not_whole_of_follows {scan : HeadScan} {next left : Bytes} (h : scan.Follows (next ++ left)) :
    ¬ HeadScan.Whole next := by
  intro hwhole
  obtain ⟨hscan, hnone⟩ := h
  rw [HeadScan.scanFrom_append, hwhole] at hscan
  rw [hscan] at hnone
  cases hnone

/-- Everything that can be heard in the input was heard and taken. -/
theorem Inv.settled (h : Inv x cfg p₀ wire calls rs btr s) (hphase : p₀.phase = .awaitingHead)
    (hsettled : s.Settled = true) :
    ∃ consumed heads rest, wire = consumed ++ rest ∧ Heard x cfg p₀ consumed heads s.policy ∧
      heads.map (·.event) = observedEvents rs ∧
      ∀ next left, rest = next ++ left → HeadScan.Whole next → (responseHeads x cfg).accept s.policy next = none := by
  obtain ⟨consumed, heads, rest, hhear, hstage⟩ := h
  have hevents := hhear.pending.observed.events_eq
  refine ⟨consumed, heads, rest, hhear.wire_eq, hhear.heard, ?_⟩
  rw [← hhear.passed, hevents]
  -- A final head was taken.
  have hdone (htold : Told calls s) (hfinal : Finalized x cfg heads rest btr s) :
      passedEvents calls = takenEvents calls ∧ ∀ next left, rest = next ++ left → HeadScan.Whole next →
        (responseHeads x cfg).accept s.policy next = none := by
    obtain ⟨before, final, rfl, hlast, -⟩ := hfinal
    refine ⟨htold.2.symm, fun next _ _ _ => accept_closed ?_ next⟩
    rcases hhear.heard.finals hphase with ⟨-, hall⟩ | ⟨hclosed, -⟩
    · rw [hall final (by simp)] at hlast
      cases hlast
    · exact hclosed
  unfold Settled at hsettled
  unfold Stage at hstage
  cases hpoint : s.point with
  | start | top | informing | finalizing | dropped => simp [hpoint] at hsettled
  | reading =>
    simp only [hpoint] at hstage
    obtain ⟨hl, hfree, hscan, -⟩ := hstage
    simp only [Channel.producerFree, Bool.and_eq_true, Option.isNone_iff_eq_none] at hfree
    refine ⟨((balanced_iff hhear.pending.sound hfree.2).mp hl.balanced).symm, ?_⟩
    rintro next left rfl hwhole
    exact absurd hwhole (not_whole_of_follows hscan)
  | receiving =>
    simp only [hpoint] at hstage
    exact hdone hstage.1 hstage.2
  | returned result =>
    cases result with
    | error e => simp [hpoint] at hsettled
    | ok r =>
      simp only [hpoint] at hstage
      exact hdone hstage.1 hstage.2.1

/-- However the bytes of a response were cut into reads, and however `receive`, the application and
the other half of the exchange took turns: an application has observed no more than another one whose
`receive` waits for input, or has the final head, with at least the same bytes. -/
theorem observed_from_any_reads (hx : x.HeadersWithin) {b₁ b₂ : RecvBuffer} (hb₁ : b₁.Sound) (hb₂ : b₂.Sound)
    (hmax₁ : b₁.maxRetained = cfg.settings.maxRetained) (hmax₂ : b₂.maxRetained = cfg.settings.maxRetained)
    (hphase : p₀.phase = .awaitingHead) {tr₁ tr₂ : List (ClientCall W × ClientOutput W)} {s₁ s₂ : ClientReceive W}
    (hrun₁ : (clientReceive W x cfg).Reaches (start cfg p₀ b₁) tr₁ s₁)
    (hrun₂ : (clientReceive W x cfg).Reaches (start cfg p₀ b₂) tr₂ s₂) (hsettled : s₁.Settled = true)
    (hbytes : b₂.bytes ++ wireBytes tr₂ <+: b₁.bytes ++ wireBytes tr₁) :
    observedEvents (observations tr₂) <+: observedEvents (observations tr₁) := by
  obtain ⟨consumed₁, heads₁, rest₁, hwire₁, hheard₁, hevents₁, hstuck⟩ :=
    (inv_of_reaches hx hb₁ hmax₁ hphase hrun₁).settled hphase hsettled
  obtain ⟨consumed₂, heads₂, rest₂, last, hwire₂, hheard₂, hevents₂, -⟩ :=
    (inv_of_reaches hx hb₂ hmax₂ hphase hrun₂).observed
  have hheads : heads₂ <+: heads₁ := by
    have hpre₁ : consumed₁ <+: b₁.bytes ++ wireBytes tr₁ := by
      rw [hwire₁]
      exact List.prefix_append _ _
    have hpre₂ : consumed₂ <+: b₁.bytes ++ wireBytes tr₁ := by
      rw [hwire₂] at hbytes
      exact (List.prefix_append _ _).trans hbytes
    apply hheard₁.of_stuck hheard₂ hpre₁ hpre₂
    intro next left hstream hwhole
    rw [hwire₁] at hstream
    exact hstuck next left (List.append_cancel_left hstream) hwhole
  rw [← hevents₁]
  calc observedEvents (observations tr₂) <+: heads₂.map (·.event) := by
        rw [hevents₂]
        exact List.prefix_append _ _
    _ <+: heads₁.map (·.event) := hheads.map _

/-- One run reads the response in two pieces, another one reads less of it. -/
theorem observed_from_any_reads_sample :
    ∃ tr₁ s₁ tr₂ s₂,
      (clientReceive Unit reference sampleClient).Reaches (start sampleClient sampleGetPolicy sampleBuffer) tr₁ s₁ ∧
      (clientReceive Unit reference sampleClient).Reaches (start sampleClient sampleGetPolicy sampleBuffer) tr₂ s₂ ∧
      wireBytes tr₁ = sampleContinue ∧ wireBytes tr₂ = sampleContinue.take 26 ∧
      observedEvents (observations tr₂) <+: observedEvents (observations tr₁) := by
  obtain ⟨tr₁, s₁, hrun₁, -, htest₁⟩ := sample_reaches (sampleReads (sampleContinue.take 30) (sampleContinue.drop 30))
    (fun tr s => decide (wireBytes tr = sampleContinue) && s.Settled) (by decide +kernel)
  obtain ⟨tr₂, s₂, hrun₂, -, htest₂⟩ := sample_reaches ((sampleReads (sampleContinue.take 26) []).take 8)
    (fun tr _ => decide (wireBytes tr = sampleContinue.take 26)) (by decide +kernel)
  simp only [Bool.and_eq_true, decide_eq_true_eq] at htest₁ htest₂
  refine ⟨tr₁, s₁, tr₂, s₂, hrun₁, hrun₂, htest₁.1, htest₂, ?_⟩
  apply observed_from_any_reads Reference.headersWithin sampleBuffer_sound sampleBuffer_sound rfl rfl rfl hrun₁ hrun₂
    htest₁.2
  rw [htest₁.1, htest₂]
  exact List.take_prefix _ _

theorem Inv.closed (h : Inv x cfg p₀ wire calls rs btr s) (hclosed : .closed ∈ endings calls) :
    (takenEvents calls).any (·.isFinal) = true := by
  obtain ⟨consumed, heads, rest, hhear, hstage⟩ := h
  obtain ⟨-, -, ⟨-, lifecycle, hoffer⟩ | ⟨-, hspent⟩⟩ := hstage.parts hhear.pending
  · -- While a head is offered the channel is open.
    have hact := (hhear.pending.sound.live_of_producing hoffer).1
    rw [(hhear.pending.life.live (by simp [hact])).1] at hclosed
    cases hclosed
  · obtain ⟨htaken, before, final, rfl, hlast⟩ := hspent.closed hclosed
    rw [htaken, hhear.passed]
    simp [hlast]

theorem ending_of_run (hrun : (clientReceive W x cfg).Reaches (start cfg p₀ b) tr s)
    {t : PipeState ResponseEvent Error} (ht : t ∈ endings (channelCalls tr)) :
    t = .closed ∨ (∃ e, t = .failed e ∧ ∃ y ∈ tr, y.1 = .fail e) ∨ t = .disconnected ∧ ∃ y ∈ tr, y.1 = .drop := by
  obtain ⟨z, hz, hend⟩ := List.mem_filterMap.mp ht
  obtain ⟨y, hy, hzy⟩ := List.mem_flatMap.mp hz
  obtain ⟨before, after, rfl⟩ := List.append_of_mem hy
  obtain ⟨s₁, s₂, -, hstep, -⟩ := hrun.step_at
  rcases ending_of_step hstep (List.mem_filterMap.mpr ⟨z, hzy, hend⟩) with rfl | ⟨e, rfl, hi⟩ | ⟨rfl, hi⟩
  · exact .inl rfl
  · exact .inr (.inl ⟨e, rfl, y, hy, hi⟩)
  · exact .inr (.inr ⟨rfl, y, hy, hi⟩)

/-- The cause of an error that the application is told. -/
theorem Inv.cause_of_reported (h : Inv x cfg p₀ wire (channelCalls tr) rs btr s)
    (hrun : (clientReceive W x cfg).Reaches (start cfg p₀ b) tr s)
    (hinf : ∀ event ∈ takenEvents (channelCalls tr), event.isFinal = false) {e : Error}
    (hreported : PendingResponse.Reported (endings (channelCalls tr)) e) :
    (∃ y ∈ tr, y.1 = .fail e) ∨ e = driverClosed ∧ ∃ y ∈ tr, y.1 = .drop := by
  rcases hreported with hfailed | ⟨rfl, hend | hlost⟩
  · rcases ending_of_run hrun hfailed with heq | ⟨e', heq, hfail⟩ | ⟨heq, -⟩
    · cases heq
    · cases heq
      exact .inl hfail
    · cases heq
  · -- Nothing but a final head that was taken is followed by a close.
    have hany := h.closed hend
    rw [List.any_eq_true] at hany
    obtain ⟨event, hmem, hfinal⟩ := hany
    rw [hinf event hmem] at hfinal
    cases hfinal
  · rcases ending_of_run hrun hlost with heq | ⟨e', heq, -⟩ | ⟨-, hdrop⟩
    · cases heq
    · cases heq
    · exact .inr ⟨rfl, hdrop⟩

theorem error_cause (hx : x.HeadersWithin) (hb : b.Sound) (hmax : b.maxRetained = cfg.settings.maxRetained)
    (hphase : p₀.phase = .awaitingHead) (hrun : (clientReceive W x cfg).Reaches (start cfg p₀ b) tr s) {e : Error}
    (he : .error e ∈ observations tr) : (∃ y ∈ tr, y.1 = .fail e) ∨ e = driverClosed ∧ ∃ y ∈ tr, y.1 = .drop := by
  have hinv := inv_of_reaches hx hb hmax hphase hrun
  obtain ⟨consumed, heads, rest, hhear, -⟩ := id hinv
  have hcause := fun hinf e => hinv.cause_of_reported (e := e) hrun hinf
  have hobserved := hhear.pending.observed
  generalize takenEvents (channelCalls tr) = events at hobserved hcause
  generalize observations tr = rs at hobserved he
  generalize s.pending.delivered = delivered at hobserved
  generalize s.pending.finished = finished at hobserved
  cases hobserved with
  | waiting hinf => simp at he
  | delivered k hinf hlast => simp [List.mem_replicate] at he
  | @failed events e' k hinf hreported =>
    have heq : e = e' := by simpa [List.mem_replicate] using he
    subst heq
    exact hcause hinf e hreported

/-- All that `next_event` ever returns: informational heads; then the final head, or one error that is
the failure of the exchange or the loss of its driver; then `Ok(None)`. -/
theorem response_ends_once (hx : x.HeadersWithin) (hb : b.Sound) (hmax : b.maxRetained = cfg.settings.maxRetained)
    (hphase : p₀.phase = .awaitingHead) (hrun : (clientReceive W x cfg).Reaches (start cfg p₀ b) tr s) :
    ∃ events, (∀ event ∈ events, event.isFinal = false) ∧
      (observations tr = events.map (fun event => .ok (some event)) ∨
      (∃ final k, final.isFinal = true ∧ observations tr =
        (events ++ [final]).map (fun event => .ok (some event)) ++ List.replicate k (.ok none)) ∨
      ∃ e k, observations tr = events.map (fun event => .ok (some event)) ++ .error e :: List.replicate k (.ok none) ∧
        ((∃ y ∈ tr, y.1 = .fail e) ∨ e = driverClosed ∧ ∃ y ∈ tr, y.1 = .drop)) := by
  have hinv := inv_of_reaches hx hb hmax hphase hrun
  obtain ⟨consumed, heads, rest, hhear, -⟩ := id hinv
  have hcause := fun e => error_cause (e := e) hx hb hmax hphase hrun
  have hobserved := hhear.pending.observed
  generalize takenEvents (channelCalls tr) = events at hobserved
  generalize observations tr = rs at hobserved hcause
  generalize s.pending.delivered = delivered at hobserved
  generalize s.pending.finished = finished at hobserved
  cases hobserved with
  | waiting hinf => exact ⟨events, hinf, .inl rfl⟩
  | @delivered events final k hinf hlast => exact ⟨events, hinf, .inr (.inl ⟨final, k, hlast, rfl⟩)⟩
  | @failed events e k hinf hreported =>
    exact ⟨events, hinf, .inr (.inr ⟨e, k, rfl, hcause e (by simp)⟩)⟩

/-- The exchange is dropped while the application waits for a head. -/
theorem response_ends_once_lost :
    ∃ tr s, (clientReceive Unit reference sampleClient).Reaches (start sampleClient sampleGetPolicy sampleBuffer) tr s ∧
      (observations tr).map Except.isOk = [false, true] ∧ ∃ e k,
        observations tr = .error e :: List.replicate k (.ok none) ∧
          ((∃ y ∈ tr, y.1 = .fail e) ∨ e = driverClosed ∧ ∃ y ∈ tr, y.1 = .drop) := by
  obtain ⟨tr, s, hrun, -, htest⟩ := sample_reaches
    ([samplePoll none, samplePoll none, .pending .nextEvent, .pending (.pollEvent ()), .drop,
      .pending (.pollEvent ()), .pending .dropEvent] ++ sampleObserve)
    (fun tr _ => decide ((observations tr).map Except.isOk = [false, true])) (by decide +kernel)
  simp only [decide_eq_true_eq] at htest
  refine ⟨tr, s, hrun, htest, ?_⟩
  obtain ⟨events, -, hall | ⟨final, k, -, hall⟩ | ⟨e, k, hall, hcause⟩⟩ :=
    response_ends_once Reference.headersWithin sampleBuffer_sound rfl rfl hrun
  · rw [hall] at htest
    cases events with
    | nil => cases htest
    | cons event events => simp [Except.isOk, Except.toBool] at htest
  · rw [hall] at htest
    cases events with
    | nil => simp [Except.isOk, Except.toBool] at htest
    | cons event events => simp [Except.isOk, Except.toBool] at htest
  · cases events with
    | nil => exact ⟨e, k, hall, hcause⟩
    | cons event events =>
      rw [hall] at htest
      simp [Except.isOk, Except.toBool] at htest

end ClientReceive

end Vakya
