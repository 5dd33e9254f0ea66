import Vakya.Context
import Vakya.Transfer
import Vakya.UploadRun
import Vakya.WireOrder

/-!
# A response from one peer to the other

The heads that a server prepares, interim ones and then the final one, with the body behind it. What
the application at the other end takes are these heads, and that body.
-/

namespace Vakya

open Library

variable {x : Crates} {D E W : Type} {cfg : ClientConfig} {p₀ : ExchangePolicy}

theorem ResponseHead.upgradeOf_interim {head : ResponseHead} (hinterim : head.status.isInterim = true)
    (connection : ConnectionOptions) (method : Method) : head.upgradeOf connection method = .ok none := by
  simp only [StatusCode.isInterim, Bool.and_eq_true, decide_eq_true_eq] at hinterim
  obtain ⟨hinf, h101⟩ := hinterim
  have hsuccess : head.status.isSuccess = false := by
    simp only [StatusCode.isInformational, StatusCode.isSuccess, Bool.and_eq_true, decide_eq_true_eq,
      Bool.and_eq_false_iff, decide_eq_false_iff_not] at hinf ⊢
    omega
  simp [upgradeOf, h101, hsuccess]

theorem ResponseHead.validate_interim {head : ResponseHead} (hinterim : head.status.isInterim = true)
    (method method' : Method) : head.validate method = head.validate method' := by
  have hbody (upgrade : Option UpgradeKind) : head.bodyOf method upgrade = head.bodyOf method' upgrade := by
    simp only [StatusCode.isInterim, Bool.and_eq_true] at hinterim
    simp [bodyOf, bodyless, hinterim.1]
  simp only [validate, upgradeOf_interim hinterim, hbody]

def ResponseHead.visible (head : ResponseHead) : StatusCode × Headers := (head.status, head.headers)

def MessagePlan.visible (plan : MessagePlan ValidatedResponseHead) : StatusCode × Headers :=
  (plan.head.head.status, plan.head.head.headers.mapValues HeaderValue.trimmed)

def ResponseEvent.message : ResponseEvent → ResponseHead
  | .informational message | .final message _ => message

@[simp] theorem ValidatedResponseHead.event_message (head : ValidatedResponseHead) : head.event.message = head.head := by
  unfold event
  split_ifs <;> rfl

/-- The heads of a response in the order of the wire. -/
structure SentResponse where
  interim : List (MessagePlan ValidatedResponseHead)
  final : MessagePlan ValidatedResponseHead

namespace SentResponse

def heads (r : SentResponse) : List (MessagePlan ValidatedResponseHead) := r.interim ++ [r.final]

def text (r : SentResponse) : Bytes := r.heads.flatMap (·.bytes)

/-- The heads were prepared by the code, and they fit into the limits of the peer. The final one is
for a request that `p₀` stands for; it makes no upgrade. -/
structure Accepted (x : Crates) (cfg : ClientConfig) (p₀ : ExchangePolicy) (r : SentResponse) : Prop where
  interim : ∀ plan ∈ r.interim, HeadFits x cfg.settings.head plan.bytes plan.head.head.headers ∧
    ∃ status version headers original config, status.isInterim = true ∧
      prepareResponseHead x status version headers original ⟨.withExact 0 zero_lt_wordSize, .none⟩ .get config = .ok plan
  final : HeadFits x cfg.settings.head r.final.bytes r.final.head.head.headers ∧
    ∃ status version headers original metadata config, status.isInformational = false ∧
      prepareResponseHead x status version headers original metadata p₀.method config = .ok r.final
  no_upgrade : r.final.head.upgrade = none
  few : p₀.informational + r.interim.length ≤ p₀.maxInformational
  awaiting : p₀.phase = .awaitingHead

end SentResponse

variable {plan : MessagePlan ValidatedResponseHead} {p : ExchangePolicy}

theorem reread_visible {head : ResponseHead} {status : StatusCode} {version : Version} {headers : Headers}
    {original : Option HeaderCaseMap} {metadata : BodyMetadata} {method : Method} {config : EncodeConfig}
    (hprep : prepareResponseHead x status version headers original metadata method config = .ok plan)
    (hstatus : head.status = status) (hheaders : head.headers = plan.head.head.headers.mapValues HeaderValue.trimmed) :
    head.visible = plan.visible := by
  obtain ⟨edited, mode, w, -, hvalid, -, -⟩ := prepareResponseHead_ok hprep
  obtain ⟨hsame, -⟩ := ResponseHead.validate_ok hvalid
  rw [ResponseHead.visible, MessagePlan.visible, hstatus, hheaders, hsame]

section Reread

variable (hres : x.ResponseHeads) (hr : x.PlainReasons) (hn : x.FoldsNames) (hv : x.KeepsValues)

include hres hr hn hv

/-- What the code writes for `Command::Continue`, or for an interim head of the application, is an
interim head to its peer. -/
theorem accept_interim (hphase : p.phase = .awaitingHead) (hroom : p.informational ≠ p.maxInformational)
    (hfit : HeadFits x cfg.settings.head plan.bytes plan.head.head.headers) {status : StatusCode} {version : Version}
    {headers : Headers} {original : Option HeaderCaseMap} {metadata : BodyMetadata} {config : EncodeConfig}
    (hinterim : status.isInterim = true)
    (hprep : prepareResponseHead x status version headers original metadata .get config = .ok plan) :
    HeadScan.Whole plan.bytes ∧ ∃ v, (responseHeads x cfg).accept p plan.bytes =
      some (v, { p with informational := p.informational + 1 }) ∧ v.head.visible = plan.visible := by
  obtain ⟨hscan, head, v, hparse, hheaders, hstatus, hvalid, -⟩ :=
    prepared_response_reread hres hr hn hv hprep (p := cfg.settings.parser) hfit
  have hwhole : HeadScan.Whole plan.bytes := by
    have hfound := hscan []
    rwa [List.append_nil] at hfound
  have hsame : head.status.isInterim = true := by rw [hstatus, hinterim]
  have hnone : v.upgrade = none := by
    obtain ⟨-, connection, upgrade, body, -, hupgrade, -, rfl⟩ := ResponseHead.validate_eq_ok.mp hvalid
    rw [ResponseHead.upgradeOf_interim hsame] at hupgrade
    cases hupgrade
    rfl
  obtain ⟨hhead, -⟩ := ResponseHead.validate_ok hvalid
  have hinf : v.head.status.isInformational = true := by
    simp only [StatusCode.isInterim, Bool.and_eq_true] at hsame
    rw [hhead, hsame.1]
  have hreceive : p.receiveHead head = ({ p with informational := p.informational + 1 }, .ok (v, .informational)) := by
    unfold ExchangePolicy.receiveHead
    rw [if_neg (by simp [hphase]), ResponseHead.validate_interim hsame p.method .get, hvalid]
    simp only [hnone, hinf, if_true, if_neg hroom]
  refine ⟨hwhole, v, Heard.accept_eq hparse hreceive, ?_⟩
  rw [hhead]
  exact reread_visible hprep hstatus hheaders

theorem accept_final (hphase : p.phase = .awaitingHead)
    (hfit : HeadFits x cfg.settings.head plan.bytes plan.head.head.headers) {status : StatusCode} {version : Version}
    {headers : Headers} {original : Option HeaderCaseMap} {metadata : BodyMetadata} {config : EncodeConfig}
    (hfinal : status.isInformational = false) (hnone : plan.head.upgrade = none)
    (hprep : prepareResponseHead x status version headers original metadata p.method config = .ok plan) :
    HeadScan.Whole plan.bytes ∧ ∃ v, (responseHeads x cfg).accept p plan.bytes =
        some (v, p.toFinal plan.head.persistence) ∧
      v.head.visible = plan.visible ∧ v.body = plan.head.body := by
  obtain ⟨hscan, head, v, hparse, hheaders, hstatus, hvalid, hbody, hpersistence, hupgrade⟩ :=
    prepared_response_reread hres hr hn hv hprep (p := cfg.settings.parser) hfit
  have hwhole : HeadScan.Whole plan.bytes := by
    have hfound := hscan []
    rwa [List.append_nil] at hfound
  obtain ⟨hhead, -⟩ := ResponseHead.validate_ok hvalid
  have hinf : v.head.status.isInformational = false := by rw [hhead, hstatus, hfinal]
  have hreceive : p.receiveHead head = (p.toFinal plan.head.persistence, .ok (v, .final)) := by
    unfold ExchangePolicy.receiveHead
    rw [if_neg (by simp [hphase]), hvalid]
    simp only [hupgrade, hnone, hinf, Bool.false_eq_true, if_false, hpersistence]
  refine ⟨hwhole, v, Heard.accept_eq hparse hreceive, ?_, hbody⟩
  rw [hhead]
  exact reread_visible hprep hstatus hheaders

theorem heard_interim (plans : List (MessagePlan ValidatedResponseHead)) (hphase : p.phase = .awaitingHead)
    (hfew : p.informational + plans.length ≤ p.maxInformational)
    (hplans : ∀ plan ∈ plans, HeadFits x cfg.settings.head plan.bytes plan.head.head.headers ∧
      ∃ status version headers original config, status.isInterim = true ∧ prepareResponseHead x status version headers
        original ⟨.withExact 0 zero_lt_wordSize, .none⟩ .get config = .ok plan) :
    ∃ vs, Heard x cfg p (plans.flatMap (·.bytes)) vs { p with informational := p.informational + plans.length } ∧
      vs.map (·.head.visible) = plans.map (·.visible) := by
  induction plans generalizing p with
  | nil => exact ⟨[], .nothing, rfl⟩
  | cons plan plans ih =>
    obtain ⟨hfit, status, version, headers, original, config, hinterim, hprep⟩ := hplans plan (by simp)
    rw [List.length_cons] at hfew
    obtain ⟨hwhole, v, haccept, hvisible⟩ :=
      accept_interim hres hr hn hv hphase (by omega) hfit hinterim hprep
    obtain ⟨vs, hheard, hrest⟩ := ih (p := { p with informational := p.informational + 1 }) hphase
      (by show p.informational + 1 + plans.length ≤ p.maxInformational; omega)
      fun plan hmem => hplans plan (List.mem_cons_of_mem _ hmem)
    refine ⟨v :: vs, ?_, by rw [List.map_cons, hvisible, hrest]; rfl⟩
    have hall : Heard x cfg p (plan.bytes ++ plans.flatMap (·.bytes)) (v :: vs) _ := .message hwhole haccept hheard
    simpa only [List.flatMap_cons, List.length_cons, Nat.add_assoc, Nat.add_comm 1] using hall

/-- The peer hears the heads of a response, and the final one with its body. -/
theorem SentResponse.Accepted.heard {r : SentResponse} (h : r.Accepted x cfg p₀) :
    ∃ before final p, Heard x cfg p₀ r.text (before ++ [final]) p ∧ p.phase ≠ .awaitingHead ∧
      (before ++ [final]).map (·.head.visible) = r.heads.map (·.visible) ∧ final.body = r.final.head.body := by
  obtain ⟨vs, hheard, hvisible⟩ := heard_interim hres hr hn hv r.interim h.awaiting h.few h.interim
  obtain ⟨hfit, status, version, headers, original, metadata, config, hfinal, hprep⟩ := h.final
  obtain ⟨hwhole, v, haccept, hsame, hbody⟩ := accept_final hres hr hn hv
    (p := { p₀ with informational := p₀.informational + r.interim.length }) h.awaiting hfit hfinal h.no_upgrade hprep
  have hall := hheard.more hwhole haccept
  have htext : r.text = r.interim.flatMap (·.bytes) ++ r.final.bytes := by
    simp [SentResponse.text, SentResponse.heads]
  rw [← htext] at hall
  refine ⟨vs, v, _, hall, by simp [ExchangePolicy.toFinal], ?_, hbody⟩
  simp only [SentResponse.heads, List.map_append, hvisible, List.map_cons, List.map_nil, hsame]

end Reread

/-- A reader of a part of the wire is on its way to what was sent. -/
theorem heard_part {text consumed rest stream : Bytes} {sent heads : List ValidatedResponseHead} {p p' : ExchangePolicy}
    (hsent : Heard x cfg p₀ text sent p) (hclosed : p.phase ≠ .awaitingHead) (hheard : Heard x cfg p₀ consumed heads p')
    (htext : text <+: stream) (hpart : consumed ++ rest <+: stream) :
    ∃ left more, text = consumed ++ left ∧ sent = heads ++ more ∧ Heard x cfg p' left more p := by
  rcases hheard.comparable hsent ((List.prefix_append _ _).trans hpart) htext with
    hfound | ⟨left, more, rfl, rfl, hmore⟩
  · exact hfound
  · -- Nothing is heard behind the final head.
    obtain ⟨rfl, rfl, rfl⟩ := Heard.closed hmore hclosed
    exact ⟨[], [], by simp, by simp, .nothing⟩

theorem start_of_promise {mode : BodyMode} (hlt : ∀ n, mode = .fixed n → n < wordSize) (hnone : promise mode = none) :
    mode.start = .fixed 0 ∧ ∀ fields, mode.receives fields = none := by
  rw [promise, dif_pos hlt] at hnone
  cases mode with
  | none => exact ⟨rfl, fun _ => rfl⟩
  | fixed n =>
    cases n with
    | zero => exact ⟨rfl, fun _ => rfl⟩
    | succ n => cases hnone
  | chunked => cases hnone
  | untilEof => cases hnone

/-- What an application has, at any moment, of a response that its peer sends; `later` did not arrive
yet, and `next` follows the response on the connection. -/
structure Responded (r : SentResponse) (mode : BodyMode) (content : BodyContent) (arrived later next : Bytes)
    (rs : List EventResult) (btr : List (BodyCall W × BodyOutput W)) (s : ClientReceive W) : Prop where
  heads : (observedEvents rs).map (·.message.visible) <+: r.heads.map (·.visible)
  every_head : s.Settled = true → r.text <+: arrived →
    (observedEvents rs).map (·.message.visible) = r.heads.map (·.visible)
  body : ∀ driver, s.body = some driver → ∃ ds fields,
    framesOf (BodyPipe.results btr) = ds.map .data ++ fields.toList.map .trailers ∧
      payloadOf ds <+: content.payload ∧
      ∀ f, fields = some f → payloadOf ds = content.payload ∧ content.ending.bind mode.receives = some f
  complete : ∀ result, s.point = .returned (.ok result) → result.ended = .complete → (mode = .untilEof → later = []) →
    (observedEvents rs).map (·.message.visible) = r.heads.map (·.visible) ∧
    (mode = .chunked → content.ending.isSome = true) ∧ ∃ ds,
      takenBy (BodyPipe.pipeTrace btr) = ds.map .data ++ (content.ending.bind mode.receives).toList.map .trailers ∧
      payloadOf ds = content.payload ∧ result.buffer ++ later = next

namespace ClientReceive

variable {arrived later next body : Bytes} {calls : List (EventCall W × EventCallOutput W)} {rs : List EventResult}
  {btr : List (BodyCall W × BodyOutput W)} {s : ClientReceive W} {r : SentResponse} {content : BodyContent}

theorem final_sent {consumed rest text stream : Bytes} {heads before sent : List ValidatedResponseHead}
    {final last : ValidatedResponseHead} {p p' : ExchangePolicy} (hphase : p₀.phase = .awaitingHead)
    (hsent : Heard x cfg p₀ text (sent ++ [last]) p) (hclosed : p.phase ≠ .awaitingHead)
    (hheard : Heard x cfg p₀ consumed heads p') (htext : text <+: stream) (hpart : consumed ++ rest <+: stream)
    (hheads : heads = before ++ [final]) (hfinal : final.isFinal = true) :
    consumed = text ∧ heads = sent ++ [last] ∧ final = last := by
  have hdone : p'.phase ≠ .awaitingHead := by
    rcases hheard.finals hphase with ⟨-, hall⟩ | ⟨hdone, -⟩
    · rw [hall final (by simp [hheads])] at hfinal
      cases hfinal
    · exact hdone
  obtain ⟨left, more, hleft, hmore, hrest⟩ := heard_part hsent hclosed hheard htext hpart
  obtain ⟨rfl, rfl, -⟩ := Heard.closed hrest hdone
  rw [List.append_nil] at hleft hmore
  refine ⟨hleft.symm, hmore.symm, ?_⟩
  rw [hheads] at hmore
  exact ((List.append_inj' hmore rfl).2 |> List.singleton_inj.mp).symm

/-- A complete response had no body to receive, or its driver has received all of it. -/
theorem Begun.returned {rest : Bytes} {final : ValidatedResponseHead} (h : Begun x cfg final rest btr s)
    {result : ReceivedResponse} (hreturns : Returns result s) (hended : result.ended = .complete) :
    (promise final.body = none ∧ btr = [] ∧ result.buffer = rest) ∨
      ∃ driver size trailers, Receiver.Closed (cfg.reception x final size trailers) rest btr driver ∧
        result.buffer = driver.owner.bytes.getD [] := by
  obtain ⟨-, hreturns⟩ := hreturns
  rcases h with ⟨hbody, hpromise, hbtr, -, b, howner, hbytes⟩ | ⟨driver, size, trailers, hbody, -, hinv⟩
  · rcases hreturns with ⟨-, -, hbuffer⟩ | ⟨driver, hsome, -⟩
    · rw [howner] at hbuffer
      exact .inl ⟨hpromise, hbtr, (Option.some.inj hbuffer).symm.trans hbytes⟩
    · rw [hbody] at hsome
      cases hsome
  · rcases hreturns with ⟨hnone, -⟩ | ⟨driver', hsome, hdone, hbuffer⟩
    · rw [hbody] at hnone
      cases hnone
    · rw [hbody] at hsome
      cases hsome
      rw [hended] at hdone
      simp only [Receiver.Inv, hdone] at hinv
      exact .inr ⟨driver, size, trailers, hinv.2 trivial, hbuffer⟩

/-- What `receive` has done when it returns: it has heard the heads up to the final one, the application
was given all of them, and a complete body is what the input holds behind them. -/
theorem Inv.received (h : Inv x cfg p₀ arrived calls rs btr s) {result : ReceivedResponse}
    (hpoint : s.point = .returned (.ok result)) :
    ∃ consumed before final rest, arrived = consumed ++ rest ∧
      Heard x cfg p₀ consumed (before ++ [final]) s.policy ∧ final.isFinal = true ∧ result.policy = s.policy ∧
      observedEvents rs = (before ++ [final]).map (·.event) ∧
      (result.ended = .complete → final.body ≠ .untilEof → ∃ ds fields charged,
        takenBy (BodyPipe.pipeTrace btr) = ds.map .data ++ (fields : Option Headers).toList.map .trailers ∧
        (framing x cfg.settings.decode).run final.body.start rest =
          ⟨payloadOf ds, .done (fields, charged) result.buffer⟩) := by
  obtain ⟨consumed, heads, rest, hhear, hstage⟩ := h
  simp only [Stage, hpoint] at hstage
  obtain ⟨htold, ⟨before, final, rfl, hfinal, hbegun⟩, hreturns⟩ := hstage
  refine ⟨consumed, before, final, rest, hhear.wire_eq, hhear.heard, hfinal, hreturns.1, ?_, fun hended heof => ?_⟩
  · rw [hhear.pending.observed.events_eq, htold.2, hhear.passed]
  rcases hbegun.returned hreturns hended with ⟨hpromise, hbtr, hbuffer⟩ | ⟨driver, size, trailers, hdone, hbuffer⟩
  · obtain ⟨hstart, -⟩ := start_of_promise (hhear.heard.fixed_lt (by simp)) hpromise
    refine ⟨[], none, 0, by simp [hbtr, BodyPipe.pipeTrace, takenBy], ?_⟩
    rw [hstart, run_fixed_zero, hbuffer]
    rfl
  · obtain ⟨b, ds, fields, charged, howner, htaken, hrun⟩ := hdone.decoded heof
    refine ⟨ds, fields, charged, htaken, ?_⟩
    rw [hbuffer, howner]
    exact hrun

theorem visible_events (heads : List ValidatedResponseHead) :
    (heads.map (·.event)).map (·.message.visible) = heads.map (·.head.visible) := by
  rw [List.map_map]
  exact List.map_congr_left fun head _ => by simp

section Sent

variable {sent : List ValidatedResponseHead} {last : ValidatedResponseHead} {p : ExchangePolicy}

/-- What was heard by now are the first heads that were sent. -/
theorem heard_sent {consumed rest : Bytes} {heads : List ValidatedResponseHead} {p' : ExchangePolicy}
    (hsent : Heard x cfg p₀ r.text sent p) (hclosed : p.phase ≠ .awaitingHead) (htext : r.text <+: arrived ++ later)
    (hheard : Heard x cfg p₀ consumed heads p') (harrived : arrived = consumed ++ rest) : heads <+: sent := by
  have hpart : consumed ++ rest <+: arrived ++ later := by
    rw [harrived]
    exact List.prefix_append _ _
  obtain ⟨left, more, -, rfl, -⟩ := heard_part hsent hclosed hheard htext hpart
  exact List.prefix_append _ _

theorem Inv.heads_in_order (h : Inv x cfg p₀ arrived calls rs btr s) (hsent : Heard x cfg p₀ r.text sent p)
    (hclosed : p.phase ≠ .awaitingHead) (htext : r.text <+: arrived ++ later)
    (hvisible : sent.map (·.head.visible) = r.heads.map (·.visible)) :
    (observedEvents rs).map (·.message.visible) <+: r.heads.map (·.visible) := by
  obtain ⟨consumed, heads, rest, unseen, hwire, hheard, hseen, -⟩ := h.observed
  obtain ⟨more, rfl⟩ := heard_sent hsent hclosed htext hheard hwire
  rw [← hvisible, List.map_append, ← visible_events heads, hseen, List.map_append, List.append_assoc]
  exact List.prefix_append _ _

/-- What waits for nothing more was given every head that has arrived. -/
theorem Inv.every_head (h : Inv x cfg p₀ arrived calls rs btr s) (hsent : Heard x cfg p₀ r.text sent p)
    (hphase : p₀.phase = .awaitingHead) (hclosed : p.phase ≠ .awaitingHead)
    (hvisible : sent.map (·.head.visible) = r.heads.map (·.visible)) (hsettled : s.Settled = true)
    (harrived : r.text <+: arrived) : (observedEvents rs).map (·.message.visible) = r.heads.map (·.visible) := by
  obtain ⟨consumed, heads, rest, hwire, hheard, hseen, hstuck⟩ := h.settled hphase hsettled
  have hall : sent <+: heads := by
    have hread : consumed <+: arrived := by
      rw [hwire]
      exact List.prefix_append _ _
    apply hheard.of_stuck hsent hread harrived
    intro unread left hstream hwhole
    rw [hwire] at hstream
    exact hstuck unread left (List.append_cancel_left hstream) hwhole
  have hpart := heard_sent hsent hclosed (harrived.trans (List.prefix_append _ [])) hheard hwire
  have hheads : heads = sent := hpart.eq_of_length_le hall.length_le
  rw [← hvisible, ← hheads, ← visible_events heads, hseen]

/-- What stands behind the final head is the body that was sent. -/
theorem sent_body {consumed rest : Bytes} {heads before : List ValidatedResponseHead} {final : ValidatedResponseHead}
    {p' : ExchangePolicy} (hphase : p₀.phase = .awaitingHead) (hsent : Heard x cfg p₀ r.text (sent ++ [last]) p)
    (hclosed : p.phase ≠ .awaitingHead) (hwire : arrived ++ later = r.text ++ (body ++ next))
    (hheard : Heard x cfg p₀ consumed heads p') (harrived : arrived = consumed ++ rest)
    (hheads : heads = before ++ [final]) (hfinal : final.isFinal = true) :
    heads = sent ++ [last] ∧ final = last ∧ rest ++ later = body ++ next := by
  have htext : r.text <+: arrived ++ later := by
    rw [hwire]
    exact List.prefix_append _ _
  have hpart : consumed ++ rest <+: arrived ++ later := by
    rw [harrived]
    exact List.prefix_append _ _
  obtain ⟨rfl, hall, hlast⟩ := final_sent hphase hsent hclosed hheard htext hpart hheads hfinal
  refine ⟨hall, hlast, ?_⟩
  rw [harrived, List.append_assoc] at hwire
  exact List.append_cancel_left hwire

theorem Inv.body_in_order (h : Inv x cfg p₀ arrived calls rs btr s) (hsent : Heard x cfg p₀ r.text (sent ++ [last]) p)
    (hphase : p₀.phase = .awaitingHead) (hclosed : p.phase ≠ .awaitingHead)
    (hwire : arrived ++ later = r.text ++ (body ++ next))
    (hread : ∀ part, part ++ later = body ++ next → ReadsPart last.body content later next
      ((framing x cfg.settings.decode).run last.body.start part)) {driver : Receiver W} (hdriver : s.body = some driver) :
    ∃ ds fields, framesOf (BodyPipe.results btr) = ds.map .data ++ fields.toList.map .trailers ∧
      payloadOf ds <+: content.payload ∧
      ∀ f, fields = some f → payloadOf ds = content.payload ∧ content.ending.bind last.body.receives = some f := by
  obtain ⟨consumed, heads, rest, hhear, hstage⟩ := h
  obtain ⟨-, hnone | ⟨before, final, driver', size, trailers, hheads, hfinal, hsome, -, hinv⟩, -⟩ :=
    hstage.parts hhear.pending
  · rw [hnone] at hdriver
    cases hdriver
  · rw [hsome] at hdriver
    cases hdriver
    obtain ⟨-, rfl, hrest⟩ := sent_body hphase hsent hclosed hwire hhear.heard hhear.wire_eq hheads hfinal
    exact hinv.orderly.in_order (hread rest hrest)

/-- A complete body is all of what was sent. -/
theorem Inv.whole_body (h : Inv x cfg p₀ arrived calls rs btr s) (hsent : Heard x cfg p₀ r.text (sent ++ [last]) p)
    (hphase : p₀.phase = .awaitingHead) (hclosed : p.phase ≠ .awaitingHead)
    (hwire : arrived ++ later = r.text ++ (body ++ next)) (hnext : last.body = .untilEof → next = [])
    (hread : ∀ part, part ++ later = body ++ next → ReadsPart last.body content later next
      ((framing x cfg.settings.decode).run last.body.start part)) {result : ReceivedResponse}
    (hpoint : s.point = .returned (.ok result)) (hended : result.ended = .complete)
    (hlater : last.body = .untilEof → later = []) :
    observedEvents rs = (sent ++ [last]).map (·.event) ∧ (last.body = .chunked → content.ending.isSome = true) ∧ ∃ ds,
      takenBy (BodyPipe.pipeTrace btr) = ds.map .data ++ (content.ending.bind last.body.receives).toList.map .trailers ∧
      payloadOf ds = content.payload ∧ result.buffer ++ later = next := by
  obtain ⟨consumed, heads, rest, hhear, hstage⟩ := h
  simp only [Stage, hpoint] at hstage
  obtain ⟨htold, ⟨before, final, hheads, hfinal, hbegun⟩, hreturns⟩ := hstage
  obtain ⟨hall, rfl, hrest⟩ := sent_body hphase hsent hclosed hwire hhear.heard hhear.wire_eq hheads hfinal
  have hpart := hread rest hrest
  refine ⟨by rw [hhear.pending.observed.events_eq, htold.2, hhear.passed, hall], ?_⟩
  rcases hbegun.returned hreturns hended with ⟨hpromise, hbtr, hbuffer⟩ | ⟨driver, size, trailers, hdone, hbuffer⟩
  · -- Nothing was received.
    obtain ⟨hstart, hreceives⟩ := start_of_promise (hhear.heard.fixed_lt (by simp [hheads])) hpromise
    rw [hstart, run_fixed_zero] at hpart
    obtain ⟨hpayload, hbehind, -, hchunked⟩ := hpart.done _ _ rfl
    refine ⟨hchunked, [], ?_, hpayload, hbuffer ▸ hbehind⟩
    rw [hbtr]
    cases content.ending <;> simp [hreceives, BodyPipe.pipeTrace, takenBy]
  · rw [← List.append_nil later] at hpart
    obtain ⟨hchunked, ds, b, htaken, hpayload, howner, hbehind⟩ := hdone.all hpart (.inl rfl)
      fun hmode => ⟨hnext hmode, fun _ => by rw [List.append_nil]; exact hlater hmode⟩
    refine ⟨hchunked, ds, htaken, hpayload, ?_⟩
    rw [hbuffer, howner]
    exact hbehind

theorem Inv.responded (h : Inv x cfg p₀ arrived calls rs btr s) (hsent : Heard x cfg p₀ r.text (sent ++ [last]) p)
    (hphase : p₀.phase = .awaitingHead) (hclosed : p.phase ≠ .awaitingHead)
    (hvisible : (sent ++ [last]).map (·.head.visible) = r.heads.map (·.visible))
    (hmode : last.body = r.final.head.body) (hwire : arrived ++ later = r.text ++ (body ++ next))
    (hnext : r.final.head.body = .untilEof → next = [])
    (hread : ∀ part, part ++ later = body ++ next → ReadsPart r.final.head.body content later next
      ((framing x cfg.settings.decode).run r.final.head.body.start part)) :
    Responded r r.final.head.body content arrived later next rs btr s := by
  have htext : r.text <+: arrived ++ later := by
    rw [hwire]
    exact List.prefix_append _ _
  rw [← hmode] at hnext hread ⊢
  refine ⟨h.heads_in_order hsent hclosed htext hvisible, h.every_head hsent hphase hclosed hvisible,
    fun driver => h.body_in_order hsent hphase hclosed hwire hread, fun result hpoint hended hlater => ?_⟩
  obtain ⟨hevents, hbody⟩ := h.whole_body hsent hphase hclosed hwire hnext hread hpoint hended hlater
  refine ⟨?_, hbody⟩
  rw [hevents, visible_events, hvisible]

end Sent

/-- **A response goes from one peer to the other as it was sent.** The heads are what the code
prepares for interim responses and for the final one, and the body is what its encoder makes of what
was produced. However they are read, and whatever the application, the upload and the transport do
meanwhile: the application is given the heads in order and nothing else, and all of them once they
have arrived and `receive` waits; the body is given the payload in order, and trailers only after all
of it; and when `receive` ends with a complete body, for a close-delimited one with all that was sent,
all of the body was given, and what follows the response on the connection was left alone. -/
theorem response_transfer (hx : x.HeadersWithin) (hres : x.ResponseHeads) (hr : x.PlainReasons) (hn : x.FoldsNames)
    (hv : x.KeepsValues) (hblocks : x.HeaderBlocks) (haccepted : r.Accepted x cfg p₀) {metadata : BodyMetadata}
    {config : EncodeConfig} {e₀ : BodyEncoder} (hnew : BodyEncoder.new r.final.head.body metadata config = .ok e₀)
    (asInit : D → Bytes) (produced : List (Produced D E))
    (hfit : r.final.head.body = .chunked → cfg.settings.decode.Admit x e₀ produced)
    (hmore : (contentOf x asInit e₀ produced).ending = none → next = [])
    (heof : r.final.head.body = .untilEof → next = []) {b : RecvBuffer} (hb : b.Sound)
    (hmax : b.maxRetained = cfg.settings.maxRetained) {tr : List (ClientCall W × ClientOutput W)}
    (hrun : (clientReceive W x cfg).Reaches (start cfg p₀ b) tr s)
    (hwire : b.bytes ++ wireBytes tr ++ later = r.text ++ (bodyWire x asInit e₀ produced ++ next)) :
    Responded r r.final.head.body (contentOf x asInit e₀ produced) (b.bytes ++ wireBytes tr) later next
      (observations tr) (bodyCalls tr) s := by
  obtain ⟨sent, last, p, hsent, hclosed, hvisible, hmode⟩ := haccepted.heard hres hr hn hv
  exact (inv_of_reaches hx hb hmax haccepted.awaiting hrun).responded hsent haccepted.awaiting hclosed hvisible hmode
    hwire heof fun part hpart => reads_bodyWire hblocks hn hv hnew asInit produced hfit hpart hmore heof

/-- A head that the code prepares for a body of `n` bytes. -/
def sampleHead (status : StatusCode) (method : Method) (n : ℕ) (h : n < wordSize) :
    Except EncodeError (MessagePlan ValidatedResponseHead) :=
  prepareResponseHead reference status .http11 .empty none ⟨.withExact n h, .none⟩ method sampleConfig

/-- Whether a head of the sample is these bytes with a body of this mode, and makes no upgrade. -/
def isSample (bytes : Bytes) (mode : BodyMode) (plan : MessagePlan ValidatedResponseHead) : Bool :=
  decide (plan.bytes = bytes) && decide (plan.head.body = mode) && plan.head.upgrade.isNone &&
    decide (plan.head.head.headers.iter.length ≤ 4)

def sampleInterim : Bytes := ascii "HTTP/1.1 199 \r\n\r\n"

def sampleFinal : Bytes := ascii "HTTP/1.1 200 OK\r\nContent-Length: 2\r\n\r\n"

def sampleWire : Bytes := sampleInterim ++ sampleFinal ++ (ascii "hi" ++ ascii "HT")

def sampleTransfer : List (ClientCall Unit) :=
  [samplePoll none, samplePoll none, sampleRead (sampleWire.take 30), samplePoll none, samplePoll none] ++
    sampleObserve ++
    [samplePoll none, samplePoll none, sampleRead (sampleWire.drop 30), samplePoll none, samplePoll none] ++
    sampleObserve ++
    [samplePoll none, samplePoll none, .body .nextFrame, .body (.pollNext ()), samplePoll none, samplePoll none,
      .body (.pollNext ()), .body .dropNext, samplePoll none, samplePoll none]

def isComplete (s : ClientReceive Unit) : Bool :=
  match s.point with
  | .returned (.ok ⟨.complete, _, _⟩) => true
  | _ => false

theorem sample_response (p₀ : ExchangePolicy) (status : StatusCode) (text : Bytes) (hphase : p₀.phase = .awaitingHead)
    (hroom : p₀.informational + 1 ≤ p₀.maxInformational) (hinterim : status.isInterim = true) (hlen : text.length ≤ 64)
    (hfirst : (sampleHead status .get 0 zero_lt_wordSize).toOption.any (isSample text .none) = true)
    (hlast : (sampleHead .ok p₀.method 2 two_lt_wordSize).toOption.any (isSample sampleFinal (.fixed 2)) = true) :
    ∃ r : SentResponse, r.text = text ++ sampleFinal ∧ r.heads.length = 2 ∧ r.final.head.body = .fixed 2 ∧
      r.Accepted reference sampleClient p₀ := by
  have hplan {made : Except EncodeError (MessagePlan ValidatedResponseHead)} {bytes : Bytes} {mode : BodyMode}
      (hlen : bytes.length ≤ 64) (h : made.toOption.any (isSample bytes mode) = true) :
      ∃ plan, made = .ok plan ∧ plan.bytes = bytes ∧ plan.head.body = mode ∧ plan.head.upgrade = none ∧
        HeadFits reference sampleClient.settings.head plan.bytes plan.head.head.headers := by
    cases made with
    | error e => cases h
    | ok plan =>
      simp only [Except.toOption, Option.any_some, isSample, Bool.and_eq_true, decide_eq_true_eq,
        Option.isNone_iff_eq_none] at h
      obtain ⟨⟨⟨hbytes, hmode⟩, hnone⟩, hfew⟩ := h
      exact ⟨plan, rfl, hbytes, hmode, hnone, hbytes ▸ hlen, hfew, by simp [reference]; omega⟩
  obtain ⟨interim, hmade, hbytes, -, -, hfits⟩ := hplan hlen hfirst
  obtain ⟨final, hmade', hbytes', hmode, hnone, hfits'⟩ := hplan (by decide) hlast
  refine ⟨⟨[interim], final⟩, by simp [SentResponse.text, SentResponse.heads, hbytes, hbytes'], rfl, hmode,
    fun plan hmem => ?_, ⟨hfits', .ok, .http11, .empty, none, ⟨.withExact 2 two_lt_wordSize, .none⟩, sampleConfig,
      by decide, hmade'⟩, hnone, hroom, hphase⟩
  obtain rfl := List.mem_singleton.mp hmem
  exact ⟨hfits, status, .http11, .empty, none, sampleConfig, hinterim, hmade⟩

theorem sample_encoder {r : SentResponse} (hmode : r.final.head.body = .fixed 2) :
    BodyEncoder.new r.final.head.body ⟨.withExact 2 two_lt_wordSize, .none⟩ sampleConfig =
      .ok ⟨.fixed, 1024, true, 2, some 2, .none⟩ := by
  rw [hmode]
  rfl

/-- The first read ends inside the final head; the second one has two bytes of what follows. -/
theorem response_transfer_interim :
    ∃ (r : SentResponse) (result : ReceivedResponse) (tr : List (ClientCall Unit × ClientOutput Unit))
      (s : ClientReceive Unit), r.text = sampleInterim ++ sampleFinal ∧ r.heads.length = 2 ∧
      (clientReceive Unit reference sampleClient).Reaches (start sampleClient sampleGetPolicy sampleBuffer) tr s ∧
      s.point = .returned (.ok result) ∧
      (observedEvents (observations tr)).map (·.message.visible) = r.heads.map (·.visible) ∧
      (∃ ds, takenBy (BodyPipe.pipeTrace (bodyCalls tr)) = ds.map .data ∧ payloadOf ds = ascii "hi") ∧
      result.buffer = ascii "HT" := by
  obtain ⟨r, htext, htwo, hmode, haccepted⟩ := sample_response sampleGetPolicy ⟨199, by decide⟩ sampleInterim
    rfl (by decide) (by decide) (by decide) (by decide +kernel) (by decide +kernel)
  obtain ⟨tr, s, hrun, -, htest⟩ := sample_reaches sampleTransfer
    (fun tr s => decide (wireBytes tr = sampleWire) && s.isComplete) (by decide +kernel)
  simp only [Bool.and_eq_true, decide_eq_true_eq] at htest
  obtain ⟨hwire, hreturned⟩ := htest
  obtain ⟨result, hpoint, hended⟩ : ∃ result, s.point = .returned (.ok result) ∧ result.ended = .complete := by
    unfold isComplete at hreturned
    split at hreturned
    · rename_i buffer policy hpoint
      exact ⟨⟨.complete, buffer, policy⟩, hpoint, rfl⟩
    · cases hreturned
  let produced : List (Produced Bytes Unit) := [.frame (.data (ascii "hi")), .finished]
  have hsent : sampleBuffer.bytes ++ wireBytes tr ++ [] =
      r.text ++ (bodyWire reference id ⟨.fixed, 1024, true, 2, some 2, .none⟩ produced ++ ascii "HT") := by
    rw [hwire, htext]
    decide
  have hresponded := response_transfer Reference.headersWithin Reference.responseHeads Reference.plainReasons
    Reference.foldsNames Reference.keepsValues Reference.headerBlocks haccepted (sample_encoder hmode) id produced
    (by simp [hmode]) (by decide) (by simp [hmode]) sampleBuffer_sound rfl hrun hsent
  obtain ⟨hheads, -, ds, htaken, hpayload, hbehind⟩ := hresponded.complete result hpoint hended (by simp [hmode])
  refine ⟨r, result, tr, s, htext, htwo, hrun, hpoint, hheads, ⟨ds, ?_, hpayload⟩, by simpa using hbehind⟩
  rw [htaken]
  simp [hmode, BodyMode.receives]

end ClientReceive

end Vakya
