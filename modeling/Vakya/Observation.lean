import Vakya.ReceiveLoop

/-!
# What is observed of a response

An application that takes the events of its exchange takes the heads of the response in the order of
the wire, whatever the reads look like and whatever else goes on. The driver of the body stands
right behind the final head.
-/

namespace Vakya

open Library

variable {x : Crates} {W : Type} {cfg : ClientConfig} {p₀ : ExchangePolicy}

namespace ClientReceive

variable {wire consumed rest : Bytes} {heads : List ValidatedResponseHead}
  {calls : List (EventCall W × EventCallOutput W)} {rs : List EventResult}
  {btr : List (BodyCall W × BodyOutput W)} {s s' : ClientReceive W} {out : ClientOutput W}

/-- Nothing but the channel's consumer moves, and what it takes was in the slot. -/
structure Consumed (s : ClientReceive W) (calls more : List (EventCall W × EventCallOutput W))
    (channel : EventChannel W) : Prop where
  producer : channel.producer = s.pending.channel.producer
  producing : channel.producing = s.pending.channel.producing
  passed : passedEvents more = []
  endings : endings more = []
  taken : s.pending.channel.producing = none → takenEvents more = []
  balanced : Balanced (channelEvents calls) s.pending.channel → Balanced (channelEvents (calls ++ more)) channel

theorem Stage.consume (h : Stage x cfg heads rest calls btr s) {more : List (EventCall W × EventCallOutput W)}
    {pending : PendingResponse W} (hmore : Consumed s calls more pending.channel) (control : Control W)
    (gate : ContinueGate W) : Stage x cfg heads rest (calls ++ more) btr { s with pending, control, gate } := by
  have hfree : pending.channel.producerFree = s.pending.channel.producerFree := by
    rw [Channel.producerFree, Channel.producerFree, hmore.producer, hmore.producing]
  have hlistening (hl : Listening cfg rest calls btr s) {point : ClientPoint} :
      Listening cfg rest (calls ++ more) btr { s with pending, control, gate, point } :=
    ⟨hl.awaiting, hl.no_body, hl.sound, hl.retains, hl.parser, hmore.balanced hl.balanced⟩
  have hoffering {point : ClientPoint} (hoffer : s.Offering) :
      Offering { s with pending, control, gate, point } := by
    obtain ⟨lifecycle, hf⟩ := hoffer
    exact ⟨lifecycle, hmore.producing.trans hf⟩
  have hsame (hnone : s.pending.channel.producing = none) : takenEvents (calls ++ more) = takenEvents calls ∧
      passedEvents (calls ++ more) = passedEvents calls := by
    simp [hmore.taken hnone, hmore.passed]
  have htold {point : ClientPoint} (ht : Told calls s) :
      Told (calls ++ more) { s with pending, control, gate, point } := by
    obtain ⟨htaken, hpassed⟩ := hsame ht.1
    refine ⟨hmore.producing.trans ht.1, ?_⟩
    rw [htaken, hpassed]
    exact ht.2
  have hspent (ht : Spent heads calls s.pending.channel) :
      Spent heads (calls ++ more) pending.channel := by
    obtain ⟨htaken, hpassed⟩ := hsame ht.idle
    refine ⟨hmore.producing.trans ht.idle, ?_, ?_⟩
    · rw [Trailing, htaken, hpassed]
      exact ht.trailing
    · rw [PendingResponse.endings_append, hmore.endings, List.append_nil, htaken, hpassed]
      exact ht.closed
  unfold Stage at h ⊢
  cases hpoint : s.point with
  | start | top =>
    simp only [hpoint] at h ⊢
    exact ⟨hlistening h.1, hfree.trans h.2.1, h.2.2⟩
  | reading =>
    simp only [hpoint] at h ⊢
    exact ⟨hlistening h.1, hfree.trans h.2.1, h.2.2⟩
  | informing =>
    simp only [hpoint] at h ⊢
    exact ⟨hlistening h.1, hoffering h.2.1, h.2.2⟩
  | finalizing =>
    simp only [hpoint] at h ⊢
    exact ⟨hmore.balanced h.1, hoffering h.2.1, h.2.2⟩
  | receiving =>
    simp only [hpoint] at h ⊢
    exact ⟨htold h.1, h.2⟩
  | returned result =>
    cases result with
    | ok r =>
      simp only [hpoint] at h ⊢
      exact ⟨htold h.1, h.2⟩
    | error e =>
      simp only [hpoint] at h ⊢
      exact ⟨hspent h.1, h.2⟩
  | dropped =>
    simp only [hpoint] at h ⊢
    exact ⟨hspent h.1, h.2⟩

theorem Stage.lease (h : Stage x cfg heads rest calls btr s) (hbody : s.body = none) (granted : ℕ) :
    Stage x cfg heads rest calls btr { s with owner := s.owner.setPermit ⟨false, granted⟩ } := by
  have hidle {b : RecvBuffer} (hb : s.owner = .idle b) :
      s.owner.setPermit ⟨false, granted⟩ = .idle { b with managedPermit := some ⟨false, granted⟩ } := by
    rw [hb]
    rfl
  have hlistening (hl : Listening cfg rest calls btr s) {point : ClientPoint} :
      Listening cfg rest calls btr { s with owner := s.owner.setPermit ⟨false, granted⟩, point } := by
    obtain ⟨hsound, hbytes, -⟩ := Receiving.setPermit_spec hl.sound granted
    exact ⟨hl.awaiting, hl.no_body, hsound, hbytes.trans hl.retains, hl.parser, hl.balanced⟩
  have hfinalized (hf : Finalized x cfg heads rest btr s) {point : ClientPoint} :
      Finalized x cfg heads rest btr { s with owner := s.owner.setPermit ⟨false, granted⟩, point } := by
    obtain ⟨before, final, hheads, hlast, ⟨-, hpromise, hbtr, hsound, b, hb, hbytes⟩ | ⟨driver, _, _, hsome, -⟩⟩ := hf
    · obtain ⟨hsound', -⟩ := Receiving.setPermit_spec hsound granted
      exact ⟨before, final, hheads, hlast, .inl ⟨hbody, hpromise, hbtr, hsound', _, hidle hb, hbytes⟩⟩
    · rw [hbody] at hsome
      cases hsome
  unfold Stage at h ⊢
  cases hpoint : s.point with
  | start | top =>
    simp only [hpoint] at h ⊢
    obtain ⟨hl, hfree, ⟨b, hb⟩, hseen⟩ := h
    exact ⟨hlistening hl, hfree, ⟨_, hidle hb⟩, hseen⟩
  | reading =>
    simp only [hpoint] at h ⊢
    exact ⟨hlistening h.1, h.2⟩
  | informing =>
    simp only [hpoint] at h ⊢
    obtain ⟨hl, hoffer, ⟨b, hb⟩, hscan⟩ := h
    exact ⟨hlistening hl, hoffer, ⟨_, hidle hb⟩, hscan⟩
  | finalizing =>
    simp only [hpoint] at h ⊢
    exact ⟨h.1, h.2.1, hfinalized h.2.2⟩
  | receiving =>
    simp only [hpoint] at h ⊢
    exact ⟨h.1, hfinalized h.2⟩
  | returned result =>
    cases result with
    | error e =>
      simp only [hpoint] at h ⊢
      exact ⟨h.1, .inl hbody⟩
    | ok r =>
      simp only [hpoint] at h ⊢
      obtain ⟨htold, hf, hpolicy, ⟨-, hended, hbytes⟩ | ⟨driver, hsome, -⟩⟩ := h
      · obtain ⟨-, -, -, -, ⟨-, -, -, hsound, -⟩ | ⟨driver, _, _, hsome, -⟩⟩ := id hf
        · obtain ⟨-, hsame, -⟩ := Receiving.setPermit_spec hsound granted
          exact ⟨htold, hfinalized hf, hpolicy, .inl ⟨hbody, hended, hsame.trans hbytes⟩⟩
        · rw [hbody] at hsome
          cases hsome
      · rw [hbody] at hsome
        cases hsome
  | dropped =>
    simp only [hpoint] at h ⊢
    exact ⟨h.1, .inl hbody⟩

theorem Stage.driver (h : Stage x cfg heads rest calls btr s) {driver driver' : Receiver W} (hbody : s.body = some driver)
    {more : List (BodyCall W × BodyOutput W)} (hpoint' : driver'.point = driver.point)
    (hbytes : driver'.owner.bytes = driver.owner.bytes)
    (hstep : ∀ final size trailers, Receiver.Inv (cfg.reception x final size trailers) rest btr driver →
      Receiver.Inv (cfg.reception x final size trailers) rest (btr ++ more) driver') :
    Stage x cfg heads rest calls (btr ++ more) { s with body := some driver' } := by
  have hlistening {P : Prop} (hl : Listening cfg rest calls btr s) : P := by
    have hnone := hl.no_body.1
    rw [hbody] at hnone
    cases hnone
  have hfinalized (hf : Finalized x cfg heads rest btr s) {point : ClientPoint} :
      Finalized x cfg heads rest (btr ++ more) { s with body := some driver', point } := by
    obtain ⟨before, final, hheads, hlast, ⟨hnone, -⟩ | ⟨_, size, trailers, hsome, hpromise, hinv⟩⟩ := hf
    · rw [hbody] at hnone
      cases hnone
    · rw [hbody] at hsome
      cases hsome
      exact ⟨before, final, hheads, hlast, .inr ⟨driver', size, trailers, rfl, hpromise, hstep _ _ _ hinv⟩⟩
  have hleft (hl : Left x cfg heads rest btr s) {point : ClientPoint} :
      Left x cfg heads rest (btr ++ more) { s with body := some driver', point } := by
    rcases hl with hnone | ⟨before, final, _, size, trailers, hheads, hlast, hsome, hpromise, hinv⟩
    · rw [hbody] at hnone
      cases hnone
    · rw [hbody] at hsome
      cases hsome
      exact .inr ⟨before, final, driver', size, trailers, hheads, hlast, rfl, hpromise, hstep _ _ _ hinv⟩
  unfold Stage at h ⊢
  cases hpoint : s.point with
  | start | top | reading | informing =>
    simp only [hpoint] at h
    exact hlistening h.1
  | finalizing =>
    simp only [hpoint] at h ⊢
    exact ⟨h.1, h.2.1, hfinalized h.2.2⟩
  | receiving =>
    simp only [hpoint] at h ⊢
    exact ⟨h.1, hfinalized h.2⟩
  | returned result =>
    cases result with
    | error e =>
      simp only [hpoint] at h ⊢
      exact ⟨h.1, hleft h.2⟩
    | ok r =>
      simp only [hpoint] at h ⊢
      obtain ⟨htold, hf, hpolicy, ⟨hnone, -⟩ | ⟨_, hsome, hended, hbuffer⟩⟩ := h
      · rw [hbody] at hnone
        cases hnone
      · rw [hbody] at hsome
        cases hsome
        exact ⟨htold, hfinalized hf, hpolicy, .inr ⟨driver', rfl, hpoint'.trans hended, by rw [hbytes]; exact hbuffer⟩⟩
  | dropped =>
    simp only [hpoint] at h ⊢
    exact ⟨h.1, hleft h.2⟩

theorem Stage.parts (h : Stage x cfg heads rest calls btr s) (hinv : s.pending.Inv calls rs) :
    Trailing calls ∧ Left x cfg heads rest btr s ∧
      ((s.point = .informing ∨ s.point = .finalizing) ∧ s.Offering ∨
        (s.point ≠ .informing ∧ s.point ≠ .finalizing) ∧ Spent heads calls s.pending.channel) := by
  have hsound := hinv.sound
  have htold (ht : Told calls s) (hf : Finalized x cfg heads rest btr s) :
      Spent heads calls s.pending.channel := by
    obtain ⟨before, final, hheads, hlast, -⟩ := hf
    exact ⟨ht.1, ht.trailing, fun _ => ⟨ht.2, before, final, hheads, hlast⟩⟩
  unfold Stage at h
  cases hpoint : s.point with
  | start | top | reading =>
    simp only [hpoint] at h
    obtain ⟨hl, hfree, -⟩ := h
    have hspent : Spent heads calls s.pending.channel := hl.spent hinv hfree
    exact ⟨hspent.trailing, hl.left, .inr ⟨by simp, hspent⟩⟩
  | informing =>
    simp only [hpoint] at h
    exact ⟨trailing_of_balanced hsound h.1.balanced, h.1.left, .inl ⟨.inl rfl, h.2.1⟩⟩
  | finalizing =>
    simp only [hpoint] at h
    exact ⟨trailing_of_balanced hsound h.1, h.2.2.left, .inl ⟨.inr rfl, h.2.1⟩⟩
  | receiving =>
    simp only [hpoint] at h
    exact ⟨h.1.trailing, h.2.left, .inr ⟨by simp, htold h.1 h.2⟩⟩
  | returned result =>
    cases result with
    | ok r =>
      simp only [hpoint] at h
      exact ⟨h.1.trailing, h.2.1.left, .inr ⟨by simp, htold h.1 h.2.1⟩⟩
    | error e =>
      simp only [hpoint] at h
      exact ⟨h.1.trailing, h.2, .inr ⟨by simp, h.1⟩⟩
  | dropped =>
    simp only [hpoint] at h
    exact ⟨h.1.trailing, h.2, .inr ⟨by simp, h.1⟩⟩

theorem Spent.ended {c channel : EventChannel W} (h : Spent heads calls c) {call : EventCall W} {o : EventCallOutput W}
    (hcall : call.ending ≠ some .closed) (hidle : channel.producing = none)
    (hpassed : passedEvents (calls ++ [(call, o)]) = passedEvents calls)
    (htaken : takenEvents (calls ++ [(call, o)]) = takenEvents calls) :
    Spent heads (calls ++ [(call, o)]) channel := by
  refine ⟨hidle, ?_, fun hclosed => ?_⟩
  · rw [Trailing, hpassed, htaken]
    exact h.trailing
  · rw [PendingResponse.endings_append, List.mem_append] at hclosed
    rw [hpassed, htaken]
    rcases hclosed with hclosed | hclosed
    · exact h.closed hclosed
    · obtain ⟨y, hy, hend⟩ := List.mem_filterMap.mp hclosed
      rw [List.mem_singleton.mp hy] at hend
      exact absurd hend hcall

theorem dropProducer_post (hhear : Hearing x cfg p₀ wire calls rs s consumed heads rest)
    (hspent : Spent heads calls s.pending.channel) (hfree : s.pending.channel.producerFree = true)
    {bcalls : List (BodyCall W × BodyOutput W)} (hpoint : s.point = .dropped)
    (hleft : Left x cfg heads rest (btr ++ bcalls) s) :
    Post x cfg p₀ wire calls rs btr
      (s.act .dropProducer fun s _ => some (s, { ClientOutput.quiet with body := bcalls })) := by
  have hdrop : s.pending.channel.step .dropProducer = some (s.pending.channel.ended .disconnected) := by
    simp [Channel.step, hfree, Channel.dropProducer_eq hhear.pending.sound hfree]
  have hnone : (s.pending.channel.ended (.disconnected : PipeState ResponseEvent Error)).1.producing = none := by
    simp only [Channel.producerFree, Bool.and_eq_true, Option.isNone_iff_eq_none] at hfree
    unfold Channel.ended
    split_ifs <;> exact hfree.2
  generalize s.pending.channel.ended .disconnected = gone at hdrop hnone
  obtain ⟨channel, o⟩ := gone
  obtain ⟨hinv, hpassed, htaken⟩ := producer_quiet hhear.pending rfl (by simp) hdrop
  refine .act rfl hdrop ⟨_, _, rfl, ⟨consumed, heads, rest, ?_, ?_⟩, rfl, rfl⟩
  · rw [ClientOutput.quiet, List.append_nil]
    exact hhear.channel hinv hpassed
  · unfold Stage
    simp only [hpoint, ClientOutput.quiet, List.append_nil]
    exact ⟨hspent.ended (by simp [PipeCall.ending]) hnone hpassed htaken, hleft⟩

theorem drop_inv (h : Inv x cfg p₀ wire calls rs btr s) (hs : s.drop = some (s', out)) :
    Inv x cfg p₀ (wire ++ out.arrived) (calls ++ out.calls) (rs ++ out.result.toList) (btr ++ out.body) s' := by
  obtain ⟨consumed, heads, rest, hhear, hstage⟩ := h
  obtain ⟨htrailing, hleft, hparts⟩ := hstage.parts hhear.pending
  let gone : ClientReceive W := { s with owner := .lost s.owner.permit, body := s.dropBody.1, point := .dropped }
  have hhear' : Hearing x cfg p₀ wire calls rs gone consumed heads rest :=
    ⟨hhear.wire_eq, hhear.heard, hhear.passed, hhear.pending, hhear.gate⟩
  have hleft' : Left x cfg heads rest (btr ++ s.dropBody.2) gone := hleft.dropBody
  have hoffered (hoffer : s.Offering) : Post x cfg p₀ wire calls rs btr (gone.act .dropFuture fun s' _ =>
      s'.act .dropProducer fun s' _ => some (s', { ClientOutput.quiet with body := s.dropBody.2 })) := by
    obtain ⟨lifecycle, hf⟩ := hoffer
    obtain ⟨channel, o, hdrop, hnone, hproducer⟩ := drop_offer hf
    obtain ⟨hinv, hpassed, htaken⟩ := producer_quiet hhear.pending rfl (by simp) hdrop
    have hact := (hhear.pending.sound.live_of_producing hf).1
    refine .act (s := gone) rfl hdrop (dropProducer_post (hhear'.channel hinv hpassed) ?_ ?_ rfl ?_)
    · refine spent_of_live hinv ?_ hnone ?_
      · show channel.producer ≠ none
        rw [hproducer, hact]
        exact Option.some_ne_none _
      · rw [Trailing, hpassed, htaken]
        exact htrailing
    · simp [Channel.producerFree, hnone, hproducer, hact]
    · exact hleft'
  have hfreed (hspent : Spent heads calls s.pending.channel) : Post x cfg p₀ wire calls rs btr
      (if gone.pending.channel.producer.isSome then
        gone.act .dropProducer fun s' _ => some (s', { ClientOutput.quiet with body := s.dropBody.2 })
      else some (gone, { ClientOutput.quiet with body := s.dropBody.2 })) := by
    split_ifs with hproducer
    · exact dropProducer_post hhear' hspent (by simp [Channel.producerFree, hproducer, gone, hspent.idle]) rfl hleft'
    · refine ⟨_, _, rfl, ⟨consumed, heads, rest, ?_, ?_⟩, rfl, rfl⟩
      · rw [ClientOutput.quiet, List.append_nil]
        exact hhear'
      · rw [ClientOutput.quiet, List.append_nil]
        exact ⟨hspent, hleft'⟩
  unfold ClientReceive.drop at hs
  rcases hparts with ⟨hpoint | hpoint, hoffer⟩ | ⟨hpoint, hspent⟩
  · simp only [hpoint] at hs
    exact (hoffered hoffer).step hs
  · simp only [hpoint] at hs
    exact (hoffered hoffer).step hs
  · rw [show s.dropBody = (s.dropBody.1, s.dropBody.2) from rfl] at hs
    dsimp only at hs
    split at hs
    · cases hs
    · exact absurd ‹_› hpoint.1
    · exact absurd ‹_› hpoint.2
    · exact (hfreed hspent).step hs

theorem act_some {call : EventCall W} {k : ClientReceive W → PipeEvent ResponseEvent Error → Result W}
    (hc : call.isProducer = true) (h : s.act call k = some (s', out)) :
    ∃ channel o, s.pending.channel.step call = some (channel, o) := by
  simp only [ClientReceive.act, PendingResponse.step, hc, if_true, PendingResponse.act] at h
  cases hstep : s.pending.channel.step call with
  | none => simp [hstep] at h
  | some r => exact ⟨r.1, r.2, rfl⟩

theorem fail_inv (h : Inv x cfg p₀ wire calls rs btr s) {e e' : Error} (hpoint : s.point = .returned (.error e'))
    (hs : (s.act (.fail e) fun s _ => s.suspend s.point) = some (s', out)) :
    Inv x cfg p₀ (wire ++ out.arrived) (calls ++ out.calls) (rs ++ out.result.toList) (btr ++ out.body) s' := by
  obtain ⟨consumed, heads, rest, hhear, hstage⟩ := h
  simp only [Stage, hpoint] at hstage
  obtain ⟨hspent, hleft⟩ := hstage
  obtain ⟨channel, o, hfail⟩ := act_some rfl hs
  obtain ⟨hinv, hpassed, htaken⟩ := producer_quiet hhear.pending rfl (by simp) hfail
  have hnone' : channel.producing = none := by
    simp only [Channel.step] at hfail
    split_ifs at hfail with hfree
    rw [Channel.fail_eq hhear.pending.sound hfree] at hfail
    unfold Channel.ended at hfail
    split_ifs at hfail <;> cases hfail <;> exact hspent.idle
  have hhear' := hhear.channel hinv hpassed
  refine Post.step (.act rfl hfail (.suspend ⟨consumed, heads, rest, ?_, ?_⟩)) hs
  · exact ⟨hhear'.wire_eq, hhear'.heard, hhear'.passed, hhear'.pending, hhear'.gate⟩
  · simp only [Stage, hpoint]
    exact ⟨hspent.ended (by simp [PipeCall.ending]) hnone' hpassed htaken, hleft⟩

theorem Inv.control (h : Inv x cfg p₀ wire calls rs btr s) (control : Control W) (gate : ContinueGate W)
    (hgate : gate.allowed = s.gate.allowed) : Inv x cfg p₀ wire calls rs btr { s with control, gate } := by
  obtain ⟨consumed, heads, rest, hhear, hstage⟩ := h
  have hstill : Consumed s calls [] s.pending.channel :=
    ⟨rfl, rfl, rfl, rfl, fun _ => rfl, fun hbal => by rwa [List.append_nil]⟩
  have hstage' : Stage x cfg heads rest (calls ++ []) btr { s with control, gate } := hstage.consume hstill control gate
  rw [List.append_nil] at hstage'
  exact ⟨consumed, heads, rest, ⟨hhear.wire_eq, hhear.heard, hhear.passed, hhear.pending, hgate.trans hhear.gate⟩,
    hstage'⟩

theorem endings_consumer {more : List (EventCall W × EventCallOutput W)}
    (h : ∀ y ∈ more, y.1.isProducer = false) : endings more = [] := by
  apply List.filterMap_eq_nil_iff.mpr
  rintro ⟨call, o⟩ hy
  have hcall := h _ hy
  cases call <;> first | rfl | cases hcall

theorem isApplication_ne {call : PendingCall W} (h : call.isApplication = true) (c : EventCall W) :
    call ≠ .producer c := by
  rintro rfl
  cases h

theorem pending_inv (h : Inv x cfg p₀ wire calls rs btr s) {call : PendingCall W} (hcall : call.isApplication = true)
    {pending : PendingResponse W} {o : PendingOutput W} (hs : s.pending.step call = some (pending, o))
    (control : Control W) :
    Inv x cfg p₀ wire (calls ++ o.calls) (rs ++ o.result.toList) btr { s with pending, control } := by
  obtain ⟨consumed, heads, rest, hhear, hstage⟩ := h
  obtain ⟨hinv, -⟩ := hhear.pending.step hs
  obtain ⟨hreach, hcalls⟩ := PendingResponse.consumes_step (isApplication_ne hcall) pending o hs
  obtain ⟨hproducer, hproducing, hpassed, htaken, hbalanced⟩ :=
    PendingResponse.consumer_run hreach hhear.pending.sound hcalls (channelEvents calls)
  have hmore : Consumed s calls o.calls pending.channel :=
    ⟨hproducer, hproducing, hpassed, endings_consumer hcalls, htaken, fun hbal => by
      rw [channelEvents_append]
      exact hbalanced hbal⟩
  refine ⟨consumed, heads, rest, ⟨hhear.wire_eq, hhear.heard, ?_, hinv, hhear.gate⟩,
    hstage.consume hmore control s.gate⟩
  rw [passedEvents_append, hpassed, List.append_nil]
  exact hhear.passed

theorem body_quiet {rcfg : ReceiveConfig} {driver driver' : Receiver W} {i : ReceiveInput W}
    (hi : i = .releaseLease ∨ ∃ call, i = .body call) {o : ReceiveOutput W}
    (hs : driver.step x rcfg i = some (driver', o)) :
    driver'.point = driver.point ∧ driver'.owner.bytes = driver.owner.bytes ∧ o.arrived = [] := by
  rcases hi with rfl | ⟨call, rfl⟩
  · simp only [Receiver.step] at hs
    split at hs
    · cases hs
      refine ⟨rfl, ?_, rfl⟩
      cases driver.owner <;> rfl
    · cases hs
  · simp only [Receiver.step] at hs
    split_ifs at hs
    simp only [Receiver.act] at hs
    split at hs
    · cases hs
    · cases hs
      exact ⟨rfl, rfl, rfl⟩

theorem body_inv (hx : x.HeadersWithin) (h : Inv x cfg p₀ wire calls rs btr s) {driver driver' : Receiver W}
    (hbody : s.body = some driver) {i : ReceiveInput W} (hi : i = .releaseLease ∨ ∃ call, i = .body call)
    {o : ReceiveOutput W} (hs : driver.step x cfg.settings.bodies i = some (driver', o)) :
    Inv x cfg p₀ wire calls rs (btr ++ o.body) { s with body := some driver' } := by
  obtain ⟨consumed, heads, rest, hhear, hstage⟩ := h
  obtain ⟨hpoint, hbytes, harr⟩ := body_quiet hi hs
  refine ⟨consumed, heads, rest, ⟨hhear.wire_eq, hhear.heard, hhear.passed, hhear.pending, hhear.gate⟩,
    hstage.driver hbody hpoint hbytes ?_⟩
  intro final size trailers hinv
  obtain ⟨hinv', -⟩ := hinv.step hx hs
  rwa [harr, List.append_nil] at hinv'

/-- Every step of `receive` and around it. -/
theorem Inv.step (hx : x.HeadersWithin) (h : Inv x cfg p₀ wire calls rs btr s) {i : ClientCall W}
    (hs : s.step x cfg i = some (s', out)) :
    Inv x cfg p₀ (wire ++ out.arrived) (calls ++ out.calls) (rs ++ out.result.toList) (btr ++ out.body) s' := by
  -- What neither reads nor returns anything.
  have hquiet {s₁ : ClientReceive W} (h₁ : Inv x cfg p₀ wire calls rs btr s₁) : Inv x cfg p₀ (wire ++ [])
      (calls ++ []) (rs ++ (none : Option EventResult).toList) (btr ++ []) s₁ := by
    simpa only [List.append_nil, Option.toList_none] using h₁
  cases i with
  | poll p => exact h.poll hx p hs
  | drop => exact drop_inv h hs
  | cancel | abort | uploaded =>
    cases hs
    exact hquiet (h.control _ s.gate rfl)
  | dropContinue =>
    cases hs
    exact hquiet (h.control s.control _ rfl)
  | pollContinue w =>
    cases hs
    refine hquiet (h.control s.control (s.gate.poll w).1 ?_)
    unfold ContinueGate.poll
    split_ifs <;> rfl
  | fail e =>
    simp only [ClientReceive.step] at hs
    split at hs
    · rename_i e' hpoint
      exact fail_inv h hpoint hs
    · cases hs
  | pending call =>
    simp only [ClientReceive.step] at hs
    split_ifs at hs with hcall
    obtain ⟨⟨pending, o⟩, hstep, heq⟩ := Option.map_eq_some_iff.mp hs
    cases heq
    simpa only [ClientOutput.quiet, List.append_nil] using pending_inv h hcall hstep _
  | body call =>
    simp only [ClientReceive.step] at hs
    split at hs
    · rename_i driver hbody
      split_ifs at hs
      obtain ⟨⟨driver', o⟩, hstep, heq⟩ := Option.map_eq_some_iff.mp hs
      cases heq
      simpa only [ClientOutput.quiet, List.append_nil, Option.toList_none] using
        body_inv hx h hbody (.inr ⟨call, rfl⟩) hstep
    · cases hs
  | releaseLease =>
    simp only [ClientReceive.step, ClientReceive.releaseLease] at hs
    split at hs
    · rename_i driver hbody
      obtain ⟨⟨driver', o⟩, hstep, heq⟩ := Option.map_eq_some_iff.mp hs
      cases heq
      have hinv := body_inv hx h hbody (.inl rfl) hstep
      have hnone : o.body = [] := by
        simp only [Receiver.step] at hstep
        split at hstep <;> cases hstep
        rfl
      rw [hnone, List.append_nil] at hinv
      exact hquiet hinv
    · rename_i hbody
      split at hs
      · rename_i granted hpermit
        cases hs
        obtain ⟨consumed, heads, rest, hhear, hstage⟩ := h
        refine hquiet ⟨consumed, heads, rest, ?_, hstage.lease hbody granted⟩
        exact ⟨hhear.wire_eq, hhear.heard, hhear.passed, hhear.pending, hhear.gate⟩
      · cases hs

/-- All operations on the response channel are of one kind; the hold of the application on the
response, the control of the exchange and the permission to go on are left alone. -/
structure Driven (P : EventCall W → Prop) (s s' : ClientReceive W) (out : ClientOutput W) : Prop where
  calls : ∀ y ∈ out.calls, P y.1
  held : s'.pending.held = s.pending.held
  delivered : s'.pending.delivered = s.pending.delivered
  control : s'.control = s.control
  gate : s'.gate = s.gate
  woke : out.woke = none
  permitted : out.permitted = false

def Drives (P : EventCall W → Prop) (s : ClientReceive W) (r : Result W) : Prop :=
  ∀ s' out, r = some (s', out) → Driven P s s' out

def Allows (P : EventCall W → Prop) (s : ClientReceive W) (r : Result W) : Prop :=
  ∀ s' out, r = some (s', out) → Driven P s s' out ∨
    out.woke = s.gate.waker ∧ Driven P { s with gate := ⟨true, none⟩ } s' { out with woke := none }

namespace Drives

variable {P : EventCall W → Prop}

theorem nothing : Drives P s (none : Result W) := by
  intro s' out h
  cases h

theorem allows {r : Result W} (h : Drives P s r) : Allows P s r := by
  intro s' out heq
  exact .inl (h s' out heq)

theorem suspend {point : ClientPoint} : Drives P s (s.suspend point) := by
  intro s' out h
  cases h
  exact ⟨fun y hy => (by cases hy), rfl, rfl, rfl, rfl, rfl, rfl⟩

theorem fail {e : Error} : Drives P s (s.fail e) := by
  intro s' out h
  cases h
  exact ⟨fun y hy => (by cases hy), rfl, rfl, rfl, rfl, rfl, rfl⟩

theorem act {call : EventCall W} {k : ClientReceive W → PipeEvent ResponseEvent Error → Result W} (hcall : P call)
    (hk : ∀ channel e, Drives P { s with pending := { s.pending with channel } }
      (k { s with pending := { s.pending with channel } } e)) : Drives P s (s.act call k) := by
  intro s' out h
  simp only [ClientReceive.act, PendingResponse.step, PendingResponse.act] at h
  split_ifs at h
  cases hstep : s.pending.channel.step call with
  | none => simp [hstep] at h
  | some r =>
    obtain ⟨channel, o⟩ := r
    simp only [hstep, PendingResponse.ready, Option.map_some] at h
    obtain ⟨⟨s₁, out₁⟩, hrest, heq⟩ := Option.map_eq_some_iff.mp h
    cases heq
    obtain ⟨hcalls, hheld, hdelivered, hcontrol, hgate, hwoke, hpermitted⟩ := hk channel _ s₁ out₁ hrest
    refine ⟨fun y hy => ?_, hheld, hdelivered, hcontrol, hgate, hwoke, hpermitted⟩
    rcases List.mem_cons.mp hy with rfl | hy
    · exact hcall
    · exact hcalls y hy

theorem offerEvent {event : ResponseEvent} {point : ClientPoint} (hoffer : P (.offer event)) :
    Drives P s (s.offerEvent event point) := act hoffer fun _ _ => suspend

theorem finalize (hoffer : ∀ event, P (.offer event)) {b : RecvBuffer} {head : ValidatedResponseHead} :
    Drives P s (s.finalize cfg b head) := by
  unfold ClientReceive.finalize
  split
  · split
    · exact offerEvent (hoffer _)
    · rename_i size trailers _
      intro s' out h
      have hoffered := offerEvent (P := P) (hoffer (.final head.head (some (size, trailers)))) s' out h
      exact ⟨hoffered.calls, hoffered.held, hoffered.delivered, hoffered.control, hoffered.gate, hoffered.woke,
        hoffered.permitted⟩
  · exact fail

theorem pollReading {p : ClientPoll W} : Drives P s (s.pollReading cfg p) := by
  have arrived {s₁ : ClientReceive W} {r : Result W} (hr : Drives P s₁ r) (arrived : Bytes) :
      Drives P s₁ (r.map fun y => (y.1, { y.2 with arrived })) := by
    intro s' out h
    obtain ⟨⟨s₂, out₂⟩, hrest, heq⟩ := Option.map_eq_some_iff.mp h
    cases heq
    obtain ⟨hcalls, hheld, hdelivered, hcontrol, hgate, hwoke, hpermitted⟩ := hr s₂ out₂ hrest
    exact ⟨hcalls, hheld, hdelivered, hcontrol, hgate, hwoke, hpermitted⟩
  have owned {owner : BufferOwner} {r : Result W} (hr : Drives P { s with owner } r) : Drives P s r := by
    intro s' out h
    obtain ⟨hcalls, hheld, hdelivered, hcontrol, hgate, hwoke, hpermitted⟩ := hr s' out h
    exact ⟨hcalls, hheld, hdelivered, hcontrol, hgate, hwoke, hpermitted⟩
  unfold ClientReceive.pollReading
  split
  · exact nothing
  · exact nothing
  · exact owned suspend
  · apply owned
    apply arrived
    split
    · exact fail
    · exact fail
    · exact suspend

theorem pollOffer (hpoll : ∀ w, P (.pollProducer w)) (hdrop : P .dropFuture) {p : ClientPoll W} {timed : Bool}
    {k : ClientReceive W → Result W} (hk : ∀ s, Drives P s (k s)) : Drives P s (s.pollOffer cfg p timed k) := by
  unfold ClientReceive.pollOffer
  split_ifs
  · exact act hdrop fun _ _ => fail
  · exact act hdrop fun _ _ => fail
  · apply act (hpoll _)
    intro channel e
    split
    · exact act hdrop fun _ _ => hk _
    · exact act hdrop fun _ _ => fail
    · exact suspend

theorem handOver (hclose : P .close) : Drives P s s.handOver := by
  apply act hclose
  intro channel e
  split
  · exact suspend
  · intro s' out h
    cases h
    exact ⟨fun y hy => (by cases hy), rfl, rfl, rfl, rfl, rfl, rfl⟩
  · exact nothing

theorem pollBody {p : ClientPoll W} : Drives P s (s.pollBody x cfg p) := by
  unfold ClientReceive.pollBody
  split
  · exact nothing
  · rename_i driver _
    intro s' out h
    obtain ⟨⟨driver', o⟩, -, heq⟩ := Option.map_eq_some_iff.mp h
    cases heq
    unfold settleBody
    split <;> exact ⟨fun y hy => (by cases hy), rfl, rfl, rfl, rfl, rfl, rfl⟩

theorem drop (hdrop : P .dropFuture) (hgone : P .dropProducer) : Drives P s s.drop := by
  have left {body : Option (Receiver W)} {owner : BufferOwner} {point : ClientPoint} {r : Result W}
      (hr : Drives P { s with owner, body, point } r) : Drives P s r := by
    intro s' out h
    obtain ⟨hcalls, hheld, hdelivered, hcontrol, hgate, hwoke, hpermitted⟩ := hr s' out h
    exact ⟨hcalls, hheld, hdelivered, hcontrol, hgate, hwoke, hpermitted⟩
  have done {s : ClientReceive W} (bcalls : List (BodyCall W × BodyOutput W)) :
      Drives P s (some (s, { ClientOutput.quiet with body := bcalls })) := by
    intro s' out h
    cases h
    exact ⟨fun y hy => (by cases hy), rfl, rfl, rfl, rfl, rfl, rfl⟩
  unfold ClientReceive.drop
  split
  split
  · exact nothing
  · exact left (act hdrop fun _ _ => act hgone fun _ _ => done _)
  · exact left (act hdrop fun _ _ => act hgone fun _ _ => done _)
  · dsimp only
    split_ifs
    · exact left (act hgone fun _ _ => done _)
    · exact left (done _)

end Drives

namespace Allows

variable {P : EventCall W → Prop}

theorem accept (hoffer : ∀ event, P (.offer event)) {b : RecvBuffer} {head : ValidatedResponseHead}
    {action : HeadAction} : Allows P s (s.accept cfg b head action) := by
  have given {r : Result W} (hr : Drives P { s with gate := ⟨true, none⟩ } r) :
      Allows P s (waking s.gate.waker r) := by
    intro s' out h
    obtain ⟨⟨s₁, out₁⟩, hrest, heq⟩ := Option.map_eq_some_iff.mp h
    cases heq
    obtain ⟨hcalls, hheld, hdelivered, hcontrol, hgate, hwoke, hpermitted⟩ := hr s' out₁ hrest
    exact .inr ⟨rfl, hcalls, hheld, hdelivered, hcontrol, hgate, rfl, hpermitted⟩
  have kept {r : Result W} (hr : Drives P s r) : Allows P s (waking none r) := by
    intro s' out h
    obtain ⟨⟨s₁, out₁⟩, hrest, heq⟩ := Option.map_eq_some_iff.mp h
    cases heq
    obtain ⟨hcalls, hheld, hdelivered, hcontrol, hgate, hwoke, hpermitted⟩ := hr s' out₁ hrest
    exact .inl ⟨hcalls, hheld, hdelivered, hcontrol, hgate, rfl, hpermitted⟩
  unfold ClientReceive.accept
  split
  · split_ifs
    · exact given (.offerEvent (hoffer _))
    · exact kept (.offerEvent (hoffer _))
  · exact given (.finalize hoffer)
  · exact given (.finalize hoffer)

theorem scanned (parser : HeadParser) (policy : ExchangePolicy) (owner : BufferOwner) {r : Result W}
    (h : Allows P { s with parser, policy, owner } r) : Allows P s r := by
  intro s' out heq
  rcases h s' out heq with hd | ⟨hwoke, hd⟩
  · exact .inl ⟨hd.calls, hd.held, hd.delivered, hd.control, hd.gate, hd.woke, hd.permitted⟩
  · exact .inr ⟨hwoke, hd.calls, hd.held, hd.delivered, hd.control, hd.gate, hd.woke, hd.permitted⟩

theorem scan (hoffer : ∀ event, P (.offer event)) {b : RecvBuffer} {expired : Bool} :
    Allows P s (s.scan x cfg b expired) := by
  unfold ClientReceive.scan
  split_ifs
  · exact Drives.fail.allows
  · split
    · exact scanned _ s.policy s.owner Drives.fail.allows
    · exact scanned _ s.policy s.owner Drives.suspend.allows
    · split
      · exact scanned _ s.policy s.owner Drives.fail.allows
      · split
        · exact scanned _ s.policy s.owner Drives.fail.allows
        · split
          · exact scanned _ _ s.owner Drives.fail.allows
          · exact scanned _ _ _ (accept hoffer)

theorem poll (hoffer : ∀ event, P (.offer event)) (hpoll : ∀ w, P (.pollProducer w)) (hdrop : P .dropFuture)
    (hclose : P .close) {p : ClientPoll W} : Allows P s (s.poll x cfg p) := by
  unfold ClientReceive.poll
  split
  · split_ifs
    · exact Drives.fail.allows
    · exact Drives.suspend.allows
  · exact scan hoffer
  · exact Drives.nothing.allows
  · exact Drives.pollReading.allows
  · exact (Drives.pollOffer hpoll hdrop fun _ => .suspend).allows
  · exact (Drives.pollOffer hpoll hdrop fun _ => .handOver hclose).allows
  · exact Drives.pollBody.allows
  · exact Drives.nothing.allows
  · exact Drives.nothing.allows

theorem calls_of {r : Result W} (h : Allows P s r) (hr : r = some (s', out)) : ∀ y ∈ out.calls, P y.1 := by
  rcases h s' out hr with hd | ⟨-, hd⟩
  · exact hd.calls
  · exact hd.calls

end Allows

theorem allows_poll (p : ClientPoll W) : Allows (fun c => c.ending = none ∨ c = .close) s (s.poll x cfg p) := by
  apply Allows.poll
  · exact fun _ => .inl rfl
  · exact fun _ => .inl rfl
  · exact .inl rfl
  · exact .inr rfl

theorem drives_drop : Drives (fun c => c = .dropFuture ∨ c = .dropProducer) s s.drop := .drop (.inl rfl) (.inr rfl)

/-- The channel is closed by `receive` alone, ended with an error by the failure of the exchange, and
left without a producer by its destructor. -/
theorem ending_of_step {i : ClientCall W} (hs : s.step x cfg i = some (s', out)) {t : PipeState ResponseEvent Error}
    (ht : t ∈ endings out.calls) : t = .closed ∨ (∃ e, t = .failed e ∧ i = .fail e) ∨ t = .disconnected ∧ i = .drop := by
  obtain ⟨y, hy, hend⟩ := List.mem_filterMap.mp ht
  have hnothing (hout : out.calls = []) : False := by
    rw [hout] at hy
    cases hy
  cases i with
  | poll p =>
    left
    rcases (allows_poll p).calls_of hs y hy with hnone | hclose
    · rw [hnone] at hend
      cases hend
    · rw [hclose] at hend
      exact (Option.some.inj hend).symm
  | fail e =>
    right
    left
    simp only [ClientReceive.step] at hs
    split at hs
    · have hdriven : Driven (fun c => c = .fail e) s s' out :=
        Drives.act (P := fun c => c = .fail e) rfl (fun _ _ => .suspend) s' out hs
      rw [hdriven.calls y hy] at hend
      exact ⟨e, (Option.some.inj hend).symm, rfl⟩
    · cases hs
  | drop =>
    right
    right
    rcases (drives_drop s' out hs).calls y hy with hcall | hcall
    · rw [hcall] at hend
      cases hend
    · rw [hcall] at hend
      exact ⟨(Option.some.inj hend).symm, rfl⟩
  | cancel | abort | uploaded | pollContinue w | dropContinue =>
    cases hs
    exact (hnothing rfl).elim
  | pending call =>
    simp only [ClientReceive.step] at hs
    split_ifs at hs with hcall
    obtain ⟨⟨pending, o⟩, hstep, heq⟩ := Option.map_eq_some_iff.mp hs
    cases heq
    obtain ⟨-, hcalls⟩ := PendingResponse.consumes_step (isApplication_ne hcall) pending o hstep
    rw [endings_consumer hcalls] at ht
    cases ht
  | body call =>
    simp only [ClientReceive.step] at hs
    split at hs
    · split_ifs at hs
      obtain ⟨r, -, heq⟩ := Option.map_eq_some_iff.mp hs
      cases heq
      exact (hnothing rfl).elim
    · cases hs
  | releaseLease =>
    simp only [ClientReceive.step, ClientReceive.releaseLease] at hs
    split at hs
    · obtain ⟨r, -, heq⟩ := Option.map_eq_some_iff.mp hs
      cases heq
      exact (hnothing rfl).elim
    · split at hs
      · cases hs
        exact (hnothing rfl).elim
      · cases hs

def channelCalls (tr : List (ClientCall W × ClientOutput W)) : List (EventCall W × EventCallOutput W) :=
  tr.flatMap (·.2.calls)

def observations (tr : List (ClientCall W × ClientOutput W)) : List EventResult := tr.flatMap (·.2.result.toList)

def bodyCalls (tr : List (ClientCall W × ClientOutput W)) : List (BodyCall W × BodyOutput W) :=
  tr.flatMap (·.2.body)

def wireBytes (tr : List (ClientCall W × ClientOutput W)) : Bytes := tr.flatMap (·.2.arrived)

variable {b : RecvBuffer} {tr : List (ClientCall W × ClientOutput W)}

theorem inv_start (hb : b.Sound) (hmax : b.maxRetained = cfg.settings.maxRetained)
    (hphase : p₀.phase = .awaitingHead) :
    Inv x cfg p₀ b.bytes [] [] [] (start cfg p₀ b : ClientReceive W) := by
  refine ⟨[], [], b.bytes, ⟨rfl, .nothing, rfl, PendingResponse.inv_new, rfl⟩, ?_, rfl, ⟨b, rfl⟩, [], b.bytes, rfl,
    HeadScan.follows_default, Nat.zero_le _⟩
  exact ⟨hphase, ⟨rfl, rfl⟩, ⟨hb, hmax⟩, rfl, rfl, rfl⟩

/-- Every run. -/
theorem inv_of_reaches (hx : x.HeadersWithin) (hb : b.Sound) (hmax : b.maxRetained = cfg.settings.maxRetained)
    (hphase : p₀.phase = .awaitingHead) (h : (clientReceive W x cfg).Reaches (start cfg p₀ b) tr s) :
    Inv x cfg p₀ (b.bytes ++ wireBytes tr) (channelCalls tr) (observations tr) (bodyCalls tr) s := by
  refine h.invariant (P := fun tr s => Inv x cfg p₀ (b.bytes ++ wireBytes tr) (channelCalls tr) (observations tr)
    (bodyCalls tr) s) ?_ ?_
  · simpa [wireBytes, channelCalls, observations, bodyCalls] using inv_start hb hmax hphase
  · intro tr s i s' out hinv hs
    simpa [wireBytes, channelCalls, observations, bodyCalls] using hinv.step hx hs

end ClientReceive

end Vakya
