import Vakya.Heard

/-!
# The loop of `receive`

At every suspension of `receive` the heads heard so far were offered in the order of the wire, and
what arrived behind them waits in the buffer or is the body's.
-/

namespace Vakya

open Library

variable {x : Crates} {W : Type} {cfg : ClientConfig} {p₀ : ExchangePolicy}

def ClientConfig.reception (x : Crates) (cfg : ClientConfig) (final : ValidatedResponseHead) (size : SizeHint)
    (trailers : TrailerHint) : Reception :=
  ⟨x, final.body, cfg.settings.decode, size, trailers, cfg.settings.maxRetained⟩

namespace ClientReceive

variable {wire consumed rest : Bytes} {heads : List ValidatedResponseHead}
  {calls : List (EventCall W × EventCallOutput W)} {rs : List EventResult}
  {btr : List (BodyCall W × BodyOutput W)} {s s' : ClientReceive W} {out : ClientOutput W}

/-- The heads heard so far were offered, in order, and `rest` is what arrived behind them. -/
structure Hearing (x : Crates) (cfg : ClientConfig) (p₀ : ExchangePolicy) (wire : Bytes)
    (calls : List (EventCall W × EventCallOutput W)) (rs : List EventResult) (s : ClientReceive W)
    (consumed : Bytes) (heads : List ValidatedResponseHead) (rest : Bytes) : Prop where
  wire_eq : wire = consumed ++ rest
  heard : Heard x cfg p₀ consumed heads s.policy
  passed : passedEvents calls = heads.map (·.event)
  pending : s.pending.Inv calls rs
  gate : s.gate.allowed = heads.any (·.permits)

structure Listening (cfg : ClientConfig) (rest : Bytes) (calls : List (EventCall W × EventCallOutput W))
    (btr : List (BodyCall W × BodyOutput W)) (s : ClientReceive W) : Prop where
  awaiting : s.policy.phase = .awaitingHead
  no_body : s.body = none ∧ btr = []
  sound : s.owner.Sound cfg.settings.maxRetained
  retains : s.owner.bytes = some rest
  parser : s.parser = { cfg.settings.parser with scan := s.parser.scan }
  balanced : Balanced (channelEvents calls) s.pending.channel

def Offering (s : ClientReceive W) : Prop :=
  ∃ lifecycle, s.pending.channel.producing = some (.offer lifecycle false)

def Begun (x : Crates) (cfg : ClientConfig) (final : ValidatedResponseHead) (rest : Bytes)
    (btr : List (BodyCall W × BodyOutput W)) (s : ClientReceive W) : Prop :=
  (s.body = none ∧ promise final.body = none ∧ btr = [] ∧ s.owner.Sound cfg.settings.maxRetained ∧
    ∃ b, s.owner = .idle b ∧ b.bytes = rest) ∨
  ∃ driver size trailers, s.body = some driver ∧ promise final.body = some (size, trailers) ∧
    Receiver.Inv (cfg.reception x final size trailers) rest btr driver

def Finalized (x : Crates) (cfg : ClientConfig) (heads : List ValidatedResponseHead) (rest : Bytes)
    (btr : List (BodyCall W × BodyOutput W)) (s : ClientReceive W) : Prop :=
  ∃ before final, heads = before ++ [final] ∧ final.isFinal = true ∧ Begun x cfg final rest btr s

def Left (x : Crates) (cfg : ClientConfig) (heads : List ValidatedResponseHead) (rest : Bytes)
    (btr : List (BodyCall W × BodyOutput W)) (s : ClientReceive W) : Prop :=
  s.body = none ∨ ∃ before final driver size trailers, heads = before ++ [final] ∧ final.isFinal = true ∧
    s.body = some driver ∧ promise final.body = some (size, trailers) ∧
    Receiver.Inv (cfg.reception x final size trailers) rest btr driver

def Trailing (calls : List (EventCall W × EventCallOutput W)) : Prop :=
  ∃ last, passedEvents calls = takenEvents calls ++ last ∧ last.length ≤ 1

/-- No head is offered any more, and the channel is closed only behind a final head that was taken. -/
structure Spent (heads : List ValidatedResponseHead) (calls : List (EventCall W × EventCallOutput W))
    (c : EventChannel W) : Prop where
  idle : c.producing = none
  trailing : Trailing calls
  closed : .closed ∈ endings calls → takenEvents calls = passedEvents calls ∧
    ∃ before final, heads = before ++ [final] ∧ final.isFinal = true

def Told (calls : List (EventCall W × EventCallOutput W)) (s : ClientReceive W) : Prop :=
  s.pending.channel.producing = none ∧ takenEvents calls = passedEvents calls

/-- What `receive` returned after the final head. -/
def Returns (r : ReceivedResponse) (s : ClientReceive W) : Prop :=
  r.policy = s.policy ∧
    ((s.body = none ∧ r.ended = .complete ∧ s.owner.bytes = some r.buffer) ∨
      ∃ driver, s.body = some driver ∧ driver.point = .ended r.ended ∧ r.buffer = driver.owner.bytes.getD [])

def Stage (x : Crates) (cfg : ClientConfig) (heads : List ValidatedResponseHead) (rest : Bytes)
    (calls : List (EventCall W × EventCallOutput W)) (btr : List (BodyCall W × BodyOutput W))
    (s : ClientReceive W) : Prop :=
  match s.point with
  | .start | .top => Listening cfg rest calls btr s ∧ s.pending.channel.producerFree = true ∧
      (∃ b, s.owner = .idle b) ∧ ∃ seen more, rest = seen ++ more ∧ s.parser.scan.Follows seen ∧
        seen.length ≤ cfg.settings.head.maxBytes
  | .reading => Listening cfg rest calls btr s ∧ s.pending.channel.producerFree = true ∧
      s.parser.scan.Follows rest ∧ rest.length ≤ cfg.settings.head.maxBytes
  | .informing => Listening cfg rest calls btr s ∧ s.Offering ∧ (∃ b, s.owner = .idle b) ∧
      s.parser.scan.Follows []
  | .finalizing => Balanced (channelEvents calls) s.pending.channel ∧ s.Offering ∧
      Finalized x cfg heads rest btr s
  | .receiving => Told calls s ∧ Finalized x cfg heads rest btr s
  | .returned (.ok r) => Told calls s ∧ Finalized x cfg heads rest btr s ∧ Returns r s
  | .returned (.error _) | .dropped => Spent heads calls s.pending.channel ∧ Left x cfg heads rest btr s

def Inv (x : Crates) (cfg : ClientConfig) (p₀ : ExchangePolicy) (wire : Bytes)
    (calls : List (EventCall W × EventCallOutput W)) (rs : List EventResult)
    (btr : List (BodyCall W × BodyOutput W)) (s : ClientReceive W) : Prop :=
  ∃ consumed heads rest, Hearing x cfg p₀ wire calls rs s consumed heads rest ∧ Stage x cfg heads rest calls btr s

/-- A stretch of the code that keeps the invariant, reads nothing and returns nothing to the
application. -/
def Post (x : Crates) (cfg : ClientConfig) (p₀ : ExchangePolicy) (wire : Bytes)
    (calls : List (EventCall W × EventCallOutput W)) (rs : List EventResult)
    (btr : List (BodyCall W × BodyOutput W)) (r : Result W) : Prop :=
  ∃ s out, r = some (s, out) ∧ Inv x cfg p₀ wire (calls ++ out.calls) rs (btr ++ out.body) s ∧
    out.arrived = [] ∧ out.result = none

theorem Post.step {r : Result W} (h : Post x cfg p₀ wire calls rs btr r) (hr : r = some (s', out)) :
    Inv x cfg p₀ (wire ++ out.arrived) (calls ++ out.calls) (rs ++ out.result.toList) (btr ++ out.body) s' := by
  obtain ⟨s₁, out₁, heq, hinv, harr, hres⟩ := h
  rw [heq] at hr
  cases hr
  rw [harr, hres, List.append_nil, Option.toList_none, List.append_nil]
  exact hinv

theorem Post.suspend {point : ClientPoint} (h : Inv x cfg p₀ wire calls rs btr { s with point }) :
    Post x cfg p₀ wire calls rs btr (s.suspend point) := by
  refine ⟨_, _, rfl, ?_, rfl, rfl⟩
  show Inv x cfg p₀ wire (calls ++ []) rs (btr ++ []) _
  rw [List.append_nil, List.append_nil]
  exact h

theorem Post.waking {r : Result W} (h : Post x cfg p₀ wire calls rs btr r) (woke : Option W) :
    Post x cfg p₀ wire calls rs btr (waking woke r) := by
  obtain ⟨s, out, rfl, hinv, harr, hres⟩ := h
  exact ⟨s, { out with woke }, rfl, hinv, harr, hres⟩

theorem Post.act {call : EventCall W} {channel : EventChannel W} {o : EventCallOutput W}
    {k : ClientReceive W → PipeEvent ResponseEvent Error → Result W} (hc : call.isProducer = true)
    (hs : s.pending.channel.step call = some (channel, o))
    (hk : Post x cfg p₀ wire (calls ++ [(call, o)]) rs btr (k { s with pending := { s.pending with channel } } o.event)) :
    Post x cfg p₀ wire calls rs btr (s.act call k) := by
  obtain ⟨s', out, hr, hinv, harr, hres⟩ := hk
  refine ⟨s', { out with calls := (call, o) :: out.calls }, ?_, ?_, harr, hres⟩
  · simp only [ClientReceive.act, PendingResponse.step, hc, if_true, PendingResponse.act, hs, PendingResponse.ready,
      Option.map_some, PendingOutput.event, hr, List.cons_append, List.nil_append]
  · rw [List.append_assoc] at hinv
    exact hinv

theorem trailing_of_balanced {c : EventChannel W} (hsound : c.Sound) (h : Balanced (channelEvents calls) c) :
    Trailing calls := by
  simp only [Balanced, channelEvents, List.flatMap_map] at h
  refine ⟨c.slot ++ c.unpolled, ?_, ?_⟩
  · rw [takenEvents, passedEvents, ← h, List.append_assoc]
  · -- A submitted item has left its offer.
    have hslot : c.slot.length ≤ 1 := by
      rcases c with ⟨_ | _ | _ | _ | _ | _ | (_ | _), _, _, _, _, _, _⟩ <;> simp [Channel.slot]
    by_cases hempty : c.slot = []
    · rw [hempty, List.nil_append]
      rcases c with ⟨_, _, _, _, _, _ | (_ | ⟨_ | _, _⟩ | _), _⟩ <;> simp [Channel.unpolled]
    · have hnone : c.unpolled = [] := by
        have hflight := hsound.slot_inFlight hempty
        unfold Channel.inFlight at hflight
        split at hflight
        · rename_i hf
          simp [Channel.unpolled, hf]
        · cases hflight
      rwa [hnone, List.append_nil]

theorem offer_fresh {pending : PendingResponse W} (hinv : pending.Inv calls rs)
    (hbal : Balanced (channelEvents calls) pending.channel) (hfree : pending.channel.producerFree = true)
    (event : ResponseEvent) :
    ∃ (channel : EventChannel W) (o : EventCallOutput W), pending.channel.step (.offer event) = some (channel, o) ∧
      PendingResponse.Inv (calls ++ [(.offer event, o)]) rs { pending with channel } ∧
      Balanced (channelEvents (calls ++ [(.offer event, o)])) channel ∧
      passedEvents (calls ++ [(.offer event, o)]) = passedEvents calls ++ [event] ∧
      channel.producing = some (.offer (.pending event) false) := by
  have hstep : pending.channel.step (.offer event) =
      some ({ pending.channel with producing := some (.offer (.pending event) false) }, ⟨.offered event, none⟩) := by
    simp [Channel.step, hfree]
  refine ⟨_, _, hstep, hinv.producer rfl hstep, ?_, by simp [passedEvents, PipeEvent.passed], rfl⟩
  rw [channelEvents_append]
  exact hbal.step (hinv.sound.step_spec hstep).2 rfl rfl

theorem producer_quiet {pending : PendingResponse W} (hinv : pending.Inv calls rs) {call : EventCall W}
    (hc : call.isProducer = true) (hoffer : ∀ a, call ≠ .offer a) {channel : EventChannel W}
    {o : EventCallOutput W} (hs : pending.channel.step call = some (channel, o)) :
    PendingResponse.Inv (calls ++ [(call, o)]) rs { pending with channel } ∧
      passedEvents (calls ++ [(call, o)]) = passedEvents calls ∧
      takenEvents (calls ++ [(call, o)]) = takenEvents calls := by
  have htake : ∀ w, call ≠ .pollTake w := by
    rintro w rfl
    cases hc
  refine ⟨hinv.producer hc hs, ?_, ?_⟩
  · simp [passedEvents, Channel.passed_eq_nil hoffer hs]
  · simp [takenEvents, Channel.taken_eq_nil htake hs]

theorem drop_offer {c : EventChannel W} {lifecycle : OfferLifecycle ResponseEvent} {resolved : Bool}
    (hp : c.producing = some (.offer lifecycle resolved)) :
    ∃ channel o, c.step .dropFuture = some (channel, o) ∧ channel.producing = none ∧
      channel.producer = c.producer := by
  have hstep : c.step .dropFuture = some (c.dropOffer lifecycle) := by simp [Channel.step, hp]
  refine ⟨_, _, hstep, ?_, (Channel.dropOffer_minor lifecycle).1⟩
  cases lifecycle with
  | pending item => rfl
  | submitted => rcases c with ⟨_ | _ | _ | _ | _ | _ | (_ | _), _, _, _, _, _, _⟩ <;> rfl

theorem drop_quiet {driver driver' : Receiver W} {o : ReceiveOutput W} (h : driver.drop = some (driver', o)) :
    o.arrived = [] := by
  have act_quiet {s s' : Receiver W} {call : BodyCall W} {k : Receiver W → BodyOutput W → Receiver.Result W}
      {o : ReceiveOutput W} (hk : ∀ s o s' out, k s o = some (s', out) → out.arrived = [])
      (ha : s.act call k = some (s', o)) : o.arrived = [] := by
    simp only [Receiver.act] at ha
    split at ha
    · cases ha
    · obtain ⟨⟨s₁, o₁⟩, hrest, heq⟩ := Option.map_eq_some_iff.mp ha
      cases heq
      have hnone := hk _ _ _ _ hrest
      exact hnone
  have suspend_quiet (s : Receiver W) (point : ReceivePoint) (s' : Receiver W) (o : ReceiveOutput W)
      (hs : s.suspend point = some (s', o)) : o.arrived = [] := by
    cases hs
    rfl
  simp only [Receiver.drop] at h
  split at h
  · exact act_quiet (fun s _ => suspend_quiet s _) h
  · exact act_quiet (fun s _ s' o => act_quiet fun s _ => suspend_quiet s _) h
  · exact act_quiet (fun s _ s' o => act_quiet fun s _ => suspend_quiet s _) h
  · exact act_quiet (fun s _ s' o => act_quiet fun s _ => suspend_quiet s _) h
  · cases h
  · cases h
  · cases h

theorem Told.trailing (h : Told calls s) : Trailing calls := ⟨[], by rw [List.append_nil, h.2], Nat.zero_le _⟩

theorem Finalized.left (h : Finalized x cfg heads rest btr s) : Left x cfg heads rest btr s := by
  obtain ⟨before, final, hheads, hfinal, ⟨hnone, -⟩ | ⟨driver, size, trailers, hbody, hpromise, hinv⟩⟩ := h
  · exact .inl hnone
  · exact .inr ⟨before, final, driver, size, trailers, hheads, hfinal, hbody, hpromise, hinv⟩

theorem Left.dropBody (h : Left x cfg heads rest btr s) {owner : BufferOwner} {point : ClientPoint} :
    Left x cfg heads rest (btr ++ s.dropBody.2) { s with owner, body := s.dropBody.1, point } := by
  rcases h with hnone | ⟨before, final, driver, size, trailers, hheads, hfinal, hbody, hpromise, hinv⟩
  · left
    simp [ClientReceive.dropBody, hnone]
  · simp only [ClientReceive.dropBody, hbody]
    split_ifs
    · cases hdrop : driver.drop with
      | none =>
        rw [List.append_nil]
        exact .inr ⟨before, final, driver, size, trailers, hheads, hfinal, rfl, hpromise, hinv⟩
      | some dropped =>
        obtain ⟨hnext, -⟩ := hinv.drop hdrop
        rw [drop_quiet hdrop, List.append_nil] at hnext
        exact .inr ⟨before, final, dropped.1, size, trailers, hheads, hfinal, rfl, hpromise, hnext⟩
    · exact .inl rfl

theorem fail_post (hhear : Hearing x cfg p₀ wire calls rs s consumed heads rest) (hspent : Spent heads calls s.pending.channel)
    (hleft : Left x cfg heads rest btr s) (e : Error) : Post x cfg p₀ wire calls rs btr (s.fail e) := by
  refine ⟨_, _, rfl, ⟨consumed, heads, rest, ?_, ?_⟩, rfl, rfl⟩
  · show Hearing x cfg p₀ wire (calls ++ []) rs _ consumed heads rest
    rw [List.append_nil]
    exact ⟨hhear.wire_eq, hhear.heard, hhear.passed, hhear.pending, hhear.gate⟩
  · show Spent heads (calls ++ []) _ ∧ Left x cfg heads rest (btr ++ s.dropBody.2) _
    rw [List.append_nil]
    exact ⟨hspent, hleft.dropBody⟩

theorem spent_of_live (hinv : s.pending.Inv calls rs) (hlive : s.pending.channel.producer ≠ none)
    (hidle : s.pending.channel.producing = none) (htrailing : Trailing calls) :
    Spent heads calls s.pending.channel := by
  refine ⟨hidle, htrailing, fun hclosed => ?_⟩
  rw [(hinv.life.live hlive).1] at hclosed
  cases hclosed

theorem Listening.spent (h : Listening cfg rest calls btr s) (hinv : s.pending.Inv calls rs)
    (hfree : s.pending.channel.producerFree = true) : Spent heads calls s.pending.channel := by
  simp only [Channel.producerFree, Bool.and_eq_true, Option.isSome_iff_ne_none, Option.isNone_iff_eq_none] at hfree
  exact spent_of_live hinv hfree.1 hfree.2 (trailing_of_balanced hinv.sound h.balanced)

theorem Listening.left (h : Listening cfg rest calls btr s) : Left x cfg heads rest btr s := .inl h.no_body.1

theorem Hearing.channel (h : Hearing x cfg p₀ wire calls rs s consumed heads rest)
    {calls' : List (EventCall W × EventCallOutput W)} {channel : EventChannel W}
    (hinv : PendingResponse.Inv calls' rs { s.pending with channel })
    (hpassed : passedEvents calls' = passedEvents calls) :
    Hearing x cfg p₀ wire calls' rs { s with pending := { s.pending with channel } } consumed heads rest :=
  ⟨h.wire_eq, h.heard, hpassed.trans h.passed, hinv, h.gate⟩

theorem giveUp_post (hhear : Hearing x cfg p₀ wire calls rs s consumed heads rest)
    (htrailing : Trailing calls) {lifecycle : OfferLifecycle ResponseEvent} {resolved : Bool}
    (hoffer : s.pending.channel.producing = some (.offer lifecycle resolved))
    (hleft : Left x cfg heads rest btr s) (e : Error) :
    Post x cfg p₀ wire calls rs btr (s.act .dropFuture fun s _ => s.fail e) := by
  obtain ⟨channel, o, hdrop, hnone, hproducer⟩ := drop_offer hoffer
  obtain ⟨hinv, hpassed, htaken⟩ := producer_quiet hhear.pending rfl (by simp) hdrop
  have hact := (hhear.pending.sound.live_of_producing hoffer).1
  refine .act rfl hdrop (fail_post (hhear.channel hinv hpassed) (spent_of_live hinv ?_ hnone ?_) ?_ e)
  · show channel.producer ≠ none
    rw [hproducer, hact]
    exact Option.some_ne_none _
  · rw [Trailing, hpassed, htaken]
    exact htrailing
  · exact hleft

theorem pollOffer_post (hhear : Hearing x cfg p₀ wire calls rs s consumed heads rest)
    (hbal : Balanced (channelEvents calls) s.pending.channel) (hoffer : s.Offering)
    (hleft : Left x cfg heads rest btr s) (p : ClientPoll W) (timed : Bool) {k : ClientReceive W → Result W}
    (hwait : ∀ channel calls', PendingResponse.Inv calls' rs { s.pending with channel } →
      passedEvents calls' = passedEvents calls → Balanced (channelEvents calls') channel →
      (∃ lifecycle, channel.producing = some (.offer lifecycle false)) →
      Inv x cfg p₀ wire calls' rs btr { s with pending := { s.pending with channel } })
    (hk : ∀ channel calls', PendingResponse.Inv calls' rs { s.pending with channel } →
      passedEvents calls' = passedEvents calls → takenEvents calls' = passedEvents calls' →
      channel.producerFree = true →
      Post x cfg p₀ wire calls' rs btr (k { s with pending := { s.pending with channel } })) :
    Post x cfg p₀ wire calls rs btr (s.pollOffer cfg p timed k) := by
  obtain ⟨lifecycle, hf⟩ := hoffer
  unfold ClientReceive.pollOffer
  have hsound := hhear.pending.sound
  have htrailing := trailing_of_balanced hsound hbal
  split_ifs
  · exact giveUp_post hhear htrailing hf hleft _
  · exact giveUp_post hhear htrailing hf hleft _
  obtain ⟨c, o, hs, hcases⟩ := Receiver.pollOffer_cases hsound hf p.waker
  obtain ⟨hinv, hpassed, htaken⟩ := producer_quiet hhear.pending rfl (by simp) hs
  obtain ⟨hsound', heffect⟩ := hsound.step_spec hs
  have hkeeps (hr : o.event.returned = []) (hd : o.event.dropped = []) :
      Balanced (channelEvents (calls ++ [(.pollProducer p.waker, o)])) c := by
    rw [channelEvents_append]
    exact hbal.step heffect hr hd
  refine .act rfl hs ?_
  rcases hcases with ⟨sub, he, hl⟩ | ⟨hl, he | ⟨sub, a, he⟩⟩
  · -- It waits.
    simp only [he]
    exact .suspend (hwait c _ hinv hpassed (hkeeps (by rw [he]; rfl) (by rw [he]; rfl)) hl)
  · -- The head was taken: nothing is left of the offer.
    simp only [he]
    have hbal' := hkeeps (by rw [he]; rfl) (by rw [he]; rfl)
    have hslot := hsound'.slot_of_not_inFlight (by simp [Channel.inFlight, hl])
    have hall : takenEvents (calls ++ [(.pollProducer p.waker, o)]) =
        passedEvents (calls ++ [(.pollProducer p.waker, o)]) := by
      simp only [Balanced, channelEvents, List.flatMap_map, hslot, Channel.unpolled, hl, List.append_nil] at hbal'
      exact hbal'
    obtain ⟨c', o', hdrop, hnone, hproducer⟩ := drop_offer hl
    obtain ⟨hinv', hpassed', htaken'⟩ := producer_quiet hinv rfl (by simp) hdrop
    have hact := (hsound'.live_of_producing hl).1
    refine .act (s := { s with pending := { s.pending with channel := c } }) rfl hdrop
      (hk c' _ hinv' (hpassed'.trans hpassed) (htaken'.trans (hall.trans hpassed'.symm)) ?_)
    simp [Channel.producerFree, hnone, hproducer, hact]
  · simp only [he]
    refine giveUp_post (s := { s with pending := { s.pending with channel := c } }) (hhear.channel hinv hpassed) ?_ hl
      hleft _
    rw [Trailing, hpassed, htaken]
    exact htrailing

/-- While nothing is on offer nothing is on its way: what was passed was taken. -/
theorem balanced_iff {c : EventChannel W} (hsound : c.Sound) (hidle : c.producing = none) :
    Balanced (channelEvents calls) c ↔ takenEvents calls = passedEvents calls := by
  simp only [Balanced, channelEvents, List.flatMap_map, hsound.slot_of_free hidle, Channel.unpolled, hidle,
    List.append_nil]
  rfl

theorem offerEvent_post (hinv : s.pending.Inv calls rs) (hbal : Balanced (channelEvents calls) s.pending.channel)
    (hfree : s.pending.channel.producerFree = true) (event : ResponseEvent) {point : ClientPoint}
    (hnext : ∀ channel calls', PendingResponse.Inv calls' rs { s.pending with channel } →
      Balanced (channelEvents calls') channel → passedEvents calls' = passedEvents calls ++ [event] →
      channel.producing = some (.offer (.pending event) false) →
      Inv x cfg p₀ wire calls' rs btr { s with pending := { s.pending with channel }, point }) :
    Post x cfg p₀ wire calls rs btr (s.offerEvent event point) := by
  obtain ⟨channel, o, hs, hinv', hbal', hpassed, hl⟩ := offer_fresh hinv hbal hfree event
  exact .act rfl hs (.suspend (hnext channel _ hinv' hbal' hpassed hl))

theorem accept_post {v : ValidatedResponseHead} {action : HeadAction} {b : RecvBuffer} (hwire : wire = consumed ++ rest)
    (hheard : Heard x cfg p₀ consumed (heads ++ [v]) s.policy) (hpassed : passedEvents calls = heads.map (·.event))
    (hpending : s.pending.Inv calls rs) (hgate : s.gate.allowed = heads.any (·.permits))
    (hbal : Balanced (channelEvents calls) s.pending.channel) (hfree : s.pending.channel.producerFree = true)
    (hbody : s.body = none ∧ btr = []) (howner : s.owner = .idle b) (hsound : s.owner.Sound cfg.settings.maxRetained)
    (hbytes : b.bytes = rest) (hparser : s.parser = cfg.settings.parser)
    (hlt : ∀ n, v.body = .fixed n → n < wordSize)
    (haction : action = .informational ∧ v.isFinal = false ∧ s.policy.phase = .awaitingHead ∨
      action ≠ .informational ∧ v.isFinal = true ∧ s.policy.phase ≠ .awaitingHead) :
    Post x cfg p₀ wire calls rs btr (s.accept cfg b v action) := by
  have hpassed' {calls' : List (EventCall W × EventCallOutput W)} {event : ResponseEvent}
      (hcalls : passedEvents calls' = passedEvents calls ++ [event]) (hevent : v.event = event) :
      passedEvents calls' = (heads ++ [v]).map (·.event) := by
    rw [hcalls, hpassed, List.map_append, ← hevent]
    rfl
  rcases haction with ⟨rfl, hinf, hawait⟩ | ⟨haction, hfinal, -⟩
  · have hevent : v.event = .informational v.head := by simp [ValidatedResponseHead.event, hinf]
    have hpermits : v.permits = (v.head.status.code == 100) := by simp [ValidatedResponseHead.permits, hinf]
    have hscan : s.parser.scan.Follows [] := by
      rw [hparser]
      exact HeadScan.follows_default
    -- Whatever the gate is now, the head is offered.
    have hoffered (gate : ContinueGate W) (hallowed : gate.allowed = (heads ++ [v]).any (·.permits)) :
        Post x cfg p₀ wire calls rs btr ({ s with gate }.offerEvent (.informational v.head) .informing) := by
      refine offerEvent_post (s := { s with gate }) hpending hbal hfree _ ?_
      intro channel calls' hinv' hbal' hcalls hl
      refine ⟨consumed, heads ++ [v], rest, ⟨hwire, hheard, hpassed' hcalls hevent, hinv', hallowed⟩, ?_⟩
      refine ⟨⟨hawait, hbody, hsound, ?_, ?_, hbal'⟩, ⟨_, hl⟩, ⟨b, howner⟩, hscan⟩
      · show s.owner.bytes = some rest
        rw [howner, ← hbytes]
        rfl
      · show s.parser = { cfg.settings.parser with scan := s.parser.scan }
        rw [hparser]
    unfold accept
    dsimp only
    split_ifs with hcode
    · apply Post.waking
      apply hoffered
      simp [ContinueGate.allow, hpermits, hcode]
    · apply Post.waking
      apply hoffered
      simp [hgate, hpermits, hcode]
  · have hevent : v.event = .final v.head (promise v.body) := by simp [ValidatedResponseHead.event, hfinal]
    have hallowed : true = (heads ++ [v]).any (·.permits) := by simp [ValidatedResponseHead.permits, hfinal]
    have hpromise : promise v.body = incoming v.body hlt := dif_pos hlt
    have hfinalize : Post x cfg p₀ wire calls rs btr ({ s with gate := s.gate.allow.1 }.finalize cfg b v) := by
      unfold finalize
      rw [dif_pos hlt]
      split
      · rename_i hnone
        refine offerEvent_post (s := { s with gate := s.gate.allow.1 }) hpending hbal hfree _ ?_
        intro channel calls' hinv' hbal' hcalls hl
        have hpassed' := hpassed' hcalls (by rw [hevent, hpromise, hnone])
        refine ⟨consumed, heads ++ [v], rest, ⟨hwire, hheard, hpassed', hinv', hallowed⟩, hbal', ⟨_, hl⟩, heads, v, rfl,
          hfinal, .inl ⟨hbody.1, hpromise.trans hnone, hbody.2, hsound, b, howner, hbytes⟩⟩
      · rename_i size trailers hsome
        let driver : Receiver W := .new b v.body cfg.settings.decode size trailers
        have hdriver : Receiver.Inv (cfg.reception x v size trailers) rest btr driver := by
          rw [howner] at hsound
          rw [hbody.2, ← hbytes]
          exact Receiver.inv_new (R := cfg.reception x v size trailers) hsound.1 hsound.2
        refine offerEvent_post (s := { s with gate := s.gate.allow.1, owner := .lost none, body := some driver })
          hpending hbal hfree _ ?_
        intro channel calls' hinv' hbal' hcalls hl
        have hpassed' := hpassed' hcalls (by rw [hevent, hpromise, hsome])
        refine ⟨consumed, heads ++ [v], rest, ⟨hwire, hheard, hpassed', hinv', hallowed⟩, hbal', ⟨_, hl⟩, heads, v, rfl,
          hfinal, .inr ⟨driver, size, trailers, rfl, hpromise.trans hsome, hdriver⟩⟩
    unfold accept
    cases action with
    | informational => exact absurd rfl haction
    | final => exact hfinalize.waking _
    | upgrade kind => exact hfinalize.waking _

theorem Hearing.scanned (h : Hearing x cfg p₀ wire calls rs s consumed heads rest) (parser : HeadParser) :
    Hearing x cfg p₀ wire calls rs { s with parser } consumed heads rest :=
  ⟨h.wire_eq, h.heard, h.passed, h.pending, h.gate⟩

/-- A turn of the head loop offers the next head, waits for more of it, or fails. -/
theorem scan_post (hhear : Hearing x cfg p₀ wire calls rs s consumed heads rest)
    (hl : Listening cfg rest calls btr s) (hfree : s.pending.channel.producerFree = true) {b : RecvBuffer}
    (hb : s.owner = .idle b) {seen more : Bytes} (hrest : rest = seen ++ more) (hscan : s.parser.scan.Follows seen)
    (hseen : seen.length ≤ cfg.settings.head.maxBytes) (expired : Bool) :
    Post x cfg p₀ wire calls rs btr (s.scan x cfg b expired) := by
  have hspent : Spent heads calls s.pending.channel := hl.spent hhear.pending hfree
  have hbytes : b.bytes = rest := by
    have hretains := hl.retains
    rw [hb] at hretains
    exact Option.some.inj hretains
  have hsound := hl.sound
  rw [hb] at hsound
  have hlen : { cfg.settings.parser with scan := s.parser.scan }.headLen (seen ++ more) = _ :=
    Server.headLen_eq more hscan hseen
  rw [← hl.parser, ← hrest, ← hbytes] at hlen
  unfold scan
  split_ifs
  · exact fail_post hhear hspent hl.left _
  cases hfound : HeadScan.scanFrom 0 .leading (b.bytes.take cfg.settings.head.maxBytes) with
  | scanning scanned line =>
    simp only [hfound, HeadScan.found] at hlen
    by_cases hmax : b.bytes.length > cfg.settings.head.maxBytes
    · rw [if_pos hmax] at hlen
      simp only [hlen]
      exact fail_post (s := { s with parser := cfg.settings.parser }) (hhear.scanned _) hspent hl.left _
    · -- Everything that arrived was scanned.
      rw [if_neg hmax] at hlen
      simp only [hlen]
      have hall : b.bytes.take cfg.settings.head.maxBytes = rest := by
        rw [← hbytes]
        exact List.take_of_length_le (by omega)
      rw [hall] at hfound
      refine .suspend ⟨consumed, heads, rest, ⟨hhear.wire_eq, hhear.heard, hhear.passed, hhear.pending, hhear.gate⟩,
        ⟨hl.awaiting, hl.no_body, hl.sound, hl.retains, rfl, hl.balanced⟩, hfree, ⟨hfound.symm, rfl⟩, ?_⟩
      rw [← hbytes]
      omega
  | complete length =>
    obtain ⟨hle, hwhole⟩ := HeadScan.whole_take hfound
    rw [List.length_take] at hle
    have htext : (b.bytes.take cfg.settings.head.maxBytes).take length = b.bytes.take length := by
      rw [List.take_take, Nat.min_eq_left (by omega)]
    rw [htext] at hwhole
    have hcount : length ≤ b.len := by
      show length ≤ b.bytes.length
      omega
    obtain ⟨hdrop, hsound', hframe⟩ := RecvBuffer.compact_advance_spec hsound.1.toFits hcount
    have htake := RecvBuffer.takeSharedPrefix_eq hsound.1.toFits hcount
    have hparse : { cfg.settings.parser with scan := .complete length }.parseSharedResponse x (b.bytes.take length) =
        (cfg.settings.parser, (cfg.settings.parser.parseSharedResponse x (b.bytes.take length)).2) := rfl
    generalize hhead : (cfg.settings.parser.parseSharedResponse x (b.bytes.take length)).2 = parsed at hparse
    simp only [hfound, HeadScan.found] at hlen
    simp only [hlen, htake, hparse]
    cases parsed with
    | error e => exact fail_post (s := { s with parser := cfg.settings.parser }) (hhear.scanned _) hspent hl.left _
    | ok head =>
      have hspec := s.policy.receiveHead_spec head
      rcases hreceive : s.policy.receiveHead head with ⟨p', e | ⟨v, action⟩⟩
      · -- A refused head leaves the policy as it was.
        rw [hreceive] at hspec
        obtain rfl : p' = s.policy := hspec
        simp only [hreceive]
        exact fail_post (s := { s with parser := cfg.settings.parser }) (hhear.scanned _) hspent hl.left _
      · simp only [hreceive]
        obtain ⟨-, -, hlt, haction⟩ := ExchangePolicy.receiveHead_cases hreceive
        have hheard := hhear.heard.more hwhole (Heard.accept_eq (x := x) hhead hreceive)
        refine accept_post (s := { s with
            parser := cfg.settings.parser, policy := p', owner := .idle (b.advance length).compactIfEmpty })
          ?_ hheard hhear.passed hhear.pending hhear.gate hl.balanced hfree hl.no_body rfl
          ⟨hsound', hframe.2.1.trans hsound.2⟩ hdrop rfl hlt haction
        rw [hhear.wire_eq, List.append_assoc, List.take_append_drop, hbytes]

theorem Hearing.arrive (h : Hearing x cfg p₀ wire calls rs s consumed heads rest) (w : Bytes) (owner : BufferOwner) :
    Hearing x cfg p₀ (wire ++ w) calls rs { s with owner } consumed heads (rest ++ w) :=
  ⟨by rw [h.wire_eq, List.append_assoc], h.heard, h.passed, h.pending, h.gate⟩

theorem Listening.read (h : Listening cfg rest calls btr s) (w : Bytes) (owner : BufferOwner)
    (hsound : owner.Sound cfg.settings.maxRetained) (hbytes : owner.bytes = some (rest ++ w)) :
    Listening cfg (rest ++ w) calls btr { s with owner } :=
  ⟨h.awaiting, h.no_body, hsound, hbytes, h.parser, h.balanced⟩

theorem pollReading_inv (hhear : Hearing x cfg p₀ wire calls rs s consumed heads rest)
    (hl : Listening cfg rest calls btr s) (hfree : s.pending.channel.producerFree = true)
    (hscan : s.parser.scan.Follows rest) (hmax : rest.length ≤ cfg.settings.head.maxBytes) (p : ClientPoll W)
    (hs : s.pollReading cfg p = some (s', out)) :
    Inv x cfg p₀ (wire ++ out.arrived) (calls ++ out.calls) (rs ++ out.result.toList) (btr ++ out.body) s' := by
  have hspec := Receiver.pollRead_spec hl.sound hl.retains cfg.settings.heads s.control.exchange p.completion
  unfold pollReading at hs
  split at hs
  · cases hs
  · cases hs
  · rename_i owner heq
    rw [heq] at hspec
    have hl' := hl.read [] owner hspec.1 (by rw [List.append_nil]; exact hspec.2)
    have hhear' := hhear.arrive [] owner
    rw [List.append_nil] at hl' hhear'
    rw [List.append_nil] at hhear'
    refine Post.step (.suspend ⟨consumed, heads, rest, ?_, ?_⟩) hs
    · exact ⟨hhear'.wire_eq, hhear'.heard, hhear'.passed, hhear'.pending, hhear'.gate⟩
    · exact ⟨⟨hl'.awaiting, hl'.no_body, hl'.sound, hl'.retains, hl'.parser, hl'.balanced⟩, hfree, hscan, hmax⟩
  · rename_i b result heq
    rw [heq] at hspec
    obtain ⟨hb, hlimit, w, hw, -⟩ := hspec
    have harr : b.bytes.drop (s.owner.bytes.getD []).length = w := by simp [hl.retains, hw]
    have hhear' := hhear.arrive w (.idle b)
    have hl' := hl.read w (.idle b) ⟨hb, hlimit⟩ (congrArg some hw)
    have hspent : Spent heads calls s.pending.channel := hl'.spent hhear'.pending hfree
    obtain ⟨⟨s₁, out₁⟩, hnext, heq⟩ := Option.map_eq_some_iff.mp hs
    cases heq
    -- Whatever was read, nothing else arrives.
    have hkeep (hpost : Post x cfg p₀ (wire ++ w) calls rs btr (some (s', out₁))) :
        Inv x cfg p₀ (wire ++ w) (calls ++ out₁.calls) (rs ++ out₁.result.toList) (btr ++ out₁.body) s' := by
      obtain ⟨s₂, out₂, heq, hinv, -, hres⟩ := hpost
      cases heq
      rw [hres, Option.toList_none, List.append_nil]
      exact hinv
    rw [harr]
    apply hkeep
    rw [← hnext]
    rcases result with e | _ | _
    · exact fail_post hhear' hspent hl'.left _
    · refine .suspend ⟨consumed, heads, rest ++ w, ?_, ?_⟩
      · exact ⟨hhear'.wire_eq, hhear'.heard, hhear'.passed, hhear'.pending, hhear'.gate⟩
      · refine ⟨?_, hfree, ⟨b, rfl⟩, rest, w, rfl, hscan, hmax⟩
        exact ⟨hl'.awaiting, hl'.no_body, hl'.sound, hl'.retains, hl'.parser, hl'.balanced⟩
    · exact fail_post hhear' hspent hl'.left _

theorem handOver_post (hhear : Hearing x cfg p₀ wire calls rs s consumed heads rest)
    (hall : takenEvents calls = passedEvents calls) (hfree : s.pending.channel.producerFree = true)
    (hfinal : Finalized x cfg heads rest btr s) : Post x cfg p₀ wire calls rs btr s.handOver := by
  have hclose : s.pending.channel.step .close = some (s.pending.channel.ended .closed) := by
    simp [Channel.step, hfree, Channel.close_eq hhear.pending.sound hfree]
  have hnone : (s.pending.channel.ended (.closed : PipeState ResponseEvent Error)).1.producing = none := by
    simp only [Channel.producerFree, Bool.and_eq_true, Option.isNone_iff_eq_none] at hfree
    unfold Channel.ended
    split_ifs <;> exact hfree.2
  generalize s.pending.channel.ended .closed = closed at hclose hnone
  obtain ⟨channel, o⟩ := closed
  obtain ⟨hinv, hpassed, htaken⟩ := producer_quiet hhear.pending rfl (by simp) hclose
  have hhear' := hhear.channel hinv hpassed
  have hall' : takenEvents (calls ++ [(.close, o)]) = passedEvents (calls ++ [(.close, o)]) := by
    rw [htaken, hpassed, hall]
  refine .act rfl hclose ?_
  obtain ⟨before, final, hheads, hlast, hbegun⟩ := hfinal
  rcases id hbegun with ⟨hbody, hpromise, hbtr, hsound, b, howner, hbytes⟩ | ⟨driver, size, trailers, hbody, hrest⟩
  · simp only [hbody, howner]
    refine ⟨_, _, rfl, ⟨consumed, heads, rest, ?_, ?_⟩, rfl, rfl⟩
    · rw [ClientOutput.quiet, List.append_nil]
      exact ⟨hhear'.wire_eq, hhear'.heard, hhear'.passed, hhear'.pending, hhear'.gate⟩
    · rw [ClientOutput.quiet, List.append_nil, List.append_nil]
      rw [howner] at hsound
      exact ⟨⟨hnone, hall'⟩, ⟨before, final, hheads, hlast, .inl ⟨rfl, hpromise, hbtr, hsound, b, rfl, hbytes⟩⟩, rfl,
        .inl ⟨rfl, rfl, rfl⟩⟩
  · simp only [hbody]
    refine .suspend ⟨consumed, heads, rest, ?_, ⟨hnone, hall'⟩, before, final, hheads, hlast, ?_⟩
    · exact ⟨hhear'.wire_eq, hhear'.heard, hhear'.passed, hhear'.pending, hhear'.gate⟩
    · exact .inr ⟨driver, size, trailers, rfl, hrest⟩

theorem pollBody_inv (hx : x.HeadersWithin) (hpoint : s.point = .receiving)
    (hhear : Hearing x cfg p₀ wire calls rs s consumed heads rest) (htold : Told calls s)
    (hfinal : Finalized x cfg heads rest btr s) (p : ClientPoll W) (hs : s.pollBody x cfg p = some (s', out)) :
    Inv x cfg p₀ (wire ++ out.arrived) (calls ++ out.calls) (rs ++ out.result.toList) (btr ++ out.body) s' := by
  obtain ⟨before, final, hheads, hlast, ⟨hnone, -⟩ | ⟨driver, size, trailers, hbody, hpromise, hinv⟩⟩ := hfinal
  · simp [pollBody, hnone] at hs
  simp only [pollBody, hbody] at hs
  obtain ⟨⟨driver', o⟩, hpoll, heq⟩ := Option.map_eq_some_iff.mp hs
  cases heq
  obtain ⟨hinv', -⟩ := hinv.poll hx hpoll
  have hhear' := hhear.arrive o.arrived s.owner
  have hbegun (point : ClientPoint) :
      Finalized x cfg heads (rest ++ o.arrived) (btr ++ o.body) { s with body := some driver', point } :=
    ⟨before, final, hheads, hlast, .inr ⟨driver', size, trailers, rfl, hpromise, hinv'⟩⟩
  simp only [ClientOutput.quiet, List.append_nil, Option.toList_none]
  -- Only what becomes of `receive` depends on the driver.
  have hsettled (point : ClientPoint)
      (hstage : Stage x cfg heads (rest ++ o.arrived) calls (btr ++ o.body) { s with body := some driver', point }) :
      Inv x cfg p₀ (wire ++ o.arrived) calls rs (btr ++ o.body) { s with body := some driver', point } :=
    ⟨consumed, heads, rest ++ o.arrived,
      ⟨hhear'.wire_eq, hhear'.heard, hhear'.passed, hhear'.pending, hhear'.gate⟩, hstage⟩
  have hwaits : Inv x cfg p₀ (wire ++ o.arrived) calls rs (btr ++ o.body) { s with body := some driver' } := by
    have hsame := hsettled .receiving ⟨htold, hbegun .receiving⟩
    rwa [← hpoint] at hsame
  have hreturns (how : ReceiveEnd) (hended : driver'.point = .ended how) : Inv x cfg p₀ (wire ++ o.arrived) calls rs
      (btr ++ o.body) ({ s with body := some driver' }.complete how (driver'.owner.bytes.getD [])) :=
    hsettled (.returned (.ok ⟨how, driver'.owner.bytes.getD [], s.policy⟩))
      ⟨htold, hbegun _, rfl, .inr ⟨driver', rfl, hended, rfl⟩⟩
  unfold settleBody
  cases hended : driver'.point with
  | ended how =>
    cases how with
    | failed e =>
      refine hsettled (.returned (.error e)) ⟨⟨htold.1, htold.trailing, fun _ => ?_⟩, (hbegun _).left⟩
      exact ⟨htold.2, before, final, hheads, hlast⟩
    | complete => exact hreturns .complete hended
    | abandoned => exact hreturns .abandoned hended
  | top | demanding | reading canceled | offering | dropped | panicked => exact hwaits

/-- Every poll of `receive` keeps the invariant. -/
theorem Inv.poll (hx : x.HeadersWithin) (h : Inv x cfg p₀ wire calls rs btr s) (p : ClientPoll W)
    (hs : s.poll x cfg p = some (s', out)) :
    Inv x cfg p₀ (wire ++ out.arrived) (calls ++ out.calls) (rs ++ out.result.toList) (btr ++ out.body) s' := by
  obtain ⟨consumed, heads, rest, hhear, hstage⟩ := h
  unfold Stage at hstage
  unfold ClientReceive.poll at hs
  cases hpoint : s.point with
  | start =>
    simp only [hpoint] at hs hstage
    obtain ⟨hl, hfree, hidle, hseen⟩ := hstage
    refine Post.step ?_ hs
    split_ifs
    · exact fail_post hhear (hl.spent hhear.pending hfree) hl.left _
    · refine .suspend ⟨consumed, heads, rest, ?_, ?_⟩
      · exact ⟨hhear.wire_eq, hhear.heard, hhear.passed, hhear.pending, hhear.gate⟩
      · exact ⟨⟨hl.awaiting, hl.no_body, hl.sound, hl.retains, hl.parser, hl.balanced⟩, hfree, hidle, hseen⟩
  | top =>
    simp only [hpoint] at hs hstage
    obtain ⟨hl, hfree, ⟨b, hb⟩, seen, more, hrest, hscan, hseen⟩ := hstage
    simp only [hb] at hs
    exact (scan_post hhear hl hfree hb hrest hscan hseen p.expired).step hs
  | reading =>
    simp only [hpoint] at hs hstage
    obtain ⟨hl, hfree, hscan, hmax⟩ := hstage
    exact pollReading_inv hhear hl hfree hscan hmax p hs
  | informing =>
    simp only [hpoint] at hs hstage
    obtain ⟨hl, hoffer, hidle, hscan⟩ := hstage
    refine (pollOffer_post hhear hl.balanced hoffer hl.left p true ?_ ?_).step hs
    · intro channel calls' hinv hpassed hbal hwaits
      refine ⟨consumed, heads, rest, hhear.channel hinv hpassed, ?_⟩
      simp only [Stage, hpoint]
      exact ⟨⟨hl.awaiting, hl.no_body, hl.sound, hl.retains, hl.parser, hbal⟩, hwaits, hidle, hscan⟩
    · intro channel calls' hinv hpassed hall hfree
      have hhear' := hhear.channel hinv hpassed
      refine .suspend ⟨consumed, heads, rest, ?_, ?_⟩
      · exact ⟨hhear'.wire_eq, hhear'.heard, hhear'.passed, hhear'.pending, hhear'.gate⟩
      · have hnone : channel.producing = none := by
          simp only [Channel.producerFree, Bool.and_eq_true, Option.isNone_iff_eq_none] at hfree
          exact hfree.2
        refine ⟨?_, hfree, hidle, [], rest, rfl, hscan, Nat.zero_le _⟩
        exact ⟨hl.awaiting, hl.no_body, hl.sound, hl.retains, hl.parser, (balanced_iff hinv.sound hnone).mpr hall⟩
  | finalizing =>
    simp only [hpoint] at hs hstage
    obtain ⟨hbal, hoffer, hfinal⟩ := hstage
    refine (pollOffer_post hhear hbal hoffer hfinal.left p false ?_ ?_).step hs
    · intro channel calls' hinv hpassed hbal' hwaits
      refine ⟨consumed, heads, rest, hhear.channel hinv hpassed, ?_⟩
      simp only [Stage, hpoint]
      exact ⟨hbal', hwaits, hfinal⟩
    · intro channel calls' hinv hpassed hall hfree
      exact handOver_post (hhear.channel hinv hpassed) hall hfree hfinal
  | receiving =>
    simp only [hpoint] at hs hstage
    exact pollBody_inv hx hpoint hhear hstage.1 hstage.2 p hs
  | returned result => simp [hpoint] at hs
  | dropped => simp [hpoint] at hs

end ClientReceive

end Vakya
