import Vakya.Delivery

/-!
# Runs of the receive driver

The driver decodes what a decoder that had the whole wire at once would
decode. Every suspension of the loop is described by the future that borrows
the producer, by where the buffer is, and by what is left to decode.
-/

namespace Vakya

open Library

variable {W : Type} {x : Crates} {mode : BodyMode} {limits : DecodeLimits} {wire : Bytes}

/-! ## Decoding what arrived so far -/

namespace Drive

variable {d : Drive}

/-- The input is used up at the byte level, and no more of it is kept than an unfinished line
or block. -/
def Starved (x : Crates) (mode : BodyMode) (limits : DecodeLimits) (wire : Bytes) (d : Drive) : Prop :=
  Following x mode limits wire d ∧
    ∃ p, (framing x limits).run d.decoder.place d.buffer = ⟨[], .more p⟩ ∧ d.buffer.length = p.retained

theorem Following.arrive (h : Following x mode limits wire d) (hp : d.pieces = []) (w : Bytes) :
    Following x mode limits (wire ++ w) { d with buffer := d.buffer ++ w } := by
  obtain ⟨hlim, hw, heof, htr, hrun⟩ := h
  refine ⟨hlim, hw.append w, heof, htr, ?_⟩
  simp only [left, hp, List.flatten_nil, List.append_nil] at hrun ⊢
  rw [Transducer.run_append, hrun, Transducer.resume_emit, ← Transducer.run_append]

theorem Starved.atEnd (h : Starved x mode limits wire d) (hp : d.pieces = []) :
    AtEnd x mode limits wire { d with eof := true } := by
  obtain ⟨⟨hlim, hw, -, htr, hrun⟩, p, hused, -⟩ := h
  exact ⟨hlim, hw, rfl, hp, htr, by simpa [left, hp] using hrun, p, hused⟩

/-- A turn that ends the loop ends it as the byte-level run over the wire ends. -/
theorem Tracks.turn_agrees (hx : x.HeadersWithin) (h : Tracks x mode limits wire true d) {r : DriveEnd}
    (ht : d.turn x d.eof = .inr r) :
    r.Agrees (summary d.eof ((framing x limits).run mode.start wire)) := by
  rcases h with hf | hc | ⟨-, he⟩
  · have hturn := hf.turn hx d.eof
    rw [ht] at hturn
    exact hturn
  · obtain ⟨r', hr', ha⟩ := hc.turn d.eof
    rw [hr'] at ht
    cases ht
    exact ha
  · obtain ⟨r', hr', ha⟩ := he.turn hx
    rw [he.eof, hr'] at ht
    cases ht
    rw [he.eof]
    exact ha

/-- What a call of `decode` leaves to decode, and how it ends. -/
def Decoded (x : Crates) (mode : BodyMode) (limits : DecodeLimits) (wire : Bytes) (d : Drive)
    (d' : BodyDecoder) : DecodeOutcome → Prop
  | .needMore c => Starved x mode limits wire { d with decoder := d', buffer := d.buffer.drop c }
  | .data i j c => i < j ∧ j ≤ c ∧ Tracks x mode limits wire true
      { d with decoder := d', buffer := d.buffer.drop c, payload := d.payload ++ (d.buffer.take j).drop i }
  | .trailers t c => Tracks x mode limits wire true
      { d with decoder := d', buffer := d.buffer.drop c, trailers := some t }
  | .ended c => (finish { d with decoder := d', buffer := d.buffer.drop c } .complete).Agrees
      (summary d.eof ((framing x limits).run mode.start wire))

theorem Tracks.decode_cases (hx : x.HeadersWithin) (h : Tracks x mode limits wire true d)
    (hp : d.pieces = []) (hopen : d.decoder.isComplete = false) {d' : BodyDecoder} {o : DecodeOutcome}
    (hd : d.decoder.decode x d.buffer d.eof = (d', .ok o)) :
    o.consumed ≤ d.buffer.length ∧ d.trailers = none ∧ Decoded x mode limits wire d d' o := by
  rcases id h with hf | hc | ⟨-, he⟩
  · obtain ⟨hlim, hw, heof, htr, hrun⟩ := hf
    obtain ⟨hkeep, hm⟩ := BodyDecoder.decode_means hx hw
    rw [heof] at hd
    rw [hlim, hd] at hkeep hm
    simp only [left, hp, List.flatten_nil, List.append_nil] at hrun
    cases o with
    | needMore c =>
      obtain ⟨hcl, hw', hused, hm⟩ := hm
      have hrun' := hrun.trans (congrArg (Transcript.emit d.payload) (by simpa using hm []))
      exact ⟨hcl, htr, ⟨hkeep, hw', heof, htr, by simpa [left, hp] using hrun'⟩, hused⟩
    | data i j c =>
      obtain ⟨hij, hjc, hcl, hw', hm⟩ := hm
      have hrun' := hrun.trans (congrArg (Transcript.emit d.payload) (by simpa using hm []))
      exact ⟨hcl, htr, hij, hjc, .inl ⟨hkeep, hw', heof, htr, by simpa [left, hp] using hrun'⟩⟩
    | trailers t c =>
      obtain ⟨hcl, hdone, hm⟩ := hm
      have hrun' := hrun.trans (congrArg (Transcript.emit d.payload) (by simpa using hm []))
      exact ⟨hcl, htr, .inr (.inl ⟨hdone, d'.extensionBytes, by simpa [left, hp, Transcript.emit] using hrun'⟩)⟩
    | ended c =>
      refine ⟨hm.1, htr, h.turn_agrees hx ?_⟩
      simp only [turn, hopen, heof, hd, Bool.false_eq_true, if_false]
  · simp [BodyDecoder.isComplete, hc.state_done] at hopen
  · -- At the end of the transport a call fails, or it completes a body that the end delimits.
    obtain ⟨r, hr, ha⟩ := he.turn hx
    obtain ⟨p, hused⟩ := he.used
    rw [he.eof] at hd
    cases o with
    | data i j c | trailers t c =>
      simp only [turn, hopen, he.eof, hd, Bool.false_eq_true, if_false, reduceCtorEq] at hr
    | needMore c =>
      simp only [turn, hopen, he.eof, hd, read, hp, Bool.not_true, Bool.and_false, Bool.false_eq_true,
        if_false] at hr
      cases hr
      have hmore : (framing x limits).run mode.start wire = ⟨d.payload, .more p⟩ := by
        simpa [hused, Transcript.emit] using he.run_eq
      have hverdict := ha.1
      simp only [finish, summary, hmore, if_true] at hverdict
      split_ifs at hverdict
    | ended c =>
      obtain ⟨d₁, c₁, hneed⟩ := BodyDecoder.decode_needMore hx he.waiting (he.limits_eq.symm ▸ hused)
      have hend := BodyDecoder.decode_eof hneed
      simp only [turn, hopen, he.eof, hd, Bool.false_eq_true, if_false] at hr
      rw [hd] at hend
      split_ifs at hend
      obtain ⟨-, heq⟩ := hend
      cases heq
      cases hr
      exact ⟨Nat.zero_le _, he.no_trailers, by rw [← he.eof] at ha; exact ha⟩

end Drive

/-! ## Frames and the wire -/

def payloadOf (ds : List IncomingData) : Bytes := ds.flatMap IncomingData.content

def Whole (ds : List IncomingData) : Prop := ∀ d ∈ ds, d.len = d.content.length

/-- Frames that begin what the wire holds: data in order, then the trailers of the wire, but
only after all of its payload. -/
def Assigned (x : Crates) (mode : BodyMode) (limits : DecodeLimits) (wire : Bytes)
    (frames : List (Frame IncomingData)) : Prop :=
  ∃ ds t, frames = ds.map .data ++ t.toList.map .trailers ∧
    payloadOf ds <+: ((framing x limits).run mode.start wire).output ∧
    ∀ h, t = some h → ∃ charged rest,
      (framing x limits).run mode.start wire = ⟨payloadOf ds, .done (some h, charged) rest⟩

theorem Assigned.mono {fs frames : List (Frame IncomingData)}
    (h : Assigned x mode limits wire frames) (hpre : fs <+: frames) : Assigned x mode limits wire fs := by
  obtain ⟨ds, t, rfl, hpay, htr⟩ := h
  by_cases hlen : fs.length ≤ ds.length
  · -- Only data.
    have hfs : fs = (ds.take fs.length).map .data := by
      rw [List.prefix_iff_eq_take] at hpre
      rw [List.take_append_of_le_length (by simpa using hlen)] at hpre
      rw [← List.map_take] at hpre
      exact hpre
    refine ⟨ds.take fs.length, none, by simpa using hfs, ?_, by simp⟩
    refine List.IsPrefix.trans ?_ hpay
    refine ⟨payloadOf (ds.drop fs.length), ?_⟩
    rw [payloadOf, payloadOf, ← List.flatMap_append, List.take_append_drop]
    rfl
  · -- The trailers too, so all of it.
    have hall : fs = ds.map .data ++ t.toList.map .trailers := by
      refine hpre.eq_of_length_le ?_
      have : t.toList.length ≤ 1 := by cases t <;> simp
      simp only [List.length_append, List.length_map]
      omega
    exact ⟨ds, t, hall, hpay, htr⟩

theorem Drive.Tracks.assigned {d : BodyDecoder} {buffer : Bytes} {eof : Bool} {ds : List IncomingData}
    {t : Option Headers} (h : Tracks x mode limits wire true ⟨d, buffer, [], eof, payloadOf ds, t⟩) :
    Assigned x mode limits wire (ds.map .data ++ t.toList.map .trailers) := by
  rcases h with hf | hc | ⟨-, he⟩
  · obtain ⟨-, -, -, rfl, hrun⟩ := hf
    exact ⟨ds, none, rfl, by simp [hrun], by simp⟩
  · obtain ⟨-, charged, hrun⟩ := hc
    refine ⟨ds, t, rfl, by simp [hrun], ?_⟩
    rintro h rfl
    exact ⟨charged, _, hrun⟩
  · obtain ⟨-, -, -, -, rfl, hrun, -⟩ := he
    exact ⟨ds, none, rfl, by simp [hrun], by simp⟩

/-! ## The driver at its suspensions -/

structure Reception where
  crates : Crates
  mode : BodyMode
  limits : DecodeLimits
  size : SizeHint
  trailers : TrailerHint
  maxRetained : ℕ

namespace Reception

abbrev Tracks (R : Reception) (wire : Bytes) : Drive → Prop :=
  Drive.Tracks R.crates R.mode R.limits wire true

abbrev Starved (R : Reception) (wire : Bytes) : Drive → Prop :=
  Drive.Starved R.crates R.mode R.limits wire

end Reception

def ReceiveEnd.mark : ReceiveEnd → PipeState (Frame IncomingData) Error
  | .complete => .closed
  | .abandoned => .disconnected
  | .failed error => .failed error

namespace Receiver

open BodyPipe

variable {R : Reception} {T : Drive → Prop} {btr : List (BodyCall W × BodyOutput W)} {s : Receiver W}

/-- A driver that may go on, wherever it is in its loop: no frame is lost, and `T` holds of
what is left to decode. -/
structure Core (R : Reception) (T : Drive → Prop) (btr : List (BodyCall W × BodyOutput W))
    (s : Receiver W) : Prop where
  reach : (bodyPipe W).Reaches (.new R.size R.trailers) btr s.pipe
  owner : s.owner.Sound R.maxRetained
  balanced : Balanced ((pipeTrace btr).map (·.2.event)) s.pipe.channel
  drive : ∃ ds t bytes, (passedBy (pipeTrace btr) = ds.map .data ++ t.toList.map .trailers ∧ Whole ds) ∧
    s.owner.bytes = some bytes ∧ T ⟨s.decoder, bytes, [], s.eof, payloadOf ds, t⟩

/-- The frames taken so far are those that were passed first, and these begin what the wire
holds. -/
structure Orderly (R : Reception) (wire : Bytes) (btr : List (BodyCall W × BodyOutput W))
    (pipe : BodyPipe W) : Prop where
  reach : (bodyPipe W).Reaches (.new R.size R.trailers) btr pipe
  ordered : takenBy (pipeTrace btr) <+: passedBy (pipeTrace btr)
  assigned : Assigned R.crates R.mode R.limits wire (passedBy (pipeTrace btr))

structure Ready (R : Reception) (wire : Bytes) (btr : List (BodyCall W × BodyOutput W))
    (pipe : BodyPipe W) : Prop extends Orderly R wire btr pipe where
  free : pipe.channel.producerFree = true

/-- A driver that has closed the channel: every frame was taken, and together they are what the
wire holds. -/
def Closed (R : Reception) (wire : Bytes) (btr : List (BodyCall W × BodyOutput W)) (s : Receiver W) : Prop :=
  ∃ b ds t, s.owner = .idle b ∧ b.Sound ∧ b.maxRetained = R.maxRetained ∧
    takenBy (pipeTrace btr) = ds.map .data ++ t.toList.map .trailers ∧ Whole ds ∧
    DriveEnd.Agrees ⟨.complete, payloadOf ds, t, b.bytes⟩
      (summary s.eof ((framing R.crates R.limits).run R.mode.start wire))

/-- A driver that has returned, or was dropped. -/
structure Ended (R : Reception) (wire : Bytes) (btr : List (BodyCall W × BodyOutput W))
    (pipe : BodyPipe W) (mark : PipeState (Frame IncomingData) Error) : Prop extends
    Orderly R wire btr pipe where
  gone : pipe.channel.producer = none
  mark : endings (pipeTrace btr) = [mark]

def Inv (R : Reception) (wire : Bytes) (btr : List (BodyCall W × BodyOutput W)) (s : Receiver W) : Prop :=
  match s.point with
  | .top => Core R (R.Tracks wire) btr s ∧ s.pipe.channel.producerFree = true ∧ ∃ b, s.owner = .idle b
  | .demanding => Core R (R.Tracks wire) btr s ∧ s.pipe.channel.producing = some (.demand false) ∧
      s.decoder.isComplete = false ∧ ∃ b, s.owner = .idle b
  | .reading canceled => Core R (R.Starved wire) btr s ∧
      s.pipe.channel.producing = some (.abandoned canceled)
  | .offering => Core R (R.Tracks wire) btr s ∧
      (∃ lifecycle, s.pipe.channel.producing = some (.offer lifecycle false)) ∧ ∃ b, s.owner = .idle b
  | .ended how => Ended R wire btr s.pipe how.mark ∧ (how = .complete → Closed R wire btr s)
  | .dropped => Ended R wire btr s.pipe .disconnected
  | .panicked => False

def Post (R : Reception) (wire : Bytes) (btr : List (BodyCall W × BodyOutput W)) (r : Result W) : Prop :=
  ∃ s out, r = some (s, out) ∧ Inv R wire (btr ++ out.body) s ∧ out.refused = none ∧ out.arrived = []

theorem Post.step {s' : Receiver W} {out : ReceiveOutput W} {r : Result W} (h : Post R wire btr r)
    (hr : r = some (s', out)) : Inv R (wire ++ out.arrived) (btr ++ out.body) s' ∧ out.refused = none := by
  obtain ⟨s₁, out₁, heq, hinv, href, harr⟩ := h
  obtain ⟨rfl, rfl⟩ : s₁ = s' ∧ out₁ = out := by simpa [heq] using hr
  rw [harr, List.append_nil]
  exact ⟨hinv, href⟩

theorem Post.suspend {point : ReceivePoint} (h : Inv R wire btr { s with point }) :
    Post R wire btr (s.suspend point) :=
  ⟨_, _, rfl, by simpa [ReceiveOutput.quiet] using h, rfl, rfl⟩

theorem Post.act {call : BodyCall W} {o : BodyOutput W} {pipe : BodyPipe W}
    {k : Receiver W → BodyOutput W → Result W} (hs : s.pipe.step call = some (pipe, o))
    (hk : Post R wire (btr ++ [(call, o)]) (k { s with pipe } o)) : Post R wire btr (s.act call k) := by
  obtain ⟨s', out, hr, hinv, href, harr⟩ := hk
  refine ⟨s', { out with body := (call, o) :: out.body }, ?_, ?_, href, harr⟩
  · simp only [Receiver.act, hs, hr, Option.map_some]
  · simpa using hinv

theorem Post.produce {call : BodyPipeCall W} {out : BodyPipeOutput W} {c : BodyChannel W}
    {k : Receiver W → BodyOutput W → Result W} (hc : call.isProducer = true)
    (hs : s.pipe.channel.step call = some (c, out))
    (hk : Post R wire (btr ++ [(.producer call, ⟨[(call, out)], none⟩)])
      (k { s with pipe := { s.pipe with channel := c } } ⟨[(call, out)], none⟩)) :
    Post R wire btr (s.act (.producer call) k) :=
  .act (step_producer_eq hc hs) hk

theorem Core.sound (h : Core R T btr s) : s.pipe.channel.Sound := (inv_of_reaches h.reach).sound

theorem Core.mono {U : Drive → Prop} (h : Core R T btr s) (hT : ∀ d, T d → U d) : Core R U btr s := by
  obtain ⟨hreach, howner, hbal, ds, t, bytes, hpassed, hbytes, hd⟩ := h
  exact ⟨hreach, howner, hbal, ds, t, bytes, hpassed, hbytes, hT _ hd⟩

theorem Core.produce (h : Core R T btr s) {call : BodyPipeCall W} {out : BodyPipeOutput W}
    {c : BodyChannel W} (hc : call.isProducer = true) (hs : s.pipe.channel.step call = some (c, out))
    (hp : out.event.passed = []) (hr : out.event.returned = []) (hd : out.event.dropped = []) :
    Core R T (btr ++ [(.producer call, ⟨[(call, out)], none⟩)])
      { s with pipe := { s.pipe with channel := c } } := by
  obtain ⟨-, heffect⟩ := h.sound.step_spec hs
  refine ⟨h.reach.step (step_producer_eq hc hs), h.owner, ?_, ?_⟩
  · rw [pipeTrace_append, List.map_append]
    exact h.balanced.step heffect hr hd
  · obtain ⟨ds, t, bytes, hpassed, hrest⟩ := h.drive
    refine ⟨ds, t, bytes, ⟨?_, hpassed.2⟩, hrest⟩
    rw [← hpassed.1, pipeTrace_append]
    simp [passedBy, hp]

theorem Core.ordered (h : Core R T btr s) : takenBy (pipeTrace btr) <+: passedBy (pipeTrace btr) := by
  have hbal := h.balanced
  simp only [Balanced, List.flatMap_map] at hbal
  rw [takenBy, passedBy, ← hbal, List.append_assoc]
  exact List.prefix_append _ _

theorem Core.assigned (h : Core R (R.Tracks wire) btr s) :
    Assigned R.crates R.mode R.limits wire (passedBy (pipeTrace btr)) := by
  obtain ⟨ds, t, bytes, hpassed, -, hd⟩ := h.drive
  rw [hpassed.1]
  exact hd.assigned

theorem Core.orderly (h : Core R (R.Tracks wire) btr s) : Orderly R wire btr s.pipe :=
  ⟨h.reach, h.ordered, h.assigned⟩

theorem Core.ready (h : Core R (R.Tracks wire) btr s) (hf : s.pipe.channel.producerFree = true) :
    Ready R wire btr s.pipe :=
  { h.orderly with free := hf }

theorem Core.withPoint (h : Core R T btr s) (point : ReceivePoint) : Core R T btr { s with point } :=
  ⟨h.reach, h.owner, h.balanced, h.drive⟩

theorem Orderly.produce {pipe : BodyPipe W} (h : Orderly R wire btr pipe) {call : BodyPipeCall W}
    {out : BodyPipeOutput W} {c : BodyChannel W} (hc : call.isProducer = true)
    (hs : pipe.channel.step call = some (c, out)) (hp : out.event.passed = []) :
    Orderly R wire (btr ++ [(.producer call, ⟨[(call, out)], none⟩)]) { pipe with channel := c } := by
  have ht : out.event.taken = [] := by
    apply Channel.taken_eq_nil _ hs
    rintro w rfl
    cases hc
  refine ⟨h.reach.step (step_producer_eq hc hs), ?_, ?_⟩
  · rw [pipeTrace_append]
    simpa [takenBy, passedBy, ht, hp] using h.ordered
  · rw [pipeTrace_append]
    simpa [passedBy, hp] using h.assigned

/-! ## Returning -/

theorem Ready.ended {pipe : BodyPipe W} (h : Ready R wire btr pipe) {call : BodyPipeCall W}
    {t : PipeState (Frame IncomingData) Error} (hc : call.isProducer = true) (ht : call.ending = some t)
    {c : BodyChannel W} {out : BodyPipeOutput W} (hs : pipe.channel.step call = some (c, out))
    (heq : pipe.channel.ended t = (c, out)) :
    Ended R wire (btr ++ [(.producer call, ⟨[(call, out)], none⟩)]) { pipe with channel := c } t := by
  have hinv := inv_of_reaches h.reach
  obtain ⟨hact, -⟩ := hinv.sound.state_of_free h.free
  obtain ⟨hnone, -⟩ := hinv.life.live (by simp [hact])
  have hboth : out.event = .quiet ∧ c.producer = none := by
    unfold Channel.ended at heq
    split_ifs at heq <;> cases heq <;> exact ⟨rfl, rfl⟩
  obtain ⟨hevent, hgone⟩ := hboth
  refine { h.toOrderly.produce hc hs (by rw [hevent]; rfl) with gone := hgone, mark := ?_ }
  rw [pipeTrace_append, endings, List.filterMap_append]
  simp only [endings] at hnone
  simp [hnone, ht]

theorem Ready.post (h : Ready R wire btr s.pipe) {call : BodyPipeCall W}
    {t : PipeState (Frame IncomingData) Error} (hc : call.isProducer = true) (ht : call.ending = some t)
    (hs : s.pipe.channel.step call = some (s.pipe.channel.ended t)) {point : ReceivePoint}
    (hpoint : ∀ btr (pipe : BodyPipe W), Ended R wire btr pipe t → Inv R wire btr { s with pipe, point }) :
    Post R wire btr (s.act (.producer call) fun s _ => s.suspend point) := by
  rcases heq : s.pipe.channel.ended t with ⟨c, out⟩
  rw [heq] at hs
  exact .produce hc hs (.suspend (hpoint _ _ (h.ended hc ht hs heq)))

theorem Ready.fail (h : Ready R wire btr s.pipe) (e : Error) : Post R wire btr (s.fail e) := by
  have hs : s.pipe.channel.step (.fail e) = some (s.pipe.channel.ended (.failed e)) := by
    rw [← Channel.fail_eq (inv_of_reaches h.reach).sound h.free]
    simp [Channel.step, h.free]
  exact h.post rfl rfl hs fun _ _ hended => ⟨hended, fun hn => (by cases hn)⟩

theorem Ready.dropProducer {pipe : BodyPipe W} (h : Ready R wire btr pipe) :
    pipe.channel.step .dropProducer = some (pipe.channel.ended .disconnected) := by
  rw [← Channel.dropProducer_eq (inv_of_reaches h.reach).sound h.free]
  simp [Channel.step, h.free]

theorem Ready.abandon (h : Ready R wire btr s.pipe) : Post R wire btr s.abandon :=
  h.post rfl rfl h.dropProducer fun _ _ hended => ⟨hended, fun hn => (by cases hn)⟩

theorem Core.taken (h : Core R T btr s) (hfree : s.pipe.channel.producerFree = true) :
    takenBy (pipeTrace btr) = passedBy (pipeTrace btr) := by
  have hnone : s.pipe.channel.producing = none := by
    simp only [Channel.producerFree, Bool.and_eq_true, Option.isNone_iff_eq_none] at hfree
    exact hfree.2
  have hslot := h.sound.slot_of_not_inFlight (by simp [Channel.inFlight, hnone])
  have hbal := h.balanced
  simp only [Balanced, hslot, Channel.unpolled, hnone, List.append_nil, List.flatMap_map] at hbal
  exact hbal

theorem Core.complete {d : BodyDecoder} (h : Core R T btr s) (hready : Ready R wire btr s.pipe)
    {b : RecvBuffer} (hb : s.owner = .idle b)
    (hT : ∀ ds t, T ⟨s.decoder, b.bytes, [], s.eof, payloadOf ds, t⟩ →
      (Drive.finish ⟨d, b.bytes, [], s.eof, payloadOf ds, t⟩ .complete).Agrees
        (summary s.eof ((framing R.crates R.limits).run R.mode.start wire))) :
    Post R wire btr s.complete := by
  have hs : s.pipe.channel.step .close = some (s.pipe.channel.ended .closed) := by
    rw [← Channel.close_eq (inv_of_reaches h.reach).sound hready.free]
    simp [Channel.step, hready.free]
  obtain ⟨ds, t, bytes, hpassed, hbytes, hd⟩ := h.drive
  obtain rfl : b.bytes = bytes := by simpa [hb, BufferOwner.bytes] using hbytes
  have howner := h.owner
  rw [hb] at howner
  have hagrees := hT ds t hd
  simp only [Drive.finish, List.flatten_nil, List.append_nil] at hagrees
  rcases heq : s.pipe.channel.ended .closed with ⟨c, out⟩
  rw [heq] at hs
  have hquiet : out.event.taken = [] := Channel.taken_eq_nil (by simp) hs
  refine .produce rfl hs (.suspend ⟨hready.ended rfl rfl hs heq, fun _ =>
    ⟨b, ds, t, hb, howner.1, howner.2, ?_, hpassed.2, hagrees⟩⟩)
  rw [pipeTrace_append, ← hpassed.1, ← h.taken hready.free]
  simp [takenBy, hquiet]

theorem dropFuture_cases {c : BodyChannel W} (hsound : c.Sound) {f : ProducerFuture (Frame IncomingData)}
    (hf : c.producing = some f) :
    ∃ c' out, c.step .dropFuture = some (c', out) ∧ c'.producerFree = true ∧
      (out.event = .quiet ∨ ∃ a, out.event = .released a) := by
  obtain ⟨hact, -⟩ := hsound.live_of_producing hf
  have hfree {c' : BodyChannel W} (hp : c'.producer = c.producer) (hn : c'.producing = none) :
      c'.producerFree = true := by
    simp [Channel.producerFree, hp, hact, hn]
  cases f with
  | demand resolved | abandoned resolved =>
    exact ⟨{ c with producerWaker := none, producing := none }, ⟨.quiet, none⟩,
      by simp only [Channel.step, hf], hfree rfl rfl, .inl rfl⟩
  | offer lifecycle resolved =>
    rcases heq : c.dropOffer lifecycle with ⟨c', out⟩
    refine ⟨c', out, by simp only [Channel.step, hf, heq], ?_⟩
    unfold Channel.dropOffer at heq
    cases lifecycle with
    | pending item =>
      cases heq
      exact ⟨hfree rfl rfl, .inr ⟨item, rfl⟩⟩
    | submitted =>
      simp only at heq
      split at heq <;> cases heq
      · exact ⟨hfree rfl rfl, .inr ⟨_, rfl⟩⟩
      · exact ⟨hfree rfl rfl, .inr ⟨_, rfl⟩⟩
      all_goals exact ⟨hfree rfl rfl, .inl rfl⟩

theorem Orderly.dropFuture {pipe : BodyPipe W} (h : Orderly R wire btr pipe)
    {f : ProducerFuture (Frame IncomingData)} (hf : pipe.channel.producing = some f) :
    ∃ c out, pipe.channel.step .dropFuture = some (c, out) ∧
      Ready R wire (btr ++ [(.producer .dropFuture, ⟨[(.dropFuture, out)], none⟩)])
        { pipe with channel := c } := by
  obtain ⟨c, out, hs, hfree, he⟩ := dropFuture_cases (inv_of_reaches h.reach).sound hf
  have hpassed : out.event.passed = [] := by rcases he with he | ⟨a, he⟩ <;> rw [he] <;> rfl
  exact ⟨c, out, hs, { h.produce rfl hs hpassed with free := hfree }⟩

theorem Orderly.canceled (h : Orderly R wire btr s.pipe) {f : ProducerFuture (Frame IncomingData)}
    (hf : s.pipe.channel.producing = some f) : Post R wire btr s.canceled := by
  obtain ⟨c, out, hs, hready⟩ := h.dropFuture hf
  exact .produce rfl hs (Ready.fail hready _)

theorem Orderly.abandon (h : Orderly R wire btr s.pipe) {f : ProducerFuture (Frame IncomingData)}
    (hf : s.pipe.channel.producing = some f) :
    Post R wire btr (s.act (.producer .dropFuture) fun s _ => s.abandon) := by
  obtain ⟨c, out, hs, hready⟩ := h.dropFuture hf
  exact .produce rfl hs (Ready.abandon hready)

theorem Ready.drop (h : Ready R wire btr s.pipe) :
    Post R wire btr (s.act (.producer .dropProducer) fun s _ => s.suspend .dropped) := by
  refine h.post rfl rfl h.dropProducer ?_
  exact fun _ _ hended => hended

theorem Orderly.drop (h : Orderly R wire btr s.pipe) {f : ProducerFuture (Frame IncomingData)}
    (hf : s.pipe.channel.producing = some f) :
    Post R wire btr (s.act (.producer .dropFuture) fun s _ =>
      s.act (.producer .dropProducer) fun s _ => s.suspend .dropped) := by
  obtain ⟨c, out, hs, hready⟩ := h.dropFuture hf
  exact .produce rfl hs (Ready.drop hready)

/-! ## One turn of the loop -/

theorem Core.top (hx : R.crates.HeadersWithin) (h : Core R (R.Tracks wire) btr s)
    (hfree : s.pipe.channel.producerFree = true) {b : RecvBuffer} (hb : s.owner = .idle b) :
    Post R wire btr s.top := by
  unfold Receiver.top
  split_ifs with hc
  · refine h.complete (d := s.decoder) (h.ready hfree) hb fun ds t hd => ?_
    let d : Drive := ⟨s.decoder, b.bytes, [], s.eof, payloadOf ds, t⟩
    have hturn : d.turn R.crates d.eof = .inr (d.finish .complete) := if_pos hc
    exact hd.turn_agrees hx hturn
  · have hs : s.pipe.channel.step .demand =
        some ({ s.pipe.channel with producing := some (.demand false) }, ⟨.quiet, none⟩) := by
      simp [Channel.step, hfree]
    refine .produce rfl hs (.suspend ⟨(h.produce rfl hs rfl rfl rfl).withPoint _, rfl, ?_, b, hb⟩)
    simpa using hc

def Outcome (R : Reception) (wire : Bytes) (o : DecodeOutcome) (d : Drive) : Prop :=
  o.consumed ≤ d.buffer.length ∧ d.trailers = none ∧
    Drive.Decoded R.crates R.mode R.limits wire d d.decoder o

theorem Ready.afterRead (h : Ready R wire btr s.pipe) {result : Except Error ReadStatus}
    (hdata : ∀ n, result = .ok (.data n) → Core R (R.Tracks wire) btr s)
    (heof : result = .ok .eof → Core R (R.Tracks wire) btr { s with eof := true })
    {b : RecvBuffer} (hb : s.owner = .idle b) : Post R wire btr (s.afterRead result) := by
  unfold Receiver.afterRead
  split_ifs
  · exact h.abandon
  · match result with
    | .ok .eof => exact .suspend ⟨(heof rfl).withPoint _, h.free, b, hb⟩
    | .ok (.data n) => exact .suspend ⟨(hdata n rfl).withPoint _, h.free, b, hb⟩
    | .error e => exact h.fail e

theorem Core.readOrAbandoned (h : Core R (R.Starved wire) btr s)
    (hfree : s.pipe.channel.producerFree = true) {b : RecvBuffer} (hb : s.owner = .idle b)
    (cfg : ReceiveConfig) (p : DriverPoll W) : Post R wire btr (s.readOrAbandoned cfg p) := by
  unfold Receiver.readOrAbandoned
  split_ifs
  · have htracks : Core R (R.Tracks wire) btr s := h.mono fun d hd => .inl hd.1
    exact (htracks.ready hfree).afterRead (fun n hn => (by cases hn)) (fun hn => (by cases hn)) hb
  · have hs : s.pipe.channel.step .abandoned =
        some ({ s.pipe.channel with producing := some (.abandoned false) }, ⟨.quiet, none⟩) := by
      simp [Channel.step, hfree]
    exact .produce rfl hs (.suspend ⟨(h.produce rfl hs rfl rfl rfl).withPoint _, rfl⟩)

theorem Core.offer (h : Core R T btr s) (hfree : s.pipe.channel.producerFree = true) {b : RecvBuffer}
    (hb : s.owner = .idle b) {frame : Frame IncomingData}
    (hnew : ∀ ds t, Whole ds → T ⟨s.decoder, b.bytes, [], s.eof, payloadOf ds, t⟩ →
      ∃ ds' t', ds.map .data ++ t.toList.map .trailers ++ [frame] = ds'.map .data ++ t'.toList.map .trailers ∧
        Whole ds' ∧ R.Tracks wire ⟨s.decoder, b.bytes, [], s.eof, payloadOf ds', t'⟩) :
    Post R wire btr (s.offer frame) := by
  have hs : s.pipe.channel.step (.offer frame) =
      some ({ s.pipe.channel with producing := some (.offer (.pending frame) false) },
        ⟨.offered frame, none⟩) := by
    simp [Channel.step, hfree]
  obtain ⟨-, heffect⟩ := h.sound.step_spec hs
  obtain ⟨ds, t, bytes, hpassed, hbytes, hd⟩ := h.drive
  obtain rfl : b.bytes = bytes := by simpa [hb, BufferOwner.bytes] using hbytes
  obtain ⟨ds', t', hframes, hwhole, htracks⟩ := hnew ds t hpassed.2 hd
  refine .produce rfl hs (.suspend ⟨⟨h.reach.step (step_producer_eq rfl hs), h.owner, ?_, ?_⟩, ⟨_, rfl⟩, b, hb⟩)
  · rw [pipeTrace_append, List.map_append]
    exact h.balanced.step heffect rfl rfl
  · refine ⟨ds', t', b.bytes, ⟨?_, hwhole⟩, hbytes, htracks⟩
    rw [← hframes, ← hpassed.1, pipeTrace_append]
    simp [passedBy, PipeEvent.passed]

theorem Core.advance (h : Core R T btr s) {b b' : RecvBuffer} (hb : s.owner = .idle b) (hsound : b'.Sound)
    (hmax : b'.maxRetained = b.maxRetained) {U : Drive → Prop}
    (hT : ∀ ds t, T ⟨s.decoder, b.bytes, [], s.eof, payloadOf ds, t⟩ →
      U ⟨s.decoder, b'.bytes, [], s.eof, payloadOf ds, t⟩) :
    Core R U btr { s with owner := .idle b' } := by
  obtain ⟨hreach, howner, hbal, ds, t, bytes, hpassed, hbytes, hd⟩ := h
  rw [hb] at howner
  obtain rfl : b.bytes = bytes := by simpa [hb, BufferOwner.bytes] using hbytes
  exact ⟨hreach, ⟨hsound, hmax.trans howner.2⟩, hbal, ds, t, b'.bytes, hpassed, rfl, hT ds t hd⟩

theorem Core.consume {o : DecodeOutcome} (h : Core R (Outcome R wire o) btr s) {b : RecvBuffer}
    (hb : s.owner = .idle b) {U : Drive → Prop}
    (hT : ∀ ds t, Outcome R wire o ⟨s.decoder, b.bytes, [], s.eof, payloadOf ds, t⟩ →
      U ⟨s.decoder, b.bytes.drop o.consumed, [], s.eof, payloadOf ds, t⟩)
    {k : Receiver W → Result W}
    (hk : ∀ b', b'.bytes = b.bytes.drop o.consumed → Core R U btr { s with owner := .idle b' } →
      Post R wire btr (k { s with owner := .idle b' })) :
    Post R wire btr (s.consume b o.consumed k) := by
  obtain ⟨ds, t, bytes, -, hbytes, hd⟩ := h.drive
  obtain rfl : b.bytes = bytes := by simpa [hb, BufferOwner.bytes] using hbytes
  have howner := h.owner
  rw [hb] at howner
  obtain ⟨hdrop, hsound, hframe⟩ := RecvBuffer.compact_advance_spec howner.1.toFits hd.1
  simp only [Receiver.consume, RecvBuffer.consume_eq hd.1]
  refine hk _ hdrop (h.advance hb hsound hframe.2.1 fun ds t hd => ?_)
  rw [hdrop]
  exact hT ds t hd

theorem Core.deliver {o : DecodeOutcome} (h : Core R (Outcome R wire o) btr s)
    (hready : Ready R wire btr s.pipe) {b : RecvBuffer} (hb : s.owner = .idle b) (cfg : ReceiveConfig)
    (p : DriverPoll W) : Post R wire btr (s.deliver cfg p b o) := by
  cases o with
  | needMore c =>
    exact h.consume (U := R.Starved wire) hb (fun ds t hd => hd.2.2)
      fun b' _ hcore => hcore.readOrAbandoned hready.free rfl cfg p
  | data i j c =>
    obtain ⟨ds, t, bytes, -, hbytes, hd⟩ := h.drive
    obtain rfl : b.bytes = bytes := by simpa [hb, BufferOwner.bytes] using hbytes
    have howner := h.owner
    rw [hb] at howner
    obtain ⟨hlen, -, hij, hjc, -⟩ := hd
    obtain ⟨b', data, htake, hcontent, hdata, hdrop, hsound, hframe⟩ :=
      RecvBuffer.takePayload_spec howner.1.toFits hij.le hjc hlen
    have hlen' : data.len = data.content.length := by
      rw [hdata, hcontent, List.length_drop, List.length_take]
      have : c ≤ b.bytes.length := hlen
      omega
    simp only [Receiver.deliver, htake]
    let U : Drive → Prop := fun d =>
      d.trailers = none ∧ R.Tracks wire { d with payload := d.payload ++ data.content }
    have hcore : Core R U btr { s with owner := .idle b' } := by
      refine h.advance hb hsound hframe.2.1 fun ds t hd => ⟨hd.2.1, ?_⟩
      rw [hdrop, hcontent]
      exact hd.2.2.2.2
    refine hcore.offer hready.free rfl ?_
    rintro ds t hwhole ⟨rfl, htracks⟩
    refine ⟨ds ++ [data], none, by simp, ?_, by simpa [payloadOf] using htracks⟩
    intro d hmem
    rcases List.mem_append.mp hmem with hmem | hmem
    · exact hwhole d hmem
    · exact List.mem_singleton.mp hmem ▸ hlen'
  | trailers headers c =>
    let U : Drive → Prop := fun d => d.trailers = none ∧ R.Tracks wire { d with trailers := some headers }
    refine h.consume (U := U) (k := fun s => s.offer (.trailers headers)) hb
      (fun ds t hd => ⟨hd.2.1, hd.2.2⟩) fun b' _ hcore => ?_
    refine hcore.offer hready.free rfl ?_
    rintro ds t hwhole ⟨rfl, htracks⟩
    exact ⟨ds, some headers, by simp, hwhole, htracks⟩
  | ended c =>
    let U : Drive → Prop := fun d => (d.finish .complete).Agrees
      (summary d.eof ((framing R.crates R.limits).run R.mode.start wire))
    exact h.consume (U := U) hb (fun ds t hd => hd.2.2)
      fun b' _ hcore => hcore.complete hready rfl fun ds t hd => hd

theorem chargeDrain_eq (pipe : BodyPipe W) (bytes payload : ℕ) :
    ∃ remaining, pipe.step (.chargeDrain bytes payload) = some ({ pipe with remaining }, ⟨[], none⟩) := by
  simp only [BodyPipe.step]
  split
  · exact ⟨_, rfl⟩
  · exact ⟨pipe.remaining, rfl⟩

theorem Core.decode (hx : R.crates.HeadersWithin) (h : Core R (R.Tracks wire) btr s)
    (hfree : s.pipe.channel.producerFree = true) (hopen : s.decoder.isComplete = false) {b : RecvBuffer}
    (hb : s.owner = .idle b) (cfg : ReceiveConfig) (p : DriverPoll W) :
    Post R wire btr (s.decode R.crates cfg p b) := by
  have hready := h.ready hfree
  unfold Receiver.decode
  rcases hdec : s.decoder.decode R.crates b.bytes s.eof with ⟨d, e | o⟩
  · exact Ready.fail (s := { s with decoder := d }) hready _
  · obtain ⟨remaining, hs⟩ := chargeDrain_eq s.pipe o.consumed o.payload
    obtain ⟨ds, t, bytes, hpassed, hbytes, hd⟩ := h.drive
    obtain rfl : b.bytes = bytes := by simpa [hb, BufferOwner.bytes] using hbytes
    have hout : Outcome R wire o ⟨d, b.bytes, [], s.eof, payloadOf ds, t⟩ := by
      obtain ⟨hlen, htr, hnext⟩ := hd.decode_cases hx rfl hopen hdec
      refine ⟨hlen, htr, ?_⟩
      cases o <;> exact hnext
    have hready' : Ready R wire (btr ++ [(.chargeDrain o.consumed o.payload, ⟨[], none⟩)])
        { s.pipe with remaining } := by
      refine ⟨⟨h.reach.step hs, ?_, ?_⟩, hfree⟩
      · simpa using hready.ordered
      · simpa using hready.assigned
    refine .act hs ?_
    dsimp only
    cases hcharge : s.pipe.remaining.charge o.consumed o.payload with
    | error limit => exact Ready.fail (s := { s with decoder := d, pipe := { s.pipe with remaining } }) hready' _
    | ok _ =>
      refine Core.deliver (s := { s with decoder := d, pipe := { s.pipe with remaining } }) ?_ hready' hb cfg p
      exact ⟨h.reach.step hs, h.owner, by simpa using h.balanced, ds, t, b.bytes, by simpa using hpassed,
        hbytes, hout⟩

/-! ## Polls -/

theorem pollDemand_cases {c : BodyChannel W} (hsound : c.Sound)
    (hf : c.producing = some (.demand false)) (w : W) :
    c.pollDemand w = ({ c with producerWaker := some w }, ⟨.demand none, none⟩) ∨
    ∃ r, (r = .ok () ∨ r = .error .abandoned) ∧
      c.pollDemand w = ({ c with producing := some (.demand true) }, ⟨.demand (some r), none⟩) := by
  obtain ⟨-, hterm⟩ := hsound.live_of_producing hf
  unfold Channel.pollDemand
  cases hstate : c.state with
  | idle => exact .inl rfl
  | demanded | offered item => exact .inr ⟨_, .inl rfl, rfl⟩
  | abandoned item => exact .inr ⟨_, .inr rfl, rfl⟩
  | closed | disconnected | failed e => simp [hstate, PipeState.isTerminal] at hterm

theorem Core.pollDemand (hx : R.crates.HeadersWithin) (h : Core R (R.Tracks wire) btr s)
    (hf : s.pipe.channel.producing = some (.demand false)) (hopen : s.decoder.isComplete = false)
    {b : RecvBuffer} (hb : s.owner = .idle b) (cfg : ReceiveConfig) (p : DriverPoll W) :
    Post R wire btr (s.pollDemand R.crates cfg p) := by
  unfold Receiver.pollDemand
  split_ifs
  · exact h.orderly.canceled hf
  · have hs : s.pipe.channel.step (.pollProducer p.waker) = some (s.pipe.channel.pollDemand p.waker) := by
      simp [Channel.step, hf]
    rcases pollDemand_cases h.sound hf p.waker with heq | ⟨r, hr, heq⟩
    · rw [heq] at hs
      refine .produce rfl hs (.suspend ⟨(h.produce rfl hs rfl rfl rfl).withPoint _, hf, hopen, b, hb⟩)
    · rw [heq] at hs
      have hcore := h.produce rfl hs rfl rfl rfl
      refine .produce rfl hs ?_
      rcases hr with rfl | rfl
      · -- There is demand: the future is dropped, and the driver decodes.
        let c : BodyChannel W := { s.pipe.channel with producing := none, producerWaker := none }
        have hdrop : { s.pipe.channel with producing := some (.demand true) }.step .dropFuture =
            some (c, ⟨.quiet, none⟩) := rfl
        have hact := (h.sound.live_of_producing hf).1
        have hfree : c.producerFree = true := by simp [c, Channel.producerFree, hact]
        refine .produce rfl hdrop ?_
        have hcore' := hcore.produce rfl hdrop rfl rfl rfl
        split
        · rename_i b' hb'
          exact hcore'.decode hx hfree hopen hb' cfg p
        · rename_i hnone
          exact absurd hb (hnone b)
      · exact hcore.orderly.abandon rfl

theorem pollOffer_cases {T E : Type} {c : Channel T E W} (hsound : c.Sound) {lifecycle : OfferLifecycle T}
    (hf : c.producing = some (.offer lifecycle false)) (w : W) :
    ∃ c' out, c.step (.pollProducer w) = some (c', out) ∧
      ((∃ sub, out.event = .offer sub none ∧ ∃ l, c'.producing = some (.offer l false)) ∨
        c'.producing = some (.offer .submitted true) ∧ (out.event = .offer none (some (.ok ())) ∨
          ∃ sub a, out.event = .offer sub (some (.error (.abandoned a))))) := by
  obtain ⟨-, hterm⟩ := hsound.live_of_producing hf
  cases lifecycle with
  | pending item =>
    have hslot := hsound.slot_of_not_inFlight (by simp [Channel.inFlight, hf])
    rcases heq : c.submit item w with ⟨c', out⟩
    refine ⟨c', out, by simp only [Channel.step, hf, heq], ?_⟩
    unfold Channel.submit at heq
    cases hstate : c.state with
    | idle | demanded =>
      simp only [hstate] at heq
      cases heq
      exact .inl ⟨_, rfl, _, rfl⟩
    | abandoned kept =>
      simp only [hstate] at heq
      cases heq
      exact .inr ⟨rfl, .inr ⟨_, _, rfl⟩⟩
    | offered kept => simp [Channel.slot, hstate] at hslot
    | closed | disconnected | failed e => simp [hstate, PipeState.isTerminal] at hterm
  | submitted =>
    rcases heq : c.resume w with ⟨c', out⟩
    refine ⟨c', out, by simp only [Channel.step, hf, heq], ?_⟩
    unfold Channel.resume at heq
    cases hstate : c.state with
    | offered kept =>
      simp only [hstate] at heq
      cases heq
      exact .inl ⟨_, rfl, _, hf⟩
    | idle | demanded =>
      simp only [hstate] at heq
      cases heq
      exact .inr ⟨rfl, .inl rfl⟩
    | abandoned kept =>
      cases kept with
      | none =>
        simp only [hstate] at heq
        cases heq
        exact .inr ⟨rfl, .inl rfl⟩
      | some item =>
        simp only [hstate] at heq
        cases heq
        exact .inr ⟨rfl, .inr ⟨_, _, rfl⟩⟩
    | closed | disconnected | failed e => simp [hstate, PipeState.isTerminal] at hterm

theorem Core.pollOffer (h : Core R (R.Tracks wire) btr s)
    {lifecycle : OfferLifecycle (Frame IncomingData)}
    (hf : s.pipe.channel.producing = some (.offer lifecycle false)) {b : RecvBuffer}
    (hb : s.owner = .idle b) (cfg : ReceiveConfig) (p : DriverPoll W) :
    Post R wire btr (s.pollOffer cfg p) := by
  unfold Receiver.pollOffer
  split_ifs
  · exact h.orderly.canceled hf
  · obtain ⟨c, out, hs, ⟨sub, he, l, hl⟩ | ⟨hl, he | ⟨sub, a, he⟩⟩⟩ := pollOffer_cases h.sound hf p.waker
    · -- The offer waits.
      have hcore := h.produce rfl hs (by rw [he]; rfl) (by rw [he]; rfl) (by rw [he]; rfl)
      refine .produce rfl hs ?_
      simp only [BodyOutput.event, he]
      exact .suspend ⟨hcore.withPoint _, ⟨l, hl⟩, b, hb⟩
    · -- The frame was taken; nothing is lost with the future.
      have hcore := h.produce rfl hs (by rw [he]; rfl) (by rw [he]; rfl) (by rw [he]; rfl)
      obtain ⟨-, heffect⟩ := h.sound.step_spec hs
      rw [he] at heffect
      obtain ⟨-, -, hslot, -, hun, -⟩ := heffect
      obtain ⟨c', out', hdrop, hfree, hquiet | ⟨a, hrel⟩⟩ := dropFuture_cases hcore.sound hl
      · refine .produce rfl hs ?_
        simp only [BodyOutput.event, he]
        refine .produce rfl hdrop (.suspend ⟨Core.withPoint ?_ _, hfree, b, hb⟩)
        exact hcore.produce rfl hdrop (by rw [hquiet]; rfl) (by rw [hquiet]; rfl) (by rw [hquiet]; rfl)
      · obtain ⟨-, hlost⟩ := hcore.sound.step_spec hdrop
        rw [hrel] at hlost
        obtain ⟨-, -, -, ⟨hsome, -⟩ | ⟨-, hsome⟩⟩ := hlost
        · simp [hslot] at hsome
        · simp [hun] at hsome
    · -- The body went away with the frame.
      refine .produce rfl hs ?_
      simp only [BodyOutput.event, he]
      have horder := h.orderly.produce rfl hs (by rw [he]; rfl)
      exact horder.abandon hl

/-- What a poll of the read may return: the buffer keeps its bytes, and more may have arrived
behind them. -/
def Read (limit : ℕ) (bytes : Bytes) : Option ReadPoll → Prop
  | none => True
  | some .panicked => False
  | some (.pending owner) => owner.Sound limit ∧ owner.bytes = some bytes
  | some (.ready b result) => b.Sound ∧ b.maxRetained = limit ∧
      ∃ w, b.bytes = bytes ++ w ∧ (result = .ok .eof → w = [])

theorem readUntil_ok {elapsed : Bool} {result : Except Error ReadStatus} {status : ReadStatus}
    (h : readUntil elapsed result = .ok status) : result = .ok status := by
  unfold readUntil at h
  cases result <;> simp only at h <;> split_ifs at h
  exact h

theorem settle_spec {limit : ℕ} {owner : BufferOwner} {bytes : Bytes} (hsound : owner.Sound limit)
    (hbytes : owner.bytes = some bytes) (timed : Bool) (completion : Option (Completion × Bool)) :
    Read limit bytes (owner.settle timed completion) := by
  rcases completion with _ | ⟨completion, elapsed⟩
  · exact ⟨hsound, hbytes⟩
  cases owner with
  | idle b | lost permit => cases completion <;> trivial
  | reading b slice target =>
    cases completion with
    | managed result => trivial
    | portable appended result =>
      obtain ⟨⟨hb, hlimit⟩, hroom⟩ := hsound
      obtain rfl : slice.bytes = bytes := by simpa [BufferOwner.bytes] using hbytes
      simp only [BufferOwner.settle]
      split_ifs with hle
      · rcases heq : b.finishRead slice target appended result with ⟨b', status⟩
        obtain ⟨hb', hframe, hnew, -, heof⟩ := RecvBuffer.finishRead_spec hb.toFits (by omega) heq
        exact ⟨hb', hframe.2.1.trans hlimit, appended, hnew, fun hr => heof (readUntil_ok hr)⟩
      · trivial
  | readingManaged b target =>
    cases completion with
    | portable appended result => trivial
    | managed result =>
      obtain ⟨⟨hb, hlimit⟩, hempty, htarget, hfree⟩ := hsound
      obtain rfl : b.bytes = bytes := by simpa [BufferOwner.bytes] using hbytes
      simp only [BufferOwner.settle]
      rcases heq : b.finishReadManaged target result with ⟨b', status⟩
      by_cases hle : (RecvBuffer.managedBytes result).length ≤ target
      · obtain ⟨hb', -, hmax, hnew, -, -, heof⟩ :=
          RecvBuffer.finishReadManaged_spec hb hempty hfree htarget.2 hle heq
        exact ⟨hb', hmax.trans hlimit, _, by rw [hnew, hempty]; rfl, fun hr => heof (readUntil_ok hr)⟩
      · -- A lease beyond the request is an error, and its bytes never reach the connection.
        rcases result with e | _ | buffer
        · exact absurd (Nat.zero_le _) hle
        · exact absurd (Nat.zero_le _) hle
        · have hlong : target < buffer.length := not_le.mp hle
          have hnil : buffer ≠ [] := List.length_pos_iff.mp (by omega)
          have hbad : target ≠ 0 ∧ buffer.length > target := by omega
          simp only [RecvBuffer.finishReadManaged, RecvBuffer.managedRead, if_neg hnil, if_pos hbad] at heq
          cases heq
          refine ⟨hb, hlimit, [], by simp, fun _ => rfl⟩

theorem pollRead_spec {limit : ℕ} {owner : BufferOwner} {bytes : Bytes} (hsound : owner.Sound limit)
    (hbytes : owner.bytes = some bytes) (cfg : ReceiveConfig) (canceled : Bool)
    (completion : Option (Completion × Bool)) :
    Read limit bytes (owner.pollRead cfg canceled completion) := by
  cases owner with
  | reading b slice target => exact settle_spec hsound hbytes _ _
  | readingManaged b target => exact settle_spec hsound hbytes _ _
  | lost permit => cases hbytes
  | idle b =>
    obtain ⟨hb, hlimit⟩ := hsound
    obtain rfl : b.bytes = bytes := by simpa [BufferOwner.bytes] using hbytes
    simp only [BufferOwner.pollRead]
    rcases heq : if cfg.tcp then b.beginReadManaged canceled else b.beginRead canceled with ⟨b', start⟩
    have hbegan : b'.Sound ∧ b.SameFrame b' ∧ b.Began b' start := by
      split_ifs at heq
      · exact RecvBuffer.beginReadManaged_spec hb heq
      · exact RecvBuffer.beginRead_spec hb heq
    obtain ⟨hb', hframe, hstart⟩ := hbegan
    have hlimit' : b'.maxRetained = limit := hframe.2.1.trans hlimit
    cases start with
    | panicked => exact hstart.elim
    | done result =>
      obtain ⟨⟨e, rfl⟩, hsame⟩ := hstart
      exact ⟨hb', hlimit', [], by simpa using hsame, fun _ => rfl⟩
    | portable slice target =>
      obtain ⟨hslice, -, hroom⟩ := hstart
      have howner : BufferOwner.Sound limit (.reading b' slice target) :=
        ⟨⟨hb', hlimit'⟩, by rw [hframe.2.1]; exact hroom⟩
      exact settle_spec howner (by rw [← hslice]; rfl) _ _
    | managed target =>
      obtain ⟨rfl, hempty, hpos, hle, hfree⟩ := hstart
      have howner : BufferOwner.Sound limit (.readingManaged b' target) :=
        ⟨⟨hb', hlimit'⟩, hempty, ⟨hpos, hle⟩, hfree⟩
      exact settle_spec howner rfl _ _

theorem Core.pollReading {canceled : Bool} (h : Core R (R.Starved wire) btr s)
    (hf : s.pipe.channel.producing = some (.abandoned canceled)) (cfg : ReceiveConfig) (p : DriverPoll W)
    {s' : Receiver W} {out : ReceiveOutput W} (hs : s.pollReading cfg p canceled = some (s', out)) :
    Inv R (wire ++ out.arrived) (btr ++ out.body) s' ∧ out.refused = none := by
  obtain ⟨hreach, howner, hbal, ds, t, bytes, hpassed, hbytes, hd⟩ := id h
  have hspec := pollRead_spec howner hbytes cfg canceled p.completion
  unfold Receiver.pollReading at hs
  split at hs
  · cases hs
  · rename_i heq
    rw [heq] at hspec
    exact hspec.elim
  · rename_i b result heq
    rw [heq] at hspec
    obtain ⟨hb, hmax, w, hw, heof⟩ := hspec
    have harr : b.bytes.drop (s.owner.bytes.getD []).length = w := by simp [hbytes, hw]
    -- The driver as it was suspended, with the bytes that arrived.
    have hcore : Core R (R.Tracks (wire ++ w)) btr { s with owner := .idle b } := by
      refine ⟨hreach, ⟨hb, hmax⟩, hbal, ds, t, b.bytes, hpassed, rfl, .inl ?_⟩
      rw [hw]
      exact hd.1.arrive rfl w
    have hpost : Post R (wire ++ w) btr (act { s with owner := .idle b } (.producer .dropFuture) fun s _ =>
        s.afterRead (result.mapError bodyProgress)) := by
      let c : BodyChannel W := { s.pipe.channel with producing := none, producerWaker := none }
      have hdrop : s.pipe.channel.step .dropFuture = some (c, ⟨.quiet, none⟩) := by
        simp only [Channel.step, hf, c]
      have hact := (h.sound.live_of_producing hf).1
      have hfree : c.producerFree = true := by simp [c, Channel.producerFree, hact]
      have hcore' := hcore.produce rfl hdrop rfl rfl rfl
      refine .produce rfl hdrop (Ready.afterRead (hcore'.ready hfree) (fun _ _ => hcore') (fun hr => ?_) rfl)
      have hnil : w = [] := by
        apply heof
        cases result with
        | error e => cases hr
        | ok status => simpa [Except.mapError] using hr
      subst hnil
      rw [List.append_nil] at hw ⊢
      have hstarved : Core R (R.Starved wire) btr { s with owner := .idle b } :=
        ⟨hreach, ⟨hb, hmax⟩, hbal, ds, t, b.bytes, hpassed, rfl, by rw [hw]; exact hd⟩
      obtain ⟨hreach', howner', hbal', ds', t', bytes', hpassed', hbytes', hd'⟩ :=
        hstarved.produce rfl hdrop rfl rfl rfl
      exact ⟨hreach', howner', hbal', ds', t', bytes', hpassed', hbytes', .inr (.inr ⟨rfl, hd'.atEnd rfl⟩)⟩
    obtain ⟨s₁, out₁, hr, hinv, href, -⟩ := hpost
    rw [hr] at hs
    cases hs
    rw [harr]
    exact ⟨hinv, href⟩
  · rename_i owner heq
    rw [heq] at hspec
    have hcore : Core R (R.Starved wire) btr { s with owner } :=
      ⟨hreach, hspec.1, hbal, ds, t, bytes, hpassed, hspec.2, hd⟩
    refine Post.step ?_ hs
    split_ifs with hc
    · subst hc
      exact .suspend ⟨hcore.withPoint _, hf⟩
    · have hpoll : s.pipe.channel.step (.pollProducer p.waker) =
          some (s.pipe.channel.pollAbandoned p.waker) := by
        simp only [Bool.not_eq_true] at hc
        simp [Channel.step, hf, hc]
      unfold Channel.pollAbandoned at hpoll
      split_ifs at hpoll
      · refine .produce rfl hpoll (.suspend ⟨Core.withPoint ?_ _, rfl⟩)
        exact hcore.produce rfl hpoll rfl rfl rfl
      · refine .produce rfl hpoll (.suspend ⟨Core.withPoint ?_ _, ?_⟩)
        · exact hcore.produce rfl hpoll rfl rfl rfl
        · simpa [hc] using hf

/-! ## The body, the application and the end of the driver -/

theorem Core.body (h : Core R T btr s) {call : BodyCall W} {o : BodyOutput W} {pipe : BodyPipe W}
    (hs : s.pipe.step call = some (pipe, o)) (hc : call.isBody = true) :
    Core R T (btr ++ [(call, o)]) { s with pipe } ∧
      pipe.channel.producer = s.pipe.channel.producer ∧
      pipe.channel.producing = s.pipe.channel.producing := by
  obtain ⟨hp, hf, hpassed, -, hbal⟩ := body_keeps (pipeTrace btr) h.sound hs hc
  refine ⟨⟨h.reach.step hs, h.owner, ?_, ?_⟩, hp, hf⟩
  · rw [pipeTrace_append]
    exact hbal h.balanced
  · obtain ⟨ds, t, bytes, hframes, hrest⟩ := h.drive
    refine ⟨ds, t, bytes, ⟨?_, hframes.2⟩, hrest⟩
    rw [← hframes.1, pipeTrace_append, passedBy, List.flatMap_append]
    simp only [passedBy] at hpassed
    rw [hpassed, List.append_nil]
    rfl

theorem Ended.body {pipe pipe' : BodyPipe W} {t : PipeState (Frame IncomingData) Error}
    (h : Ended R wire btr pipe t) {call : BodyCall W} {o : BodyOutput W}
    (hs : pipe.step call = some (pipe', o)) (hc : call.isBody = true) :
    Ended R wire (btr ++ [(call, o)]) pipe' t := by
  have hsound := (inv_of_reaches h.reach).sound
  obtain ⟨hp, -, hpassed, hend, -⟩ := body_keeps (pipeTrace btr) hsound hs hc
  have htaken := taken_of_gone (step_reaches hs) hsound h.gone
  have hpassed' : passedBy (pipeTrace (btr ++ [(call, o)])) = passedBy (pipeTrace btr) := by
    simp only [passedBy] at hpassed
    rw [pipeTrace_append, passedBy, List.flatMap_append, hpassed, List.append_nil]
    rfl
  refine { reach := h.reach.step hs, ordered := ?_, assigned := ?_, gone := hp.trans h.gone, mark := ?_ }
  · rw [hpassed', pipeTrace_append, takenBy, List.flatMap_append]
    simp only [takenBy] at htaken
    rw [htaken, List.append_nil]
    exact h.ordered
  · rw [hpassed']
    exact h.assigned
  · have hmark := h.mark
    simp only [endings] at hend hmark ⊢
    rw [pipeTrace_append, List.filterMap_append, hend, List.append_nil, hmark]

theorem Core.release (h : Core R T btr s) (granted : ℕ) :
    Core R T btr { s with owner := s.owner.setPermit ⟨false, granted⟩ } := by
  obtain ⟨hsound, hbytes, -⟩ := Receiving.setPermit_spec h.owner granted
  obtain ⟨ds, t, bytes, hpassed, hold, hd⟩ := h.drive
  exact ⟨h.reach, hsound, h.balanced, ds, t, bytes, hpassed, hbytes.trans hold, hd⟩

variable {s' : Receiver W} {out : ReceiveOutput W} {cfg : ReceiveConfig}

theorem Inv.poll (hx : R.crates.HeadersWithin) (h : Inv R wire btr s) {p : DriverPoll W}
    (hs : s.poll R.crates cfg p = some (s', out)) :
    Inv R (wire ++ out.arrived) (btr ++ out.body) s' ∧ out.refused = none := by
  unfold Inv at h
  unfold Receiver.poll at hs
  cases hpoint : s.point with
  | top =>
    simp only [hpoint] at h hs
    obtain ⟨hcore, hfree, b, hb⟩ := h
    exact (hcore.top hx hfree hb).step hs
  | demanding =>
    simp only [hpoint] at h hs
    obtain ⟨hcore, hf, hopen, b, hb⟩ := h
    exact (hcore.pollDemand hx hf hopen hb cfg p).step hs
  | reading canceled =>
    simp only [hpoint] at h hs
    exact h.1.pollReading h.2 cfg p hs
  | offering =>
    simp only [hpoint] at h hs
    obtain ⟨hcore, ⟨lifecycle, hf⟩, b, hb⟩ := h
    exact (hcore.pollOffer hf hb cfg p).step hs
  | ended how | dropped | panicked => simp [hpoint] at hs

theorem Inv.drop (h : Inv R wire btr s) (hs : s.drop = some (s', out)) :
    Inv R (wire ++ out.arrived) (btr ++ out.body) s' ∧ out.refused = none := by
  unfold Inv at h
  unfold Receiver.drop at hs
  cases hpoint : s.point with
  | top =>
    simp only [hpoint] at h hs
    obtain ⟨hcore, hfree, -⟩ := h
    refine Post.step ?_ hs
    exact Ready.drop (hcore.ready hfree)
  | demanding =>
    simp only [hpoint] at h hs
    refine Post.step ?_ hs
    exact Orderly.drop h.1.orderly h.2.1
  | reading canceled =>
    simp only [hpoint] at h hs
    have hcore : Core R (R.Tracks wire) btr s := h.1.mono fun d hd => .inl hd.1
    refine Post.step ?_ hs
    exact Orderly.drop hcore.orderly h.2
  | offering =>
    simp only [hpoint] at h hs
    obtain ⟨hcore, ⟨lifecycle, hf⟩, -⟩ := h
    refine Post.step ?_ hs
    exact Orderly.drop hcore.orderly hf
  | ended how | dropped | panicked => simp [hpoint] at hs

theorem Inv.body (h : Inv R wire btr s) {call : BodyCall W} {o : BodyOutput W} {pipe : BodyPipe W}
    (hs : s.pipe.step call = some (pipe, o)) (hc : call.isBody = true) :
    Inv R wire (btr ++ [(call, o)]) { s with pipe } := by
  unfold Inv at h ⊢
  cases hpoint : s.point with
  | top =>
    simp only [hpoint] at h ⊢
    obtain ⟨hcore', hp, hf⟩ := h.1.body hs hc
    exact ⟨hcore'.withPoint _, by rw [Channel.producerFree, hp, hf]; exact h.2.1, h.2.2⟩
  | demanding =>
    simp only [hpoint] at h ⊢
    obtain ⟨hcore', -, hf⟩ := h.1.body hs hc
    exact ⟨hcore'.withPoint _, hf.trans h.2.1, h.2.2⟩
  | reading canceled =>
    simp only [hpoint] at h ⊢
    obtain ⟨hcore', -, hf⟩ := h.1.body hs hc
    exact ⟨hcore'.withPoint _, hf.trans h.2⟩
  | offering =>
    simp only [hpoint] at h ⊢
    obtain ⟨hcore', -, hf⟩ := h.1.body hs hc
    exact ⟨hcore'.withPoint _, hf ▸ h.2.1, h.2.2⟩
  | ended how =>
    simp only [hpoint] at h ⊢
    refine ⟨h.1.body hs hc, fun hhow => ?_⟩
    obtain ⟨b, ds, t, hb, hsound, hmax, htaken, hrest⟩ := h.2 hhow
    have hnone := taken_of_gone (step_reaches hs) (inv_of_reaches h.1.reach).sound h.1.gone
    refine ⟨b, ds, t, hb, hsound, hmax, ?_, hrest⟩
    rw [pipeTrace_append, ← htaken, takenBy, List.flatMap_append]
    simp only [takenBy] at hnone ⊢
    rw [hnone, List.append_nil]
  | dropped =>
    simp only [hpoint] at h ⊢
    exact h.body hs hc
  | panicked => simp [hpoint] at h

theorem Inv.release (h : Inv R wire btr s) (granted : ℕ) :
    Inv R wire btr { s with owner := s.owner.setPermit ⟨false, granted⟩ } := by
  have hidle {b : RecvBuffer} (hb : s.owner = .idle b) :
      s.owner.setPermit ⟨false, granted⟩ = .idle { b with managedPermit := some ⟨false, granted⟩ } := by
    rw [hb]
    rfl
  unfold Inv at h ⊢
  cases hpoint : s.point with
  | top =>
    simp only [hpoint] at h ⊢
    obtain ⟨hcore, hfree, b, hb⟩ := h
    exact ⟨(hcore.release granted).withPoint _, hfree, _, hidle hb⟩
  | demanding =>
    simp only [hpoint] at h ⊢
    obtain ⟨hcore, hf, hopen, b, hb⟩ := h
    exact ⟨(hcore.release granted).withPoint _, hf, hopen, _, hidle hb⟩
  | reading canceled =>
    simp only [hpoint] at h ⊢
    exact ⟨(h.1.release granted).withPoint _, h.2⟩
  | offering =>
    simp only [hpoint] at h ⊢
    obtain ⟨hcore, hf, b, hb⟩ := h
    exact ⟨(hcore.release granted).withPoint _, hf, _, hidle hb⟩
  | ended how =>
    simp only [hpoint] at h ⊢
    refine ⟨h.1, fun hhow => ?_⟩
    obtain ⟨b, ds, t, hb, hsound, hmax, hrest⟩ := h.2 hhow
    have hheld : (BufferOwner.idle b).Sound R.maxRetained := ⟨hsound, hmax⟩
    obtain ⟨howner, -⟩ := Receiving.setPermit_spec hheld granted
    exact ⟨_, ds, t, hidle hb, howner.1, howner.2, hrest⟩
  | dropped =>
    simp only [hpoint] at h ⊢
    exact h
  | panicked => simp [hpoint] at h

/-- Every step of the driver and around it. -/
theorem Inv.step (hx : R.crates.HeadersWithin) (h : Inv R wire btr s) {i : ReceiveInput W}
    (hs : s.step R.crates cfg i = some (s', out)) :
    Inv R (wire ++ out.arrived) (btr ++ out.body) s' ∧ out.refused = none := by
  cases i with
  | poll p => exact h.poll hx hs
  | dropDriver => exact h.drop hs
  | body call =>
    simp only [Receiver.step] at hs
    split_ifs at hs with hc
    simp only [act] at hs
    split at hs
    · cases hs
    · rename_i pipe o hpipe
      cases hs
      simpa [ReceiveOutput.quiet] using h.body hpipe hc
  | releaseLease =>
    simp only [Receiver.step] at hs
    split at hs
    · cases hs
      simpa [ReceiveOutput.quiet] using h.release _
    · cases hs

/-! ## Whole runs -/

def bodyTrace (tr : List (ReceiveInput W × ReceiveOutput W)) : List (BodyCall W × BodyOutput W) :=
  tr.flatMap (·.2.body)

def arrivedIn (tr : List (ReceiveInput W × ReceiveOutput W)) : Bytes := tr.flatMap (·.2.arrived)

variable {tr : List (ReceiveInput W × ReceiveOutput W)} {b : RecvBuffer}

theorem inv_new (hb : b.Sound) (hmax : b.maxRetained = R.maxRetained) :
    Inv R b.bytes [] (.new b R.mode R.limits R.size R.trailers : Receiver W) := by
  refine ⟨⟨.start, ⟨hb, hmax⟩, rfl, [], none, b.bytes, ⟨rfl, by simp [Whole]⟩, rfl,
    .inl ⟨rfl, ?_, rfl, rfl, ?_⟩⟩, rfl, b, rfl⟩
  · simp only [Receiver.new]
    cases R.mode <;> simp [BodyDecoder.withLimits, BodyDecoder.Waiting, ChunkState.Retained, scanLine]
  · simp only [Receiver.new, Drive.left, List.flatten_nil, List.append_nil]
    cases R.mode <;> rfl

theorem inv_of_reaches (hx : R.crates.HeadersWithin) (hb : b.Sound) (hmax : b.maxRetained = R.maxRetained)
    (h : (receiver W R.crates cfg).Reaches (.new b R.mode R.limits R.size R.trailers) tr s) :
    Inv R (b.bytes ++ arrivedIn tr) (bodyTrace tr) s ∧ ∀ y ∈ tr, y.2.refused = none := by
  refine h.invariant (P := fun tr s => Inv R (b.bytes ++ arrivedIn tr) (bodyTrace tr) s ∧
    ∀ y ∈ tr, y.2.refused = none) ⟨by simpa [arrivedIn, bodyTrace] using inv_new hb hmax, by simp⟩ ?_
  rintro tr s i s' out ⟨hinv, href⟩ hs
  obtain ⟨hinv', href'⟩ := hinv.step hx hs
  refine ⟨?_, ?_⟩
  · simpa [arrivedIn, bodyTrace] using hinv'
  · intro y hy
    rcases List.mem_append.mp hy with hy | hy
    · exact href y hy
    · rw [List.mem_singleton.mp hy]
      exact href'

theorem Inv.orderly (h : Inv R wire btr s) : Orderly R wire btr s.pipe := by
  unfold Inv at h
  cases hpoint : s.point with
  | top | demanding | offering =>
    simp only [hpoint] at h
    exact h.1.orderly
  | reading canceled =>
    simp only [hpoint] at h
    have hcore : Core R (R.Tracks wire) btr s := h.1.mono fun d hd => .inl hd.1
    exact hcore.orderly
  | ended how =>
    simp only [hpoint] at h
    exact h.1.toOrderly
  | dropped =>
    simp only [hpoint] at h
    exact h.toOrderly
  | panicked => simp [hpoint] at h

theorem Inv.complete_of_closed (h : Inv R wire btr s) (hclosed : .closed ∈ endings (pipeTrace btr)) :
    s.point = .ended .complete := by
  have hinv := BodyPipe.inv_of_reaches h.orderly.reach
  have hgone : s.pipe.channel.producer = none := by
    by_contra hn
    rw [(hinv.life.live hn).1] at hclosed
    cases hclosed
  have hborrow {f : ProducerFuture (Frame IncomingData)} (hf : s.pipe.channel.producing = some f) : False := by
    rw [(hinv.sound.producer_gone hgone).1] at hf
    cases hf
  unfold Inv at h
  cases hpoint : s.point with
  | top =>
    simp only [hpoint] at h
    have hfree := h.2.1
    simp [Channel.producerFree, hgone] at hfree
  | demanding =>
    simp only [hpoint] at h
    exact (hborrow h.2.1).elim
  | reading canceled =>
    simp only [hpoint] at h
    exact (hborrow h.2).elim
  | offering =>
    simp only [hpoint] at h
    obtain ⟨lifecycle, hf⟩ := h.2.1
    exact (hborrow hf).elim
  | ended how =>
    simp only [hpoint] at h
    rw [h.1.mark, List.mem_singleton] at hclosed
    cases how with
    | complete => rfl
    | abandoned | failed e => cases hclosed
  | dropped =>
    simp only [hpoint] at h
    rw [h.mark, List.mem_singleton] at hclosed
    cases hclosed
  | panicked => simp [hpoint] at h

theorem closed_of_clean {size : SizeHint} {pipe : BodyPipe W} (h : BodyPipe.Inv size btr pipe)
    {fs rest : List BodyResult} (hres : results btr = fs ++ .ok none :: rest)
    (hno : ∀ e, .error e ∉ fs) : .closed ∈ endings (pipeTrace btr) := by
  have hordered : ∃ ended, Ordered size btr ended := by
    cases hin : pipe.incoming with
    | none => exact (h.dropped hin).2
    | some b =>
      cases hb : b.consumer with
      | true => exact ⟨false, (h.reading b hin hb).1⟩
      | false => exact ⟨true, (h.finished b hin hb).1⟩
  obtain ⟨ended, frames, tail, heq, hframes, htail⟩ := hordered
  rw [hres] at heq
  -- The frames come first, so they are a part of `fs`.
  obtain ⟨mid, rfl, htail'⟩ : ∃ mid, fs = frames ++ mid ∧ tail = mid ++ .ok none :: rest := by
    rcases List.append_eq_append_iff.mp heq.symm with ⟨mid, rfl, h2⟩ | ⟨mid, rfl, h2⟩
    · exact ⟨mid, rfl, h2⟩
    · cases mid with
      | nil => exact ⟨[], by simp, by simpa using h2.symm⟩
      | cons r mid =>
        rw [List.cons_append, List.cons.injEq] at h2
        have hmem := hframes r (by simp)
        rw [← h2.1] at hmem
        cases hmem
  rcases htail with ⟨-, rfl⟩ | ⟨-, r, k, rfl, ⟨e, rfl⟩ | ⟨-, hclosed, -⟩⟩
  · simp at htail'
  · cases mid with
    | nil => simp at htail'
    | cons r mid =>
      rw [List.cons_append, List.cons.injEq] at htail'
      exact absurd (by simp [← htail'.1]) (hno e)
  · exact hclosed

/-- A failure is what a body that still reads is told next. -/
theorem Ended.reports {pipe : BodyPipe W} {e : Error} (h : Ended R wire btr pipe (.failed e)) {b : Incoming}
    (hin : pipe.incoming = some b) (hb : b.consumer = true)
    (hnext : pipe.next = some .unpolled ∨ pipe.next = some .awaiting) (w : W) :
    ∃ pipe' o, pipe.step (.pollNext w) = some (pipe', o) ∧ o.result = some (.error e) := by
  have hinv := BodyPipe.inv_of_reaches h.reach
  obtain ⟨-, -, hcons, htake⟩ := hinv.reading b hin hb
  obtain ⟨t, ht, -, hstate, -⟩ := hinv.life.gone h.gone
  rw [h.mark, List.cons.injEq] at ht
  have hfailed : pipe.channel.state = .failed e := by rw [hstate hcons, ← ht.1]
  obtain ⟨pipe', o, hs, hpolled⟩ := pollNext_spec hinv.sound hcons htake hin hb hnext w
  refine ⟨pipe', o, hs, ?_⟩
  rcases hpolled with ⟨hterm, -⟩ | ⟨r, hr, hres, -⟩
  · simp [hfailed, PipeState.isTerminal] at hterm
  · rcases hr with ⟨-, rfl⟩ | ⟨frame, -, hslot⟩
    · rw [hres, hfailed]
      rfl
    · simp [Channel.slot, hfailed] at hslot

theorem Ended.no_frames {x : Crates} {t : PipeState (Frame IncomingData) Error}
    (h : Ended R wire btr s.pipe t) (hend : (∃ how, s.point = .ended how) ∨ s.point = .dropped)
    (hrun : (receiver W x cfg).Reaches s tr s') : framesOf (results (bodyTrace tr)) = [] := by
  have hall : s'.point = s.point ∧ Ended R wire (btr ++ bodyTrace tr) s'.pipe t ∧
      framesOf (results (bodyTrace tr)) = [] := by
    refine hrun.invariant (P := fun tr s' => s'.point = s.point ∧
      Ended R wire (btr ++ bodyTrace tr) s'.pipe t ∧ framesOf (results (bodyTrace tr)) = [])
      ⟨rfl, by simpa [bodyTrace] using h, rfl⟩ ?_
    rintro tr s₁ i s₂ out ⟨hpoint, hended, hnone⟩ hs
    have happ : bodyTrace (tr ++ [(i, out)]) = bodyTrace tr ++ out.body := by simp [bodyTrace]
    rw [← hpoint] at hend
    cases i with
    | poll p =>
      have hpoll : s₁.poll x cfg p = some (s₂, out) := hs
      rcases hend with ⟨how, he⟩ | he <;> simp [Receiver.poll, he] at hpoll
    | dropDriver =>
      have hdrop : s₁.drop = some (s₂, out) := hs
      rcases hend with ⟨how, he⟩ | he <;> simp [Receiver.drop, he] at hdrop
    | releaseLease =>
      have hrel : s₁.step x cfg .releaseLease = some (s₂, out) := hs
      simp only [Receiver.step] at hrel
      split at hrel
      · cases hrel
        rw [happ]
        simpa [ReceiveOutput.quiet] using ⟨hpoint, hended, hnone⟩
      · cases hrel
    | body call =>
      have hbody : s₁.step x cfg (.body call) = some (s₂, out) := hs
      simp only [Receiver.step] at hbody
      split_ifs at hbody with hc
      simp only [act] at hbody
      split at hbody
      · cases hbody
      · rename_i pipe o hpipe
        cases hbody
        rw [happ]
        refine ⟨hpoint, ?_, ?_⟩
        · have hended' := hended.body hpipe hc
          simpa [ReceiveOutput.quiet] using hended'
        · have hnot (r : BodyResult) (hr : o.result = some r) : isFrame r = false :=
            (BodyPipe.inv_of_reaches hended.reach).no_frame (by rw [hended.mark]; simp) hpipe hr
          rw [ReceiveOutput.quiet, results_append, framesOf_append, hnone, List.nil_append]
          match hr : o.result with
          | none => rfl
          | some (.ok (some frame)) => cases hnot _ hr
          | some (.ok none) | some (.error e) => rfl
  exact hall.2.2

end Receiver

open Receiver BodyPipe

theorem summary_payload (endsEof : Bool) (t : BodyRun) : (summary endsEof t).payload = t.output := by
  unfold summary
  cases t.ending with
  | done r rest => rfl
  | failed => rfl
  | more p =>
    dsimp only
    split_ifs <;> rfl

/-- The receive driver, end to end, in every interleaving with the transport, the consumer and
the cancellations. `r` is what the decoder makes of the wire when it has all of it at once.
The frames delivered begin what it found, and end with its trailers; a driver that ends
`Complete` leaves exactly what follows the body; only such a driver is followed by a clean
end; after any other end nothing is delivered, and a failure is reported; the errors of
`consume` and `take_payload` never occur. -/
theorem receive_delivers {x : Crates} (hx : x.HeadersWithin) (cfg : ReceiveConfig) {mode : BodyMode}
    (hmode : ∀ n, mode = .fixed n → n < wordSize) (limits : DecodeLimits) {b : RecvBuffer}
    (hb : b.Reachable) {s₀ : Receiver W} (hstart : Receiver.start b mode hmode limits = some s₀)
    {tr : List (ReceiveInput W × ReceiveOutput W)} {s : Receiver W}
    (h : (receiver W x cfg).Reaches s₀ tr s) :
    let wire := b.bytes ++ arrivedIn tr
    let rs := results (bodyTrace tr)
    (∃ fuel₀, ∀ fuel ≥ fuel₀, ∃ r, Drive.run x s.eof fuel (.start mode limits [wire]) = some r ∧
      (∃ ds t, framesOf rs = ds.map .data ++ t.toList.map .trailers ∧ payloadOf ds <+: r.payload ∧
        ∀ headers, t = some headers →
          payloadOf ds = r.payload ∧ r.verdict = .complete ∧ r.trailers = some headers) ∧
      (s.point = .ended .complete →
        r.verdict = .complete ∧ ∃ b', s.owner = .idle b' ∧ b'.bytes = r.rest)) ∧
    (∀ fs rest, rs = fs ++ .ok none :: rest → (∀ e, .error e ∉ fs) → s.point = .ended .complete) ∧
    (s.point = .ended .abandoned ∨ s.point = .dropped ∨ (∃ e, s.point = .ended (.failed e)) →
      ∀ tr' s', (receiver W x cfg).Reaches s tr' s' → framesOf (results (bodyTrace tr')) = []) ∧
    (∀ e, s.point = .ended (.failed e) → ∀ body, s.pipe.incoming = some body → body.consumer = true →
      ∀ w, s.pipe.next = some .unpolled ∨ s.pipe.next = some .awaiting →
        ∃ s' out, s.step x cfg (.body (.pollNext w)) = some (s', out) ∧ results out.body = [.error e]) ∧
    (∀ y ∈ tr, y.2.refused = none) ∧ s.point ≠ .panicked := by
  obtain ⟨⟨size, trailers⟩, -, rfl⟩ := Option.map_eq_some_iff.mp hstart
  let R : Reception := ⟨x, mode, limits, size, trailers, b.maxRetained⟩
  obtain ⟨hinv, href⟩ := Receiver.inv_of_reaches (R := R) hx hb.sound rfl h
  have horder := hinv.orderly
  refine ⟨⟨(Drive.start mode limits [b.bytes ++ arrivedIn tr]).turns, fun fuel hfuel => ?_⟩,
    fun fs rest hres hno => ?_, fun hpoint tr' s' hrun => ?_,
    fun e hpoint body hbody hlive w hnext => ?_, href, fun hpoint => ?_⟩
  · -- What the driver passed on is compared with the run over the wire, and so is `r`.
    simp only [Drive.turns] at hfuel
    obtain ⟨r, hr, ha⟩ := Drive.run_of_following hx s.eof
      (Drive.following_start x mode limits [b.bytes ++ arrivedIn tr]) fuel (by omega)
    simp only [List.flatten_cons, List.flatten_nil, List.append_nil] at ha
    refine ⟨r, hr, ?_, fun hpoint => ?_⟩
    · obtain ⟨ds, t, hframes, hpre, htr⟩ :=
        horder.assigned.mono ((framesOf_results horder.reach).1.trans horder.ordered)
      refine ⟨ds, t, hframes, ?_, fun headers hh => ?_⟩
      · rw [ha.2.1, summary_payload]
        exact hpre
      · obtain ⟨charged, rest, hdone⟩ := htr headers hh
        have hsum : summary s.eof ((framing x limits).run mode.start (b.bytes ++ arrivedIn tr)) =
            ⟨.complete, payloadOf ds, some headers, rest⟩ := by
          rw [hdone]
          rfl
        rw [hsum] at ha
        exact ⟨ha.2.1.symm, ha.1, (ha.2.2 ha.1).1⟩
    · simp only [Receiver.Inv, hpoint] at hinv
      obtain ⟨b', ds, t, hb', -, -, -, -, hverdict, -, hrest⟩ := hinv.2 trivial
      have hcomplete : r.verdict = .complete := ha.1.trans hverdict.symm
      exact ⟨hcomplete, b', hb', (hrest rfl).2.trans (ha.2.2 hcomplete).2.symm⟩
  · exact hinv.complete_of_closed (closed_of_clean (BodyPipe.inv_of_reaches horder.reach) hres hno)
  · rcases hpoint with hpoint | hpoint | ⟨e, hpoint⟩
    · simp only [Receiver.Inv, hpoint] at hinv
      exact hinv.1.no_frames (.inl ⟨_, hpoint⟩) hrun
    · simp only [Receiver.Inv, hpoint] at hinv
      exact hinv.no_frames (.inr hpoint) hrun
    · simp only [Receiver.Inv, hpoint] at hinv
      exact hinv.1.no_frames (.inl ⟨_, hpoint⟩) hrun
  · simp only [Receiver.Inv, hpoint] at hinv
    obtain ⟨pipe', o, hs, ho⟩ := hinv.1.reports hbody hlive hnext w
    refine ⟨{ s with pipe := pipe' }, ⟨[(.pollNext w, o)], [], none⟩, ?_, by simp [results, ho]⟩
    simp [Receiver.step, BodyCall.isBody, Receiver.act, hs, ReceiveOutput.quiet]
  · simp [Receiver.Inv, hpoint] at hinv

/-- Three bytes of body and one of the next message arrive in one read. -/
theorem receive_delivers_sample :
    ∃ tr, ∃ s : Receiver Unit, (receiver Unit reference ⟨false, true, true⟩).Reaches
        (.new ⟨.portable (.withCapacity 8), none, 8, 16⟩ (.fixed 3) .default (.withExact 3 (by decide)) .none)
        tr s ∧
      s.point = .ended .complete ∧ arrivedIn tr = [1, 2, 3, 71] ∧
      results (bodyTrace tr) = [.ok (some (.data (.bytes [1, 2, 3]))), .ok none] ∧
      ∃ fuel₀, ∀ fuel ≥ fuel₀, ∃ r, Drive.run reference false fuel (.start (.fixed 3) .default [[1, 2, 3, 71]]) =
        some r ∧ r.verdict = .complete ∧ r.rest = [71] := by
  let idle : ReceiveInput Unit := .poll ⟨(), false, false, none⟩
  let b : RecvBuffer := ⟨.portable (.withCapacity 8), none, 8, 16⟩
  have hmode : ∀ n, BodyMode.fixed 3 = .fixed n → n < wordSize := by
    rintro n ⟨⟩
    decide
  have hb : b.Reachable := ⟨8, 16, b, [], [], rfl, .start⟩
  have hrun : (receiver Unit reference ⟨false, true, true⟩).run
      (.new b (.fixed 3) .default (.withExact 3 (by decide)) .none)
      [idle, .body .nextFrame, .body (.pollNext ()), idle,
        .poll ⟨(), false, false, some (.portable [1, 2, 3, 71] (.ok 4), false)⟩, idle, idle, idle,
        .body (.pollNext ()), .body .dropNext, idle, idle, .body .nextFrame, .body (.pollNext ())] =
      some (_, _) := rfl
  have hreach := Machine.reaches_of_run hrun
  obtain ⟨⟨fuel₀, hfuel⟩, -⟩ := receive_delivers Reference.headersWithin _ hmode .default hb rfl hreach
  refine ⟨_, _, hreach, rfl, rfl, rfl, fuel₀, fun fuel hge => ?_⟩
  obtain ⟨r, hr, -, hcomplete⟩ := hfuel fuel hge
  obtain ⟨hverdict, b', hb', hrest⟩ := hcomplete rfl
  refine ⟨r, hr, hverdict, ?_⟩
  rw [← hrest]
  cases hb'
  rfl

end Vakya
