import Vakya.Library.Link
import Vakya.SentContent
import Vakya.Steady

/-!
# A body from one peer to the other

`send_body` at one end of a connection and the receive driver at the other. Between them the bytes
are on their way, in order; both ends go on when they like, and the sending end may be closed at any
time, whatever it has written.
-/

namespace Vakya

open Library Receiver BodyPipe

variable {D V U E W : Type}

inductive OutboundInput (D E : Type)
  | send (i : SendEvent D E)
  | next (bytes : Bytes)

inductive OutboundOutput (D E : Type)
  | sent (o : SendOutput D E)
  | next (bytes : Bytes)

def OutboundOutput.emits : OutboundOutput D E → Bytes
  | .sent o => o.write.accepted
  | .next bytes => bytes

@[simp] theorem OutboundOutput.emits_sent (o : SendOutput D E) : (OutboundOutput.sent o).emits = o.write.accepted := rfl

@[simp] theorem OutboundOutput.emits_next (bytes : Bytes) : (OutboundOutput.next bytes : OutboundOutput D E).emits = bytes :=
  rfl

/-- A body, and what follows it on the connection: nothing, unless the body was sent and does not
end with the connection. -/
def outbound (x : Crates) (k : SendBuffers D V U) (mode : BodyMode) :
    Machine (Sender D V U E) (OutboundInput D E) (OutboundOutput D E) where
  step s
    | .send i => (s.step x k i).map fun (s, o) => (s, .sent o)
    | .next bytes =>
      match s.phase with
      | .returned (.ok _) => if mode = .untilEof then none else some (s, .next bytes)
      | _ => none

def OutboundInput.sendStep : OutboundInput D E × OutboundOutput D E → Option (SendEvent D E × SendOutput D E)
  | (.send i, .sent o) => some (i, o)
  | _ => none

def sendTrace (tr : List (OutboundInput D E × OutboundOutput D E)) : List (SendEvent D E × SendOutput D E) :=
  tr.filterMap OutboundInput.sendStep

def OutboundOutput.nextBytes : OutboundOutput D E → Bytes
  | .sent _ => []
  | .next bytes => bytes

def nextBytes (tr : List (OutboundInput D E × OutboundOutput D E)) : Bytes := tr.flatMap (·.2.nextBytes)

namespace Sender

variable {x : Crates} {k : SendBuffers D V U} {s s' : Sender D V U E} {i : SendEvent D E} {o : SendOutput D E}

theorem step_returned {result : Except (SendBodyError E) SendStats} (hret : s.phase = .returned result)
    (hs : s.step x k i = some (s', o)) : s'.phase = .returned result ∧ o.write.accepted = [] := by
  cases i with
  | cancel =>
    cases hs
    simp [cancel, hret, SendOutput.quiet, WriteOutput.accepted]
  | poll next => simp [step, poll, hret] at hs
  | flushed r => simp [step, flushed, hret] at hs
  | resume => simp [step, advance, hret] at hs
  | completed r => simp [step, advance, hret] at hs

end Sender

theorem sendHistory_append (tr tr' : List (SendEvent D E × SendOutput D E)) :
    (sendHistory (tr ++ tr')).written = (sendHistory tr).written ++ tr'.flatMap (·.2.write.accepted) := by
  induction tr' using List.reverseRecOn with
  | nil => simp
  | append_singleton tr' e ih =>
    rw [← List.append_assoc, sendHistory_concat, SendHistory.add, ih, List.flatMap_append, List.append_assoc]
    simp

theorem outbound_reaches {x : Crates} {k : SendBuffers D V U} {mode : BodyMode} {s₀ s : Sender D V U E}
    {tr : List (OutboundInput D E × OutboundOutput D E)} (h : (outbound x k mode).Reaches s₀ tr s) :
    (sendBody x k).Reaches s₀ (sendTrace tr) s ∧
      tr.flatMap (·.2.emits) = (sendTrace tr).flatMap (·.2.write.accepted) ++ nextBytes tr ∧
      (nextBytes tr ≠ [] → mode ≠ .untilEof ∧ ∃ stats, s.phase = .returned (.ok stats)) := by
  refine h.invariant (P := fun tr s => (sendBody x k).Reaches s₀ (sendTrace tr) s ∧
    tr.flatMap (·.2.emits) = (sendTrace tr).flatMap (·.2.write.accepted) ++ nextBytes tr ∧
    (nextBytes tr ≠ [] → mode ≠ .untilEof ∧ ∃ stats, s.phase = .returned (.ok stats)))
    ⟨.start, rfl, by simp [nextBytes]⟩ ?_
  rintro tr s i s' o ⟨hreach, hemits, hnext⟩ hs
  cases i with
  | send i =>
    obtain ⟨⟨s₁, o₁⟩, hstep, heq⟩ := Option.map_eq_some_iff.mp hs
    cases heq
    have hsend : sendTrace (tr ++ [(.send i, .sent o₁)]) = sendTrace tr ++ [(i, o₁)] := by
      simp [sendTrace, OutboundInput.sendStep]
    have hrest : nextBytes (tr ++ [(.send i, .sent o₁)]) = nextBytes tr := by
      simp [nextBytes, OutboundOutput.nextBytes]
    rw [hsend, hrest]
    refine ⟨hreach.step hstep, ?_, fun hne => ?_⟩
    · -- once the next message has begun the body writes nothing
      have hquiet : nextBytes tr ++ o₁.write.accepted = o₁.write.accepted ++ nextBytes tr := by
        by_cases hne : nextBytes tr = []
        · simp [hne]
        · obtain ⟨-, stats, hret⟩ := hnext hne
          simp [(Sender.step_returned hret hstep).2]
      simp [hemits, hquiet]
    · obtain ⟨hmode, stats, hret⟩ := hnext hne
      exact ⟨hmode, stats, (Sender.step_returned hret hstep).1⟩
  | next bytes =>
    simp only [outbound] at hs
    split at hs
    · rename_i stats hret
      split_ifs at hs with hmode
      cases hs
      have hsend : sendTrace (tr ++ [(.next bytes, .next bytes)]) = sendTrace tr := by
        simp [sendTrace, OutboundInput.sendStep]
      have hrest : nextBytes (tr ++ [(.next bytes, .next bytes)]) = nextBytes tr ++ bytes := by
        simp [nextBytes, OutboundOutput.nextBytes]
      rw [hsend, hrest]
      refine ⟨hreach, ?_, fun _ => ⟨hmode, stats, hret⟩⟩
      simp [hemits]
    · cases hs

/-- Every interleaving of `send_body` at one end with the receive driver at the other. -/
def transfer (W : Type) (x : Crates) (k : SendBuffers D V U) (mode : BodyMode) (cfg : ReceiveConfig) :
    Machine (Link (Sender D V U E) (Receiver W) UInt8) (LinkInput (OutboundInput D E) (ReceiveInput W))
      (LinkOutput (OutboundOutput D E) (ReceiveOutput W)) :=
  link (outbound x k mode) (receiver W x cfg) OutboundOutput.emits ReceiveOutput.arrived Receiver.eof

abbrev TransferTrace (D E W : Type) :=
  List (LinkInput (OutboundInput D E) (ReceiveInput W) × LinkOutput (OutboundOutput D E) (ReceiveOutput W))

/-- A sender that may have begun before the receive driver: `tr` is its run so far. What it has
written was read with the message head, or it is on its way. -/
structure Underway (x : Crates) (k : SendBuffers D V U) (e₀ : BodyEncoder) (token : Option Bool)
    (tr : List (SendEvent D E × SendOutput D E)) (retained : Bytes)
    (t₀ : Link (Sender D V U E) (Receiver W) UInt8) : Prop where
  reach : (sendBody x k).Reaches (.start e₀ token) tr t₀.left
  written : (sendHistory tr).written = retained ++ t₀.inFlight

section

variable {x : Crates} {k : SendBuffers D V U} {cfg : ReceiveConfig} {mode : BodyMode} {limits : DecodeLimits}
  {metadata : BodyMetadata} {config : EncodeConfig} {e₀ : BodyEncoder} {token : Option Bool}
  {begun : List (SendEvent D E × SendOutput D E)} {t₀ t : Link (Sender D V U E) (Receiver W) UInt8}
  {tr : TransferTrace D E W} {retained : Bytes}

def sentIn (begun : List (SendEvent D E × SendOutput D E)) (tr : TransferTrace D E W) : SendHistory D E :=
  sendHistory (begun ++ sendTrace (leftTrace tr))

theorem transfer_reads (hb : x.HeaderBlocks) (hn : x.FoldsNames) (hv : x.KeepsValues) (hk : k.Lawful)
    (hnew : BodyEncoder.new mode metadata config = .ok e₀) (hbegun : Underway x k e₀ token begun retained t₀)
    (h : (transfer W x k mode cfg).Reaches t₀ tr t)
    (hfit : mode = .chunked → limits.Admit x e₀ (sentIn begun tr).obtained) :
    ∃ unwritten, ReadsPart mode (contentOf x k.asInit e₀ (sentIn begun tr).obtained) (t.inFlight ++ unwritten)
        (nextBytes (leftTrace tr))
        ((framing x limits).run mode.start (retained ++ arrivedIn (rightTrace tr))) ∧
      ((∃ stats, t.left.phase = .returned (.ok stats)) → unwritten = [] ∧
        (contentOf x k.asInit e₀ (sentIn begun tr).obtained).ending.isSome = true) ∧
      (unwritten = [] ∨ nextBytes (leftTrace tr) = []) ∧ (mode = .untilEof → nextBytes (leftTrace tr) = []) := by
  obtain ⟨hsend, hemits, hnext⟩ := outbound_reaches (Link.reaches_left h)
  have hreach := hbegun.reach.trans hsend
  have hinv := Sender.inv_of_reaches hk hreach
  have hended := Sender.ended_of_reaches hk hreach
  -- the bytes written are those read and those on their way
  have hwritten : (sentIn begun tr).written ++ nextBytes (leftTrace tr) =
      retained ++ arrivedIn (rightTrace tr) ++ t.inFlight := by
    have hconserved := Link.conserved h
    rw [hemits] at hconserved
    rw [sentIn, sendHistory_append, hbegun.written]
    simpa [arrivedIn] using hconserved
  by_cases hret : ∃ stats, t.left.phase = .returned (.ok stats)
  · obtain ⟨stats, hret⟩ := hret
    have hsome : (contentOf x k.asInit e₀ (sentIn begun tr).obtained).ending.isSome = true := hended stats hret
    obtain ⟨fs, hok⟩ : ∃ fs, Sender.Succeeded x k e₀ (sentIn begun tr) t.left stats fs := by
      rw [Sender.SendInv, hret] at hinv
      exact hinv
    have heof (hmode : mode = .untilEof) : nextBytes (leftTrace tr) = [] := by
      by_contra hne
      exact (hnext hne).1 hmode
    refine ⟨[], reads_bodyWire hb hn hv hnew k.asInit _ hfit ?_ (fun hnone => ?_) heof, fun _ => ⟨rfl, hsome⟩, .inl rfl, heof⟩
    · rw [List.append_nil, ← hok.written]
      exact hwritten.symm
    · simp [hnone] at hsome
  · have hquiet : nextBytes (leftTrace tr) = [] := by
      by_contra hne
      exact hret (hnext hne).2
    obtain ⟨-, -, -, -, -, -, -, -, unwritten, hunwritten⟩ := Sender.inv_tail hk hinv
    refine ⟨unwritten, reads_bodyWire hb hn hv hnew k.asInit _ hfit ?_ (fun _ => hquiet) (fun _ => hquiet),
      fun hok => absurd hok hret, .inr hquiet, fun _ => hquiet⟩
    rw [hquiet, List.append_nil] at hwritten ⊢
    rw [← List.append_assoc, ← hwritten]
    exact hunwritten

/-- What a body has, at any moment, of what was produced for it at the other end. -/
structure Transferred (x : Crates) (cfg : ReceiveConfig) (mode : BodyMode) (content : BodyContent) (next : Bytes)
    (btr : List (BodyCall W × BodyOutput W)) (t : Link (Sender D V U E) (Receiver W) UInt8) : Prop where
  in_order : ∃ ds fields, framesOf (results btr) = ds.map .data ++ fields.toList.map .trailers ∧
    payloadOf ds <+: content.payload ∧
    ∀ f, fields = some f → payloadOf ds = content.payload ∧ content.ending.bind mode.receives = some f
  complete : t.right.point = .ended .complete →
    (mode = .untilEof → ∃ stats, t.left.phase = .returned (.ok stats)) →
    (mode = .chunked → content.ending.isSome = true) ∧ ∃ ds b,
      takenBy (pipeTrace btr) = ds.map .data ++ (content.ending.bind mode.receives).toList.map .trailers ∧
      payloadOf ds = content.payload ∧ t.right.owner = .idle b ∧ b.bytes ++ t.inFlight = next
  told_complete : ∀ b w s' out, t.right.pipe.incoming = some b → b.consumer = true →
    t.right.step x cfg (.body (.pollNext w)) = some (s', out) → .ok none ∈ results out.body →
    t.right.point = .ended .complete ∧ takenBy (pipeTrace btr) = framesOf (results btr)
  decodes : t.right.point = .demanding → t.right.eof = false → ∀ b, t.right.owner = .idle b →
    ∀ d error, t.right.decoder.decode x b.bytes false ≠ (d, .error error)
  no_wait : (∃ stats, t.left.phase = .returned (.ok stats)) → t.inFlight = [] → mode ≠ .untilEof →
    ∀ canceled, t.right.point ≠ .reading canceled

end

namespace Receiver

variable {R : Reception} {wire : Bytes} {btr : List (BodyCall W × BodyOutput W)} {s : Receiver W}
  {content : BodyContent} {later next : Bytes}

theorem Inv.told_complete (h : Inv R wire btr s) {b : Incoming} (hin : s.pipe.incoming = some b)
    (hreading : b.consumer = true) {w : W} {pipe : BodyPipe W} {o : BodyOutput W}
    (hs : s.pipe.step (.pollNext w) = some (pipe, o)) (hclean : o.result = some (.ok none)) :
    s.point = .ended .complete ∧ takenBy (pipeTrace btr) = framesOf (results btr) := by
  have hpipe := BodyPipe.inv_of_reaches h.orderly.reach
  have hafter := h.body hs rfl
  refine ⟨?_, ((framesOf_results h.orderly.reach).2 b hin hreading).symm⟩
  obtain ⟨frames, tail, hres, hframes, ⟨-, rfl⟩ | ⟨hbad, -⟩⟩ := (hpipe.reading b hin hreading).1
  · have hno (e : Error) : .error e ∉ results btr := by
      intro hmem
      rw [hres, List.append_nil] at hmem
      cases hframes _ hmem
    have hresults : results (btr ++ [(.pollNext w, o)]) = results btr ++ .ok none :: [] := by
      rw [results_append, hclean]
      rfl
    have hclosed := closed_of_clean (BodyPipe.inv_of_reaches hafter.orderly.reach) hresults hno
    exact hafter.complete_of_closed hclosed
  · cases hbad

theorem Orderly.in_order (h : Orderly R wire btr s.pipe)
    (hpart : ReadsPart R.mode content later next ((framing R.crates R.limits).run R.mode.start wire)) :
    ∃ ds fields, framesOf (results btr) = ds.map .data ++ fields.toList.map .trailers ∧
      payloadOf ds <+: content.payload ∧
      ∀ f, fields = some f → payloadOf ds = content.payload ∧ content.ending.bind R.mode.receives = some f := by
  obtain ⟨ds, fields, hframes, hpre, htrailers⟩ :=
    h.assigned.mono ((framesOf_results h.reach).1.trans h.ordered)
  refine ⟨ds, fields, hframes, hpre.trans hpart.payload, fun f hf => ?_⟩
  obtain ⟨charged, rest, hrun⟩ := htrailers f hf
  obtain ⟨hpayload, -, hfields, -⟩ := hpart.done (some f, charged) rest (by rw [hrun])
  rw [hrun] at hpayload
  exact ⟨hpayload, hfields.symm⟩

/-- Only a close-delimited body is completed by the end of the transport. -/
theorem untilEof_of_more {x : Crates} {limits : DecodeLimits} {mode : BodyMode} {wire : Bytes} {p : Place}
    (h : ((framing x limits).run mode.start wire).ending = .more p) (hplace : p.completeAtEof = true) :
    mode = .untilEof := by
  have hstart : mode.start.completeAtEof = true := by rw [← completeAtEof_run h, hplace]
  cases mode with
  | untilEof => rfl
  | none | fixed length | chunked => cases hstart

/-- A complete body that does not end with the connection is all that the wire holds of it. -/
theorem Closed.decoded (h : Closed R wire btr s) (heof : R.mode ≠ .untilEof) :
    ∃ b ds fields charged, s.owner = .idle b ∧
      takenBy (pipeTrace btr) = ds.map .data ++ (fields : Option Headers).toList.map .trailers ∧
      (framing R.crates R.limits).run R.mode.start wire = ⟨payloadOf ds, .done (fields, charged) b.bytes⟩ := by
  obtain ⟨b, ds, fields, howner, -, -, htaken, -, hverdict, hpayload, hrest⟩ := h
  obtain ⟨hfields, hbytes⟩ := hrest rfl
  rcases hrun : (framing R.crates R.limits).run R.mode.start wire with ⟨out, ending⟩
  rw [hrun] at hverdict hpayload hfields hbytes
  cases ending with
  | failed => cases hverdict
  | done r rest =>
    obtain ⟨fields', charged⟩ := r
    simp only [summary] at hpayload hfields hbytes
    subst hpayload hfields hbytes
    exact ⟨b, ds, _, charged, howner, htaken, rfl⟩
  | more p =>
    simp only [summary] at hverdict
    split_ifs at hverdict with hsaw hplace
    exact absurd (untilEof_of_more (by rw [hrun]) hplace) heof

/-- A complete body is all of what was sent. -/
theorem Closed.all (h : Closed R wire btr s) {inFlight unwritten : Bytes}
    (hpart : ReadsPart R.mode content (inFlight ++ unwritten) next
      ((framing R.crates R.limits).run R.mode.start wire))
    (hwritten : unwritten = [] ∨ next = [])
    (heof : R.mode = .untilEof → next = [] ∧ (s.eof = true → inFlight ++ unwritten = [])) :
    (R.mode = .chunked → content.ending.isSome = true) ∧ ∃ ds b,
      takenBy (pipeTrace btr) = ds.map .data ++ (content.ending.bind R.mode.receives).toList.map .trailers ∧
      payloadOf ds = content.payload ∧ s.owner = .idle b ∧ b.bytes ++ inFlight = next := by
  obtain ⟨b, ds, fields, howner, -, -, htaken, -, hverdict, hpayload, hrest⟩ := h
  obtain ⟨hfields, hbytes⟩ := hrest rfl
  rcases hrun : (framing R.crates R.limits).run R.mode.start wire with ⟨out, ending⟩
  rw [hrun] at hpart hverdict hpayload hfields hbytes
  cases ending with
  | failed => exact absurd rfl hpart.not_failed
  | done r rest =>
    obtain ⟨hout, hnext, hr, hchunked⟩ := hpart.done r rest rfl
    simp only [summary] at hpayload hfields hbytes
    refine ⟨hchunked, ds, b, ?_, hpayload.trans hout, howner, ?_⟩
    · rw [htaken, hfields, hr]
    · rw [hbytes]
      rcases hwritten with rfl | rfl
      · simpa using hnext
      · simp only [List.append_eq_nil_iff] at hnext
        simp [hnext]
  | more p =>
    -- only the end of the transport completes such a body
    simp only [summary] at hverdict hpayload hfields hbytes
    split_ifs at hverdict hpayload hfields hbytes with hsaw hplace
    have hmode : R.mode = .untilEof := untilEof_of_more (by rw [hrun]) hplace
    obtain ⟨hnext, hlater⟩ := heof hmode
    have hempty := hlater hsaw
    have hreceives : content.ending.bind R.mode.receives = none := by
      rw [hmode]
      cases content.ending <;> rfl
    refine ⟨by simp [hmode], ds, b, ?_, hpayload.trans (hpart.whole hempty).1, howner, ?_⟩
    · rw [htaken, hfields, hreceives]
    · simp only [List.append_eq_nil_iff] at hempty
      rw [hbytes, hempty.1, hnext]
      rfl

/-- A driver that waits for the transport has not read the end of the body. -/
theorem Starved.waits (h : Core R (R.Starved wire) btr s) :
    ∃ p, ((framing R.crates R.limits).run R.mode.start wire).ending = .more p := by
  obtain ⟨ds, t, bytes, -, -, hfollow, p, hused, -⟩ := h.drive
  refine ⟨p, ?_⟩
  simp only at hused
  simp [hfollow.run_eq, Drive.left, hused]

end Receiver

/-- **A body goes from one peer to the other as it was produced.** In every interleaving of
`send_body` with the receive driver at the other end, wherever either is cut off: the body is given
the payload in order and nothing else, trailers only after all of it; when it is complete all of it was
given, to its end where it is chunked, and exactly what follows it is left for the next message; a clean
end is told only then; what was encoded always decodes; and a driver never waits for bytes once all of a
body that was sent has arrived. A close-delimited body ends where the connection does: of a sender that
was cut off it is complete without the rest, and its driver waits for the end. -/
theorem body_transfer {x : Crates} (hx : x.HeadersWithin) (hb : x.HeaderBlocks) (hn : x.FoldsNames)
    (hv : x.KeepsValues) {k : SendBuffers D V U} (hk : k.Lawful) (cfg : ReceiveConfig) {mode : BodyMode}
    (hmode : ∀ n, mode = .fixed n → n < wordSize) {metadata : BodyMetadata} {config : EncodeConfig}
    {e₀ : BodyEncoder} (hnew : BodyEncoder.new mode metadata config = .ok e₀) (limits : DecodeLimits)
    {b : RecvBuffer} (hreach : b.Reachable) {t₀ : Link (Sender D V U E) (Receiver W) UInt8}
    (hstart : Receiver.start b mode hmode limits = some t₀.right) {token : Option Bool}
    {begun : List (SendEvent D E × SendOutput D E)} (hbegun : Underway x k e₀ token begun b.bytes t₀)
    {tr : TransferTrace D E W} {t : Link (Sender D V U E) (Receiver W) UInt8}
    (h : (transfer W x k mode cfg).Reaches t₀ tr t)
    (hfit : mode = .chunked → limits.Admit x e₀ (sentIn begun tr).obtained) :
    Transferred x cfg mode (contentOf x k.asInit e₀ (sentIn begun tr).obtained) (nextBytes (leftTrace tr))
      (bodyTrace (rightTrace tr)) t := by
  obtain ⟨unwritten, hpart, hsucceeded, hwritten, heof⟩ := transfer_reads hb hn hv hk hnew hbegun h hfit
  obtain ⟨⟨size, trailers⟩, -, hnewright⟩ := Option.map_eq_some_iff.mp hstart
  let R : Reception := ⟨x, mode, limits, size, trailers, b.maxRetained⟩
  have hright := Link.reaches_right h
  rw [← hnewright] at hright
  obtain ⟨hinv, -⟩ := Receiver.inv_of_reaches (R := R) hx hreach.sound rfl hright
  have hsaw (hend : t.right.eof = true) : t.inFlight = [] :=
    (Link.ended h (by rw [← hnewright]; rfl) hend).2
  refine ⟨hinv.orderly.in_order hpart, fun hpoint hok => ?_, fun body w s' out hin hreading hs hclean => ?_,
    fun hpoint hopen b' howner d error => ?_, fun hok hempty hne canceled hpoint => ?_⟩
  · simp only [Receiver.Inv, hpoint] at hinv
    refine (hinv.2 trivial).all hpart hwritten fun hmode => ⟨heof hmode, fun hend => ?_⟩
    rw [hsaw hend, (hsucceeded (hok hmode)).1]
    rfl
  · simp only [Receiver.step, BodyCall.isBody, if_true, Receiver.act] at hs
    split at hs
    · cases hs
    · rename_i pipe o hpipe
      cases hs
      refine hinv.told_complete hin hreading hpipe ?_
      cases ho : o.result with
      | none => simp [results, ReceiveOutput.quiet, ho] at hclean
      | some r => simpa [results, ReceiveOutput.quiet, ho, eq_comm] using hclean
  · simp only [Receiver.Inv, hpoint] at hinv
    obtain ⟨hcore, -, hdecoder, -⟩ := hinv
    have hdecode := hcore.decode_ok hx hpart.not_failed hopen hdecoder howner d error
    rwa [hopen] at hdecode
  · simp only [Receiver.Inv, hpoint] at hinv
    obtain ⟨p, hmore⟩ := Starved.waits hinv.1
    obtain ⟨rfl, hsome⟩ := hsucceeded hok
    obtain ⟨r, rest, hdone⟩ := (hpart.whole (by rw [hempty]; rfl)).2 hne hsome
    rw [hdone] at hmore
    cases hmore

def cutOff : List (LinkInput (OutboundInput Bytes Unit) (ReceiveInput Unit)) :=
  let idle : LinkInput (OutboundInput Bytes Unit) (ReceiveInput Unit) := .right (.poll ⟨(), false, false, none⟩)
  [.left (.send (.poll (some (.frame (.data [98, 111]))))), .left (.send .resume), .left (.send (.completed (.ok 7))),
    idle, .right (.body .nextFrame), .right (.body (.pollNext ())), idle,
    .right (.poll ⟨(), false, false, some (.portable (ascii "2\r\nbo\r\n") (.ok 7), false)⟩), idle, idle, idle,
    .right (.body (.pollNext ())), .close, .right (.body .dropNext), idle, idle, .right (.body .nextFrame),
    .right (.body (.pollNext ())), idle, .right (.poll ⟨(), false, false, some (.portable [] (.ok 0), false)⟩), idle,
    idle, .right (.body (.pollNext ()))]

theorem body_transfer_cut_off :
    ∃ tr : TransferTrace Bytes Unit Unit,
      ∃ t : Link (Sender Bytes ((Bytes × Bytes × Bytes) × ℕ) (Bytes × ℕ) Unit) (Receiver Unit) UInt8,
      Transferred reference ⟨false, true, true⟩ .chunked
        (contentOf reference id ⟨.chunked, 1024, true, 0, none, .mayHave⟩ (sentIn [] tr).obtained)
        (nextBytes (leftTrace tr)) (bodyTrace (rightTrace tr)) t ∧
      tr.map Prod.fst = cutOff ∧ (sentIn [] tr).written = ascii "2\r\nbo\r\n" ∧
      payloadOf ((framesOf (results (bodyTrace (rightTrace tr)))).filterMap Frame.data?) = [98, 111] ∧
      (results (bodyTrace (rightTrace tr))).length = 2 := by
  let b : RecvBuffer := ⟨.portable (.withCapacity 8), none, 8, 16⟩
  let e₀ : BodyEncoder := ⟨.chunked, 1024, true, 0, none, .mayHave⟩
  let t₀ : Link (Sender Bytes ((Bytes × Bytes × Bytes) × ℕ) (Bytes × ℕ) Unit) (Receiver Unit) UInt8 :=
    ⟨.start e₀ none, .new b .chunked .default .new .mayHave, [], false⟩
  have hreach : b.Reachable := ⟨8, 16, b, [], [], rfl, .start⟩
  have hevaluates : ((transfer Unit reference plainBuffers .chunked ⟨false, true, true⟩).run t₀ cutOff).map
      (fun r => ((sentIn [] r.1).obtained.all (·.data?.isSome), (sentIn [] r.1).written,
        payloadOf ((framesOf (results (bodyTrace (rightTrace r.1)))).filterMap Frame.data?),
        (results (bodyTrace (rightTrace r.1))).length)) = some (true, ascii "2\r\nbo\r\n", [98, 111], 2) := by
    decide +kernel
  obtain ⟨⟨tr, t⟩, hrun, heq⟩ := Option.map_eq_some_iff.mp hevaluates
  simp only [Prod.mk.injEq, List.all_eq_true] at heq
  obtain ⟨hdata, hrest⟩ := heq
  have hfit : DecodeLimits.Admit reference .default e₀ (sentIn [] tr).obtained := by
    refine ⟨by decide, by decide, by decide, fun fields hmem => ?_, ?_⟩
    · cases hdata _ hmem
    · rintro fields (rfl | hmem)
      · decide
      · cases hdata _ hmem
  have hbegun : Underway reference plainBuffers e₀ none [] b.bytes t₀ := ⟨.start, rfl⟩
  have hnew : BodyEncoder.new .chunked ⟨.new, .mayHave⟩ sampleConfig = .ok e₀ := rfl
  exact ⟨tr, t, body_transfer Reference.headersWithin Reference.headerBlocks Reference.foldsNames
    Reference.keepsValues plainBuffers_lawful _ (by simp) hnew .default hreach rfl hbegun
    (Machine.reaches_of_run hrun) (fun _ => hfit), Machine.run_inputs hrun, hrest⟩

end Vakya
