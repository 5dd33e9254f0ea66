import Vakya.ClientDriver
import Vakya.Response
import Vakya.Server

/-!
# Receiving a response (`proto/h1/client.rs`)

`receive` reads heads until the final one, offers each of them to the pending response, and then
receives the body. It shares the `Control` of the exchange with the application, which may take
events, read the body, abort the upload or give up, and with the other half of the exchange, which
may wait for `Continue` or cancel. Code between two suspensions is one operation, and every turn of
the head loop may suspend.
-/

namespace Vakya

open Library

structure ClientConfig where
  /-- `ConnectionSettings`, which both roles share. -/
  settings : ServerConfig
  continueWait : Bool

/-- `continue_allowed` and `continue_waker` of `Control`. -/
structure ContinueGate (W : Type) where
  allowed : Bool
  waker : Option W

namespace ContinueGate

variable {W : Type}

def new : ContinueGate W := ⟨false, none⟩

/-- `allow_continue`, with the task that it wakes. -/
def allow (g : ContinueGate W) : ContinueGate W × Option W := (⟨true, none⟩, g.waker)

/-- A poll of `wait_continue`; the guard of a wait that is over takes its waker back. -/
def poll (g : ContinueGate W) (w : W) : ContinueGate W × Bool :=
  if g.allowed then ({ g with waker := none }, true) else ({ g with waker := some w }, false)

def dropWait (g : ContinueGate W) : ContinueGate W := { g with waker := none }

end ContinueGate

inductive ClientPoint
  | start
  /-- At the top of the head loop. -/
  | top
  | reading
  /-- An informational head is offered. -/
  | informing
  /-- The final head is offered. -/
  | finalizing
  | receiving
  | returned (result : Except Error ReceivedResponse)
  /-- The exchange itself was dropped. -/
  | dropped

structure ClientReceive (W : Type) where
  control : Control W
  gate : ContinueGate W
  parser : HeadParser
  policy : ExchangePolicy
  /-- The buffer, unless the driver of the body has it. -/
  owner : BufferOwner
  point : ClientPoint
  /-- The driver of the body, with the `Incoming` it was created with. -/
  body : Option (Receiver W)
  pending : PendingResponse W

/-- What `receive` finds when it is polled. `overflow`: the deadline cannot be represented;
`expired`: it has passed. -/
structure ClientPoll (W : Type) where
  waker : W
  overflow : Bool
  expired : Bool
  completion : Option (Completion × Bool)

inductive ClientCall (W : Type)
  | poll (p : ClientPoll W)
  /-- An operation of the application on the pending response. -/
  | pending (call : PendingCall W)
  /-- An operation of the application on the body. -/
  | body (call : BodyCall W)
  | releaseLease
  /-- The other half of the exchange, or the shutdown of the connection, cancels. -/
  | cancel
  | abort
  | uploaded
  | pollContinue (waker : W)
  | dropContinue
  /-- The exchange failed, and its observer is told. -/
  | fail (error : Error)
  | drop

/-- What was done to the response channel and to the body, what the application was returned, the
bytes that arrived, the waiter that was woken, and whether a wait for `Continue` is over. -/
structure ClientOutput (W : Type) where
  calls : List (EventCall W × EventCallOutput W)
  result : Option EventResult
  body : List (BodyCall W × BodyOutput W)
  arrived : Bytes
  woke : Option W
  permitted : Bool

def ClientOutput.quiet {W : Type} : ClientOutput W := ⟨[], none, [], [], none, false⟩

def observationAbandoned : Error := .new .canceled "response observation abandoned"

def finalHeadDeadline : Error :=
  (Error.new .timeout "final response head deadline exceeded").withDetail (.timeout .head)

def endedBeforeFinal (empty : Bool) : Error :=
  .new (if empty then .closed else .invalidMessage) "connection ended before a final response head"

def PendingOutput.event {W : Type} (o : PendingOutput W) : PipeEvent ResponseEvent Error :=
  match o.calls with
  | (_, out) :: _ => out.event
  | [] => .quiet

def PendingCall.isApplication {W : Type} : PendingCall W → Bool
  | .producer _ => false
  | _ => true

namespace ClientReceive

variable {x : Crates} {W : Type}

abbrev Result (W : Type) := Option (ClientReceive W × ClientOutput W)

def start (cfg : ClientConfig) (policy : ExchangePolicy) (b : RecvBuffer) : ClientReceive W :=
  ⟨.new, .new, cfg.settings.parser, policy, .idle b, .start, none, .new⟩

def suspend (s : ClientReceive W) (point : ClientPoint) : Result W := some ({ s with point }, .quiet)

def act (s : ClientReceive W) (call : EventCall W)
    (k : ClientReceive W → PipeEvent ResponseEvent Error → Result W) : Result W :=
  match s.pending.step (.producer call) with
  | none => none
  | some (pending, o) =>
    (k { s with pending } o.event).map fun (s, out) => (s, { out with calls := o.calls ++ out.calls })

/-- What is left of the body when its driver is dropped before it began: nothing, if its `Incoming`
is dropped with the event that was not delivered. -/
def dropBody (s : ClientReceive W) : Option (Receiver W) × List (BodyCall W × BodyOutput W) :=
  match s.body with
  | none => (none, [])
  | some driver =>
    if s.pending.delivered then
      match driver.drop with
      | some (driver, out) => (some driver, out.body)
      | none => (some driver, [])
    else (none, [])

/-- `receive` returns an error and drops what it owns. -/
def fail (s : ClientReceive W) (e : Error) : Result W :=
  let (body, calls) := s.dropBody
  some ({ s with owner := .lost s.owner.permit, body, point := .returned (.error e) },
    { ClientOutput.quiet with body := calls })

def complete (s : ClientReceive W) (ended : ReceiveEnd) (buffer : Bytes) : ClientReceive W :=
  { s with point := .returned (.ok ⟨ended, buffer, s.policy⟩) }

def offerEvent (s : ClientReceive W) (event : ResponseEvent) (point : ClientPoint) : Result W :=
  s.act (.offer event) fun s _ => s.suspend point

def finalize (cfg : ClientConfig) (s : ClientReceive W) (b : RecvBuffer) (head : ValidatedResponseHead) :
    Result W :=
  if h : ∀ n, head.body = .fixed n → n < wordSize then
    match incoming head.body h with
    | none => s.offerEvent (.final head.head none) .finalizing
    | some (size, trailers) =>
      let driver := Receiver.new b head.body cfg.settings.decode size trailers
      { s with owner := .lost none, body := some driver }.offerEvent (.final head.head (some (size, trailers)))
        .finalizing
  -- A length that no parser returns.
  else s.fail (HeadError.toError .invalidContentLength)

def waking (woke : Option W) (r : Result W) : Result W := r.map fun (s, out) => (s, { out with woke })

/-- The `match` on the action of an accepted head. Permission is released before the head is
offered. -/
def accept (cfg : ClientConfig) (s : ClientReceive W) (b : RecvBuffer) (head : ValidatedResponseHead)
    (action : HeadAction) : Result W :=
  match action with
  | .informational =>
    let (gate, woke) := if head.head.status.code = 100 then s.gate.allow else (s.gate, none)
    waking woke ({ s with gate }.offerEvent (.informational head.head) .informing)
  | .final | .upgrade _ =>
    let (gate, woke) := s.gate.allow
    waking woke ({ s with gate }.finalize cfg b head)

def scan (x : Crates) (cfg : ClientConfig) (s : ClientReceive W) (b : RecvBuffer) (expired : Bool) : Result W :=
  if cfg.settings.headTimeout && expired then s.fail headDeadline
  else
    match s.parser.headLen b.bytes with
    | (parser, .error e) => { s with parser }.fail e.toError
    | (parser, .ok none) => { s with parser }.suspend .reading
    | (parser, .ok (some consumed)) =>
      match b.takeSharedPrefix consumed with
      | (_, .error e) => { s with parser }.fail e
      | (b, .ok input) =>
        match parser.parseSharedResponse x input with
        | (parser, .error e) => { s with parser }.fail e.toError
        | (parser, .ok head) =>
          match s.policy.receiveHead head with
          | (policy, .error e) => { s with parser, policy }.fail e
          | (policy, .ok (head, action)) => { s with parser, policy, owner := .idle b }.accept cfg b head action

def pollReading (cfg : ClientConfig) (s : ClientReceive W) (p : ClientPoll W) : Result W :=
  match s.owner.pollRead cfg.settings.heads s.control.exchange p.completion with
  | none | some .panicked => none
  | some (.pending owner) => { s with owner }.suspend .reading
  | some (.ready b result) =>
    let arrived := b.bytes.drop (s.owner.bytes.getD []).length
    let s := { s with owner := .idle b }
    let next : Result W := match result with
      | .error e => s.fail e
      | .ok .eof => s.fail (endedBeforeFinal (b.bytes == []))
      | .ok (.data _) => s.suspend .top
    next.map fun (s, out) => (s, { out with arrived })

/-- A poll of `offer_event`; `timed`: under the deadline of the head. -/
def pollOffer (cfg : ClientConfig) (s : ClientReceive W) (p : ClientPoll W) (timed : Bool)
    (k : ClientReceive W → Result W) : Result W :=
  if timed && cfg.settings.headTimeout && p.expired then
    s.act .dropFuture fun s _ => s.fail finalHeadDeadline
  else if s.control.exchange then s.act .dropFuture fun s _ => s.fail observationAbandoned
  else
    s.act (.pollProducer p.waker) fun s event =>
      match event with
      | .offer _ (some (.ok ())) => s.act .dropFuture fun s _ => k s
      | .offer _ (some (.error _)) => s.act .dropFuture fun s _ => s.fail observationAbandoned
      | _ => s.suspend s.point

/-- The final head was taken: the channel is closed, and the body follows. -/
def handOver (s : ClientReceive W) : Result W :=
  s.act .close fun s _ =>
    match s.body, s.owner with
    | some _, _ => s.suspend .receiving
    | none, .idle b => some (s.complete .complete b.bytes, .quiet)
    | none, _ => none

def settleBody (s : ClientReceive W) (driver : Receiver W) : ClientReceive W :=
  let s := { s with body := some driver }
  match driver.point with
  | .ended (.failed e) => { s with point := .returned (.error e) }
  | .ended how => s.complete how (driver.owner.bytes.getD [])
  | _ => s

def pollBody (x : Crates) (cfg : ClientConfig) (s : ClientReceive W) (p : ClientPoll W) : Result W :=
  match s.body with
  | none => none
  | some driver =>
    (driver.poll x cfg.settings.bodies ⟨p.waker, s.control.exchange, p.overflow, p.completion⟩).map
      fun (driver, out) => (s.settleBody driver, { ClientOutput.quiet with body := out.body, arrived := out.arrived })

def poll (x : Crates) (cfg : ClientConfig) (s : ClientReceive W) (p : ClientPoll W) : Result W :=
  match s.point, s.owner with
  | .start, _ =>
    if cfg.settings.headTimeout && p.overflow then s.fail (.new .localMessage "invalid timeout duration")
    else s.suspend .top
  | .top, .idle b => s.scan x cfg b p.expired
  | .top, _ => none
  | .reading, _ => s.pollReading cfg p
  | .informing, _ => s.pollOffer cfg p true fun s => s.suspend .top
  | .finalizing, _ => s.pollOffer cfg p false handOver
  | .receiving, _ => s.pollBody x cfg p
  | .returned _, _ | .dropped, _ => none

/-- The driver of the body, or the loop, is dropped, and then the producer of the response. -/
def drop (s : ClientReceive W) : Result W :=
  let (body, calls) := s.dropBody
  let gone : ClientReceive W := { s with owner := .lost s.owner.permit, body, point := .dropped }
  let out : ClientOutput W := { ClientOutput.quiet with body := calls }
  match s.point with
  | .dropped => none
  | .informing | .finalizing => gone.act .dropFuture fun s _ => s.act .dropProducer fun s _ => some (s, out)
  | _ =>
    if gone.pending.channel.producer.isSome then gone.act .dropProducer fun s _ => some (s, out)
    else some (gone, out)

/-- The last view of a managed buffer is dropped, between two bodies or in the body. -/
def releaseLease (x : Crates) (cfg : ClientConfig) (s : ClientReceive W) : Result W :=
  match s.body with
  | some driver =>
    (driver.step x cfg.settings.bodies .releaseLease).map fun (driver, _) => ({ s with body := some driver }, .quiet)
  | none =>
    match s.owner.permit with
    | some ⟨true, granted⟩ => some ({ s with owner := s.owner.setPermit ⟨false, granted⟩ }, .quiet)
    | _ => none

def step (x : Crates) (cfg : ClientConfig) (s : ClientReceive W) : ClientCall W → Result W
  | .poll p => s.poll x cfg p
  | .pending call =>
    if call.isApplication then
      (s.pending.step call).map fun (pending, o) =>
        ({ s with pending, control := if o.canceled then s.control.cancel else s.control },
          { ClientOutput.quiet with calls := o.calls, result := o.result })
    else none
  | .body call =>
    match s.body with
    | some driver =>
      if s.pending.delivered then
        (driver.step x cfg.settings.bodies (.body call)).map fun (driver, out) =>
          ({ s with body := some driver }, { ClientOutput.quiet with body := out.body })
      else none
    | none => none
  | .releaseLease => s.releaseLease x cfg
  | .cancel => some ({ s with control := s.control.cancel }, .quiet)
  | .abort => some ({ s with control := s.control.abort }, .quiet)
  | .uploaded => some ({ s with control := { s.control with uploadComplete := true } }, .quiet)
  | .pollContinue w =>
    let (gate, permitted) := s.gate.poll w
    some ({ s with gate }, { ClientOutput.quiet with permitted })
  | .dropContinue => some ({ s with gate := s.gate.dropWait }, .quiet)
  | .fail e =>
    match s.point with
    | .returned (.error _) => s.act (.fail e) fun s _ => s.suspend s.point
    | _ => none
  | .drop => s.drop

end ClientReceive

/-- Every interleaving of `receive` with the application, the other half of the exchange and the
transport. -/
def clientReceive (W : Type) (x : Crates) (cfg : ClientConfig) :
    Machine (ClientReceive W) (ClientCall W) (ClientOutput W) where
  step := ClientReceive.step x cfg

end Vakya
