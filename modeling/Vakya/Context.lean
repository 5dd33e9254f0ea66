import Vakya.Fate

/-!
# Informational responses (`server/context.rs`, `proto/h1/server.rs`)

A service sends informational heads through one command slot. The writer loop
of the connection takes them from there, encodes, writes and flushes them, and
acknowledges the result; it also writes the automatic 100 Continue that body
demand asks for. The first poll of an asynchronous function runs it up to its
first suspension, so that poll is one operation here. Wakers are identified
with the task they wake.
-/

namespace Vakya

open Library

/-- `Response<()>`, with the `HeaderCaseMap` of its extensions. -/
structure InformationalResponse where
  status : StatusCode
  version : Version
  headers : Headers
  originalCase : Option HeaderCaseMap

/-- Where the service may still queue a command. -/
inductive ContextAdmission
  | opened
  | finalSelected
  | closed
deriving DecidableEq, Repr

inductive AutomaticContinue
  | idle
  | requested
  | complete
deriving DecidableEq, Repr

inductive CommandState
  | idle
  | queued (response : InformationalResponse)
  | writing
  | writingAbandoned
  | complete (result : Except Error Unit)

def CommandState.abandon : CommandState → CommandState
  | .writing | .writingAbandoned => .writingAbandoned
  | _ => .idle

/-- What `next` returns; `hundredContinue` is `Command::Continue`. -/
inductive Command
  | hundredContinue
  | application (response : InformationalResponse)

/-- `Response::builder().status(100)`: the default version and no fields. -/
def continueResponse : InformationalResponse := ⟨⟨100, by decide⟩, .http11, .empty, none⟩

def Command.response : Command → InformationalResponse
  | .hundredContinue => continueResponse
  | .application response => response

def Command.automatic : Command → Bool
  | .hundredContinue => true
  | .application _ => false

/-- Where `write_informationals` stands between two suspensions, or just after `next` returned. -/
inductive WriterLoop
  | waiting
  | holding (command : Command)
  | writing (automatic : Bool) (head : Bytes)
  | flushing (automatic : Bool)
  | stopped (result : Except Error Unit)

/-- The shared state and who holds it: a send that passed its checks, the permission to read the
body, the writer loop and the `InformationalReceiver` itself. -/
structure Context (W : Type) where
  admission : ContextAdmission
  automaticContinue : AutomaticContinue
  command : CommandState
  application : Option W
  writer : Option W
  receiver : Option W
  /-- A `SendGuard` is alive. -/
  sending : Bool
  /-- `producer.demand()` has returned `Ok`. -/
  demanded : Bool
  permission : Bool
  writerLoop : WriterLoop
  /-- Heads that the loop has written. -/
  count : ℕ
  driver : Bool

structure WriterConfig where
  version : Version
  maxInformational : ℕ
  encoding : EncodeConfig

def informationalHead (x : Crates) (cfg : WriterConfig) (count : ℕ) (response : InformationalResponse) :
    Except Error Bytes :=
  if cfg.version ≠ .http11 then
    .error (.new .unsupported "informational responses require HTTP/1.1")
  else if count = cfg.maxInformational then
    .error ((Error.new .limit "too many informational responses").withDetail
      (.outgoingLimit .informationalResponses))
  else
    match prepareResponseHead x response.status response.version response.headers response.originalCase
        ⟨.withExact 0 zero_lt_wordSize, .none⟩ .get cfg.encoding with
    | .ok plan => .ok plan.bytes
    | .error e => .error e.toError

inductive ContextCall (W : Type)
  | send (response : InformationalResponse) (waker : W)
  | pollSend (waker : W)
  | dropSend
  | demand
  | continuePermission (waker : W)
  | pollPermission (waker : W)
  | dropPermission
  | next (waker : W)
  /-- The cancellation wins against `next`. -/
  | cancelNext
  | encode
  | wrote (result : Except Error Unit)
  | flushed (result : Except Error Unit)
  | selectFinal
  | dropReceiver

inductive ContextEvent
  | quiet
  | queued (response : InformationalResponse)
  | sent (result : Except Error Unit)
  | permitted (result : Option (Except Error Unit))
  | next (result : Option (Option Command))
  | encoded (head : Bytes)
  /-- All bytes of the head are written. -/
  | wrote (head : Bytes)
  /-- `complete` was called with this result. -/
  | acknowledged (result : Except Error Unit)
  | continued
  | stopped
  | panicked

structure ContextOutput (W : Type) where
  event : ContextEvent
  woke : List W

namespace Context

variable {W : Type}

def channel : Context W where
  admission := .opened
  automaticContinue := .idle
  command := .idle
  application := none
  writer := none
  receiver := none
  sending := false
  demanded := false
  permission := false
  writerLoop := .waiting
  count := 0
  driver := true

def closedError : Error := .new .closed "informational writer closed"

def lateError : Error := .new .localMessage "final response already selected"

def dropSend (s : Context W) : Context W :=
  { s with command := s.command.abandon, application := none, sending := false }

/-- `send_informational` up to its first suspension. -/
def send (s : Context W) (response : InformationalResponse) (w : W) : Context W × ContextOutput W :=
  let fail (e : Error) : Context W × ContextOutput W := (s, ⟨.sent (.error e), []⟩)
  if response.status.isInformational = false ∨ response.status.code = 100 ∨ response.status.code = 101 then
    fail (.new .localMessage "application informational status must exclude 100 and 101")
  else if s.admission = .closed then fail closedError
  else if s.admission = .finalSelected then fail lateError
  else
    match s.command with
    | .idle =>
      ({ s with command := .queued response, writer := none, application := some w, sending := true },
        ⟨.queued response, s.writer.toList⟩)
    | _ => fail ((Error.new .busy "informational write is still settling").withDetail
        (.busy .informationalWrite))

def pollSend (s : Context W) (w : W) : Context W × ContextOutput W :=
  match s.command with
  | .complete result => (dropSend { s with command := .idle }, ⟨.sent result, []⟩)
  | _ =>
    if s.admission = .closed then (s.dropSend, ⟨.sent (.error closedError), []⟩)
    else ({ s with application := some w }, ⟨.quiet, []⟩)

def pollPermission (s : Context W) (w : W) : Context W × ContextOutput W :=
  if s.admission = .closed then
    ({ s with permission := false }, ⟨.permitted (some (.error closedError)), []⟩)
  else if s.admission = .finalSelected ∨ s.automaticContinue = .complete then
    ({ s with permission := false }, ⟨.permitted (some (.ok ())), []⟩)
  else ({ s with receiver := some w }, ⟨.permitted none, []⟩)

def continuePermission (s : Context W) (w : W) : Context W × ContextOutput W :=
  let demand := if s.automaticContinue = .idle then .requested else s.automaticContinue
  let (t, o) := pollPermission { s with
    automaticContinue := demand, writer := none, permission := true } w
  (t, { o with woke := s.writer.toList })

def complete (s : Context W) (result : Except Error Unit) : Context W × ContextOutput W :=
  match s.command with
  | .writing =>
    ({ s with command := .complete result, application := none }, ⟨.acknowledged result, s.application.toList⟩)
  | .writingAbandoned =>
    ({ s with command := .idle, application := none }, ⟨.acknowledged result, s.application.toList⟩)
  | _ => (s, ⟨.panicked, []⟩)

def continued (s : Context W) : Context W × ContextOutput W :=
  ({ s with automaticContinue := .complete, receiver := none }, ⟨.continued, s.receiver.toList⟩)

def next (s : Context W) (w : W) : Context W × ContextOutput W :=
  if s.admission ≠ .opened then ({ s with writerLoop := .stopped (.ok ()) }, ⟨.next (some none), []⟩)
  else if s.automaticContinue = .requested then
    ({ s with writerLoop := .holding .hundredContinue }, ⟨.next (some (some .hundredContinue)), []⟩)
  else
    match s.command with
    | .queued response =>
      ({ s with command := .writing, writerLoop := .holding (.application response) },
        ⟨.next (some (some (.application response))), []⟩)
    | _ => ({ s with writer := some w }, ⟨.next none, []⟩)

/-- The loop returns an error; the sender of an application head is told as well. -/
def stop (s : Context W) (automatic : Bool) (e : Error) : Context W × ContextOutput W :=
  let s := { s with writerLoop := .stopped (.error e) }
  if automatic then (s, ⟨.stopped, []⟩) else s.complete (.error e)

def encode (x : Crates) (cfg : WriterConfig) (s : Context W) (command : Command) :
    Context W × ContextOutput W :=
  match informationalHead x cfg s.count command.response with
  | .ok head =>
    ({ s with writerLoop := .writing command.automatic head }, ⟨.encoded head, []⟩)
  | .error e =>
    -- A head that cannot be encoded is not a failure of the connection, unless it is the driver's.
    if command.automatic then ({ s with writerLoop := .stopped (.error e) }, ⟨.stopped, []⟩)
    else complete { s with writerLoop := .waiting } (.error e)

def wrote (s : Context W) (automatic : Bool) (head : Bytes) :
    Except Error Unit → Context W × ContextOutput W
  | .ok () => ({ s with writerLoop := .flushing automatic }, ⟨.wrote head, []⟩)
  | .error e => s.stop automatic e

def flushed (s : Context W) (automatic : Bool) : Except Error Unit → Context W × ContextOutput W
  | .ok () =>
    let s := { s with writerLoop := .waiting, count := s.count + 1 }
    if automatic then s.continued else s.complete (.ok ())
  | .error e => s.stop automatic e

def selectFinal (s : Context W) : Context W × ContextOutput W :=
  let admission := if s.admission = .opened then .finalSelected else s.admission
  let command := match s.command with
    | .queued _ => .complete (.error lateError)
    | command => command
  ({ s with admission := admission, command := command, application := none, writer := none, receiver := none },
    ⟨.quiet, s.application.toList ++ s.writer.toList ++ s.receiver.toList⟩)

/-- The destructor of `InformationalReceiver`; whatever borrows it is gone before. -/
def dropReceiver (s : Context W) : Context W × ContextOutput W :=
  ({ s with admission := .closed, application := none, receiver := none, permission := false, driver := false },
    ⟨.quiet, s.application.toList ++ s.receiver.toList⟩)

def step (x : Crates) (cfg : WriterConfig) (s : Context W) :
    ContextCall W → Option (Context W × ContextOutput W)
  | .send response w => if s.sending then none else some (s.send response w)
  | .pollSend w => if s.sending then some (s.pollSend w) else none
  | .dropSend => if s.sending then some (s.dropSend, ⟨.quiet, []⟩) else none
  | .demand => if s.driver && !s.demanded then some ({ s with demanded := true }, ⟨.quiet, []⟩) else none
  | .continuePermission w =>
    if s.driver && s.demanded && !s.permission then some (s.continuePermission w) else none
  | .pollPermission w => if s.driver && s.permission then some (s.pollPermission w) else none
  | .dropPermission =>
    if s.driver && s.permission then some ({ s with permission := false }, ⟨.quiet, []⟩) else none
  | .next w =>
    match s.driver, s.writerLoop with
    | true, .waiting => some (s.next w)
    | _, _ => none
  | .cancelNext =>
    match s.driver, s.writerLoop with
    | true, .waiting =>
      some ({ s with writerLoop := .stopped (.error (.new .canceled "informational writer canceled")) },
        ⟨.stopped, []⟩)
    | _, _ => none
  | .encode =>
    match s.driver, s.writerLoop with
    | true, .holding command => some (s.encode x cfg command)
    | _, _ => none
  | .wrote result =>
    match s.driver, s.writerLoop with
    | true, .writing automatic head => some (s.wrote automatic head result)
    | _, _ => none
  | .flushed result =>
    match s.driver, s.writerLoop with
    | true, .flushing automatic => some (s.flushed automatic result)
    | _, _ => none
  | .selectFinal => if s.driver then some s.selectFinal else none
  | .dropReceiver => if s.driver then some s.dropReceiver else none

end Context

def informational (x : Crates) (cfg : WriterConfig) (W : Type) :
    Machine (Context W) (ContextCall W) (ContextOutput W) where
  step := Context.step x cfg

end Vakya
