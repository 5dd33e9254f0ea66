import Vakya.Fragmentation
import Vakya.CleanEnd
import Vakya.RecvQueue

/-!
# The receive driver (`proto/h1/body_io.rs`)

`receive_body_configured` moves one body from the retained input of a
connection to its `Incoming`. A driver is polled from suspension to
suspension; between two polls the body, the transport and whoever cancels may
do anything. The fairness budget of the loop only adds suspensions, and every
turn may suspend here.
-/

namespace Vakya

open Library

variable {W : Type}

/-- What `incoming` promises about a body, when it makes one with a producer. -/
def incoming (mode : BodyMode) (h : ∀ n, mode = .fixed n → n < wordSize) :
    Option (SizeHint × TrailerHint) :=
  match mode, h with
  | .none, _ | .fixed 0, _ => none
  | .fixed (n + 1), h => some (.withExact (n + 1) (h _ rfl), .none)
  | .chunked, _ => some (.new, .mayHave)
  | .untilEof, _ => some (.new, .none)

def DecodeOutcome.payload : DecodeOutcome → ℕ
  | .data start stop _ => stop - start
  | _ => 0

def BodyOutput.event (o : BodyOutput W) : PipeEvent (Frame IncomingData) Error :=
  match o.calls with
  | (_, out) :: _ => out.event
  | [] => .quiet

def BodyCall.isBody : BodyCall W → Bool
  | .producer _ | .chargeDrain _ _ => false
  | _ => true

inductive ReceiveEnd
  | complete
  | abandoned
  | failed (error : Error)

inductive ReceivePoint
  | top
  | demanding
  /-- Whether the abandonment of the body was passed on to the read. -/
  | reading (canceled : Bool)
  | offering
  | ended (how : ReceiveEnd)
  /-- The driver itself was dropped. -/
  | dropped
  | panicked

/-- The strategy, and which of the optional arguments are there. -/
structure ReceiveConfig where
  tcp : Bool
  cancellation : Bool
  progressTimeout : Bool

/-- The completion of a read that was submitted to the transport. -/
inductive Completion
  | portable (appended : Bytes) (result : Except Error ℕ)
  | managed (result : Except Error (Option Bytes))

/-- What the driver finds when it is polled. `overflow`: the deadline cannot be represented;
the flag of a completion: the deadline had elapsed before it. -/
structure DriverPoll (W : Type) where
  waker : W
  canceled : Bool
  overflow : Bool
  completion : Option (Completion × Bool)

structure Receiver (W : Type) where
  point : ReceivePoint
  owner : BufferOwner
  decoder : BodyDecoder
  eof : Bool
  pipe : BodyPipe W

/-- What the driver and the body did to the rendezvous, the bytes that were added to the
retained input, and an error of `consume` or `take_payload`. -/
structure ReceiveOutput (W : Type) where
  body : List (BodyCall W × BodyOutput W)
  arrived : Bytes
  refused : Option Error

def ReceiveOutput.quiet : ReceiveOutput W := ⟨[], [], none⟩

def readUntil (elapsed : Bool) (result : Except Error ReadStatus) : Except Error ReadStatus :=
  let timeout := (Error.new .timeout "HTTP receive deadline exceeded").withDetail (.timeout .head)
  match result with
  | .ok _ => if elapsed then .error timeout else result
  | .error e => if elapsed ∧ e.kind = .canceled then .error timeout else result

def bodyProgress (e : Error) : Error :=
  if e.detail = some (.timeout .head) then e.withDetail (.timeout .bodyProgress) else e

inductive ReadPoll
  | pending (owner : BufferOwner)
  | ready (buffer : RecvBuffer) (result : Except Error ReadStatus)
  | panicked

/-- A read that the transport has. It writes at most into the slice it was given. -/
def BufferOwner.settle (timed : Bool) (owner : BufferOwner) :
    Option (Completion × Bool) → Option ReadPoll
  | none => some (.pending owner)
  | some (completion, elapsed) =>
    match owner, completion with
    | .reading b slice target, .portable appended result =>
      if appended.length ≤ target then
        let (b, status) := b.finishRead slice target appended result
        some (.ready b (readUntil (timed && elapsed) status))
      else none
    | .readingManaged b target, .managed result =>
      let (b, status) := b.finishReadManaged target result
      some (.ready b (readUntil (timed && elapsed) status))
    | _, _ => none

def BufferOwner.pollRead (cfg : ReceiveConfig) (canceled : Bool) (owner : BufferOwner)
    (completion : Option (Completion × Bool)) : Option ReadPoll :=
  match owner with
  | .idle b =>
    match if cfg.tcp then b.beginReadManaged canceled else b.beginRead canceled with
    | (b, .done result) => some (.ready b result)
    | (b, .portable slice target) =>
      BufferOwner.settle cfg.progressTimeout (.reading b slice target) completion
    | (b, .managed target) => BufferOwner.settle cfg.progressTimeout (.readingManaged b target) completion
    | (_, .panicked) => some .panicked
  | owner => owner.settle cfg.progressTimeout completion

namespace Receiver

abbrev Result (W : Type) := Option (Receiver W × ReceiveOutput W)

def act (s : Receiver W) (call : BodyCall W) (k : Receiver W → BodyOutput W → Result W) : Result W :=
  match s.pipe.step call with
  | none => none
  | some (pipe, o) =>
    (k { s with pipe } o).map fun (s, out) => (s, { out with body := (call, o) :: out.body })

def suspend (s : Receiver W) (point : ReceivePoint) : Result W := some ({ s with point }, .quiet)

def fail (s : Receiver W) (error : Error) : Result W :=
  s.act (.producer (.fail error)) fun s _ => s.suspend (.ended (.failed error))

def abandon (s : Receiver W) : Result W :=
  s.act (.producer .dropProducer) fun s _ => s.suspend (.ended .abandoned)

def complete (s : Receiver W) : Result W :=
  s.act (.producer .close) fun s _ => s.suspend (.ended .complete)

def refuse (s : Receiver W) (error : Error) : Result W :=
  (s.fail error).map fun (s, out) => (s, { out with refused := some error })

def top (s : Receiver W) : Result W :=
  if s.decoder.isComplete then s.complete
  else s.act (.producer .demand) fun s _ => s.suspend .demanding

def afterRead (s : Receiver W) (result : Except Error ReadStatus) : Result W :=
  -- the read was finished first, so the buffer is back whatever follows
  if s.pipe.channel.isAbandoned then s.abandon
  else
    match result with
    | .ok .eof => suspend { s with eof := true } .top
    | .ok (.data _) => s.suspend .top
    | .error e => s.fail e

def readOrAbandoned (cfg : ReceiveConfig) (p : DriverPoll W) (s : Receiver W) : Result W :=
  if cfg.progressTimeout && p.overflow then
    s.afterRead (.error (.new .localMessage "invalid timeout duration"))
  else s.act (.producer .abandoned) fun s _ => s.suspend (.reading false)

def consume (s : Receiver W) (b : RecvBuffer) (count : ℕ) (k : Receiver W → Result W) : Result W :=
  match b.consume count with
  | (b, .error e) => refuse { s with owner := .idle b } e
  | (b, .ok ()) => k { s with owner := .idle b }

def offer (s : Receiver W) (frame : Frame IncomingData) : Result W :=
  s.act (.producer (.offer frame)) fun s _ => s.suspend .offering

def deliver (cfg : ReceiveConfig) (p : DriverPoll W) (s : Receiver W) (b : RecvBuffer) :
    DecodeOutcome → Result W
  | .needMore consumed => s.consume b consumed (readOrAbandoned cfg p)
  | .data start stop consumed =>
    match b.takePayload start stop consumed with
    | none => s.suspend .panicked
    | some (b, .error e) => refuse { s with owner := .idle b } e
    | some (b, .ok data) => offer { s with owner := .idle b } (.data data)
  | .trailers trailers consumed => s.consume b consumed fun s => s.offer (.trailers trailers)
  | .ended consumed => s.consume b consumed complete

def decode (x : Crates) (cfg : ReceiveConfig) (p : DriverPoll W) (s : Receiver W) (b : RecvBuffer) :
    Result W :=
  match s.decoder.decode x b.bytes s.eof with
  | (d, .error e) => fail { s with decoder := d } e.toError
  | (d, .ok outcome) =>
    let s := { s with decoder := d }
    -- charged before the bytes leave the buffer
    let charged := s.pipe.remaining.charge outcome.consumed outcome.payload
    s.act (.chargeDrain outcome.consumed outcome.payload) fun s _ =>
      match charged with
      | .error limit =>
        s.fail ((Error.new .limit "body drain payload or wire limit exceeded").withDetail
          (.incomingLimit limit))
      | .ok _ => s.deliver cfg p b outcome

/-- A cancellation wins the race with the wait it cancels, and drops it. -/
def canceled (s : Receiver W) : Result W :=
  s.act (.producer .dropFuture) fun s _ => s.fail operationCanceled

def pollDemand (x : Crates) (cfg : ReceiveConfig) (p : DriverPoll W) (s : Receiver W) : Result W :=
  if cfg.cancellation && p.canceled then s.canceled
  else
    s.act (.producer (.pollProducer p.waker)) fun s o =>
      match o.event with
      | .demand (some (.ok ())) =>
        s.act (.producer .dropFuture) fun s _ =>
          match s.owner with
          | .idle b => s.decode x cfg p b
          | _ => none
      | .demand (some (.error _)) => s.act (.producer .dropFuture) fun s _ => s.abandon
      | _ => s.suspend .demanding

/-- The race between the read and the abandonment; after the latter only the read is awaited. -/
def pollReading (cfg : ReceiveConfig) (p : DriverPoll W) (s : Receiver W) (canceled : Bool) : Result W :=
  match s.owner.pollRead cfg canceled p.completion with
  | none => none
  | some .panicked => s.suspend .panicked
  | some (.ready b result) =>
    let arrived := b.bytes.drop (s.owner.bytes.getD []).length
    (act { s with owner := .idle b } (.producer .dropFuture) fun s _ =>
      s.afterRead (result.mapError bodyProgress)).map fun (s, out) => (s, { out with arrived })
  | some (.pending owner) =>
    let s := { s with owner }
    if canceled then s.suspend (.reading true)
    else
      s.act (.producer (.pollProducer p.waker)) fun s o =>
        match o.event with
        | .abandoned true => s.suspend (.reading true)
        | _ => s.suspend (.reading false)

def pollOffer (cfg : ReceiveConfig) (p : DriverPoll W) (s : Receiver W) : Result W :=
  if cfg.cancellation && p.canceled then s.canceled
  else
    s.act (.producer (.pollProducer p.waker)) fun s o =>
      match o.event with
      | .offer _ (some (.ok ())) => s.act (.producer .dropFuture) fun s _ => s.suspend .top
      | .offer _ (some (.error (.abandoned _))) =>
        s.act (.producer .dropFuture) fun s _ => s.abandon
      | .offer _ (some (.error (.closed _))) =>
        s.act (.producer .dropFuture) fun s _ => s.act (.producer .dropProducer) fun s _ =>
          s.suspend (.ended (.failed (.new .closed "body handoff closed")))
      | _ => s.suspend .offering

def poll (x : Crates) (cfg : ReceiveConfig) (p : DriverPoll W) (s : Receiver W) : Result W :=
  match s.point with
  | .top => s.top
  | .demanding => s.pollDemand x cfg p
  | .reading canceled => s.pollReading cfg p canceled
  | .offering => s.pollOffer cfg p
  | .ended _ | .dropped | .panicked => none

/-- The destructor of the driver. It has the buffer, or the transport has it. -/
def drop (s : Receiver W) : Result W :=
  let lost := { s with owner := .lost s.owner.permit }
  match s.point with
  | .top => lost.act (.producer .dropProducer) fun s _ => s.suspend .dropped
  | .demanding | .reading _ | .offering =>
    lost.act (.producer .dropFuture) fun s _ => s.act (.producer .dropProducer) fun s _ =>
      s.suspend .dropped
  | .ended _ | .dropped | .panicked => none

end Receiver

inductive ReceiveInput (W : Type)
  | poll (p : DriverPoll W)
  | dropDriver
  | body (call : BodyCall W)
  /-- The last view of the managed buffer is dropped, in the slot or in the application. -/
  | releaseLease

def Receiver.step (x : Crates) (cfg : ReceiveConfig) (s : Receiver W) : ReceiveInput W → Receiver.Result W
  | .poll p => s.poll x cfg p
  | .dropDriver => s.drop
  | .body call => if call.isBody then s.act call fun s _ => some (s, .quiet) else none
  | .releaseLease =>
    match s.owner.permit with
    | some ⟨true, granted⟩ => some ({ s with owner := s.owner.setPermit ⟨false, granted⟩ }, .quiet)
    | _ => none

/-- Every interleaving of a driver with its body, its transport and its cancellation. -/
def receiver (W : Type) (x : Crates) (cfg : ReceiveConfig) :
    Machine (Receiver W) (ReceiveInput W) (ReceiveOutput W) where
  step := Receiver.step x cfg

def Receiver.new (b : RecvBuffer) (mode : BodyMode) (limits : DecodeLimits) (size : SizeHint)
    (trailers : TrailerHint) : Receiver W :=
  ⟨.top, .idle b, .withLimits mode limits, false, .new size trailers⟩

def Receiver.start (b : RecvBuffer) (mode : BodyMode) (h : ∀ n, mode = .fixed n → n < wordSize)
    (limits : DecodeLimits) : Option (Receiver W) :=
  (incoming mode h).map fun (size, trailers) => .new b mode limits size trailers

end Vakya
