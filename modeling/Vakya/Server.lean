import Vakya.BodyIo
import Vakya.HeadScan
import Vakya.Fate

/-!
# The server loop (`proto/h1/server.rs`)

One connection reads a head, hands the request to the service, receives its
body while the service runs, and starts over when the exchange leaves the
connection reusable. The receive buffer and the head parser live as long as the
connection, a body decoder as long as its request. Code between two suspensions
is one operation; the transport, the service and the writer may do anything in
between. What the service was handed is recorded with what it read of the body.
-/

namespace Vakya

open Library

structure ServerConfig where
  head : HeadLimits
  preserveHeaderCase : Bool
  decode : DecodeLimits
  preferredRead : ℕ
  maxRetained : ℕ
  /-- The strategy reads into leased buffers. -/
  tcp : Bool
  headTimeout : Bool
  bodyProgressTimeout : Bool

namespace ServerConfig

def parser (cfg : ServerConfig) : HeadParser :=
  (HeadParser.withLimits cfg.head).withPreservedHeaderCase cfg.preserveHeaderCase

def heads (cfg : ServerConfig) : ReceiveConfig := ⟨cfg.tcp, true, cfg.headTimeout⟩

def bodies (cfg : ServerConfig) : ReceiveConfig := ⟨cfg.tcp, true, cfg.bodyProgressTimeout⟩

end ServerConfig

/-- `receive_request`. A body that awaits `Continue` has a driver that has not begun. -/
inductive RequestBody (W : Type)
  /-- There is no producer, and nothing to receive. -/
  | empty
  | expecting (driver : Receiver W)
  | permitting (driver : Receiver W)
  | receiving (driver : Receiver W)

inductive ServerEnd
  | illegalHead (error : HeadError)
  /-- The connection ended inside a request head. -/
  | truncatedHead
  | failed (error : Error)
  | upgraded (kind : UpgradeKind)
  /-- The transport ended between two requests. -/
  | idle
  | stopped
  /-- The exchange does not permit another one. -/
  | closed
  | dropped

inductive ServerPhase (x : Crates) (W : Type)
  /-- At the top of the loop. -/
  | top
  /-- At the read of a head; whether the connection was stopped meanwhile. -/
  | reading (stopped : Bool)
  | exchanging (head : ValidatedRequestHead x) (body : RequestBody W)
  | ended (how : ServerEnd)

structure Server (x : Crates) (W : Type) where
  parser : HeadParser
  /-- The buffer, unless the driver of a body has it. -/
  owner : BufferOwner
  phase : ServerPhase x W
  handed : List (RequestHead x × List BodyResult)

/-- What the loop finds when it is polled. `overflow`: the deadline cannot be represented;
`expired`: it has passed. -/
structure ServerPoll where
  stopping : Bool
  overflow : Bool
  expired : Bool
  completion : Option (Completion × Bool)

inductive ServerCall (W : Type)
  | poll (p : ServerPoll)
  /-- An operation of the driver of the body, or of the service on the body. -/
  | receive (i : ReceiveInput W)
  /-- The wait for `Continue` permission is over, or was canceled. -/
  | permit (result : Except Error Unit)
  /-- The service and the writer have settled: an error, or the policy after the final response
  and whether the connection is to be closed. -/
  | settled (sent : Except Error (ExchangePolicy × Bool))
  /-- The last view of a managed buffer is dropped between two bodies. -/
  | releaseLease
  | drop

def headDeadline : Error := (Error.new .timeout "HTTP head deadline exceeded").withDetail (.timeout .head)

def receiveCanceled : Error := .new .canceled "request receive canceled"

instance (mode : BodyMode) : Decidable (∀ n, mode = .fixed n → n < wordSize) :=
  match mode with
  | .fixed n => decidable_of_iff (n < wordSize) ⟨fun h m hm => by cases hm; exact h, fun h => h n rfl⟩
  | .none | .chunked | .untilEof => isTrue nofun

namespace RequestBody

variable {W : Type}

/-- The wait for demand that precedes `Continue`. -/
def pollExpecting (p : DriverPoll W) (driver : Receiver W) : Receiver.Result W :=
  if p.canceled then
    driver.act (.producer .dropFuture) fun driver _ => driver.fail receiveCanceled
  else
    driver.act (.producer (.pollProducer p.waker)) fun driver o =>
      match o.event with
      | .demand (some (.ok ())) => driver.act (.producer .dropFuture) fun driver _ => driver.suspend .top
      | .demand (some (.error _)) => driver.act (.producer .dropFuture) fun driver _ => driver.abandon
      | _ => driver.suspend .demanding

/-- What the wait left: more of it, the wait for permission, or the end. -/
def expected (driver : Receiver W) : RequestBody W :=
  match driver.point with
  | .demanding => .expecting driver
  | .top => .permitting driver
  | _ => .receiving driver

def step (x : Crates) (cfg : ReceiveConfig) : RequestBody W → ReceiveInput W →
    Option (RequestBody W × ReceiveOutput W)
  | .empty, _ | _, .dropDriver | .permitting _, .poll _ => none
  | .expecting driver, .poll p => (pollExpecting p driver).map (Prod.map expected id)
  | .expecting driver, i => (driver.step x cfg i).map (Prod.map expecting id)
  | .permitting driver, i => (driver.step x cfg i).map (Prod.map permitting id)
  | .receiving driver, i => (driver.step x cfg i).map (Prod.map receiving id)

end RequestBody

namespace Server

variable {x : Crates} {W : Type}

abbrev Result (x : Crates) (W : Type) := Option (Server x W × Bytes)

def new (cfg : ServerConfig) : Except Error (Server x W) :=
  (RecvBuffer.new cfg.preferredRead cfg.maxRetained).map fun b => ⟨cfg.parser, .idle b, .top, []⟩

def finish (s : Server x W) (how : ServerEnd) : Server x W := { s with phase := .ended how }

def record (s : Server x W) (rs : List BodyResult) : Server x W :=
  { s with handed := s.handed.modifyLast fun request => (request.1, request.2 ++ rs) }

def exchange (cfg : ServerConfig) (s : Server x W) (b : RecvBuffer) (head : ValidatedRequestHead x) :
    Server x W :=
  let s := { s with handed := s.handed ++ [(head.head, [])] }
  if h : ∀ n, head.body = .fixed n → n < wordSize then
    match incoming head.body h with
    | none => { s with owner := .idle b, phase := .exchanging head .empty }
    | some (size, trailers) =>
      let driver := Receiver.new b head.body cfg.decode size trailers
      let s := { s with owner := .lost none }
      if head.expectation = .continue ∧ head.head.version = .http11 then
        -- The channel is new, so its producer is free.
        match driver.act (.producer .demand) fun driver _ => driver.suspend .demanding with
        | some (driver, _) => { s with phase := .exchanging head (.expecting driver) }
        | none => { s with phase := .exchanging head (.receiving driver) }
      else { s with phase := .exchanging head (.receiving driver) }
  -- A length that no parser returns.
  else s.finish (.illegalHead .invalidContentLength)

def scanHead (cfg : ServerConfig) (s : Server x W) (b : RecvBuffer) (expired : Bool) : Server x W :=
  if cfg.headTimeout && expired then s.finish (.failed headDeadline)
  else
    match s.parser.headLen b.bytes with
    | (parser, .error e) => { s with parser := parser }.finish (.illegalHead e)
    | (parser, .ok none) => { s with parser := parser, owner := .idle b, phase := .reading false }
    | (parser, .ok (some consumed)) =>
      match b.takeSharedPrefix consumed with
      | (_, .error e) => { s with parser := parser }.finish (.failed e)
      | (b, .ok input) =>
        match parser.parseSharedRequest x input with
        | (parser, .error e) => { s with parser := parser }.finish (.illegalHead e)
        | (parser, .ok head) =>
          match head.validateReceived with
          | .error e => { s with parser := parser }.finish (.illegalHead e)
          | .ok head => { s with parser := parser }.exchange cfg b head

def pollTop (cfg : ServerConfig) (s : Server x W) (p : ServerPoll) : Result x W :=
  match s.owner with
  | .idle b =>
    if p.stopping then some (s.finish .stopped, [])
    else if cfg.headTimeout && p.overflow then
      some (s.finish (.failed (.new .localMessage "invalid timeout duration")), [])
    else some (s.scanHead cfg b p.expired, [])
  | _ => none

def pollReading (cfg : ServerConfig) (s : Server x W) (p : ServerPoll) (stopped : Bool) : Result x W :=
  let stopped := stopped || p.stopping
  match s.owner.pollRead cfg.heads stopped p.completion with
  | none => none
  | some .panicked => none
  | some (.pending owner) => some ({ s with owner, phase := .reading stopped }, [])
  | some (.ready b result) =>
    let arrived := b.bytes.drop (s.owner.bytes.getD []).length
    let s := { s with owner := .idle b }
    if stopped then
      match result with
      | .error e => some (s.finish (if e.kind = .canceled then .stopped else .failed e), arrived)
      | .ok _ => some (s.finish .stopped, arrived)
    else
      match result with
      | .error e => some (s.finish (.failed e), arrived)
      | .ok .eof => some (s.finish (if b.bytes = [] then .idle else .truncatedHead), arrived)
      | .ok (.data _) => some (s.scanHead cfg b p.expired, arrived)

def finishReceived (ended : ReceiveEnd) (policy : ExchangePolicy) (close : Bool) : Except Error Outcome :=
  match ended with
  | .failed e => .error e
  | .abandoned => finishExchange .retired policy close
  | .complete => finishExchange .complete policy close

def settle (s : Server x W) (ended : ReceiveEnd) (owner : BufferOwner)
    (sent : Except Error (ExchangePolicy × Bool)) : Server x W :=
  let s := { s with owner }
  match ended, sent with
  | .failed e, _ | _, .error e => s.finish (.failed e)
  | ended, .ok (policy, close) =>
    match finishReceived ended policy close with
    | .error e => s.finish (.failed e)
    | .ok (.handoff kind) => s.finish (.upgraded kind)
    | .ok .close => s.finish .closed
    | .ok .reusable => { s with phase := .top }

def step (cfg : ServerConfig) (s : Server x W) : ServerCall W → Result x W
  | .poll p =>
    match s.phase with
    | .top => s.pollTop cfg p
    | .reading stopped => s.pollReading cfg p stopped
    | _ => none
  | .receive i =>
    match s.phase with
    | .exchanging head body =>
      (body.step x cfg.bodies i).map fun (body, out) =>
        ({ s with phase := .exchanging head body }.record (BodyPipe.results out.body), out.arrived)
    | _ => none
  | .permit result =>
    match s.phase with
    | .exchanging head (.permitting driver) =>
      match result with
      | .ok () => some ({ s with phase := .exchanging head (.receiving driver) }, [])
      | .error e =>
        (driver.fail e).map fun (driver, out) =>
          ({ s with phase := .exchanging head (.receiving driver) }, out.arrived)
    | _ => none
  | .settled sent =>
    match s.phase with
    | .exchanging _ .empty => some (s.settle .complete s.owner sent, [])
    | .exchanging _ (.receiving driver) =>
      match driver.point with
      | .ended how => some (s.settle how driver.owner sent, [])
      | _ => none
    | _ => none
  | .releaseLease =>
    match s.owner.permit with
    | some ⟨true, granted⟩ => some ({ s with owner := s.owner.setPermit ⟨false, granted⟩ }, [])
    | _ => none
  | .drop =>
    match s.phase with
    | .ended _ => none
    | _ => some (s.finish .dropped, [])

end Server

def server (x : Crates) (W : Type) (cfg : ServerConfig) :
    Machine (Server x W) (ServerCall W) Bytes where
  step := Server.step cfg

end Vakya
