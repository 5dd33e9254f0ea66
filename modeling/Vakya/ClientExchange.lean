import Vakya.ClientReceive
import Vakya.Upload

/-!
# One exchange of a client (`proto/h1/client.rs`)

`exchange` runs the two halves side by side until both have returned. The first half to end may ask
for the other one to be canceled; the results are composed only after both have settled, and a failure
is reported to whoever still waits for the response. The application, the transport and the shutdown
of the connection act between any two steps.
-/

namespace Vakya

open Library

structure ExchangeConfig (D V W : Type) where
  client : ClientConfig
  buffers : SendBuffers D V W
  cause : ℕ → IoCause

/-- What `send_request` uses of the configuration. -/
def ExchangeConfig.upload {D V W : Type} (cfg : ExchangeConfig D V W) : UploadConfig D V W :=
  ⟨cfg.buffers, cfg.cause, cfg.client.continueWait⟩

structure ClientExchange (D V W E U : Type) where
  receive : ClientReceive U
  upload : Upload D V W E
  /-- What `exchange` has returned. -/
  settled : Option (Except Error SettledExchange)
  dropped : Bool

inductive ClientExchangeCall (D E U : Type)
  /-- A poll of `receive`, an operation of the application, or a shutdown that is noticed. -/
  | receive (call : ClientCall U)
  /-- The writer, the body, or a turn of `send_request`. -/
  | send (event : SendEvent D E)
  /-- A poll of the wait for `Continue`. -/
  | wait (waker : U) (overflow expired : Bool)
  | drop

/-- What the two halves did, and what the exchange returned. -/
structure ClientExchangeOutput (D E U : Type) where
  receive : List (ClientCall U × ClientOutput U)
  upload : List (UploadEvent D E × UploadOutput D E)
  settled : Option (Except Error SettledExchange)

namespace ClientExchange

variable {x : Crates} {D V W E U : Type}

abbrev Doing (D V W E U : Type) := ClientExchange D V W E U × ClientExchangeOutput D E U

def begin (s : ClientExchange D V W E U) : Doing D V W E U := (s, ⟨[], [], none⟩)

def start (cfg : ExchangeConfig D V W) (request : RequestUpload x) (b : RecvBuffer) : ClientExchange D V W E U :=
  ⟨.start cfg.client request.policy b, .start cfg.upload request false, none, false⟩

def sent (s : ClientExchange D V W E U) : Option (Except Error Unit) :=
  match s.upload.phase with
  | .returned result => some result
  | _ => none

def received (s : ClientExchange D V W E U) : Option (Except Error ReceivedResponse) :=
  match s.receive.point with
  | .returned result => some result
  | _ => none

def onReceive (x : Crates) (cfg : ExchangeConfig D V W) (p : Doing D V W E U) (call : ClientCall U) : Doing D V W E U :=
  match p.1.receive.step x cfg.client call with
  | none => p
  | some (receive, out) => ({ p.1 with receive }, { p.2 with receive := p.2.receive ++ [(call, out)] })

def onUpload (x : Crates) (cfg : ExchangeConfig D V W) (p : Doing D V W E U) (event : UploadEvent D E) :
    Doing D V W E U :=
  match p.1.upload.step x cfg.upload event with
  | none => p
  | some (upload, out) => ({ p.1 with upload }, { p.2 with upload := p.2.upload ++ [(event, out)] })

/-- Both halves read the cancellation of the upload from the same source. -/
def sync (x : Crates) (cfg : ExchangeConfig D V W) (p : Doing D V W E U) : Doing D V W E U :=
  if p.1.receive.control.upload && !p.1.upload.token then onUpload x cfg p (.send .cancel) else p

def cancel (x : Crates) (cfg : ExchangeConfig D V W) (p : Doing D V W E U) : Doing D V W E U :=
  sync x cfg (onReceive x cfg p .cancel)

/-- Both halves have returned: their results are composed, and a failure is reported to the response
if nothing has ended it. -/
def settle (x : Crates) (cfg : ExchangeConfig D V W) (p : Doing D V W E U) (sent : Except Error Unit)
    (received : Except Error ReceivedResponse) : Doing D V W E U :=
  let result := ClientDriver.finishExchange sent received p.1.receive.control.aborted
  let p := match result with
    | .error e => onReceive x cfg p (.fail e)
    | .ok _ => p
  ({ p.1 with settled := some result }, { p.2 with settled := some result })

def receivedCancels : Except Error ReceivedResponse → Bool
  | .error _ | .ok ⟨.abandoned, _, _⟩ => true
  | .ok _ => false

/-- Whether an upload that returned cancels the response: an explicit abort does not. -/
def sentCancels (aborted : Bool) : Except Error Unit → Bool
  | .error e => !e.isCanceled || !aborted
  | .ok () => false

def afterReceive (x : Crates) (cfg : ExchangeConfig D V W) (p : Doing D V W E U)
    (received : Except Error ReceivedResponse) : Doing D V W E U :=
  match p.1.sent with
  | some sent => settle x cfg p sent received
  | none => if receivedCancels received then cancel x cfg p else p

def afterSend (x : Crates) (cfg : ExchangeConfig D V W) (p : Doing D V W E U) (sent : Except Error Unit) :
    Doing D V W E U :=
  match p.1.received with
  | some received => settle x cfg p sent received
  | none => if sentCancels p.1.receive.control.aborted sent then cancel x cfg p else p

def afterPoll (x : Crates) (cfg : ExchangeConfig D V W) (p : Doing D V W E U) : Doing D V W E U :=
  match p.1.received with
  | some received => afterReceive x cfg p received
  | none => p

def afterTurn (x : Crates) (cfg : ExchangeConfig D V W) (p : Doing D V W E U) : Doing D V W E U :=
  match p.1.sent with
  | some sent => afterSend x cfg p sent
  | none => p

/-- The calls that are not made by the exchange itself; a shutdown is noticed until it returns. -/
def permits (s : ClientExchange D V W E U) : ClientCall U → Bool
  | .poll _ | .cancel => s.settled.isNone && !s.dropped
  | .pending _ | .body _ | .releaseLease | .abort => true
  | .uploaded | .pollContinue _ | .dropContinue | .fail _ | .drop => false

def receiveStep (x : Crates) (cfg : ExchangeConfig D V W) (s : ClientExchange D V W E U) (call : ClientCall U) :
    Option (Doing D V W E U) :=
  if s.permits call then
    (s.receive.step x cfg.client call).map fun _ =>
      let p := sync x cfg (onReceive x cfg s.begin call)
      match call with
      | .poll _ => afterPoll x cfg p
      | _ => p
  else none

/-- A step of `send_request`, which records that it is complete. -/
def sendStep (x : Crates) (cfg : ExchangeConfig D V W) (s : ClientExchange D V W E U) (event : SendEvent D E) :
    Option (Doing D V W E U) :=
  if s.dropped then none
  else
    match event with
    | .cancel => none
    | event =>
      (s.upload.step x cfg.upload (.send event)).map fun r =>
        let p := onUpload x cfg s.begin (.send event)
        let p := if r.2.uploaded then onReceive x cfg p .uploaded else p
        afterTurn x cfg p

def waitStep (x : Crates) (cfg : ExchangeConfig D V W) (s : ClientExchange D V W E U) (waker : U)
    (overflow expired : Bool) : Option (Doing D V W E U) :=
  if s.dropped then none
  else
    match s.upload.phase with
    | .waiting begun =>
      if !begun && overflow || s.upload.token then
        let p := onUpload x cfg s.begin (.wait ⟨overflow, false, expired⟩)
        some (afterTurn x cfg (onReceive x cfg p .dropContinue))
      else
        (s.receive.step x cfg.client (.pollContinue waker)).map fun r =>
          let p := onReceive x cfg s.begin (.pollContinue waker)
          let p := onUpload x cfg p (.wait ⟨overflow, r.2.permitted, expired⟩)
          if expired then onReceive x cfg p .dropContinue else p
    | _ => none

def drop (x : Crates) (cfg : ExchangeConfig D V W) (s : ClientExchange D V W E U) : Option (Doing D V W E U) :=
  if s.dropped || s.settled.isSome then none
  else
    (s.receive.step x cfg.client .drop).map fun _ =>
      let p := onReceive x cfg (onReceive x cfg s.begin .drop) .dropContinue
      ({ p.1 with dropped := true }, p.2)

def step (x : Crates) (cfg : ExchangeConfig D V W) (s : ClientExchange D V W E U) :
    ClientExchangeCall D E U → Option (Doing D V W E U)
  | .receive call => s.receiveStep x cfg call
  | .send event => s.sendStep x cfg event
  | .wait waker overflow expired => s.waitStep x cfg waker overflow expired
  | .drop => s.drop x cfg

end ClientExchange

/-- Every interleaving of the two halves with the application, the transport and a shutdown. -/
def clientExchange {D V W : Type} (E U : Type) (x : Crates) (cfg : ExchangeConfig D V W) :
    Machine (ClientExchange D V W E U) (ClientExchangeCall D E U) (ClientExchangeOutput D E U) where
  step := ClientExchange.step x cfg

end Vakya
