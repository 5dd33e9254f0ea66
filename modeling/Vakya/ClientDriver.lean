import Vakya.Admission
import Vakya.Exchange
import Vakya.BodyIo

/-!
# The client driver (`proto/h1/client.rs`, `client/completion.rs`)

One connection runs the accepted jobs one after the other. The halves of an
exchange settle in either order, while the application may abort the upload,
give up on the response, poll or drop its receipt, and shut the connection
down; what the halves return is up to the transport and the peer. Code between
two suspensions is one operation. Jobs are numbered as they are accepted.
-/

namespace Vakya

open Library

def Error.isCanceled (e : Error) : Bool := e.kind == .canceled

inductive CloseReason
  | messagePolicy
  | applicationClosure
  | bodyAbandonment
  | uploadAbort
  | shutdown
deriving DecidableEq, Repr

inductive ExchangeOutcome
  | reusable
  | closed (reason : CloseReason)
  | upgraded (kind : UpgradeKind)
deriving DecidableEq, Repr

/-- What a driver returns. Whether a claim or the caller owns an upgraded transport is decided by
`PendingUpgrade::fulfill`. -/
inductive ConnectionOutcome
  | closed
  | recovered
  | upgraded (kind : UpgradeKind)
deriving DecidableEq, Repr

structure CompletionState (W : Type) where
  taken : Bool
  abandoned : Bool
  result : Option (Except Error ExchangeOutcome)
  waker : Option W

/-- `Control` of `response.rs`; a cancellation source is true once it was canceled. -/
structure Control (W : Type) where
  upload : Bool
  exchange : Bool
  uploadComplete : Bool
  aborted : Bool
  completion : CompletionState W
  /-- The `ExchangeCompletion` the application took, and whether it returned. -/
  receipt : Option Bool

structure ReceivedResponse where
  ended : ReceiveEnd
  buffer : Bytes
  policy : ExchangePolicy

structure SettledExchange where
  buffer : Bytes
  outcome : Outcome
  closeReason : CloseReason

/-- The end of `receive`: a body that failed is a failed half. -/
def receiveResult : Except Error ReceivedResponse → Except Error ReceivedResponse
  | .ok ⟨.failed e, _, _⟩ => .error e
  | r => r

namespace Control

variable {W : Type}

def new : Control W := ⟨false, false, false, false, ⟨false, false, none, none⟩, none⟩

def cancel (c : Control W) : Control W := { c with exchange := true, upload := true }

def abort (c : Control W) : Control W :=
  if c.uploadComplete then c else { c with aborted := true, upload := true }

def publish (c : Control W) (result : Except Error ExchangeOutcome) : Control W :=
  { c with completion := { c.completion with
      result := if c.completion.abandoned then c.completion.result else some result
      waker := none } }

def takeCompletion (c : Control W) : Control W :=
  if c.completion.taken then c
  else { c with completion := { c.completion with taken := true }, receipt := some false }

def pollCompletion (c : Control W) (w : W) : Control W :=
  match c.completion.result with
  | some _ => { c with
      completion := { c.completion with result := none, waker := none }, receipt := some true }
  | none => { c with completion := { c.completion with waker := some w } }

def dropCompletion (c : Control W) : Control W :=
  { c with
    completion := { c.completion with abandoned := true, waker := none, result := none }
    receipt := none }

end Control

inductive DriverPhase
  /-- At `requests.next()`. -/
  | waiting
  /-- The halves of an exchange, as far as they have returned. -/
  | exchanging (job : ℕ) (sent : Option (Except Error Unit)) (received : Option (Except Error ReceivedResponse))
  /-- At `writer.shutdown()`. -/
  | shuttingDown
  | ended (result : Except Error ConnectionOutcome)
  | dropped

structure ClientDriver (W : Type) where
  admission : ClientAdmission ℕ W
  /-- Jobs accepted so far. -/
  jobs : ℕ
  controls : ℕ → Control W
  phase : DriverPhase
  /-- The receipt of the active job with the outcome it would report. -/
  terminal : Option (ℕ × ExchangeOutcome)
  /-- The shutdown that `ConnectionControl::drive` has noticed. -/
  aborting : Option ErrorKind
  recovering : Bool

inductive DriverCall (W : Type)
  /-- An operation of a sender, a reservation or a permit, or a graceful shutdown. -/
  | admission (call : AdmissionCall ℕ W)
  /-- `RequestPermit::send`. -/
  | submit
  | abort (job : ℕ)
  /-- The pending response is dropped before its final response was delivered. -/
  | dropPending (job : ℕ)
  | takeCompletion (job : ℕ)
  | pollCompletion (job : ℕ) (waker : W)
  | dropCompletion (job : ℕ)
  | next (waker : W)
  /-- The request cannot be prepared. -/
  | refuse (error : Error)
  /-- `send_request` has flushed the request. -/
  | uploaded
  | sent (result : Except Error Unit)
  | received (result : Except Error ReceivedResponse)
  /-- The exchange observes the shutdown token. -/
  | cancelExchange
  /-- `writer.shutdown()` returned. -/
  | closed (result : Except Error Unit)
  /-- The driver observes an abort or an expired deadline. -/
  | abortRequested (timeout : Bool)
  | dropDriver

inductive DriverEvent
  | quiet
  | accepted (job : ℕ)
  | refused (job : ℕ)
  | started (job : ℕ)
  | uploaded (job : ℕ)
  | sent (job : ℕ) (result : Except Error Unit)
  | received (job : ℕ) (result : Except Error ReceivedResponse)
  | panicked

structure DriverOutput (W : Type) where
  event : DriverEvent
  /-- `Receiver::release` reopened admission. -/
  reopened : Bool
  /-- What was published, for which job. -/
  published : List (ℕ × Except Error ExchangeOutcome)
  woke : List W

abbrev Driven (W : Type) := ClientDriver W × DriverOutput W

def driverLost : Error := (Error.new .closed "exchange driver dropped").withDetail .driverLost

def shutdownError (kind : ErrorKind) : Error :=
  let e := Error.new kind "connection shutdown requested"
  if kind = .timeout then e.withDetail (.timeout .shutdown) else e

def unsolicitedData : Error := .new .invalidMessage "unsolicited data after completed HTTP response"

namespace ClientDriver

def finishExchange (sent : Except Error Unit) (received : Except Error ReceivedResponse)
    (uploadAborted : Bool) : Except Error SettledExchange :=
  match received with
  | .error e =>
    match sent with
    | .error sent => if !sent.isCanceled && e.isCanceled then .error sent else .error e
    | .ok () => .error e
  | .ok ⟨.failed e, _, _⟩ => .error e
  | .ok ⟨.abandoned, buffer, policy⟩ =>
    match sent with
    | .error e =>
      if !e.isCanceled then .error e
      else (policy.finish .retired .retired).map (⟨buffer, ·, .bodyAbandonment⟩)
    | .ok () => (policy.finish .retired .retired).map (⟨buffer, ·, .bodyAbandonment⟩)
  | .ok ⟨.complete, buffer, policy⟩ =>
    let reason := if uploadAborted then .uploadAbort else .messagePolicy
    match sent with
    | .error e =>
      if !e.isCanceled || !uploadAborted then .error e
      else (policy.finish .retired .complete).map (⟨buffer, ·, reason⟩)
    | .ok () =>
      -- An abort can race with successful completion.
      let requestEnd := if uploadAborted then .retired else .complete
      (policy.finish requestEnd .complete).map (⟨buffer, ·, reason⟩)

/-- `ConnectionControl::drive`: a shutdown replaces every result but an originating failure. -/
def drive (aborting : Option ErrorKind) (r : Except Error ConnectionOutcome) :
    Except Error ConnectionOutcome :=
  match aborting, r with
  | none, r => r
  | some kind, .error e => if e.isCanceled then .error (shutdownError kind) else .error e
  | some kind, .ok _ => .error (shutdownError kind)

variable {W : Type}

def new (recovering : Bool) : ClientDriver W :=
  ⟨.new, 0, fun _ => .new, .waiting, none, none, recovering⟩

def begin (s : ClientDriver W) (event : DriverEvent) : Driven W := (s, ⟨event, false, [], []⟩)

def setControl (s : ClientDriver W) (job : ℕ) (c : Control W) : ClientDriver W :=
  { s with controls := Function.update s.controls job c }

def publish (p : Driven W) (job : ℕ) (result : Except Error ExchangeOutcome) : Driven W :=
  let c := p.1.controls job
  (p.1.setControl job (c.publish result),
    { p.2 with
      published := p.2.published ++ [(job, result)]
      woke := p.2.woke ++ c.completion.waker.toList })

def setTerminal (p : Driven W) (terminal : Option (ℕ × ExchangeOutcome)) : Driven W :=
  ({ p.1 with terminal := terminal }, p.2)

/-- `drop(requests)`: admission closes, and a job that was never handed over loses its driver. -/
def dropRequests (p : Driven W) : Driven W :=
  let (admission, o) := p.1.admission.dropReceiver
  let p : Driven W :=
    ({ p.1 with admission := { admission with holding := false } }, { p.2 with woke := p.2.woke ++ o.woke })
  match o.event with
  | .dropped (some job) => publish p job (.error driverLost)
  | _ => p

/-- The guard of `drive` stops admission, then `run` publishes for the job whose receipt is left. -/
def finishRun (p : Driven W) (result : Except Error ConnectionOutcome) : Driven W :=
  let result := drive p.1.aborting result
  let stopped : ClientAdmission ℕ W := { p.1.admission with stopping := true, control := none }
  let p : Driven W :=
    ({ p.1 with admission := stopped, phase := .ended result },
      { p.2 with woke := p.2.woke ++ p.1.admission.control.toList })
  match p.1.terminal with
  | none => p
  | some (job, outcome) => publish (setTerminal p none) job (result.map fun _ => outcome)

def leave (p : Driven W) (canRecover : Bool) : Driven W :=
  let p := dropRequests p
  if p.1.recovering && canRecover then finishRun p (.ok .recovered)
  else ({ p.1 with phase := .shuttingDown }, p.2)

/-- `run_inner` returns an error; its locals are dropped. -/
def failRun (p : Driven W) (e : Error) : Driven W := finishRun (dropRequests p) (.error e)

def settle (p : Driven W) (job : ℕ) (sent : Except Error Unit) (received : Except Error ReceivedResponse) :
    Driven W :=
  match finishExchange sent received (p.1.controls job).aborted with
  | .error e => failRun p e
  | .ok settled =>
    match settled.outcome with
    | .handoff kind =>
      finishRun (setTerminal (dropRequests p) (some (job, .upgraded kind))) (.ok (.upgraded kind))
    | .close =>
      leave (setTerminal p (some (job, .closed settled.closeReason)))
        (!(settled.closeReason == .bodyAbandonment || settled.closeReason == .uploadAbort))
    | .reusable =>
      if settled.buffer ≠ [] then failRun p unsolicitedData
      else
        let (admission, o) := p.1.admission.release
        let p : Driven W := ({ p.1 with admission := admission }, { p.2 with woke := p.2.woke ++ o.woke })
        match o.event with
        | .released true =>
          let p := publish (setTerminal p none) job (.ok .reusable)
          ({ p.1 with phase := .waiting }, { p.2 with reopened := true })
        | .released false =>
          leave (setTerminal p (some (job, .closed (if p.1.admission.stopping then .shutdown
            else .applicationClosure)))) true
        | _ => (p.1, { p.2 with event := .panicked })

/-- The upload returned. A failure that is not an explicit abort cancels the response too. -/
def sent (s : ClientDriver W) (job : ℕ) (received : Option (Except Error ReceivedResponse))
    (result : Except Error Unit) : Driven W :=
  let p := s.begin (.sent job result)
  match received with
  | some received => settle p job result received
  | none =>
    let c := s.controls job
    let cancels := match result with
      | .error e => !e.isCanceled || !c.aborted
      | .ok () => false
    let c := if cancels then c.cancel else c
    ({ s.setControl job c with phase := .exchanging job (some result) none }, p.2)

/-- The response returned. A failure, or an abandoned body, cancels the upload. -/
def received (s : ClientDriver W) (job : ℕ) (sent : Option (Except Error Unit))
    (result : Except Error ReceivedResponse) : Driven W :=
  let result := receiveResult result
  let p := s.begin (.received job result)
  match sent with
  | some sent => settle p job sent result
  | none =>
    let cancels := match result with
      | .error _ | .ok ⟨.abandoned, _, _⟩ => true
      | .ok _ => false
    let c := s.controls job
    let c := if cancels then c.cancel else c
    ({ s.setControl job c with phase := .exchanging job none (some result) }, p.2)

/-- `requests.next()`, and what the loop does with its answer. -/
def next (s : ClientDriver W) (w : W) : Driven W :=
  let (admission, o) := s.admission.pollNext w
  let t := { s with admission := admission }
  match o.event with
  | .next (some job) =>
    -- An earlier receipt would be dropped here.
    let p := match t.terminal with
      | some (old, _) => publish (t.begin (.started job)) old (.error driverLost)
      | none => t.begin (.started job)
    ({ (setTerminal p (some (job, .closed .messagePolicy))).1 with phase := .exchanging job none none }, p.2)
  | .next none => leave (t.begin .quiet) true
  | _ => t.begin .quiet

def submit (s : ClientDriver W) : Driven W :=
  let (admission, o) := s.admission.send s.jobs
  let t := { s with admission := admission }
  let p : Driven W := (t, ⟨.quiet, false, [], o.woke⟩)
  match o.event with
  | .sent _ (.ok ()) =>
    ({ t.setControl s.jobs .new with jobs := s.jobs + 1 }, { p.2 with event := .accepted s.jobs })
  | _ => p

/-- The driver future is dropped: admission closes and every receipt it holds is published. -/
def dropDriver (s : ClientDriver W) : Driven W :=
  let p := s.begin .quiet
  let p := if s.admission.receiver then dropRequests p else p
  let p := match s.terminal with
    | some (job, _) => publish (setTerminal p none) job (.error driverLost)
    | none => p
  ({ p.1 with
      admission := { p.1.admission with stopping := true, control := none }
      phase := .dropped },
    { p.2 with woke := p.2.woke ++ p.1.admission.control.toList })

def applies : AdmissionCall ℕ W → Bool
  | .send _ | .pollNext _ | .release | .dropJob | .dropReceiver => false
  | _ => true

def isOver (s : ClientDriver W) : Bool :=
  match s.phase with
  | .ended _ | .dropped => true
  | _ => false

def step (s : ClientDriver W) : DriverCall W → Option (Driven W)
  | .admission call =>
    if applies call then
      (s.admission.step call).map fun r => ({ s with admission := r.1 }, ⟨.quiet, false, [], r.2.woke⟩)
    else none
  | .submit => if 0 < s.admission.permits then some s.submit else none
  | .abort job =>
    if job < s.jobs then some ((s.setControl job (s.controls job).abort).begin .quiet) else none
  | .dropPending job =>
    if job < s.jobs then some ((s.setControl job (s.controls job).cancel).begin .quiet) else none
  | .takeCompletion job =>
    if job < s.jobs then some ((s.setControl job (s.controls job).takeCompletion).begin .quiet) else none
  | .pollCompletion job w =>
    if job < s.jobs ∧ (s.controls job).receipt = some false then
      some ((s.setControl job ((s.controls job).pollCompletion w)).begin .quiet)
    else none
  | .dropCompletion job =>
    if job < s.jobs ∧ (s.controls job).receipt.isSome then
      some ((s.setControl job (s.controls job).dropCompletion).begin .quiet)
    else none
  | .next w =>
    match s.phase with
    | .waiting => some (s.next w)
    | _ => none
  | .refuse e =>
    match s.phase with
    | .exchanging job none none => some (failRun (s.begin (.refused job)) e)
    | _ => none
  | .uploaded =>
    match s.phase with
    | .exchanging job none _ =>
      if (s.controls job).uploadComplete then none
      else some ((s.setControl job { s.controls job with uploadComplete := true }).begin (.uploaded job))
    | _ => none
  | .sent result =>
    match s.phase with
    -- `send_request` returns `Ok` only after it recorded that the upload is complete.
    | .exchanging job none received =>
      match result with
      | .ok () => if (s.controls job).uploadComplete then some (s.sent job received (.ok ())) else none
      | .error e => some (s.sent job received (.error e))
    | _ => none
  | .received result =>
    match s.phase with
    | .exchanging job sent none => some (s.received job sent result)
    | _ => none
  | .cancelExchange =>
    match s.phase with
    | .exchanging job _ _ =>
      if s.aborting.isSome then some ((s.setControl job (s.controls job).cancel).begin .quiet) else none
    | _ => none
  | .closed result =>
    match s.phase with
    | .shuttingDown => some (finishRun (s.begin .quiet) (result.map fun _ => .closed))
    | _ => none
  | .abortRequested timeout =>
    if s.isOver = false ∧ s.admission.stopping ∧ s.aborting.isNone then
      some ({ s with aborting := some (if timeout then .timeout else .canceled) }.begin .quiet)
    else none
  | .dropDriver => if s.isOver then none else some s.dropDriver

end ClientDriver

def clientDriver (W : Type) : Machine (ClientDriver W) (DriverCall W) (DriverOutput W) where
  step := ClientDriver.step

end Vakya
