import Vakya.BodyIo

/-!
# Draining a body (`Incoming::drain`)

`drain` owns the body. It gives the producer a budget and then takes and
discards what is left, frame by frame, with a payload count of its own. The
driver, its transport and whoever cancels go on meanwhile.
-/

namespace Vakya

open Library

variable {W : Type}

/-- What `Error::from_io` distinguishes in an error of the transport. -/
inductive TransportError
  | tls
  | canceled
  /-- A deadline names its phase. -/
  | timedOut (phase : Option TimeoutPhase)
  | outOfMemory
  | other

def Error.fromIo : TransportError → Error
  | .tls => .new .tls "TLS protocol operation failed"
  | .canceled => .new .canceled "HTTP I/O operation failed"
  | .timedOut phase =>
    (Error.new .timeout "HTTP I/O operation failed").withDetail (.timeout (phase.getD .transport))
  | .outOfMemory => (Error.new .io "HTTP I/O operation failed").withDetail .allocation
  | .other => .new .io "HTTP I/O operation failed"

def Completion.error? : Completion → Option Error
  | .portable _ (.error e) | .managed (.error e) => some e
  | _ => none

/-- The errors of a read were made by `Error::from`. -/
def ReceiveInput.FromIo : ReceiveInput W → Prop
  | .poll p => ∀ c elapsed, p.completion = some (c, elapsed) → ∀ e, c.error? = some e → ∃ io, e = .fromIo io
  | _ => True

/-- Where `drain` is. A frame that `next_frame` returned is counted after the fairness budget of
the loop, which may suspend. -/
inductive DrainPhase
  /-- The body is still read frame by frame. -/
  | before
  | draining (remaining : ℕ) (frame : Option (Frame IncomingData))
  | returned (result : Except Error Unit)
  | dropped

structure Draining (W : Type) where
  receiver : Receiver W
  phase : DrainPhase

inductive DrainInput (W : Type)
  /-- Anyone else's step, and before `drain` also a call of the body. -/
  | receive (input : ReceiveInput W)
  /-- `overflow`: the deadline cannot be represented. -/
  | start (overflow : Bool)
  | poll (waker : W)
  /-- The deadline elapses. -/
  | elapse
  | drop

def DrainInput.FromIo : DrainInput W → Prop
  | .receive i => i.FromIo
  | _ => True

/-- `drain` owns the body, so nobody else calls it. -/
def DrainPhase.permits : DrainPhase → ReceiveInput W → Bool
  | .before, .body (.drainBudget _ _) => false
  | .before, _ => true
  | _, .body _ => false
  | _, _ => true

def Receiver.calls (x : Crates) (cfg : ReceiveConfig) (s : Receiver W) (calls : List (BodyCall W)) :
    Option (List (ReceiveInput W × ReceiveOutput W) × Receiver W) :=
  (receiver W x cfg).run s (calls.map .body)

/-- The result of a poll of `next_frame` among some calls. -/
def answered (tr : List (ReceiveInput W × ReceiveOutput W)) : Option BodyResult :=
  (tr.flatMap (·.2.body)).findSome? (·.2.result)

namespace Draining

abbrev Result (W : Type) := Option (Draining W × List (ReceiveInput W × ReceiveOutput W))

variable (x : Crates) (cfg : ReceiveConfig)

def finish (s : Receiver W) (phase : DrainPhase) : Result W :=
  (s.calls x cfg ((if s.pipe.next.isSome then [.dropNext] else []) ++ [.dropIncoming])).map
    fun (tr, s) => (⟨s, phase⟩, tr)

def after (r : Option (List (ReceiveInput W × ReceiveOutput W) × Receiver W))
    (k : List (ReceiveInput W × ReceiveOutput W) → Receiver W → Result W) : Result W :=
  match r with
  | none => none
  | some (tr, s) => (k tr s).map fun (s, tr') => (s, tr ++ tr')

def start (m wireAllowance : ℕ) (overflow : Bool) (s : Receiver W) : Result W :=
  after (s.calls x cfg [.drainBudget m wireAllowance]) fun _ s =>
    if overflow then
      finish x cfg s (.returned (.error (.new .localMessage "invalid drain timeout duration")))
    else some (⟨s, .draining m none⟩, [])

/-- A poll of `next_frame`, which is called first if there is no call of it. -/
def next (w : W) (remaining : ℕ) (s : Receiver W) : Result W :=
  after (s.calls x cfg ((if s.pipe.next.isNone then [.nextFrame] else []) ++ [.pollNext w])) fun tr s =>
    match answered tr with
    | none => some (⟨s, .draining remaining none⟩, [])
    | some (.ok (some frame)) =>
      after (s.calls x cfg [.dropNext]) fun _ s => some (⟨s, .draining remaining (some frame)⟩, [])
    | some (.ok none) => finish x cfg s (.returned (.ok ()))
    | some (.error e) => finish x cfg s (.returned (.error e))

def count (remaining : ℕ) (s : Receiver W) : Frame IncomingData → Result W
  | .data data =>
    if data.len ≤ remaining then some (⟨s, .draining (remaining - data.len) none⟩, [])
    else
      finish x cfg s (.returned (.error ((Error.new .limit "body drain payload limit exceeded").withDetail
        (.incomingLimit .drainPayload))))
  | .trailers _ => some (⟨s, .draining remaining none⟩, [])

def step (m wireAllowance : ℕ) (s : Draining W) : DrainInput W → Result W
  | .receive i =>
    if s.phase.permits i then
      (s.receiver.step x cfg i).map fun (r, out) => (⟨r, s.phase⟩, [(i, out)])
    else none
  | .start overflow =>
    match s.phase with
    | .before => start x cfg m wireAllowance overflow s.receiver
    | _ => none
  | .poll w =>
    match s.phase with
    | .draining remaining none => next x cfg w remaining s.receiver
    | .draining remaining (some frame) => count x cfg remaining s.receiver frame
    | _ => none
  | .elapse =>
    match s.phase with
    | .draining _ _ =>
      finish x cfg s.receiver (.returned (.error ((Error.new .timeout "body drain deadline exceeded").withDetail
        (.timeout .drain))))
    | _ => none
  | .drop =>
    match s.phase with
    | .draining _ _ => finish x cfg s.receiver .dropped
    | _ => none

end Draining

/-- `drain` with a limit of `m` payload bytes, beside everything its receiver does. A step shows
the steps of the receiver that it made. -/
def drainer (W : Type) (x : Crates) (cfg : ReceiveConfig) (m wireAllowance : ℕ) :
    Machine (Draining W) (DrainInput W) (List (ReceiveInput W × ReceiveOutput W)) where
  step := Draining.step x cfg m wireAllowance

/-- A message that has no body: no driver runs, and its `Incoming` owns no endpoint. -/
def Receiver.bodiless (b : RecvBuffer) (mode : BodyMode) (limits : DecodeLimits) : Receiver W :=
  ⟨.ended .complete, .idle b, .withLimits mode limits, false, ⟨.new, none, some .empty, none⟩⟩

def Draining.new (b : RecvBuffer) (mode : BodyMode) (h : ∀ n, mode = .fixed n → n < wordSize)
    (limits : DecodeLimits) : Draining W :=
  ⟨(Receiver.start b mode h limits).getD (.bodiless b mode limits), .before⟩

abbrev DrainTrace (W : Type) := List (DrainInput W × List (ReceiveInput W × ReceiveOutput W))

namespace DrainTrace

variable (tr : DrainTrace W)

def isStart : DrainInput W → Bool
  | .start _ => true
  | _ => false

def received : List (ReceiveInput W × ReceiveOutput W) := tr.flatMap Prod.snd

/-- The steps of the receiver before `drain` was polled. -/
def beforeDrain : List (ReceiveInput W × ReceiveOutput W) := received (tr.takeWhile fun y => !isStart y.1)

/-- The steps of the receiver from the first poll of `drain` on. -/
def sinceDrain : List (ReceiveInput W × ReceiveOutput W) := received (tr.dropWhile fun y => !isStart y.1)

end DrainTrace

def chargesIn (calls : List (BodyCall W × BodyOutput W)) : List (ℕ × ℕ) :=
  calls.filterMap fun y =>
    match y.1 with
    | .chargeDrain bytes payload => some (bytes, payload)
    | _ => none

def DrainPolicy.paid : DrainPolicy → List (ℕ × ℕ) → List (ℕ × ℕ)
  | _, [] => []
  | p, (bytes, payload) :: charges =>
    match p.charge bytes payload with
    | .ok p => (bytes, payload) :: paid p charges
    | .error _ => paid p charges

end Vakya
