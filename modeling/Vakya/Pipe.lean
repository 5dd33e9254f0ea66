import Vakya.Library.Machine

/-!
# The body rendezvous (`body/pipe.rs`)

A channel of capacity one between the connection and a body. The futures of an
endpoint borrow it, so each side has at most one at a time; destructors are
operations like any other. Wakers are identified with the task they wake.
-/

namespace Vakya

open Library

inductive EndpointLifecycle
  | active
  | complete
deriving DecidableEq, Repr

inductive PipeState (T E : Type)
  | idle
  | demanded
  | offered (item : T)
  | closed
  | disconnected
  | failed (error : E)
  | abandoned (item : Option T)

inductive DemandError
  | abandoned
  | closed
deriving DecidableEq, Repr

inductive OfferError (T : Type)
  | abandoned (item : T)
  | closed (item : T)

inductive TakeError (E : Type)
  | failed (error : E)
  | disconnected

inductive OfferLifecycle (T : Type)
  | pending (item : T)
  | submitted

/-- The future that borrows the producer. `resolved` is set once it returned `Ready`. -/
inductive ProducerFuture (T : Type)
  | demand (resolved : Bool)
  | offer (lifecycle : OfferLifecycle T) (resolved : Bool)
  | abandoned (resolved : Bool)

/-- What one operation returns. A poll that returned `Pending` has no result. -/
inductive PipeEvent (T E : Type)
  | quiet
  | offered (item : T)
  | demand (result : Option (Except DemandError Unit))
  /-- `submitted` is the item that the first poll of an offer moves out of it. -/
  | offer (submitted : Option T) (result : Option (Except (OfferError T) Unit))
  | abandoned (ready : Bool)
  | took (result : Option (Except (TakeError E) (Option T)))
  | released (item : T)
  | panicked

structure PipeOutput (T E W : Type) where
  event : PipeEvent T E
  woke : Option W

/-- The shared state, both endpoints (absent once dropped) and the futures that borrow them. -/
structure Channel (T E W : Type) where
  state : PipeState T E
  producerWaker : Option W
  consumerWaker : Option W
  producer : Option EndpointLifecycle
  consumer : Option EndpointLifecycle
  producing : Option (ProducerFuture T)
  /-- The `Take` future; true once it returned `Ready`. -/
  taking : Option Bool

inductive PipeCall (T E W : Type)
  | demand
  | offer (item : T)
  | abandoned
  | pollProducer (waker : W)
  | dropFuture
  | close
  | fail (error : E)
  | dropProducer
  | take
  | pollTake (waker : W)
  | dropTake
  | dropConsumer

def PipeCall.isProducer {T E W : Type} : PipeCall T E W → Bool
  | .take | .pollTake _ | .dropTake | .dropConsumer => false
  | _ => true

namespace Channel

variable {T E W : Type}

def new : Channel T E W := ⟨.idle, none, none, some .active, some .active, none, none⟩

def isAbandoned (c : Channel T E W) : Bool :=
  match c.state with
  | .abandoned _ => true
  | _ => false

def finish (c : Channel T E W) (terminal : PipeState T E) : Channel T E W × PipeOutput T E W :=
  if c.producer = some .complete then (c, ⟨.quiet, none⟩)
  else
    match c.state with
    | .idle | .demanded =>
      ({ c with state := terminal, consumerWaker := none, producer := some .complete },
        ⟨.quiet, c.consumerWaker⟩)
    | .abandoned _ | .closed | .disconnected | .failed _ =>
      ({ c with producer := some .complete }, ⟨.quiet, none⟩)
    | .offered _ => (c, ⟨.panicked, none⟩)

def dropProducer (c : Channel T E W) : Channel T E W × PipeOutput T E W :=
  let (c, o) := if c.producer = some .active then c.finish .disconnected else (c, ⟨.quiet, none⟩)
  ({ c with producer := none }, o)

def close (c : Channel T E W) : Channel T E W × PipeOutput T E W :=
  let (c, o) := c.finish .closed
  (c.dropProducer.1, o)

def fail (c : Channel T E W) (error : E) : Channel T E W × PipeOutput T E W :=
  let (c, o) := c.finish (.failed error)
  (c.dropProducer.1, o)

def pollDemand (c : Channel T E W) (w : W) : Channel T E W × PipeOutput T E W :=
  let ready (r : Except DemandError Unit) : Channel T E W × PipeOutput T E W :=
    ({ c with producing := some (.demand true) }, ⟨.demand (some r), none⟩)
  match c.state with
  | .demanded | .offered _ => ready (.ok ())
  | .idle => ({ c with producerWaker := some w }, ⟨.demand none, none⟩)
  | .abandoned _ => ready (.error .abandoned)
  | .closed | .disconnected | .failed _ => ready (.error .closed)

def pollAbandoned (c : Channel T E W) (w : W) : Channel T E W × PipeOutput T E W :=
  if c.isAbandoned then
    ({ c with producing := some (.abandoned true) }, ⟨.abandoned true, none⟩)
  else ({ c with producerWaker := some w }, ⟨.abandoned false, none⟩)

def submit (c : Channel T E W) (item : T) (w : W) : Channel T E W × PipeOutput T E W :=
  let ready (r : Except (OfferError T) Unit) : Channel T E W × PipeOutput T E W :=
    ({ c with producing := some (.offer .submitted true) }, ⟨.offer (some item) (some r), none⟩)
  match c.state with
  | .idle | .demanded =>
    ({ c with
        state := .offered item, producerWaker := some w, consumerWaker := none
        producing := some (.offer .submitted false) },
      ⟨.offer (some item) none, c.consumerWaker⟩)
  | .abandoned _ => ready (.error (.abandoned item))
  | .closed | .disconnected | .failed _ => ready (.error (.closed item))
  | .offered _ => ({ c with producing := some (.offer .submitted false) }, ⟨.panicked, none⟩)

def resume (c : Channel T E W) (w : W) : Channel T E W × PipeOutput T E W :=
  let ready (c : Channel T E W) (r : Except (OfferError T) Unit) :
      Channel T E W × PipeOutput T E W :=
    ({ c with producing := some (.offer .submitted true) }, ⟨.offer none (some r), none⟩)
  match c.state with
  | .offered _ => ({ c with producerWaker := some w }, ⟨.offer none none, none⟩)
  | .idle | .demanded => ready c (.ok ())
  | .abandoned (some item) => ready { c with state := .abandoned none } (.error (.abandoned item))
  | .abandoned none => ready c (.ok ())
  | .closed | .disconnected | .failed _ => (c, ⟨.panicked, none⟩)

def dropOffer (c : Channel T E W) (lifecycle : OfferLifecycle T) :
    Channel T E W × PipeOutput T E W :=
  let c := { c with producerWaker := none, producing := none }
  match lifecycle with
  | .pending item => (c, ⟨.released item, none⟩)
  | .submitted =>
    match c.state with
    | .offered item => ({ c with state := .idle, consumerWaker := none }, ⟨.released item, c.consumerWaker⟩)
    | .abandoned (some item) => ({ c with state := .abandoned none }, ⟨.released item, none⟩)
    | .abandoned none | .idle | .demanded | .closed | .disconnected | .failed _ =>
      (c, ⟨.quiet, none⟩)

def pollTake (c : Channel T E W) (w : W) : Channel T E W × PipeOutput T E W :=
  let last (r : Except (TakeError E) (Option T)) : Channel T E W × PipeOutput T E W :=
    ({ c with state := .closed, consumer := some .complete, taking := some true },
      ⟨.took (some r), none⟩)
  match c.state with
  | .idle | .demanded =>
    ({ c with state := .demanded, consumerWaker := some w, producerWaker := none },
      ⟨.took none, c.producerWaker⟩)
  | .offered item =>
    ({ c with state := .idle, producerWaker := none, taking := some true },
      ⟨.took (some (.ok (some item))), c.producerWaker⟩)
  | .closed => last (.ok none)
  | .failed error => last (.error (.failed error))
  | .disconnected => last (.error .disconnected)
  | .abandoned _ => (c, ⟨.panicked, none⟩)

def dropConsumer (c : Channel T E W) : Channel T E W × PipeOutput T E W :=
  let gone := { c with consumer := none }
  if c.consumer = some .complete then (gone, ⟨.quiet, none⟩)
  else
    match c.state with
    | .offered item =>
      ({ gone with state := .abandoned (some item), producerWaker := none }, ⟨.quiet, c.producerWaker⟩)
    | .abandoned item =>
      ({ gone with state := .abandoned item, producerWaker := none }, ⟨.quiet, c.producerWaker⟩)
    | .idle | .demanded =>
      ({ gone with state := .abandoned none, producerWaker := none }, ⟨.quiet, c.producerWaker⟩)
    | .closed | .disconnected | .failed _ => (gone, ⟨.quiet, none⟩)

def producerFree (c : Channel T E W) : Bool := c.producer.isSome && c.producing.isNone

def consumerFree (c : Channel T E W) : Bool := c.consumer.isSome && c.taking.isNone

/-- The operations that borrows permit; no future is polled again after `Ready`. -/
def step (c : Channel T E W) : PipeCall T E W → Option (Channel T E W × PipeOutput T E W)
  | .demand =>
    if c.producerFree then some ({ c with producing := some (.demand false) }, ⟨.quiet, none⟩) else none
  | .offer item =>
    if c.producerFree then
      some ({ c with producing := some (.offer (.pending item) false) }, ⟨.offered item, none⟩)
    else none
  | .abandoned =>
    if c.producerFree then some ({ c with producing := some (.abandoned false) }, ⟨.quiet, none⟩) else none
  | .pollProducer w =>
    match c.producing with
    | some (.demand false) => some (c.pollDemand w)
    | some (.offer (.pending item) false) => some (c.submit item w)
    | some (.offer .submitted false) => some (c.resume w)
    | some (.abandoned false) => some (c.pollAbandoned w)
    | _ => none
  | .dropFuture =>
    match c.producing with
    | some (.offer lifecycle _) => some (c.dropOffer lifecycle)
    | some _ => some ({ c with producerWaker := none, producing := none }, ⟨.quiet, none⟩)
    | none => none
  | .close => if c.producerFree then some c.close else none
  | .fail error => if c.producerFree then some (c.fail error) else none
  | .dropProducer => if c.producerFree then some c.dropProducer else none
  | .take => if c.consumerFree then some ({ c with taking := some false }, ⟨.quiet, none⟩) else none
  | .pollTake w => if c.taking = some false then some (c.pollTake w) else none
  | .dropTake =>
    if c.taking.isSome then some ({ c with consumerWaker := none, taking := none }, ⟨.quiet, none⟩)
    else none
  | .dropConsumer => if c.consumerFree then some c.dropConsumer else none

end Channel

def pipe (T E W : Type) : Machine (Channel T E W) (PipeCall T E W) (PipeOutput T E W) where
  step := Channel.step

end Vakya
