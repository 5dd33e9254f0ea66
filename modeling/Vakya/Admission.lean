import Vakya.Library.Machine
import Vakya.Error
import Mathlib.Logic.Function.Basic

/-!
# Client admission (`client/admission.rs`)

Who may hand the next request to the driver of a client connection. Permits,
waiting reservations, the queued job and the running exchange belong to
different owners; all of them, destructors included, act on one shared state.
A job is its request: the channels made with it decide nothing here.
-/

namespace Vakya

open Library

inductive Admission (R W : Type)
  | ready
  | reserved (waiter : Option W)
  | queued (job : R) (waiter : Option W)
  | active (waiter : Option W)
  | readyForWaiter
  | closed

namespace Admission

variable {R W : Type}

def isClosed : Admission R W → Bool
  | .closed => true
  | _ => false

def isBusy : Admission R W → Bool
  | .reserved _ | .queued _ _ | .active _ => true
  | _ => false

/-- `waiter_mut`, read: the waiter slot, if the state has one. -/
def waiter : Admission R W → Option (Option W)
  | .reserved waiter | .queued _ waiter | .active waiter => some waiter
  | .ready | .readyForWaiter | .closed => none

def setWaiter (value : Option W) : Admission R W → Admission R W
  | .reserved _ => .reserved value
  | .queued job _ => .queued job value
  | .active _ => .active value
  | other => other

def takeJob : Admission R W → Admission R W × Option R
  | .queued job waiter => (.active waiter, some job)
  | other => (other, none)

def close : Admission R W → Option W × Option R
  | .reserved waiter | .active waiter => (waiter, none)
  | .queued job waiter => (waiter, some job)
  | .ready | .readyForWaiter | .closed => (none, none)

/-- The state and the waiter to wake when an owner releases admission. `none` is the
`unreachable!` branch. -/
def release : Admission R W → Option (Admission R W × Option W)
  | .reserved (some waiter) | .active (some waiter) => some (.readyForWaiter, some waiter)
  | .reserved none | .active none => some (.ready, none)
  | .closed => some (.closed, none)
  | _ => none

end Admission

/-- The shared state together with what its owners hold. A reservation that is registered
carries the waker of its last poll; `holding` is a driver that was handed a job and has not
released it. -/
structure ClientAdmission (R W : Type) where
  admission : Admission R W
  stopping : Bool
  /-- The admission waker of the connection control. -/
  control : Option W
  senders : ℕ
  driver : Option W
  reservations : ℕ → Option (Option W)
  permits : ℕ
  receiver : Bool
  holding : Bool

inductive AdmissionCall (R W : Type)
  | cloneSender
  | dropSender
  | tryReserve
  | reserve (id : ℕ)
  | pollReserve (id : ℕ) (waker : W)
  | dropReserve (id : ℕ)
  | send (request : R)
  | dropPermit
  | pollNext (waker : W)
  | release
  | dropJob
  | dropReceiver
  | shutdown

inductive AdmissionEvent (R : Type)
  | quiet
  | pending
  /-- The result of `try_reserve`, or of a poll of `reserve`. -/
  | reserved (result : Except Error Unit)
  /-- A request that was submitted, and what `send` returned for it. -/
  | sent (request : R) (result : Except (R × Error) Unit)
  | next (job : Option R)
  | released (reused : Bool)
  | dropped (job : Option R)
  | panicked

structure AdmissionOutput (R W : Type) where
  event : AdmissionEvent R
  woke : List W

namespace ClientAdmission

variable {R W : Type}

def new : ClientAdmission R W :=
  ⟨.ready, false, none, 1, none, fun _ => none, 0, true, false⟩

def closedError : Error := .new .closed "request driver closed"

def notReadyError : Error :=
  (Error.new .busy "request admission is not ready").withDetail (.busy .requestAdmission)

def occupiedError : Error :=
  (Error.new .busy "request reservation already occupied").withDetail (.busy .reservationWaiter)

def quiet (s : ClientAdmission R W) (woke : List W) : ClientAdmission R W × AdmissionOutput R W :=
  (s, ⟨.quiet, woke⟩)

def tryReserve (s : ClientAdmission R W) : ClientAdmission R W × AdmissionOutput R W :=
  if s.admission.isClosed || s.stopping then (s, ⟨.reserved (.error closedError), []⟩)
  else
    match s.admission with
    | .ready =>
      ({ s with admission := .reserved none, permits := s.permits + 1 }, ⟨.reserved (.ok ()), []⟩)
    | _ => (s, ⟨.reserved (.error notReadyError), []⟩)

def setReservation (s : ClientAdmission R W) (id : ℕ) (r : Option (Option W)) : ClientAdmission R W :=
  { s with reservations := Function.update s.reservations id r }

def dropReservation (s : ClientAdmission R W) (id : ℕ) (registered : Option W) : ClientAdmission R W :=
  let s := s.setReservation id none
  match registered with
  | none => s
  | some _ =>
    match s.admission with
    | .readyForWaiter => { s with admission := .ready }
    | other => { s with admission := other.setWaiter none }

def grant (s : ClientAdmission R W) (id : ℕ) : ClientAdmission R W :=
  { s with
    admission := .reserved none, permits := s.permits + 1
    reservations := Function.update s.reservations id none }

def register (s : ClientAdmission R W) (id : ℕ) (waker : W) : ClientAdmission R W :=
  { s with
    admission := s.admission.setWaiter (some waker), control := some waker
    reservations := Function.update s.reservations id (some (some waker)) }

/-- A poll of `reserve`. A reservation that resolves is dropped with its future. -/
def pollReserve (s : ClientAdmission R W) (id : ℕ) (registered : Option W) (waker : W) :
    ClientAdmission R W × AdmissionOutput R W :=
  if s.admission.isClosed || s.stopping then
    (s.dropReservation id registered, ⟨.reserved (.error closedError), []⟩)
  else
    match s.admission, registered with
    | .readyForWaiter, some _ => (s.grant id, ⟨.reserved (.ok ()), []⟩)
    | .ready, none => (s.grant id, ⟨.reserved (.ok ()), []⟩)
    -- The debug assertion: a registered waiter lost its priority.
    | .ready, some _ => (s, ⟨.panicked, []⟩)
    | admission, registered =>
      if registered.isNone && admission.waiter.all Option.isSome then
        (s.dropReservation id registered, ⟨.reserved (.error occupiedError), []⟩)
      else
        match admission.waiter with
        -- "only busy admission accepts a waiter"
        | none => (s, ⟨.panicked, []⟩)
        | some _ => (s.register id waker, ⟨.pending, []⟩)

def releaseShared (s : ClientAdmission R W) (event : AdmissionEvent R) :
    ClientAdmission R W × AdmissionOutput R W :=
  match s.admission.release with
  | none => (s, ⟨.panicked, []⟩)
  | some (admission, waiter) =>
    ({ s with admission, driver := none }, ⟨event, waiter.toList ++ s.driver.toList⟩)

/-- `RequestPermit::send`. A permit that is refused is dropped on return, which releases
admission. -/
def send (s : ClientAdmission R W) (request : R) : ClientAdmission R W × AdmissionOutput R W :=
  let used := { s with permits := s.permits - 1 }
  if s.admission.isClosed || s.stopping then
    used.releaseShared (.sent request (.error (request, closedError)))
  else
    match s.admission with
    | .reserved waiter =>
      ({ used with admission := .queued request waiter, driver := none },
        ⟨.sent request (.ok ()), s.driver.toList⟩)
    | _ => (used, ⟨.panicked, []⟩)

def pollNext (s : ClientAdmission R W) (waker : W) : ClientAdmission R W × AdmissionOutput R W :=
  match s.admission.takeJob with
  | (admission, some job) => ({ s with admission, holding := true }, ⟨.next (some job), []⟩)
  | (_, none) =>
    if s.admission.isClosed || s.stopping || (s.senders == 0 && !s.admission.isBusy) then
      (s, ⟨.next none, []⟩)
    else ({ s with control := some waker, driver := some waker }, ⟨.pending, []⟩)

/-- `Receiver::release`. -/
def release (s : ClientAdmission R W) : ClientAdmission R W × AdmissionOutput R W :=
  if s.stopping || s.senders == 0 then (s, ⟨.released false, []⟩)
  else { s with holding := false }.releaseShared (.released true)

def dropReceiver (s : ClientAdmission R W) : ClientAdmission R W × AdmissionOutput R W :=
  let (waiter, job) := s.admission.close
  ({ s with admission := .closed, driver := none, receiver := false }, ⟨.dropped job, waiter.toList⟩)

def step (s : ClientAdmission R W) :
    AdmissionCall R W → Option (ClientAdmission R W × AdmissionOutput R W)
  | .cloneSender => if 0 < s.senders then some ({ s with senders := s.senders + 1 }.quiet []) else none
  | .dropSender =>
    if 0 < s.senders then
      some ({ s with senders := s.senders - 1, driver := none }.quiet s.driver.toList)
    else none
  | .tryReserve => if 0 < s.senders then some s.tryReserve else none
  | .reserve id =>
    if 0 < s.senders ∧ s.reservations id = none then some ((s.setReservation id (some none)).quiet [])
    else none
  | .pollReserve id waker =>
    match s.reservations id with
    | none => none
    | some registered => some (s.pollReserve id registered waker)
  | .dropReserve id =>
    match s.reservations id with
    | none => none
    | some registered => some ((s.dropReservation id registered).quiet [])
  | .send request => if 0 < s.permits then some (s.send request) else none
  | .dropPermit =>
    if 0 < s.permits then some ({ s with permits := s.permits - 1 }.releaseShared .quiet) else none
  | .pollNext waker => if s.receiver then some (s.pollNext waker) else none
  | .release => if s.receiver && s.holding then some s.release else none
  -- An exchange that ends without being released; the driver closes the connection.
  | .dropJob => if s.holding then some ({ s with holding := false }.quiet []) else none
  | .dropReceiver => if s.receiver then some s.dropReceiver else none
  | .shutdown => some ({ s with stopping := true, control := none }.quiet s.control.toList)

end ClientAdmission

def clientAdmission (R W : Type) :
    Machine (ClientAdmission R W) (AdmissionCall R W) (AdmissionOutput R W) where
  step := ClientAdmission.step

end Vakya
