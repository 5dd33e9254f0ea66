import Vakya.Encode
import Vakya.Pipe

/-!
# Received bodies (`body/incoming.rs`)

`Incoming` is the consumer of a rendezvous together with what the message head
promised about the body. A call of `next_frame` is a future of its own, which
can be dropped between any two polls.
-/

namespace Vakya

open Library

inductive Frame (D : Type)
  | data (data : D)
  | trailers (trailers : Headers)

/-- A view of received payload. Views of one managed buffer share it: `lease` is the
allocation that returns the buffer to its pool when the last of them is dropped. -/
inductive IncomingData
  | bytes (bytes : Bytes)
  | managed (lease : ℕ) (buffer : Bytes) (start stop : ℕ)

namespace IncomingData

def content : IncomingData → Bytes
  | .bytes b => b
  | .managed _ buffer start stop => (buffer.take stop).drop start

def len : IncomingData → ℕ
  | .bytes b => b.length
  | .managed _ _ start stop => stop - start

end IncomingData

/-- The flag that allows one managed buffer of a connection to be held by the application.
`granted` numbers the leases. -/
structure ManagedLeasePermit where
  held : Bool
  granted : ℕ

namespace IncomingData

def fromManaged (buffer : Bytes) (start stop : ℕ) (permit : ManagedLeasePermit) :
    ManagedLeasePermit × Except Error IncomingData :=
  if start > stop ∨ stop > buffer.length then
    (permit, .error (.new .internal "managed incoming-data view lies outside initialized bytes"))
  else if permit.held then
    (permit, .error (.new .internal "connection attempted to transfer multiple managed leases"))
  else (⟨true, permit.granted + 1⟩, .ok (.managed permit.granted buffer start stop))

end IncomingData

def SizeHint.withBounds (lower : ℕ) (upper : Option ℕ) (hlower : lower < wordSize)
    (hupper : ∀ u ∈ upper, u < wordSize) : Except Error SizeHint :=
  if h : ∀ u ∈ upper, lower ≤ u then .ok ⟨lower, upper, h, hlower, hupper⟩
  else .error (.new .localMessage "body size upper bound is below its lower bound")

/-- Wire bytes and payload bytes that may still be consumed, once draining has started. -/
abbrev DrainPolicy := Option (ℕ × ℕ)

namespace DrainPolicy

def charge : DrainPolicy → ℕ → ℕ → Except LimitKind DrainPolicy
  | none, _, _ => .ok none
  | some (wire, data), bytes, payload =>
    if data < payload then .error .drainPayload
    else if wire < bytes then .error .drainWire
    else .ok (some (wire - bytes, data - payload))

def budget (bytes wireAllowance : ℕ) : DrainPolicy :=
  some (min (bytes + wireAllowance) (wordSize - 1), bytes)

end DrainPolicy

structure Incoming where
  /-- Whether the body still owns its endpoint. -/
  consumer : Bool
  size : SizeHint
  trailers : TrailerHint
  trailersSeen : Bool

namespace Incoming

def empty : Incoming := ⟨false, .withExact 0 zero_lt_wordSize, .none, false⟩

def channel (size : SizeHint) (trailers : TrailerHint) : Incoming := ⟨true, size, trailers, false⟩

def finish (b : Incoming) : Incoming :=
  { b with consumer := false, size := .withExact 0 zero_lt_wordSize, trailers := .none }

/-- The bounds left after `length` bytes of payload. -/
def shrink (size : SizeHint) (length : ℕ) : Except Error SizeHint :=
  SizeHint.withBounds (size.lower - length) (size.upper.map (· - length))
    (lt_of_le_of_lt (Nat.sub_le _ _) size.lower_lt)
    (by
      intro u hu
      obtain ⟨v, hv, rfl⟩ := Option.map_eq_some_iff.mp hu
      exact lt_of_le_of_lt (Nat.sub_le _ _) (size.upper_lt v hv))

def observe (b : Incoming) : Frame IncomingData → Except Error Incoming
  | .data data =>
    if b.trailersSeen ∨ b.size.upper.any (data.len > ·) then
      .error (.new .invalidMessage "received body violated its framing metadata")
    else do
      let size ← shrink b.size data.len
      .ok { b with size }
  | .trailers _ =>
    if b.trailers = .none ∨ b.trailersSeen ∨ b.size.lower ≠ 0 then
      .error (.new .invalidMessage "received trailers violated body framing")
    else .ok { b with trailersSeen := true, trailers := .none, size := .withExact 0 zero_lt_wordSize }

/-- What `next_frame` makes of the result of its `Take`. -/
def settle (b : Incoming) (r : Except (TakeError Error) (Option (Frame IncomingData))) :
    Incoming × Except Error (Option (Frame IncomingData)) :=
  let (b, result) : Incoming × Except Error (Option (Frame IncomingData)) :=
    match r with
    | .ok (some frame) =>
      match b.observe frame with
      | .ok b => (b, .ok (some frame))
      | .error e => (b, .error e)
    | .ok none =>
      if b.size.lower ≠ 0 then
        (b, .error (.new .invalidMessage "received body ended before its declared length"))
      else (b, .ok none)
    | .error (.failed e) => (b, .error e)
    | .error .disconnected =>
      (b, .error ((Error.new .closed "incoming body driver ended without framing completion").withDetail
        .driverLost))
  match result with
  | .ok (some _) => (b, result)
  | _ => (b.finish, result)

end Incoming

inductive NextFrame
  | unpolled
  | awaiting
  | resolved
deriving DecidableEq, Repr

abbrev BodyChannel (W : Type) := Channel (Frame IncomingData) Error W
abbrev BodyPipeCall (W : Type) := PipeCall (Frame IncomingData) Error W
abbrev BodyPipeOutput (W : Type) := PipeOutput (Frame IncomingData) Error W
abbrev BodyResult := Except Error (Option (Frame IncomingData))

/-- A channel whose consumer is owned by a body. -/
structure BodyPipe (W : Type) where
  channel : BodyChannel W
  remaining : DrainPolicy
  /-- Absent once dropped. -/
  incoming : Option Incoming
  next : Option NextFrame

inductive BodyCall (W : Type)
  | producer (call : BodyPipeCall W)
  | nextFrame
  | pollNext (waker : W)
  | dropNext
  | dropIncoming
  | drainBudget (bytes wireAllowance : ℕ)
  | chargeDrain (bytes payload : ℕ)

/-- The operations made on the channel, and the result of a poll of `next_frame` that was
ready. -/
structure BodyOutput (W : Type) where
  calls : List (BodyPipeCall W × BodyPipeOutput W)
  result : Option BodyResult

namespace BodyPipe

variable {W : Type}

def new (size : SizeHint) (trailers : TrailerHint) : BodyPipe W :=
  ⟨.new, none, some (.channel size trailers), none⟩

def perform (s : BodyPipe W) (calls : List (BodyPipeCall W)) :
    Option (BodyPipe W × List (BodyPipeCall W × BodyPipeOutput W)) :=
  ((pipe _ _ W).run s.channel calls).map fun (tr, c) => ({ s with channel := c }, tr)

/-- The rest of `next_frame` once its `Take` returned `r`. -/
def resolve (s : BodyPipe W) (b : Incoming) (r : Except (TakeError Error) (Option (Frame IncomingData))) :
    Option (BodyPipe W × BodyOutput W) :=
  let (b, result) := b.settle r
  (perform { s with incoming := some b, next := some .resolved }
    (.dropTake :: if b.consumer then [] else [.dropConsumer])).map
      fun (s, tr) => (s, ⟨tr, some result⟩)

/-- A poll of the `Take` that `next_frame` awaits. -/
def awaitTake (s : BodyPipe W) (b : Incoming) (w : W) : Option (BodyPipe W × BodyOutput W) :=
  match s.channel.step (.pollTake w) with
  | none => none
  | some (c, o) =>
    let s := { s with channel := c }
    match o.event with
    | .took (some r) =>
      (s.resolve b r).map fun (s, out) => (s, { out with calls := (.pollTake w, o) :: out.calls })
    | _ => some ({ s with next := some .awaiting }, ⟨[(.pollTake w, o)], none⟩)

def pollNext (s : BodyPipe W) (w : W) : Option (BodyPipe W × BodyOutput W) :=
  match s.incoming, s.next with
  | some b, some .unpolled =>
    if b.consumer then
      match s.channel.step .take with
      | none => none
      | some (c, o) =>
        (awaitTake { s with channel := c } b w).map fun (s, out) =>
          (s, { out with calls := (.take, o) :: out.calls })
    else some ({ s with next := some .resolved }, ⟨[], some (.ok none)⟩)
  | some b, some .awaiting => s.awaitTake b w
  | _, _ => none

def dropNext (s : BodyPipe W) : Option (BodyPipe W × BodyOutput W) :=
  match s.next with
  | none => none
  | some .awaiting => (perform { s with next := none } [.dropTake]).map fun (s, tr) => (s, ⟨tr, none⟩)
  | some _ => some ({ s with next := none }, ⟨[], none⟩)

def dropIncoming (s : BodyPipe W) : Option (BodyPipe W × BodyOutput W) :=
  match s.incoming, s.next with
  | some b, none =>
    (perform { s with incoming := none } (if b.consumer then [.dropConsumer] else [])).map
      fun (s, tr) => (s, ⟨tr, none⟩)
  | _, _ => none

def step (s : BodyPipe W) : BodyCall W → Option (BodyPipe W × BodyOutput W)
  | .producer call =>
    if call.isProducer then (s.perform [call]).map fun (s, tr) => (s, ⟨tr, none⟩) else none
  | .nextFrame =>
    if s.incoming.isSome && s.next.isNone then some ({ s with next := some .unpolled }, ⟨[], none⟩)
    else none
  | .pollNext w => s.pollNext w
  | .dropNext => s.dropNext
  | .dropIncoming => s.dropIncoming
  | .drainBudget bytes wireAllowance =>
    -- `drain` owns the body, so no call of `next_frame` is under way.
    match s.incoming, s.next with
    | some b, none =>
      some (if b.consumer then { s with remaining := .budget bytes wireAllowance } else s, ⟨[], none⟩)
    | _, _ => none
  | .chargeDrain bytes payload =>
    -- The producer's; its answer is the one of `DrainPolicy.charge`.
    match s.remaining.charge bytes payload with
    | .ok remaining => some ({ s with remaining }, ⟨[], none⟩)
    | .error _ => some (s, ⟨[], none⟩)

end BodyPipe

/-- Every interleaving of the producer's operations with those of the body. -/
def bodyPipe (W : Type) : Machine (BodyPipe W) (BodyCall W) (BodyOutput W) where
  step := BodyPipe.step

end Vakya
