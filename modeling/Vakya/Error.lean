import Vakya.Head

/-!
# Errors (`error.rs`)

An error has a kind, a static context and an optional detail. The retained
source plays no part in what the code decides and is left out.
-/

namespace Vakya

inductive ErrorKind
  | io
  | tls
  | invalidMessage
  | localMessage
  | body
  | service
  | busy
  | limit
  | timeout
  | unsupported
  | closed
  | canceled
  | upgrade
  | internal
deriving DecidableEq, Repr

inductive LimitKind
  | headBytes
  | headerCount
  | headMapCapacity
  | chunkLineBytes
  | chunkExtensionBytes
  | trailerBytes
  | trailerCount
  | trailerMapCapacity
  | retainedInput
  | informationalResponses
  | drainPayload
  | drainWire
deriving DecidableEq, Repr

inductive BusyReason
  | requestAdmission
  | reservationWaiter
  | informationalWrite
deriving DecidableEq, Repr

inductive TimeoutPhase
  | transport
  | head
  | bodyProgress
  | writeProgress
  | drain
  | shutdown
deriving DecidableEq, Repr

inductive ErrorDetail
  | busy (reason : BusyReason)
  | incomingLimit (limit : LimitKind)
  | outgoingLimit (limit : LimitKind)
  | timeout (phase : TimeoutPhase)
  | allocation
  | driverLost
deriving DecidableEq, Repr

structure Error where
  kind : ErrorKind
  context : String
  detail : Option ErrorDetail
deriving DecidableEq, Repr

namespace Error

def new (kind : ErrorKind) (context : String) : Error := ⟨kind, context, none⟩

def withDetail (e : Error) (detail : ErrorDetail) : Error := { e with detail := some detail }

end Error

def HeadError.toError (e : HeadError) : Error where
  kind := match e with
    | .limit _ => .limit
    | .unsupportedVersion | .unsupportedTransferCoding => .unsupported
    | _ => .invalidMessage
  context := "received HTTP head failed validation"
  detail := match e with
    | .limit .bytes => some (.incomingLimit .headBytes)
    | .limit .headers => some (.incomingLimit .headerCount)
    | .limit .headerMap => some (.incomingLimit .headMapCapacity)
    | _ => none

def DecodeError.toError (e : DecodeError) : Error where
  kind := match e with
    | .limit _ => .limit
    | _ => .invalidMessage
  context := "received body framing failed"
  detail := match e with
    | .limit .chunkLineBytes => some (.incomingLimit .chunkLineBytes)
    | .limit .chunkExtensionBytes => some (.incomingLimit .chunkExtensionBytes)
    | .limit .trailerBytes => some (.incomingLimit .trailerBytes)
    | .limit .trailers => some (.incomingLimit .trailerCount)
    | .limit .trailerMap => some (.incomingLimit .trailerMapCapacity)
    | _ => none

end Vakya
