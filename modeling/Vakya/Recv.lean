import Vakya.Incoming

/-!
# The receive buffer (`io/recv.rs`, `io/managed.rs`)

Retained input for the incremental parsers. Its storage is an ordinary
growable buffer or, on Linux, a buffer leased from the runtime's pool. A read
takes the buffer and only its completion gives it back.
-/

namespace Vakya

/-- A growable buffer. Its capacity decides only when an allocation is replaced. -/
structure BytesMut where
  bytes : Bytes
  capacity : ℕ

namespace BytesMut

def withCapacity (n : ℕ) : BytesMut := ⟨[], n⟩

def new : BytesMut := withCapacity 0

def fromSlice (bytes : Bytes) : BytesMut := ⟨bytes, bytes.length⟩

def advance (m : BytesMut) (count : ℕ) : BytesMut := ⟨m.bytes.drop count, m.capacity - count⟩

def splitTo (m : BytesMut) (count : ℕ) : Bytes × BytesMut := (m.bytes.take count, m.advance count)

def reserve (m : BytesMut) (additional : ℕ) : BytesMut :=
  { m with capacity := max m.capacity (m.bytes.length + additional) }

end BytesMut

inductive ReceiveStorage
  | portable (bytes : BytesMut)
  | managed (buffer : Bytes) (start stop : ℕ)

namespace ReceiveStorage

def bytes : ReceiveStorage → Bytes
  | .portable m => m.bytes
  | .managed buffer start stop => (buffer.take stop).drop start

def len (s : ReceiveStorage) : ℕ := s.bytes.length

end ReceiveStorage

inductive ReadStatus
  | data (count : ℕ)
  | eof
deriving DecidableEq, Repr

structure RecvBuffer where
  storage : ReceiveStorage
  managedPermit : Option ManagedLeasePermit
  preferredRead : ℕ
  maxRetained : ℕ

def operationCanceled : Error := .new .canceled "HTTP I/O operation failed"

namespace RecvBuffer

def new (preferredRead maxRetained : ℕ) : Except Error RecvBuffer :=
  if preferredRead = 0 ∨ preferredRead > maxRetained then
    .error (.new .limit "receive limits must be nonzero and ordered")
  else .ok ⟨.portable (.withCapacity preferredRead), none, preferredRead, maxRetained⟩

def bytes (b : RecvBuffer) : Bytes := b.storage.bytes

def len (b : RecvBuffer) : ℕ := b.storage.len

def compactIfEmpty (b : RecvBuffer) : RecvBuffer :=
  match b.storage with
  | .portable m =>
    if m.bytes = [] ∧ m.capacity > min (min (b.preferredRead * 4) (wordSize - 1)) b.maxRetained then
      { b with storage := .portable (.withCapacity b.preferredRead) }
    else b
  | .managed _ start stop => if start = stop then { b with storage := .portable .new } else b

def makePortable (b : RecvBuffer) : RecvBuffer :=
  match b.storage with
  | .managed buffer start stop =>
    { b with storage := .portable (.fromSlice ((buffer.take stop).drop start)) }
  | .portable _ => b

def consume (b : RecvBuffer) (count : ℕ) : RecvBuffer × Except Error Unit :=
  if count > b.len then
    (b, .error (.new .internal "receive buffer consumed beyond initialized bytes"))
  else
    let b := match b.storage with
      | .portable m => { b with storage := .portable (m.advance count) }
      | .managed buffer start stop => { b with storage := .managed buffer (start + count) stop }
    (b.compactIfEmpty, .ok ())

def takeSharedPrefix (b : RecvBuffer) (count : ℕ) : RecvBuffer × Except Error Bytes :=
  if count > b.len then
    (b, .error (.new .internal "receive buffer split beyond initialized bytes"))
  else
    let (b, taken) : RecvBuffer × Bytes := match b.storage with
      | .portable m =>
        let (taken, rest) := m.splitTo count
        ({ b with storage := .portable rest }, taken)
      | .managed buffer start stop =>
        let split := start + count
        ({ b with storage := .managed buffer split stop }, (buffer.take split).drop start)
    (b.compactIfEmpty, .ok taken)

/-- `none` is the panic of `expect`: managed storage without a lease permit. -/
def takePayload (b : RecvBuffer) (start stop consumed : ℕ) :
    Option (RecvBuffer × Except Error IncomingData) :=
  if start > stop ∨ stop > consumed ∨ consumed > b.len then
    some (b, .error (.new .internal "decoder returned an invalid receive-buffer range"))
  else
    match b.storage with
    | .portable m =>
      let (taken, rest) := m.splitTo consumed
      let b := { b with storage := .portable rest }
      some (b.compactIfEmpty, .ok (.bytes ((taken.take stop).drop start)))
    | .managed buffer first last =>
      let suffix := (buffer.take last).drop (first + consumed)
      -- the application takes the lease, so what follows the payload is copied out
      let rest : BytesMut := if first + consumed < last then .fromSlice suffix else .new
      let b := { b with storage := .portable rest }
      match b.managedPermit with
      | none => none
      | some permit =>
        let (permit, data) := IncomingData.fromManaged buffer (first + start) (first + stop) permit
        some ({ b with managedPermit := some permit }, data)

def takeAll (b : RecvBuffer) : RecvBuffer × Bytes := ({ b with storage := .portable .new }, b.bytes)

/-- A call of `read` or `read_managed` up to its first suspension. The reader owns `slice`
until it completes. -/
inductive ReadStart
  | done (result : Except Error ReadStatus)
  | portable (slice : BytesMut) (target : ℕ)
  | managed (target : ℕ)
  | panicked

def beginRead (b : RecvBuffer) (canceled : Bool) : RecvBuffer × ReadStart :=
  if canceled then (b, .done (.error operationCanceled))
  else
    let b := b.makePortable
    let available := b.maxRetained - b.len
    if available = 0 then
      (b, .done (.error ((Error.new .limit "receive buffer limit reached").withDetail
        (.incomingLimit .retainedInput))))
    else
      let target := min available b.preferredRead
      match b.storage with
      | .portable m => ({ b with storage := .portable .new }, .portable (m.reserve target) target)
      -- `make_portable` has run, so this is its `unreachable!`
      | .managed _ _ _ => ({ b with storage := .portable .new }, .panicked)

/-- The reader appended `appended` to its slice and reported `result`. -/
def finishRead (b : RecvBuffer) (slice : BytesMut) (target : ℕ) (appended : Bytes)
    (result : Except Error ℕ) : RecvBuffer × Except Error ReadStatus :=
  let start := slice.bytes.length
  let b := { b with storage := .portable { slice with bytes := slice.bytes ++ appended } }
  match result with
  | .ok count =>
    if count > target ∨ b.len ≠ start + count then
      (b, .error (.new .io "reader reported an inconsistent initialized length"))
    else if count = 0 then (b, .ok .eof)
    else (b, .ok (.data count))
  | .error e => (b, .error e)

/-- `read_managed`. It reads portably into a partial prefix, and while the application
holds the lease. -/
def beginReadManaged (b : RecvBuffer) (canceled : Bool) : RecvBuffer × ReadStart :=
  if canceled then (b, .done (.error operationCanceled))
  else if b.managedPermit.any (·.held) then b.beginRead canceled
  else if b.bytes ≠ [] then b.beginRead canceled
  else (b, .managed (min b.preferredRead b.maxRetained))

def managedRead (requested : ℕ) : Except Error (Option Bytes) → Except Error (Option Bytes)
  | .ok (some buffer) =>
    if buffer = [] then .error (.new .internal "managed stream receive returned an empty lease")
    else if requested ≠ 0 ∧ buffer.length > requested then
      .error (.new .internal "managed stream receive exceeded its requested range")
    else .ok (some buffer)
  | .ok none => .ok none
  | .error e => .error e

def finishReadManaged (b : RecvBuffer) (target : ℕ) (result : Except Error (Option Bytes)) :
    RecvBuffer × Except Error ReadStatus :=
  match managedRead target result with
  | .ok (some buffer) =>
    -- the first managed read makes the permit that all leases share
    let permit := b.managedPermit.getD ⟨false, 0⟩
    ({ b with storage := .managed buffer 0 buffer.length, managedPermit := some permit },
      .ok (.data buffer.length))
  | .ok none => (b, .ok .eof)
  | .error e => (b, .error e)

end RecvBuffer

end Vakya
