import Vakya.Body
import Vakya.Recv

/-!
# Reads that outlive their waits (`reader.rs`, `file.rs`)

`ReaderBody` and `FileBody` stream an owned reader. A read owns its reader and
its buffer, and a wait that is dropped leaves the read for the next wait. The
reader is arbitrary, and may report what it has not written.
-/

namespace Vakya

open Library

/-- `io::ErrorKind`, of the errors that are raised here. -/
inductive RaisedKind
  | invalidInput
  | invalidData
  | unexpectedEof
  deriving DecidableEq

/-- `io::Error`; `E` are the errors of the reader. -/
inductive ReadError (E : Type)
  | raised (kind : RaisedKind) (message : String)
  | source (error : E)

namespace BytesMut

def clear (b : BytesMut) : BytesMut := { b with bytes := [] }

def roundUp (b : BytesMut) (grant : ℕ) : BytesMut := { b with capacity := max b.capacity grant }

def fill (b : BytesMut) (written : Bytes) : BytesMut := { b with bytes := b.bytes ++ written }

end BytesMut

/-- An `AsyncRead`: one poll of a read into a slice of some width, after its cancellation was
requested or not. When the read completes it has a result and has initialised some bytes. -/
structure AsyncRead (R I E : Type) where
  poll : R → ℕ → Bool → I → R × Option (Except (ReadError E) ℕ × Bytes)

structure ReadOperation (R : Type) where
  reader : R
  buffer : BytesMut
  slice : ℕ
  canceled : Bool

inductive ReadState (R : Type)
  | idle (reader : R)
  | pending (operation : ReadOperation R) (width : ℕ)

structure OwnedRead (R : Type) where
  state : ReadState R
  spare : Option BytesMut

structure ReadLog (R E : Type) where
  submitted : Option (ReadOperation R)
  completed : Option (R × Except (ReadError E) ℕ × Bytes)

def ReadLog.quiet {R E : Type} : ReadLog R E := ⟨none, none⟩

structure ReaderParts (R E : Type) where
  reader : R
  buffer : BytesMut
  result : Option (Except (ReadError E) ℕ)

section Operations

variable {R I E : Type} (A : AsyncRead R I E)

def validate (result : Except (ReadError E) ℕ) (buffer : BytesMut) (width : ℕ) : Except (ReadError E) ℕ :=
  if width < buffer.bytes.length ||
      result.toOption.any fun bytes => width < bytes || bytes != buffer.bytes.length then
    .error (.raised .invalidData "reader returned inconsistent initialized progress")
  else result

namespace OwnedRead

def new (reader : R) : OwnedRead R := ⟨.idle reader, none⟩

def recycle (o : OwnedRead R) (buffer : BytesMut) : OwnedRead R :=
  if o.spare.isNone then { o with spare := some buffer.clear } else o

/-- The operation is polled; a result is `none` while it is pending. -/
def pollOperation (spare : Option BytesMut) (op : ReadOperation R) (width : ℕ) (i : I) :
    OwnedRead R × Option (R × Except (ReadError E) ℕ × Bytes) × Option (Except (ReadError E) ℕ × BytesMut) :=
  match A.poll op.reader op.slice op.canceled i with
  | (reader, none) => (⟨.pending { op with reader := reader } width, spare⟩, none, none)
  | (reader, some (result, written)) =>
    let buffer := op.buffer.fill written
    (⟨.idle reader, spare⟩, some (reader, result, written), some (validate result buffer width, buffer))

/-- One poll of `read`. The width of a read that is already pending stays what it was. -/
def read (o : OwnedRead R) (width grant : ℕ) (i : I) :
    OwnedRead R × ReadLog R E × Option (Except (ReadError E) ℕ × BytesMut) :=
  match o.state with
  | .idle reader =>
    let buffer := (((o.spare.getD (.withCapacity width)).clear).reserve width).roundUp grant
    let op : ReadOperation R := ⟨reader, buffer, width, false⟩
    let (o, completed, result) := pollOperation A none op width i
    (o, ⟨some op, completed⟩, result)
  | .pending op width =>
    let (o, completed, result) := pollOperation A o.spare op width i
    (o, ⟨none, completed⟩, result)

def intoParts (o : OwnedRead R) (i : I) : ReadLog R E × (OwnedRead R ⊕ ReaderParts R E) :=
  match o.state with
  | .idle reader => (.quiet, .inr ⟨reader, o.spare.getD .new, none⟩)
  | .pending op width =>
    match pollOperation A o.spare { op with canceled := true } width i with
    | (_, some (reader, completed), some (result, buffer)) =>
      (⟨none, some (reader, completed)⟩, .inr ⟨reader, buffer, some result⟩)
    | (o, completed, _) => (⟨none, completed⟩, .inl o)

end OwnedRead

def DEFAULT_CHUNK : ℕ := 16 * 1024

structure ReaderBody (R : Type) where
  reads : OwnedRead R
  chunkSize : ℕ
  done : Bool

namespace ReaderBody

def new (reader : R) : ReaderBody R := ⟨.new reader, DEFAULT_CHUNK, false⟩

def withChunkSize (reader : R) (chunkSize : ℕ) : Except (ReadError E) (ReaderBody R) :=
  -- `isize::MAX`
  if chunkSize = 0 ∨ wordSize / 2 - 1 < chunkSize then
    .error (.raised .invalidInput "invalid reader body chunk size")
  else .ok ⟨.new reader, chunkSize, false⟩

def nextChunk (s : ReaderBody R) (width grant : ℕ) (i : I) :
    ReaderBody R × ReadLog R E × Option (Except (ReadError E) (Option BytesMut)) :=
  if s.done then (s, .quiet, some (.ok none))
  else
    match s.reads.read A width grant i with
    | (reads, log, none) => ({ s with reads := reads }, log, none)
    | (reads, log, some (.ok 0, buffer)) =>
      ({ s with reads := reads.recycle buffer, done := true }, log, some (.ok none))
    | (reads, log, some (.ok _, buffer)) => ({ s with reads := reads }, log, some (.ok (some buffer)))
    | (reads, log, some (.error e, buffer)) =>
      ({ s with reads := reads.recycle buffer, done := true }, log, some (.error e))

def recycle (s : ReaderBody R) (data : BytesMut) : ReaderBody R :=
  if data.capacity ≤ s.chunkSize then { s with reads := s.reads.recycle data } else s

def nextFrame (s : ReaderBody R) (grant : ℕ) (i : I) :
    ReaderBody R × ReadLog R E × FramePoll BytesMut (ReadError E) :=
  match s.nextChunk A s.chunkSize grant i with
  | (s, log, none) => (s, log, .pending)
  | (s, log, some result) => (s, log, .ready (result.map (Option.map .data)))

end ReaderBody

end Operations

structure PositionalFile (F : Type) where
  file : F
  offset : ℕ

/-- The reads of a file: one poll of `read_at`, for a buffer of some width and an offset. -/
structure ReadAt (F I E : Type) where
  poll : F → ℕ → ℕ → Bool → I → F × Option (Except (ReadError E) ℕ × Bytes)

def PositionalFile.reader {F I E : Type} (A : ReadAt F I E) : AsyncRead (PositionalFile F) I E where
  poll p width canceled i :=
    match A.poll p.file width p.offset canceled i with
    | (file, none) => ({ p with file := file }, none)
    | (file, some (.ok count, written)) =>
      if p.offset + count < wordSize then (⟨file, p.offset + count⟩, some (.ok count, written))
      else ({ p with file := file }, some (.error (.raised .invalidData "file body offset overflow"), written))
    | (file, some (.error e, written)) => ({ p with file := file }, some (.error e, written))

structure FileBody (F : Type) where
  reader : ReaderBody (PositionalFile F)
  snapshotLen : ℕ
  remaining : ℕ
  done : Bool

structure FileParts (F E : Type) where
  file : F
  snapshotLen : ℕ
  offset : ℕ
  buffer : BytesMut
  result : Option (Except (ReadError E) ℕ)

namespace FileBody

variable {F I E : Type}

def new (file : F) (snapshotLen : ℕ) : FileBody F := ⟨.new ⟨file, 0⟩, snapshotLen, snapshotLen, false⟩

def nextFrame (A : ReadAt F I E) (s : FileBody F) (grant : ℕ) (i : I) :
    Option (FileBody F × ReadLog (PositionalFile F) E × FramePoll BytesMut (ReadError E)) :=
  if s.done then some (s, .quiet, .ready (.ok none))
  else if s.remaining = 0 then some ({ s with done := true }, .quiet, .ready (.ok none))
  else
    let width := min s.remaining (16 * 1024)
    match s.reader.nextChunk (PositionalFile.reader A) width grant i with
    | (reader, log, none) => some ({ s with reader := reader }, log, .pending)
    | (reader, log, some (.ok (some buffer))) =>
      if buffer.bytes.length ≤ s.remaining then
        some ({ s with reader := reader, remaining := s.remaining - buffer.bytes.length }, log,
          .ready (.ok (some (.data buffer))))
      else none
    | (reader, log, some (.ok none)) =>
      some ({ s with reader := reader, done := true }, log,
        .ready (.error (.raised .unexpectedEof "file ended before its body length snapshot")))
    | (reader, log, some (.error e)) =>
      some ({ s with reader := reader, done := true }, log, .ready (.error e))

def recycle (s : FileBody F) (data : BytesMut) : FileBody F := { s with reader := s.reader.recycle data }

/-- `into_parts`, with what comes from its reader. -/
def parts (snapshotLen : ℕ) (p : ReaderParts (PositionalFile F) E) : FileParts F E :=
  ⟨p.reader.file, snapshotLen, p.reader.offset, p.buffer, p.result⟩

end FileBody

structure ReadBacked (R I E : Type) where
  State : Type
  owner : State → OwnedRead R
  nextFrame : State → ℕ → I → Option (State × ReadLog R E × FramePoll BytesMut (ReadError E))
  recycle : State → BytesMut → State

def readerBody {R I E : Type} (A : AsyncRead R I E) : ReadBacked R I E where
  State := ReaderBody R
  owner s := s.reads
  nextFrame s grant i := some (s.nextFrame A grant i)
  recycle := ReaderBody.recycle

def fileBody {F I E : Type} (A : ReadAt F I E) : ReadBacked (PositionalFile F) I E where
  State := FileBody F
  owner s := s.reader.reads
  nextFrame := FileBody.nextFrame A
  recycle := FileBody.recycle

/-- The uses of such a body: waits that are polled and dropped, frames that come back, and at the
end `into_parts`, which is polled until the read has settled. -/
inductive ReadEvent (I : Type)
  | poll (grant : ℕ) (input : I)
  | drop
  | recycle (data : BytesMut)
  | intoParts
  | settle (input : I)

/-- The flag tells that a wait is pending, which borrows the body. -/
inductive ReadPhase (S R E : Type)
  | serving (s : S) (waiting : Bool)
  | settling (o : OwnedRead R)
  | settled (p : ReaderParts R E)

structure ReadOutput (R E : Type) where
  log : ReadLog R E
  result : Option (FrameResult BytesMut (ReadError E))

def ReadOutput.silent {R E : Type} : ReadOutput R E := ⟨.quiet, none⟩

namespace ReadBacked

variable {R I E : Type}

def machine (A : AsyncRead R I E) (P : ReadBacked R I E) :
    Machine (ReadPhase P.State R E) (ReadEvent I) (ReadOutput R E) where
  step
    | .serving s _, .poll grant i =>
      match P.nextFrame s grant i with
      | none => none
      | some (s, log, .pending) => some (.serving s true, ⟨log, none⟩)
      | some (s, log, .ready r) => some (.serving s false, ⟨log, some r⟩)
    | .serving s true, .drop => some (.serving s false, .silent)
    | .serving s false, .recycle data => some (.serving (P.recycle s data) false, .silent)
    | .serving s false, .intoParts => some (.settling (P.owner s), .silent)
    | .settling o, .settle i =>
      match o.intoParts A i with
      | (log, .inl o) => some (.settling o, ⟨log, none⟩)
      | (log, .inr p) => some (.settled p, ⟨log, none⟩)
    | _, _ => none

end ReadBacked

end Vakya
