import Vakya.Recv

/-!
# The receive buffer is a byte queue

Whatever its storage, and whatever the application does with the payload it
was handed, a receive buffer is the queue of the bytes that arrived.
-/

namespace Vakya

open Library

namespace RecvBuffer

/-- What every operation keeps, with the storage range still allowed to be empty. -/
structure Fits (b : RecvBuffer) : Prop where
  preferred_pos : 0 < b.preferredRead
  preferred_le : b.preferredRead ≤ b.maxRetained
  bounded : b.len ≤ b.maxRetained
  leased : ∀ buffer start stop, b.storage = .managed buffer start stop →
    start ≤ stop ∧ stop ≤ buffer.length ∧ ∃ p, b.managedPermit = some p ∧ p.held = false

/-- What holds between operations: managed storage is not empty. -/
structure Sound (b : RecvBuffer) : Prop extends Fits b where
  nonempty : ∀ buffer start stop, b.storage = .managed buffer start stop → start ≠ stop

def SameFrame (b b' : RecvBuffer) : Prop :=
  b'.preferredRead = b.preferredRead ∧ b'.maxRetained = b.maxRetained ∧
    b'.managedPermit = b.managedPermit

variable {b b' : RecvBuffer}

theorem sound_of_portable (h : b.Fits) {m : BytesMut} (hs : b.storage = .portable m) : b.Sound :=
  { h with nonempty := by simp [hs] }

theorem Fits.portable (h : b.Fits) {m : BytesMut} {permit : Option ManagedLeasePermit}
    (hm : m.bytes.length ≤ b.maxRetained) :
    Sound { b with storage := .portable m, managedPermit := permit } where
  preferred_pos := h.preferred_pos
  preferred_le := h.preferred_le
  bounded := hm
  leased := by simp
  nonempty := by simp

theorem compactIfEmpty_spec (h : b.Fits) :
    b.compactIfEmpty.Sound ∧ b.compactIfEmpty.bytes = b.bytes ∧ SameFrame b b.compactIfEmpty := by
  obtain ⟨storage, permit, preferred, maxr⟩ := b
  cases storage with
  | portable m =>
    unfold compactIfEmpty
    simp only
    split_ifs with hc
    · exact ⟨h.portable (by simp [BytesMut.withCapacity]), by simp [bytes, ReceiveStorage.bytes, hc.1,
        BytesMut.withCapacity], rfl, rfl, rfl⟩
    · exact ⟨sound_of_portable h rfl, rfl, rfl, rfl, rfl⟩
  | managed buffer start stop =>
    unfold compactIfEmpty
    simp only
    split_ifs with hc
    · refine ⟨h.portable (by simp [BytesMut.new, BytesMut.withCapacity]), ?_, rfl, rfl, rfl⟩
      simp [bytes, ReceiveStorage.bytes, BytesMut.new, BytesMut.withCapacity, hc]
    · refine ⟨{ h with nonempty := ?_ }, rfl, rfl, rfl, rfl⟩
      intro buffer' start' stop' heq
      cases heq
      exact hc

def advance (b : RecvBuffer) (count : ℕ) : RecvBuffer :=
  match b.storage with
  | .portable m => { b with storage := .portable (m.advance count) }
  | .managed buffer start stop => { b with storage := .managed buffer (start + count) stop }

theorem Fits.advance (h : b.Fits) {count : ℕ} (hc : count ≤ b.len) :
    (b.advance count).Fits ∧ (b.advance count).bytes = b.bytes.drop count ∧
      SameFrame b (b.advance count) := by
  obtain ⟨storage, permit, preferred, maxr⟩ := b
  obtain ⟨h1, h2, h3, h4⟩ := h
  cases storage with
  | portable m =>
    refine ⟨⟨h1, h2, ?_, by simp [RecvBuffer.advance]⟩, rfl, rfl, rfl, rfl⟩
    simp only [len, ReceiveStorage.len, ReceiveStorage.bytes, RecvBuffer.advance, BytesMut.advance,
      List.length_drop] at h3 ⊢
    omega
  | managed buffer start stop =>
    obtain ⟨hle, hstop, hpermit⟩ := h4 buffer start stop rfl
    simp only [len, ReceiveStorage.len, ReceiveStorage.bytes, List.length_drop, List.length_take] at h3 hc
    refine ⟨⟨h1, h2, ?_, ?_⟩, ?_, rfl, rfl, rfl⟩
    · simp only [len, ReceiveStorage.len, ReceiveStorage.bytes, RecvBuffer.advance, List.length_drop,
        List.length_take]
      omega
    · intro buffer' start' stop' heq
      cases heq
      exact ⟨by omega, hstop, hpermit⟩
    · simp [RecvBuffer.advance, bytes, ReceiveStorage.bytes, List.drop_drop]

theorem SameFrame.trans {b₁ b₂ b₃ : RecvBuffer} (h : SameFrame b₁ b₂) (h' : SameFrame b₂ b₃) :
    SameFrame b₁ b₃ :=
  ⟨h'.1.trans h.1, h'.2.1.trans h.2.1, h'.2.2.trans h.2.2⟩

theorem compact_advance_spec (h : b.Fits) {count : ℕ} (hc : count ≤ b.len) :
    (b.advance count).compactIfEmpty.bytes = b.bytes.drop count ∧
      (b.advance count).compactIfEmpty.Sound ∧ SameFrame b (b.advance count).compactIfEmpty := by
  obtain ⟨hfits, hbytes, hframe⟩ := h.advance hc
  obtain ⟨hsound, hsame, hframe'⟩ := compactIfEmpty_spec hfits
  exact ⟨hsame.trans hbytes, hsound, hframe.trans hframe'⟩

theorem consume_eq {count : ℕ} (hc : count ≤ b.len) :
    b.consume count = ((b.advance count).compactIfEmpty, .ok ()) := by
  unfold consume
  exact if_neg (not_lt.mpr hc)

theorem takeSharedPrefix_eq (h : b.Fits) {count : ℕ} (hc : count ≤ b.len) :
    b.takeSharedPrefix count = ((b.advance count).compactIfEmpty, .ok (b.bytes.take count)) := by
  obtain ⟨storage, permit, preferred, maxr⟩ := b
  unfold takeSharedPrefix
  rw [if_neg (not_lt.mpr hc)]
  cases storage with
  | portable m => rfl
  | managed buffer start stop =>
    obtain ⟨hle, hstop, -⟩ := h.leased buffer start stop rfl
    simp only [len, ReceiveStorage.len, ReceiveStorage.bytes, List.length_drop, List.length_take] at hc
    have hrange : (buffer.take (start + count)).drop start = ((buffer.take stop).drop start).take count := by
      rw [List.take_drop, List.take_take, Nat.min_eq_left (by omega)]
    simp only [RecvBuffer.advance, bytes, ReceiveStorage.bytes, hrange]

def LeasedFrame (b b' : RecvBuffer) (data : IncomingData) : Prop :=
  b'.preferredRead = b.preferredRead ∧ b'.maxRetained = b.maxRetained ∧
    (b'.managedPermit = b.managedPermit ∧ (∃ bs, data = .bytes bs) ∨
      ∃ p buffer start stop, b.managedPermit = some p ∧ p.held = false ∧
        b'.managedPermit = some ⟨true, p.granted + 1⟩ ∧ data = .managed p.granted buffer start stop)

theorem takePayload_spec (h : b.Fits) {start stop consumed : ℕ} (h1 : start ≤ stop)
    (h2 : stop ≤ consumed) (h3 : consumed ≤ b.len) :
    ∃ b' data, b.takePayload start stop consumed = some (b', .ok data) ∧
      data.content = (b.bytes.take stop).drop start ∧ data.len = stop - start ∧
      b'.bytes = b.bytes.drop consumed ∧ b'.Sound ∧ LeasedFrame b b' data := by
  have hcheck : ¬(start > stop ∨ stop > consumed ∨ consumed > b.len) := by omega
  obtain ⟨storage, permit, preferred, maxr⟩ := b
  cases storage with
  | portable m =>
    obtain ⟨hbytes, hsound, hframe⟩ := compact_advance_spec h h3
    refine ⟨_, .bytes ((m.bytes.take stop).drop start), ?_, rfl, ?_, hbytes, hsound, hframe.1, hframe.2.1,
      .inl ⟨hframe.2.2, _, rfl⟩⟩
    · unfold takePayload
      rw [if_neg hcheck]
      simp only [BytesMut.splitTo, List.take_take, Nat.min_eq_left h2]
      rfl
    · simp only [len, ReceiveStorage.len, ReceiveStorage.bytes] at h3
      simp only [IncomingData.len, List.length_drop, List.length_take]
      omega
  | managed buffer first last =>
    obtain ⟨hle, hlast, p, hp, hheld⟩ := h.leased buffer first last rfl
    obtain rfl : permit = some p := hp
    have hbound := h.bounded
    simp only [len, ReceiveStorage.len, ReceiveStorage.bytes, List.length_drop, List.length_take] at h3 hbound
    let suffix := (buffer.take last).drop (first + consumed)
    let rest : BytesMut := if first + consumed < last then .fromSlice suffix else .new
    have hrest : rest.bytes = suffix := by
      by_cases hc : first + consumed < last
      · simp [rest, hc, BytesMut.fromSlice]
      · have hnil : suffix = [] := List.drop_eq_nil_of_le (by simp only [List.length_take]; omega)
        simp [rest, hc, hnil, BytesMut.new, BytesMut.withCapacity]
    have hlen : suffix.length ≤ maxr := by
      simp only [suffix, List.length_drop, List.length_take]
      omega
    have hlease : IncomingData.fromManaged buffer (first + start) (first + stop) p =
        (⟨true, p.granted + 1⟩, .ok (.managed p.granted buffer (first + start) (first + stop))) := by
      unfold IncomingData.fromManaged
      rw [if_neg (by omega), if_neg (by simp [hheld])]
    refine ⟨⟨.portable rest, some ⟨true, p.granted + 1⟩, preferred, maxr⟩,
      .managed p.granted buffer (first + start) (first + stop), ?_, ?_, ?_, ?_,
      h.portable (by rw [hrest]; exact hlen), rfl, rfl, .inr ⟨p, _, _, _, rfl, hheld, rfl, rfl⟩⟩
    · unfold takePayload
      rw [if_neg hcheck]
      simp only [hlease]
      rfl
    · simp only [IncomingData.content, bytes, ReceiveStorage.bytes]
      rw [List.take_drop, List.take_take, List.drop_drop, Nat.min_eq_left (by omega)]
    · simp only [IncomingData.len]
      omega
    · simp only [bytes, ReceiveStorage.bytes, hrest, suffix, List.drop_drop]

theorem makePortable_spec (b : RecvBuffer) :
    ∃ m permit, b.makePortable = ⟨.portable m, permit, b.preferredRead, b.maxRetained⟩ ∧
      m.bytes = b.bytes ∧ permit = b.managedPermit := by
  obtain ⟨storage, permit, preferred, maxr⟩ := b
  cases storage with
  | portable m => exact ⟨m, permit, rfl, rfl, rfl⟩
  | managed buffer start stop => exact ⟨_, permit, rfl, rfl, rfl⟩

/-- A call of a read that returned at once has an error and kept the bytes; one that suspended
handed all of them to the reader, and its target fits behind them. -/
def Began (b b' : RecvBuffer) : ReadStart → Prop
  | .done r => (∃ e, r = .error e) ∧ b'.bytes = b.bytes
  | .portable slice target => slice.bytes = b.bytes ∧ 0 < target ∧
      slice.bytes.length + target ≤ b.maxRetained
  | .managed target => b' = b ∧ b.bytes = [] ∧ 0 < target ∧ target ≤ b.maxRetained ∧
      ∀ p, b.managedPermit = some p → p.held = false
  | .panicked => False

theorem beginRead_spec (h : b.Sound) {canceled : Bool} {start : ReadStart}
    (heq : b.beginRead canceled = (b', start)) : b'.Sound ∧ SameFrame b b' ∧ Began b b' start := by
  unfold beginRead at heq
  split_ifs at heq with hc
  · cases heq
    exact ⟨h, ⟨rfl, rfl, rfl⟩, ⟨_, rfl⟩, rfl⟩
  · obtain ⟨m, permit, hmade, hm, rfl⟩ := makePortable_spec b
    have hbound : m.bytes.length ≤ b.maxRetained := by rw [hm]; exact h.bounded
    simp only [hmade, len, ReceiveStorage.len, ReceiveStorage.bytes] at heq
    split_ifs at heq with ha
    · cases heq
      exact ⟨h.toFits.portable hbound, ⟨rfl, rfl, rfl⟩, ⟨_, rfl⟩, hm⟩
    · cases heq
      have hpos := h.preferred_pos
      refine ⟨h.toFits.portable (by simp [BytesMut.new, BytesMut.withCapacity]), ⟨rfl, rfl, rfl⟩, hm, ?_, ?_⟩
      · omega
      · simp only [BytesMut.reserve]
        omega

theorem beginReadManaged_spec (h : b.Sound) {canceled : Bool} {start : ReadStart}
    (heq : b.beginReadManaged canceled = (b', start)) :
    b'.Sound ∧ SameFrame b b' ∧ Began b b' start := by
  unfold beginReadManaged at heq
  split_ifs at heq with hc hheld hbytes
  · cases heq
    exact ⟨h, ⟨rfl, rfl, rfl⟩, ⟨_, rfl⟩, rfl⟩
  · exact beginRead_spec h heq
  · exact beginRead_spec h heq
  · cases heq
    have hpos := h.preferred_pos
    have hle := h.preferred_le
    refine ⟨h, ⟨rfl, rfl, rfl⟩, rfl, not_not.mp hbytes, by omega, by omega, ?_⟩
    intro p hp
    simpa [hp] using hheld

theorem finishRead_spec (h : b.Fits) {slice : BytesMut} {target : ℕ} {appended : Bytes}
    {result : Except Error ℕ} {status : Except Error ReadStatus}
    (hfits : slice.bytes.length + appended.length ≤ b.maxRetained)
    (heq : b.finishRead slice target appended result = (b', status)) :
    b'.Sound ∧ SameFrame b b' ∧ b'.bytes = slice.bytes ++ appended ∧
      (∀ count, status = .ok (.data count) → count = appended.length ∧ 0 < count) ∧
      (status = .ok .eof → appended = []) := by
  have hkept : Sound { b with storage := .portable { slice with bytes := slice.bytes ++ appended } } :=
    h.portable (by simpa using hfits)
  unfold finishRead at heq
  simp only [len, ReceiveStorage.len, ReceiveStorage.bytes, List.length_append] at heq
  cases result with
  | error e =>
    cases heq
    exact ⟨hkept, ⟨rfl, rfl, rfl⟩, rfl, by simp, by simp⟩
  | ok count =>
    simp only at heq
    split_ifs at heq with hbad hzero
    · cases heq
      exact ⟨hkept, ⟨rfl, rfl, rfl⟩, rfl, by simp, by simp⟩
    · cases heq
      have hnil : appended.length = 0 := by omega
      exact ⟨hkept, ⟨rfl, rfl, rfl⟩, rfl, by simp, fun _ => List.eq_nil_of_length_eq_zero hnil⟩
    · cases heq
      refine ⟨hkept, ⟨rfl, rfl, rfl⟩, rfl, fun count' hcount => ?_, by simp⟩
      cases hcount
      omega

def managedBytes : Except Error (Option Bytes) → Bytes
  | .ok (some buffer) => buffer
  | _ => []

theorem finishReadManaged_spec (h : b.Sound) (hempty : b.bytes = [])
    (hheld : ∀ p, b.managedPermit = some p → p.held = false) {target : ℕ}
    (htarget : target ≤ b.maxRetained) {result : Except Error (Option Bytes)}
    {status : Except Error ReadStatus} (hwithin : (managedBytes result).length ≤ target)
    (heq : b.finishReadManaged target result = (b', status)) :
    b'.Sound ∧ b'.preferredRead = b.preferredRead ∧ b'.maxRetained = b.maxRetained ∧
      b'.bytes = managedBytes result ∧
      (b'.managedPermit = b.managedPermit ∨ b.managedPermit = none ∧ b'.managedPermit = some ⟨false, 0⟩) ∧
      (∀ count, status = .ok (.data count) → count = (managedBytes result).length ∧ 0 < count) ∧
      (status = .ok .eof → managedBytes result = []) := by
  unfold finishReadManaged at heq
  cases result with
  | error e =>
    cases heq
    exact ⟨h, rfl, rfl, hempty, .inl rfl, by simp, by simp⟩
  | ok lease =>
    cases lease with
    | none =>
      cases heq
      exact ⟨h, rfl, rfl, hempty, .inl rfl, by simp, by simp [managedBytes]⟩
    | some buffer =>
      simp only [managedBytes] at hwithin ⊢
      by_cases hnil : buffer = []
      · -- An empty lease is an error, and nothing arrived.
        simp only [managedRead, if_pos hnil] at heq
        cases heq
        exact ⟨h, rfl, rfl, hempty.trans hnil.symm, .inl rfl, by simp, by simp⟩
      · simp only [managedRead, if_neg hnil, if_neg (show ¬(target ≠ 0 ∧ buffer.length > target) by omega)]
          at heq
        cases heq
        have hpos : 0 < buffer.length := List.length_pos_iff.mpr hnil
        refine ⟨⟨⟨h.preferred_pos, h.preferred_le, ?_, ?_⟩, ?_⟩, rfl, rfl, ?_, ?_, ?_, by simp⟩
        · simp [len, ReceiveStorage.len, ReceiveStorage.bytes]
          omega
        · intro buffer' start stop heq
          cases heq
          refine ⟨by omega, le_refl _, _, rfl, ?_⟩
          cases hp : b.managedPermit with
          | none => rfl
          | some p => exact hheld p hp
        · intro buffer' start stop heq
          cases heq
          omega
        · simp [bytes, ReceiveStorage.bytes]
        · cases hp : b.managedPermit with
          | none => exact .inr ⟨rfl, rfl⟩
          | some p => exact .inl rfl
        · intro count hcount
          cases hcount
          exact ⟨rfl, hpos⟩

end RecvBuffer

/-- Who has the buffer. A read that is dropped while the reader runs loses it; the permit
lives on in the payload that holds it. -/
inductive BufferOwner
  | idle (buffer : RecvBuffer)
  | reading (buffer : RecvBuffer) (slice : BytesMut) (target : ℕ)
  | readingManaged (buffer : RecvBuffer) (target : ℕ)
  | lost (permit : Option ManagedLeasePermit)

namespace BufferOwner

def permit : BufferOwner → Option ManagedLeasePermit
  | .idle b | .reading b _ _ | .readingManaged b _ => b.managedPermit
  | .lost p => p

def setPermit (p : ManagedLeasePermit) : BufferOwner → BufferOwner
  | .idle b => .idle { b with managedPermit := some p }
  | .reading b slice target => .reading { b with managedPermit := some p } slice target
  | .readingManaged b target => .readingManaged { b with managedPermit := some p } target
  | .lost _ => .lost (some p)

def bytes : BufferOwner → Option Bytes
  | .idle b | .readingManaged b _ => some b.bytes
  | .reading _ slice _ => some slice.bytes
  | .lost _ => none

end BufferOwner

/-- A receive buffer and the views of its payload that were not dropped yet. -/
structure Receiving where
  owner : BufferOwner
  views : List IncomingData

inductive RecvCall
  | read (canceled : Bool)
  | readManaged (canceled : Bool)
  /-- The reader completes a read with bytes in its slice and a report. -/
  | complete (appended : Bytes) (result : Except Error ℕ)
  | completeManaged (result : Except Error (Option Bytes))
  | dropRead
  | consume (count : ℕ)
  | takeSharedPrefix (count : ℕ)
  | takePayload (start stop consumed : ℕ)
  | takeAll
  | cloneView (index : ℕ)
  | dropView (index : ℕ)

inductive RecvOutput
  | quiet
  | status (result : Except Error ReadStatus)
  | consumed (result : Except Error Unit)
  | shared (result : Except Error Bytes)
  | payload (result : Except Error IncomingData)
  | all (bytes : Bytes)
  | panicked

def IncomingData.sharesLease (lease : ℕ) : IncomingData → Bool
  | .managed k _ _ _ => k == lease
  | .bytes _ => false

namespace Receiving

def new (b : RecvBuffer) : Receiving := ⟨.idle b, []⟩

def begun (r : Receiving) : RecvBuffer × RecvBuffer.ReadStart → Receiving × RecvOutput
  | (b, .done result) => ({ r with owner := .idle b }, .status result)
  | (b, .portable slice target) => ({ r with owner := .reading b slice target }, .quiet)
  | (b, .managed target) => ({ r with owner := .readingManaged b target }, .quiet)
  | (b, .panicked) => ({ r with owner := .idle b }, .panicked)

/-- The destructor of a view. The last view of a lease returns the permit, and the source
asserts that it was held. -/
def dropView (r : Receiving) (view : IncomingData) (rest : List IncomingData) :
    Receiving × RecvOutput :=
  match view with
  | .bytes _ => ({ r with views := rest }, .quiet)
  | .managed lease _ _ _ =>
    if rest.any (·.sharesLease lease) then ({ r with views := rest }, .quiet)
    else
      match r.owner.permit with
      | none => ({ r with views := rest }, .panicked)
      | some p =>
        (⟨r.owner.setPermit { p with held := false }, rest⟩, if p.held then .quiet else .panicked)

def step (r : Receiving) : RecvCall → Option (Receiving × RecvOutput)
  | .read canceled =>
    match r.owner with
    | .idle b => some (r.begun (b.beginRead canceled))
    | _ => none
  | .readManaged canceled =>
    match r.owner with
    | .idle b => some (r.begun (b.beginReadManaged canceled))
    | _ => none
  | .complete appended result =>
    match r.owner with
    | .reading b slice target =>
      if appended.length ≤ target ∧ result.toOption.all (· ≤ target) then
        let (b, status) := b.finishRead slice target appended result
        some ({ r with owner := .idle b }, .status status)
      else none
    | _ => none
  | .completeManaged result =>
    match r.owner with
    | .readingManaged b target =>
      if (RecvBuffer.managedBytes result).length ≤ target then
        let (b, status) := b.finishReadManaged target result
        some ({ r with owner := .idle b }, .status status)
      else none
    | _ => none
  | .dropRead =>
    match r.owner with
    | .reading b _ _ | .readingManaged b _ => some ({ r with owner := .lost b.managedPermit }, .quiet)
    | _ => none
  | .consume count =>
    match r.owner with
    | .idle b =>
      let (b, result) := b.consume count
      some ({ r with owner := .idle b }, .consumed result)
    | _ => none
  | .takeSharedPrefix count =>
    match r.owner with
    | .idle b =>
      let (b, result) := b.takeSharedPrefix count
      some ({ r with owner := .idle b }, .shared result)
    | _ => none
  | .takePayload start stop consumed =>
    match r.owner with
    | .idle b =>
      match b.takePayload start stop consumed with
      | none => some (r, .panicked)
      | some (b, .ok data) => some (⟨.idle b, r.views ++ [data]⟩, .payload (.ok data))
      | some (b, .error e) => some ({ r with owner := .idle b }, .payload (.error e))
    | _ => none
  | .takeAll =>
    match r.owner with
    | .idle b =>
      let (b, bytes) := b.takeAll
      some ({ r with owner := .idle b }, .all bytes)
    | _ => none
  | .cloneView index =>
    match r.views[index]? with
    | some view => some ({ r with views := r.views ++ [view] }, .quiet)
    | none => none
  | .dropView index =>
    match r.views[index]? with
    | some view => some (r.dropView view (r.views.eraseIdx index))
    | none => none

end Receiving

def receiving : Machine Receiving RecvCall RecvOutput where
  step := Receiving.step

inductive QueueOutput
  | quiet
  | refused
  | taken (bytes : Bytes)
  | panicked
deriving DecidableEq

/-- What a byte queue makes of the same operations, without storage kinds, permits or
views. There is no queue once the buffer is lost. -/
def byteQueue : Machine (Option Bytes) RecvCall QueueOutput where
  step
    | none, .cloneView _ => some (none, .quiet)
    | none, .dropView _ => some (none, .quiet)
    | none, _ => none
    | some q, .complete appended _ => some (some (q ++ appended), .quiet)
    | some q, .completeManaged result => some (some (q ++ RecvBuffer.managedBytes result), .quiet)
    | some _, .dropRead => some (none, .quiet)
    | some q, .consume count =>
      some (if count ≤ q.length then (some (q.drop count), .quiet) else (some q, .refused))
    | some q, .takeSharedPrefix count =>
      some (if count ≤ q.length then (some (q.drop count), .taken (q.take count)) else (some q, .refused))
    | some q, .takePayload start stop consumed =>
      some (if start ≤ stop ∧ stop ≤ consumed ∧ consumed ≤ q.length then
        (some (q.drop consumed), .taken ((q.take stop).drop start)) else (some q, .refused))
    | some q, .takeAll => some (some [], .taken q)
    | some q, .read _ => some (some q, .quiet)
    | some q, .readManaged _ => some (some q, .quiet)
    | some q, .cloneView _ => some (some q, .quiet)
    | some q, .dropView _ => some (some q, .quiet)

def RecvOutput.queued : RecvOutput → QueueOutput
  | .quiet | .status _ | .consumed (.ok _) => .quiet
  | .consumed (.error _) | .shared (.error _) | .payload (.error _) => .refused
  | .shared (.ok bytes) => .taken bytes
  | .payload (.ok data) => .taken data.content
  | .all bytes => .taken bytes
  | .panicked => .panicked

namespace BufferOwner

def Sound (limit : ℕ) : BufferOwner → Prop
  | .idle b => b.Sound ∧ b.maxRetained = limit
  | .reading b slice target => (b.Sound ∧ b.maxRetained = limit) ∧
      slice.bytes.length + target ≤ b.maxRetained
  | .readingManaged b target => (b.Sound ∧ b.maxRetained = limit) ∧ b.bytes = [] ∧
      (0 < target ∧ target ≤ b.maxRetained) ∧ ∀ p, b.managedPermit = some p → p.held = false
  | .lost _ => True

end BufferOwner

def Leases (permit : Option ManagedLeasePermit) (views : List IncomingData) : Prop :=
  ∀ lease buffer start stop, .managed lease buffer start stop ∈ views →
    ∃ p, permit = some p ∧ p.held = true ∧ lease + 1 = p.granted

theorem Leases.mono {permit : Option ManagedLeasePermit} {views views' : List IncomingData}
    (h : Leases permit views) (hsub : ∀ v ∈ views', v ∈ views) : Leases permit views' :=
  fun lease buffer start stop hmem => h lease buffer start stop (hsub _ hmem)

/-- While the permit is free no view holds a lease. -/
theorem Leases.free {permit permit' : Option ManagedLeasePermit} {views : List IncomingData}
    (h : Leases permit views) (hfree : ∀ p, permit = some p → p.held = false) : Leases permit' views := by
  intro lease buffer start stop hmem
  obtain ⟨p, hp, hheld, -⟩ := h lease buffer start stop hmem
  simp [hfree p hp] at hheld

namespace Receiving

structure Inv (limit : ℕ) (r : Receiving) : Prop where
  owner : r.owner.Sound limit
  leases : Leases r.owner.permit r.views

def Follows (limit : ℕ) (r r' : Receiving) (i : RecvCall) (o : RecvOutput) : Prop :=
  r'.Inv limit ∧ byteQueue.step r.owner.bytes i = some (r'.owner.bytes, o.queued) ∧ o ≠ .panicked

variable {limit : ℕ} {r r' : Receiving} {b b' : RecvBuffer}

theorem Inv.idle (h : r.Inv limit) (ho : r.owner = .idle b) :
    b.Sound ∧ b.maxRetained = limit ∧ Leases b.managedPermit r.views := by
  obtain ⟨howner, hleases⟩ := h
  rw [ho] at howner hleases
  exact ⟨howner.1, howner.2, hleases⟩

theorem begun_follows (h : r.Inv limit) (ho : r.owner = .idle b) {start : RecvBuffer.ReadStart}
    (hsound : b'.Sound) (hframe : b.SameFrame b') (hbegan : b.Began b' start) {i : RecvCall}
    (hi : ∀ q, byteQueue.step (some q) i = some (some q, .quiet)) :
    Follows limit r (r.begun (b', start)).1 i (r.begun (b', start)).2 := by
  have hq : byteQueue.step r.owner.bytes i = some (some b.bytes, .quiet) := by rw [ho]; exact hi _
  obtain ⟨-, hlimit, hleases⟩ := h.idle ho
  rw [← hframe.2.2] at hleases
  rw [← hframe.2.1] at hlimit
  cases start with
  | done result =>
    obtain ⟨-, hbytes⟩ := hbegan
    exact ⟨⟨⟨hsound, hlimit⟩, hleases⟩, by rw [hq, ← hbytes]; rfl, by simp [begun]⟩
  | portable slice target =>
    obtain ⟨hbytes, -, hfit⟩ := hbegan
    refine ⟨⟨⟨⟨hsound, hlimit⟩, ?_⟩, hleases⟩, by rw [hq, ← hbytes]; rfl, by simp [begun]⟩
    rw [hframe.2.1]
    exact hfit
  | managed target =>
    obtain ⟨rfl, hempty, hpos, hle, hfree⟩ := hbegan
    exact ⟨⟨⟨⟨hsound, hlimit⟩, hempty, ⟨hpos, hle⟩, hfree⟩, hleases⟩, hq, by simp [begun]⟩
  | panicked => exact hbegan.elim

theorem complete_follows (h : r.Inv limit) {slice : BytesMut} {target : ℕ}
    (ho : r.owner = .reading b slice target) {appended : Bytes} {result : Except Error ℕ}
    {status : Except Error ReadStatus} (hle : appended.length ≤ target)
    (heq : b.finishRead slice target appended result = (b', status)) :
    Follows limit r ⟨.idle b', r.views⟩ (.complete appended result) (.status status) := by
  obtain ⟨howner, hleases⟩ := h
  rw [ho] at howner hleases
  obtain ⟨⟨hsound, hlimit⟩, hfit⟩ := howner
  have hroom : slice.bytes.length + appended.length ≤ b.maxRetained := by omega
  obtain ⟨hsound', hframe, hbytes, -, -⟩ := RecvBuffer.finishRead_spec hsound.toFits hroom heq
  simp only [BufferOwner.permit, ← hframe.2.2] at hleases
  refine ⟨⟨⟨hsound', hframe.2.1.trans hlimit⟩, hleases⟩, ?_, by simp⟩
  simp only [ho, BufferOwner.bytes, hbytes]
  rfl

theorem completeManaged_follows (h : r.Inv limit) {target : ℕ} (ho : r.owner = .readingManaged b target)
    {result : Except Error (Option Bytes)} {status : Except Error ReadStatus}
    (hle : (RecvBuffer.managedBytes result).length ≤ target)
    (heq : b.finishReadManaged target result = (b', status)) :
    Follows limit r ⟨.idle b', r.views⟩ (.completeManaged result) (.status status) := by
  obtain ⟨howner, hleases⟩ := h
  rw [ho] at howner hleases
  obtain ⟨⟨hsound, hlimit⟩, hempty, htarget, hfree⟩ := howner
  obtain ⟨hsound', -, hmax, hbytes, -⟩ :=
    RecvBuffer.finishReadManaged_spec hsound hempty hfree htarget.2 hle heq
  refine ⟨⟨⟨hsound', hmax.trans hlimit⟩, hleases.free hfree⟩, ?_, by simp⟩
  simp only [ho, BufferOwner.bytes, hbytes, hempty]
  rfl

theorem removed_follows (h : r.Inv limit) (ho : r.owner = .idle b) {count : ℕ} (hc : count ≤ b.len)
    {i : RecvCall} {o : RecvOutput} (hi : byteQueue.step (some b.bytes) i =
      some (some (b.bytes.drop count), o.queued)) (hpanic : o ≠ .panicked) :
    Follows limit r ⟨.idle (b.advance count).compactIfEmpty, r.views⟩ i o := by
  obtain ⟨hsound, hlimit, hleases⟩ := h.idle ho
  obtain ⟨hbytes, hsound', hframe⟩ := RecvBuffer.compact_advance_spec hsound.toFits hc
  rw [← hframe.2.2] at hleases
  refine ⟨⟨⟨hsound', hframe.2.1.trans hlimit⟩, hleases⟩, ?_, hpanic⟩
  simp only [ho, BufferOwner.bytes, hbytes]
  exact hi

theorem refused_follows (h : r.Inv limit) (ho : r.owner = .idle b) {i : RecvCall} {o : RecvOutput}
    (hi : byteQueue.step (some b.bytes) i = some (some b.bytes, o.queued)) (hpanic : o ≠ .panicked) :
    Follows limit r ⟨.idle b, r.views⟩ i o := by
  refine ⟨⟨?_, ?_⟩, ?_, hpanic⟩
  · exact ho ▸ h.owner
  · exact ho ▸ h.leases
  · simp only [ho, BufferOwner.bytes]
    exact hi

theorem consume_follows (h : r.Inv limit) (ho : r.owner = .idle b) (count : ℕ) :
    Follows limit r ⟨.idle (b.consume count).1, r.views⟩ (.consume count) (.consumed (b.consume count).2) := by
  by_cases hc : count ≤ b.len
  · rw [RecvBuffer.consume_eq hc]
    refine removed_follows h ho hc ?_ (by simp)
    simp only [byteQueue, RecvOutput.queued]
    rw [if_pos (by exact hc)]
  · unfold RecvBuffer.consume
    rw [if_pos (not_le.mp hc)]
    refine refused_follows h ho ?_ (by simp)
    simp only [byteQueue, RecvOutput.queued]
    rw [if_neg (by exact hc)]

theorem takeSharedPrefix_follows (h : r.Inv limit) (ho : r.owner = .idle b) (count : ℕ) :
    Follows limit r ⟨.idle (b.takeSharedPrefix count).1, r.views⟩ (.takeSharedPrefix count)
      (.shared (b.takeSharedPrefix count).2) := by
  obtain ⟨hsound, -, -⟩ := h.idle ho
  by_cases hc : count ≤ b.len
  · rw [RecvBuffer.takeSharedPrefix_eq hsound.toFits hc]
    refine removed_follows h ho hc ?_ (by simp)
    simp only [byteQueue, RecvOutput.queued]
    rw [if_pos (by exact hc)]
  · unfold RecvBuffer.takeSharedPrefix
    rw [if_pos (not_le.mp hc)]
    refine refused_follows h ho ?_ (by simp)
    simp only [byteQueue, RecvOutput.queued]
    rw [if_neg (by exact hc)]

theorem takePayload_refused (h : r.Inv limit) (ho : r.owner = .idle b) {start stop consumed : ℕ}
    (hc : ¬(start ≤ stop ∧ stop ≤ consumed ∧ consumed ≤ b.len)) :
    ∃ e, b.takePayload start stop consumed = some (b, .error e) ∧
      Follows limit r ⟨.idle b, r.views⟩ (.takePayload start stop consumed) (.payload (.error e)) := by
  refine ⟨.new .internal "decoder returned an invalid receive-buffer range", ?_, ?_⟩
  · unfold RecvBuffer.takePayload
    rw [if_pos (by omega)]
  · refine refused_follows h ho ?_ (by simp)
    simp only [byteQueue, RecvOutput.queued]
    rw [if_neg (by exact hc)]

theorem takeAll_follows (h : r.Inv limit) (ho : r.owner = .idle b) :
    Follows limit r ⟨.idle b.takeAll.1, r.views⟩ .takeAll (.all b.takeAll.2) := by
  obtain ⟨hsound, hlimit, hleases⟩ := h.idle ho
  refine ⟨⟨⟨hsound.toFits.portable (by simp [BytesMut.new, BytesMut.withCapacity]), hlimit⟩, hleases⟩, ?_, by simp⟩
  rw [ho]
  rfl

theorem takePayload_follows (h : r.Inv limit) (ho : r.owner = .idle b) {start stop consumed : ℕ}
    (h1 : start ≤ stop) (h2 : stop ≤ consumed) (h3 : consumed ≤ b.len) :
    ∃ b' data, b.takePayload start stop consumed = some (b', .ok data) ∧
      Follows limit r ⟨.idle b', r.views ++ [data]⟩ (.takePayload start stop consumed) (.payload (.ok data)) := by
  obtain ⟨hsound, hlimit, hleases⟩ := h.idle ho
  obtain ⟨b', data, heq, hcontent, -, hbytes, hsound', -, hmax, hpermit⟩ :=
    RecvBuffer.takePayload_spec hsound.toFits h1 h2 h3
  refine ⟨b', data, heq, ⟨⟨hsound', hmax.trans hlimit⟩, ?_⟩, ?_, by simp⟩
  · intro lease buffer first last hmem
    rcases List.mem_append.mp hmem with hmem | hmem
    · rcases hpermit with ⟨hsame, -⟩ | ⟨p, _, _, _, hp, hfree, -, -⟩
      · simp only [BufferOwner.permit, hsame]
        exact hleases lease buffer first last hmem
      · obtain ⟨p', hp', hheld, -⟩ := hleases lease buffer first last hmem
        rw [hp, Option.some.injEq] at hp'
        simp [← hp', hfree] at hheld
    · rw [List.mem_singleton] at hmem
      subst hmem
      rcases hpermit with ⟨-, bs, hdata⟩ | ⟨p, _, _, _, -, -, hnew, hdata⟩
      · cases hdata
      · cases hdata
        exact ⟨_, hnew, rfl, rfl⟩
  · have hlen : consumed ≤ b.bytes.length := h3
    simp only [ho, BufferOwner.bytes, hbytes, byteQueue, RecvOutput.queued, hcontent]
    rw [if_pos ⟨h1, h2, hlen⟩]

theorem setPermit_spec {owner : BufferOwner} (h : owner.Sound limit) (granted : ℕ) :
    (owner.setPermit ⟨false, granted⟩).Sound limit ∧ (owner.setPermit ⟨false, granted⟩).bytes = owner.bytes ∧
      (owner.setPermit ⟨false, granted⟩).permit = some ⟨false, granted⟩ := by
  have release {b : RecvBuffer} (hb : b.Sound) :
      RecvBuffer.Sound { b with managedPermit := some ⟨false, granted⟩ } := by
    refine ⟨⟨hb.preferred_pos, hb.preferred_le, hb.bounded, ?_⟩, hb.nonempty⟩
    intro buffer start stop hs
    obtain ⟨hle, hstop, -⟩ := hb.leased buffer start stop hs
    exact ⟨hle, hstop, _, rfl, rfl⟩
  cases owner with
  | idle b => exact ⟨⟨release h.1, h.2⟩, rfl, rfl⟩
  | reading b slice target => exact ⟨⟨⟨release h.1.1, h.1.2⟩, h.2⟩, rfl, rfl⟩
  | readingManaged b target =>
    refine ⟨⟨⟨release h.1.1, h.1.2⟩, h.2.1, h.2.2.1, ?_⟩, rfl, rfl⟩
    intro p hp
    cases hp
    rfl
  | lost p => exact ⟨trivial, rfl, rfl⟩

theorem view_call {i : RecvCall} (hi : (∃ n, i = .cloneView n) ∨ ∃ n, i = .dropView n)
    (q : Option Bytes) : byteQueue.step q i = some (q, .quiet) := by
  rcases hi with ⟨n, rfl⟩ | ⟨n, rfl⟩ <;> cases q <;> rfl

theorem cloneView_follows (h : r.Inv limit) {index : ℕ} {view : IncomingData}
    (hview : r.views[index]? = some view) :
    Follows limit r { r with views := r.views ++ [view] } (.cloneView index) .quiet := by
  refine ⟨⟨h.owner, h.leases.mono ?_⟩, view_call (.inl ⟨index, rfl⟩) _, by simp⟩
  intro v hv
  rcases List.mem_append.mp hv with hv | hv
  · exact hv
  · rw [List.mem_singleton] at hv
    exact hv ▸ List.mem_of_getElem? hview

theorem dropView_follows (h : r.Inv limit) {index : ℕ} {view : IncomingData}
    (hview : r.views[index]? = some view) :
    Follows limit r (r.dropView view (r.views.eraseIdx index)).1 (.dropView index)
      (r.dropView view (r.views.eraseIdx index)).2 := by
  have hsub : ∀ v ∈ r.views.eraseIdx index, v ∈ r.views := fun v hv => List.mem_of_mem_eraseIdx hv
  have hrest := h.leases.mono hsub
  have hq := view_call (.inr ⟨index, rfl⟩) r.owner.bytes
  cases view with
  | bytes bs => exact ⟨⟨h.owner, hrest⟩, hq, by simp [Receiving.dropView]⟩
  | managed lease buffer start stop =>
    obtain ⟨p, hp, hheld, hlease⟩ := h.leases lease buffer start stop (List.mem_of_getElem? hview)
    unfold Receiving.dropView
    simp only
    split_ifs with hshared
    · exact ⟨⟨h.owner, hrest⟩, hq, by simp⟩
    · -- The last view of the only lease: nothing else can hold the permit.
      obtain ⟨hsound, hbytes, hpermit⟩ := setPermit_spec h.owner p.granted
      simp only [hp, hheld, if_true]
      refine ⟨⟨hsound, ?_⟩, by rw [hbytes]; exact hq, by simp⟩
      intro lease' buffer' start' stop' hmem
      obtain ⟨p', hp', -, hlease'⟩ := hrest lease' buffer' start' stop' hmem
      rw [hp, Option.some.injEq] at hp'
      subst hp'
      refine absurd (List.any_eq_true.mpr ⟨_, hmem, ?_⟩) hshared
      simp only [IncomingData.sharesLease, beq_iff_eq]
      omega

theorem Inv.step (h : r.Inv limit) {i : RecvCall} {o : RecvOutput} (hs : r.step i = some (r', o)) :
    Follows limit r r' i o := by
  have of_eq {x : Receiving × RecvOutput} (hx : some x = some (r', o)) (hf : Follows limit r x.1 i x.2) :
      Follows limit r r' i o := by
    rw [Option.some.inj hx] at hf
    exact hf
  cases i with
  | read canceled =>
    simp only [Receiving.step] at hs
    split at hs
    · rename_i b ho
      obtain ⟨hsound, hlimit, hleases⟩ := h.idle ho
      rcases heq : b.beginRead canceled with ⟨b', start⟩
      obtain ⟨hsound', hframe, hbegan⟩ := RecvBuffer.beginRead_spec hsound heq
      rw [heq] at hs
      exact of_eq hs (begun_follows h ho hsound' hframe hbegan fun q => rfl)
    · cases hs
  | readManaged canceled =>
    simp only [Receiving.step] at hs
    split at hs
    · rename_i b ho
      obtain ⟨hsound, hlimit, hleases⟩ := h.idle ho
      rcases heq : b.beginReadManaged canceled with ⟨b', start⟩
      obtain ⟨hsound', hframe, hbegan⟩ := RecvBuffer.beginReadManaged_spec hsound heq
      rw [heq] at hs
      exact of_eq hs (begun_follows h ho hsound' hframe hbegan fun q => rfl)
    · cases hs
  | complete appended result =>
    simp only [Receiving.step] at hs
    split at hs
    · split_ifs at hs with hc
      cases hs
      exact complete_follows h ‹_› hc.1 rfl
    · cases hs
  | completeManaged result =>
    simp only [Receiving.step] at hs
    split at hs
    · split_ifs at hs with hc
      cases hs
      exact completeManaged_follows h ‹_› hc rfl
    · cases hs
  | dropRead =>
    simp only [Receiving.step] at hs
    split at hs
    · rename_i b slice target ho
      cases hs
      exact ⟨⟨trivial, by simpa [ho, BufferOwner.permit] using h.leases⟩, by rw [ho]; rfl, by simp⟩
    · rename_i b target ho
      cases hs
      exact ⟨⟨trivial, by simpa [ho, BufferOwner.permit] using h.leases⟩, by rw [ho]; rfl, by simp⟩
    · cases hs
  | consume count =>
    simp only [Receiving.step] at hs
    split at hs <;> cases hs
    exact consume_follows h ‹_› count
  | takeSharedPrefix count =>
    simp only [Receiving.step] at hs
    split at hs <;> cases hs
    exact takeSharedPrefix_follows h ‹_› count
  | takePayload start stop consumed =>
    simp only [Receiving.step] at hs
    split at hs
    · rename_i b ho
      by_cases hc : start ≤ stop ∧ stop ≤ consumed ∧ consumed ≤ b.len
      · obtain ⟨b', data, heq, hfollows⟩ := takePayload_follows h ho hc.1 hc.2.1 hc.2.2
        rw [heq] at hs
        cases hs
        exact hfollows
      · obtain ⟨e, heq, hfollows⟩ := takePayload_refused h ho hc
        rw [heq] at hs
        cases hs
        exact hfollows
    · cases hs
  | takeAll =>
    simp only [Receiving.step] at hs
    split at hs <;> cases hs
    exact takeAll_follows h ‹_›
  | cloneView index =>
    simp only [Receiving.step] at hs
    split at hs <;> cases hs
    exact cloneView_follows h ‹_›
  | dropView index =>
    simp only [Receiving.step] at hs
    split at hs
    · exact of_eq hs (dropView_follows h ‹_›)
    · cases hs

theorem inv_new {preferredRead maxRetained : ℕ} {b : RecvBuffer}
    (hnew : RecvBuffer.new preferredRead maxRetained = .ok b) : (new b).Inv maxRetained := by
  unfold RecvBuffer.new at hnew
  split_ifs at hnew with hlimits
  cases hnew
  refine ⟨⟨⟨⟨by simp only; omega, by simp only; omega, ?_, by simp⟩, by simp⟩, rfl⟩, ?_⟩
  · simp [RecvBuffer.len, ReceiveStorage.len, ReceiveStorage.bytes, BytesMut.withCapacity]
  · intro lease buffer start stop hmem
    cases hmem

end Receiving

def RecvBuffer.Reachable (b : RecvBuffer) : Prop :=
  ∃ preferredRead maxRetained b₀ tr views, RecvBuffer.new preferredRead maxRetained = .ok b₀ ∧
    receiving.Reaches (.new b₀) tr ⟨.idle b, views⟩

theorem RecvBuffer.Reachable.sound {b : RecvBuffer} (h : b.Reachable) : b.Sound := by
  obtain ⟨preferredRead, maxRetained, b₀, tr, views, hnew, hreach⟩ := h
  have hinv : Receiving.Inv maxRetained ⟨.idle b, views⟩ :=
    hreach.invariant (P := fun _ r => r.Inv maxRetained) (Receiving.inv_new hnew)
      fun _ _ _ _ _ hr hs => (hr.step hs).1
  exact hinv.owner.1

/-- A receive buffer of any storage kind is one byte queue: every run of its operations, its
reads and the destructors of the payload is a run of the queue on the same operations. It
never retains more than it may, a read never has a target that does not fit, and managed
storage always has a lease permit that nobody holds. -/
theorem recvBuffer_refines {preferredRead maxRetained : ℕ} {b : RecvBuffer}
    (hnew : RecvBuffer.new preferredRead maxRetained = .ok b) {tr : List (RecvCall × RecvOutput)}
    {r : Receiving} (h : receiving.Reaches (.new b) tr r) :
    byteQueue.Reaches (some []) (tr.map (Prod.map id RecvOutput.queued)) r.owner.bytes ∧
      (∀ q, r.owner.bytes = some q → q.length ≤ maxRetained) ∧
      (∀ c slice target, r.owner = .reading c slice target → slice.bytes.length + target ≤ maxRetained) ∧
      (∀ c buffer start stop, r.owner = .idle c → c.storage = .managed buffer start stop →
        ∃ p, c.managedPermit = some p ∧ p.held = false) ∧
      .panicked ∉ tr.map Prod.snd := by
  have hfirst := Receiving.inv_new hnew
  have hempty : (Receiving.new b).owner.bytes = some [] := by
    unfold RecvBuffer.new at hnew
    split_ifs at hnew
    cases hnew
    rfl
  obtain ⟨hinv, hqueue⟩ := h.simulates (N := byteQueue) (fun r => r.owner.bytes) RecvOutput.queued
    hfirst fun r i r' o hr hs => ⟨(hr.step hs).1, (hr.step hs).2.1⟩
  have hpanic : .panicked ∉ tr.map Prod.snd := by
    refine (h.invariant (P := fun tr r => r.Inv maxRetained ∧ .panicked ∉ tr.map Prod.snd)
      ⟨hfirst, by simp⟩ ?_).2
    rintro tr r i r' o ⟨hr, htr⟩ hs
    obtain ⟨hr', -, ho⟩ := hr.step hs
    exact ⟨hr', by simpa [ho.symm] using htr⟩
  obtain ⟨owner, views⟩ := r
  refine ⟨hempty ▸ hqueue, fun q hq => ?_, fun c slice target ho => ?_, fun c buffer start stop ho hs => ?_, hpanic⟩
  · cases owner with
    | idle c =>
      cases hq
      exact hinv.owner.2 ▸ hinv.owner.1.bounded
    | reading c slice target =>
      cases hq
      have := hinv.owner.1.2 ▸ hinv.owner.2
      omega
    | readingManaged c target =>
      cases hq
      exact hinv.owner.1.2 ▸ hinv.owner.1.1.bounded
    | lost p => cases hq
  · obtain rfl : owner = _ := ho
    exact hinv.owner.1.2 ▸ hinv.owner.2
  · obtain rfl : owner = _ := ho
    exact (hinv.owner.1.leased buffer start stop hs).2.2

/-- A leased buffer: its payload is handed out, the next read is portable, and the permit
returns with the last view. -/
theorem recvBuffer_refines_sample :
    ∃ b tr r, RecvBuffer.new 8 16 = .ok b ∧ receiving.Reaches (.new b) tr r ∧
      r.owner.bytes = some [6, 7] ∧ r.owner.permit.map (·.held) = some false ∧
      byteQueue.Reaches (some []) (tr.map (Prod.map id RecvOutput.queued)) r.owner.bytes ∧
      .panicked ∉ tr.map Prod.snd := by
  have hnew : RecvBuffer.new 8 16 = .ok _ := rfl
  have hrun : receiving.run (.new ⟨.portable (.withCapacity 8), none, 8, 16⟩)
      [.readManaged false, .completeManaged (.ok (some [1, 2, 3, 4, 5])), .takePayload 1 3 4,
        .cloneView 0, .readManaged false, .dropView 0, .complete [6, 7] (.ok 2), .consume 9, .consume 1,
        .dropView 0] = some (_, _) := rfl
  have hreach := Machine.reaches_of_run hrun
  have hrefines := recvBuffer_refines hnew hreach
  exact ⟨_, _, _, hnew, hreach, rfl, rfl, hrefines.1, hrefines.2.2.2.2⟩

end Vakya
