import Vakya.Promise
import Vakya.Server

/-!
# A driver that nothing disturbs

While the transport delivers what was sent, nothing is canceled and no deadline
passes, the driver does not fail: it waits, it goes on, or it ends because the
body is complete or was abandoned.
-/

namespace Vakya

open Library

variable {W : Type}

namespace RecvBuffer

variable {b b' : RecvBuffer}

@[simp] theorem compactIfEmpty_preferredRead (b : RecvBuffer) :
    b.compactIfEmpty.preferredRead = b.preferredRead := by
  unfold compactIfEmpty
  split <;> split_ifs <;> rfl

theorem consume_preferredRead {count : ℕ} (h : b.consume count = (b', .ok ())) :
    b'.preferredRead = b.preferredRead := by
  unfold consume at h
  split_ifs at h
  · cases h
  · cases h
    rw [compactIfEmpty_preferredRead]
    split <;> rfl

theorem takePayload_preferredRead {start stop consumed : ℕ} {data : IncomingData}
    (h : b.takePayload start stop consumed = some (b', .ok data)) : b'.preferredRead = b.preferredRead := by
  unfold takePayload at h
  split_ifs at h
  · cases h
  · split at h
    · cases h
      rw [compactIfEmpty_preferredRead]
    · simp only at h
      split at h
      · cases h
      · rw [← (Prod.mk.inj (Option.some.inj h)).1]

end RecvBuffer

namespace Completion

/-- The transport read what it reports, and no more than `preferred` bytes into a lease. -/
def Faithful (preferred : ℕ) : Completion → Prop
  | .portable appended result => result = .ok appended.length
  | .managed (.ok (some buffer)) => buffer ≠ [] ∧ buffer.length ≤ preferred
  | .managed (.ok none) => True
  | .managed (.error _) => False

def isEof : Completion → Bool
  | .portable appended _ => appended.isEmpty
  | .managed (.ok none) => true
  | .managed _ => false

end Completion

def FaithfulRead (preferred : ℕ) (completion : Option (Completion × Bool)) : Prop :=
  ∀ c elapsed, completion = some (c, elapsed) → c.Faithful preferred ∧ elapsed = false

def endsTransport (completion : Option (Completion × Bool)) : Bool := completion.any (·.1.isEof)

/-- A poll that finds neither a cancellation nor a deadline. -/
structure DriverPoll.Undisturbed (preferred : ℕ) (p : DriverPoll W) : Prop where
  canceled : p.canceled = false
  overflow : p.overflow = false
  read : FaithfulRead preferred p.completion

namespace BufferOwner

/-- The preferred size of a read, which is also what a lease is asked for. -/
def Prefers (preferred : ℕ) : BufferOwner → Prop
  | .idle b | .reading b _ _ => b.preferredRead = preferred
  | .readingManaged b target => b.preferredRead = preferred ∧ target = preferred
  | .lost _ => True

variable {preferred limit : ℕ} {owner : BufferOwner} {bytes : Bytes} {completion : Option (Completion × Bool)}

theorem Prefers.setPermit (h : owner.Prefers preferred) (p : ManagedLeasePermit) :
    (owner.setPermit p).Prefers preferred := by
  cases owner <;> exact h

def Undisturbed (preferred : ℕ) (completion : Option (Completion × Bool)) : Option ReadPoll → Prop
  | some (.ready b result) => b.preferredRead = preferred ∧
      ((∃ count, result = .ok (.data count)) ∨ result = .ok .eof ∧ endsTransport completion = true)
  | some (.pending owner) => owner.Prefers preferred ∧ ∀ b, owner ≠ .idle b
  | _ => True

theorem settle_undisturbed (hprefers : owner.Prefers preferred) (hbusy : ∀ b, owner ≠ .idle b)
    (hread : FaithfulRead preferred completion) (timed : Bool) :
    Undisturbed preferred completion (owner.settle timed completion) := by
  rcases completion with _ | ⟨completion, elapsed⟩
  · exact ⟨hprefers, hbusy⟩
  obtain ⟨hc, rfl⟩ := hread completion elapsed rfl
  cases owner with
  | idle b => exact absurd rfl (hbusy b)
  | lost permit => cases completion <;> trivial
  | reading b slice target =>
    cases completion with
    | managed result => trivial
    | portable appended result =>
      obtain rfl : result = .ok appended.length := hc
      simp only [BufferOwner.settle]
      split_ifs with hle
      · have hlen : ¬(appended.length > target ∨
            RecvBuffer.len { b with storage := .portable { slice with bytes := slice.bytes ++ appended } } ≠
              slice.bytes.length + appended.length) := by
          simp [RecvBuffer.len, ReceiveStorage.len, ReceiveStorage.bytes, hle]
        simp only [RecvBuffer.finishRead, if_neg hlen]
        split_ifs with hzero
        · refine ⟨hprefers, .inr ⟨by simp [readUntil], ?_⟩⟩
          simpa [endsTransport, Completion.isEof] using hzero
        · exact ⟨hprefers, .inl ⟨appended.length, by simp [readUntil]⟩⟩
      · trivial
  | readingManaged b target =>
    obtain ⟨hb, rfl⟩ := hprefers
    cases completion with
    | portable appended result => trivial
    | managed result =>
      obtain _ | buffer | buffer := result
      · exact hc.elim
      · exact ⟨hb, .inr ⟨by simp [readUntil], rfl⟩⟩
      · obtain ⟨hne, hle⟩ := hc
        have hfits : ¬(target ≠ 0 ∧ buffer.length > target) := by omega
        have hread : RecvBuffer.managedRead target (.ok (some buffer)) = .ok (some buffer) := by
          simp only [RecvBuffer.managedRead, if_neg hne, if_neg hfits]
        simp only [BufferOwner.settle, RecvBuffer.finishReadManaged, hread]
        exact ⟨hb, .inl ⟨buffer.length, by simp [readUntil]⟩⟩

theorem beginRead_submits {b : RecvBuffer} (hroom : b.bytes.length < b.maxRetained) :
    ∃ b' slice target, b.beginRead false = (b', .portable slice target) ∧
      b'.preferredRead = b.preferredRead := by
  obtain ⟨m, permit, hmade, hm, -⟩ := RecvBuffer.makePortable_spec b
  have hspace : ¬(b.maxRetained - m.bytes.length = 0) := by
    rw [hm]
    omega
  let target := min (b.maxRetained - m.bytes.length) b.preferredRead
  refine ⟨⟨.portable .new, permit, b.preferredRead, b.maxRetained⟩, m.reserve target, target, ?_, rfl⟩
  simp only [RecvBuffer.beginRead, hmade, RecvBuffer.len, ReceiveStorage.len, ReceiveStorage.bytes,
    if_neg hspace, Bool.false_eq_true, if_false, target]

theorem pollRead_undisturbed (hsound : owner.Sound limit) (hbytes : owner.bytes = some bytes)
    (hprefers : owner.Prefers preferred) (hroom : bytes.length < limit) (cfg : ReceiveConfig) {canceled : Bool}
    (hcanceled : canceled = true → ∀ b, owner ≠ .idle b) (hread : FaithfulRead preferred completion) :
    Undisturbed preferred completion (owner.pollRead cfg canceled completion) := by
  cases owner with
  | reading b slice target => exact settle_undisturbed hprefers (by simp) hread _
  | readingManaged b target => exact settle_undisturbed hprefers (by simp) hread _
  | lost permit => cases hbytes
  | idle b =>
    obtain ⟨hb, rfl⟩ := hsound
    obtain rfl : b.bytes = bytes := by simpa [BufferOwner.bytes] using hbytes
    obtain rfl : b.preferredRead = preferred := hprefers
    obtain rfl : canceled = false := by
      by_contra hn
      exact hcanceled (by simpa using hn) b rfl
    obtain ⟨b', slice, target, hbegin, hb'⟩ := beginRead_submits hroom
    have hportable : (BufferOwner.reading b' slice target).Prefers b.preferredRead := hb'
    have hmanaged : (BufferOwner.readingManaged b b.preferredRead).Prefers b.preferredRead := ⟨rfl, rfl⟩
    have hle : min b.preferredRead b.maxRetained = b.preferredRead := Nat.min_eq_left hb.preferred_le
    simp only [BufferOwner.pollRead, RecvBuffer.beginReadManaged, hbegin, hle, Bool.false_eq_true, if_false]
    split_ifs
    · exact settle_undisturbed hportable (by simp) hread _
    · exact settle_undisturbed hportable (by simp) hread _
    · exact settle_undisturbed hmanaged (by simp) hread _
    · exact settle_undisturbed hportable (by simp) hread _

end BufferOwner

namespace Channel

variable {c c' : BodyChannel W} {out : BodyPipeOutput W} {w : W}

theorem consumer_gone_of_isAbandoned (h : c.Sound) (hab : c.isAbandoned = true) : c.consumer = none := by
  by_contra hn
  simp [h.consumer_live hn] at hab

def GivesUp (event : PipeEvent (Frame IncomingData) Error) : Prop :=
  (∃ e, event = .demand (some (.error e))) ∨ ∃ sub a, event = .offer sub (some (.error (.abandoned a)))

theorem consumer_gone_of_givesUp (h : c.Sound) (hs : c.step (.pollProducer w) = some (c', out))
    (he : GivesUp out.event) : c'.consumer = none := by
  rw [(h.step_producer rfl hs).1]
  apply consumer_gone_of_isAbandoned h
  have hterm {f : ProducerFuture (Frame IncomingData)} (hf : c.producing = some f) :=
    (h.live_of_producing hf).2
  simp only [Channel.step] at hs
  split at hs
  · rename_i hf
    have hopen := hterm hf
    unfold Channel.pollDemand at hs
    cases hstate : c.state with
    | abandoned item => simp [Channel.isAbandoned, hstate]
    | idle | demanded | offered item =>
      simp only [hstate] at hs
      cases hs
      simp [GivesUp] at he
    | closed | disconnected | failed e => simp [hstate, PipeState.isTerminal] at hopen
  · rename_i item hf
    have hopen := hterm hf
    unfold Channel.submit at hs
    cases hstate : c.state with
    | abandoned item => simp [Channel.isAbandoned, hstate]
    | idle | demanded | offered item =>
      simp only [hstate] at hs
      cases hs
      simp [GivesUp] at he
    | closed | disconnected | failed e => simp [hstate, PipeState.isTerminal] at hopen
  · rename_i hf
    have hopen := hterm hf
    unfold Channel.resume at hs
    cases hstate : c.state with
    | abandoned item => simp [Channel.isAbandoned, hstate]
    | idle | demanded | offered item =>
      simp only [hstate] at hs
      cases hs
      simp [GivesUp] at he
    | closed | disconnected | failed e => simp [hstate, PipeState.isTerminal] at hopen
  · unfold Channel.pollAbandoned at hs
    split_ifs at hs with hab
    · exact hab
    · cases hs
      simp [GivesUp] at he
  · cases hs

theorem consumer_stays_gone (h : c.Sound) (hgone : c.consumer = none) {i : BodyPipeCall W}
    (hs : c.step i = some (c', out)) : c'.consumer = none := by
  have htaking := h.consumer_gone hgone
  cases hi : i.isProducer with
  | true => exact (h.step_producer hi hs).1.trans hgone
  | false =>
    cases i with
    | take | pollTake w | dropTake | dropConsumer =>
      simp [Channel.step, Channel.consumerFree, hgone, htaking] at hs
    | _ => cases hi

end Channel

namespace BodyPipe

variable {s s' : BodyPipe W} {o : BodyOutput W}

theorem perform_remaining {calls : List (BodyPipeCall W)} {out : List (BodyPipeCall W × BodyPipeOutput W)}
    (h : s.perform calls = some (s', out)) : s'.remaining = s.remaining := by
  obtain ⟨⟨tr, c⟩, -, heq⟩ := Option.map_eq_some_iff.mp h
  cases heq
  rfl

theorem consumer_stays_gone {i : BodyCall W} (hsound : s.channel.Sound) (hs : s.step i = some (s', o))
    (hgone : s.channel.consumer = none) : s'.channel.consumer = none := by
  have hall : s'.channel.Sound ∧ s'.channel.consumer = none := by
    refine (step_reaches hs).invariant (P := fun _ c => c.Sound ∧ c.consumer = none) ⟨hsound, hgone⟩ ?_
    rintro calls c i c' out ⟨hsound, hgone⟩ hs
    exact ⟨(hsound.step_spec hs).1, Channel.consumer_stays_gone hsound hgone hs⟩
  exact hall.2

theorem result_of_gone {size : SizeHint} {tr : List (BodyCall W × BodyOutput W)} {i : BodyCall W}
    (hinv : Inv size tr s) (hgone : s.channel.consumer = none) (hframes : ∀ r ∈ results tr, isFrame r = true)
    (hs : s.step i = some (s', o)) : o.result = none := by
  rcases hinv.step_taken hs with ⟨hnone, -⟩ | ⟨-, -, -, b, hb, hc⟩ | ⟨b, r, hb, hc, -⟩
  · exact hnone
  · obtain ⟨r, hr, hnot⟩ := (hinv.finished b hb hc).1.not_frames
    simp [hframes r hr] at hnot
  · have hact := (hinv.reading b hb hc).2.2.1
    simp [hgone] at hact

theorem awaitTake_remaining {b : Incoming} {w : W} (h : s.awaitTake b w = some (s', o)) :
    s'.remaining = s.remaining := by
  unfold awaitTake at h
  split at h
  · cases h
  · split at h
    · obtain ⟨⟨s₁, o₁⟩, hres, heq⟩ := Option.map_eq_some_iff.mp h
      cases heq
      unfold resolve at hres
      obtain ⟨⟨s₂, tr⟩, hperf, heq⟩ := Option.map_eq_some_iff.mp hres
      cases heq
      have hkept := perform_remaining hperf
      exact hkept
    · cases h
      rfl

theorem step_remaining {i : BodyCall W} (h : s.step i = some (s', o)) (hi : i.isBody = true)
    (hdrain : ∀ bytes allowance, i ≠ .drainBudget bytes allowance) : s'.remaining = s.remaining := by
  cases i with
  | producer call => cases hi
  | chargeDrain bytes payload => cases hi
  | drainBudget bytes allowance => exact absurd rfl (hdrain bytes allowance)
  | nextFrame =>
    simp only [step] at h
    split_ifs at h
    cases h
    rfl
  | pollNext w =>
    simp only [step, pollNext] at h
    split at h
    · split_ifs at h
      · split at h
        · cases h
        · obtain ⟨⟨s₁, o₁⟩, hawait, heq⟩ := Option.map_eq_some_iff.mp h
          cases heq
          have hkept := awaitTake_remaining hawait
          exact hkept
      · cases h
        rfl
    · exact awaitTake_remaining h
    · cases h
  | dropNext =>
    simp only [step, dropNext] at h
    split at h
    · cases h
    · obtain ⟨⟨s₁, tr⟩, hperf, heq⟩ := Option.map_eq_some_iff.mp h
      cases heq
      have hkept := perform_remaining hperf
      exact hkept
    · cases h
      rfl
  | dropIncoming =>
    simp only [step, dropIncoming] at h
    split at h
    · obtain ⟨⟨s₁, tr⟩, hperf, heq⟩ := Option.map_eq_some_iff.mp h
      cases heq
      have hkept := perform_remaining hperf
      exact hkept
    · cases h

end BodyPipe

/-- An operation that is no fault of the transport or of whoever cancels, and no drain. -/
def ReceiveInput.Undisturbed (preferred : ℕ) : ReceiveInput W → Prop
  | .poll p => p.Undisturbed preferred
  | .body (.drainBudget _ _) | .dropDriver => False
  | _ => True

/-- A wire that a decoder reads without an error and without filling the retained input. -/
structure Reception.Fits (R : Reception) (wire : Bytes) : Prop where
  not_failed : ((framing R.crates R.limits).run R.mode.start wire).ending ≠ .failed
  room : ∀ p, ((framing R.crates R.limits).run R.mode.start wire).ending = .more p → p.retained < R.maxRetained

namespace Receiver

variable {s : Receiver W} {preferred : ℕ} {Q : Receiver W → Prop}

/-- Nothing that was counted or found so far keeps the driver from its body. -/
structure Calm (preferred : ℕ) (s : Receiver W) : Prop where
  sound : s.pipe.channel.Sound
  not_eof : s.eof = false
  undrained : s.pipe.remaining = none
  prefers : s.owner.Prefers preferred

/-- A calm driver at one of its suspensions. -/
structure Steady (preferred : ℕ) (s : Receiver W) : Prop extends Calm preferred s where
  unbroken : s.point ≠ .dropped ∧ ∀ e, s.point ≠ .ended (.failed e)
  /-- A read that is canceled has been submitted. -/
  submitted : s.point = .reading true → ∀ b, s.owner ≠ .idle b
  /-- Only the body that is gone is abandoned. -/
  gone : s.point = .ended .abandoned → s.pipe.channel.consumer = none

/-- Where a stretch leads, unless the buffer refused it. `next_frame` returns nothing in it. -/
def Leads (Q : Receiver W → Prop) (r : Result W) : Prop :=
  ∀ s out, r = some (s, out) → out.refused = none → Q s ∧ BodyPipe.results out.body = []

theorem Leads.suspend {point : ReceivePoint} (h : Q { s with point }) : Leads Q (s.suspend point) := by
  intro s' out hr _
  cases hr
  exact ⟨h, rfl⟩

theorem Leads.act {call : BodyCall W} (hcall : ∀ w, call ≠ .pollNext w)
    {k : Receiver W → BodyOutput W → Result W}
    (h : ∀ pipe o, s.pipe.step call = some (pipe, o) → Leads Q (k { s with pipe } o)) :
    Leads Q (s.act call k) := by
  intro s' out hr href
  unfold Receiver.act at hr
  split at hr
  · cases hr
  · rename_i pipe o hs
    obtain ⟨⟨s₁, out₁⟩, hk, heq⟩ := Option.map_eq_some_iff.mp hr
    cases heq
    obtain ⟨hQ, hquiet⟩ := h pipe o hs _ out₁ hk href
    have hnone := BodyPipe.result_eq_none hs hcall
    refine ⟨hQ, ?_⟩
    simp only [BodyPipe.results, List.filterMap_cons, hnone]
    exact hquiet

theorem Leads.stuck : Leads Q (none : Result W) := by
  intro s' out hr
  cases hr

theorem Leads.arrived {r : Result W} (h : Leads Q r) (w : Bytes) :
    Leads Q (r.map fun (s, out) => (s, { out with arrived := w })) := by
  intro s' out hr href
  obtain ⟨⟨s₁, out₁⟩, hr₁, heq⟩ := Option.map_eq_some_iff.mp hr
  cases heq
  exact h _ out₁ hr₁ href

theorem Leads.refuse (e : Error) : Leads Q (s.refuse e) := by
  intro s' out hr href
  obtain ⟨⟨s₁, out₁⟩, -, heq⟩ := Option.map_eq_some_iff.mp hr
  cases heq
  cases href

theorem Leads.produce {call : BodyPipeCall W} {k : Receiver W → BodyOutput W → Result W}
    (hcalm : s.Calm preferred)
    (h : ∀ c out, s.pipe.channel.step call = some (c, out) → c.consumer = s.pipe.channel.consumer →
      Calm preferred { s with pipe := { s.pipe with channel := c } } →
      Leads Q (k { s with pipe := { s.pipe with channel := c } } ⟨[(call, out)], none⟩)) :
    Leads Q (s.act (.producer call) k) := by
  refine .act (by simp) fun pipe o hs => ?_
  simp only [BodyPipe.step] at hs
  split_ifs at hs with hcall
  obtain ⟨⟨pipe', calls⟩, hperf, heq⟩ := Option.map_eq_some_iff.mp hs
  cases heq
  simp only [BodyPipe.perform, Machine.run] at hperf
  split at hperf
  · cases hperf
  · rename_i c out hstep
    cases hperf
    exact h c out hstep (hcalm.sound.step_producer hcall hstep).1
      ⟨(hcalm.sound.step_spec hstep).1, hcalm.not_eof, hcalm.undrained, hcalm.prefers⟩

variable (hcalm : s.Calm preferred)

include hcalm

theorem Calm.steady {point : ReceivePoint} (hpoint : point ≠ .dropped ∧ ∀ e, point ≠ .ended (.failed e))
    (hread : point = .reading true → ∀ b, s.owner ≠ .idle b)
    (hgone : point = .ended .abandoned → s.pipe.channel.consumer = none) :
    Steady preferred { s with point } :=
  ⟨⟨hcalm.sound, hcalm.not_eof, hcalm.undrained, hcalm.prefers⟩, hpoint, hread, hgone⟩

theorem Calm.abandon (hgone : s.pipe.channel.consumer = none) : Leads (Steady preferred) s.abandon :=
  .produce hcalm fun _ _ _ hcons hcalm' =>
    .suspend (hcalm'.steady (by simp) (by simp) fun _ => hcons.trans hgone)

theorem Calm.complete : Leads (Steady preferred) s.complete :=
  .produce hcalm fun _ _ _ _ hcalm' => .suspend (hcalm'.steady (by simp) (by simp) (by simp))

theorem Calm.top : Leads (Steady preferred) s.top := by
  unfold Receiver.top
  split_ifs
  · exact hcalm.complete
  · exact .produce hcalm fun _ _ _ _ hcalm' => .suspend (hcalm'.steady (by simp) (by simp) (by simp))

theorem Calm.afterRead (count : ℕ) : Leads (Steady preferred) (s.afterRead (.ok (.data count))) := by
  unfold Receiver.afterRead
  split_ifs with habandoned
  · exact hcalm.abandon (Channel.consumer_gone_of_isAbandoned hcalm.sound habandoned)
  · exact .suspend (hcalm.steady (by simp) (by simp) (by simp))

theorem Calm.readOrAbandoned (cfg : ReceiveConfig) {p : DriverPoll W} (hp : p.overflow = false) :
    Leads (Steady preferred) (s.readOrAbandoned cfg p) := by
  unfold Receiver.readOrAbandoned
  rw [hp, Bool.and_false, if_neg (by simp)]
  exact .produce hcalm fun _ _ _ _ hcalm' => .suspend (hcalm'.steady (by simp) (by simp) (by simp))

theorem Calm.offer (frame : Frame IncomingData) : Leads (Steady preferred) (s.offer frame) :=
  .produce hcalm fun _ _ _ _ hcalm' => .suspend (hcalm'.steady (by simp) (by simp) (by simp))

theorem Calm.withBuffer {b : RecvBuffer} (hb : b.preferredRead = preferred) :
    Calm preferred { s with owner := .idle b } :=
  ⟨hcalm.sound, hcalm.not_eof, hcalm.undrained, hb⟩

theorem Calm.consume {b : RecvBuffer} (hb : b.preferredRead = preferred) (count : ℕ)
    {k : Receiver W → Result W} (hk : ∀ s : Receiver W, s.Calm preferred → Leads Q (k s)) :
    Leads Q (s.consume b count k) := by
  unfold Receiver.consume
  split
  · exact .refuse _
  · rename_i b' heq
    exact hk _ (hcalm.withBuffer ((RecvBuffer.consume_preferredRead heq).trans hb))

theorem Calm.deliver (cfg : ReceiveConfig) {p : DriverPoll W} (hp : p.overflow = false) {b : RecvBuffer}
    (hb : b.preferredRead = preferred) (o : DecodeOutcome) :
    Leads (Steady preferred) (s.deliver cfg p b o) := by
  cases o with
  | needMore c => exact hcalm.consume hb c fun s hs => hs.readOrAbandoned cfg hp
  | trailers headers c => exact hcalm.consume hb c fun s hs => hs.offer _
  | ended c => exact hcalm.consume hb c fun s hs => hs.complete
  | data i j c =>
    simp only [Receiver.deliver]
    split
    · exact .suspend (hcalm.steady (by simp) (by simp) (by simp))
    · exact .refuse _
    · rename_i b' data heq
      exact Calm.offer (hcalm.withBuffer ((RecvBuffer.takePayload_preferredRead heq).trans hb)) _

theorem Calm.decode {x : Crates} (cfg : ReceiveConfig) {p : DriverPoll W} (hp : p.overflow = false)
    {b : RecvBuffer} (hb : b.preferredRead = preferred)
    (hok : ∀ d e, s.decoder.decode x b.bytes s.eof ≠ (d, .error e)) :
    Leads (Steady preferred) (s.decode x cfg p b) := by
  unfold Receiver.decode
  split
  · rename_i d e heq
    exact absurd heq (hok d e)
  · rename_i d o heq
    refine .act (by simp) fun pipe out hs => ?_
    simp only [BodyPipe.step, hcalm.undrained, DrainPolicy.charge] at hs ⊢
    cases hs
    exact Calm.deliver (s := { s with decoder := d, pipe := { s.pipe with remaining := none } })
      ⟨hcalm.sound, hcalm.not_eof, rfl, hcalm.prefers⟩ cfg hp hb o

variable {p : DriverPoll W} (hp : p.Undisturbed preferred)

include hp

theorem Calm.pollDemand {x : Crates} (cfg : ReceiveConfig)
    (hok : ∀ b, s.owner = .idle b → ∀ d e, s.decoder.decode x b.bytes s.eof ≠ (d, .error e)) :
    Leads (Steady preferred) (s.pollDemand x cfg p) := by
  unfold Receiver.pollDemand
  rw [hp.canceled, Bool.and_false, if_neg (by simp)]
  refine .produce hcalm fun c out hs _ hcalm₁ => ?_
  split
  · refine .produce hcalm₁ fun c' out' _ _ hcalm₂ => ?_
    split
    · rename_i b hb
      have hprefers := hcalm.prefers
      rw [show s.owner = .idle b from hb] at hprefers
      exact hcalm₂.decode cfg hp.overflow hprefers (hok b hb)
    · exact .stuck
  · rename_i e he
    have hgone := Channel.consumer_gone_of_givesUp hcalm.sound hs (.inl ⟨e, he⟩)
    exact .produce hcalm₁ fun _ _ _ hcons hcalm₂ => hcalm₂.abandon (hcons.trans hgone)
  · exact .suspend (hcalm₁.steady (by simp) (by simp) (by simp))

theorem Calm.pollReading (cfg : ReceiveConfig) {canceled : Bool} {limit : ℕ} {bytes : Bytes}
    (hsound : s.owner.Sound limit) (hbytes : s.owner.bytes = some bytes) (hroom : bytes.length < limit)
    (hcanceled : canceled = true → ∀ b, s.owner ≠ .idle b) (hopen : endsTransport p.completion = false) :
    Leads (Steady preferred) (s.pollReading cfg p canceled) := by
  have hread := BufferOwner.pollRead_undisturbed hsound hbytes hcalm.prefers hroom cfg hcanceled hp.read
  unfold Receiver.pollReading
  split
  · exact .stuck
  · exact .suspend (hcalm.steady (by simp) (by simp) (by simp))
  · rename_i b result heq
    rw [heq] at hread
    obtain ⟨hb, ⟨count, rfl⟩ | ⟨-, heof⟩⟩ := hread
    · exact .arrived (.produce (hcalm.withBuffer hb) fun _ _ _ _ hcalm' => hcalm'.afterRead count) _
    · simp [hopen] at heof
  · rename_i owner heq
    rw [heq] at hread
    have hcalm' : Calm preferred { s with owner } :=
      ⟨hcalm.sound, hcalm.not_eof, hcalm.undrained, hread.1⟩
    split_ifs
    · exact .suspend (hcalm'.steady (by simp) (fun _ => hread.2) (by simp))
    · refine .produce hcalm' fun _ _ _ _ hcalm'' => ?_
      split
      · exact .suspend (hcalm''.steady (by simp) (fun _ => hread.2) (by simp))
      · exact .suspend (hcalm''.steady (by simp) (by simp) (by simp))

theorem Calm.pollOffer (cfg : ReceiveConfig)
    (hopen : ∀ c out, s.pipe.channel.step (.pollProducer p.waker) = some (c, out) →
      ∀ sub a, out.event ≠ .offer sub (some (.error (.closed a)))) :
    Leads (Steady preferred) (s.pollOffer cfg p) := by
  unfold Receiver.pollOffer
  rw [hp.canceled, Bool.and_false, if_neg (by simp)]
  refine .produce hcalm fun c out hs _ hcalm₁ => ?_
  split
  · exact .produce hcalm₁ fun _ _ _ _ hcalm₂ => .suspend (hcalm₂.steady (by simp) (by simp) (by simp))
  · rename_i sub a he
    have hgone := Channel.consumer_gone_of_givesUp hcalm.sound hs (.inr ⟨sub, a, he⟩)
    exact .produce hcalm₁ fun _ _ _ hcons hcalm₂ => hcalm₂.abandon (hcons.trans hgone)
  · rename_i sub a he
    exact absurd he (hopen c out hs sub a)
  · exact .suspend (hcalm₁.steady (by simp) (by simp) (by simp))

omit hcalm hp

variable {R : Reception} {wire : Bytes} {btr : List (BodyCall W × BodyOutput W)} {s' : Receiver W}
  {out : ReceiveOutput W} {cfg : ReceiveConfig}

theorem Core.decode_ok (hx : R.crates.HeadersWithin) (h : Core R (R.Tracks wire) btr s)
    (hok : ((framing R.crates R.limits).run R.mode.start wire).ending ≠ .failed) (heof : s.eof = false)
    (hopen : s.decoder.isComplete = false) {b : RecvBuffer} (hb : s.owner = .idle b) (d : BodyDecoder)
    (e : DecodeError) :
    s.decoder.decode R.crates b.bytes s.eof ≠ (d, .error e) := by
  intro hdec
  obtain ⟨ds, t, bytes, -, hbytes, hd⟩ := h.drive
  obtain rfl : b.bytes = bytes := by simpa [hb, BufferOwner.bytes] using hbytes
  let drive : Drive := ⟨s.decoder, b.bytes, [], s.eof, payloadOf ds, t⟩
  have hturn : drive.turn R.crates drive.eof = .inr (drive.finish .failed) := by
    simp only [Drive.turn, drive, hopen, hdec, Bool.false_eq_true, if_false]
  have hverdict := (hd.turn_agrees hx hturn).1
  simp only [drive, heof] at hverdict
  cases hend : ((framing R.crates R.limits).run R.mode.start wire).ending with
  | failed => exact hok hend
  | more p => simp [summary, hend, Drive.finish] at hverdict
  | done r rest => simp [summary, hend, Drive.finish] at hverdict

theorem Steady.poll (hx : R.crates.HeadersWithin) (hinv : Inv R wire btr s) (h : s.Steady preferred)
    (hfits : R.Fits wire) (hp : p.Undisturbed preferred)
    (hopen : ∀ canceled, s.point = .reading canceled → endsTransport p.completion = false) :
    Leads (Steady preferred) (s.poll R.crates cfg p) := by
  unfold Inv at hinv
  unfold Receiver.poll
  cases hpoint : s.point with
  | top => exact h.toCalm.top
  | demanding =>
    simp only [hpoint] at hinv
    obtain ⟨hcore, -, hdec, -⟩ := hinv
    exact h.toCalm.pollDemand hp cfg fun b hb => hcore.decode_ok hx hfits.not_failed h.not_eof hdec hb
  | reading canceled =>
    simp only [hpoint] at hinv
    obtain ⟨hcore, -⟩ := hinv
    obtain ⟨ds, t, bytes, -, hbytes, hfollow, place, hused, hlen⟩ := hcore.drive
    have hroom : bytes.length < R.maxRetained := by
      simp only at hused hlen
      rw [hlen]
      apply hfits.room
      simp [hfollow.run_eq, Drive.left, hused]
    refine h.toCalm.pollReading hp cfg hcore.owner hbytes hroom (fun hc => ?_) (hopen canceled hpoint)
    exact h.submitted (by rw [hpoint, hc])
  | offering =>
    simp only [hpoint] at hinv
    obtain ⟨hcore, ⟨lifecycle, hf⟩, -⟩ := hinv
    refine h.toCalm.pollOffer hp cfg fun c out hs sub a he => ?_
    obtain ⟨c', out', hs', hcases⟩ := pollOffer_cases hcore.sound hf p.waker
    obtain ⟨rfl, rfl⟩ : c' = c ∧ out' = out := by simpa [hs'] using hs
    rcases hcases with ⟨sub', he', -⟩ | ⟨-, he' | ⟨sub', a', he'⟩⟩ <;> simp [he'] at he
  | ended how | dropped | panicked => exact .stuck

/-- Every undisturbed operation of the driver and around it. -/
theorem Steady.step (hx : R.crates.HeadersWithin) (hinv : Inv R wire btr s) (h : s.Steady preferred)
    (hfits : R.Fits wire) {i : ReceiveInput W} (hi : i.Undisturbed preferred)
    (hopen : ∀ p, i = .poll p → ∀ canceled, s.point = .reading canceled → endsTransport p.completion = false)
    (hs : s.step R.crates cfg i = some (s', out)) : s'.Steady preferred := by
  obtain ⟨hnext, href⟩ := hinv.step hx hs
  have hsound := (BodyPipe.inv_of_reaches hnext.orderly.reach).sound
  cases i with
  | poll p => exact (h.poll hx hinv hfits hi (hopen p rfl) s' out hs href).1
  | dropDriver => exact hi.elim
  | body call =>
    simp only [Receiver.step] at hs
    split_ifs at hs with hc
    unfold Receiver.act at hs
    split at hs
    · cases hs
    · rename_i pipe o hpipe
      cases hs
      refine ⟨⟨hsound, h.not_eof, ?_, h.prefers⟩, h.unbroken, h.submitted, fun hpoint => ?_⟩
      · rw [← h.undrained]
        exact BodyPipe.step_remaining hpipe hc (by rintro bytes allowance rfl; exact hi)
      · exact BodyPipe.consumer_stays_gone h.sound hpipe (h.gone hpoint)
  | releaseLease =>
    simp only [Receiver.step] at hs
    split at hs
    · cases hs
      refine ⟨⟨h.sound, h.not_eof, h.undrained, h.prefers.setPermit _⟩, h.unbroken, fun hpoint b hb => ?_, h.gone⟩
      have hbusy := h.submitted hpoint
      cases howner : s.owner with
      | idle b' => exact hbusy b' howner
      | reading b' slice target | readingManaged b' target | lost permit => simp [howner, BufferOwner.setPermit] at hb
    · cases hs

def GivenUp (btr : List (BodyCall W × BodyOutput W)) (s : Receiver W) : Prop :=
  s.point = .ended .abandoned → ∀ r ∈ BodyPipe.results btr, isFrame r = true

theorem Inv.core (h : Inv R wire btr s) (hgoing : ∀ how, s.point ≠ .ended how) (hdropped : s.point ≠ .dropped) :
    Core R (R.Tracks wire) btr s ∧ s.pipe.channel.producer ≠ none := by
  have hlive {T : Drive → Prop} {f : ProducerFuture (Frame IncomingData)} (hcore : Core R T btr s)
      (hf : s.pipe.channel.producing = some f) : s.pipe.channel.producer ≠ none := by
    simp [(hcore.sound.live_of_producing hf).1]
  unfold Inv at h
  cases hpoint : s.point with
  | top =>
    simp only [hpoint] at h
    obtain ⟨hcore, hfree, -⟩ := h
    refine ⟨hcore, fun hn => ?_⟩
    simp [Channel.producerFree, hn] at hfree
  | demanding =>
    simp only [hpoint] at h
    exact ⟨h.1, hlive h.1 h.2.1⟩
  | reading canceled =>
    simp only [hpoint] at h
    exact ⟨h.1.mono fun d hd => .inl hd.1, hlive h.1 h.2⟩
  | offering =>
    simp only [hpoint] at h
    obtain ⟨hcore, ⟨lifecycle, hf⟩, -⟩ := h
    exact ⟨hcore, hlive hcore hf⟩
  | ended how => exact absurd hpoint (hgoing how)
  | dropped => exact absurd hpoint hdropped
  | panicked => simp only [hpoint] at h

/-- Only a body that is dropped before its end makes an undisturbed driver give up. -/
theorem Steady.givenUp (hx : R.crates.HeadersWithin) (hinv : Inv R wire btr s) (h : s.Steady preferred)
    (hfits : R.Fits wire) {hmode : ∀ n, R.mode = .fixed n → n < wordSize}
    (hin : incoming R.mode hmode = some (R.size, R.trailers)) (heof : R.mode ≠ .untilEof)
    {i : ReceiveInput W} (hi : i.Undisturbed preferred)
    (hopen : ∀ p, i = .poll p → ∀ canceled, s.point = .reading canceled → endsTransport p.completion = false)
    (hgiven : s.GivenUp btr) (hs : s.step R.crates cfg i = some (s', out)) : s'.GivenUp (btr ++ out.body) := by
  intro hpoint
  have href := (hinv.step hx hs).2
  suffices hquiet : BodyPipe.results out.body = [] ∧ ∀ r ∈ BodyPipe.results btr, isFrame r = true by
    have happ : BodyPipe.results (btr ++ out.body) = BodyPipe.results btr ++ BodyPipe.results out.body := by
      simp [BodyPipe.results]
    rw [happ, hquiet.1, List.append_nil]
    exact hquiet.2
  cases i with
  | dropDriver => exact hi.elim
  | poll p =>
    have hgoing (how : ReceiveEnd) : s.point ≠ .ended how := by
      intro hended
      simp [Receiver.step, Receiver.poll, hended] at hs
    have hdropped : s.point ≠ .dropped := by
      intro hended
      simp [Receiver.step, Receiver.poll, hended] at hs
    obtain ⟨hcore, hlive⟩ := hinv.core hgoing hdropped
    exact ⟨(h.poll hx hinv hfits hi (hopen p rfl) s' out hs href).2, hcore.frames hlive hin heof⟩
  | body call =>
    simp only [Receiver.step] at hs
    split_ifs at hs
    unfold Receiver.act at hs
    split at hs
    · cases hs
    · rename_i pipe o hpipe
      cases hs
      have hframes := hgiven hpoint
      have hnone := BodyPipe.result_of_gone (BodyPipe.inv_of_reaches hinv.orderly.reach) (h.gone hpoint)
        hframes hpipe
      exact ⟨by simp [BodyPipe.results, ReceiveOutput.quiet, hnone], hframes⟩
  | releaseLease =>
    simp only [Receiver.step] at hs
    split at hs
    · cases hs
      exact ⟨rfl, hgiven hpoint⟩
    · cases hs

end Receiver

namespace RequestBody

open Receiver

variable {R : Reception} {wire : Bytes} {btr : List (BodyCall W × BodyOutput W)} {s : Receiver W}
  {p : DriverPoll W} {preferred : ℕ}

theorem pollExpecting_post (h : Receiver.Inv R wire btr s) (hpoint : s.point = .demanding) :
    Post R wire btr (pollExpecting p s) := by
  simp only [Receiver.Inv, hpoint] at h
  obtain ⟨hcore, hf, hopen, b, hb⟩ := h
  unfold pollExpecting
  split_ifs
  · obtain ⟨c, out, hs, hready⟩ := hcore.orderly.dropFuture hf
    exact .produce rfl hs (Ready.fail hready _)
  · have hs : s.pipe.channel.step (.pollProducer p.waker) = some (s.pipe.channel.pollDemand p.waker) := by
      simp [Channel.step, hf]
    rcases pollDemand_cases hcore.sound hf p.waker with heq | ⟨r, hr, heq⟩
    · rw [heq] at hs
      exact .produce rfl hs (.suspend ⟨(hcore.produce rfl hs rfl rfl rfl).withPoint _, hf, hopen, b, hb⟩)
    · rw [heq] at hs
      have hcore' := hcore.produce rfl hs rfl rfl rfl
      refine .produce rfl hs ?_
      rcases hr with rfl | rfl
      · -- There is demand, and the driver has not begun to decode.
        let c : BodyChannel W := { s.pipe.channel with producing := none, producerWaker := none }
        have hdrop : { s.pipe.channel with producing := some (.demand true) }.step .dropFuture =
            some (c, ⟨.quiet, none⟩) := rfl
        have hact := (hcore.sound.live_of_producing hf).1
        have hfree : c.producerFree = true := by simp [c, Channel.producerFree, hact]
        exact .produce rfl hdrop (.suspend ⟨(hcore'.produce rfl hdrop rfl rfl rfl).withPoint _, hfree, b, hb⟩)
      · exact hcore'.orderly.abandon rfl

theorem pollExpecting_leads (h : s.Calm preferred) (hp : p.Undisturbed preferred) :
    Leads (fun s => s.Steady preferred ∧ (s.point = .demanding ∨ s.point = .top ∨ ∃ how, s.point = .ended how))
      (pollExpecting p s) := by
  unfold pollExpecting
  rw [hp.canceled, if_neg (by simp)]
  refine .produce h fun c out hs _ hcalm => ?_
  split
  · refine .produce hcalm fun _ _ _ _ hcalm' => .suspend ⟨?_, .inr (.inl rfl)⟩
    exact hcalm'.steady (by simp) (by simp) (by simp)
  · rename_i e he
    have hgone := Channel.consumer_gone_of_givesUp h.sound hs (.inl ⟨e, he⟩)
    refine .produce hcalm fun _ _ _ hcons hcalm' => .produce hcalm' fun _ _ _ hcons' hcalm'' => ?_
    refine .suspend ⟨hcalm''.steady (by simp) (by simp) fun _ => ?_, .inr (.inr ⟨_, rfl⟩)⟩
    exact hcons'.trans (hcons.trans hgone)
  · exact .suspend ⟨hcalm.steady (by simp) (by simp) (by simp), .inl rfl⟩

end RequestBody
end Vakya
