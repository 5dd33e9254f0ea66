import Vakya.Accounting
import Vakya.Incoming
import Vakya.Send

/-!
# Sending a body (`send_body`)

The driver asks the producer for a frame, lets the encoder frame it and writes it out, until the
producer ends. While it waits it flushes what is pending. After trailers it keeps asking: the wire is
terminated, but a late failure or another frame must still fail the exchange. The machine takes what
happens around the driver as inputs: a request to cancel, the answer of the producer when it is
polled, the end of a flush, the turns and completions of a write.
-/

namespace Vakya

open Library

/-- What the producer returns from `next_frame`. -/
inductive Produced (D E : Type)
  | frame (frame : Frame D)
  | finished
  | failed (error : E)

inductive SendBodyError (E : Type)
  | body (error : E)
  | encode (error : EncodeError)
  | io (error : IoError)
  | canceled

structure SendStats where
  wireBytes : ℕ
  dataFrames : ℕ
  trailerFrames : ℕ
deriving DecidableEq, Repr

def saturatingAdd (a b : ℕ) : ℕ := min (a + b) (wordSize - 1)

/-- What the driver uses of `karmaio` and of the payload type: `as_init`, and the buffers of the two
kinds of write. -/
structure SendBuffers (D V W : Type) where
  asInit : D → Bytes
  framed : Buffers (Bytes × D × Bytes) V
  single : Buffers Bytes W

structure SendBuffers.Lawful {D V W : Type} (k : SendBuffers D V W) : Prop where
  framed_lawful : k.framed.Lawful
  framed_parts : ∀ before data after, k.framed.parts (before, data, after) = [before, k.asInit data, after]
  single_lawful : k.single.Lawful
  single_parts : ∀ bytes, k.single.parts bytes = [bytes]

/-- Before the first poll of a new wait for a frame, in a flush, polling on, in one of the three
writes, or back at the caller. After a pending first poll the driver yields once. -/
inductive SendPhase (D V W E : Type)
  | first
  | flushing
  | polling (yielded : Bool)
  | framed (loop : WriteLoop (Bytes × D × Bytes) V)
  | trailers (loop : WriteLoop Bytes W)
  | finishing (loop : WriteLoop Bytes W)
  | returned (result : Except (SendBodyError E) SendStats)

structure Sender (D V W E : Type) where
  encoder : BodyEncoder
  trailersSent : Bool
  stats : SendStats
  pendingOutput : Bool
  token : Option Bool
  phase : SendPhase D V W E

inductive SendEvent (D E : Type)
  | cancel
  | poll (next : Option (Produced D E))
  | flushed (result : Except IoError Unit)
  | resume
  | completed (result : Except IoError ℕ)

/-- What a step got from the producer, asked the encoder, gave back and wrote. -/
structure SendOutput (D E : Type) where
  obtained : List (Produced D E)
  calls : List (EncoderCall × EncoderResult)
  recycled : List D
  write : WriteOutput

def SendOutput.quiet {D E : Type} : SendOutput D E := ⟨[], [], [], .quiet⟩

namespace Sender

variable {D V W E : Type}

def start (encoder : BodyEncoder) (token : Option Bool) : Sender D V W E where
  encoder := encoder
  trailersSent := false
  stats := ⟨0, 0, 0⟩
  -- the caller may have queued a head
  pendingOutput := true
  token := token
  phase := .first

def returns (s : Sender D V W E) (result : Except (SendBodyError E) SendStats) : Sender D V W E :=
  { s with phase := .returned result }

def afterData (s : Sender D V W E) (loop : WriteLoop (Bytes × D × Bytes) V) (o : SendOutput D E) :
    Sender D V W E × SendOutput D E :=
  match loop.phase with
  | .returned result (_, data, _) =>
    let o := { o with recycled := o.recycled ++ [data] }
    match result with
    | .error e => (s.returns (.error (.io e)), o)
    | .ok written =>
      ({ s with
        phase := .first
        pendingOutput := s.pendingOutput || written != 0
        stats := { s.stats with
          wireBytes := saturatingAdd s.stats.wireBytes written
          dataFrames := saturatingAdd s.stats.dataFrames 1 } }, o)
  | _ => ({ s with phase := .framed loop }, o)

def afterTrailers (s : Sender D V W E) (loop : WriteLoop Bytes W) (o : SendOutput D E) :
    Sender D V W E × SendOutput D E :=
  match loop.phase with
  | .returned (.error e) _ => (s.returns (.error (.io e)), o)
  | .returned (.ok written) _ =>
    ({ s with
      phase := .first
      pendingOutput := s.pendingOutput || written != 0
      stats := { s.stats with
        wireBytes := saturatingAdd s.stats.wireBytes written
        trailerFrames := saturatingAdd s.stats.trailerFrames 1 }
      trailersSent := true }, o)
  | _ => ({ s with phase := .trailers loop }, o)

def afterFinish (s : Sender D V W E) (loop : WriteLoop Bytes W) (o : SendOutput D E) :
    Sender D V W E × SendOutput D E :=
  match loop.phase with
  | .returned (.error e) _ => (s.returns (.error (.io e)), o)
  | .returned (.ok written) _ =>
    let stats := { s.stats with wireBytes := saturatingAdd s.stats.wireBytes written }
    ({ s with stats }.returns (.ok stats), o)
  | _ => ({ s with phase := .finishing loop }, o)

/-- The `match` on what the producer returned, up to the write. -/
def take (x : Crates) (k : SendBuffers D V W) (s : Sender D V W E) (next : Produced D E) :
    Sender D V W E × SendOutput D E :=
  match next with
  | .failed error => (s.returns (.error (.body error)), ⟨[next], [], [], .quiet⟩)
  | .frame (.data data) =>
    let length := (k.asInit data).length
    let (encoder, framing) := s.encoder.data length
    let s := { s with encoder }
    let o : SendOutput D E := ⟨[next], [(.data length, framing.map .framing)], [], .quiet⟩
    match framing with
    | .error error => (s.returns (.error (.encode error)), { o with recycled := [data] })
    | .ok framing => s.afterData (writeFramed k.framed framing.before data framing.after s.token) o
  | .frame (.trailers trailers) =>
    let (encoder, bytes) := s.encoder.sendTrailers x trailers
    let s := { s with encoder }
    let o : SendOutput D E := ⟨[next], [(.trailers trailers, bytes.map .last)], [], .quiet⟩
    match bytes with
    | .error error => (s.returns (.error (.encode error)), o)
    | .ok bytes => s.afterTrailers (.start k.single .scalar bytes s.token) o
  | .finished =>
    if s.trailersSent then (s.returns (.ok s.stats), ⟨[next], [], [], .quiet⟩)
    else
      let (encoder, bytes) := s.encoder.finish
      let s := { s with encoder }
      let o : SendOutput D E := ⟨[next], [(.finish, bytes.map .last)], [], .quiet⟩
      match bytes with
      | .error error => (s.returns (.error (.encode error)), o)
      | .ok bytes => s.afterFinish (.start k.single .scalar bytes s.token) o

/-- A poll of the wait for a frame. The request to cancel is looked at first. -/
def poll (x : Crates) (k : SendBuffers D V W) (s : Sender D V W E) (next : Option (Produced D E)) :
    Option (Sender D V W E × SendOutput D E) :=
  match s.phase with
  | .first =>
    if s.token = some true then some (s.returns (.error .canceled), .quiet)
    else
      match next with
      | some next => some (s.take x k next)
      | none => some ({ s with phase := if s.pendingOutput then .flushing else .polling false }, .quiet)
  | .polling false => some ({ s with phase := .polling true }, .quiet)
  | .polling true =>
    if s.token = some true then some (s.returns (.error .canceled), .quiet)
    else
      match next with
      | some next => some (s.take x k next)
      | none => some (s, .quiet)
  | _ => none

def flushed (s : Sender D V W E) (result : Except IoError Unit) : Option (Sender D V W E × SendOutput D E) :=
  match s.phase with
  | .flushing =>
    match result with
    | .error e => some (s.returns (.error (.io e)), .quiet)
    | .ok () => some ({ s with phase := .polling false, pendingOutput := false }, .quiet)
  | _ => none

def advance (k : SendBuffers D V W) (s : Sender D V W E) (i : WriteEvent) :
    Option (Sender D V W E × SendOutput D E) :=
  match s.phase with
  | .framed loop => (loop.step k.framed i).map fun (loop, write) => s.afterData loop { SendOutput.quiet with write }
  | .trailers loop =>
    (loop.step k.single i).map fun (loop, write) => s.afterTrailers loop { SendOutput.quiet with write }
  | .finishing loop => (loop.step k.single i).map fun (loop, write) => s.afterFinish loop { SendOutput.quiet with write }
  | _ => none

def cancel (s : Sender D V W E) : Sender D V W E :=
  let request {B U : Type} (loop : WriteLoop B U) : WriteLoop B U :=
    { loop with token := loop.token.map fun _ => true }
  { s with
    token := s.token.map fun _ => true
    phase := match s.phase with
      | .framed loop => .framed (request loop)
      | .trailers loop => .trailers (request loop)
      | .finishing loop => .finishing (request loop)
      | phase => phase }

def step (x : Crates) (k : SendBuffers D V W) (s : Sender D V W E) :
    SendEvent D E → Option (Sender D V W E × SendOutput D E)
  | .cancel => some (s.cancel, .quiet)
  | .poll next => s.poll x k next
  | .flushed result => s.flushed result
  | .resume => s.advance k .resume
  | .completed result => s.advance k (.completed result)

end Sender

def sendBody {D V W E : Type} (x : Crates) (k : SendBuffers D V W) :
    Machine (Sender D V W E) (SendEvent D E) (SendOutput D E) where
  step := Sender.step x k

/-! ## What the producer's frames come to -/

section Wire

variable {D E : Type}

def Frame.call (asInit : D → Bytes) : Frame D → EncoderCall
  | .data payload => .data (asInit payload).length
  | .trailers fields => .trailers fields

def Frame.wire (asInit : D → Bytes) : Frame D → EncoderOutput → Bytes
  | .data payload, .framing framing => framing.before ++ asInit payload ++ framing.after
  | _, .last bytes => bytes
  | _, _ => []

def Frame.data? : Frame D → Option D
  | .data payload => some payload
  | .trailers _ => none

def Frame.isTrailers : Frame D → Bool
  | .data _ => false
  | .trailers _ => true

def Produced.data? : Produced D E → Option D
  | .frame f => f.data?
  | _ => none

/-- The encoder's framing of what was produced, in order: it stops at the first frame that the
encoder rejects, and at the end or the failure of the producer. -/
def bodyWire (x : Crates) (asInit : D → Bytes) : BodyEncoder → List (Produced D E) → Bytes
  | _, [] => []
  | e, .frame frame :: rest =>
    match e.step x (frame.call asInit) with
    | (e', .ok out) => frame.wire asInit out ++ bodyWire x asInit e' rest
    | (_, .error _) => []
  | e, .finished :: _ =>
    match e.finish with
    | (_, .ok bytes) => bytes
    | (_, .error _) => []
  | _, .failed _ :: _ => []

/-- The frames `fs` all passed the encoder, which is now `e`, and come to `wire`. -/
inductive Sent (x : Crates) (asInit : D → Bytes) (e₀ : BodyEncoder) :
    List (Frame D) → BodyEncoder → Bytes → List (EncoderCall × EncoderResult) → Prop
  | start : Sent x asInit e₀ [] e₀ [] []
  | frame {fs : List (Frame D)} {e e' : BodyEncoder} {wire : Bytes} {calls : List (EncoderCall × EncoderResult)}
      {f : Frame D} {out : EncoderOutput} :
      Sent x asInit e₀ fs e wire calls → e.step x (f.call asInit) = (e', .ok out) →
      Sent x asInit e₀ (fs ++ [f]) e' (wire ++ f.wire asInit out) (calls ++ [(f.call asInit, .ok out)])

variable {x : Crates} {asInit : D → Bytes} {e₀ e e' : BodyEncoder} {fs : List (Frame D)} {wire : Bytes}
  {calls : List (EncoderCall × EncoderResult)}

theorem Sent.bodyWire (h : Sent x asInit e₀ fs e wire calls) (rest : List (Produced D E)) :
    bodyWire x asInit e₀ (fs.map .frame ++ rest) = wire ++ bodyWire x asInit e rest := by
  induction h generalizing rest with
  | start => rfl
  | @frame fs e e' wire calls f out _ hstep ih =>
    rw [List.map_append, List.append_assoc, ih, List.append_assoc]
    congr 1
    show Vakya.bodyWire x asInit e (.frame f :: rest) = _
    rw [Vakya.bodyWire, hstep]

theorem Sent.bodyWire_frames (h : Sent x asInit e₀ fs e wire calls) :
    Vakya.bodyWire x asInit e₀ (fs.map (Produced.frame (E := E))) = wire := by
  have hwire := h.bodyWire ([] : List (Produced D E))
  rwa [List.append_nil, Vakya.bodyWire, List.append_nil] at hwire

theorem frame_step {f : Frame D} {out : EncoderOutput} (h : e.step x (f.call asInit) = (e', .ok out)) :
    (∃ data framing, f = .data data ∧ out = .framing framing ∧ e.state ≠ .done) ∨
      ∃ fields bytes, f = .trailers fields ∧ out = .last bytes ∧ e.state ≠ .done ∧ e'.state = .done := by
  rcases BodyEncoder.step_cases h with ⟨error, hr, -, -⟩ | ⟨n, framing, hcall, hr, hopen, -⟩ |
    ⟨bytes, hr, hend, hlive, hdata, -⟩
  · cases hr
  · left
    cases hr
    cases f with
    | data payload =>
      refine ⟨payload, framing, rfl, rfl, fun hdone => ?_⟩
      rw [hdone] at hopen
      cases hopen
    | trailers fields => cases hcall
  · right
    cases hr
    cases f with
    | data payload => exact absurd rfl (hdata _)
    | trailers fields =>
      refine ⟨fields, bytes, rfl, rfl, fun hdone => ?_, by rw [hend]⟩
      simp [hdone, BodyState.isOpen] at hlive

theorem step_done (hdone : e.state = .done) (f : Frame D) :
    e.step x (f.call asInit) = ({ e with state := .failed .frameAfterEnd }, .error .frameAfterEnd) := by
  cases f with
  | data payload =>
    simp only [Frame.call, BodyEncoder.step, BodyEncoder.data, hdone, BodyEncoder.fail]
    rfl
  | trailers fields =>
    simp only [Frame.call, BodyEncoder.step, BodyEncoder.sendTrailers, hdone, BodyEncoder.fail]
    rfl

/-- Only the last frame can be trailers, and then the body has ended, once. -/
theorem Sent.shape (h : Sent x asInit e₀ fs e wire calls) :
    (fs.any Frame.isTrailers = false ∧ calls.countP BodyEncoder.isEnd = 0) ∨
      ∃ before fields, fs = before ++ [.trailers fields] ∧ before.any Frame.isTrailers = false ∧
        e.state = .done ∧ calls.countP BodyEncoder.isEnd = 1 := by
  induction h with
  | start => exact .inl ⟨rfl, rfl⟩
  | @frame fs e e' wire calls f out _ hstep ih =>
    have hpassed := frame_step hstep
    rcases ih with ⟨hdata, hcalls⟩ | ⟨before, fields, -, -, hdone, -⟩
    · rcases hpassed with ⟨data, framing, rfl, rfl, -⟩ | ⟨fields, bytes, rfl, rfl, -, hdone⟩
      · left
        rw [List.any_append, hdata, List.countP_append, hcalls]
        exact ⟨rfl, rfl⟩
      · right
        refine ⟨fs, fields, rfl, hdata, hdone, ?_⟩
        rw [List.countP_append, hcalls]
        rfl
    · rw [step_done hdone] at hstep
      cases hstep

theorem Sent.noErrors (h : Sent x asInit e₀ fs e wire calls) (call : EncoderCall) (error : EncodeError) :
    (call, .error error) ∉ calls := by
  induction h with
  | start => exact List.not_mem_nil
  | frame _ _ ih =>
    intro hmem
    rcases List.mem_append.mp hmem with hmem | hmem
    · exact ih hmem
    · cases List.mem_singleton.mp hmem

theorem Sent.noErrors_end (h : Sent x asInit e₀ fs e wire calls) (last call : EncoderCall)
    (out : EncoderOutput) (error : EncodeError) : (call, .error error) ∉ calls ++ [(last, .ok out)] := by
  intro hmem
  rcases List.mem_append.mp hmem with hmem | hmem
  · exact h.noErrors call error hmem
  · cases List.mem_singleton.mp hmem

theorem Sent.noEnd (h : Sent x asInit e₀ fs e wire calls) (hdata : fs.any Frame.isTrailers = false) :
    calls.countP BodyEncoder.isEnd = 0 := by
  rcases h.shape with ⟨-, hcalls⟩ | ⟨before, fields, rfl, -⟩
  · exact hcalls
  · simp [Frame.isTrailers] at hdata

theorem Sent.ended (h : Sent x asInit e₀ fs e wire calls) (htrailers : fs.any Frame.isTrailers = true) :
    e.state = .done ∧ calls.countP BodyEncoder.isEnd = 1 := by
  rcases h.shape with ⟨hdata, -⟩ | ⟨before, fields, -, -, hdone, hcalls⟩
  · rw [hdata] at htrailers
    cases htrailers
  · exact ⟨hdone, hcalls⟩

theorem mem_frames {f : Frame D} (hf : Produced.frame (E := E) f ∈ fs.map Produced.frame) : f ∈ fs := by
  obtain ⟨g, hg, heq⟩ := List.mem_map.mp hf
  cases heq
  exact hg

theorem Sent.trailers_last (h : Sent x asInit e₀ fs e wire calls) {a : List (Produced D E)} {last : Produced D E}
    (ha : fs.map .frame = a ++ [last]) (fields : Headers) : .frame (.trailers fields) ∉ a := by
  intro hmem
  have hany (gs : List (Frame D)) (hgs : .frame (.trailers fields) ∈ gs.map (Produced.frame (E := E))) :
      gs.any Frame.isTrailers = true :=
    List.any_eq_true.mpr ⟨_, mem_frames hgs, rfl⟩
  rcases h.shape with ⟨hdata, -⟩ | ⟨before, fields', rfl, hdata, -⟩
  · have hfs := hany fs (by rw [ha]; exact List.mem_append_left _ hmem)
    rw [hdata] at hfs
    cases hfs
  · rw [List.map_append] at ha
    obtain ⟨hbefore, -⟩ := List.append_inj' ha rfl
    have hfs := hany before (by rw [hbefore]; exact hmem)
    rw [hdata] at hfs
    cases hfs

/-- A frame obtained after trailers that passed can only be the next thing the encoder sees. -/
theorem Sent.after_trailers (h : Sent x asInit e₀ fs e wire calls) {tail before rest : List (Produced D E)}
    {fields : Headers} {next : Produced D E} (htail : tail.length ≤ 1)
    (heq : fs.map .frame ++ tail = before ++ .frame (.trailers fields) :: next :: rest) :
    tail = [next] ∧ rest = [] ∧ fs.map .frame = before ++ [.frame (.trailers fields)] := by
  obtain ⟨others, last, hothers⟩ : ∃ others last, next :: rest = others ++ [last] :=
    ⟨_, _, (List.dropLast_append_getLast (List.cons_ne_nil next rest)).symm⟩
  have hmem : ∀ others, Produced.frame (.trailers fields) ∈ before ++ .frame (.trailers fields) :: others := by simp
  rw [hothers, ← List.cons_append, ← List.append_assoc] at heq
  rcases tail with _ | ⟨y, _ | ⟨z, tail⟩⟩
  · rw [List.append_nil] at heq
    exact absurd (hmem others) (h.trailers_last heq fields)
  · obtain ⟨hfs, hy⟩ := List.append_inj' heq rfl
    cases hy
    -- a frame in between would have passed after the trailers
    rcases List.eq_nil_or_concat others with rfl | ⟨others, middle, rfl⟩
    · cases hothers
      exact ⟨rfl, rfl, hfs⟩
    · rw [List.concat_eq_append, ← List.cons_append, ← List.append_assoc] at hfs
      exact absurd (hmem others) (h.trailers_last hfs fields)
  · simp at htail

theorem finish_done {bytes : Bytes} (h : e.step x .finish = (e', .ok (.last bytes))) : e'.state = .done := by
  rcases BodyEncoder.step_cases h with ⟨error, hr, -⟩ | ⟨n, framing, hcall, -⟩ | ⟨bytes, -, hend, -⟩
  · cases hr
  · cases hcall
  · rw [hend]

theorem step_finish {r : Except EncodeError Bytes} (h : e.finish = (e', r)) :
    e.step x .finish = (e', r.map .last) := by
  rw [BodyEncoder.step, h]
  rfl

end Wire

/-! ## The history of a run -/

/-- What a run got from the producer, asked the encoder, recycled and wrote. -/
structure SendHistory (D E : Type) where
  obtained : List (Produced D E)
  calls : List (EncoderCall × EncoderResult)
  recycled : List D
  written : Bytes

def SendHistory.add {D E : Type} (h : SendHistory D E) (o : SendOutput D E) : SendHistory D E where
  obtained := h.obtained ++ o.obtained
  calls := h.calls ++ o.calls
  recycled := h.recycled ++ o.recycled
  written := h.written ++ o.write.accepted

def sendHistory {D E : Type} (tr : List (SendEvent D E × SendOutput D E)) : SendHistory D E :=
  tr.foldl (fun h e => h.add e.2) ⟨[], [], [], []⟩

@[simp] theorem SendHistory.add_quiet {D E : Type} (h : SendHistory D E) : h.add .quiet = h := by
  simp [SendHistory.add, SendOutput.quiet, WriteOutput.accepted]

theorem SendHistory.add_recycled {D E : Type} (h : SendHistory D E) (o : SendOutput D E) (data : D) :
    h.add { o with recycled := o.recycled ++ [data] } =
      { h.add o with recycled := (h.add o).recycled ++ [data] } := by
  simp [SendHistory.add]

theorem sendHistory_concat {D E : Type} (tr : List (SendEvent D E × SendOutput D E)) (i : SendEvent D E)
    (o : SendOutput D E) : sendHistory (tr ++ [(i, o)]) = (sendHistory tr).add o := by
  rw [sendHistory, List.foldl_append]
  rfl

def saturated (n : ℕ) : ℕ := min n (wordSize - 1)

theorem saturatingAdd_saturated (a b : ℕ) : saturatingAdd (saturated a) b = saturated (a + b) := by
  unfold saturatingAdd saturated
  omega

/-- The statistics after the frames `fs`, which came to `wire`. -/
def statsOf {D : Type} (fs : List (Frame D)) (wire : Bytes) : SendStats :=
  ⟨saturated wire.length, saturated (fs.filterMap Frame.data?).length, saturated (fs.countP Frame.isTrailers)⟩

namespace Sender

variable {D V W E : Type}

/-- Between two frames: everything obtained was framed, written and recycled. -/
structure Between (x : Crates) (k : SendBuffers D V W) (e₀ : BodyEncoder) (h : SendHistory D E)
    (s : Sender D V W E) (fs : List (Frame D)) : Prop where
  obtained : h.obtained = fs.map .frame
  sent : Sent x k.asInit e₀ fs s.encoder h.written h.calls
  recycled : h.recycled = fs.filterMap Frame.data?
  trailersSent : s.trailersSent = fs.any Frame.isTrailers
  stats : s.stats = statsOf fs h.written

/-- In the write of `text` for the frame `f`, of which `taken` is through. -/
structure Writing (x : Crates) (k : SendBuffers D V W) (e₀ : BodyEncoder) (h : SendHistory D E)
    (s : Sender D V W E) (fs : List (Frame D)) (f : Frame D) (wire text taken : Bytes) : Prop where
  obtained : h.obtained = (fs ++ [f]).map .frame
  sent : Sent x k.asInit e₀ (fs ++ [f]) s.encoder (wire ++ text) h.calls
  recycled : h.recycled = fs.filterMap Frame.data?
  trailersSent : s.trailersSent = fs.any Frame.isTrailers
  stats : s.stats = statsOf fs wire
  written : h.written = wire ++ taken

/-- In the write of the last bytes after the producer has ended. -/
structure Finishing (x : Crates) (k : SendBuffers D V W) (e₀ : BodyEncoder) (h : SendHistory D E)
    (s : Sender D V W E) (fs : List (Frame D)) (wire bytes taken : Bytes) : Prop where
  obtained : h.obtained = fs.map .frame ++ [.finished]
  sent : ∃ e calls, Sent x k.asInit e₀ fs e wire calls ∧ e.finish = (s.encoder, .ok bytes) ∧
    h.calls = calls ++ [(.finish, .ok (.last bytes))]
  recycled : h.recycled = fs.filterMap Frame.data?
  noTrailers : fs.any Frame.isTrailers = false
  stats : s.stats = statsOf fs wire
  written : h.written = wire ++ taken

structure Succeeded (x : Crates) (k : SendBuffers D V W) (e₀ : BodyEncoder) (h : SendHistory D E)
    (s : Sender D V W E) (stats : SendStats) (fs : List (Frame D)) : Prop where
  obtained : h.obtained = fs.map .frame ++ [.finished]
  sent : ∃ e wire calls, Sent x k.asInit e₀ fs e wire calls
  once : h.calls.countP BodyEncoder.isEnd = 1
  done : s.encoder.state = .done
  recycled : h.recycled = fs.filterMap Frame.data?
  written : h.written = bodyWire x k.asInit e₀ h.obtained
  stats_eq : stats = statsOf fs h.written
  noErrors : ∀ call error, (call, .error error) ∉ h.calls

/-- Back at the caller with an error: after the frames `fs` came `tail`. -/
structure Failed (x : Crates) (k : SendBuffers D V W) (e₀ : BodyEncoder) (h : SendHistory D E)
    (error : SendBodyError E) (fs : List (Frame D)) (tail : List (Produced D E)) : Prop where
  obtained : h.obtained = fs.map .frame ++ tail
  recycled : h.recycled = h.obtained.filterMap Produced.data?
  cause : ∃ e wire calls, Sent x k.asInit e₀ fs e wire calls ∧
    match error with
    | .canceled => tail = [] ∧ h.written = wire ∧ h.calls = calls
    | .io _ => (tail = [] ∧ h.calls = calls ∨
        tail = [.finished] ∧ ∃ bytes, h.calls = calls ++ [(.finish, .ok (.last bytes))]) ∧
        h.written <+: bodyWire x k.asInit e₀ h.obtained
    | .body failure => tail = [.failed failure] ∧ h.written = wire ∧ h.calls = calls
    | .encode rejection => h.written = wire ∧
        ((∃ f, tail = [.frame f] ∧ (e.step x (f.call k.asInit)).2 = .error rejection ∧
            h.calls = calls ++ [(f.call k.asInit, .error rejection)]) ∨
          tail = [.finished] ∧ e.finish.2 = .error rejection ∧ h.calls = calls ++ [(.finish, .error rejection)] ∧
            fs.any Frame.isTrailers = false)

def SendInv (x : Crates) (k : SendBuffers D V W) (e₀ : BodyEncoder) (h : SendHistory D E)
    (s : Sender D V W E) : Prop :=
  match s.phase with
  | .framed loop => ∃ fs before data after wire taken,
      Writing x k e₀ h s fs (.data data) wire (before ++ k.asInit data ++ after) taken ∧
        loop.Progress k.framed (before, data, after) taken
  | .trailers loop => ∃ fs fields bytes wire taken,
      Writing x k e₀ h s fs (.trailers fields) wire bytes taken ∧ loop.Progress k.single bytes taken
  | .finishing loop => ∃ fs bytes wire taken,
      Finishing x k e₀ h s fs wire bytes taken ∧ loop.Progress k.single bytes taken
  | .returned (.ok stats) => ∃ fs, Succeeded x k e₀ h s stats fs
  | .returned (.error error) => ∃ fs tail, Failed x k e₀ h error fs tail
  | _ => ∃ fs, Between x k e₀ h s fs

variable {x : Crates} {k : SendBuffers D V W} {e₀ : BodyEncoder} {h : SendHistory D E} {s s' : Sender D V W E}

/-- The books read the encoder, the statistics and whether trailers went out, and nothing else of
the sender. -/
theorem Between.congr {fs : List (Frame D)} (hb : Between x k e₀ h s fs) (hencoder : s'.encoder = s.encoder)
    (htrailers : s'.trailersSent = s.trailersSent) (hstats : s'.stats = s.stats) : Between x k e₀ h s' fs where
  obtained := hb.obtained
  sent := hencoder ▸ hb.sent
  recycled := hb.recycled
  trailersSent := htrailers.trans hb.trailersSent
  stats := hstats.trans hb.stats

theorem Writing.congr {fs : List (Frame D)} {f : Frame D} {wire text taken : Bytes}
    (hw : Writing x k e₀ h s fs f wire text taken) (hencoder : s'.encoder = s.encoder)
    (htrailers : s'.trailersSent = s.trailersSent) (hstats : s'.stats = s.stats) :
    Writing x k e₀ h s' fs f wire text taken where
  obtained := hw.obtained
  sent := hencoder ▸ hw.sent
  recycled := hw.recycled
  trailersSent := htrailers.trans hw.trailersSent
  stats := hstats.trans hw.stats
  written := hw.written

theorem Finishing.congr {fs : List (Frame D)} {wire bytes taken : Bytes}
    (hf : Finishing x k e₀ h s fs wire bytes taken) (hencoder : s'.encoder = s.encoder) (hstats : s'.stats = s.stats) :
    Finishing x k e₀ h s' fs wire bytes taken where
  obtained := hf.obtained
  sent := hencoder ▸ hf.sent
  recycled := hf.recycled
  noTrailers := hf.noTrailers
  stats := hstats.trans hf.stats
  written := hf.written

theorem filterMap_frames (fs : List (Frame D)) :
    (fs.map (Produced.frame : Frame D → Produced D E)).filterMap Produced.data? = fs.filterMap Frame.data? := by
  rw [List.filterMap_map]
  rfl

theorem statsOf_data (fs : List (Frame D)) (wire text : Bytes) (data : D) :
    statsOf (fs ++ [.data data]) (wire ++ text) = { statsOf fs wire with
      wireBytes := saturatingAdd (statsOf fs wire).wireBytes text.length
      dataFrames := saturatingAdd (statsOf fs wire).dataFrames 1 } := by
  have hdata : [Frame.data data].filterMap Frame.data? = [data] := rfl
  have hcount : [Frame.data data].countP Frame.isTrailers = 0 := rfl
  simp [statsOf, saturatingAdd_saturated, hdata, hcount]

theorem statsOf_trailers (fs : List (Frame D)) (wire text : Bytes) (fields : Headers) :
    statsOf (fs ++ [.trailers fields]) (wire ++ text) = { statsOf fs wire with
      wireBytes := saturatingAdd (statsOf fs wire).wireBytes text.length
      trailerFrames := saturatingAdd (statsOf fs wire).trailerFrames 1 } := by
  have hdata : [(Frame.trailers fields : Frame D)].filterMap Frame.data? = [] := rfl
  have hcount : [(Frame.trailers fields : Frame D)].countP Frame.isTrailers = 1 := rfl
  simp [statsOf, saturatingAdd_saturated, hdata, hcount]

theorem framed_text (hk : k.Lawful) (before : Bytes) (data : D) (after : Bytes) :
    k.framed.text (before, data, after) = before ++ k.asInit data ++ after := by
  simp [Buffers.text, hk.framed_parts]

theorem single_text (hk : k.Lawful) (bytes : Bytes) : k.single.text bytes = bytes := by
  simp [Buffers.text, hk.single_parts]

theorem Writing.failed {fs : List (Frame D)} {f : Frame D} {wire text taken : Bytes} {error : IoError}
    {recycled : List D} (hw : Writing x k e₀ h s fs f wire text taken) (hpre : taken <+: text)
    (hrecycled : recycled = (fs ++ [f]).filterMap Frame.data?) :
    Failed x k e₀ { h with recycled } (.io error) (fs ++ [f]) [] := by
  refine ⟨by simp [hw.obtained], ?_, s.encoder, wire ++ text, h.calls, hw.sent, .inl ⟨rfl, rfl⟩, ?_⟩
  · rw [hrecycled, hw.obtained, filterMap_frames]
  · show h.written <+: bodyWire x k.asInit e₀ h.obtained
    rw [hw.obtained, hw.sent.bodyWire_frames, hw.written]
    exact List.prefix_append_right_inj _ |>.mpr hpre

theorem inv_afterData (hk : k.Lawful) {o : SendOutput D E} {loop : WriteLoop (Bytes × D × Bytes) V}
    {fs : List (Frame D)} {before after wire taken : Bytes} {data : D}
    (hw : Writing x k e₀ (h.add o) s fs (.data data) wire (before ++ k.asInit data ++ after) taken)
    (hp : loop.Progress k.framed (before, data, after) taken) :
    SendInv x k e₀ (h.add (s.afterData loop o).2) (s.afterData loop o).1 := by
  have htext := framed_text hk before data after
  have hdatas : (h.add o).recycled ++ [data] = (fs ++ [Frame.data data]).filterMap Frame.data? := by
    rw [hw.recycled, List.filterMap_append]
    rfl
  obtain ⟨token, phase⟩ := loop
  cases phase with
  | turn | submitted => exact ⟨fs, before, data, after, wire, taken, hw.congr rfl rfl rfl, hp⟩
  | returned result buffer =>
    obtain ⟨before', data', after'⟩ := buffer
    cases result with
    | ok total =>
      obtain ⟨hbuffer, htotal, htaken⟩ := hp
      cases hbuffer
      rw [htext] at htotal htaken
      simp only [afterData, SendHistory.add_recycled]
      refine ⟨fs ++ [.data data], hw.obtained, ?_, hdatas, ?_, ?_⟩
      · show Sent x k.asInit e₀ _ s.encoder (h.add o).written (h.add o).calls
        rw [hw.written, htaken]
        exact hw.sent
      · show s.trailersSent = _
        rw [hw.trailersSent, List.any_append]
        exact (Bool.or_false _).symm
      · show _ = statsOf _ (h.add o).written
        rw [hw.written, htaken, statsOf_data, hw.stats, htotal]
    | error e =>
      obtain ⟨hbuffer, hpre, -⟩ := hp
      cases hbuffer
      rw [htext] at hpre
      simp only [afterData, SendHistory.add_recycled]
      exact ⟨fs ++ [.data data], [], hw.failed hpre hdatas⟩

theorem inv_afterTrailers (hk : k.Lawful) {o : SendOutput D E} {loop : WriteLoop Bytes W} {fs : List (Frame D)}
    {bytes wire taken : Bytes} {fields : Headers}
    (hw : Writing x k e₀ (h.add o) s fs (.trailers fields) wire bytes taken)
    (hp : loop.Progress k.single bytes taken) :
    SendInv x k e₀ (h.add (s.afterTrailers loop o).2) (s.afterTrailers loop o).1 := by
  have htext := single_text hk bytes
  have hdatas : (h.add o).recycled = (fs ++ [Frame.trailers fields]).filterMap Frame.data? := by
    rw [hw.recycled, List.filterMap_append]
    exact (List.append_nil _).symm
  obtain ⟨token, phase⟩ := loop
  cases phase with
  | turn | submitted => exact ⟨fs, fields, bytes, wire, taken, hw.congr rfl rfl rfl, hp⟩
  | returned result buffer =>
    cases result with
    | ok total =>
      obtain ⟨-, htotal, htaken⟩ := hp
      rw [htext] at htotal htaken
      simp only [afterTrailers]
      refine ⟨fs ++ [.trailers fields], hw.obtained, ?_, hdatas, ?_, ?_⟩
      · show Sent x k.asInit e₀ _ s.encoder (h.add o).written (h.add o).calls
        rw [hw.written, htaken]
        exact hw.sent
      · show true = _
        rw [List.any_append]
        exact (Bool.or_true _).symm
      · show _ = statsOf _ (h.add o).written
        rw [hw.written, htaken, statsOf_trailers, hw.stats, htotal]
    | error e =>
      obtain ⟨-, hpre, -⟩ := hp
      rw [htext] at hpre
      simp only [afterTrailers]
      exact ⟨fs ++ [.trailers fields], [], hw.failed hpre hdatas⟩

theorem statsOf_finish (fs : List (Frame D)) (wire bytes : Bytes) :
    statsOf fs (wire ++ bytes) = { statsOf fs wire with
      wireBytes := saturatingAdd (statsOf fs wire).wireBytes bytes.length } := by
  simp [statsOf, saturatingAdd_saturated]

theorem inv_afterFinish (hk : k.Lawful) {o : SendOutput D E} {loop : WriteLoop Bytes W} {fs : List (Frame D)}
    {bytes wire taken : Bytes} (hf : Finishing x k e₀ (h.add o) s fs wire bytes taken)
    (hp : loop.Progress k.single bytes taken) :
    SendInv x k e₀ (h.add (s.afterFinish loop o).2) (s.afterFinish loop o).1 := by
  have htext := single_text hk bytes
  obtain ⟨e, calls, hsent, hfinish, hcalls⟩ := hf.sent
  have hwire : bodyWire x k.asInit e₀ (h.add o).obtained = wire ++ bytes := by
    rw [hf.obtained, hsent.bodyWire, bodyWire, hfinish]
  have hrecycled : (h.add o).recycled = (h.add o).obtained.filterMap Produced.data? := by
    rw [hf.recycled, hf.obtained, List.filterMap_append, filterMap_frames]
    exact (List.append_nil _).symm
  obtain ⟨token, phase⟩ := loop
  cases phase with
  | turn | submitted => exact ⟨fs, bytes, wire, taken, hf.congr rfl rfl, hp⟩
  | returned result buffer =>
    cases result with
    | ok total =>
      obtain ⟨-, htotal, htaken⟩ := hp
      rw [htext] at htotal htaken
      simp only [afterFinish]
      refine ⟨fs, hf.obtained, ⟨e, wire, calls, hsent⟩, ?_, finish_done (step_finish (x := x) hfinish), hf.recycled,
        ?_, ?_, ?_⟩
      · rw [hcalls, List.countP_append, hsent.noEnd hf.noTrailers]
        rfl
      · rw [hwire, hf.written, htaken]
      · rw [hf.written, htaken, statsOf_finish, hf.stats, htotal]
      · rw [hcalls]
        exact fun call error => hsent.noErrors_end .finish call _ error
    | error e' =>
      obtain ⟨-, hpre, -⟩ := hp
      rw [htext] at hpre
      simp only [afterFinish]
      refine ⟨fs, [.finished], hf.obtained, hrecycled, e, wire, calls, hsent, .inr ⟨rfl, bytes, hcalls⟩, ?_⟩
      rw [hwire, hf.written]
      exact (List.prefix_append_right_inj _).mpr hpre

theorem Between.recycled_tail {fs : List (Frame D)} (hb : Between x k e₀ h s fs) (next : Produced D E) :
    h.recycled ++ next.data?.toList = (h.obtained ++ [next]).filterMap Produced.data? := by
  rw [hb.recycled, hb.obtained, List.filterMap_append, filterMap_frames]
  cases hnext : next.data? with
  | none => simp [hnext]
  | some data => simp [hnext]

theorem inv_takeData (hk : k.Lawful) {fs : List (Frame D)} (hb : Between x k e₀ h s fs) (data : D) :
    SendInv x k e₀ (h.add (s.take x k (.frame (.data data))).2) (s.take x k (.frame (.data data))).1 := by
  rcases hcall : s.encoder.data (k.asInit data).length with ⟨e', framing⟩
  have hstep : s.encoder.step x ((Frame.data data).call k.asInit) = (e', framing.map .framing) := by
    rw [Frame.call, BodyEncoder.step, hcall]
    rfl
  cases framing with
  | error error =>
    simp only [take, hcall]
    refine ⟨fs, [.frame (.data data)], ?_, ?_, s.encoder, h.written, h.calls, hb.sent, ?_, .inl ⟨_, rfl, ?_, rfl⟩⟩
    · simp [SendHistory.add, hb.obtained]
    · exact hb.recycled_tail (.frame (.data data))
    · simp [SendHistory.add, WriteOutput.accepted]
    · rw [hstep]
      rfl
  | ok framing =>
    simp only [take, hcall]
    refine inv_afterData hk ⟨?_, hb.sent.frame hstep, ?_, hb.trailersSent, hb.stats, rfl⟩
      (.start k.framed .vectored (framing.before, data, framing.after) s.token)
    · simp [SendHistory.add, hb.obtained]
    · simp [SendHistory.add, hb.recycled]

theorem inv_takeTrailers (hk : k.Lawful) {fs : List (Frame D)} (hb : Between x k e₀ h s fs) (fields : Headers) :
    SendInv x k e₀ (h.add (s.take x k (.frame (.trailers fields))).2) (s.take x k (.frame (.trailers fields))).1 := by
  rcases hcall : s.encoder.sendTrailers x fields with ⟨e', bytes⟩
  have hstep : s.encoder.step x ((Frame.trailers fields : Frame D).call k.asInit) = (e', bytes.map .last) := by
    rw [Frame.call, BodyEncoder.step, hcall]
    rfl
  cases bytes with
  | error error =>
    simp only [take, hcall]
    refine ⟨fs, [.frame (.trailers fields)], ?_, ?_, s.encoder, h.written, h.calls, hb.sent, ?_,
      .inl ⟨_, rfl, ?_, rfl⟩⟩
    · simp [SendHistory.add, hb.obtained]
    · exact hb.recycled_tail (.frame (.trailers fields))
    · simp [SendHistory.add, WriteOutput.accepted]
    · rw [hstep]
      rfl
  | ok bytes =>
    simp only [take, hcall]
    refine inv_afterTrailers hk ⟨?_, hb.sent.frame hstep, ?_, hb.trailersSent, hb.stats, rfl⟩
      (.start k.single .scalar bytes s.token)
    · simp [SendHistory.add, hb.obtained]
    · simp [SendHistory.add, hb.recycled]

theorem inv_takeEnd (hk : k.Lawful) {fs : List (Frame D)} (hb : Between x k e₀ h s fs) :
    SendInv x k e₀ (h.add (s.take x k .finished).2) (s.take x k .finished).1 := by
  have hobtained : h.obtained ++ [.finished] = fs.map .frame ++ [.finished] := by rw [hb.obtained]
  cases hsent : s.trailersSent with
  | true =>
    -- the trailers ended the body, and nothing is written after them
    obtain ⟨hdone, honce⟩ := hb.sent.ended (hb.trailersSent ▸ hsent)
    have hfinish : s.encoder.finish = s.encoder.fail .frameAfterEnd := by rw [BodyEncoder.finish, hdone]
    have hadd : h.add (⟨[.finished], [], [], .quiet⟩ : SendOutput D E) =
        { h with obtained := h.obtained ++ [.finished] } := by
      simp [SendHistory.add, WriteOutput.accepted]
    simp only [take, hsent, if_true, hadd]
    refine ⟨fs, hobtained, ⟨_, _, _, hb.sent⟩, honce, hdone, hb.recycled, ?_, hb.stats, hb.sent.noErrors⟩
    show h.written = bodyWire x k.asInit e₀ (h.obtained ++ [.finished])
    rw [hobtained, hb.sent.bodyWire, bodyWire, hfinish]
    exact (List.append_nil _).symm
  | false =>
    rcases hcall : s.encoder.finish with ⟨e', bytes⟩
    cases bytes with
    | error error =>
      simp only [take, hsent, hcall]
      refine ⟨fs, [.finished], hobtained, hb.recycled_tail .finished, s.encoder, h.written, h.calls, hb.sent, ?_,
        .inr ⟨rfl, ?_, rfl, ?_⟩⟩
      · simp [SendHistory.add, WriteOutput.accepted]
      · rw [hcall]
      · rw [← hb.trailersSent, hsent]
    | ok bytes =>
      simp only [take, hsent, hcall, Bool.false_eq_true, if_false]
      refine inv_afterFinish hk ⟨hobtained, ⟨s.encoder, h.calls, hb.sent, hcall, rfl⟩, ?_, ?_, hb.stats, rfl⟩
        (.start k.single .scalar bytes s.token)
      · simp [SendHistory.add, hb.recycled]
      · rw [← hb.trailersSent, hsent]

theorem inv_take (hk : k.Lawful) {fs : List (Frame D)} (hb : Between x k e₀ h s fs) (next : Produced D E) :
    SendInv x k e₀ (h.add (s.take x k next).2) (s.take x k next).1 := by
  rcases next with (data | fields) | _ | failure
  · exact inv_takeData hk hb data
  · exact inv_takeTrailers hk hb fields
  · exact inv_takeEnd hk hb
  · refine ⟨fs, [.failed failure], ?_, hb.recycled_tail (.failed failure), s.encoder, h.written, h.calls, hb.sent,
      rfl, ?_, ?_⟩
    · simp [take, SendHistory.add, hb.obtained]
    · simp [take, SendHistory.add, WriteOutput.accepted]
    · simp [take, SendHistory.add]

/-! ## Every step keeps the books -/

theorem inv_canceled {fs : List (Frame D)} (hb : Between x k e₀ h s fs) :
    SendInv x k e₀ h (s.returns (.error .canceled)) := by
  refine ⟨fs, [], ?_, ?_, s.encoder, h.written, h.calls, hb.sent, rfl, rfl, rfl⟩
  · rw [List.append_nil, hb.obtained]
  · rw [hb.recycled, hb.obtained, filterMap_frames]

theorem inv_poll (hk : k.Lawful) {next : Option (Produced D E)} {o : SendOutput D E}
    (hinv : SendInv x k e₀ h s) (hs : s.poll x k next = some (s', o)) : SendInv x k e₀ (h.add o) s' := by
  obtain ⟨encoder, trailersSent, stats, pendingOutput, token, phase⟩ := s
  cases phase with
  | first =>
    obtain ⟨fs, hb⟩ := hinv
    by_cases htoken : token = some true
    · simp only [poll, if_pos htoken] at hs
      cases hs
      rw [SendHistory.add_quiet]
      exact inv_canceled hb
    · simp only [poll, if_neg htoken] at hs
      cases next with
      | some next =>
        have htake := inv_take hk hb next
        rw [Option.some.inj hs] at htake
        exact htake
      | none =>
        cases hs
        rw [SendHistory.add_quiet]
        -- waiting for the flush or for the next frame
        cases pendingOutput with
        | true => exact ⟨fs, hb.congr rfl rfl rfl⟩
        | false => exact ⟨fs, hb.congr rfl rfl rfl⟩
  | polling yielded =>
    obtain ⟨fs, hb⟩ := hinv
    cases yielded with
    | false =>
      cases hs
      rw [SendHistory.add_quiet]
      exact ⟨fs, hb.congr rfl rfl rfl⟩
    | true =>
      by_cases htoken : token = some true
      · simp only [poll, if_pos htoken] at hs
        cases hs
        rw [SendHistory.add_quiet]
        exact inv_canceled hb
      · simp only [poll, if_neg htoken] at hs
        cases next with
        | some next =>
          have htake := inv_take hk hb next
          rw [Option.some.inj hs] at htake
          exact htake
        | none =>
          cases hs
          rw [SendHistory.add_quiet]
          exact ⟨fs, hb⟩
  | flushing => cases hs
  | framed => cases hs
  | trailers => cases hs
  | finishing => cases hs
  | returned => cases hs

theorem inv_flushed {result : Except IoError Unit} {o : SendOutput D E} (hinv : SendInv x k e₀ h s)
    (hs : s.flushed result = some (s', o)) : SendInv x k e₀ (h.add o) s' := by
  obtain ⟨encoder, trailersSent, stats, pendingOutput, token, phase⟩ := s
  cases phase with
  | flushing =>
    obtain ⟨fs, hb⟩ := hinv
    cases result with
    | error error =>
      cases hs
      rw [SendHistory.add_quiet]
      refine ⟨fs, [], ?_, ?_, encoder, h.written, h.calls, hb.sent, .inl ⟨rfl, rfl⟩, ?_⟩
      · rw [List.append_nil, hb.obtained]
      · rw [hb.recycled, hb.obtained, filterMap_frames]
      · have hwritten : bodyWire x k.asInit e₀ h.obtained = h.written := by
          rw [hb.obtained, hb.sent.bodyWire_frames]
        exact hwritten ▸ List.prefix_refl _
    | ok =>
      cases hs
      rw [SendHistory.add_quiet]
      exact ⟨fs, hb.congr rfl rfl rfl⟩
  | first => cases hs
  | polling => cases hs
  | framed => cases hs
  | trailers => cases hs
  | finishing => cases hs
  | returned => cases hs

theorem Writing.advance {fs : List (Frame D)} {f : Frame D} {wire text taken : Bytes} {write : WriteOutput}
    (hw : Writing x k e₀ h s fs f wire text taken) :
    Writing x k e₀ (h.add { SendOutput.quiet with write }) s fs f wire text (taken ++ write.accepted) := by
  refine ⟨?_, ?_, ?_, hw.trailersSent, hw.stats, ?_⟩
  · exact (List.append_nil _).trans hw.obtained
  · show Sent x k.asInit e₀ _ s.encoder _ (h.calls ++ [])
    rw [List.append_nil]
    exact hw.sent
  · exact (List.append_nil _).trans hw.recycled
  · show h.written ++ write.accepted = _
    rw [hw.written, List.append_assoc]

theorem Finishing.advance {fs : List (Frame D)} {wire bytes taken : Bytes} {write : WriteOutput}
    (hf : Finishing x k e₀ h s fs wire bytes taken) :
    Finishing x k e₀ (h.add { SendOutput.quiet with write }) s fs wire bytes (taken ++ write.accepted) := by
  obtain ⟨e, calls, hsent, hfinish, hcalls⟩ := hf.sent
  refine ⟨?_, ⟨e, calls, hsent, hfinish, ?_⟩, ?_, hf.noTrailers, hf.stats, ?_⟩
  · exact (List.append_nil _).trans hf.obtained
  · exact (List.append_nil _).trans hcalls
  · exact (List.append_nil _).trans hf.recycled
  · show h.written ++ write.accepted = _
    rw [hf.written, List.append_assoc]

theorem inv_advance (hk : k.Lawful) {i : WriteEvent} {o : SendOutput D E} (hinv : SendInv x k e₀ h s)
    (hs : s.advance k i = some (s', o)) : SendInv x k e₀ (h.add o) s' := by
  obtain ⟨encoder, trailersSent, stats, pendingOutput, token, phase⟩ := s
  cases phase with
  | framed loop =>
    obtain ⟨fs, before, data, after, wire, taken, hw, hp⟩ := hinv
    obtain ⟨⟨loop', write⟩, hloop, heq⟩ := Option.map_eq_some_iff.mp hs
    have hafter := inv_afterData (s := ⟨encoder, trailersSent, stats, pendingOutput, token, .framed loop⟩) hk hw.advance
      (hp.step hk.framed_lawful hloop)
    dsimp only at heq hafter
    rw [heq] at hafter
    exact hafter
  | trailers loop =>
    obtain ⟨fs, fields, bytes, wire, taken, hw, hp⟩ := hinv
    obtain ⟨⟨loop', write⟩, hloop, heq⟩ := Option.map_eq_some_iff.mp hs
    have hafter := inv_afterTrailers (s := ⟨encoder, trailersSent, stats, pendingOutput, token, .trailers loop⟩) hk hw.advance
      (hp.step hk.single_lawful hloop)
    dsimp only at heq hafter
    rw [heq] at hafter
    exact hafter
  | finishing loop =>
    obtain ⟨fs, bytes, wire, taken, hf, hp⟩ := hinv
    obtain ⟨⟨loop', write⟩, hloop, heq⟩ := Option.map_eq_some_iff.mp hs
    have hafter := inv_afterFinish (s := ⟨encoder, trailersSent, stats, pendingOutput, token, .finishing loop⟩) hk hf.advance
      (hp.step hk.single_lawful hloop)
    dsimp only at heq hafter
    rw [heq] at hafter
    exact hafter
  | first => cases hs
  | flushing => cases hs
  | polling => cases hs
  | returned => cases hs

theorem inv_cancel (hinv : SendInv x k e₀ h s) : SendInv x k e₀ h s.cancel := by
  obtain ⟨encoder, trailersSent, stats, pendingOutput, token, phase⟩ := s
  cases phase with
  | framed loop =>
    obtain ⟨fs, before, data, after, wire, taken, hw, hp⟩ := hinv
    exact ⟨fs, before, data, after, wire, taken, hw.congr rfl rfl rfl, hp⟩
  | trailers loop =>
    obtain ⟨fs, fields, bytes, wire, taken, hw, hp⟩ := hinv
    exact ⟨fs, fields, bytes, wire, taken, hw.congr rfl rfl rfl, hp⟩
  | finishing loop =>
    obtain ⟨fs, bytes, wire, taken, hf, hp⟩ := hinv
    exact ⟨fs, bytes, wire, taken, hf.congr rfl rfl, hp⟩
  | returned result =>
    cases result with
    | ok stats =>
      obtain ⟨fs, hok⟩ := hinv
      exact ⟨fs, hok.1, hok.2, hok.3, hok.4, hok.5, hok.6, hok.7, hok.8⟩
    | error error => exact hinv
  | first | flushing | polling =>
    obtain ⟨fs, hb⟩ := hinv
    exact ⟨fs, hb.congr rfl rfl rfl⟩

theorem inv_step (hk : k.Lawful) {i : SendEvent D E} {o : SendOutput D E} (hinv : SendInv x k e₀ h s)
    (hs : s.step x k i = some (s', o)) : SendInv x k e₀ (h.add o) s' := by
  cases i with
  | cancel =>
    cases hs
    rw [SendHistory.add_quiet]
    exact inv_cancel hinv
  | poll next => exact inv_poll hk hinv hs
  | flushed result => exact inv_flushed hinv hs
  | resume => exact inv_advance hk hinv hs
  | completed result => exact inv_advance hk hinv hs

theorem inv_start (x : Crates) (k : SendBuffers D V W) (e₀ : BodyEncoder) (token : Option Bool) :
    SendInv x k e₀ ⟨[], [], [], []⟩ (start e₀ token : Sender D V W E) :=
  ⟨[], rfl, .start, rfl, rfl, rfl⟩

theorem inv_of_reaches (hk : k.Lawful) {token : Option Bool} {tr : List (SendEvent D E × SendOutput D E)}
    (hr : (sendBody x k).Reaches (start e₀ token) tr s) : SendInv x k e₀ (sendHistory tr) s := by
  refine hr.invariant (P := fun tr s => SendInv x k e₀ (sendHistory tr) s) (inv_start x k e₀ token) ?_
  intro tr s i s' o hinv hs
  rw [sendHistory_concat]
  exact inv_step hk hinv hs

/-! ## What the books say -/

/-- After the frames that passed came nothing or the end of the producer, its failure, or what the
encoder rejected. -/
inductive Tail (x : Crates) (k : SendBuffers D V W) (e : BodyEncoder) (wire : Bytes)
    (calls : List (EncoderCall × EncoderResult)) (h : SendHistory D E) (s : Sender D V W E) :
    List (Produced D E) → Prop
  | none (hcalls : ∀ call error, (call, .error error) ∉ h.calls) : Tail x k e wire calls h s []
  | finished (hcalls : ∀ call error, (call, .error error) ∉ h.calls) : Tail x k e wire calls h s [.finished]
  | failed (failure : E) (hphase : s.phase = .returned (.error (.body failure))) (hwritten : h.written = wire)
      (hcalls : ∀ call error, (call, .error error) ∉ h.calls) : Tail x k e wire calls h s [.failed failure]
  | rejected (next : Produced D E) (call : EncoderCall) (rejection : EncodeError)
      (hphase : s.phase = .returned (.error (.encode rejection))) (hwritten : h.written = wire)
      (hcalls : h.calls = calls ++ [(call, .error rejection)]) (hnext : ∀ failure, next ≠ .failed failure)
      (hframe : ∀ f, next = .frame f → (e.step x (f.call k.asInit)).2 = .error rejection) :
      Tail x k e wire calls h s [next]

theorem Tail.length_le {e : BodyEncoder} {wire : Bytes} {calls : List (EncoderCall × EncoderResult)}
    {tail : List (Produced D E)} (ht : Tail x k e wire calls h s tail) : tail.length ≤ 1 := by
  cases ht with
  | none => exact Nat.zero_le _
  | finished => exact le_rfl
  | failed => exact le_rfl
  | rejected => exact le_rfl

theorem Failed.tail {error : SendBodyError E} {fs : List (Frame D)} {tail : List (Produced D E)}
    (hf : Failed x k e₀ h error fs tail) (hphase : s.phase = .returned (.error error)) :
    ∃ e wire calls, Sent x k.asInit e₀ fs e wire calls ∧ Tail x k e wire calls h s tail ∧
      h.written <+: bodyWire x k.asInit e₀ h.obtained := by
  obtain ⟨e, wire, calls, hsent, hcause⟩ := hf.cause
  have hpre (hwritten : h.written = wire) : h.written <+: bodyWire x k.asInit e₀ h.obtained := by
    rw [hwritten, hf.obtained, hsent.bodyWire]
    exact List.prefix_append ..
  have hclean (hcalls : h.calls = calls) : ∀ call error, (call, .error error) ∉ h.calls :=
    fun call error => hcalls ▸ hsent.noErrors call error
  refine ⟨e, wire, calls, hsent, ?_⟩
  cases error with
  | canceled =>
    obtain ⟨rfl, hwritten, hcalls⟩ := hcause
    exact ⟨.none (hclean hcalls), hpre hwritten⟩
  | io error =>
    obtain ⟨⟨rfl, hcalls⟩ | ⟨rfl, bytes, hcalls⟩, hwritten⟩ := hcause
    · exact ⟨.none (hclean hcalls), hwritten⟩
    · refine ⟨.finished ?_, hwritten⟩
      rw [hcalls]
      exact fun call error => hsent.noErrors_end .finish call _ error
  | body failure =>
    obtain ⟨rfl, hwritten, hcalls⟩ := hcause
    exact ⟨.failed failure hphase hwritten (hclean hcalls), hpre hwritten⟩
  | encode rejection =>
    obtain ⟨hwritten, ⟨f, rfl, hstep, hcalls⟩ | ⟨rfl, -, hcalls, -⟩⟩ := hcause
    · refine ⟨.rejected _ _ rejection hphase hwritten hcalls (by simp) ?_, hpre hwritten⟩
      intro g hg
      cases hg
      exact hstep
    · exact ⟨.rejected _ _ rejection hphase hwritten hcalls (by simp) (by simp), hpre hwritten⟩

theorem Writing.tail {fs : List (Frame D)} {f : Frame D} {wire text taken : Bytes}
    (hw : Writing x k e₀ h s fs f wire text taken) (hpre : taken <+: text) : ∃ fs e wire calls tail,
      Sent x k.asInit e₀ fs e wire calls ∧ h.obtained = fs.map .frame ++ tail ∧ Tail x k e wire calls h s tail ∧
        h.written <+: bodyWire x k.asInit e₀ h.obtained := by
  refine ⟨_, _, _, _, [], hw.sent, (hw.obtained.trans (List.append_nil _).symm), .none hw.sent.noErrors, ?_⟩
  rw [hw.obtained, hw.sent.bodyWire_frames, hw.written]
  exact (List.prefix_append_right_inj _).mpr hpre

theorem Between.tail {fs : List (Frame D)} (hb : Between x k e₀ h s fs) : ∃ fs e wire calls tail,
      Sent x k.asInit e₀ fs e wire calls ∧ h.obtained = fs.map .frame ++ tail ∧ Tail x k e wire calls h s tail ∧
        h.written <+: bodyWire x k.asInit e₀ h.obtained := by
  refine ⟨_, _, _, _, [], hb.sent, (hb.obtained.trans (List.append_nil _).symm), .none hb.sent.noErrors, ?_⟩
  have hwritten : bodyWire x k.asInit e₀ h.obtained = h.written := by rw [hb.obtained, hb.sent.bodyWire_frames]
  exact hwritten ▸ List.prefix_refl _

theorem inv_tail (hk : k.Lawful) (hinv : SendInv x k e₀ h s) : ∃ fs e wire calls tail,
    Sent x k.asInit e₀ fs e wire calls ∧ h.obtained = fs.map .frame ++ tail ∧ Tail x k e wire calls h s tail ∧
      h.written <+: bodyWire x k.asInit e₀ h.obtained := by
  obtain ⟨encoder, trailersSent, stats, pendingOutput, token, phase⟩ := s
  cases phase with
  | framed loop =>
    obtain ⟨fs, before, data, after, wire, taken, hw, hp⟩ := hinv
    have hpre := hp.taken_prefix
    rw [framed_text hk] at hpre
    exact hw.tail hpre
  | trailers loop =>
    obtain ⟨fs, fields, bytes, wire, taken, hw, hp⟩ := hinv
    have hpre := hp.taken_prefix
    rw [single_text hk] at hpre
    exact hw.tail hpre
  | finishing loop =>
    obtain ⟨fs, bytes, wire, taken, hf, hp⟩ := hinv
    obtain ⟨e, calls, hsent, hfinish, hcalls⟩ := hf.sent
    have hpre := hp.taken_prefix
    rw [single_text hk] at hpre
    refine ⟨fs, e, wire, calls, [.finished], hsent, hf.obtained, .finished ?_, ?_⟩
    · rw [hcalls]
      exact fun call error => hsent.noErrors_end .finish call _ error
    · rw [hf.written, hf.obtained, hsent.bodyWire, bodyWire, hfinish]
      exact (List.prefix_append_right_inj _).mpr hpre
  | returned result =>
    cases result with
    | ok stats =>
      obtain ⟨fs, hok⟩ := hinv
      obtain ⟨e, wire, calls, hsent⟩ := hok.sent
      refine ⟨fs, e, wire, calls, [.finished], hsent, hok.obtained, .finished hok.noErrors, ?_⟩
      exact hok.written ▸ List.prefix_refl _
    | error error =>
      obtain ⟨fs, tail, hfailed⟩ := hinv
      have hphase : (⟨encoder, trailersSent, stats, pendingOutput, token, .returned (.error error)⟩ :
          Sender D V W E).phase = .returned (.error error) := rfl
      obtain ⟨e, wire, calls, hsent, htail, hpre⟩ := hfailed.tail hphase
      exact ⟨fs, e, wire, calls, tail, hsent, hfailed.obtained, htail, hpre⟩
  | first | flushing | polling =>
    obtain ⟨fs, hb⟩ := hinv
    exact hb.tail

theorem inv_recycled (hinv : SendInv x k e₀ h s) :
    (∀ result, s.phase = .returned result → h.recycled = h.obtained.filterMap Produced.data?) ∧
      ∃ data : Option D, h.recycled ++ data.toList = h.obtained.filterMap Produced.data? := by
  have hframes (fs : List (Frame D)) (hobtained : h.obtained = fs.map .frame) :
      h.obtained.filterMap Produced.data? = fs.filterMap Frame.data? := by
    rw [hobtained, filterMap_frames]
  have hended (fs : List (Frame D)) (hobtained : h.obtained = fs.map .frame ++ [.finished]) :
      h.obtained.filterMap Produced.data? = fs.filterMap Frame.data? := by
    rw [hobtained, List.filterMap_append, filterMap_frames]
    exact List.append_nil _
  obtain ⟨encoder, trailersSent, stats, pendingOutput, token, phase⟩ := s
  cases phase with
  | framed loop =>
    obtain ⟨fs, before, data, after, wire, taken, hw, -⟩ := hinv
    refine ⟨by simp, some data, ?_⟩
    rw [hw.recycled, hframes _ hw.obtained, List.filterMap_append]
    rfl
  | trailers loop =>
    obtain ⟨fs, fields, bytes, wire, taken, hw, -⟩ := hinv
    refine ⟨by simp, none, ?_⟩
    rw [hw.recycled, hframes _ hw.obtained, List.filterMap_append]
    rfl
  | finishing loop =>
    obtain ⟨fs, bytes, wire, taken, hf, -⟩ := hinv
    refine ⟨by simp, none, ?_⟩
    rw [hf.recycled, hended fs hf.obtained]
    exact List.append_nil _
  | returned result =>
    have hall : h.recycled = h.obtained.filterMap Produced.data? := by
      cases result with
      | ok stats =>
        obtain ⟨fs, hok⟩ := hinv
        rw [hok.recycled, hended fs hok.obtained]
      | error error =>
        obtain ⟨fs, tail, hfailed⟩ := hinv
        exact hfailed.recycled
    exact ⟨fun _ _ => hall, none, by rw [← hall]; exact List.append_nil _⟩
  | first | flushing | polling =>
    obtain ⟨fs, hb⟩ := hinv
    refine ⟨by simp, none, ?_⟩
    rw [hb.recycled, hframes fs hb.obtained]
    exact List.append_nil _

/-! ## What the tail says -/

section Tail

variable {e : BodyEncoder} {fs : List (Frame D)} {wire : Bytes} {calls : List (EncoderCall × EncoderResult)}
  {tail : List (Produced D E)}

theorem Tail.body_failed (hsent : Sent x k.asInit e₀ fs e wire calls) (htail : Tail x k e wire calls h s tail)
    (hobtained : h.obtained = fs.map .frame ++ tail) {failure : E} (hmem : .failed failure ∈ h.obtained) :
    s.phase = .returned (.error (.body failure)) ∧ h.written = bodyWire x k.asInit e₀ h.obtained := by
  rw [hobtained] at hmem
  rcases List.mem_append.mp hmem with hmem | hmem
  · obtain ⟨f, -, hf⟩ := List.mem_map.mp hmem
    cases hf
  · cases htail with
    | none => cases hmem
    | finished => cases List.mem_singleton.mp hmem
    | failed failure' hphase hwritten =>
      cases List.mem_singleton.mp hmem
      rw [hobtained, hsent.bodyWire, hwritten]
      exact ⟨hphase, (List.append_nil _).symm⟩
    | rejected next call rejection hphase hwritten hcalls hnext =>
      exact absurd (List.mem_singleton.mp hmem).symm (hnext failure)

theorem Tail.after_trailers (hsent : Sent x k.asInit e₀ fs e wire calls) (htail : Tail x k e wire calls h s tail)
    (hobtained : h.obtained = fs.map .frame ++ tail) {before rest : List (Produced D E)} {fields : Headers}
    {f : Frame D} (heq : h.obtained = before ++ .frame (.trailers fields) :: .frame f :: rest) :
    s.phase = .returned (.error (.encode .frameAfterEnd)) ∧ rest = [] ∧
      h.written = bodyWire x k.asInit e₀ (before ++ [.frame (.trailers fields)]) := by
  obtain ⟨rfl, hrest, hfs⟩ := hsent.after_trailers htail.length_le (hobtained.symm.trans heq)
  have hdone : e.state = .done := by
    refine (hsent.ended (List.any_eq_true.mpr ⟨.trailers fields, ?_, rfl⟩)).1
    apply mem_frames (E := E)
    rw [hfs]
    exact List.mem_append_right _ (List.mem_singleton_self _)
  have hwire := hsent.bodyWire_frames (E := E)
  rw [hfs] at hwire
  generalize htl : [Produced.frame f] = tail at htail
  cases htail with
  | none => cases htl
  | finished => cases htl
  | failed => cases htl
  | rejected next call rejection hphase hwritten hcalls hnext hframe =>
    cases htl
    have hrejection := hframe f rfl
    rw [step_done hdone] at hrejection
    cases hrejection
    exact ⟨hphase, hrest, hwritten.trans hwire.symm⟩

theorem Tail.rejected_call (hsent : Sent x k.asInit e₀ fs e wire calls) (htail : Tail x k e wire calls h s tail)
    (hobtained : h.obtained = fs.map .frame ++ tail) {call : EncoderCall} {error : EncodeError}
    (hmem : (call, .error error) ∈ h.calls) :
    s.phase = .returned (.error (.encode error)) ∧
      ∃ before next, h.obtained = before ++ [next] ∧ h.written = bodyWire x k.asInit e₀ before := by
  cases htail with
  | none hcalls => exact absurd hmem (hcalls call error)
  | finished hcalls => exact absurd hmem (hcalls call error)
  | failed failure hphase hwritten hcalls => exact absurd hmem (hcalls call error)
  | rejected next call' rejection hphase hwritten hcalls =>
    rw [hcalls] at hmem
    rcases List.mem_append.mp hmem with hmem | hmem
    · exact absurd hmem (hsent.noErrors call error)
    · cases List.mem_singleton.mp hmem
      exact ⟨hphase, fs.map .frame, next, hobtained, hwritten.trans hsent.bodyWire_frames.symm⟩

end Tail

end Sender

/-- What every run of `send_body` with the encoder `e₀` keeps to. -/
structure SendsExactly {D V W E : Type} (x : Crates) (k : SendBuffers D V W) (e₀ : BodyEncoder)
    (h : SendHistory D E) (s : Sender D V W E) : Prop where
  written_prefix : h.written <+: bodyWire x k.asInit e₀ h.obtained
  succeeded : ∀ stats, s.phase = .returned (.ok stats) →
    (∃ fs : List (Frame D), h.obtained = fs.map .frame ++ [.finished] ∧ stats = statsOf fs h.written) ∧
      h.calls.countP BodyEncoder.isEnd = 1 ∧
      s.encoder.state = .done ∧ h.written = bodyWire x k.asInit e₀ h.obtained
  body_failed : ∀ failure, .failed failure ∈ h.obtained →
    s.phase = .returned (.error (.body failure)) ∧ h.written = bodyWire x k.asInit e₀ h.obtained
  after_trailers : ∀ before fields f rest, h.obtained = before ++ .frame (.trailers fields) :: .frame f :: rest →
    s.phase = .returned (.error (.encode .frameAfterEnd)) ∧ rest = [] ∧
      h.written = bodyWire x k.asInit e₀ (before ++ [.frame (.trailers fields)])
  recycled : ∀ result, s.phase = .returned result → h.recycled = h.obtained.filterMap Produced.data?
  in_flight : ∃ data : Option D, h.recycled ++ data.toList = h.obtained.filterMap Produced.data?
  rejected : ∀ call error, (call, .error error) ∈ h.calls →
    s.phase = .returned (.error (.encode error)) ∧
      ∃ before next, h.obtained = before ++ [next] ∧ h.written = bodyWire x k.asInit e₀ before

/-- **`send_body` writes exactly the encoded body and settles every frame.** For every producer, every
encoder, every behaviour of the writer and every point at which cancellation is requested: what the
writer has taken is a prefix of the encoder's framing of what was produced, and all of it, terminated
once, when the call succeeds; a failure of the producer, or a frame after trailers, fails the call; each
data frame is recycled exactly once; nothing of a rejected frame is written. -/
theorem send_body_exact {D V W E : Type} (x : Crates) (k : SendBuffers D V W) (hk : k.Lawful) (e₀ : BodyEncoder)
    (token : Option Bool) (tr : List (SendEvent D E × SendOutput D E)) (s : Sender D V W E)
    (hr : (sendBody x k).Reaches (.start e₀ token) tr s) : SendsExactly x k e₀ (sendHistory tr) s := by
  have hinv := Sender.inv_of_reaches hk hr
  obtain ⟨fs, e, wire, calls, tail, hsent, hobtained, htail, hpre⟩ := Sender.inv_tail hk hinv
  generalize sendHistory tr = h at *
  refine {
    written_prefix := hpre
    succeeded := ?_
    body_failed := fun _ => htail.body_failed hsent hobtained
    after_trailers := fun _ _ _ _ => htail.after_trailers hsent hobtained
    recycled := (Sender.inv_recycled hinv).1
    in_flight := (Sender.inv_recycled hinv).2
    rejected := fun _ _ => htail.rejected_call hsent hobtained }
  intro stats hphase
  obtain ⟨fs, hok⟩ : ∃ fs, Sender.Succeeded x k e₀ h s stats fs := by
    rw [Sender.SendInv, hphase] at hinv
    exact hinv
  exact ⟨⟨fs, hok.obtained, hok.stats_eq⟩, hok.once, hok.done, hok.written⟩

def plainBuffers : SendBuffers Bytes ((Bytes × Bytes × Bytes) × ℕ) (Bytes × ℕ) where
  asInit := id
  framed := framedBytes
  single := .cursor fun bytes => [bytes]

theorem plainBuffers_lawful : plainBuffers.Lawful where
  framed_lawful := framedBytes_lawful
  framed_parts _ _ _ := rfl
  single_lawful := Buffers.cursor_lawful _
  single_parts _ := rfl

/-- A frame in two short writes, trailers, and a frame that comes too late. -/
def lateFrame : List (SendEvent Bytes Unit) :=
  [.poll (some (.frame (.data [98, 111]))), .resume, .completed (.ok 4), .resume, .completed (.ok 3), .resume,
    .poll (some (.frame (.trailers .empty))), .resume, .completed (.ok 5), .resume,
    .poll (some (.frame (.data [])))]

theorem send_body_exact_late_frame :
    ∃ tr s, (sendBody reference plainBuffers).run (.start ⟨.chunked, 64, false, 0, none, .mayHave⟩ none) lateFrame =
        some (tr, s) ∧
      SendsExactly reference plainBuffers ⟨.chunked, 64, false, 0, none, .mayHave⟩ (sendHistory tr) s ∧
      (sendHistory tr).written = ascii "2\r\nbo\r\n0\r\n\r\n" ∧ (sendHistory tr).recycled = [[98, 111], []] := by
  refine ⟨_, _, rfl, send_body_exact reference plainBuffers plainBuffers_lawful _ none _ _ ?_, rfl, rfl⟩
  exact @Machine.reaches_of_run _ _ _ (sendBody reference plainBuffers) _ _ lateFrame _ rfl

end Vakya
