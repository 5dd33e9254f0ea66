import Vakya.EncodeHead
import Vakya.ClientDriver
import Vakya.Fate
import Vakya.SendBody

/-!
# Sending a request (`proto/h1/client.rs`)

`send_request` writes the prepared head, waits for `Continue` where the request expects it and the
client is configured to wait, drives the body and flushes. A wait ends with the permission that
`receive` gives, or with its deadline; only a request to cancel the upload fails it.
-/

namespace Vakya

open Library

/-- What an `io::Error` is where it is no cancellation. -/
inductive IoCause
  | tls
  | timeout (phase : TimeoutPhase)
  | exhausted
  | other
deriving DecidableEq, Repr

/-- `Error::from_io`; `cause` looks into the errors of the platform. -/
def IoError.toError (cause : ℕ → IoCause) : IoError → Error
  | .canceled => .new .canceled "HTTP I/O operation failed"
  | .other code =>
    match cause code with
    | .tls => .new .tls "TLS protocol operation failed"
    | .timeout phase => (Error.new .timeout "HTTP I/O operation failed").withDetail (.timeout phase)
    | .exhausted => (Error.new .io "HTTP I/O operation failed").withDetail .allocation
    | .other => .new .io "HTTP I/O operation failed"
  | .interrupted | .writeZero | .invalidData | .invalidInput => .new .io "HTTP I/O operation failed"

def mapSendError {E : Type} (cause : ℕ → IoCause) (error : SendBodyError E) (body canceled : String) : Error :=
  match error with
  | .body _ => .new .body body
  | .encode error => error.toError
  | .io error => error.toError cause
  | .canceled => .new .canceled canceled

/-- What is prepared of a request before either direction is polled. -/
structure RequestUpload (x : Crates) where
  plan : MessagePlan (ValidatedRequestHead x)
  encoder : BodyEncoder
  policy : ExchangePolicy

def RequestUpload.prepare (x : Crates) (method : Method) (target : x.Uri) (version : Version) (headers : Headers)
    (originalCase : Option HeaderCaseMap) (metadata : BodyMetadata) (encoding : EncodeConfig)
    (maxInformational : ℕ) : Except Error (RequestUpload x) :=
  match prepareRequestHead x method target version headers originalCase metadata encoding with
  | .error e => .error e.toError
  | .ok plan =>
    match BodyEncoder.new plan.head.body metadata encoding with
    | .error e => .error e.toError
    | .ok encoder => .ok ⟨plan, encoder, .new plan.head maxInformational⟩

theorem RequestUpload.prepare_ok {x : Crates} {method : Method} {target : x.Uri} {version : Version} {headers : Headers}
    {originalCase : Option HeaderCaseMap} {metadata : BodyMetadata} {encoding : EncodeConfig} {maxInformational : ℕ}
    {request : RequestUpload x}
    (h : prepare x method target version headers originalCase metadata encoding maxInformational = .ok request) :
    prepareRequestHead x method target version headers originalCase metadata encoding = .ok request.plan ∧
      BodyEncoder.new request.plan.head.body metadata encoding = .ok request.encoder ∧
      request.policy = .new request.plan.head maxInformational := by
  unfold prepare at h
  split at h
  · cases h
  · rename_i plan hplan
    split at h
    · cases h
    · rename_i encoder hencoder
      cases h
      exact ⟨hplan, hencoder, rfl⟩

inductive UploadPhase (D V W E : Type)
  | head (loop : WriteLoop Bytes W)
  /-- The head is flushed, before the wait. -/
  | flushing
  /-- The wait for `Continue`; its deadline is set when it begins. -/
  | waiting (begun : Bool)
  | body (sender : Sender D V W E)
  /-- Everything is flushed. -/
  | closing
  | returned (result : Except Error Unit)

structure Upload (D V W E : Type) where
  mode : BodyMode
  expectation : Expectation
  encoder : BodyEncoder
  token : Bool
  phase : UploadPhase D V W E

structure ContinuePoll where
  overflow : Bool
  granted : Bool
  expired : Bool

inductive UploadEvent (D E : Type)
  | send (event : SendEvent D E)
  | wait (poll : ContinuePoll)

/-- What the body and the writer did, and whether the upload was recorded to be complete. -/
structure UploadOutput (D E : Type) where
  send : SendOutput D E
  uploaded : Bool

def UploadOutput.quiet {D E : Type} : UploadOutput D E := ⟨.quiet, false⟩

structure UploadConfig (D V W : Type) where
  buffers : SendBuffers D V W
  cause : ℕ → IoCause
  continueWait : Bool

namespace Upload

variable {x : Crates} {D V W E : Type}

abbrev Result (D V W E : Type) := Option (Upload D V W E × UploadOutput D E)

def start (cfg : UploadConfig D V W) (request : RequestUpload x) (token : Bool) : Upload D V W E :=
  ⟨request.plan.head.body, request.plan.head.expectation, request.encoder, token,
    .head (.start cfg.buffers.single .scalar request.plan.bytes (some token))⟩

def awaits (cfg : UploadConfig D V W) (s : Upload D V W E) : Bool :=
  s.expectation = .continue && !(s.mode = .none || s.mode = .fixed 0) && cfg.continueWait

def returns (s : Upload D V W E) (result : Except Error Unit) : Upload D V W E :=
  { s with phase := .returned result }

def beginBody (s : Upload D V W E) : Upload D V W E :=
  if s.mode ≠ .none then { s with phase := .body (.start s.encoder (some s.token)) } else { s with phase := .closing }

def afterHead (cfg : UploadConfig D V W) (s : Upload D V W E) (loop : WriteLoop Bytes W) : Upload D V W E :=
  match loop.phase with
  | .returned (.error e) _ => s.returns (.error (e.toError cfg.cause))
  | .returned (.ok _) _ => if s.awaits cfg then { s with phase := .flushing } else s.beginBody
  | _ => { s with phase := .head loop }

def afterBody (cfg : UploadConfig D V W) (s : Upload D V W E) (sender : Sender D V W E) : Upload D V W E :=
  match sender.phase with
  | .returned (.error e) => s.returns (.error (mapSendError cfg.cause e "request body failed" "request production canceled"))
  | .returned (.ok _) => { s with encoder := sender.encoder, phase := .closing }
  | _ => { s with phase := .body sender }

def cancel (s : Upload D V W E) : Upload D V W E :=
  { s with
    token := true
    phase := match s.phase with
      | .head loop => .head { loop with token := loop.token.map fun _ => true }
      | .body sender => .body sender.cancel
      | phase => phase }

def flushed (cfg : UploadConfig D V W) (s : Upload D V W E) (result : Except IoError Unit) : Result D V W E :=
  match s.phase with
  | .flushing =>
    match result with
    | .error e => some (s.returns (.error (e.toError cfg.cause)), .quiet)
    | .ok () => some ({ s with phase := .waiting false }, .quiet)
  | .closing =>
    match result with
    | .error e => some (s.returns (.error (e.toError cfg.cause)), .quiet)
    | .ok () => some (s.returns (.ok ()), ⟨.quiet, true⟩)
  | .body sender =>
    (sender.flushed result).map fun (sender, send) => (s.afterBody cfg sender, ⟨send, false⟩)
  | _ => none

def advance (cfg : UploadConfig D V W) (s : Upload D V W E) (i : WriteEvent) : Result D V W E :=
  match s.phase with
  | .head loop =>
    (loop.step cfg.buffers.single i).map fun (loop, write) =>
      (s.afterHead cfg loop, ⟨{ SendOutput.quiet with write }, false⟩)
  | .body sender =>
    (sender.advance cfg.buffers i).map fun (sender, send) => (s.afterBody cfg sender, ⟨send, false⟩)
  | _ => none

def poll (x : Crates) (cfg : UploadConfig D V W) (s : Upload D V W E) (next : Option (Produced D E)) :
    Result D V W E :=
  match s.phase with
  | .body sender =>
    (sender.poll x cfg.buffers next).map fun (sender, send) => (s.afterBody cfg sender, ⟨send, false⟩)
  | _ => none

def wait (s : Upload D V W E) (p : ContinuePoll) : Result D V W E :=
  match s.phase with
  | .waiting begun =>
    if !begun && p.overflow then some (s.returns (.error (.new .localMessage "invalid timeout duration")), .quiet)
    else if s.token then some (s.returns (.error (.new .canceled "Continue wait canceled")), .quiet)
    else if p.granted || p.expired then some (s.beginBody, .quiet)
    else some ({ s with phase := .waiting true }, .quiet)
  | _ => none

def step (x : Crates) (cfg : UploadConfig D V W) (s : Upload D V W E) : UploadEvent D E → Result D V W E
  | .send .cancel => some (s.cancel, .quiet)
  | .send (.poll next) => s.poll x cfg next
  | .send (.flushed result) => s.flushed cfg result
  | .send .resume => s.advance cfg .resume
  | .send (.completed result) => s.advance cfg (.completed result)
  | .wait p => s.wait p

end Upload

def upload {D V W : Type} (E : Type) (x : Crates) (cfg : UploadConfig D V W) :
    Machine (Upload D V W E) (UploadEvent D E) (UploadOutput D E) where
  step := Upload.step x cfg

section History

variable {D E : Type}

def uploadHistory (tr : List (UploadEvent D E × UploadOutput D E)) : SendHistory D E :=
  tr.foldl (fun h y => h.add y.2.send) ⟨[], [], [], []⟩

theorem uploadHistory_concat (tr : List (UploadEvent D E × UploadOutput D E)) (i : UploadEvent D E)
    (o : UploadOutput D E) : uploadHistory (tr ++ [(i, o)]) = (uploadHistory tr).add o.send := by
  rw [uploadHistory, List.foldl_append]
  rfl

def SendHistory.behind (h : SendHistory D E) (text : Bytes) : SendHistory D E := { h with written := text ++ h.written }

theorem SendHistory.behind_add (h : SendHistory D E) (text : Bytes) (o : SendOutput D E) :
    (h.behind text).add o = (h.add o).behind text := by
  simp [behind, add]

def SendHistory.only (taken : Bytes) : SendHistory D E := ⟨[], [], [], taken⟩

theorem SendHistory.only_add (taken : Bytes) (write : WriteOutput) :
    (SendHistory.only taken : SendHistory D E).add { SendOutput.quiet with write } = .only (taken ++ write.accepted) := by
  simp [only, add, SendOutput.quiet]

end History

namespace Upload

variable {x : Crates} {D V W E : Type} {cfg : UploadConfig D V W} {request : RequestUpload x}
  {tr : List (UploadEvent D E × UploadOutput D E)} {s s' : Upload D V W E} {i : UploadEvent D E}
  {o : UploadOutput D E}

def Permitted (tr : List (UploadEvent D E × UploadOutput D E)) : Prop :=
  ∃ y ∈ tr, ∃ p, y.1 = .wait p ∧ (p.granted = true ∨ p.expired = true)

theorem Permitted.later (h : Permitted tr) (more : List (UploadEvent D E × UploadOutput D E)) :
    Permitted (tr ++ more) := by
  obtain ⟨y, hy, hp⟩ := h
  exact ⟨y, List.mem_append_left _ hy, hp⟩

/-- The body may be asked: there is one, and the wait for permission is over. -/
structure Open (cfg : UploadConfig D V W) (tr : List (UploadEvent D E × UploadOutput D E)) (s : Upload D V W E) :
    Prop where
  mode : s.mode ≠ .none
  permitted : s.awaits cfg = true → Permitted tr

/-- What was written is a part of the request, and the body comes behind the whole head. -/
structure Part (cfg : UploadConfig D V W) (request : RequestUpload x)
    (tr : List (UploadEvent D E × UploadOutput D E)) (s : Upload D V W E) : Prop where
  written : (uploadHistory tr).written <+:
    request.plan.bytes ++ bodyWire x cfg.buffers.asInit request.encoder (uploadHistory tr).obtained
  body : (uploadHistory tr).obtained ≠ [] → request.plan.bytes <+: (uploadHistory tr).written ∧ Open cfg tr s

/-- The whole request was written: the head and, if there is a body, all of it. -/
inductive Whole (cfg : UploadConfig D V W) (request : RequestUpload x)
    (tr : List (UploadEvent D E × UploadOutput D E)) (s : Upload D V W E) : Prop
  | head (hmode : s.mode = .none) (hwritten : uploadHistory tr = .only request.plan.bytes)
  | body (hopen : Open cfg tr s) {b : SendHistory D E} {sender : Sender D V W E} {stats : SendStats}
      {fs : List (Frame D)} (hhistory : uploadHistory tr = b.behind request.plan.bytes)
      (hsucceeded : Sender.Succeeded x cfg.buffers request.encoder b sender stats fs)

def Stage (cfg : UploadConfig D V W) (request : RequestUpload x)
    (tr : List (UploadEvent D E × UploadOutput D E)) (s : Upload D V W E) : Prop :=
  match s.phase with
  | .head loop => s.encoder = request.encoder ∧ ∃ taken, uploadHistory tr = .only taken ∧
      loop.Progress cfg.buffers.single request.plan.bytes taken
  | .flushing | .waiting _ => s.encoder = request.encoder ∧ uploadHistory tr = .only request.plan.bytes ∧
      s.mode ≠ .none
  | .body sender => Open cfg tr s ∧ ∃ b, uploadHistory tr = b.behind request.plan.bytes ∧
      Sender.SendInv x cfg.buffers request.encoder b sender
  | .closing | .returned (.ok ()) => Whole cfg request tr s
  | .returned (.error _) => Part cfg request tr s

structure Inv (cfg : UploadConfig D V W) (request : RequestUpload x)
    (tr : List (UploadEvent D E × UploadOutput D E)) (s : Upload D V W E) : Prop where
  mode : s.mode = request.plan.head.body
  expectation : s.expectation = request.plan.head.expectation
  stage : Stage cfg request tr s
  uploaded : (∃ y ∈ tr, y.2.uploaded = true) ↔ s.phase = .returned (.ok ())

theorem part_of_only {taken : Bytes} (h : uploadHistory tr = .only taken) (hpre : taken <+: request.plan.bytes) :
    Part cfg request tr s := by
  refine ⟨?_, fun hne => ?_⟩
  · rw [h]
    exact hpre.trans (List.prefix_append _ _)
  · rw [h] at hne
    exact absurd rfl hne

theorem part_of_behind (hopen : Open cfg tr s) {b : SendHistory D E}
    (h : uploadHistory tr = b.behind request.plan.bytes)
    (hpre : b.written <+: bodyWire x cfg.buffers.asInit request.encoder b.obtained) : Part cfg request tr s := by
  refine ⟨?_, fun _ => ⟨?_, hopen⟩⟩
  · rw [h]
    exact (List.prefix_append_right_inj _).mpr hpre
  · rw [h]
    exact List.prefix_append _ _

theorem Whole.written_eq (h : Whole cfg request tr s) : (uploadHistory tr).written =
    request.plan.bytes ++ bodyWire x cfg.buffers.asInit request.encoder (uploadHistory tr).obtained := by
  cases h with
  | head hmode hwritten => simp [hwritten, SendHistory.only, bodyWire]
  | body hopen hhistory hsucceeded =>
    rw [hhistory]
    show _ ++ _ = _
    rw [hsucceeded.written]
    rfl

theorem Whole.part (h : Whole cfg request tr s) : Part cfg request tr s := by
  cases h with
  | head hmode hwritten => exact part_of_only hwritten (List.prefix_refl _)
  | body hopen hhistory hsucceeded =>
    apply part_of_behind hopen hhistory
    rw [hsucceeded.written]

theorem Stage.part (hk : cfg.buffers.Lawful) (h : Stage cfg request tr s) : Part cfg request tr s := by
  unfold Stage at h
  cases hphase : s.phase with
  | head loop =>
    simp only [hphase] at h
    obtain ⟨-, taken, htaken, hprogress⟩ := h
    apply part_of_only htaken
    rw [← Sender.single_text hk request.plan.bytes]
    exact hprogress.taken_prefix
  | flushing | waiting begun =>
    simp only [hphase] at h
    exact part_of_only h.2.1 (List.prefix_refl _)
  | body sender =>
    simp only [hphase] at h
    obtain ⟨hopen, b, hhistory, hinv⟩ := h
    obtain ⟨fs, e, wire, calls, tail, -, -, -, hpre⟩ := Sender.inv_tail hk hinv
    exact part_of_behind hopen hhistory hpre
  | closing =>
    simp only [hphase] at h
    exact h.part
  | returned result =>
    cases result with
    | ok u =>
      simp only [hphase] at h
      exact h.part
    | error e =>
      simp only [hphase] at h
      exact h

theorem Open.later (h : Open cfg tr s) (more : List (UploadEvent D E × UploadOutput D E)) : Open cfg (tr ++ more) s :=
  ⟨h.mode, fun ha => (h.permitted ha).later more⟩

theorem stage_beginBody (hencoder : s.encoder = request.encoder)
    (hhistory : uploadHistory tr = .only request.plan.bytes) (hpermitted : s.awaits cfg = true → Permitted tr) :
    Stage cfg request tr s.beginBody := by
  unfold beginBody
  split_ifs with hmode
  · refine ⟨⟨hmode, hpermitted⟩, ⟨[], [], [], []⟩, ?_, ?_⟩
    · rw [hhistory]
      simp [SendHistory.only, SendHistory.behind]
    · rw [hencoder]
      exact Sender.inv_start x cfg.buffers request.encoder (some s.token)
  · exact .head (not_not.mp hmode) hhistory

theorem stage_afterHead (hk : cfg.buffers.Lawful) (hencoder : s.encoder = request.encoder) {taken : Bytes}
    (hhistory : uploadHistory tr = .only taken) {loop : WriteLoop Bytes W}
    (hprogress : loop.Progress cfg.buffers.single request.plan.bytes taken) :
    Stage cfg request tr (s.afterHead cfg loop) := by
  have hpre := hprogress.taken_prefix
  rw [Sender.single_text hk] at hpre
  unfold afterHead
  unfold WriteLoop.Progress at hprogress
  split
  · exact part_of_only hhistory hpre
  · rename_i total buffer hphase
    simp only [hphase, Sender.single_text hk] at hprogress
    obtain ⟨-, -, rfl⟩ := hprogress
    split_ifs with hawaits
    · refine ⟨hencoder, hhistory, ?_⟩
      intro hmode
      change s.mode = .none at hmode
      simp [awaits, hmode] at hawaits
    · exact stage_beginBody hencoder hhistory fun ha => absurd ha hawaits
  · exact ⟨hencoder, taken, hhistory, hprogress⟩

theorem stage_afterBody (hk : cfg.buffers.Lawful) (hopen : Open cfg tr s) {b : SendHistory D E}
    (hhistory : uploadHistory tr = b.behind request.plan.bytes) {sender : Sender D V W E}
    (hinv : Sender.SendInv x cfg.buffers request.encoder b sender) : Stage cfg request tr (s.afterBody cfg sender) := by
  unfold afterBody
  split
  · obtain ⟨fs, e, wire, calls, tail, -, -, -, hpre⟩ := Sender.inv_tail hk hinv
    exact part_of_behind ⟨hopen.mode, hopen.permitted⟩ hhistory hpre
  · rename_i stats hphase
    simp only [Sender.SendInv, hphase] at hinv
    obtain ⟨fs, hsucceeded⟩ := hinv
    exact .body ⟨hopen.mode, hopen.permitted⟩ hhistory hsucceeded
  · exact ⟨⟨hopen.mode, hopen.permitted⟩, b, hhistory, hinv⟩

theorem stage_body (hk : cfg.buffers.Lawful) (hopen : Open cfg tr s) {b : SendHistory D E}
    (hhistory : uploadHistory tr = b.behind request.plan.bytes) {sender sender' : Sender D V W E}
    (hinv : Sender.SendInv x cfg.buffers request.encoder b sender) (event : SendEvent D E) {send : SendOutput D E}
    (hs : sender.step x cfg.buffers event = some (sender', send)) (i : UploadEvent D E) :
    Stage cfg request (tr ++ [(i, ⟨send, false⟩)]) (s.afterBody cfg sender') := by
  apply stage_afterBody hk (hopen.later _) _ (Sender.inv_step hk hinv hs)
  rw [uploadHistory_concat, hhistory, SendHistory.behind_add]

theorem uploadHistory_quiet (tr : List (UploadEvent D E × UploadOutput D E)) (i : UploadEvent D E) (uploaded : Bool) :
    uploadHistory (tr ++ [(i, ⟨.quiet, uploaded⟩)]) = uploadHistory tr := by
  rw [uploadHistory_concat, SendHistory.add_quiet]

theorem Whole.later (h : Whole cfg request tr s) (i : UploadEvent D E) (uploaded : Bool) :
    Whole cfg request (tr ++ [(i, ⟨.quiet, uploaded⟩)]) s := by
  cases h with
  | head hmode hwritten =>
    apply Whole.head hmode
    rw [uploadHistory_quiet, hwritten]
  | body hopen hhistory hsucceeded =>
    apply Whole.body (hopen.later _) _ hsucceeded
    rw [uploadHistory_quiet, hhistory]

theorem Part.later (h : Part cfg request tr s) (i : UploadEvent D E) (uploaded : Bool) :
    Part cfg request (tr ++ [(i, ⟨.quiet, uploaded⟩)]) s := by
  constructor
  · rw [uploadHistory_quiet]
    exact h.written
  · rw [uploadHistory_quiet]
    intro hne
    exact ⟨(h.body hne).1, (h.body hne).2.later _⟩

theorem Part.congr (h : Part cfg request tr s) (hmode : s'.mode = s.mode) (hexpectation : s'.expectation = s.expectation) :
    Part cfg request tr s' := by
  refine ⟨h.written, fun hne => ?_⟩
  obtain ⟨hpre, hopen⟩ := h.body hne
  refine ⟨hpre, hmode ▸ hopen.mode, fun ha => hopen.permitted ?_⟩
  rw [← ha, awaits, awaits, hmode, hexpectation]

theorem Whole.congr (h : Whole cfg request tr s) (hmode : s'.mode = s.mode)
    (hexpectation : s'.expectation = s.expectation) : Whole cfg request tr s' := by
  cases h with
  | head hnone hwritten => exact .head (hmode.trans hnone) hwritten
  | body hopen hhistory hsucceeded =>
    apply Whole.body _ hhistory hsucceeded
    refine ⟨hmode ▸ hopen.mode, fun ha => hopen.permitted ?_⟩
    rw [← ha, awaits, awaits, hmode, hexpectation]

theorem stage_cancel (h : Stage cfg request tr s) : Stage cfg request (tr ++ [(.send .cancel, .quiet)]) s.cancel := by
  unfold Stage at h ⊢
  cases hphase : s.phase with
  | head loop =>
    simp only [hphase] at h
    obtain ⟨hencoder, taken, hhistory, hprogress⟩ := h
    simp only [cancel, hphase]
    refine ⟨hencoder, taken, ?_, hprogress⟩
    rw [UploadOutput.quiet, uploadHistory_quiet, hhistory]
  | flushing | waiting begun =>
    simp only [hphase] at h
    simp only [cancel, hphase]
    rw [UploadOutput.quiet, uploadHistory_quiet]
    exact h
  | body sender =>
    simp only [hphase] at h
    obtain ⟨hopen, b, hhistory, hinv⟩ := h
    simp only [cancel, hphase]
    refine ⟨⟨hopen.mode, (hopen.later _).permitted⟩, b, ?_, Sender.inv_cancel hinv⟩
    rw [UploadOutput.quiet, uploadHistory_quiet, hhistory]
  | closing =>
    simp only [hphase] at h
    simp only [cancel, hphase]
    exact (h.later _ _).congr rfl rfl
  | returned result =>
    cases result with
    | ok u =>
      simp only [hphase] at h
      simp only [cancel, hphase]
      exact (h.later _ _).congr rfl rfl
    | error e =>
      simp only [hphase] at h
      simp only [cancel, hphase]
      exact (h.later _ _).congr rfl rfl

theorem stage_flushed {result : Except IoError Unit} (hk : cfg.buffers.Lawful) (h : Stage cfg request tr s)
    (hs : s.flushed cfg result = some (s', o)) :
    Stage cfg request (tr ++ [(.send (.flushed result), o)]) s' := by
  have hpart := h.part hk
  unfold Stage at h
  unfold flushed at hs
  cases hphase : s.phase with
  | head loop | waiting begun | returned result => simp [hphase] at hs
  | flushing =>
    simp only [hphase] at h hs
    cases result with
    | error e =>
      cases hs
      exact (hpart.later _ _).congr rfl rfl
    | ok u =>
      cases hs
      refine ⟨h.1, ?_, h.2.2⟩
      rw [UploadOutput.quiet, uploadHistory_quiet, h.2.1]
  | body sender =>
    simp only [hphase] at h hs
    obtain ⟨hopen, b, hhistory, hinv⟩ := h
    obtain ⟨⟨sender', send⟩, hstep, heq⟩ := Option.map_eq_some_iff.mp hs
    cases heq
    exact stage_body hk hopen hhistory hinv (.flushed result) hstep _
  | closing =>
    simp only [hphase] at h hs
    cases result with
    | error e =>
      cases hs
      exact (hpart.later _ _).congr rfl rfl
    | ok u =>
      cases hs
      exact (h.later _ _).congr rfl rfl

theorem stage_advance {i : WriteEvent} (hk : cfg.buffers.Lawful) (h : Stage cfg request tr s)
    (hs : s.advance cfg i = some (s', o)) {event : SendEvent D E}
    (hevent : ∀ sender : Sender D V W E, sender.advance cfg.buffers i = sender.step x cfg.buffers event) :
    Stage cfg request (tr ++ [(.send event, o)]) s' := by
  unfold Stage at h
  unfold advance at hs
  cases hphase : s.phase with
  | flushing | waiting begun | closing | returned result => simp [hphase] at hs
  | head loop =>
    simp only [hphase] at h hs
    obtain ⟨hencoder, taken, hhistory, hprogress⟩ := h
    obtain ⟨⟨loop', write⟩, hstep, heq⟩ := Option.map_eq_some_iff.mp hs
    cases heq
    apply stage_afterHead hk hencoder _ (hprogress.step hk.single_lawful hstep)
    rw [uploadHistory_concat, hhistory, SendHistory.only_add]
  | body sender =>
    simp only [hphase] at h hs
    obtain ⟨hopen, b, hhistory, hinv⟩ := h
    obtain ⟨⟨sender', send⟩, hstep, heq⟩ := Option.map_eq_some_iff.mp hs
    cases heq
    rw [hevent] at hstep
    exact stage_body hk hopen hhistory hinv event hstep _

theorem stage_poll {next : Option (Produced D E)} (hk : cfg.buffers.Lawful) (h : Stage cfg request tr s)
    (hs : s.poll x cfg next = some (s', o)) : Stage cfg request (tr ++ [(.send (.poll next), o)]) s' := by
  unfold Stage at h
  unfold poll at hs
  cases hphase : s.phase with
  | head loop | flushing | waiting begun | closing | returned result => simp [hphase] at hs
  | body sender =>
    simp only [hphase] at h hs
    obtain ⟨hopen, b, hhistory, hinv⟩ := h
    obtain ⟨⟨sender', send⟩, hstep, heq⟩ := Option.map_eq_some_iff.mp hs
    cases heq
    exact stage_body hk hopen hhistory hinv (.poll next) hstep _

theorem stage_wait {p : ContinuePoll} (hk : cfg.buffers.Lawful) (h : Stage cfg request tr s)
    (hs : s.wait p = some (s', o)) : Stage cfg request (tr ++ [(.wait p, o)]) s' := by
  have hpart := h.part hk
  unfold Stage at h
  unfold wait at hs
  cases hphase : s.phase with
  | head loop | flushing | body sender | closing | returned result => simp [hphase] at hs
  | waiting begun =>
    simp only [hphase] at h hs
    split_ifs at hs with hoverflow htoken hgranted
    · cases hs
      exact (hpart.later _ _).congr rfl rfl
    · cases hs
      exact (hpart.later _ _).congr rfl rfl
    · cases hs
      apply stage_beginBody h.1
      · rw [UploadOutput.quiet, uploadHistory_quiet, h.2.1]
      · intro ha
        refine ⟨_, List.mem_append_right _ (List.mem_singleton_self _), p, rfl, ?_⟩
        simpa using hgranted
    · cases hs
      refine ⟨h.1, ?_, h.2.2⟩
      rw [UploadOutput.quiet, uploadHistory_quiet, h.2.1]

theorem stage_step (hk : cfg.buffers.Lawful) (h : Stage cfg request tr s) (hs : s.step x cfg i = some (s', o)) :
    Stage cfg request (tr ++ [(i, o)]) s' := by
  cases i with
  | wait p => exact stage_wait hk h hs
  | send event =>
    cases event with
    | cancel =>
      cases hs
      exact stage_cancel h
    | poll next => exact stage_poll hk h hs
    | flushed result => exact stage_flushed hk h hs
    | resume => exact stage_advance hk h hs fun _ => rfl
    | completed result => exact stage_advance hk h hs fun _ => rfl

end Upload

end Vakya
