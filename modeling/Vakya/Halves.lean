import Vakya.ClientExchange
import Vakya.ExchangeControl
import Vakya.UploadRun

/-!
# The halves of an exchange

Every step of an exchange is a run of each of its halves, so what holds of a half on its own holds of
it here. What couples them is small: the cancellation that both read, the record of a complete upload,
and the composition of their results, which happens once both have returned.
-/

namespace Vakya

open Library

variable {x : Crates} {D V W E U : Type}

namespace ClientReceive

variable {cfg : ClientConfig} {s s' : ClientReceive U} {call : ClientCall U} {out : ClientOutput U}

/-- Requests to cancel and to abort stand, and only the upload records that it is complete. -/
structure Grows (call : ClientCall U) (c c' : Control U) : Prop where
  upload : c.upload = true → c'.upload = true
  exchange : c.exchange = true → c'.exchange = true
  aborted : c.aborted = true → c'.aborted = true
  uploadComplete : call ≠ .uploaded → c'.uploadComplete = c.uploadComplete
  complete : c.uploadComplete = true → c'.uploadComplete = true ∧ c'.aborted = c.aborted

theorem Grows.same (call : ClientCall U) {c c' : Control U} (h : c' = c) : Grows call c c' := by
  subst h
  exact ⟨id, id, id, fun _ => rfl, fun h => ⟨h, rfl⟩⟩

theorem grows_of_step (hs : s.step x cfg call = some (s', out)) : Grows call s.control s'.control := by
  have hcancel (call : ClientCall U) (c : Control U) : Grows call c c.cancel :=
    ⟨fun _ => rfl, fun _ => rfl, id, fun _ => rfl, fun h => ⟨h, rfl⟩⟩
  by_cases hpending : ∃ call', call = .pending call'
  · obtain ⟨call, rfl⟩ := hpending
    obtain ⟨o, -, -, hcontrol⟩ := pending_of_step hs
    rw [hcontrol]
    split_ifs
    · exact hcancel _ _
    · exact .same _ rfl
  · rw [(control_of_step (fun call heq => hpending ⟨call, heq⟩) hs).1]
    cases call with
    | cancel => exact hcancel _ _
    | abort =>
      show Grows .abort s.control s.control.abort
      unfold Control.abort
      split_ifs with hcomplete
      · exact .same _ rfl
      · exact ⟨fun _ => rfl, id, fun _ => rfl, fun _ => rfl, fun h => absurd h hcomplete⟩
    | uploaded => exact ⟨id, id, id, fun h => absurd rfl h, fun _ => ⟨rfl, rfl⟩⟩
    | poll p | body call | fail e | pollContinue w => exact .same _ rfl
    | drop | dropContinue | releaseLease => exact .same _ rfl
    | pending call => exact absurd ⟨call, rfl⟩ hpending

theorem point_of_step (hpoll : ∀ p, call ≠ .poll p) (hdrop : call ≠ .drop) (hs : s.step x cfg call = some (s', out)) :
    s'.point = s.point := by
  cases call with
  | poll p => exact absurd rfl (hpoll p)
  | drop => exact absurd rfl hdrop
  | fail e =>
    simp only [step] at hs
    split at hs
    · rename_i result hpoint
      simp only [act] at hs
      split at hs
      · cases hs
      · obtain ⟨r, hr, heq⟩ := Option.map_eq_some_iff.mp hs
        cases hr
        cases heq
        rfl
    · cases hs
  | cancel | abort | uploaded | pollContinue w | dropContinue =>
    cases hs
    rfl
  | pending call =>
    simp only [step] at hs
    split_ifs at hs
    obtain ⟨r, -, heq⟩ := Option.map_eq_some_iff.mp hs
    cases heq
    rfl
  | body call =>
    simp only [step] at hs
    split at hs
    · split_ifs at hs
      obtain ⟨r, -, heq⟩ := Option.map_eq_some_iff.mp hs
      cases heq
      rfl
    · cases hs
  | releaseLease =>
    simp only [step, releaseLease] at hs
    split at hs
    · obtain ⟨r, -, heq⟩ := Option.map_eq_some_iff.mp hs
      cases heq
      rfl
    · split at hs
      · cases hs
        rfl
      · cases hs

theorem point_of_act {t : ClientReceive U} {call : EventCall U}
    {k : ClientReceive U → PipeEvent ResponseEvent Error → Result U} {point : ClientPoint}
    (h : t.act call k = some (s', out))
    (hk : ∀ pending e s₁ out₁, k { t with pending } e = some (s₁, out₁) → s₁.point = point) : s'.point = point := by
  simp only [act] at h
  split at h
  · cases h
  · obtain ⟨⟨s₁, out₁⟩, hr, heq⟩ := Option.map_eq_some_iff.mp h
    cases heq
    exact hk _ _ _ _ hr

theorem drop_point (hs : s.step x cfg .drop = some (s', out)) : s'.point = .dropped := by
  simp only [step, drop] at hs
  have hproducer {t : ClientReceive U} {o : ClientOutput U} {r : ClientReceive U × ClientOutput U}
      (ht : t.point = .dropped) (h : t.act .dropProducer (fun s _ => some (s, o)) = some r) : r.1.point = .dropped := by
    apply point_of_act h
    intro pending e s₁ out₁ h
    cases h
    exact ht
  split at hs
  · cases hs
  · apply point_of_act hs
    intro pending e s₁ out₁ h
    exact hproducer rfl h
  · apply point_of_act hs
    intro pending e s₁ out₁ h
    exact hproducer rfl h
  · split_ifs at hs
    · exact hproducer rfl hs
    · cases hs
      rfl

theorem poll_returned {result : Except Error ReceivedResponse} (h : s.point = .returned result) (p : ClientPoll U) :
    s.step x cfg (.poll p) = none := by
  simp only [step, poll]
  rw [h]

end ClientReceive

theorem finishExchange_reusable {sent : Except Error Unit} {received : Except Error ReceivedResponse} {aborted : Bool}
    {buffer : Bytes} {reason : CloseReason}
    (h : ClientDriver.finishExchange sent received aborted = .ok ⟨buffer, .reusable, reason⟩) :
    sent = .ok () ∧ aborted = false ∧ reason = .messagePolicy ∧
      ∃ policy, received = .ok ⟨.complete, buffer, policy⟩ ∧ policy.finish .complete .complete = .ok .reusable := by
  have hretired (p : ExchangePolicy) (request response : ActivityEnd)
      (hr : request = .retired ∨ response = .retired) : p.finish request response = .ok .close := by
    rw [ExchangePolicy.finish, if_pos hr]
  unfold ClientDriver.finishExchange at h
  split at h
  · split at h
    · split_ifs at h
    · cases h
  · cases h
  · split at h
    · split_ifs at h
      rw [hretired _ _ _ (.inl rfl)] at h
      cases h
    · rw [hretired _ _ _ (.inl rfl)] at h
      cases h
  · rename_i buffer policy
    dsimp only at h
    split at h
    · split_ifs at h
      · rw [hretired _ _ _ (.inl rfl)] at h
        cases h
      · rw [hretired _ _ _ (.inl rfl)] at h
        cases h
    · cases aborted with
      | true =>
        simp only [if_true] at h
        rw [hretired _ _ _ (.inl rfl)] at h
        cases h
      | false =>
        simp only [Bool.false_eq_true, if_false] at h
        cases hfinish : policy.finish .complete .complete with
        | error e =>
          rw [hfinish] at h
          cases h
        | ok outcome =>
          rw [hfinish] at h
          cases h
          exact ⟨rfl, rfl, rfl, policy, rfl, hfinish⟩

namespace ClientExchange

variable {cfg : ExchangeConfig D V W} {s s' : ClientExchange D V W E U} {p : Doing D V W E U}
  {o : ClientExchangeOutput D E U} {i : ClientExchangeCall D E U}

/-- What an operation has done so far is a run of each half. -/
structure Runs (x : Crates) (cfg : ExchangeConfig D V W) (s : ClientExchange D V W E U) (p : Doing D V W E U) :
    Prop where
  receive : (clientReceive U x cfg.client).Reaches s.receive p.2.receive p.1.receive
  upload : (Vakya.upload E x cfg.upload).Reaches s.upload p.2.upload p.1.upload

theorem runs_begin (x : Crates) (cfg : ExchangeConfig D V W) (s : ClientExchange D V W E U) : Runs x cfg s s.begin := ⟨.start, .start⟩

theorem Runs.onReceive (h : Runs x cfg s p) (call : ClientCall U) : Runs x cfg s (onReceive x cfg p call) := by
  unfold ClientExchange.onReceive
  split
  · exact h
  · rename_i receive out hstep
    exact ⟨h.receive.step hstep, h.upload⟩

theorem Runs.onUpload (h : Runs x cfg s p) (event : UploadEvent D E) : Runs x cfg s (onUpload x cfg p event) := by
  unfold ClientExchange.onUpload
  split
  · exact h
  · rename_i upload out hstep
    exact ⟨h.receive, h.upload.step hstep⟩

theorem Runs.sync (h : Runs x cfg s p) : Runs x cfg s (sync x cfg p) := by
  unfold ClientExchange.sync
  split_ifs
  · exact h.onUpload _
  · exact h

theorem Runs.cancel (h : Runs x cfg s p) : Runs x cfg s (cancel x cfg p) := (h.onReceive _).sync

theorem Runs.settle (h : Runs x cfg s p) (sent : Except Error Unit) (received : Except Error ReceivedResponse) :
    Runs x cfg s (settle x cfg p sent received) := by
  unfold ClientExchange.settle
  dsimp only
  split
  · exact ⟨(h.onReceive _).receive, (h.onReceive _).upload⟩
  · exact ⟨h.receive, h.upload⟩

theorem Runs.afterPoll (h : Runs x cfg s p) : Runs x cfg s (afterPoll x cfg p) := by
  unfold ClientExchange.afterPoll afterReceive
  split
  · split
    · exact h.settle _ _
    · split_ifs
      · exact h.cancel
      · exact h
  · exact h

theorem Runs.afterTurn (h : Runs x cfg s p) : Runs x cfg s (afterTurn x cfg p) := by
  unfold ClientExchange.afterTurn afterSend
  split
  · split
    · exact h.settle _ _
    · split_ifs
      · exact h.cancel
      · exact h
  · exact h

/-- One step of an exchange, by what its halves do in it. -/
inductive Move (x : Crates) (cfg : ExchangeConfig D V W) (s : ClientExchange D V W E U) :
    ClientExchangeCall D E U → Doing D V W E U → Prop
  | polled {q : ClientPoll U} {receive : ClientReceive U} {out : ClientOutput U} (hsettled : s.settled = none)
    (hdropped : s.dropped = false) (hstep : s.receive.step x cfg.client (.poll q) = some (receive, out)) :
    Move x cfg s (.receive (.poll q)) (afterPoll x cfg (sync x cfg (onReceive x cfg s.begin (.poll q))))
  | called {call : ClientCall U} {receive : ClientReceive U} {out : ClientOutput U} (hpermits : s.permits call = true)
    (hpoll : ∀ q, call ≠ .poll q) (hstep : s.receive.step x cfg.client call = some (receive, out)) :
    Move x cfg s (.receive call) (sync x cfg (onReceive x cfg s.begin call))
  | sent {event : SendEvent D E} {upload : Upload D V W E} {out : UploadOutput D E} (hdropped : s.dropped = false)
    (hevent : event ≠ .cancel) (hstep : s.upload.step x cfg.upload (.send event) = some (upload, out))
    (hout : out.uploaded = false) :
    Move x cfg s (.send event) (afterTurn x cfg (onUpload x cfg s.begin (.send event)))
  | uploaded {event : SendEvent D E} {upload : Upload D V W E} {out : UploadOutput D E} (hdropped : s.dropped = false)
    (hevent : event ≠ .cancel) (hstep : s.upload.step x cfg.upload (.send event) = some (upload, out))
    (hout : out.uploaded = true) :
    Move x cfg s (.send event)
      (afterTurn x cfg (onReceive x cfg (onUpload x cfg s.begin (.send event)) .uploaded))
  /-- The wait ends before it is polled. -/
  | stopped {waker : U} {overflow expired begun : Bool} (hdropped : s.dropped = false)
    (hphase : s.upload.phase = .waiting begun) :
    Move x cfg s (.wait waker overflow expired)
      (afterTurn x cfg (onReceive x cfg (onUpload x cfg s.begin (.wait ⟨overflow, false, expired⟩)) .dropContinue))
  | waited {waker : U} {overflow begun : Bool} {receive : ClientReceive U} {out : ClientOutput U}
    (hdropped : s.dropped = false) (hphase : s.upload.phase = .waiting begun)
    (hclear : ¬ (!begun && overflow || s.upload.token) = true)
    (hstep : s.receive.step x cfg.client (.pollContinue waker) = some (receive, out)) :
    Move x cfg s (.wait waker overflow false)
      (onUpload x cfg (onReceive x cfg s.begin (.pollContinue waker)) (.wait ⟨overflow, out.permitted, false⟩))
  | expired {waker : U} {overflow begun : Bool} {receive : ClientReceive U} {out : ClientOutput U}
    (hdropped : s.dropped = false) (hphase : s.upload.phase = .waiting begun)
    (hclear : ¬ (!begun && overflow || s.upload.token) = true)
    (hstep : s.receive.step x cfg.client (.pollContinue waker) = some (receive, out)) :
    Move x cfg s (.wait waker overflow true)
      (onReceive x cfg (onUpload x cfg (onReceive x cfg s.begin (.pollContinue waker))
        (.wait ⟨overflow, out.permitted, true⟩)) .dropContinue)
  | dropped {receive : ClientReceive U} {out : ClientOutput U} (hsettled : s.settled = none)
    (hdropped : s.dropped = false) (hstep : s.receive.step x cfg.client .drop = some (receive, out)) :
    Move x cfg s .drop
      ({ (onReceive x cfg (onReceive x cfg s.begin .drop) .dropContinue).1 with dropped := true },
        (onReceive x cfg (onReceive x cfg s.begin .drop) .dropContinue).2)

theorem move_of_receiveStep {call : ClientCall U} (hs : s.receiveStep x cfg call = some p) :
    Move x cfg s (.receive call) p := by
  unfold receiveStep at hs
  split_ifs at hs with hpermits
  obtain ⟨⟨receive, out⟩, hstep, rfl⟩ := Option.map_eq_some_iff.mp hs
  cases call with
  | poll q =>
    simp only [permits, Bool.and_eq_true, Option.isNone_iff_eq_none, Bool.not_eq_true'] at hpermits
    exact .polled hpermits.1 hpermits.2 hstep
  | pending call | body call | releaseLease | cancel | abort => exact .called hpermits (by simp) hstep
  | uploaded | pollContinue w | dropContinue | fail e | drop => cases hpermits

theorem move_of_sendStep {event : SendEvent D E} (hs : s.sendStep x cfg event = some p) :
    Move x cfg s (.send event) p := by
  unfold sendStep at hs
  split_ifs at hs with hdropped
  rw [Bool.not_eq_true] at hdropped
  split at hs
  · cases hs
  · rename_i hevent
    obtain ⟨⟨upload, out⟩, hstep, rfl⟩ := Option.map_eq_some_iff.mp hs
    dsimp only
    split_ifs with hout
    · exact .uploaded hdropped hevent hstep hout
    · exact .sent hdropped hevent hstep (Bool.not_eq_true _ ▸ hout)

theorem move_of_waitStep {waker : U} {overflow expired : Bool}
    (hs : s.waitStep x cfg waker overflow expired = some p) : Move x cfg s (.wait waker overflow expired) p := by
  unfold waitStep at hs
  split at hs
  · cases hs
  rename_i hdropped
  rw [Bool.not_eq_true] at hdropped
  split at hs
  · rename_i begun hphase
    split at hs
    · cases hs
      exact .stopped hdropped hphase
    · rename_i hclear
      obtain ⟨⟨receive, out⟩, hstep, rfl⟩ := Option.map_eq_some_iff.mp hs
      cases expired with
      | true => exact .expired hdropped hphase hclear hstep
      | false => exact .waited hdropped hphase hclear hstep
  · cases hs

theorem move_of_step (hs : s.step x cfg i = some p) : Move x cfg s i p := by
  cases i with
  | receive call => exact move_of_receiveStep hs
  | send event => exact move_of_sendStep hs
  | wait waker overflow expired => exact move_of_waitStep hs
  | drop =>
    simp only [step, drop] at hs
    split_ifs at hs with hopen
    obtain ⟨⟨receive, out⟩, hstep, rfl⟩ := Option.map_eq_some_iff.mp hs
    simp only [Bool.or_eq_true, not_or, Bool.not_eq_true, Option.isSome_eq_false_iff, Option.isNone_iff_eq_none] at hopen
    exact .dropped hopen.2 hopen.1 hstep

/-- Every step is a run of each half. -/
theorem runs_step (hs : s.step x cfg i = some p) : Runs x cfg s p := by
  have hbegin := runs_begin x cfg s
  cases move_of_step hs with
  | polled => exact (hbegin.onReceive _).sync.afterPoll
  | called => exact (hbegin.onReceive _).sync
  | sent => exact (hbegin.onUpload _).afterTurn
  | uploaded => exact ((hbegin.onUpload _).onReceive _).afterTurn
  | stopped => exact ((hbegin.onUpload _).onReceive _).afterTurn
  | waited => exact (hbegin.onReceive _).onUpload _
  | expired => exact ((hbegin.onReceive _).onUpload _).onReceive _
  | dropped =>
    have hruns := (hbegin.onReceive .drop).onReceive .dropContinue
    exact ⟨hruns.receive, hruns.upload⟩

def receiveTrace (tr : List (ClientExchangeCall D E U × ClientExchangeOutput D E U)) :
    List (ClientCall U × ClientOutput U) := tr.flatMap fun y => y.2.receive

def uploadTrace (tr : List (ClientExchangeCall D E U × ClientExchangeOutput D E U)) :
    List (UploadEvent D E × UploadOutput D E) := tr.flatMap fun y => y.2.upload

variable {tr : List (ClientExchangeCall D E U × ClientExchangeOutput D E U)} {s₀ : ClientExchange D V W E U}

theorem receive_reaches (hrun : (clientExchange E U x cfg).Reaches s₀ tr s) :
    (clientReceive U x cfg.client).Reaches s₀.receive (receiveTrace tr) s.receive :=
  hrun.component (·.receive) (fun y => y.2.receive) fun _ _ _ _ hs => (runs_step hs).receive

theorem upload_reaches (hrun : (clientExchange E U x cfg).Reaches s₀ tr s) :
    (Vakya.upload E x cfg.upload).Reaches s₀.upload (uploadTrace tr) s.upload :=
  hrun.component (·.upload) (fun y => y.2.upload) fun _ _ _ _ hs => (runs_step hs).upload

def SentFailed (s : ClientExchange D V W E U) : Prop :=
  ∀ e, s.sent = some (.error e) → e.isCanceled = false ∨ s.receive.control.aborted = false →
    s.receive.control.exchange = true

/-- Whether a response that failed, or was abandoned, has canceled the upload. -/
def ReceivedFailed (s : ClientExchange D V W E U) : Prop :=
  ∀ r, s.received = some r → receivedCancels r = true → s.receive.control.exchange = true

/-- The halves read the same cancellation, and the upload is recorded to be complete when it is. -/
structure Joined (s : ClientExchange D V W E U) : Prop where
  shared : s.upload.Shared
  token : s.upload.token = s.receive.control.upload
  uploaded : s.receive.control.uploadComplete = true ↔ s.upload.phase = .returned (.ok ())

/-- What holds of an exchange at any moment. -/
structure Coupled (s : ClientExchange D V W E U) : Prop extends Joined s where
  settled : ∀ r, s.settled = some r → s.dropped = false ∧ ∃ sent received aborted, s.sent = some sent ∧
    s.received = some received ∧ r = ClientDriver.finishExchange sent received aborted ∧
      (sent = .ok () → aborted = s.receive.control.aborted)
  both : s.sent.isSome = true → s.received.isSome = true → s.settled.isSome = true
  sentFailed : s.received = none → SentFailed s
  receivedFailed : s.sent = none → ReceivedFailed s

theorem coupled_start (cfg : ExchangeConfig D V W) (request : RequestUpload x) (b : RecvBuffer) :
    Coupled (start cfg request b : ClientExchange D V W E U) where
  shared := rfl
  token := rfl
  uploaded := by simp [start, ClientReceive.start, Control.new, Upload.start]
  settled := fun r h => by cases h
  both := fun h => by cases h
  sentFailed := fun _ e h => by cases h
  receivedFailed := fun _ r h => by cases h

theorem sent_cancel (s : ClientExchange D V W E U) : { s with upload := s.upload.cancel }.sent = s.sent := by
  unfold sent Upload.cancel
  cases s.upload.phase <;> rfl

theorem sync_same (x : Crates) (cfg : ExchangeConfig D V W) (p : Doing D V W E U) :
    (sync x cfg p).1.receive = p.1.receive ∧ (sync x cfg p).1.sent = p.1.sent ∧
      (sync x cfg p).1.settled = p.1.settled ∧ (sync x cfg p).1.dropped = p.1.dropped := by
  unfold sync
  split_ifs
  · exact ⟨rfl, sent_cancel p.1, rfl, rfl⟩
  · exact ⟨rfl, rfl, rfl, rfl⟩

theorem joined_sync (hshared : p.1.upload.Shared)
    (htoken : p.1.upload.token = true → p.1.receive.control.upload = true)
    (huploaded : p.1.receive.control.uploadComplete = true ↔ p.1.upload.phase = .returned (.ok ())) :
    Joined (sync x cfg p).1 := by
  unfold sync
  split_ifs with hcanceled
  · simp only [Bool.and_eq_true] at hcanceled
    exact ⟨Upload.shared_cancel hshared, hcanceled.1.symm, huploaded.trans (Upload.cancel_phase _).symm⟩
  · refine ⟨hshared, ?_, huploaded⟩
    cases hu : p.1.receive.control.upload with
    | true => simpa [hu] using hcanceled
    | false =>
      cases ht : p.1.upload.token with
      | true =>
        rw [htoken ht] at hu
        cases hu
      | false => rfl

theorem cancel_same (x : Crates) (cfg : ExchangeConfig D V W) (p : Doing D V W E U) :
    (cancel x cfg p).1.receive = { p.1.receive with control := p.1.receive.control.cancel } ∧
      (cancel x cfg p).1.sent = p.1.sent ∧ (cancel x cfg p).1.settled = p.1.settled ∧
      (cancel x cfg p).1.dropped = p.1.dropped := sync_same x cfg (onReceive x cfg p .cancel)

theorem joined_cancel (h : Joined p.1) : Joined (cancel x cfg p).1 :=
  joined_sync (p := onReceive x cfg p .cancel) h.shared (fun _ => rfl) h.uploaded

theorem onReceive_fail (x : Crates) (cfg : ExchangeConfig D V W) (p : Doing D V W E U) (e : Error) :
    (onReceive x cfg p (.fail e)).1.receive.control = p.1.receive.control ∧
      (onReceive x cfg p (.fail e)).1.receive.point = p.1.receive.point ∧
      (onReceive x cfg p (.fail e)).1.upload = p.1.upload ∧
      (onReceive x cfg p (.fail e)).1.dropped = p.1.dropped := by
  unfold onReceive
  split
  · exact ⟨rfl, rfl, rfl, rfl⟩
  · rename_i receive out hstep
    have hpoint := ClientReceive.point_of_step (by simp) (by simp) hstep
    refine ⟨?_, hpoint, rfl, rfl⟩
    simp only [ClientReceive.step] at hstep
    split at hstep
    · exact (ClientReceive.Drives.act (P := fun _ => True) trivial (fun _ _ => .suspend) receive out hstep).control
    · cases hstep

theorem coupled_settle (h : Joined p.1) (hdropped : p.1.dropped = false) {sent : Except Error Unit}
    {received : Except Error ReceivedResponse} (hsent : p.1.sent = some sent) (hreceived : p.1.received = some received) :
    Coupled (settle x cfg p sent received).1 := by
  have hdone {t : ClientExchange D V W E U} (hcontrol : t.receive.control = p.1.receive.control)
      (hpoint : t.receive.point = p.1.receive.point) (hupload : t.upload = p.1.upload)
      (hd : t.dropped = p.1.dropped) :
      Coupled { t with settled := some (ClientDriver.finishExchange sent received p.1.receive.control.aborted) } := by
    have hsent' : t.sent = some sent := by rw [← hsent, ClientExchange.sent, ClientExchange.sent, hupload]
    have hreceived' : t.received = some received := by
      rw [← hreceived, ClientExchange.received, ClientExchange.received, hpoint]
    refine ⟨⟨?_, ?_, ?_⟩, ?_, fun _ _ => rfl, fun hnone => ?_, fun hnone => ?_⟩
    · show t.upload.Shared
      rw [hupload]
      exact h.shared
    · show t.upload.token = t.receive.control.upload
      rw [hupload, hcontrol]
      exact h.token
    · show t.receive.control.uploadComplete = true ↔ t.upload.phase = _
      rw [hupload, hcontrol]
      exact h.uploaded
    · rintro r hr
      refine ⟨hd.trans hdropped, sent, received, _, hsent', hreceived', (Option.some.inj hr).symm, fun _ => ?_⟩
      show _ = t.receive.control.aborted
      rw [hcontrol]
    · exact absurd (hnone.symm.trans hreceived') (by simp)
    · exact absurd (hnone.symm.trans hsent') (by simp)
  unfold settle
  dsimp only
  split
  · rename_i e hresult
    obtain ⟨hcontrol, hpoint, hupload, hd⟩ := onReceive_fail x cfg p e
    exact hdone hcontrol hpoint hupload hd
  · exact hdone rfl rfl rfl rfl

theorem coupled_afterPoll (h : Joined p.1) (hdropped : p.1.dropped = false) (hsettled : p.1.settled = none)
    (hfailed : SentFailed p.1) : Coupled (afterPoll x cfg p).1 := by
  unfold afterPoll
  split
  · rename_i received hreceived
    unfold afterReceive
    split
    · rename_i sent hsent
      exact coupled_settle h hdropped hsent hreceived
    · rename_i hsent
      split_ifs with hcancels
      · obtain ⟨hreceive, hsame, hset, hd⟩ := cancel_same x cfg p
        refine ⟨joined_cancel h, fun r hr => ?_, fun hs => ?_, fun _ e he _ => ?_, fun _ r hr _ => ?_⟩
        · rw [hset, hsettled] at hr
          cases hr
        · rw [hsame, hsent] at hs
          cases hs
        · rw [hreceive]
          rfl
        · rw [hreceive]
          rfl
      · refine ⟨h, fun r hr => ?_, fun hs => ?_, fun _ => hfailed, fun _ r hr hc => ?_⟩
        · rw [hsettled] at hr
          cases hr
        · rw [hsent] at hs
          cases hs
        · rw [hreceived] at hr
          cases hr
          exact absurd hc hcancels
  · rename_i hreceived
    refine ⟨h, fun r hr => ?_, fun _ hr => ?_, fun _ => hfailed, fun _ r hr => ?_⟩
    · rw [hsettled] at hr
      cases hr
    · rw [hreceived] at hr
      cases hr
    · rw [hreceived] at hr
      cases hr

theorem coupled_afterTurn (h : Joined p.1) (hdropped : p.1.dropped = false) (hsettled : p.1.settled = none)
    (hfailed : ReceivedFailed p.1) : Coupled (afterTurn x cfg p).1 := by
  unfold afterTurn
  split
  · rename_i sent hsent
    unfold afterSend
    split
    · rename_i received hreceived
      exact coupled_settle h hdropped hsent hreceived
    · rename_i hreceived
      split_ifs with hcancels
      · obtain ⟨hreceive, hsame, hset, hd⟩ := cancel_same x cfg p
        refine ⟨joined_cancel h, fun r hr => ?_, fun _ hr => ?_, fun _ e he _ => ?_, fun _ r hr _ => ?_⟩
        · rw [hset, hsettled] at hr
          cases hr
        · have hnone : (cancel x cfg p).1.received = p.1.received := by
            rw [ClientExchange.received, hreceive]
            rfl
          rw [hnone, hreceived] at hr
          cases hr
        · rw [hreceive]
          rfl
        · rw [hreceive]
          rfl
      · refine ⟨h, fun r hr => ?_, fun _ hr => ?_, fun _ e he hc => ?_, fun _ => hfailed⟩
        · rw [hsettled] at hr
          cases hr
        · rw [hreceived] at hr
          cases hr
        · rw [hsent] at he
          cases he
          exfalso
          apply hcancels
          rcases hc with hc | hc
          · simp [sentCancels, hc]
          · simp [sentCancels, hc]
  · rename_i hsent
    refine ⟨h, fun r hr => ?_, fun hs => ?_, fun _ e he => ?_, fun _ => hfailed⟩
    · rw [hsettled] at hr
      cases hr
    · rw [hsent] at hs
      cases hs
    · rw [hsent] at he
      cases he

theorem onReceive_eq {call : ClientCall U} {receive : ClientReceive U} {out : ClientOutput U}
    (hs : p.1.receive.step x cfg.client call = some (receive, out)) :
    onReceive x cfg p call = ({ p.1 with receive }, { p.2 with receive := p.2.receive ++ [(call, out)] }) := by
  simp only [onReceive, hs]

theorem onUpload_eq {event : UploadEvent D E} {upload : Upload D V W E} {out : UploadOutput D E}
    (hs : p.1.upload.step x cfg.upload event = some (upload, out)) :
    onUpload x cfg p event = ({ p.1 with upload }, { p.2 with upload := p.2.upload ++ [(event, out)] }) := by
  simp only [onUpload, hs]

theorem received_eq {r : Except Error ReceivedResponse} : s.received = some r ↔ s.receive.point = .returned r := by
  unfold received
  cases s.receive.point <;> simp

theorem sent_eq {r : Except Error Unit} : s.sent = some r ↔ s.upload.phase = .returned r := by
  unfold sent
  cases s.upload.phase <;> simp

theorem joined_receive (h : Joined s) {call : ClientCall U} {receive : ClientReceive U} {out : ClientOutput U}
    (hcall : call ≠ .uploaded) (hs : s.receive.step x cfg.client call = some (receive, out)) :
    Joined (sync x cfg (onReceive x cfg s.begin call)).1 ∧
      (sync x cfg (onReceive x cfg s.begin call)).1.receive = receive ∧
      (sync x cfg (onReceive x cfg s.begin call)).1.sent = s.sent ∧
      (sync x cfg (onReceive x cfg s.begin call)).1.settled = s.settled ∧
      (sync x cfg (onReceive x cfg s.begin call)).1.dropped = s.dropped := by
  have hgrows := ClientReceive.grows_of_step hs
  obtain ⟨hreceive, hsent, hsettled, hdropped⟩ := sync_same x cfg (onReceive x cfg s.begin call)
  have heq := onReceive_eq (p := s.begin) hs
  refine ⟨?_, ?_, hsent.trans ?_, hsettled.trans ?_, hdropped.trans ?_⟩
  · apply joined_sync
    · rw [heq]
      exact h.shared
    · rw [heq]
      intro htoken
      exact hgrows.upload (h.token.symm.trans htoken)
    · rw [heq]
      show receive.control.uploadComplete = true ↔ _
      rw [hgrows.uploadComplete hcall]
      exact h.uploaded
  · rw [hreceive, heq]
  · rw [heq]
    rfl
  · rw [heq]
    rfl
  · rw [heq]
    rfl

theorem SentFailed.later (h : SentFailed s) {call : ClientCall U} (hsent : s'.sent = s.sent)
    (hgrows : ClientReceive.Grows call s.receive.control s'.receive.control) : SentFailed s' := by
  intro e he hc
  apply hgrows.exchange
  apply h e (hsent.symm.trans he)
  refine hc.imp_right fun hc => ?_
  cases ha : s.receive.control.aborted with
  | false => rfl
  | true =>
    rw [hgrows.aborted ha] at hc
    cases hc

theorem Coupled.outside (h : Coupled s) {call : ClientCall U} {receive : ClientReceive U} {out : ClientOutput U}
    (hcall : call ≠ .uploaded) (hpoll : ∀ p, call ≠ .poll p) (hdrop : call ≠ .drop)
    (hs : s.receive.step x cfg.client call = some (receive, out)) :
    Coupled (sync x cfg (onReceive x cfg s.begin call)).1 := by
  have hgrows := ClientReceive.grows_of_step hs
  have hpoint := ClientReceive.point_of_step hpoll hdrop hs
  obtain ⟨hjoined, hreceive, hsent, hsettled, hdropped⟩ := joined_receive h.toJoined hcall hs
  generalize sync x cfg (onReceive x cfg s.begin call) = p at hjoined hreceive hsent hsettled hdropped
  have hreceived : p.1.received = s.received := by
    rw [ClientExchange.received, ClientExchange.received, hreceive, hpoint]
  rw [← hreceive] at hgrows
  refine ⟨hjoined, fun r hr => ?_, fun hs hr => ?_, fun hnone => ?_, fun hnone r hr hc => ?_⟩
  · rw [hsettled] at hr
    obtain ⟨hd, sent, received, aborted, h1, h2, h3, h4⟩ := h.settled r hr
    refine ⟨hdropped.trans hd, sent, received, aborted, hsent.trans h1, hreceived.trans h2, h3, fun hok => ?_⟩
    -- Nothing is aborted once the upload is complete.
    rw [h4 hok]
    subst hok
    exact (hgrows.complete (h.uploaded.mpr (sent_eq.mp h1))).2.symm
  · rw [hsent] at hs
    rw [hreceived] at hr
    rw [hsettled]
    exact h.both hs hr
  · rw [hreceived] at hnone
    exact (h.sentFailed hnone).later hsent hgrows
  · rw [hsent] at hnone
    rw [hreceived] at hr
    exact hgrows.exchange (h.receivedFailed hnone r hr hc)

theorem upload_going {upload : Upload D V W E} {event : UploadEvent D E} {out : UploadOutput D E}
    (hevent : event ≠ .send .cancel) (hs : s.upload.step x cfg.upload event = some (upload, out)) : s.sent = none := by
  unfold sent
  split
  · rename_i result hphase
    cases event with
    | wait p => simp [Upload.step, Upload.wait, hphase] at hs
    | send event =>
      cases event with
      | cancel => exact absurd rfl hevent
      | poll next => simp [Upload.step, Upload.poll, hphase] at hs
      | flushed result => simp [Upload.step, Upload.flushed, hphase] at hs
      | resume => simp [Upload.step, Upload.advance, hphase] at hs
      | completed result => simp [Upload.step, Upload.advance, hphase] at hs
  · rfl

theorem not_settled (h : Coupled s) (hnone : s.sent = none ∨ s.received = none) : s.settled = none := by
  cases hsettled : s.settled with
  | none => rfl
  | some r =>
    obtain ⟨-, sent, received, aborted, hsent, hreceived, -⟩ := h.settled r hsettled
    rcases hnone with hnone | hnone
    · rw [hnone] at hsent
      cases hsent
    · rw [hnone] at hreceived
      cases hreceived

theorem Coupled.polled (h : Coupled s) (hsettled : s.settled = none) (hdropped : s.dropped = false) {q : ClientPoll U}
    {receive : ClientReceive U} {out : ClientOutput U} (hstep : s.receive.step x cfg.client (.poll q) = some (receive, out)) :
    Coupled (afterPoll x cfg (sync x cfg (onReceive x cfg s.begin (.poll q)))).1 := by
  obtain ⟨hjoined, hreceive, hsent, hsettled', hdropped'⟩ := joined_receive h.toJoined (by simp) hstep
  have hgrows := ClientReceive.grows_of_step hstep
  have hnone : s.received = none := by
    unfold ClientExchange.received
    split
    · rename_i result hpoint
      rw [ClientReceive.poll_returned hpoint] at hstep
      cases hstep
    · rfl
  apply coupled_afterPoll hjoined (hdropped'.trans hdropped) (hsettled'.trans hsettled)
  rw [← hreceive] at hgrows
  exact (h.sentFailed hnone).later hsent hgrows

/-- An upload that goes on, while the exchange records whether it is complete. -/
theorem Coupled.driven (h : Coupled s) (hdropped : s.dropped = false) {event : SendEvent D E} (hevent : event ≠ .cancel)
    {upload : Upload D V W E} {out : UploadOutput D E}
    (hstep : s.upload.step x cfg.upload (.send event) = some (upload, out)) {receive : ClientReceive U}
    (hpoint : receive.point = s.receive.point)
    (hcontrol : receive.control = { s.receive.control with uploadComplete := out.uploaded }) :
    Coupled (afterTurn x cfg ({ s with receive, upload }, o)).1 := by
  have hne : UploadEvent.send event ≠ .send .cancel := by simpa using hevent
  have hsent := upload_going hne hstep
  obtain ⟨⟨hshared, htoken⟩, -⟩ := Upload.step_going h.shared hne hstep
  have huploaded := Upload.uploaded_of_step hstep
  have hbefore : s.upload.phase ≠ .returned (.ok ()) := fun hp => by
    rw [sent_eq.mpr hp] at hsent
    cases hsent
  rw [or_iff_right hbefore] at huploaded
  have hsettled := not_settled h (.inl hsent)
  apply coupled_afterTurn _ hdropped hsettled
  · intro r hr hcancels
    rw [ClientExchange.received, hpoint] at hr
    show receive.control.exchange = true
    rw [hcontrol]
    exact h.receivedFailed hsent r hr hcancels
  · refine ⟨hshared, ?_, ?_⟩
    · show upload.token = receive.control.upload
      rw [hcontrol]
      exact htoken.trans h.token
    · show receive.control.uploadComplete = true ↔ upload.phase = _
      rw [hcontrol]
      exact huploaded.symm

theorem Coupled.sent (h : Coupled s) (hdropped : s.dropped = false) {event : SendEvent D E} (hevent : event ≠ .cancel)
    {upload : Upload D V W E} {out : UploadOutput D E}
    (hstep : s.upload.step x cfg.upload (.send event) = some (upload, out)) (hout : out.uploaded = false) :
    Coupled (afterTurn x cfg (onUpload x cfg s.begin (.send event))).1 := by
  have hbefore : s.receive.control.uploadComplete = false := by
    rw [← Bool.not_eq_true, h.uploaded, ← sent_eq, upload_going (by simpa using hevent) hstep]
    simp
  rw [onUpload_eq (p := s.begin) hstep]
  apply h.driven hdropped hevent hstep rfl
  rw [hout, ← hbefore]

theorem Coupled.sentWhole (h : Coupled s) (hdropped : s.dropped = false) {event : SendEvent D E}
    (hevent : event ≠ .cancel) {upload : Upload D V W E} {out : UploadOutput D E}
    (hstep : s.upload.step x cfg.upload (.send event) = some (upload, out)) (hout : out.uploaded = true) :
    Coupled (afterTurn x cfg (onReceive x cfg (onUpload x cfg s.begin (.send event)) .uploaded)).1 := by
  rw [onUpload_eq (p := s.begin) hstep]
  refine h.driven hdropped hevent hstep ?_ ?_
  · rfl
  · rw [hout]
    rfl

variable (x cfg) in
/-- A wait can be polled until it is over, and its poll never ends a whole upload. -/
theorem wait_polled {begun : Bool} (hphase : s.upload.phase = .waiting begun) (q : ContinuePoll) :
    ∃ upload out, s.upload.step x cfg.upload (.wait q) = some (upload, out) ∧ out.uploaded = false := by
  simp only [Upload.step, Upload.wait, hphase]
  split_ifs
  · exact ⟨_, _, rfl, rfl⟩
  · exact ⟨_, _, rfl, rfl⟩
  · exact ⟨_, _, rfl, rfl⟩
  · exact ⟨_, _, rfl, rfl⟩

theorem wait_going {upload : Upload D V W E} {q : ContinuePoll} {out : UploadOutput D E} {begun : Bool}
    (hphase : s.upload.phase = .waiting begun) (hclear : ¬ (!begun && q.overflow || s.upload.token) = true)
    (hs : s.upload.step x cfg.upload (.wait q) = some (upload, out)) :
    ∀ result, upload.phase ≠ .returned result := by
  simp only [Bool.or_eq_true, not_or] at hclear
  simp only [Upload.step, Upload.wait, hphase] at hs
  rw [if_neg hclear.1, if_neg hclear.2] at hs
  intro result
  split_ifs at hs
  · cases hs
    unfold Upload.beginBody
    split_ifs
    · intro h
      cases h
    · intro h
      cases h
  · cases hs
    intro h
    cases h

theorem joined_gate (h : Joined s) {receive : ClientReceive U} (hcontrol : receive.control = s.receive.control) :
    Joined { s with receive } :=
  ⟨h.shared, h.token.trans (by rw [hcontrol]), by rw [hcontrol]; exact h.uploaded⟩

theorem Coupled.waitStopped (h : Coupled s) (hdropped : s.dropped = false) {begun : Bool}
    (hphase : s.upload.phase = .waiting begun) (q : ContinuePoll) :
    Coupled (afterTurn x cfg (onReceive x cfg (onUpload x cfg s.begin (.wait q)) .dropContinue)).1 := by
  have hsent : s.sent = none := by
    unfold ClientExchange.sent
    rw [hphase]
  obtain ⟨upload, out, hstep, hout⟩ := wait_polled x cfg hphase q
  obtain ⟨⟨hshared, htoken⟩, -⟩ := Upload.step_going h.shared (by simp) hstep
  have huploaded := Upload.uploaded_of_step hstep
  have hsettled := not_settled h (.inl hsent)
  rw [onUpload_eq (p := s.begin) hstep]
  change Coupled (afterTurn x cfg
    ({ s with receive := { s.receive with gate := s.receive.gate.dropWait }, upload }, _)).1
  apply coupled_afterTurn _ hdropped hsettled
  · exact h.receivedFailed hsent
  · refine ⟨hshared, htoken.trans h.token, h.uploaded.trans ?_⟩
    show _ ↔ upload.phase = _
    rw [huploaded, hout]
    simp

/-- Only the waiter and the phase of the upload move while a wait is polled. -/
theorem Coupled.waited (h : Coupled s) (hsent : s.sent = none) {receive : ClientReceive U} {upload : Upload D V W E}
    (hcontrol : receive.control = s.receive.control) (hpoint : receive.point = s.receive.point)
    (hshared : upload.Shared) (htoken : upload.token = s.upload.token)
    (hgoing : ∀ result, upload.phase ≠ .returned result) : Coupled { s with receive, upload } := by
  have hnone : ∀ result, s.upload.phase ≠ .returned result := fun result hp => by
    rw [sent_eq.mpr hp] at hsent
    cases hsent
  have hsent' : { s with receive, upload }.sent = none := by
    unfold ClientExchange.sent
    split
    · rename_i result hp
      exact absurd hp (hgoing result)
    · rfl
  have hreceived' : { s with receive, upload }.received = s.received := by
    rw [ClientExchange.received, ClientExchange.received, hpoint]
  refine ⟨⟨hshared, (htoken.trans h.token).trans (by rw [hcontrol]), ?_⟩, fun r hr => ?_, fun hs => ?_,
    fun _ e he => ?_, fun _ r hr hc => ?_⟩
  · show receive.control.uploadComplete = true ↔ _
    rw [hcontrol, h.uploaded]
    exact iff_of_false (hnone _) (hgoing _)
  · change s.settled = some r at hr
    rw [not_settled h (.inl hsent)] at hr
    cases hr
  · rw [hsent'] at hs
    cases hs
  · rw [hsent'] at he
    cases he
  · rw [hreceived'] at hr
    show receive.control.exchange = true
    rw [hcontrol]
    exact h.receivedFailed hsent r hr hc

theorem Coupled.waitPolled (h : Coupled s) {begun : Bool} (hphase : s.upload.phase = .waiting begun) {waker : U}
    {overflow : Bool} (expired : Bool) (hclear : ¬ (!begun && overflow || s.upload.token) = true) {receive : ClientReceive U}
    {out : ClientOutput U} (hpoll : s.receive.step x cfg.client (.pollContinue waker) = some (receive, out)) :
    ∃ upload uout, onUpload x cfg (onReceive x cfg s.begin (.pollContinue waker)) (.wait ⟨overflow, out.permitted, expired⟩) =
        ({ s with receive, upload },
          ⟨[(.pollContinue waker, out)], [(.wait ⟨overflow, out.permitted, expired⟩, uout)], none⟩) ∧
      ∀ gate, Coupled { s with receive := { receive with gate }, upload } := by
  have hcontrol : receive.control = s.receive.control := by
    cases hpoll
    rfl
  have hpoint := ClientReceive.point_of_step (by simp) (by simp) hpoll
  obtain ⟨upload, uout, hstep, -⟩ := wait_polled x cfg hphase ⟨overflow, out.permitted, expired⟩
  have hgoing := wait_going hphase hclear hstep
  obtain ⟨⟨hshared, htoken⟩, -⟩ := Upload.step_going h.shared (by simp) hstep
  have hsent : s.sent = none := by
    unfold ClientExchange.sent
    rw [hphase]
  refine ⟨upload, uout, ?_, fun gate => h.waited hsent hcontrol hpoint hshared htoken hgoing⟩
  rw [onReceive_eq (p := s.begin) hpoll]
  exact onUpload_eq hstep

theorem Coupled.drop (h : Coupled s) (hopen : s.settled = none) {receive : ClientReceive U} {out : ClientOutput U}
    (hstep : s.receive.step x cfg.client .drop = some (receive, out)) :
    Coupled { (onReceive x cfg (onReceive x cfg s.begin .drop) .dropContinue).1 with dropped := true } := by
  have hcontrol := (ClientReceive.drives_drop receive out hstep).control
  have hpoint : receive.point = .dropped := ClientReceive.drop_point hstep
  rw [onReceive_eq (p := s.begin) hstep]
  -- The drop of the wait moves the waiter only.
  obtain ⟨receive', hcontrol', hpoint', heq'⟩ : ∃ receive' : ClientReceive U, receive'.control = s.receive.control ∧
      receive'.point = .dropped ∧
      (onReceive x cfg ({ s with receive }, ⟨[(.drop, out)], [], none⟩) .dropContinue).1 = { s with receive := receive' } :=
    ⟨{ receive with gate := receive.gate.dropWait }, hcontrol, hpoint, rfl⟩
  change Coupled { (onReceive x cfg ({ s with receive }, ⟨[(.drop, out)], [], none⟩) .dropContinue).1 with dropped := true }
  rw [heq']
  have hreceived (t : ClientExchange D V W E U) (ht : t.receive = receive') : t.received = none := by
    unfold ClientExchange.received
    rw [ht, hpoint']
  have hjoined := joined_gate h.toJoined hcontrol'
  refine ⟨⟨hjoined.shared, hjoined.token, hjoined.uploaded⟩, fun r hr => ?_, fun _ hr => ?_, fun _ e he hc => ?_,
    fun _ r hr => ?_⟩
  · change s.settled = some r at hr
    rw [hopen] at hr
    cases hr
  · rw [hreceived _ rfl] at hr
    cases hr
  · change s.sent = some (.error e) at he
    change e.isCanceled = false ∨ receive'.control.aborted = false at hc
    show receive'.control.exchange = true
    rw [hcontrol'] at hc ⊢
    refine h.sentFailed ?_ e he hc
    cases hr : s.received with
    | none => rfl
    | some r =>
      have hset := h.both (by rw [he]; rfl) (by rw [hr]; rfl)
      rw [hopen] at hset
      cases hset
  · rw [hreceived _ rfl] at hr
    cases hr

theorem Coupled.step (h : Coupled s) (hs : s.step x cfg i = some p) : Coupled p.1 := by
  cases move_of_step hs with
  | polled hsettled hdropped hstep => exact h.polled hsettled hdropped hstep
  | called hpermits hpoll hstep =>
    refine h.outside ?_ hpoll ?_ hstep
    · rintro rfl
      cases hpermits
    · rintro rfl
      cases hpermits
  | sent hdropped hevent hstep hout => exact h.sent hdropped hevent hstep hout
  | uploaded hdropped hevent hstep hout => exact h.sentWhole hdropped hevent hstep hout
  | stopped hdropped hphase => exact h.waitStopped hdropped hphase _
  | waited hdropped hphase hclear hstep =>
    obtain ⟨upload, uout, heq, hcoupled⟩ := h.waitPolled hphase false hclear hstep
    rw [heq]
    exact hcoupled _
  | expired hdropped hphase hclear hstep =>
    obtain ⟨upload, uout, heq, hcoupled⟩ := h.waitPolled hphase true hclear hstep
    rw [heq]
    exact hcoupled _
  | dropped hsettled hdropped hstep => exact h.drop hsettled hstep

theorem coupled_of_reaches {request : RequestUpload x} {b : RecvBuffer}
    (hrun : (clientExchange E U x cfg).Reaches (start cfg request b) tr s) : Coupled s := by
  apply hrun.invariant (P := fun _ s => Coupled s) (coupled_start cfg request b)
  intro tr s i s' o h hs
  exact h.step hs

end ClientExchange

end Vakya
