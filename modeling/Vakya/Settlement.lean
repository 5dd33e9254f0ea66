import Vakya.Halves

/-!
# How an exchange ends

An exchange settles when both of its halves have returned, whatever ended them, and a half that fails
cancels the other one first. What the application is told about a failure is what the driver is told.
-/

namespace Vakya

open Library

namespace ClientExchange

variable {x : Crates} {D V W E U : Type} {cfg : ExchangeConfig D V W} {s s' : ClientExchange D V W E U}
  {p : Doing D V W E U} {i : ClientExchangeCall D E U} {o : ClientExchangeOutput D E U}

/-- A half has ended the exchange: a response that failed or was abandoned, or an upload that failed. -/
def HalfFailed (s : ClientExchange D V W E U) : Prop :=
  (∃ r, s.received = some r ∧ receivedCancels r = true) ∨ ∃ e, s.sent = some (.error e)

/-- Why a call was made in a step that ends in `s`. -/
inductive Cause (i : ClientExchangeCall D E U) (s : ClientExchange D V W E U) : ClientCall U → Prop
  | outside {call : ClientCall U} (h : i = .receive call) : Cause i s call
  | canceled (h : HalfFailed s) : Cause i s .cancel
  | reported {e : Error} (h : s.settled = some (.error e)) : Cause i s (.fail e)
  | uploaded : Cause i s .uploaded
  | wait (waker : U) : Cause i s (.pollContinue waker)
  | waited : Cause i s .dropContinue
  | dropped (h : s.dropped = true) : Cause i s .drop

theorem mem_onReceive {call : ClientCall U} {y : ClientCall U × ClientOutput U}
    (h : y ∈ (onReceive x cfg p call).2.receive) : y ∈ p.2.receive ∨ y.1 = call := by
  unfold onReceive at h
  split at h
  · exact .inl h
  · rcases List.mem_append.mp h with h | h
    · exact .inl h
    · rw [List.mem_singleton.mp h]
      exact .inr rfl

@[simp] theorem onUpload_receive (x : Crates) (cfg : ExchangeConfig D V W) (p : Doing D V W E U)
    (event : UploadEvent D E) : (onUpload x cfg p event).2.receive = p.2.receive := by
  unfold onUpload
  split
  · rfl
  · rfl

@[simp] theorem sync_receive (x : Crates) (cfg : ExchangeConfig D V W) (p : Doing D V W E U) :
    (sync x cfg p).2.receive = p.2.receive := by
  unfold sync
  split_ifs
  · exact onUpload_receive x cfg p _
  · rfl

theorem mem_settle {sent : Except Error Unit} {received : Except Error ReceivedResponse}
    {y : ClientCall U × ClientOutput U} (h : y ∈ (settle x cfg p sent received).2.receive) :
    y ∈ p.2.receive ∨ ∃ e, y.1 = .fail e ∧ (settle x cfg p sent received).1.settled = some (.error e) := by
  unfold settle at h ⊢
  dsimp only at h ⊢
  split at h
  · rename_i e hresult
    rcases mem_onReceive h with h | h
    · exact .inl h
    · exact .inr ⟨e, h, congrArg some hresult⟩
  · exact .inl h

theorem received_cancel (x : Crates) (cfg : ExchangeConfig D V W) (p : Doing D V W E U) :
    (cancel x cfg p).1.received = p.1.received := by
  rw [received, received, (cancel_same x cfg p).1]

theorem mem_afterPoll {y : ClientCall U × ClientOutput U} (h : y ∈ (afterPoll x cfg p).2.receive) :
    y ∈ p.2.receive ∨ Cause i (afterPoll x cfg p).1 y.1 := by
  unfold afterPoll at h ⊢
  cases hreceived : p.1.received with
  | none =>
    simp only [hreceived] at h
    exact .inl h
  | some received =>
    simp only [hreceived, afterReceive] at h ⊢
    cases hsent : p.1.sent with
    | some sent =>
      simp only [hsent] at h ⊢
      rcases mem_settle h with h | ⟨e, hcall, hsettled⟩
      · exact .inl h
      · rw [hcall]
        exact .inr (.reported hsettled)
    | none =>
      simp only [hsent] at h ⊢
      split_ifs at h ⊢ with hcancels
      · rw [cancel, sync_receive] at h
        rcases mem_onReceive h with h | h
        · exact .inl h
        · rw [h]
          exact .inr (.canceled (.inl ⟨received, (received_cancel x cfg p).trans hreceived, hcancels⟩))
      · exact .inl h

theorem mem_afterTurn {y : ClientCall U × ClientOutput U} (h : y ∈ (afterTurn x cfg p).2.receive) :
    y ∈ p.2.receive ∨ Cause i (afterTurn x cfg p).1 y.1 := by
  unfold afterTurn at h ⊢
  cases hsent : p.1.sent with
  | none =>
    simp only [hsent] at h
    exact .inl h
  | some sent =>
    simp only [hsent, afterSend] at h ⊢
    cases hreceived : p.1.received with
    | some received =>
      simp only [hreceived] at h ⊢
      rcases mem_settle h with h | ⟨e, hcall, hsettled⟩
      · exact .inl h
      · rw [hcall]
        exact .inr (.reported hsettled)
    | none =>
      simp only [hreceived] at h ⊢
      split_ifs at h ⊢ with hcancels
      · rw [cancel, sync_receive] at h
        rcases mem_onReceive h with h | h
        · exact .inl h
        · rw [h]
          refine .inr (.canceled (.inr ?_))
          cases sent with
          | ok u => cases hcancels
          | error e => exact ⟨e, (cancel_same x cfg p).2.1.trans hsent⟩
      · exact .inl h

theorem mem_begin_receive {call : ClientCall U} {y : ClientCall U × ClientOutput U}
    (h : y ∈ (onReceive x cfg s.begin call).2.receive) : y.1 = call := by
  rcases mem_onReceive h with h | h
  · cases h
  · exact h

/-- Every call of a step has its reason. -/
theorem cause_of_step (hs : s.step x cfg i = some p) : ∀ y ∈ p.2.receive, Cause i p.1 y.1 := by
  intro y hy
  cases move_of_step hs with
  | polled =>
    rcases mem_afterPoll hy with h | h
    · rw [sync_receive] at h
      exact .outside (by rw [mem_begin_receive h])
    · exact h
  | called =>
    rw [sync_receive] at hy
    exact .outside (by rw [mem_begin_receive hy])
  | sent =>
    rcases mem_afterTurn hy with h | h
    · rw [onUpload_receive] at h
      cases h
    · exact h
  | uploaded =>
    rcases mem_afterTurn hy with h | h
    · rcases mem_onReceive h with h | h
      · rw [onUpload_receive] at h
        cases h
      · rw [h]
        exact .uploaded
    · exact h
  | stopped =>
    rcases mem_afterTurn hy with h | h
    · rcases mem_onReceive h with h | h
      · rw [onUpload_receive] at h
        cases h
      · rw [h]
        exact .waited
    · exact h
  | @waited waker =>
    rw [onUpload_receive] at hy
    rw [mem_begin_receive hy]
    exact .wait waker
  | @expired waker =>
    rcases mem_onReceive hy with h | h
    · rw [onUpload_receive] at h
      rw [mem_begin_receive h]
      exact .wait waker
    · rw [h]
      exact .waited
  | dropped =>
    rcases mem_onReceive hy with h | h
    · rw [mem_begin_receive h]
      exact .dropped rfl
    · rw [h]
      exact .waited

theorem onReceive_same (x : Crates) (cfg : ExchangeConfig D V W) (p : Doing D V W E U) (call : ClientCall U) :
    (onReceive x cfg p call).1.settled = p.1.settled ∧ (onReceive x cfg p call).1.dropped = p.1.dropped := by
  unfold onReceive
  split
  · exact ⟨rfl, rfl⟩
  · exact ⟨rfl, rfl⟩

theorem called_same (x : Crates) (cfg : ExchangeConfig D V W) (s : ClientExchange D V W E U) (call : ClientCall U) :
    (sync x cfg (onReceive x cfg s.begin call)).1.settled = s.settled ∧
      (sync x cfg (onReceive x cfg s.begin call)).1.dropped = s.dropped := by
  obtain ⟨-, -, hsettled, hdropped⟩ := sync_same x cfg (onReceive x cfg s.begin call)
  obtain ⟨hsettled', hdropped'⟩ := onReceive_same x cfg s.begin call
  exact ⟨hsettled.trans hsettled', hdropped.trans hdropped'⟩

theorem permits_of_step {call : ClientCall U} (hs : s.step x cfg (.receive call) = some p) : s.permits call = true := by
  cases move_of_step hs with
  | polled hsettled hdropped => simp [permits, hsettled, hdropped]
  | called hpermits => exact hpermits

theorem settled_of_step (h : Coupled s) (hs : s.step x cfg i = some p) {r : Except Error SettledExchange}
    (hr : s.settled = some r) : p.1.settled = some r := by
  obtain ⟨-, sent, received, aborted, hsent, -⟩ := h.settled r hr
  have hgoing {begun : Bool} (hphase : s.upload.phase = .waiting begun) : False := by
    rw [sent_eq, hphase] at hsent
    cases hsent
  have hdriven {event : SendEvent D E} {upload : Upload D V W E} {out : UploadOutput D E} (hevent : event ≠ .cancel)
      (hstep : s.upload.step x cfg.upload (.send event) = some (upload, out)) : False := by
    rw [upload_going (by simpa using hevent) hstep] at hsent
    cases hsent
  cases move_of_step hs with
  | called => rw [(called_same x cfg s _).1, hr]
  | sent _ hevent hstep | uploaded _ hevent hstep => exact (hdriven hevent hstep).elim
  | stopped _ hphase | waited _ hphase | expired _ hphase => exact (hgoing hphase).elim
  | polled hnone | dropped hnone =>
    rw [hnone] at hr
    cases hr

theorem dropped_of_step (hs : s.step x cfg i = some p) (hd : s.dropped = true) : p.1.dropped = true := by
  have hopen (h : s.dropped = false) : p.1.dropped = true := by
    rw [hd] at h
    cases h
  cases move_of_step hs with
  | called => rw [(called_same x cfg s _).2, hd]
  | sent h | uploaded h | stopped h | waited h | expired h => exact hopen h
  | polled _ h | dropped _ h => exact hopen h

theorem sent_of_step (hs : s.step x cfg i = some p) {r : Except Error Unit} (hr : s.sent = some r) :
    p.1.sent = some r := by
  rw [sent_eq] at hr ⊢
  apply (runs_step hs).upload.invariant (P := fun _ u => u.phase = .returned r) hr
  intro tr u event u' out hphase hstep
  change u.step x cfg.upload event = some (u', out) at hstep
  cases event with
  | wait q => simp [Upload.step, Upload.wait, hphase] at hstep
  | send event =>
    cases event with
    | cancel =>
      cases hstep
      simp [Upload.cancel, hphase]
    | poll next => simp [Upload.step, Upload.poll, hphase] at hstep
    | flushed result => simp [Upload.step, Upload.flushed, hphase] at hstep
    | resume => simp [Upload.step, Upload.advance, hphase] at hstep
    | completed result => simp [Upload.step, Upload.advance, hphase] at hstep

/-- Only an exchange that is dropped forgets what `receive` returned. -/
theorem received_of_step (hs : s.step x cfg i = some p) {r : Except Error ReceivedResponse} (hr : s.received = some r) :
    p.1.received = some r ∨ p.1.dropped = true := by
  by_cases hdrop : ∃ y ∈ p.2.receive, y.1 = .drop
  · obtain ⟨y, hy, hcall⟩ := hdrop
    have hcause := cause_of_step hs y hy
    rw [hcall] at hcause
    cases hcause with
    | outside h =>
      subst h
      cases permits_of_step hs
    | dropped h => exact .inr h
  · left
    rw [received_eq] at hr ⊢
    have hnodrop : ∀ y ∈ p.2.receive, y.1 ≠ .drop := fun y hy hcall => hdrop ⟨y, hy, hcall⟩
    have hrun := (runs_step hs).receive
    clear hdrop
    revert hnodrop
    apply hrun.invariant (P := fun tr u => (∀ y ∈ tr, y.1 ≠ .drop) → u.point = .returned r)
    · exact fun _ => hr
    · intro tr u call u' out hpoint hstep hnodrop
      have hbefore := hpoint fun y hy => hnodrop y (List.mem_append_left _ hy)
      rw [← hbefore]
      refine ClientReceive.point_of_step (fun q hq => ?_) (hnodrop (call, out) (by simp)) hstep
      subst hq
      change u.step x cfg.client (.poll q) = some (u', out) at hstep
      rw [ClientReceive.poll_returned hbefore q] at hstep
      cases hstep

theorem HalfFailed.later (h : HalfFailed s) (hs : s.step x cfg i = some p) : HalfFailed p.1 ∨ p.1.dropped = true := by
  rcases h with ⟨r, hr, hcancels⟩ | ⟨e, he⟩
  · exact (received_of_step hs hr).imp_left fun hr => .inl ⟨r, hr, hcancels⟩
  · exact .inl (.inr ⟨e, sent_of_step hs he⟩)

/-- What an exchange returns now: the results of its halves, and whether an abort was asked for. -/
def Composed (s : ClientExchange D V W E U) (r : Except Error SettledExchange) : Prop :=
  ∃ sent received, s.sent = some sent ∧ s.received = some received ∧
    r = ClientDriver.finishExchange sent received s.receive.control.aborted

theorem composed_settle {sent : Except Error Unit} {received : Except Error ReceivedResponse}
    (hsent : p.1.sent = some sent) (hreceived : p.1.received = some received) {r : Except Error SettledExchange}
    (hr : (settle x cfg p sent received).1.settled = some r) :
    (settle x cfg p sent received).2.settled = some r ∧ Composed (settle x cfg p sent received).1 r := by
  have hdone {t : Doing D V W E U} (hcontrol : t.1.receive.control = p.1.receive.control)
      (hpoint : t.1.receive.point = p.1.receive.point) (hupload : t.1.upload = p.1.upload) :
      Composed { t.1 with settled := some (ClientDriver.finishExchange sent received p.1.receive.control.aborted) }
        (ClientDriver.finishExchange sent received p.1.receive.control.aborted) := by
    refine ⟨sent, received, ?_, ?_, ?_⟩
    · rw [← hsent, ClientExchange.sent, ClientExchange.sent, hupload]
    · rw [← hreceived, ClientExchange.received, ClientExchange.received, hpoint]
    · show _ = ClientDriver.finishExchange sent received t.1.receive.control.aborted
      rw [hcontrol]
  unfold settle at hr ⊢
  dsimp only at hr ⊢
  obtain rfl := Option.some.inj hr
  refine ⟨rfl, ?_⟩
  split
  · rename_i e hresult
    obtain ⟨hcontrol, hpoint, hupload, -⟩ := onReceive_fail x cfg p e
    exact hdone hcontrol hpoint hupload
  · exact hdone rfl rfl rfl

theorem composed_afterPoll (hnone : p.1.settled = none) {r : Except Error SettledExchange}
    (hr : (afterPoll x cfg p).1.settled = some r) :
    (afterPoll x cfg p).2.settled = some r ∧ Composed (afterPoll x cfg p).1 r := by
  unfold afterPoll at hr ⊢
  cases hreceived : p.1.received with
  | none =>
    simp only [hreceived, hnone] at hr
    cases hr
  | some received =>
    simp only [hreceived, afterReceive] at hr ⊢
    cases hsent : p.1.sent with
    | some sent =>
      simp only [hsent] at hr ⊢
      exact composed_settle hsent hreceived hr
    | none =>
      simp only [hsent] at hr
      split_ifs at hr
      · rw [(cancel_same x cfg p).2.2.1, hnone] at hr
        cases hr
      · rw [hnone] at hr
        cases hr

theorem composed_afterTurn (hnone : p.1.settled = none) {r : Except Error SettledExchange}
    (hr : (afterTurn x cfg p).1.settled = some r) :
    (afterTurn x cfg p).2.settled = some r ∧ Composed (afterTurn x cfg p).1 r := by
  unfold afterTurn at hr ⊢
  cases hsent : p.1.sent with
  | none =>
    simp only [hsent, hnone] at hr
    cases hr
  | some sent =>
    simp only [hsent, afterSend] at hr ⊢
    cases hreceived : p.1.received with
    | some received =>
      simp only [hreceived] at hr ⊢
      exact composed_settle hsent hreceived hr
    | none =>
      simp only [hreceived] at hr
      split_ifs at hr
      · rw [(cancel_same x cfg p).2.2.1, hnone] at hr
        cases hr
      · rw [hnone] at hr
        cases hr

theorem onUpload_settled (x : Crates) (cfg : ExchangeConfig D V W) (p : Doing D V W E U) (event : UploadEvent D E) :
    (onUpload x cfg p event).1.settled = p.1.settled := by
  unfold onUpload
  split
  · rfl
  · rfl

/-- An exchange that returns in a step returns what its halves come to in this step. -/
theorem composed_of_step (hs : s.step x cfg i = some p) (hnone : s.settled = none) {r : Except Error SettledExchange}
    (hr : p.1.settled = some r) : p.2.settled = some r ∧ Composed p.1 r := by
  have hquiet {t : ClientExchange D V W E U} (ht : t.settled = none) (h : t.settled = some r) :
      p.2.settled = some r ∧ Composed p.1 r := by
    rw [ht] at h
    cases h
  have hbegin : (s.begin : Doing D V W E U).1.settled = none := hnone
  cases move_of_step hs with
  | polled => exact composed_afterPoll ((called_same x cfg s _).1.trans hnone) hr
  | called => exact hquiet ((called_same x cfg s _).1.trans hnone) hr
  | sent =>
    apply composed_afterTurn _ hr
    rw [onUpload_settled, hbegin]
  | uploaded | stopped =>
    apply composed_afterTurn _ hr
    rw [(onReceive_same x cfg _ _).1, onUpload_settled, hbegin]
  | waited =>
    apply hquiet _ hr
    rw [onUpload_settled, (onReceive_same x cfg _ _).1, hbegin]
  | expired =>
    apply hquiet _ hr
    rw [(onReceive_same x cfg _ _).1, onUpload_settled, (onReceive_same x cfg _ _).1, hbegin]
  | dropped =>
    refine hquiet ?_ hr
    show (onReceive x cfg (onReceive x cfg s.begin .drop) .dropContinue).1.settled = none
    rw [(onReceive_same x cfg _ _).1, (onReceive_same x cfg _ _).1, hbegin]

theorem complete_of_reaches {r r' : ClientReceive U} {rtr : List (ClientCall U × ClientOutput U)}
    (hrun : (clientReceive U x cfg.client).Reaches r rtr r') (h : r.control.uploadComplete = true) :
    r'.control.uploadComplete = true ∧ r'.control.aborted = r.control.aborted := by
  apply hrun.invariant (P := fun _ r' => r'.control.uploadComplete = true ∧ r'.control.aborted = r.control.aborted)
    ⟨h, rfl⟩
  rintro tr r' call r'' out ⟨hcomplete, haborted⟩ hs
  obtain ⟨hstill, hsame⟩ := (ClientReceive.grows_of_step hs).complete hcomplete
  exact ⟨hstill, hsame.trans haborted⟩

variable {tr : List (ClientExchangeCall D E U × ClientExchangeOutput D E U)} {request : RequestUpload x}
  {b : RecvBuffer}

/-- The step of a run in which the exchange has returned. -/
theorem settled_at (hrun : (clientExchange E U x cfg).Reaches (start cfg request b) tr s)
    {r : Except Error SettledExchange} (hr : s.settled = some r) :
    ∃ sent received before y after u, tr = before ++ y :: after ∧
      (clientExchange E U x cfg).Reaches (start cfg request b) (before ++ [y]) u ∧ y.2.settled = some r ∧
      s.sent = some sent ∧ s.received = some received ∧
      r = ClientDriver.finishExchange sent received u.receive.control.aborted ∧
      (sent = .ok () → u.receive.control.aborted = s.receive.control.aborted) := by
  induction hrun with
  | start => cases hr
  | @step tr s s' i o hrun hs ih =>
    have hcoupled := coupled_of_reaches hrun
    cases hsettled : s.settled with
    | none =>
      obtain ⟨hout, sent, received, hsent, hreceived, hresult⟩ := composed_of_step hs hsettled hr
      exact ⟨sent, received, tr, (i, o), [], s', rfl, hrun.step hs, hout, hsent, hreceived, hresult, fun _ => rfl⟩
    | some r' =>
      obtain rfl : r' = r := Option.some.inj ((settled_of_step hcoupled hs hsettled).symm.trans hr)
      obtain ⟨sent, received, before, y, after, u, rfl, hu, hout, hsent, hreceived, hresult, hsame⟩ := ih hsettled
      refine ⟨sent, received, before, y, after ++ [(i, o)], u, by simp, hu, hout, sent_of_step hs hsent, ?_, hresult,
        fun hok => ?_⟩
      · refine (received_of_step hs hreceived).resolve_right fun hdropped => ?_
        rw [((hcoupled.step hs).settled _ hr).1] at hdropped
        cases hdropped
      · have hcomplete : s.receive.control.uploadComplete = true := by
          rw [hcoupled.uploaded, ← sent_eq, hsent, hok]
        exact (hsame hok).trans (complete_of_reaches (runs_step hs).receive hcomplete).2.symm

theorem mem_onUpload {event : UploadEvent D E} {y : UploadEvent D E × UploadOutput D E}
    (h : y ∈ (onUpload x cfg p event).2.upload) : y ∈ p.2.upload ∨ y.1 = event := by
  unfold onUpload at h
  split at h
  · exact .inl h
  · rcases List.mem_append.mp h with h | h
    · exact .inl h
    · rw [List.mem_singleton.mp h]
      exact .inr rfl

@[simp] theorem onReceive_upload (x : Crates) (cfg : ExchangeConfig D V W) (p : Doing D V W E U)
    (call : ClientCall U) : (onReceive x cfg p call).2.upload = p.2.upload := by
  unfold onReceive
  split
  · rfl
  · rfl

theorem mem_sync {y : UploadEvent D E × UploadOutput D E} (h : y ∈ (sync x cfg p).2.upload) :
    y ∈ p.2.upload ∨ y.1 = .send .cancel := by
  unfold sync at h
  split_ifs at h
  · exact mem_onUpload h
  · exact .inl h

theorem mem_cancel {y : UploadEvent D E × UploadOutput D E} (h : y ∈ (cancel x cfg p).2.upload) :
    y ∈ p.2.upload ∨ y.1 = .send .cancel := by
  rw [← onReceive_upload x cfg p .cancel]
  exact mem_sync h

theorem settle_upload (x : Crates) (cfg : ExchangeConfig D V W) (p : Doing D V W E U) (sent : Except Error Unit)
    (received : Except Error ReceivedResponse) : (settle x cfg p sent received).2.upload = p.2.upload := by
  unfold settle
  dsimp only
  split
  · exact onReceive_upload x cfg p _
  · rfl

theorem mem_afterPoll_upload {y : UploadEvent D E × UploadOutput D E} (h : y ∈ (afterPoll x cfg p).2.upload) :
    y ∈ p.2.upload ∨ y.1 = .send .cancel := by
  unfold afterPoll afterReceive at h
  split at h
  · split at h
    · rw [settle_upload] at h
      exact .inl h
    · split_ifs at h
      · exact mem_cancel h
      · exact .inl h
  · exact .inl h

theorem mem_afterTurn_upload {y : UploadEvent D E × UploadOutput D E} (h : y ∈ (afterTurn x cfg p).2.upload) :
    y ∈ p.2.upload ∨ y.1 = .send .cancel := by
  unfold afterTurn afterSend at h
  split at h
  · split at h
    · rw [settle_upload] at h
      exact .inl h
    · split_ifs at h
      · exact mem_cancel h
      · exact .inl h
  · exact .inl h

theorem allowed_of_reaches {r r' : ClientReceive U} {rtr : List (ClientCall U × ClientOutput U)}
    (hrun : (clientReceive U x cfg.client).Reaches r rtr r') (h : r.gate.allowed = true) : r'.gate.allowed = true := by
  apply hrun.invariant (P := fun _ r => r.gate.allowed = true) h
  intro tr r call r' out h hs
  exact ClientReceive.allowed_of_step hs h

theorem mem_begin_upload {event : UploadEvent D E} {y : UploadEvent D E × UploadOutput D E}
    (h : y ∈ (onUpload x cfg s.begin event).2.upload) : y.1 = event := by
  rcases mem_onUpload h with h | h
  · cases h
  · exact h

/-- Only the permission grants a wait, and a wait expires in its own poll. -/
theorem wait_of_step (hs : s.step x cfg i = some p) {y : UploadEvent D E × UploadOutput D E} (hy : y ∈ p.2.upload)
    {q : ContinuePoll} (hwait : y.1 = .wait q) : (q.granted = true → s.receive.gate.allowed = true) ∧
      (q.expired = true → ∃ waker overflow, i = .wait waker overflow true) := by
  have hsend {event : SendEvent D E} (h : y.1 = .send event) : False := by
    rw [hwait] at h
    cases h
  have hpoll {q' : ContinuePoll} (h : y.1 = .wait q') : q = q' := by
    rw [hwait] at h
    cases h
    rfl
  cases move_of_step hs with
  | polled =>
    rcases mem_afterPoll_upload hy with h | h
    · rcases mem_sync h with h | h
      · rw [onReceive_upload] at h
        cases h
      · exact (hsend h).elim
    · exact (hsend h).elim
  | called =>
    rcases mem_sync hy with h | h
    · rw [onReceive_upload] at h
      cases h
    · exact (hsend h).elim
  | sent =>
    rcases mem_afterTurn_upload hy with h | h
    · exact (hsend (mem_begin_upload h)).elim
    · exact (hsend h).elim
  | uploaded =>
    rcases mem_afterTurn_upload hy with h | h
    · rw [onReceive_upload] at h
      exact (hsend (mem_begin_upload h)).elim
    · exact (hsend h).elim
  | @stopped waker overflow expired =>
    rcases mem_afterTurn_upload hy with h | h
    · rw [onReceive_upload] at h
      rw [hpoll (mem_begin_upload h)]
      refine ⟨fun h => (by cases h), fun h => ⟨waker, overflow, ?_⟩⟩
      rw [show expired = true from h]
    · exact (hsend h).elim
  | waited _ _ _ hstep =>
    rcases mem_onUpload hy with h | h
    · rw [onReceive_upload] at h
      cases h
    · rw [hpoll h]
      exact ⟨(ClientReceive.gate_of_step hstep).2, fun h => (by cases h)⟩
  | @expired waker overflow _ _ _ _ _ _ hstep =>
    rw [onReceive_upload] at hy
    rcases mem_onUpload hy with h | h
    · rw [onReceive_upload] at h
      cases h
    · rw [hpoll h]
      exact ⟨(ClientReceive.gate_of_step hstep).2, fun _ => ⟨waker, overflow, rfl⟩⟩
  | dropped =>
    rw [onReceive_upload, onReceive_upload] at hy
    cases hy

/-- What a run did to its halves has a reason. -/
structure Reasons (tr : List (ClientExchangeCall D E U × ClientExchangeOutput D E U)) (s : ClientExchange D V W E U) :
    Prop where
  coupled : Coupled s
  failed : ∀ y ∈ receiveTrace tr, ∀ e, y.1 = .fail e → s.settled = some (.error e)
  gone : ∀ y ∈ receiveTrace tr, y.1 = .drop → s.dropped = true
  canceled : ∀ y ∈ receiveTrace tr, y.1 = .cancel →
    (∃ z ∈ tr, z.1 = .receive .cancel) ∨ HalfFailed s ∨ s.dropped = true
  gaveUp : ∀ y ∈ receiveTrace tr, y.1 = .pending .drop → ∃ z ∈ tr, z.1 = .receive (.pending .drop)
  waited : ∀ y ∈ uploadTrace tr, ∀ q, y.1 = .wait q → (q.granted = true → s.receive.gate.allowed = true) ∧
    (q.expired = true → ∃ z ∈ tr, ∃ waker overflow, z.1 = .wait waker overflow true)

theorem Reasons.step (h : Reasons tr s) (hs : s.step x cfg i = some (s', o)) : Reasons (tr ++ [(i, o)]) s' := by
  have hruns := runs_step hs
  have hcause := cause_of_step hs
  have hmem {y : ClientCall U × ClientOutput U} (hy : y ∈ receiveTrace (tr ++ [(i, o)])) :
      y ∈ receiveTrace tr ∨ y ∈ o.receive := by
    simpa [receiveTrace] using hy
  have houtside {call : ClientCall U} {y : ClientCall U × ClientOutput U} (hy : y ∈ o.receive) (hcall : y.1 = call)
      (h : i = .receive call) : ∃ z ∈ tr ++ [(i, o)], z.1 = .receive call :=
    ⟨(i, o), by simp, h⟩
  refine ⟨h.coupled.step hs, fun y hy e hcall => ?_, fun y hy hcall => ?_, fun y hy hcall => ?_, fun y hy hcall => ?_,
    fun y hy q hwait => ?_⟩
  · rcases hmem hy with hy | hy
    · exact settled_of_step h.coupled hs (h.failed y hy e hcall)
    · have hc := hcause y hy
      rw [hcall] at hc
      cases hc with
      | outside h =>
        subst h
        cases permits_of_step hs
      | reported h => exact h
  · rcases hmem hy with hy | hy
    · exact dropped_of_step hs (h.gone y hy hcall)
    · have hc := hcause y hy
      rw [hcall] at hc
      cases hc with
      | outside h =>
        subst h
        cases permits_of_step hs
      | dropped h => exact h
  · rcases hmem hy with hy | hy
    · rcases h.canceled y hy hcall with ⟨z, hz, hcancel⟩ | hfailed | hdropped
      · exact .inl ⟨z, List.mem_append_left _ hz, hcancel⟩
      · exact .inr (hfailed.later hs)
      · exact .inr (.inr (dropped_of_step hs hdropped))
    · have hc := hcause y hy
      rw [hcall] at hc
      cases hc with
      | outside h => exact .inl (houtside hy hcall h)
      | canceled h => exact .inr (.inl h)
  · rcases hmem hy with hy | hy
    · obtain ⟨z, hz, hdrop⟩ := h.gaveUp y hy hcall
      exact ⟨z, List.mem_append_left _ hz, hdrop⟩
    · have hc := hcause y hy
      rw [hcall] at hc
      cases hc with
      | outside h => exact houtside hy hcall h
  · have hy' : y ∈ uploadTrace tr ∨ y ∈ o.upload := by simpa [uploadTrace] using hy
    rcases hy' with hy | hy
    · obtain ⟨hgranted, hexpired⟩ := h.waited y hy q hwait
      refine ⟨fun hq => allowed_of_reaches hruns.receive (hgranted hq), fun hq => ?_⟩
      obtain ⟨z, hz, hwaited⟩ := hexpired hq
      exact ⟨z, List.mem_append_left _ hz, hwaited⟩
    · obtain ⟨hgranted, hexpired⟩ := wait_of_step hs hy hwait
      refine ⟨fun hq => allowed_of_reaches hruns.receive (hgranted hq), fun hq => ?_⟩
      exact ⟨(i, o), by simp, hexpired hq⟩

theorem reasons_of_reaches (hrun : (clientExchange E U x cfg).Reaches (start cfg request b) tr s) : Reasons tr s := by
  have hnone {P : ClientCall U × ClientOutput U → Prop} :
      ∀ y ∈ receiveTrace ([] : List (ClientExchangeCall D E U × ClientExchangeOutput D E U)), P y := by
    simp [receiveTrace]
  apply hrun.invariant (P := fun tr s => Reasons tr s)
    ⟨coupled_start cfg request b, hnone, hnone, hnone, hnone, by simp [uploadTrace]⟩
  intro tr s i s' o h hs
  exact h.step hs

end ClientExchange

end Vakya
