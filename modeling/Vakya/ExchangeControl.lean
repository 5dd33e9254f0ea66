import Vakya.WireOrder

/-!
# What controls an exchange

`Control` is shared by the application and both halves of an exchange. `receive` gives the upload
permission to go on before the application can see the head that permits it, and the exchange is
canceled when the application gives up on a response that was not delivered.
-/

namespace Vakya

open Library

variable {x : Crates} {W : Type} {cfg : ClientConfig} {p₀ : ExchangePolicy}

/-- Whether an upload need not wait any longer once the event was observed. -/
def ResponseEvent.permits : ResponseEvent → Bool
  | .informational message => message.status.code == 100
  | .final _ _ => true

theorem ValidatedResponseHead.permits_event (head : ValidatedResponseHead) :
    head.event.permits = head.permits := by
  unfold event permits
  split_ifs with hfinal
  · simp [ResponseEvent.permits, hfinal]
  · simp [ResponseEvent.permits, hfinal]

namespace ClientReceive

variable {s s' : ClientReceive W} {out : ClientOutput W} {i : ClientCall W} {b : RecvBuffer}
  {tr : List (ClientCall W × ClientOutput W)}

/-- What a call does to the task that waits for permission. -/
def waiter (waker : Option W) : ClientCall W → Option W
  | .pollContinue w => some w
  | .dropContinue => none
  | _ => waker

/-- What a call that is not about the pending response asks of the control. -/
def controls (c : Control W) : ClientCall W → Control W
  | .cancel => c.cancel
  | .abort => c.abort
  | .uploaded => { c with uploadComplete := true }
  | _ => c

theorem gate_of_step (hs : s.step x cfg i = some (s', out)) :
    (s'.gate = ⟨true, none⟩ ∧ out.woke = s.gate.waker ∨
      s'.gate.allowed = s.gate.allowed ∧ out.woke = none ∧
        (s.gate.allowed = false → s'.gate.waker = waiter s.gate.waker i) ∧
        (s.gate.allowed = true → s.gate.waker = none → s'.gate.waker = none)) ∧
    (out.permitted = true → s.gate.allowed = true) := by
  have hkept (hgate : s'.gate = s.gate) (hwoke : out.woke = none) (hpermitted : out.permitted = false)
      (hwaiter : waiter s.gate.waker i = s.gate.waker) :
      (s'.gate = ⟨true, none⟩ ∧ out.woke = s.gate.waker ∨
        s'.gate.allowed = s.gate.allowed ∧ out.woke = none ∧
          (s.gate.allowed = false → s'.gate.waker = waiter s.gate.waker i) ∧
          (s.gate.allowed = true → s.gate.waker = none → s'.gate.waker = none)) ∧
      (out.permitted = true → s.gate.allowed = true) := by
    rw [hgate, hwaiter]
    refine ⟨.inr ⟨rfl, hwoke, fun _ => rfl, fun _ => id⟩, fun hp => ?_⟩
    rw [hpermitted] at hp
    cases hp
  cases i with
  | poll p =>
    rcases allows_poll p s' out hs with h | ⟨hwoke, h⟩
    · exact hkept h.gate h.woke h.permitted rfl
    · refine ⟨.inl ⟨h.gate, hwoke⟩, fun hp => ?_⟩
      rw [show out.permitted = false from h.permitted] at hp
      cases hp
  | drop =>
    have h := drives_drop s' out hs
    exact hkept h.gate h.woke h.permitted rfl
  | fail e =>
    simp only [ClientReceive.step] at hs
    split at hs
    · have h := Drives.act (P := fun _ => True) trivial (fun _ _ => .suspend) s' out hs
      exact hkept h.gate h.woke h.permitted rfl
    · cases hs
  | pollContinue w =>
    simp only [ClientReceive.step, ContinueGate.poll] at hs
    split_ifs at hs with hallowed
    · cases hs
      exact ⟨.inr ⟨rfl, rfl, fun h => absurd hallowed (by simp [h]), fun _ _ => rfl⟩, fun _ => hallowed⟩
    · cases hs
      exact ⟨.inr ⟨rfl, rfl, fun _ => rfl, fun h => absurd h hallowed⟩, fun hp => by cases hp⟩
  | dropContinue =>
    cases hs
    exact ⟨.inr ⟨rfl, rfl, fun _ => rfl, fun _ _ => rfl⟩, fun hp => by cases hp⟩
  | cancel | abort | uploaded =>
    cases hs
    exact hkept rfl rfl rfl rfl
  | pending call =>
    simp only [ClientReceive.step] at hs
    split_ifs at hs
    obtain ⟨r, -, heq⟩ := Option.map_eq_some_iff.mp hs
    cases heq
    exact hkept rfl rfl rfl rfl
  | body call =>
    simp only [ClientReceive.step] at hs
    split at hs
    · split_ifs at hs
      obtain ⟨r, -, heq⟩ := Option.map_eq_some_iff.mp hs
      cases heq
      exact hkept rfl rfl rfl rfl
    · cases hs
  | releaseLease =>
    simp only [ClientReceive.step, ClientReceive.releaseLease] at hs
    split at hs
    · obtain ⟨r, -, heq⟩ := Option.map_eq_some_iff.mp hs
      cases heq
      exact hkept rfl rfl rfl rfl
    · split at hs
      · cases hs
        exact hkept rfl rfl rfl rfl
      · cases hs

theorem allowed_of_step (hs : s.step x cfg i = some (s', out)) (h : s.gate.allowed = true) :
    s'.gate.allowed = true := by
  rcases (gate_of_step hs).1 with ⟨hgate, -⟩ | ⟨hsame, -⟩
  · rw [hgate]
  · rw [hsame, h]

/-- While there is no permission, only the wait itself moves its waiter. -/
theorem waker_of_step (hs : s.step x cfg i = some (s', out)) (h : s'.gate.allowed = false) :
    s'.gate.waker = waiter s.gate.waker i := by
  rcases (gate_of_step hs).1 with ⟨hgate, -⟩ | ⟨hsame, -, hwaiter, -⟩
  · rw [hgate] at h
    cases h
  · exact hwaiter (hsame.symm.trans h)

theorem pending_of_step {call : PendingCall W} (hs : s.step x cfg (.pending call) = some (s', out)) :
    ∃ o, call.isApplication = true ∧ s.pending.step call = some (s'.pending, o) ∧
      s'.control = if o.canceled then s.control.cancel else s.control := by
  simp only [ClientReceive.step] at hs
  split_ifs at hs with hcall
  obtain ⟨⟨pending, o⟩, hstep, heq⟩ := Option.map_eq_some_iff.mp hs
  cases heq
  exact ⟨o, hcall, hstep, rfl⟩

theorem control_of_step (hi : ∀ call, i ≠ .pending call) (hs : s.step x cfg i = some (s', out)) :
    s'.control = controls s.control i ∧ s'.pending.held = s.pending.held ∧
      s'.pending.delivered = s.pending.delivered := by
  cases i with
  | poll p =>
    rcases allows_poll p s' out hs with h | ⟨-, h⟩
    · exact ⟨h.control, h.held, h.delivered⟩
    · exact ⟨h.control, h.held, h.delivered⟩
  | drop =>
    have h := drives_drop s' out hs
    exact ⟨h.control, h.held, h.delivered⟩
  | fail e =>
    simp only [ClientReceive.step] at hs
    split at hs
    · have h := Drives.act (P := fun _ => True) trivial (fun _ _ => .suspend) s' out hs
      exact ⟨h.control, h.held, h.delivered⟩
    · cases hs
  | cancel | abort | uploaded | pollContinue w | dropContinue =>
    cases hs
    exact ⟨rfl, rfl, rfl⟩
  | pending call => exact absurd rfl (hi call)
  | body call =>
    simp only [ClientReceive.step] at hs
    split at hs
    · split_ifs at hs
      obtain ⟨r, -, heq⟩ := Option.map_eq_some_iff.mp hs
      cases heq
      exact ⟨rfl, rfl, rfl⟩
    · cases hs
  | releaseLease =>
    simp only [ClientReceive.step, ClientReceive.releaseLease] at hs
    split at hs
    · obtain ⟨r, -, heq⟩ := Option.map_eq_some_iff.mp hs
      cases heq
      exact ⟨rfl, rfl, rfl⟩
    · split at hs
      · cases hs
        exact ⟨rfl, rfl, rfl⟩
      · cases hs

theorem held_of_step {call : PendingCall W} {calls : List (EventCall W × EventCallOutput W)} {rs : List EventResult}
    (hinv : s.pending.Inv calls rs) (hs : s.step x cfg (.pending call) = some (s', out)) :
    call = .drop ∧ s'.pending.held = false ∧ s'.pending.delivered = s.pending.delivered ∧
      s'.control = (if s.pending.delivered then s.control else s.control.cancel) ∨
    call ≠ .drop ∧ s'.pending.held = s.pending.held ∧
      (s.pending.held = false → s'.pending.delivered = s.pending.delivered) ∧ s'.control = s.control := by
  obtain ⟨o, hcall, hstep, hcontrol⟩ := pending_of_step hs
  obtain ⟨-, ⟨hother, hheld, hquiet⟩ | ⟨rfl, hheld, hgone, hcanceled, hdelivered⟩⟩ := hinv.step hstep
  · refine .inr ⟨hother, hheld, fun hgone => ?_, by simpa [hquiet] using hcontrol⟩
    -- A response that was given up is not polled again.
    obtain ⟨hnext, -⟩ := hinv.unheld hgone
    cases call with
    | producer call => cases hcall
    | nextEvent => simp [PendingResponse.step, hgone] at hstep
    | pollEvent w => simp [PendingResponse.step, PendingResponse.pollEvent, hnext] at hstep
    | dropEvent => simp [PendingResponse.step, PendingResponse.dropEvent, hnext] at hstep
    | drop => exact absurd rfl hother
  · refine .inl ⟨rfl, hgone, hdelivered, ?_⟩
    rw [hcontrol, hcanceled]
    cases s.pending.delivered <;> rfl

/-- The task that waits for permission after a run: the last one that polled the wait, unless the wait
was dropped since. -/
def waitingTask (tr : List (ClientCall W × ClientOutput W)) : Option W :=
  tr.foldl (fun waker y => waiter waker y.1) none

theorem waker_of_reaches (hrun : (clientReceive W x cfg).Reaches (start cfg p₀ b) tr s) :
    (s.gate.allowed = true → s.gate.waker = none) ∧ (s.gate.allowed = false → s.gate.waker = waitingTask tr) := by
  refine hrun.invariant (P := fun tr s => (s.gate.allowed = true → s.gate.waker = none) ∧
    (s.gate.allowed = false → s.gate.waker = waitingTask tr)) ⟨fun _ => rfl, fun _ => rfl⟩ ?_
  rintro tr s i s' out ⟨hnone, hwaits⟩ hs
  refine ⟨fun hallowed => ?_, fun hclosed => ?_⟩
  · rcases (gate_of_step hs).1 with ⟨hgate, -⟩ | ⟨hsame, -, -, hkeep⟩
    · rw [hgate]
    · rw [hsame] at hallowed
      exact hkeep hallowed (hnone hallowed)
  · have hbefore : s.gate.allowed = false := by
      rw [← Bool.not_eq_true]
      intro hallowed
      rw [allowed_of_step hs hallowed] at hclosed
      cases hclosed
    rw [waker_of_step hs hclosed, hwaits hbefore, waitingTask, waitingTask, List.foldl_append]
    rfl

/-- The upload may go on as soon as a head that permits it was heard, and so before the application
can have observed that head; permission is never taken back, and a wait for it is over only then. A
waiter is kept for as long as it waits, and it is woken when permission is given. -/
theorem continue_permission (hx : x.HeadersWithin) (hb : b.Sound) (hmax : b.maxRetained = cfg.settings.maxRetained)
    (hphase : p₀.phase = .awaitingHead) (hrun : (clientReceive W x cfg).Reaches (start cfg p₀ b) tr s) :
    (∃ consumed heads rest, b.bytes ++ wireBytes tr = consumed ++ rest ∧ Heard x cfg p₀ consumed heads s.policy ∧
      s.gate.allowed = heads.any (·.permits)) ∧
    (∀ event ∈ observedEvents (observations tr), event.permits = true → s.gate.allowed = true) ∧
    (s.gate.allowed = true → s.gate.waker = none) ∧
    (s.gate.allowed = false → s.gate.waker = waitingTask tr) ∧
    ∀ i s' out, s.step x cfg i = some (s', out) → (out.permitted = true → s.gate.allowed = true) ∧
      (s.gate.allowed = true → s'.gate.allowed = true) ∧
      (s.gate.allowed = false → s'.gate.allowed = true → out.woke = s.gate.waker) := by
  have hinv := inv_of_reaches hx hb hmax hphase hrun
  obtain ⟨consumed, heads, rest, hhear, hstage⟩ := hinv
  obtain ⟨hnone, hwaits⟩ := waker_of_reaches hrun
  refine ⟨⟨consumed, heads, rest, hhear.wire_eq, hhear.heard, hhear.gate⟩, ?_, hnone, hwaits, ?_⟩
  · intro event hmem hpermits
    rw [hhear.pending.observed.events_eq] at hmem
    obtain ⟨⟨last, hlast, -⟩, -⟩ := hstage.parts hhear.pending
    have hpassed : event ∈ heads.map (·.event) := by
      rw [← hhear.passed, hlast]
      exact List.mem_append_left _ hmem
    obtain ⟨head, hhead, rfl⟩ := List.mem_map.mp hpassed
    rw [hhear.gate]
    exact List.any_eq_true.mpr ⟨head, hhead, (ValidatedResponseHead.permits_event head).symm.trans hpermits⟩
  · intro i s' out hs
    obtain ⟨hgate, hpermitted⟩ := gate_of_step hs
    refine ⟨hpermitted, allowed_of_step hs, fun hclosed hopen => ?_⟩
    rcases hgate with ⟨-, hwoke⟩ | ⟨hsame, -⟩
    · exact hwoke
    · rw [hsame, hclosed] at hopen
      cases hopen

/-- An upload waits while the response is read: its task is kept until the first head, and then woken. -/
theorem continue_permission_woken :
    (∃ tr s, (clientReceive Unit reference sampleClient).Reaches (start sampleClient sampleGetPolicy sampleBuffer) tr s ∧
      wireBytes tr = sampleContinue.take 25 ∧ s.gate.allowed = false ∧ s.gate.waker = some ()) ∧
    ∃ tr s, (clientReceive Unit reference sampleClient).Reaches (start sampleClient sampleGetPolicy sampleBuffer) tr s ∧
      wireBytes tr = sampleContinue.take 25 ∧ observations tr = [] ∧ s.gate.allowed = true ∧ s.gate.waker = none ∧
      tr.any (fun y => y.2.woke = some ()) = true := by
  constructor
  · obtain ⟨tr, s, hrun, -, htest⟩ := sample_reaches
      [.pollContinue (), samplePoll none, samplePoll none, sampleRead (sampleContinue.take 25)]
      (fun tr s => decide (wireBytes tr = sampleContinue.take 25) && !s.gate.allowed &&
        decide (waitingTask tr = some ())) (by decide +kernel)
    simp only [Bool.and_eq_true, decide_eq_true_eq, Bool.not_eq_true'] at htest
    obtain ⟨⟨hwire, hclosed⟩, hwaiting⟩ := htest
    obtain ⟨-, -, -, hwaits, -⟩ := continue_permission Reference.headersWithin sampleBuffer_sound rfl rfl hrun
    exact ⟨tr, s, hrun, hwire, hclosed, (hwaits hclosed).trans hwaiting⟩
  · obtain ⟨tr, s, hrun, -, htest⟩ := sample_reaches
      [.pollContinue (), samplePoll none, samplePoll none, sampleRead (sampleContinue.take 25), samplePoll none]
      (fun tr s => decide (wireBytes tr = sampleContinue.take 25) && (observations tr).isEmpty && s.gate.allowed &&
        tr.any (fun y => y.2.woke = some ())) (by decide +kernel)
    simp only [Bool.and_eq_true, decide_eq_true_eq, List.isEmpty_iff] at htest
    obtain ⟨⟨⟨hwire, hnone⟩, hallowed⟩, hwoke⟩ := htest
    obtain ⟨-, -, hwaker, -, -⟩ := continue_permission Reference.headersWithin sampleBuffer_sound rfl rfl hrun
    exact ⟨tr, s, hrun, hwire, hnone, hallowed, hwaker hallowed, hwoke⟩

/-- The upload was aborted before it was recorded to be complete. -/
def Aborts (tr : List (ClientCall W × ClientOutput W)) : Prop :=
  ∃ before y after, tr = before ++ y :: after ∧ y.1 = .abort ∧ ∀ z ∈ before, z.1 ≠ .uploaded

theorem aborts_concat (tr : List (ClientCall W × ClientOutput W)) (y : ClientCall W × ClientOutput W) :
    Aborts (tr ++ [y]) ↔ Aborts tr ∨ y.1 = .abort ∧ ∀ z ∈ tr, z.1 ≠ .uploaded := by
  constructor
  · rintro ⟨before, z, after, heq, habort, hnone⟩
    rcases List.eq_nil_or_concat after with rfl | ⟨after, last, rfl⟩
    · obtain ⟨rfl, hlast⟩ := List.append_inj' heq rfl
      rw [List.singleton_inj.mp hlast]
      exact .inr ⟨habort, hnone⟩
    · left
      rw [List.concat_eq_append, ← List.cons_append, ← List.append_assoc] at heq
      obtain ⟨rfl, -⟩ := List.append_inj' heq rfl
      exact ⟨before, z, after, rfl, habort, hnone⟩
  · rintro (⟨before, z, after, rfl, habort, hnone⟩ | ⟨habort, hnone⟩)
    · exact ⟨before, z, after ++ [y], by simp, habort, hnone⟩
    · exact ⟨tr, y, [], rfl, habort, hnone⟩

/-- What the control of an exchange says was asked for. -/
structure Controlled (tr : List (ClientCall W × ClientOutput W)) (s : ClientReceive W) : Prop where
  held : s.pending.held = false ↔ ∃ y ∈ tr, y.1 = .pending .drop
  exchange : s.control.exchange = true ↔
    (∃ y ∈ tr, y.1 = .cancel) ∨ s.pending.held = false ∧ s.pending.delivered = false
  complete : s.control.uploadComplete = true ↔ ∃ y ∈ tr, y.1 = .uploaded
  aborted : s.control.aborted = true ↔ Aborts tr
  upload : s.control.upload = true ↔ s.control.exchange = true ∨ s.control.aborted = true

theorem mem_concat_call (tr : List (ClientCall W × ClientOutput W)) (call : ClientCall W) :
    (∃ y ∈ tr ++ [(i, out)], y.1 = call) ↔ (∃ y ∈ tr, y.1 = call) ∨ i = call := by
  simp [or_and_right, exists_or]

theorem Controlled.quiet (h : Controlled tr s) (hcancel : i ≠ .cancel) (habort : i ≠ .abort) (huploaded : i ≠ .uploaded)
    (hdrop : i ≠ .pending .drop) (hcontrol : s'.control = s.control) (hheld : s'.pending.held = s.pending.held)
    (hdelivered : s.pending.held = false → s'.pending.delivered = s.pending.delivered) :
    Controlled (tr ++ [(i, out)]) s' := by
  constructor
  · rw [mem_concat_call, hheld, h.held]
    simp [hdrop]
  · rw [mem_concat_call, hcontrol, hheld, h.exchange]
    simp only [hcancel, or_false]
    refine or_congr_right (and_congr_right fun hgone => ?_)
    rw [hdelivered hgone]
  · rw [mem_concat_call, hcontrol, h.complete]
    simp [huploaded]
  · rw [aborts_concat, hcontrol, h.aborted]
    simp [habort]
  · rw [hcontrol, h.upload]

theorem Controlled.abort (h : Controlled tr s) (hcontrol : s'.control = s.control.abort)
    (hheld : s'.pending.held = s.pending.held) (hdelivered : s'.pending.delivered = s.pending.delivered) :
    Controlled (tr ++ [(.abort, out)]) s' := by
  have hcomplete := h.complete
  unfold Control.abort at hcontrol
  split_ifs at hcontrol with hdone
  · obtain ⟨y, hy, hcall⟩ := hcomplete.mp hdone
    constructor
    · rw [mem_concat_call, hheld, h.held]
      simp
    · rw [mem_concat_call, hcontrol, hheld, hdelivered, h.exchange]
      simp
    · rw [mem_concat_call, hcontrol, h.complete]
      simp
    · rw [aborts_concat, hcontrol, h.aborted]
      refine (or_iff_left fun hnone => ?_).symm
      exact hnone.2 y hy hcall
    · rw [hcontrol, h.upload]
  · rw [hcomplete] at hdone
    constructor
    · rw [mem_concat_call, hheld, h.held]
      simp
    · rw [mem_concat_call, hcontrol, hheld, hdelivered]
      simp [h.exchange]
    · rw [mem_concat_call, hcontrol]
      simp [h.complete]
    · rw [aborts_concat, hcontrol]
      exact iff_of_true rfl (.inr ⟨rfl, fun z hz hcall => hdone ⟨z, hz, hcall⟩⟩)
    · rw [hcontrol]
      simp

theorem Controlled.step (h : Controlled tr s) {calls : List (EventCall W × EventCallOutput W)} {rs : List EventResult}
    (hinv : s.pending.Inv calls rs) (hs : s.step x cfg i = some (s', out)) : Controlled (tr ++ [(i, out)]) s' := by
  by_cases hpending : ∃ call, i = .pending call
  · obtain ⟨call, rfl⟩ := hpending
    rcases held_of_step hinv hs with ⟨rfl, hgone, hdelivered, hcontrol⟩ | ⟨hother, hheld, hdelivered, hcontrol⟩
    · constructor
      · rw [mem_concat_call, hgone]
        simp
      · rw [mem_concat_call, hcontrol, hgone, hdelivered]
        cases hd : s.pending.delivered with
        | false => simp [Control.cancel]
        | true => simp [h.exchange, hd]
      · rw [mem_concat_call, hcontrol]
        cases s.pending.delivered <;> simp [Control.cancel, h.complete]
      · rw [aborts_concat, hcontrol]
        cases s.pending.delivered <;> simp [Control.cancel, h.aborted]
      · rw [hcontrol]
        cases s.pending.delivered with
        | false => simp [Control.cancel]
        | true => exact h.upload
    · exact h.quiet (by simp) (by simp) (by simp) (by simpa using hother) hcontrol hheld hdelivered
  · obtain ⟨hcontrol, hheld, hdelivered⟩ := control_of_step (fun call heq => hpending ⟨call, heq⟩) hs
    have hother : i ≠ .pending .drop := fun heq => hpending ⟨.drop, heq⟩
    cases i with
    | cancel =>
      constructor
      · rw [mem_concat_call, hheld, h.held]
        simp
      · rw [mem_concat_call, hcontrol]
        simp [controls, Control.cancel]
      · rw [mem_concat_call, hcontrol]
        simp [controls, Control.cancel, h.complete]
      · rw [aborts_concat, hcontrol]
        simp [controls, Control.cancel, h.aborted]
      · rw [hcontrol]
        simp [controls, Control.cancel]
    | abort => exact h.abort hcontrol hheld hdelivered
    | uploaded =>
      constructor
      · rw [mem_concat_call, hheld, h.held]
        simp
      · rw [mem_concat_call, hcontrol, hheld, hdelivered]
        simp [controls, h.exchange]
      · rw [mem_concat_call, hcontrol]
        simp [controls]
      · rw [aborts_concat, hcontrol]
        simp [controls, h.aborted]
      · rw [hcontrol]
        exact h.upload
    | poll p | body call | fail e | pollContinue w =>
      exact h.quiet (by simp) (by simp) (by simp) (by simp) hcontrol hheld fun _ => hdelivered
    | drop | dropContinue | releaseLease =>
      exact h.quiet (by simp) (by simp) (by simp) (by simp) hcontrol hheld fun _ => hdelivered
    | pending call => exact absurd ⟨call, rfl⟩ hpending

theorem controlled_of_reaches (hx : x.HeadersWithin) (hb : b.Sound) (hmax : b.maxRetained = cfg.settings.maxRetained)
    (hphase : p₀.phase = .awaitingHead) (hrun : (clientReceive W x cfg).Reaches (start cfg p₀ b) tr s) :
    Controlled tr s := by
  have hstart : Controlled [] (start cfg p₀ b : ClientReceive W) := by
    constructor <;> simp [start, PendingResponse.new, Control.new, Aborts]
  refine (hrun.invariant (P := fun tr s => Inv x cfg p₀ (b.bytes ++ wireBytes tr) (channelCalls tr)
    (observations tr) (bodyCalls tr) s ∧ Controlled tr s) ⟨?_, hstart⟩ ?_).2
  · simpa [wireBytes, channelCalls, observations, bodyCalls] using inv_start hb hmax hphase
  · rintro tr s i s' out ⟨hinv, hcontrolled⟩ hs
    refine ⟨by simpa [wireBytes, channelCalls, observations, bodyCalls] using hinv.step hx hs, ?_⟩
    obtain ⟨consumed, heads, rest, hhear, hstage⟩ := hinv
    exact hcontrolled.step hhear.pending hs

/-- The exchange is canceled from outside, or because the application dropped the response before its
final head was delivered, and for no other reason. The upload is canceled with the exchange, or because
it was aborted before it was complete. -/
theorem exchange_canceled_iff (hx : x.HeadersWithin) (hb : b.Sound)
    (hmax : b.maxRetained = cfg.settings.maxRetained) (hphase : p₀.phase = .awaitingHead)
    (hrun : (clientReceive W x cfg).Reaches (start cfg p₀ b) tr s) :
    (s.control.exchange = true ↔ (∃ y ∈ tr, y.1 = .cancel) ∨
      (∃ y ∈ tr, y.1 = .pending .drop) ∧ ∀ event ∈ observedEvents (observations tr), event.isFinal = false) ∧
    (s.control.upload = true ↔ s.control.exchange = true ∨ Aborts tr) ∧
    (s.control.aborted = true ↔ Aborts tr) := by
  obtain ⟨consumed, heads, rest, hhear, hstage⟩ := inv_of_reaches hx hb hmax hphase hrun
  have hcontrolled := controlled_of_reaches hx hb hmax hphase hrun
  refine ⟨?_, by rw [hcontrolled.upload, hcontrolled.aborted], hcontrolled.aborted⟩
  have hdelivered := hhear.pending.observed.delivered_iff
  rw [← hhear.pending.observed.events_eq] at hdelivered
  rw [hcontrolled.exchange, hcontrolled.held, hdelivered]
  simp

/-- The response is dropped before anything was observed; or an upload is aborted, and that leaves the
exchange alone. -/
theorem exchange_canceled_iff_unobserved :
    (∃ tr s, (clientReceive Unit reference sampleClient).Reaches (start sampleClient sampleGetPolicy sampleBuffer) tr s ∧
      (∀ y ∈ tr, y.1 ≠ .cancel) ∧ s.control.exchange = true) ∧
    ∃ tr s, (clientReceive Unit reference sampleClient).Reaches (start sampleClient sampleGetPolicy sampleBuffer) tr s ∧
      s.control.upload = true ∧ s.control.exchange = false := by
  constructor
  · obtain ⟨tr, s, hrun, hcalls, htest⟩ := sample_reaches [samplePoll none, .pending .drop]
      (fun tr _ => (observations tr).isEmpty) (by decide +kernel)
    rw [List.isEmpty_iff] at htest
    have hcall (y : ClientCall Unit × ClientOutput Unit) (hy : y ∈ tr) : y.1 = samplePoll none ∨ y.1 = .pending .drop := by
      have hmem : y.1 ∈ tr.map Prod.fst := List.mem_map_of_mem hy
      simpa [hcalls] using hmem
    refine ⟨tr, s, hrun, fun y hy hcancel => ?_, ?_⟩
    · rcases hcall y hy with h | h <;> rw [hcancel] at h <;> cases h
    · apply (exchange_canceled_iff Reference.headersWithin sampleBuffer_sound rfl rfl hrun).1.mpr
      refine .inr ⟨?_, by simp [htest, observedEvents]⟩
      have hmem : .pending .drop ∈ tr.map Prod.fst := by simp [hcalls]
      obtain ⟨y, hy, heq⟩ := List.mem_map.mp hmem
      exact ⟨y, hy, heq⟩
  · obtain ⟨tr, s, hrun, hcalls, htest⟩ := sample_reaches [.abort] (fun _ s => !s.control.exchange) (by decide +kernel)
    rw [Bool.not_eq_true'] at htest
    refine ⟨tr, s, hrun, ?_, htest⟩
    apply (exchange_canceled_iff Reference.headersWithin sampleBuffer_sound rfl rfl hrun).2.1.mpr
    obtain ⟨y, rfl, hy⟩ := List.map_eq_singleton_iff.mp hcalls
    exact .inr ⟨[], y, [], rfl, hy, by simp⟩

end ClientReceive

end Vakya
