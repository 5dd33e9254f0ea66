import Vakya.Fairness
import Vakya.ClientDriver

/-!
# The moves of the client driver

What one operation of the client driver can do to its jobs. Admission enters
only through the queued job, the receiver and the exchange that holds it; the
rest of its state is the business of the senders.
-/

namespace Vakya

open Library

variable {W : Type}

/-! ## What the senders can do -/

namespace ClientAdmission

/-- The driver's side of admission is as before, and a closed admission stays closed. -/
structure SameDriver (s s' : ClientAdmission ℕ W) : Prop where
  jobs : s'.admission.jobs = s.admission.jobs
  receiver : s'.receiver = s.receiver
  holding : s'.holding = s.holding
  closed : s.admission.isClosed = true → s'.admission.isClosed = true

variable {s s' : ClientAdmission ℕ W}

theorem SameDriver.of_admission (ha : s'.admission = s.admission) (hr : s'.receiver = s.receiver)
    (hh : s'.holding = s.holding) : SameDriver s s' :=
  ⟨by rw [ha], hr, hh, by rw [ha]; exact id⟩

theorem tryReserve_sameDriver : SameDriver s s.tryReserve.1 := by
  unfold tryReserve
  split_ifs
  · exact .of_admission rfl rfl rfl
  · cases ha : s.admission with
    | ready => exact ⟨by simp [Admission.jobs, ha], rfl, rfl, by simp [ha, Admission.isClosed]⟩
    | _ => exact .of_admission rfl rfl rfl

theorem isClosed_setWaiter (a : Admission ℕ W) (v : Option W) : (a.setWaiter v).isClosed = a.isClosed := by
  cases a <;> rfl

theorem dropReservation_sameDriver (id : ℕ) (registered : Option W) :
    SameDriver s (s.dropReservation id registered) := by
  obtain ⟨hjobs, hrecv⟩ := dropReservation_jobs s id registered
  refine ⟨hjobs, hrecv, ?_, fun hc => ?_⟩ <;> unfold dropReservation <;> cases registered with
  | none => first | rfl | exact hc
  | some w =>
    simp only [setReservation]
    split
    · rename_i ha
      first | rfl | simp [ha, Admission.isClosed] at hc
    · first | rfl | simpa [isClosed_setWaiter] using hc

theorem pollReserve_sameDriver (id : ℕ) (registered : Option W) (w : W) :
    SameDriver s (s.pollReserve id registered w).1 := by
  unfold pollReserve
  split_ifs with hc
  · exact dropReservation_sameDriver id registered
  · simp only [Bool.or_eq_true, not_or, Bool.not_eq_true] at hc
    split
    · rename_i ha
      exact ⟨by simp [grant, Admission.jobs, ha], rfl, rfl, by simp [ha, Admission.isClosed]⟩
    · rename_i ha
      exact ⟨by simp [grant, Admission.jobs, ha], rfl, rfl, by simp [ha, Admission.isClosed]⟩
    · exact .of_admission rfl rfl rfl
    · split_ifs
      · exact dropReservation_sameDriver id _
      · split
        · exact .of_admission rfl rfl rfl
        · exact ⟨by simp [register, Admission.jobs_setWaiter], rfl, rfl,
            by simp [register, isClosed_setWaiter]⟩

theorem releaseShared_sameDriver (event : AdmissionEvent ℕ) : SameDriver s (s.releaseShared event).1 := by
  rcases s with ⟨a, stopping, control, senders, driver, reservations, permits, receiver, holding⟩
  cases a with
  | reserved v => cases v <;> exact ⟨rfl, rfl, rfl, nofun⟩
  | active v => cases v <;> exact ⟨rfl, rfl, rfl, nofun⟩
  | closed => exact ⟨rfl, rfl, rfl, fun _ => rfl⟩
  | _ => exact .of_admission rfl rfl rfl

theorem applies_sameDriver {i : AdmissionCall ℕ W} {o : AdmissionOutput ℕ W}
    (hi : ClientDriver.applies i = true) (hs : s.step i = some (s', o)) : SameDriver s s' := by
  cases i with
  | cloneSender | dropSender | shutdown | reserve =>
    simp only [step] at hs
    first
      | split_ifs at hs
        cases hs
        exact .of_admission rfl rfl rfl
      | cases hs
        exact .of_admission rfl rfl rfl
  | tryReserve =>
    simp only [step] at hs
    split_ifs at hs
    have := tryReserve_sameDriver (s := s)
    rwa [Option.some.inj hs] at this
  | pollReserve id w =>
    simp only [step] at hs
    split at hs
    · cases hs
    · rename_i registered _
      have := pollReserve_sameDriver (s := s) id registered w
      rwa [Option.some.inj hs] at this
  | dropReserve id =>
    simp only [step] at hs
    split at hs
    · cases hs
    · rename_i registered _
      cases hs
      exact dropReservation_sameDriver id registered
  | dropPermit =>
    simp only [step] at hs
    split_ifs at hs
    have := releaseShared_sameDriver (s := { s with permits := s.permits - 1 }) .quiet
    rw [Option.some.inj hs] at this
    exact ⟨this.jobs, this.receiver, this.holding, this.closed⟩
  | _ => cases hi

end ClientAdmission

/-! ## The driver's core -/

abbrev Publication := ℕ × Except Error ExchangeOutcome

def publishAll (controls : ℕ → Control W) (pubs : List Publication) : ℕ → Control W :=
  pubs.foldl (fun c x => Function.update c x.1 ((c x.1).publish x.2)) controls

@[simp] theorem publishAll_nil (controls : ℕ → Control W) : publishAll controls [] = controls := rfl

theorem publishAll_cons (controls : ℕ → Control W) (x : Publication) (pubs : List Publication) :
    publishAll controls (x :: pubs) =
      publishAll (Function.update controls x.1 ((controls x.1).publish x.2)) pubs := rfl

theorem publishAll_append (controls : ℕ → Control W) (p q : List Publication) :
    publishAll controls (p ++ q) = publishAll (publishAll controls p) q := by
  simp [publishAll, List.foldl_append]

theorem publishAll_induct {P : Control W → Prop} (hpublish : ∀ c r, P c → P (c.publish r))
    {controls : ℕ → Control W} {id : ℕ} (h : P (controls id)) (pubs : List Publication) :
    P (publishAll controls pubs id) := by
  induction pubs generalizing controls with
  | nil => exact h
  | cons x pubs ih =>
    rw [publishAll_cons]
    apply ih
    by_cases hid : id = x.1
    · subst hid
      rw [Function.update_self]
      exact hpublish _ _ h
    · rwa [Function.update_of_ne hid]

def lost (id : ℕ) : Publication := (id, .error driverLost)

structure DriverCore (W : Type) where
  jobs : ℕ
  queue : List ℕ
  receiver : Bool
  phase : DriverPhase
  terminal : Option (ℕ × ExchangeOutcome)
  controls : ℕ → Control W

/-- What the guard in `terminal` publishes when the run ends with `r`. -/
def terminalPublication (terminal : Option (ℕ × ExchangeOutcome)) (r : Except Error ConnectionOutcome) :
    List Publication :=
  terminal.toList.map fun t => (t.1, r.map fun _ => t.2)

namespace DriverPhase

def isExchanging : DriverPhase → Bool
  | .exchanging _ _ _ => true
  | _ => false

end DriverPhase

namespace ClientDriver

open ClientAdmission

def core (s : ClientDriver W) : DriverCore W :=
  ⟨s.jobs, s.admission.admission.jobs, s.admission.receiver, s.phase, s.terminal, s.controls⟩

/-- Admission against the phase of the driver. -/
structure Linked (s : ClientDriver W) : Prop where
  inv : s.admission.Inv
  holding : s.admission.holding = s.phase.isExchanging
  closed : s.admission.receiver = false → s.admission.admission.isClosed = true

theorem linked_open {s : ClientDriver W} (hinv : s.admission.Inv)
    (hh : s.admission.holding = s.phase.isExchanging) (hr : s.admission.receiver = true) : s.Linked :=
  ⟨hinv, hh, fun h => by simp [hr] at h⟩

variable {p : Driven W}

theorem dropRequests_spec (hinv : p.1.admission.Inv) :
    ∃ admission woke, dropRequests p =
        ({ p.1 with
            admission := admission
            controls := publishAll p.1.controls (p.1.admission.admission.jobs.map lost) },
          { p.2 with
            published := p.2.published ++ p.1.admission.admission.jobs.map lost
            woke := woke }) ∧
      admission.Inv ∧ admission.holding = false ∧ admission.receiver = false ∧
      admission.admission = .closed := by
  obtain ⟨howned, hunique, -⟩ := (dropReceiver_inv hinv).1
  have hclosed : ({ p.1.admission.dropReceiver.1 with holding := false } : ClientAdmission ℕ W).Inv := by
    refine ⟨⟨?_, rfl⟩, hunique, trivial⟩
    have hle := howned.1
    change p.1.admission.permits + 0 ≤ 1
    change p.1.admission.permits + p.1.admission.holding.toNat ≤ 1 at hle
    omega
  rcases p with ⟨⟨⟨a, _, _, _, _, _, _, _, _⟩, _, _, _, _, _, _⟩, o⟩
  cases a with
  | queued job v => exact ⟨_, _, rfl, hclosed, rfl, rfl, rfl⟩
  | _ => exact ⟨_, _, by simp [dropRequests, dropReceiver, Admission.close, Admission.jobs]; rfl, hclosed, rfl, rfl, rfl⟩

theorem dropRequests_idle (hinv : p.1.admission.Inv) (hq : p.1.admission.admission.jobs = []) :
    ∃ admission woke, dropRequests p = ({ p.1 with admission := admission }, { p.2 with woke := woke }) ∧
      admission.Inv ∧ admission.holding = false ∧ admission.receiver = false ∧
      admission.admission = .closed := by
  obtain ⟨admission, woke, hdrop, hrest⟩ := dropRequests_spec hinv
  refine ⟨admission, woke, ?_, hrest⟩
  rw [hdrop, hq]
  simp

theorem finishRun_spec (p : Driven W) (r : Except Error ConnectionOutcome) :
    ∃ woke, finishRun p r =
      ({ p.1 with
          admission := { p.1.admission with stopping := true, control := none }
          phase := .ended (drive p.1.aborting r), terminal := none
          controls := publishAll p.1.controls (terminalPublication p.1.terminal (drive p.1.aborting r)) },
        { p.2 with
          published := p.2.published ++ terminalPublication p.1.terminal (drive p.1.aborting r)
          woke := woke }) := by
  unfold finishRun
  rcases p with ⟨⟨admission, jobs, controls, phase, terminal, aborting, recovering⟩, o⟩
  cases terminal with
  | none => exact ⟨_, by simp [terminalPublication]; rfl⟩
  | some t => exact ⟨_, rfl⟩

end ClientDriver

namespace DriverCore

def returned (c : DriverCore W) (r : Except Error ConnectionOutcome) (pubs : List Publication) : DriverCore W :=
  { c with
    queue := [], receiver := false, phase := .ended r, terminal := none
    controls := publishAll c.controls pubs }

def shutting (c : DriverCore W) (terminal : Option (ℕ × ExchangeOutcome)) : DriverCore W :=
  { c with queue := [], receiver := false, phase := .shuttingDown, terminal := terminal }

end DriverCore

namespace ClientDriver

open ClientAdmission

/-- What an operation has done by the time it has turned `p` into `p'`. -/
structure Drives (p p' : Driven W) (core : DriverCore W) (reopened : Bool) (pubs : List Publication) :
    Prop where
  linked : p'.1.Linked
  core : p'.1.core = core
  event : p'.2.event = p.2.event
  reopened : p'.2.reopened = reopened
  published : p'.2.published = p.2.published ++ pubs

variable {p : Driven W}

theorem endRun_spec (hinv : p.1.admission.Inv) (hq : p.1.admission.admission.jobs = [])
    (t : Option (ℕ × ExchangeOutcome)) (r : Except Error ConnectionOutcome) :
    Drives p (finishRun (setTerminal (dropRequests p) t) r)
      (p.1.core.returned (drive p.1.aborting r) (terminalPublication t (drive p.1.aborting r)))
      p.2.reopened (terminalPublication t (drive p.1.aborting r)) := by
  obtain ⟨admission, woke, hdrop, hinv', hh, hr, ha⟩ := dropRequests_idle hinv hq
  obtain ⟨woke', hfinish⟩ := finishRun_spec (setTerminal (dropRequests p) t) r
  rw [hfinish, hdrop]
  refine ⟨⟨hinv'.congr rfl rfl rfl rfl rfl, hh, fun _ => ?_⟩, ?_, rfl, rfl, rfl⟩
  · show admission.admission.isClosed = true
    rw [ha]
    rfl
  · simp only [core, DriverCore.returned, setTerminal, ha, hr]
    rfl

theorem failRun_spec (hinv : p.1.admission.Inv) (hq : p.1.admission.admission.jobs = []) (e : Error) :
    Drives p (failRun p e)
      (p.1.core.returned (drive p.1.aborting (.error e))
        (terminalPublication p.1.terminal (drive p.1.aborting (.error e))))
      p.2.reopened (terminalPublication p.1.terminal (drive p.1.aborting (.error e))) := by
  have hsame : dropRequests p = setTerminal (dropRequests p) p.1.terminal := by
    obtain ⟨admission, woke, hdrop, -⟩ := dropRequests_idle hinv hq
    rw [hdrop]
    rfl
  unfold failRun
  rw [hsame]
  exact endRun_spec hinv hq _ _

theorem leave_spec (hinv : p.1.admission.Inv) (hq : p.1.admission.admission.jobs = []) (canRecover : Bool) :
    Drives p (leave p canRecover) (p.1.core.shutting p.1.terminal) p.2.reopened [] ∨
      Drives p (leave p canRecover)
        (p.1.core.returned (drive p.1.aborting (.ok .recovered))
          (terminalPublication p.1.terminal (drive p.1.aborting (.ok .recovered))))
        p.2.reopened (terminalPublication p.1.terminal (drive p.1.aborting (.ok .recovered))) := by
  obtain ⟨admission, woke, hdrop, hinv', hh, hr, ha⟩ := dropRequests_idle hinv hq
  have hsame : dropRequests p = setTerminal (dropRequests p) p.1.terminal := by
    rw [hdrop]
    rfl
  unfold leave
  by_cases hrec : ((dropRequests p).1.recovering && canRecover) = true
  · right
    simp only [hrec, if_true]
    rw [hsame]
    exact endRun_spec hinv hq _ _
  · left
    simp only [hrec, Bool.false_eq_true, if_false]
    rw [hdrop]
    refine ⟨⟨hinv', hh, fun _ => ?_⟩, ?_, rfl, rfl, by simp⟩
    · show admission.admission.isClosed = true
      rw [ha]
      rfl
    · simp only [core, DriverCore.shutting, ha, hr]
      rfl

end ClientDriver

/-! ## The moves of the driver -/

namespace Control

def Sound (c : Control W) : Prop := c.receipt.isSome = true → c.completion.taken = true

/-- The result is in its slot, unless the receipt has returned it or was dropped. -/
def Delivered (c : Control W) (r : Except Error ExchangeOutcome) : Prop :=
  c.completion.result = some r ∨ c.completion.abandoned = true ∨ c.receipt = some true

end Control

/-- A change of a control that leaves the upload alone and stores no result. -/
structure Harmless (c c' : Control W) : Prop where
  uploadComplete : c'.uploadComplete = c.uploadComplete
  aborted : c'.aborted = c.aborted
  result : c'.completion.result = none ∨ c'.completion.result = c.completion.result
  sound : c.Sound → c'.Sound
  delivered : c.Sound → ∀ r, c.Delivered r → c'.Delivered r

namespace Harmless

theorem refl (c : Control W) : Harmless c c := ⟨rfl, rfl, .inr rfl, id, fun _ _ => id⟩

theorem cancel (c : Control W) : Harmless c c.cancel := ⟨rfl, rfl, .inr rfl, id, fun _ _ => id⟩

theorem cancelIf (c : Control W) (b : Bool) : Harmless c (if b then c.cancel else c) := by
  cases b
  · exact refl c
  · exact cancel c

theorem takeCompletion (c : Control W) : Harmless c c.takeCompletion := by
  unfold Control.takeCompletion
  split_ifs with ht
  · exact refl c
  · refine ⟨rfl, rfl, .inr rfl, fun _ _ => rfl, fun hs r hr => ?_⟩
    rcases hr with hr | hr | hr
    · exact .inl hr
    · exact .inr (.inl hr)
    · exact absurd (hs (by simp [hr])) ht

theorem pollCompletion {c : Control W} (w : W) (hr : c.receipt = some false) :
    Harmless c (c.pollCompletion w) := by
  unfold Control.pollCompletion
  split
  · exact ⟨rfl, rfl, .inl rfl, fun hs _ => hs (by simp [hr]), fun _ _ _ => .inr (.inr rfl)⟩
  · rename_i hn
    refine ⟨rfl, rfl, .inr rfl, id, fun _ r h => ?_⟩
    simpa [Control.Delivered] using h

theorem dropCompletion (c : Control W) : Harmless c c.dropCompletion :=
  ⟨rfl, rfl, .inl rfl, fun _ => nofun, fun _ _ _ => .inr (.inl rfl)⟩

end Harmless

/-- An error of a half that is not a cancellation is not reported as one. -/
def Originates (sent : Except Error Unit) (received : Except Error ReceivedResponse)
    (result : Except Error ExchangeOutcome) : Prop :=
  ∀ e, sent = .error e ∨ received = .error e → e.isCanceled = false →
    ∃ e', result = .error e' ∧ e'.isCanceled = false ∧ (sent = .error e' ∨ received = .error e')

def LastHalf (s : DriverCore W) (i : DriverCall W) (e : DriverEvent) (id : ℕ) (sent : Except Error Unit)
    (received : Except Error ReceivedResponse) : Prop :=
  (∃ r, i = .sent r) ∧ s.phase = .exchanging id none (some received) ∧ e = .sent id sent ∧
      (sent = .ok () → (s.controls id).uploadComplete = true) ∨
    (∃ r, i = .received r) ∧ s.phase = .exchanging id (some sent) none ∧ e = .received id received

namespace DriverCore

inductive Move (s : DriverCore W) :
    DriverCall W → DriverEvent → Bool → List Publication → DriverCore W → Prop
  | control {i id c} : (∀ j, i ≠ .abort j) → Harmless (s.controls id) c →
      Move s i .quiet false [] { s with controls := Function.update s.controls id c }
  | late {id} : id < s.jobs → (s.controls id).uploadComplete = true → Move s (.abort id) .quiet false [] s
  | abort {id} : id < s.jobs → (s.controls id).uploadComplete = false →
      Move s (.abort id) .quiet false []
        { s with
          controls := Function.update s.controls id { s.controls id with aborted := true, upload := true } }
  | accept : s.queue = [] → s.phase = .waiting →
      Move s .submit (.accepted s.jobs) false []
        { s with
          queue := [s.jobs], jobs := s.jobs + 1
          controls := Function.update s.controls s.jobs .new }
  | start {w id} : s.queue = [id] → s.phase = .waiting →
      Move s (.next w) (.started id) false []
        { s with
          queue := [], phase := .exchanging id none none
          terminal := some (id, .closed .messagePolicy) }
  | upload {id received} : s.phase = .exchanging id none received →
      (s.controls id).uploadComplete = false →
      Move s .uploaded (.uploaded id) false []
        { s with controls := Function.update s.controls id { s.controls id with uploadComplete := true } }
  | firstSent {i id r c} : (∃ r, i = .sent r) → s.phase = .exchanging id none none →
      (r = .ok () → (s.controls id).uploadComplete = true) → Harmless (s.controls id) c →
      Move s i (.sent id r) false []
        { s with phase := .exchanging id (some r) none, controls := Function.update s.controls id c }
  | firstReceived {i id r c} : (∃ r, i = .received r) → s.phase = .exchanging id none none →
      (∀ e buffer policy, r ≠ .ok ⟨.failed e, buffer, policy⟩) → Harmless (s.controls id) c →
      Move s i (.received id r) false []
        { s with phase := .exchanging id none (some r), controls := Function.update s.controls id c }
  | refuse {e id e'} : s.phase = .exchanging id none none →
      Move s (.refuse e) (.refused id) false [(id, .error e')] (s.returned (.error e') [(id, .error e')])
  | settle {i e id sent received outcome r} : LastHalf s i e id sent received →
      outcome ≠ .reusable → Originates sent received (Except.map (fun _ => outcome) r) →
      Move s i e false [(id, Except.map (fun _ => outcome) r)]
        (s.returned r [(id, Except.map (fun _ => outcome) r)])
  | close {i e id sent received outcome} : LastHalf s i e id sent received → outcome ≠ .reusable →
      (∀ e, sent = .error e ∨ received = .error e → e.isCanceled = true) →
      Move s i e false [] (s.shutting (some (id, outcome)))
  | reuse {i e id policy} : LastHalf s i e id (.ok ()) (.ok ⟨.complete, [], policy⟩) →
      policy.finish .complete .complete = .ok .reusable → (s.controls id).aborted = false →
      Move s i e true [(id, .ok .reusable)]
        { s with
          phase := .waiting, terminal := none
          controls := publishAll s.controls [(id, .ok .reusable)] }
  | finish {result r} : s.phase = .shuttingDown →
      Move s (.closed result) .quiet false (terminalPublication s.terminal r)
        (s.returned r (terminalPublication s.terminal r))
  | leave {w} : s.phase = .waiting → s.queue = [] → Move s (.next w) .quiet false [] (s.shutting none)
  | leaveReturned {w r} : s.phase = .waiting → s.queue = [] → Move s (.next w) .quiet false [] (s.returned r [])
  | drop : (∀ r, s.phase ≠ .ended r) → s.phase ≠ .dropped →
      Move s .dropDriver .quiet false ((s.queue ++ s.terminal.toList.map Prod.fst).map lost)
        { s with
          queue := [], receiver := false, phase := .dropped, terminal := none
          controls := publishAll s.controls ((s.queue ++ s.terminal.toList.map Prod.fst).map lost) }

def held (s : DriverCore W) : List ℕ := s.queue ++ s.terminal.toList.map Prod.fst

def PhaseInv (s : DriverCore W) : Prop :=
  match s.phase with
  | .waiting => s.terminal = none ∧ s.receiver = true
  | .exchanging id sent received =>
    s.terminal = some (id, .closed .messagePolicy) ∧ s.queue = [] ∧ s.receiver = true ∧
      (sent = none ∨ received = none) ∧
      (sent = some (.ok ()) → (s.controls id).uploadComplete = true) ∧
      ∀ e buffer policy, received ≠ some (.ok ⟨.failed e, buffer, policy⟩)
  | .shuttingDown =>
    s.queue = [] ∧ s.receiver = false ∧ ∀ id, s.terminal ≠ some (id, .reusable)
  | .ended _ | .dropped => s.queue = [] ∧ s.receiver = false ∧ s.terminal = none

structure Inv (s : DriverCore W) : Prop where
  phase : s.PhaseInv
  /-- At most one receipt is held. -/
  held : s.held.length ≤ 1
  sound : ∀ id, (s.controls id).Sound

variable {s : DriverCore W}

theorem Inv.waiting (h : s.Inv) (hp : s.phase = .waiting) : s.terminal = none ∧ s.receiver = true := by
  have hphase := h.phase
  unfold PhaseInv at hphase
  rwa [hp] at hphase

theorem Inv.exchanging (h : s.Inv) {id : ℕ} {sent : Option (Except Error Unit)}
    {received : Option (Except Error ReceivedResponse)} (hp : s.phase = .exchanging id sent received) :
    s.terminal = some (id, .closed .messagePolicy) ∧ s.queue = [] ∧ s.receiver = true ∧
      (sent = none ∨ received = none) ∧
      (sent = some (.ok ()) → (s.controls id).uploadComplete = true) ∧
      ∀ e buffer policy, received ≠ some (.ok ⟨.failed e, buffer, policy⟩) := by
  have hphase := h.phase
  unfold PhaseInv at hphase
  rwa [hp] at hphase

theorem Inv.shuttingDown (h : s.Inv) (hp : s.phase = .shuttingDown) :
    s.queue = [] ∧ s.receiver = false ∧ ∀ id, s.terminal ≠ some (id, .reusable) := by
  have hphase := h.phase
  unfold PhaseInv at hphase
  rwa [hp] at hphase

theorem Inv.gone (h : s.Inv) (hr : s.receiver = false) : s.phase.isExchanging = false := by
  cases hp : s.phase with
  | exchanging id sent received =>
    obtain ⟨-, -, hopen, -⟩ := h.exchanging hp
    simp [hr] at hopen
  | _ => rfl

theorem Inv.returned (h : s.Inv) (hp : (∃ r, s.phase = .ended r) ∨ s.phase = .dropped) : s.held = [] := by
  have hphase := h.phase
  unfold PhaseInv at hphase
  rcases hp with ⟨r, hp⟩ | hp
  all_goals
    rw [hp] at hphase
    simp [DriverCore.held, hphase.1, hphase.2.2]

theorem Inv.open (h : s.Inv) (hr : s.receiver = true) :
    s.phase = .waiting ∨ s.phase.isExchanging = true := by
  have hphase := h.phase
  unfold PhaseInv at hphase
  cases hp : s.phase with
  | waiting => exact .inl rfl
  | exchanging => exact .inr rfl
  | shuttingDown | ended _ | dropped =>
    rw [hp] at hphase
    simp [hphase.2.1] at hr

end DriverCore

/-! ## Composing the halves -/

namespace ClientDriver

theorem finish_retired (policy : ExchangePolicy) (response : ActivityEnd) :
    policy.finish .retired response = .ok .close := by
  simp [ExchangePolicy.finish]

variable {sent : Except Error Unit} {received : Except Error ReceivedResponse} {aborted : Bool}

/-- The originating failure is preferred over the other half's cancellation. -/
theorem finishExchange_error {e e₁ : Error} (h : finishExchange sent received aborted = .error e)
    (hreceived : ∀ e buffer policy, received ≠ .ok ⟨.failed e, buffer, policy⟩)
    (hhalf : sent = .error e₁ ∨ received = .error e₁) (hc : e₁.isCanceled = false) :
    e.isCanceled = false ∧ (sent = .error e ∨ received = .error e) := by
  cases received with
  | error er =>
    cases sent with
    | ok u =>
      cases h
      have her : e = e₁ := by simpa using hhalf
      exact ⟨her ▸ hc, .inr rfl⟩
    | error es =>
      simp only [finishExchange] at h
      split_ifs at h with hcase
      · simp only [Bool.and_eq_true, Bool.not_eq_true'] at hcase
        cases h
        exact ⟨hcase.1, .inl rfl⟩
      · cases h
        refine ⟨?_, .inr rfl⟩
        -- The received error is a cancellation only if the other one is, too.
        by_contra her
        rcases hhalf with hs | hr
        · cases hs
          simp_all
        · cases hr
          simp_all
  | ok r =>
    obtain ⟨ended, buffer, policy⟩ := r
    have hsent : sent = .error e₁ := by simpa using hhalf
    subst hsent
    cases ended with
    | failed er => exact absurd rfl (hreceived er buffer policy)
    | abandoned =>
      simp only [finishExchange, hc, Bool.not_false, if_true, Except.error.injEq] at h
      exact h ▸ ⟨hc, .inl rfl⟩
    | complete =>
      simp only [finishExchange, hc, Bool.not_false, Bool.true_or, if_true, Except.error.injEq] at h
      exact h ▸ ⟨hc, .inl rfl⟩

/-- An exchange settles only when no half failed, except by cancellation. -/
theorem finishExchange_ok {settled : SettledExchange} (h : finishExchange sent received aborted = .ok settled)
    {e : Error} (hhalf : sent = .error e ∨ received = .error e) : e.isCanceled = true := by
  cases received with
  | error er =>
    cases sent with
    | ok u => simp [finishExchange] at h
    | error es =>
      simp only [finishExchange] at h
      split_ifs at h
  | ok r =>
    obtain ⟨ended, buffer, policy⟩ := r
    have hsent : sent = .error e := by simpa using hhalf
    subst hsent
    by_contra hc
    simp only [Bool.not_eq_true] at hc
    cases ended <;> simp [finishExchange, hc] at h

theorem finishExchange_reusable {settled : SettledExchange}
    (h : finishExchange sent received aborted = .ok settled) (ho : settled.outcome = .reusable) :
    sent = .ok () ∧ aborted = false ∧ ∃ policy, received = .ok ⟨.complete, settled.buffer, policy⟩ ∧
      policy.finish .complete .complete = .ok .reusable := by
  -- A retired half closes the connection.
  have retired (policy : ExchangePolicy) (response : ActivityEnd) {buffer : Bytes} {reason : CloseReason}
      (hr : (policy.finish .retired response).map (SettledExchange.mk buffer · reason) = .ok settled) : False := by
    rw [finish_retired] at hr
    cases hr
    cases ho
  cases received with
  | error er =>
    cases sent with
    | ok u => simp [finishExchange] at h
    | error es =>
      simp only [finishExchange] at h
      split_ifs at h
  | ok r =>
    obtain ⟨ended, buffer, policy⟩ := r
    cases ended with
    | failed er => simp [finishExchange] at h
    | abandoned =>
      cases sent with
      | ok u => exact (retired policy .retired h).elim
      | error es =>
        simp only [finishExchange] at h
        split_ifs at h
        exact (retired policy .retired h).elim
    | complete =>
      cases sent with
      | error es =>
        simp only [finishExchange] at h
        split_ifs at h <;> exact (retired policy .complete h).elim
      | ok u =>
        cases aborted with
        | true => exact (retired policy .complete h).elim
        | false =>
          cases hf : policy.finish .complete .complete with
          | error e => simp [finishExchange, hf, Except.map] at h
          | ok outcome =>
            simp only [finishExchange, hf, Except.map, Bool.false_eq_true, if_false, Except.ok.injEq] at h
            subst h
            cases ho
            exact ⟨rfl, rfl, policy, rfl, hf⟩

/-! ## Every operation is a move -/

open ClientAdmission

variable {s s' : ClientDriver W} {p : Driven W}

theorem drive_error (aborting : Option ErrorKind) (e : Error) :
    ∃ e', drive aborting (.error e) = .error e' ∧ (e.isCanceled = false → e' = e) := by
  cases aborting with
  | none => exact ⟨e, rfl, fun _ => rfl⟩
  | some kind =>
    by_cases hc : e.isCanceled = true
    · exact ⟨shutdownError kind, by simp [drive, hc], by simp [hc]⟩
    · exact ⟨e, by simp [drive, hc], fun _ => rfl⟩

theorem release_cases {a : ClientAdmission ℕ W} (h : a.Inv) (hr : a.receiver = true) (hh : a.holding = true) :
    (a.release.1 = a ∧ a.release.2.event = .released false) ∨
      (a.release.1.Inv ∧ a.release.2.event = .released true ∧ a.release.1.holding = false ∧
        a.release.1.receiver = true ∧ a.release.1.admission.jobs = []) := by
  have hinv := (release_inv h hr hh).1
  obtain ⟨v, ha⟩ := h.running hr hh
  unfold release at hinv ⊢
  split_ifs at hinv ⊢ with hc
  · exact .inl ⟨rfl, rfl⟩
  · right
    rcases a with ⟨admission, stopping, control, senders, driver, reservations, permits, receiver, holding⟩
    cases ha
    cases v <;> exact ⟨hinv, rfl, rfl, hr, rfl⟩

def Moved (s : ClientDriver W) (i : DriverCall W) (p : Driven W) : Prop :=
  p.1.Linked ∧ DriverCore.Move s.core i p.2.event p.2.reopened p.2.published p.1.core

theorem Drives.moved {p' : Driven W} {core : DriverCore W} {reopened : Bool} {pubs : List Publication}
    {i : DriverCall W} (h : Drives p p' core reopened pubs) (hp : p.2.published = [])
    (hm : DriverCore.Move s.core i p.2.event reopened pubs core) : Moved s i p' := by
  obtain ⟨hl, hcore, hevent, hreopened, hpub⟩ := h
  refine ⟨hl, ?_⟩
  rw [hcore, hevent, hreopened, hpub, hp]
  exact hm

theorem closed_ne_reusable (reason : CloseReason) : ExchangeOutcome.closed reason ≠ .reusable := nofun

theorem failRun_moved {i : DriverCall W} {e : DriverEvent} {id : ℕ} {sent : Except Error Unit}
    {received : Except Error ReceivedResponse} (hlast : LastHalf s.core i e id sent received)
    (hinv : s.admission.Inv) (hq : s.admission.admission.jobs = [])
    (hterm : s.terminal = some (id, .closed .messagePolicy)) (e₁ : Error)
    (hor : Originates sent received
      ((drive s.aborting (.error e₁)).map fun _ => .closed .messagePolicy)) :
    Moved s i (failRun (s.begin e) e₁) := by
  apply (failRun_spec (p := s.begin e) hinv hq e₁).moved rfl
  simp only [begin, hterm]
  exact DriverCore.Move.settle hlast (closed_ne_reusable _) hor

theorem leave_moved {i : DriverCall W} {e : DriverEvent} {id : ℕ} {sent : Except Error Unit}
    {received : Except Error ReceivedResponse} {outcome : ExchangeOutcome}
    (hl : LastHalf s.core i e id sent received) (hinv : p.1.admission.Inv)
    (hq : p.1.admission.admission.jobs = []) (he : p.2.event = e) (hre : p.2.reopened = false)
    (hpub : p.2.published = [])
    (hcore : p.1.core = { s.core with terminal := some (id, outcome) }) (hne : outcome ≠ .reusable)
    (hcanceled : ∀ e, sent = .error e ∨ received = .error e → e.isCanceled = true) (canRecover : Bool) :
    Moved s i (leave p canRecover) := by
  have hterm : p.1.terminal = some (id, outcome) := congrArg DriverCore.terminal hcore
  rcases leave_spec hinv hq canRecover with hd | hd
  · apply hd.moved hpub
    rw [hcore, hterm, he, hre]
    exact .close hl hne hcanceled
  · apply hd.moved hpub
    rw [hcore, hterm, he, hre]
    apply DriverCore.Move.settle hl hne
    intro e₁ he₁ hc
    simp [hcanceled e₁ he₁] at hc

theorem settle_moved {i : DriverCall W} {id : ℕ} {sent : Except Error Unit}
    {received : Except Error ReceivedResponse} {e : DriverEvent}
    (hl : s.Linked) (hc : s.core.Inv) (hlast : LastHalf s.core i e id sent received)
    (hreceived : ∀ e buffer policy, received ≠ .ok ⟨.failed e, buffer, policy⟩) :
    Moved s i (settle (s.begin e) id sent received) := by
  obtain ⟨hterm, hq, hr, hholding⟩ : s.terminal = some (id, .closed .messagePolicy) ∧
      s.admission.admission.jobs = [] ∧ s.admission.receiver = true ∧ s.admission.holding = true := by
    have hh := hl.holding
    rcases hlast with ⟨-, hp, -⟩ | ⟨-, hp, -⟩
    all_goals
      obtain ⟨hterm, hq, hr, -⟩ := hc.exchanging hp
      change s.phase = _ at hp
      rw [hp] at hh
      exact ⟨hterm, hq, hr, hh⟩
  unfold settle
  cases hf : finishExchange sent received ((s.begin e).1.controls id).aborted with
  | error e₁ =>
    obtain ⟨e', he', hsame⟩ := drive_error s.aborting e₁
    apply failRun_moved hlast hl.inv hq hterm
    intro e₂ he₂ hnc
    obtain ⟨hnc₁, hhalf⟩ := finishExchange_error hf hreceived he₂ hnc
    have hkeep : drive s.aborting (.error e₁) = .error e₁ := by rw [he', hsame hnc₁]
    exact ⟨e₁, by rw [hkeep]; rfl, hnc₁, hhalf⟩
  | ok settled =>
    have hcanceled (e : Error) (he : sent = .error e ∨ received = .error e) : e.isCanceled = true :=
      finishExchange_ok hf he
    have horiginates (r : Except Error ExchangeOutcome) : Originates sent received r := by
      intro e₁ he₁ hnc
      simp [hcanceled e₁ he₁] at hnc
    simp only
    cases ho : settled.outcome with
    | handoff kind =>
      apply (endRun_spec (p := s.begin e) hl.inv hq _ _).moved rfl
      exact DriverCore.Move.settle hlast nofun (horiginates _)
    | close => exact leave_moved hlast hl.inv hq rfl rfl rfl rfl (closed_ne_reusable _) hcanceled _
    | reusable =>
      obtain ⟨rfl, haborted, policy, rfl, hpolicy⟩ := finishExchange_reusable hf ho
      by_cases hbuffer : settled.buffer ≠ []
      · simp only [hbuffer, ne_eq, not_false_eq_true, if_true]
        exact failRun_moved hlast hl.inv hq hterm unsolicitedData (horiginates _)
      · simp only [hbuffer, if_false]
        rw [not_ne_iff] at hbuffer
        rw [hbuffer] at hlast hcanceled
        rcases release_cases hl.inv hr hholding with ⟨hsame, hev⟩ | ⟨hinv, hev, hh, hr', hq'⟩
        · simp only [begin, hsame, hev]
          exact leave_moved hlast hl.inv hq rfl rfl rfl rfl (closed_ne_reusable _) hcanceled _
        · simp only [begin, hev]
          refine ⟨linked_open hinv hh hr', ?_⟩
          have hm := DriverCore.Move.reuse hlast hpolicy haborted
          have hcore : ({ s.core with
              phase := .waiting, terminal := none
              controls := publishAll s.core.controls [(id, .ok .reusable)] } : DriverCore W) =
              ⟨s.jobs, s.admission.release.1.admission.jobs, s.admission.release.1.receiver, .waiting, none,
                publishAll s.controls [(id, .ok .reusable)]⟩ := by
            rw [hq', hr']
            simp [core, hq, hr]
          rw [hcore] at hm
          exact hm

theorem control_moved {i : DriverCall W} (hl : s.Linked) (hi : ∀ j, i ≠ .abort j) (id : ℕ) {c : Control W}
    (hc : Harmless (s.controls id) c) : Moved s i ((s.setControl id c).begin .quiet) :=
  ⟨⟨hl.inv, hl.holding, hl.closed⟩, .control hi hc⟩

theorem unmoved {i : DriverCall W} (hl : p.1.Linked) (hi : ∀ j, i ≠ .abort j) (hcore : p.1.core = s.core)
    (he : p.2.event = .quiet) (hr : p.2.reopened = false) (hp : p.2.published = []) : Moved s i p := by
  refine ⟨hl, ?_⟩
  rw [he, hr, hp, hcore]
  have hm := DriverCore.Move.control (s := s.core) hi (Harmless.refl (s.core.controls 0))
  rwa [Function.update_eq_self] at hm

theorem admission_moved {call : AdmissionCall ℕ W} (hl : s.Linked) (ha : applies call = true)
    {t : ClientAdmission ℕ W} {o : AdmissionOutput ℕ W} (hstep : s.admission.step call = some (t, o)) :
    Moved s (.admission call) ({ s with admission := t }, ⟨.quiet, false, [], o.woke⟩) := by
  obtain ⟨hjobs, hrecv, hhold, hclosed⟩ := applies_sameDriver ha hstep
  refine unmoved ⟨(hl.inv.step hstep).1, hhold.trans hl.holding, ?_⟩ nofun ?_ rfl rfl rfl
  · intro hr
    exact hclosed (hl.closed (hrecv.symm.trans hr))
  · simp [core, hjobs, hrecv]

theorem submit_moved (hl : s.Linked) (hc : s.core.Inv) (hp : 0 < s.admission.permits) :
    Moved s .submit s.submit := by
  have hinv := (send_inv hl.inv hp s.jobs).1
  obtain ⟨-, hh, hstate⟩ := hl.inv.permit hp
  unfold submit
  unfold ClientAdmission.send at hinv ⊢
  by_cases hclosed : (s.admission.admission.isClosed || s.admission.stopping) = true
  · -- The permit is refused and released.
    simp only [hclosed, if_true] at hinv ⊢
    obtain ⟨hjobs, hrecv, hhold, hkeep⟩ :=
      releaseShared_sameDriver (s := { s.admission with permits := s.admission.permits - 1 })
        (.sent s.jobs (.error (s.jobs, closedError)))
    rcases releaseShared_event { s.admission with permits := s.admission.permits - 1 }
        (.sent s.jobs (.error (s.jobs, closedError))) with he | he
    all_goals
      rw [he]
      refine unmoved ⟨hinv, hhold.trans hl.holding, ?_⟩ nofun ?_ rfl rfl rfl
      · intro hr
        exact hkeep (hl.closed (hrecv.symm.trans hr))
      · simp only [core, hjobs, hrecv]
  · simp only [hclosed, Bool.false_eq_true, if_false] at hinv ⊢
    rcases hstate with ⟨v, ha⟩ | ⟨ha, hr⟩
    · simp only [ha] at hinv ⊢
      have hidle : s.phase.isExchanging = false := hl.holding.symm.trans hh
      have hopen : s.admission.receiver = true := by
        by_contra hr
        rw [Bool.not_eq_true] at hr
        have := hl.closed hr
        simp [ha, Admission.isClosed] at this
      have hwaiting : s.phase = .waiting := by
        rcases hc.open hopen with hw | hx
        · exact hw
        · change s.phase.isExchanging = true at hx
          simp [hidle] at hx
      exact ⟨linked_open hinv hl.holding hopen, .accept (by simp [core, ha, Admission.jobs]) hwaiting⟩
    · simp [ha, Admission.isClosed] at hclosed

theorem abort_moved {id : ℕ} (hl : s.Linked) (hid : id < s.jobs) :
    Moved s (.abort id) ((s.setControl id (s.controls id).abort).begin .quiet) := by
  unfold Control.abort
  split_ifs with hup
  · refine ⟨⟨hl.inv, hl.holding, hl.closed⟩, ?_⟩
    simp only [setControl, begin, Function.update_eq_self]
    exact .late hid hup
  · exact ⟨⟨hl.inv, hl.holding, hl.closed⟩, .abort hid (Bool.eq_false_iff.mpr hup)⟩

theorem next_moved {w : W} (hl : s.Linked) (hc : s.core.Inv) (hp : s.phase = .waiting) :
    Moved s (.next w) (s.next w) := by
  obtain ⟨hterm, hr⟩ : s.terminal = none ∧ s.admission.receiver = true := hc.waiting hp
  have hinv := (pollNext_inv hl.inv w).1
  rcases s with ⟨⟨a, stopping, control, senders, driver, reservations, permits, receiver, holding⟩, jobs,
    controls, phase, terminal, aborting, recovering⟩
  subst hp hterm
  unfold next
  unfold ClientAdmission.pollNext at hinv ⊢
  cases a with
  | queued job v => exact ⟨linked_open hinv rfl hr, .start rfl rfl⟩
  | ready | readyForWaiter | reserved _ | active _ | closed =>
    simp only [Admission.takeJob] at hinv ⊢
    split_ifs at hinv ⊢ with hover
    · rcases leave_spec (p := (ClientDriver.mk _ _ _ _ none _ _, ⟨.quiet, false, [], []⟩)) hinv rfl true with hd | hd
      · exact hd.moved rfl (.leave rfl rfl)
      · exact hd.moved rfl (.leaveReturned rfl rfl)
    · refine unmoved ⟨hinv, hl.holding, hl.closed⟩ ?_ rfl rfl rfl rfl
      intro _ h
      cases h

theorem refuse_moved {id : ℕ} (hl : s.Linked) (hc : s.core.Inv) (hp : s.phase = .exchanging id none none) (e : Error) :
    Moved s (.refuse e) (failRun (s.begin (.refused id)) e) := by
  obtain ⟨hterm, hq, -⟩ := hc.exchanging hp
  change s.terminal = _ at hterm
  obtain ⟨e', he', -⟩ := drive_error s.aborting e
  apply (failRun_spec (p := s.begin (.refused id)) hl.inv hq e).moved rfl
  simp only [begin, hterm, he']
  exact .refuse hp

theorem sent_moved {id : ℕ} {received : Option (Except Error ReceivedResponse)} {r : Except Error Unit} (hl : s.Linked)
    (hc : s.core.Inv) (hp : s.phase = .exchanging id none received)
    (hr : r = .ok () → (s.controls id).uploadComplete = true) : Moved s (.sent r) (s.sent id received r) := by
  cases received with
  | some received =>
    obtain ⟨-, -, -, -, -, hreceived⟩ := hc.exchanging hp
    apply settle_moved hl hc (.inl ⟨⟨r, rfl⟩, hp, rfl, hr⟩)
    intro e buffer policy h
    exact hreceived e buffer policy (congrArg some h)
  | none =>
    have hlink : s.admission.holding = true := by
      rw [hl.holding, hp]
      rfl
    exact ⟨⟨hl.inv, hlink, hl.closed⟩, .firstSent ⟨r, rfl⟩ hp hr (.cancelIf _ _)⟩

theorem receiveResult_ne (r : Except Error ReceivedResponse) (e : Error) (buffer : Bytes)
    (policy : ExchangePolicy) : receiveResult r ≠ .ok ⟨.failed e, buffer, policy⟩ := by
  unfold receiveResult
  split
  · nofun
  · rename_i hne
    exact fun h => hne e buffer policy h

theorem received_moved {id : ℕ} {sent : Option (Except Error Unit)} (hl : s.Linked) (hc : s.core.Inv)
    (hp : s.phase = .exchanging id sent none) (r : Except Error ReceivedResponse) :
    Moved s (.received r) (s.received id sent r) := by
  cases sent with
  | some sent => exact settle_moved hl hc (.inr ⟨⟨r, rfl⟩, hp, rfl⟩) (receiveResult_ne r)
  | none =>
    have hlink : s.admission.holding = true := by
      rw [hl.holding, hp]
      rfl
    exact ⟨⟨hl.inv, hlink, hl.closed⟩, .firstReceived ⟨r, rfl⟩ hp (receiveResult_ne r) (.cancelIf _ _)⟩

theorem closed_moved (hl : s.Linked) (hc : s.core.Inv) (hp : s.phase = .shuttingDown) (result : Except Error Unit) :
    Moved s (.closed result) (finishRun (s.begin .quiet) (result.map fun _ => .closed)) := by
  obtain ⟨hq, hr, -⟩ := hc.shuttingDown hp
  obtain ⟨woke, hfinish⟩ := finishRun_spec (s.begin .quiet) (result.map fun _ => .closed)
  rw [hfinish]
  refine ⟨⟨hl.inv.congr rfl rfl rfl rfl rfl, ?_, hl.closed⟩, ?_⟩
  · change s.admission.holding = false
    rw [hl.holding, hp]
    rfl
  · have hm : DriverCore.Move s.core (.closed result) .quiet false _ (s.core.returned _ _) :=
      .finish (r := drive s.aborting (result.map fun _ => .closed)) hp
    have hover (r : Except Error ConnectionOutcome) (pubs : List Publication) : s.core.returned r pubs =
        { s.core with phase := .ended r, terminal := none, controls := publishAll s.controls pubs } := by
      simp only [DriverCore.returned, ← hq, ← hr]
      rfl
    rw [hover] at hm
    exact hm

theorem dropDriver_moved (hl : s.Linked) (hc : s.core.Inv) (hover : s.isOver = false) :
    Moved s .dropDriver s.dropDriver := by
  have hlive : (∀ r, s.core.phase ≠ .ended r) ∧ s.core.phase ≠ .dropped := by
    unfold isOver at hover
    change (∀ r, s.phase ≠ .ended r) ∧ s.phase ≠ .dropped
    cases hp : s.phase <;> simp [hp] at hover ⊢
  have hm := DriverCore.Move.drop hlive.1 hlive.2
  rw [List.map_append, publishAll_append] at hm
  rcases s with ⟨a, jobs, controls, phase, terminal, aborting, recovering⟩
  unfold dropDriver
  cases hr : a.receiver with
  | true =>
    obtain ⟨⟨_, _, _, _, _, _, _, _, _⟩, woke, hdrop, hinv, rfl, rfl, rfl⟩ :=
      dropRequests_spec (p := begin ⟨a, jobs, controls, phase, terminal, aborting, recovering⟩ .quiet) hl.inv
    simp only [if_true, hdrop]
    refine ⟨?_, ?_⟩
    · cases terminal <;> exact ⟨hinv.congr rfl rfl rfl rfl rfl, rfl, fun _ => rfl⟩
    · cases terminal with
      | none =>
        simp only [core, Option.toList_none, List.map_nil, List.append_nil, publishAll_nil] at hm
        exact hm
      | some t => exact hm
  | false =>
    -- The requests are gone already; only a receipt can be left.
    obtain ⟨a, stopping, control, senders, driver, reservations, permits, receiver, holding⟩ := a
    obtain rfl : a = .closed := by
      have hclosed := hl.closed hr
      cases a <;> first | rfl | cases hclosed
    obtain rfl : receiver = false := hr
    obtain rfl : holding = false := hl.holding.trans (hc.gone rfl)
    refine ⟨?_, ?_⟩
    · cases terminal <;> exact ⟨hl.inv.congr rfl rfl rfl rfl rfl, rfl, fun _ => rfl⟩
    · cases terminal with
      | none => exact hm
      | some t => exact hm

theorem step_moved {i : DriverCall W} (hl : s.Linked) (hc : s.core.Inv) (hs : s.step i = some p) :
    Moved s i p := by
  have of_eq {q : Driven W} (hq : some q = some p) (h : Moved s i q) : Moved s i p := by
    rw [← Option.some.inj hq]
    exact h
  cases i with
  | admission call =>
    simp only [step] at hs
    split_ifs at hs with ha
    obtain ⟨⟨t, o⟩, hstep, rfl⟩ := Option.map_eq_some_iff.mp hs
    exact admission_moved hl ha hstep
  | submit =>
    simp only [step] at hs
    split_ifs at hs with hp
    exact of_eq hs (submit_moved hl hc hp)
  | abort id =>
    simp only [step] at hs
    split_ifs at hs with hid
    exact of_eq hs (abort_moved hl hid)
  | dropPending id =>
    simp only [step] at hs
    split_ifs at hs
    exact of_eq hs (control_moved hl (by nofun) id (.cancel _))
  | takeCompletion id =>
    simp only [step] at hs
    split_ifs at hs
    exact of_eq hs (control_moved hl (by nofun) id (.takeCompletion _))
  | pollCompletion id w =>
    simp only [step] at hs
    split_ifs at hs with hpoll
    exact of_eq hs (control_moved hl (by nofun) id (.pollCompletion w hpoll.2))
  | dropCompletion id =>
    simp only [step] at hs
    split_ifs at hs
    exact of_eq hs (control_moved hl (by nofun) id (.dropCompletion _))
  | next w =>
    simp only [step] at hs
    split at hs
    · exact of_eq hs (next_moved hl hc ‹_›)
    · cases hs
  | refuse e =>
    simp only [step] at hs
    split at hs
    · exact of_eq hs (refuse_moved hl hc ‹_› e)
    · cases hs
  | uploaded =>
    simp only [step] at hs
    split at hs
    · split_ifs at hs with hup
      exact of_eq hs ⟨⟨hl.inv, hl.holding, hl.closed⟩, .upload ‹_› (Bool.eq_false_iff.mpr hup)⟩
    · cases hs
  | sent r =>
    simp only [step] at hs
    split at hs
    · rename_i hp
      cases r with
      | ok u =>
        simp only at hs
        split_ifs at hs with hup
        exact of_eq hs (sent_moved hl hc hp fun _ => hup)
      | error e => exact of_eq hs (sent_moved hl hc hp nofun)
    · cases hs
  | received r =>
    simp only [step] at hs
    split at hs
    · exact of_eq hs (received_moved hl hc ‹_› r)
    · cases hs
  | cancelExchange =>
    simp only [step] at hs
    split at hs
    · split_ifs at hs
      exact of_eq hs (control_moved hl (by nofun) _ (.cancel _))
    · cases hs
  | closed r =>
    simp only [step] at hs
    split at hs
    · exact of_eq hs (closed_moved hl hc ‹_› r)
    · cases hs
  | abortRequested timeout =>
    simp only [step] at hs
    split at hs
    · exact of_eq hs (unmoved ⟨hl.inv, hl.holding, hl.closed⟩ (by nofun) rfl rfl rfl rfl)
    · cases hs
  | dropDriver =>
    simp only [step] at hs
    split_ifs at hs with hover
    exact of_eq hs (dropDriver_moved hl hc (Bool.eq_false_iff.mpr hover))

end ClientDriver

end Vakya
