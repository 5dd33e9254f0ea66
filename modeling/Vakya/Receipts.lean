import Vakya.DriverMoves

/-!
# Client reuse and receipts

A run is read through its trace: which jobs were accepted, what the halves of
each exchange returned, when an upload was complete or aborted, and what was
published. Jobs are published in the order in which they were accepted.
-/

namespace Vakya

open Library

variable {W : Type}

namespace DriverEvent

def acceptedJobs : DriverEvent → List ℕ
  | .accepted id => [id]
  | _ => []

end DriverEvent

namespace DriverCore

variable {s s' : DriverCore W} {i : DriverCall W} {e : DriverEvent} {reopened : Bool} {pubs : List Publication}

theorem held_exchanging (h : s.Inv) {id : ℕ} {sent : Option (Except Error Unit)}
    {received : Option (Except Error ReceivedResponse)} (hp : s.phase = .exchanging id sent received) :
    s.held = [id] := by
  obtain ⟨hterm, hq, -⟩ := h.exchanging hp
  simp [held, hterm, hq]

theorem held_lastHalf (h : s.Inv) {id : ℕ} {sent : Except Error Unit}
    {received : Except Error ReceivedResponse} (hl : LastHalf s i e id sent received) : s.held = [id] := by
  rcases hl with ⟨-, hp, -⟩ | ⟨-, hp, -⟩ <;> exact held_exchanging h hp

theorem acceptedJobs_lastHalf {id : ℕ} {sent : Except Error Unit} {received : Except Error ReceivedResponse}
    (hl : LastHalf s i e id sent received) : e.acceptedJobs = [] := by
  rcases hl with ⟨-, -, rfl, -⟩ | ⟨-, -, rfl⟩ <;> rfl

@[simp] theorem held_returned (r : Except Error ConnectionOutcome) : (s.returned r pubs).held = [] := rfl

@[simp] theorem jobs_returned (r : Except Error ConnectionOutcome) : (s.returned r pubs).jobs = s.jobs := rfl

@[simp] theorem held_shutting (t : Option (ℕ × ExchangeOutcome)) :
    (s.shutting t).held = t.toList.map Prod.fst := rfl

@[simp] theorem jobs_shutting (t : Option (ℕ × ExchangeOutcome)) : (s.shutting t).jobs = s.jobs := rfl

/-- A receipt is held from the acceptance of its job until it is published. -/
theorem Move.books (h : s.Inv) (hm : s.Move i e reopened pubs s') :
    s.held ++ e.acceptedJobs = pubs.map Prod.fst ++ s'.held ∧ s'.jobs = s.jobs + e.acceptedJobs.length ∧
      ∀ id ∈ e.acceptedJobs, id = s.jobs := by
  cases hm with
  | control | late | abort | upload => simp [held, DriverEvent.acceptedJobs]
  | accept hq hp =>
    obtain ⟨hterm, -⟩ := h.waiting hp
    simp [held, hq, hterm, DriverEvent.acceptedJobs]
  | start hq hp =>
    obtain ⟨hterm, -⟩ := h.waiting hp
    simp [held, hq, hterm, DriverEvent.acceptedJobs]
  | firstSent _ hp | firstReceived _ hp => simp [held, DriverEvent.acceptedJobs]
  | refuse hp => simp [held_exchanging h hp, DriverEvent.acceptedJobs]
  | settle hl => simp [held_lastHalf h hl, acceptedJobs_lastHalf hl]
  | close hl => simp [held_lastHalf h hl, acceptedJobs_lastHalf hl]
  | reuse hl =>
    have hheld := held_lastHalf h hl
    have hq : s.queue = [] := by
      rcases hl with ⟨-, hp, -⟩ | ⟨-, hp, -⟩ <;> exact (h.exchanging hp).2.1
    simp [hheld, acceptedJobs_lastHalf hl]
    simp [held, hq]
  | finish hp =>
    obtain ⟨hq, -⟩ := h.shuttingDown hp
    simp [show s.held = s.terminal.toList.map Prod.fst by simp [held, hq], terminalPublication,
      DriverEvent.acceptedJobs]
  | leave hp hq =>
    obtain ⟨hterm, -⟩ := h.waiting hp
    simp [show s.held = [] by simp [held, hq, hterm], DriverEvent.acceptedJobs]
  | leaveReturned hp hq =>
    obtain ⟨hterm, -⟩ := h.waiting hp
    simp [show s.held = [] by simp [held, hq, hterm], DriverEvent.acceptedJobs]
  | drop => simp [held, lost, DriverEvent.acceptedJobs, Function.comp_def]

theorem sound_publish {c : Control W} (hc : c.Sound) (r : Except Error ExchangeOutcome) :
    (c.publish r).Sound := hc

theorem sound_update {controls : ℕ → Control W} (h : ∀ id, (controls id).Sound) {id : ℕ} {c : Control W}
    (hc : c.Sound) : ∀ j, (Function.update controls id c j).Sound := by
  rw [Function.forall_update_iff controls fun _ c => c.Sound]
  exact ⟨hc, fun j _ => h j⟩

theorem sound_publishAll {controls : ℕ → Control W} (h : ∀ id, (controls id).Sound) (pubs : List Publication)
    (id : ℕ) : (publishAll controls pubs id).Sound :=
  publishAll_induct (P := Control.Sound) (fun _ r hc => sound_publish hc r) (h id) pubs

theorem PhaseInv.controls {controls : ℕ → Control W} (h : s.PhaseInv)
    (hup : ∀ id, (s.controls id).uploadComplete = true → (controls id).uploadComplete = true) :
    ({ s with controls := controls } : DriverCore W).PhaseInv := by
  unfold PhaseInv at h ⊢
  cases hp : s.phase with
  | exchanging id sent received =>
    simp only [hp] at h ⊢
    obtain ⟨hterm, hq, hr, hone, hsent, hreceived⟩ := h
    exact ⟨hterm, hq, hr, hone, fun hs => hup id (hsent hs), hreceived⟩
  | _ =>
    simp only [hp] at h ⊢
    exact h

theorem uploadComplete_update {controls : ℕ → Control W} {id : ℕ} {c : Control W}
    (hc : (controls id).uploadComplete = true → c.uploadComplete = true) :
    ∀ j, (controls j).uploadComplete = true → (Function.update controls id c j).uploadComplete = true := by
  rw [Function.forall_update_iff controls fun j c => (controls j).uploadComplete = true → c.uploadComplete = true]
  exact ⟨hc, fun _ _ h => h⟩

theorem Move.inv (h : s.Inv) (hm : s.Move i e reopened pubs s') : s'.Inv := by
  have hheld := h.held
  cases hm with
  | control _ hc =>
    refine ⟨h.phase.controls (uploadComplete_update ?_), hheld, sound_update h.sound (hc.sound (h.sound _))⟩
    rw [hc.uploadComplete]
    exact id
  | late => exact h
  | abort => exact ⟨h.phase.controls (uploadComplete_update id), hheld, sound_update h.sound (h.sound _)⟩
  | accept hq hp =>
    obtain ⟨hterm, hr⟩ := h.waiting hp
    refine ⟨?_, by simp [held, hterm], sound_update h.sound nofun⟩
    unfold PhaseInv
    simp only [hp]
    exact ⟨hterm, hr⟩
  | start hq hp =>
    obtain ⟨hterm, hr⟩ := h.waiting hp
    exact ⟨⟨rfl, rfl, hr, .inl rfl, by simp, by simp⟩, by simp [held], h.sound⟩
  | upload =>
    exact ⟨h.phase.controls (uploadComplete_update fun _ => rfl), hheld, sound_update h.sound (h.sound _)⟩
  | @firstSent _ id r c _ hp hr hc =>
    obtain ⟨hterm, hq, hrecv, -⟩ := h.exchanging hp
    refine ⟨⟨hterm, hq, hrecv, .inr rfl, ?_, by simp⟩, hheld, sound_update h.sound (hc.sound (h.sound _))⟩
    intro hs
    simp only [Function.update_self, hc.uploadComplete]
    exact hr (Option.some.inj hs)
  | @firstReceived _ id r c _ hp hr hc =>
    obtain ⟨hterm, hq, hrecv, -⟩ := h.exchanging hp
    refine ⟨⟨hterm, hq, hrecv, .inl rfl, by simp, ?_⟩, hheld, sound_update h.sound (hc.sound (h.sound _))⟩
    intro e buffer policy hs
    exact hr e buffer policy (Option.some.inj hs)
  | refuse | settle | finish | leaveReturned =>
    exact ⟨⟨rfl, rfl, rfl⟩, by simp, sound_publishAll h.sound _⟩
  | close _ hne => exact ⟨⟨rfl, rfl, fun id ht => hne (by cases ht; rfl)⟩, by simp, h.sound⟩
  | leave => exact ⟨⟨rfl, rfl, by simp [shutting]⟩, by simp, h.sound⟩
  | reuse hl =>
    have hr : s.receiver = true := by
      rcases hl with ⟨-, hp, -⟩ | ⟨-, hp, -⟩ <;> exact (h.exchanging hp).2.2.1
    have hq : s.queue = [] := by
      rcases hl with ⟨-, hp, -⟩ | ⟨-, hp, -⟩ <;> exact (h.exchanging hp).2.1
    exact ⟨⟨rfl, hr⟩, by simp [held, hq], sound_publishAll h.sound _⟩
  | drop => exact ⟨⟨rfl, rfl, rfl⟩, by simp [held], sound_publishAll h.sound _⟩

theorem publishAll_uploadComplete (controls : ℕ → Control W) (pubs : List Publication) (id : ℕ) :
    (publishAll controls pubs id).uploadComplete = (controls id).uploadComplete := by
  apply publishAll_induct (P := fun c => c.uploadComplete = (controls id).uploadComplete)
  · intro c r hc
    exact hc
  · rfl

theorem publishAll_aborted (controls : ℕ → Control W) (pubs : List Publication) (id : ℕ) :
    (publishAll controls pubs id).aborted = (controls id).aborted := by
  apply publishAll_induct (P := fun c => c.aborted = (controls id).aborted)
  · intro c r hc
    exact hc
  · rfl

inductive UploadMove (s s' : DriverCore W) (i : DriverCall W) (e : DriverEvent) (id : ℕ) : Prop
  | same : (s'.controls id).uploadComplete = (s.controls id).uploadComplete →
      (s'.controls id).aborted = (s.controls id).aborted →
      (i = .abort id → (s.controls id).uploadComplete = true) → UploadMove s s' i e id
  | aborted : (s'.controls id).aborted = true → UploadMove s s' i e id
  | complete : e = .uploaded id → i ≠ .abort id → (s'.controls id).aborted = (s.controls id).aborted →
      (s.controls id).uploadComplete = false → UploadMove s s' i e id
  | accepted : id = s.jobs → i ≠ .abort id → (s'.controls id).uploadComplete = false → UploadMove s s' i e id

theorem uploadMove_update {id j : ℕ} {c : Control W} {phase : DriverPhase} (hup : c.uploadComplete = (s.controls id).uploadComplete)
    (hab : c.aborted = (s.controls id).aborted) (hi : ∀ j, i ≠ .abort j) :
    UploadMove s { s with phase := phase, controls := Function.update s.controls id c } i e j := by
  by_cases hj : j = id
  · subst hj
    exact .same (by simp [hup]) (by simp [hab]) fun h => absurd h (hi _)
  · exact .same (by simp [hj]) (by simp [hj]) fun h => absurd h (hi _)

theorem lastHalf_call {id j : ℕ} {sent : Except Error Unit} {received : Except Error ReceivedResponse}
    (hl : LastHalf s i e id sent received) : i ≠ .abort j := by
  rcases hl with ⟨⟨r, rfl⟩, -⟩ | ⟨⟨r, rfl⟩, -⟩ <;> nofun

theorem Move.upload_cases (hm : s.Move i e reopened pubs s') (j : ℕ) : UploadMove s s' i e j := by
  cases hm with
  | control hi hc => exact uploadMove_update hc.uploadComplete hc.aborted hi
  | late _ hup =>
    refine .same rfl rfl fun h => ?_
    cases h
    exact hup
  | @abort id _ hup =>
    by_cases hj : j = id
    · subst hj
      exact .aborted (by simp)
    · refine .same (by simp [hj]) (by simp [hj]) fun h => ?_
      cases h
      exact absurd rfl hj
  | accept =>
    by_cases hj : j = s.jobs
    · subst hj
      exact .accepted rfl nofun (by simp [Control.new])
    · exact .same (by simp [hj]) (by simp [hj]) nofun
  | start => exact .same rfl rfl nofun
  | @upload id _ _ hup =>
    by_cases hj : j = id
    · subst hj
      exact .complete rfl nofun (by simp) hup
    · exact .same (by simp [hj]) (by simp [hj]) nofun
  | firstSent hi _ _ hc =>
    obtain ⟨r, rfl⟩ := hi
    exact uploadMove_update hc.uploadComplete hc.aborted (by nofun)
  | firstReceived hi _ _ hc =>
    obtain ⟨r, rfl⟩ := hi
    exact uploadMove_update hc.uploadComplete hc.aborted (by nofun)
  | refuse | finish | leaveReturned | drop =>
    exact .same (publishAll_uploadComplete _ _ _) (publishAll_aborted _ _ _) nofun
  | settle hl | reuse hl =>
    exact .same (publishAll_uploadComplete _ _ _) (publishAll_aborted _ _ _) fun h => absurd h (lastHalf_call hl)
  | close hl => exact .same rfl rfl fun h => absurd h (lastHalf_call hl)
  | leave => exact .same rfl rfl nofun

theorem Move.abort_lt (hm : s.Move i e reopened pubs s') {id : ℕ} (hi : i = .abort id) :
    id < s.jobs ∧ e = .quiet := by
  subst hi
  cases hm with
  | control hi => exact absurd rfl (hi id)
  | late hid | abort hid => exact ⟨hid, rfl⟩
  | firstSent hi | firstReceived hi => obtain ⟨r, hr⟩ := hi; cases hr
  | settle hl | close hl | reuse hl => exact absurd rfl (lastHalf_call hl)

/-- What a move does to one completion, given that the job was not published before. -/
structure SlotMove (c c' : Control W) (id : ℕ) (pubs : List Publication) : Prop where
  result : ∀ r, c'.completion.result = some r → c.completion.result = some r ∨ (id, r) ∈ pubs
  kept : id ∉ pubs.map Prod.fst → ∀ r, c.Delivered r → c'.Delivered r
  stored : ∀ r, (id, r) ∈ pubs → c'.Delivered r

theorem SlotMove.harmless {c c' : Control W} {id : ℕ} (hs : c.Sound) (h : Harmless c c') :
    SlotMove c c' id [] := by
  refine ⟨fun r hr => ?_, fun _ => h.delivered hs, fun _ hr => absurd hr List.not_mem_nil⟩
  rcases h.result with hn | he
  · simp [hn] at hr
  · exact .inl (he ▸ hr)

theorem slotMove_publish (c : Control W) (id : ℕ) (r : Except Error ExchangeOutcome) :
    SlotMove c (c.publish r) id [(id, r)] := by
  refine ⟨fun r' hr' => ?_, fun h => absurd (by simp) h, fun r' hr' => ?_⟩
  · simp only [Control.publish] at hr'
    split_ifs at hr'
    · exact .inl hr'
    · cases hr'
      exact .inr (by simp)
  · obtain rfl : r' = r := by simpa using hr'
    by_cases ha : c.completion.abandoned = true
    · exact .inr (.inl ha)
    · exact .inl (by simp [Control.publish, ha])

theorem SlotMove.of_same {c c' : Control W} (id : ℕ) (hc : c'.completion = c.completion)
    (hr : c'.receipt = c.receipt) : SlotMove c c' id [] := by
  refine ⟨fun r h => .inl (hc ▸ h), fun _ r h => ?_, fun _ hr => absurd hr List.not_mem_nil⟩
  unfold Control.Delivered at h ⊢
  rwa [hc, hr]

theorem SlotMove.refl (c : Control W) (id : ℕ) : SlotMove c c id [] := .of_same id rfl rfl

theorem slotMove_publishAll (controls : ℕ → Control W) {pubs : List Publication} (hone : pubs.length ≤ 1)
    (id : ℕ) : SlotMove (controls id) (publishAll controls pubs id) id pubs := by
  rcases pubs with _ | ⟨⟨j, r⟩, _ | ⟨p, pubs⟩⟩
  · exact .refl _ _
  · rw [publishAll_cons, publishAll_nil]
    by_cases hj : id = j
    · subst hj
      rw [Function.update_self]
      exact slotMove_publish _ _ _
    · rw [Function.update_of_ne hj]
      exact ⟨fun _ => .inl, fun _ _ h => h, fun r' h => absurd (by simpa using h) (by simp [hj])⟩
  · simp at hone

theorem slotMove_update {id : ℕ} {c : Control W} (hc : SlotMove (s.controls id) c id []) :
    ∀ j, SlotMove (s.controls j) (Function.update s.controls id c j) j [] := by
  rw [Function.forall_update_iff s.controls fun j c => SlotMove (s.controls j) c j []]
  exact ⟨hc, fun _ _ => .refl _ _⟩

theorem Move.length_le_one (h : s.Inv) (hm : s.Move i e reopened pubs s') : pubs.length ≤ 1 := by
  have hheld := h.held
  cases hm with
  | finish => cases s.terminal <;> simp [terminalPublication]
  | drop =>
    rw [List.length_map]
    exact hheld
  | _ => simp

theorem Move.slot (h : s.Inv) (hm : s.Move i e reopened pubs s') {id : ℕ} (hid : id < s.jobs) :
    SlotMove (s.controls id) (s'.controls id) id pubs := by
  have hone := hm.length_le_one h
  cases hm with
  | control _ hc | firstSent _ _ _ hc | firstReceived _ _ _ hc =>
    exact slotMove_update (.harmless (h.sound _) hc) id
  | late | start | close | leave => exact .refl _ _
  | abort | upload =>
    apply slotMove_update
    exact .of_same _ rfl rfl
  | accept => exact .of_same _ (by simp [hid.ne]) (by simp [hid.ne])
  | refuse | settle | reuse | finish | drop => exact slotMove_publishAll _ hone id
  | leaveReturned => exact .refl _ _

end DriverCore

abbrev DriverTrace (W : Type) := List (DriverCall W × DriverOutput W)

namespace DriverTrace

def accepted (tr : DriverTrace W) : List ℕ := tr.flatMap (·.2.event.acceptedJobs)

def published (tr : DriverTrace W) : List Publication := tr.flatMap (·.2.published)

def Sent (tr : DriverTrace W) (id : ℕ) (r : Except Error Unit) : Prop := ∃ x ∈ tr, x.2.event = .sent id r

def Received (tr : DriverTrace W) (id : ℕ) (r : Except Error ReceivedResponse) : Prop :=
  ∃ x ∈ tr, x.2.event = .received id r

def Failed (tr : DriverTrace W) (id : ℕ) (e : Error) : Prop := tr.Sent id (.error e) ∨ tr.Received id (.error e)

def Unaborted (tr : DriverTrace W) (id : ℕ) : Prop :=
  Since (fun _ => True) (fun before x => x.2.event = .uploaded id ∧ ∀ y ∈ before, y.1 ≠ .abort id) tr

def AbortedEarly (tr : DriverTrace W) (id : ℕ) : Prop :=
  Since (fun _ => True) (fun before x => x.1 = .abort id ∧ ∀ y ∈ before, y.2.event ≠ .uploaded id) tr

structure Reused (tr : DriverTrace W) (id : ℕ) : Prop where
  upload : tr.Unaborted id
  sent : tr.Sent id (.ok ())
  /-- The body framing is complete, no read-ahead is left and the policy permits reuse. -/
  received : ∃ policy, tr.Received id (.ok ⟨.complete, [], policy⟩) ∧
    policy.finish .complete .complete = .ok .reusable

variable {tr : DriverTrace W} {x : DriverCall W × DriverOutput W} {id : ℕ}

@[simp] theorem accepted_append : accepted (tr ++ [x]) = tr.accepted ++ x.2.event.acceptedJobs := by
  simp [accepted]

@[simp] theorem published_append : published (tr ++ [x]) = tr.published ++ x.2.published := by
  simp [published]

theorem sent_append {r : Except Error Unit} :
    Sent (tr ++ [x]) id r ↔ tr.Sent id r ∨ x.2.event = .sent id r := by
  simp [Sent, or_and_right, exists_or]

theorem received_append {r : Except Error ReceivedResponse} :
    Received (tr ++ [x]) id r ↔ tr.Received id r ∨ x.2.event = .received id r := by
  simp [Received, or_and_right, exists_or]

theorem Unaborted.later (h : tr.Unaborted id) : Unaborted (tr ++ [x]) id := Since.later h trivial

theorem Reused.later (h : tr.Reused id) : Reused (tr ++ [x]) id := by
  obtain ⟨hup, hs, policy, hr, hp⟩ := h
  exact ⟨hup.later, sent_append.mpr (.inl hs), policy, received_append.mpr (.inl hr), hp⟩

/-- The flags of an upload against its past. -/
structure Uploads (tr : DriverTrace W) (c : DriverCore W) : Prop where
  accepted : ∀ x ∈ tr, ∀ id, x.1 = .abort id → id < c.jobs ∧ x.2.event = .quiet
  running : ∀ id, (c.controls id).aborted = false → (c.controls id).uploadComplete = false →
    ∀ x ∈ tr, x.1 ≠ .abort id
  complete : ∀ id, (c.controls id).aborted = false → (c.controls id).uploadComplete = true → tr.Unaborted id

theorem Uploads.step {c c' : DriverCore W} {i : DriverCall W} {o : DriverOutput W} (h : Uploads tr c)
    (hinv : c.Inv) (hm : c.Move i o.event o.reopened o.published c') : Uploads (tr ++ [(i, o)]) c' := by
  obtain ⟨-, hjobs, -⟩ := hm.books hinv
  refine ⟨fun x hx id hi => ?_, fun id hab hup x hx hi => ?_, fun id hab hup => ?_⟩
  · rcases List.mem_append.mp hx with hx | hx
    · obtain ⟨hlt, hq⟩ := h.accepted x hx id hi
      exact ⟨by omega, hq⟩
    · obtain rfl := List.mem_singleton.mp hx
      obtain ⟨hlt, hq⟩ := hm.abort_lt hi
      exact ⟨by omega, hq⟩
  · have hold : (c.controls id).aborted = false → (c.controls id).uploadComplete = false → i ≠ .abort id → False := by
      intro hab hup hne
      rcases List.mem_append.mp hx with hx | hx
      · exact h.running id hab hup x hx hi
      · obtain rfl := List.mem_singleton.mp hx
        exact hne hi
    cases hm.upload_cases id with
    | same hup' hab' hlate =>
      rw [hab'] at hab
      rw [hup'] at hup
      refine hold hab hup fun hi' => ?_
      simp [hlate hi'] at hup
    | aborted hab' => simp [hab'] at hab
    | complete _ hne hab' hup' => exact hold (hab' ▸ hab) hup' hne
    | accepted hid hne _ =>
      rcases List.mem_append.mp hx with hx | hx
      · have := (h.accepted x hx id hi).1
        omega
      · obtain rfl := List.mem_singleton.mp hx
        exact hne hi
  · cases hm.upload_cases id with
    | same hup' hab' => exact (h.complete id (hab' ▸ hab) (hup' ▸ hup)).later
    | aborted hab' => simp [hab'] at hab
    | complete he _ hab' hup' => exact since_now ⟨he, h.running id (hab' ▸ hab) hup'⟩
    | accepted _ _ hup' => simp [hup'] at hup

/-- What the halves of the exchanges have returned. -/
structure Halves (tr : DriverTrace W) (c : DriverCore W) : Prop where
  started : ∀ id, (∃ r, tr.Sent id r) ∨ (∃ r, tr.Received id r) → id < c.jobs ∧ id ∉ c.queue
  current : ∀ id sent received, c.phase = .exchanging id sent received →
    (∀ r, tr.Sent id r ↔ sent = some r) ∧ ∀ r, tr.Received id r ↔ received = some r
  /-- A connection that is shut down in good order has seen no failure. -/
  closing : ∀ id outcome, c.phase = .shuttingDown → c.terminal = some (id, outcome) →
    ∀ e, tr.Failed id e → e.isCanceled = true

variable {c c' : DriverCore W} {i : DriverCall W} {o : DriverOutput W}

theorem Halves.last (h : Halves tr c) {sent : Except Error Unit} {received : Except Error ReceivedResponse}
    (hl : LastHalf c i o.event id sent received) :
    (∀ r, Sent (tr ++ [(i, o)]) id r ↔ sent = r) ∧ ∀ r, Received (tr ++ [(i, o)]) id r ↔ received = r := by
  rcases hl with ⟨-, hp, he, -⟩ | ⟨-, hp, he⟩
  · obtain ⟨hs, hr⟩ := h.current id _ _ hp
    refine ⟨fun r => ?_, fun r => ?_⟩
    · rw [sent_append, hs, he]
      simp
    · rw [received_append, hr, he]
      simp
  · obtain ⟨hs, hr⟩ := h.current id _ _ hp
    refine ⟨fun r => ?_, fun r => ?_⟩
    · rw [sent_append, hs, he]
      simp
    · rw [received_append, hr, he]
      simp

theorem Halves.failed (h : Halves tr c) {sent : Except Error Unit} {received : Except Error ReceivedResponse}
    (hl : LastHalf c i o.event id sent received) (e : Error) :
    Failed (tr ++ [(i, o)]) id e ↔ sent = .error e ∨ received = .error e := by
  obtain ⟨hs, hr⟩ := h.last hl
  rw [Failed, hs, hr]

theorem half_exchanging {reopened : Bool} {pubs : List Publication} {e : DriverEvent}
    (hm : c.Move i e reopened pubs c') (he : (∃ r, e = .sent id r) ∨ ∃ r, e = .received id r) :
    ∃ sent received, c.phase = .exchanging id sent received := by
  cases hm with
  | firstSent _ hp | firstReceived _ hp =>
    rcases he with ⟨r, hr⟩ | ⟨r, hr⟩ <;> cases hr
    exact ⟨_, _, hp⟩
  | settle hl | close hl | reuse hl =>
    rcases hl with ⟨-, hp, rfl, -⟩ | ⟨-, hp, rfl⟩
    all_goals
      rcases he with ⟨r, hr⟩ | ⟨r, hr⟩ <;> cases hr
      exact ⟨_, _, hp⟩
  | _ => rcases he with ⟨r, hr⟩ | ⟨r, hr⟩ <;> cases hr

theorem queue_subset {reopened : Bool} {pubs : List Publication} {e : DriverEvent}
    (hm : c.Move i e reopened pubs c') (hid : id ∈ c'.queue) : id ∈ c.queue ∨ id = c.jobs := by
  cases hm with
  | accept => exact .inr (by simpa using hid)
  | start | refuse | settle | close | finish | leave | leaveReturned | drop => cases hid
  | _ => exact .inl hid

theorem Halves.step (h : Halves tr c) (hinv : c.Inv) (hheld : ∀ id ∈ c.held, id < c.jobs)
    (hm : c.Move i o.event o.reopened o.published c') : Halves (tr ++ [(i, o)]) c' := by
  obtain ⟨-, hjobs, -⟩ := hm.books hinv
  refine ⟨fun id hid => ?_, fun id sent received hp => ?_, fun id outcome hp ht e hf => ?_⟩
  · have hold : id < c.jobs ∧ id ∉ c.queue := by
      by_cases hprev : (∃ r, tr.Sent id r) ∨ ∃ r, tr.Received id r
      · exact h.started id hprev
      · obtain ⟨sent, received, hp⟩ : ∃ sent received, c.phase = .exchanging id sent received := by
          apply half_exchanging hm
          simp only [sent_append, received_append, exists_or] at hid
          tauto
        have hmem : id ∈ c.held := by simp [DriverCore.held_exchanging hinv hp]
        exact ⟨hheld id hmem, by simp [(hinv.exchanging hp).2.1]⟩
    refine ⟨by omega, fun hq => ?_⟩
    rcases queue_subset hm hq with hq | rfl
    · exact hold.2 hq
    · omega
  · generalize he : o.event = e at hm
    generalize o.reopened = reopened at hm
    generalize o.published = pubs at hm
    cases hm with
    | control | late | abort | upload =>
      simp only [sent_append, received_append, he, reduceCtorEq, or_false]
      exact h.current id sent received hp
    | accept _ hw => simp [hw] at hp
    | start hq =>
      -- Nothing is known of a job that was queued.
      have hnone : ¬((∃ r, tr.Sent id r) ∨ ∃ r, tr.Received id r) := by
        intro hid
        cases hp
        exact (h.started id hid).2 (by simp [hq])
      simp only [not_or, not_exists] at hnone
      cases hp
      simp [sent_append, received_append, he, hnone]
    | firstSent _ hw =>
      cases hp
      obtain ⟨hs, hr⟩ := h.current id _ _ hw
      simp [sent_append, received_append, he, hs, hr]
    | firstReceived _ hw =>
      cases hp
      obtain ⟨hs, hr⟩ := h.current id _ _ hw
      simp [sent_append, received_append, he, hs, hr]
    | refuse | settle | close | reuse | finish | leave | leaveReturned | drop => cases hp
  · generalize he : o.event = e' at hm
    generalize o.reopened = reopened at hm
    generalize o.published = pubs at hm
    cases hm with
    | control | late | abort | upload =>
      simp only [Failed, sent_append, received_append, he, reduceCtorEq, or_false] at hf
      exact h.closing id outcome hp ht e hf
    | accept _ hw => simp [hw] at hp
    | close hl _ hcanceled =>
      cases ht
      subst he
      exact hcanceled e ((h.failed hl e).mp hf)
    | leave => cases ht
    | start | firstSent | firstReceived | refuse | settle | reuse | finish | leaveReturned | drop => cases hp

end DriverTrace

namespace DriverCore

variable {s s' : DriverCore W} {i : DriverCall W} {e : DriverEvent} {reopened : Bool} {pubs : List Publication}

theorem Move.final (hm : s.Move i e reopened pubs s') :
    (∀ r, s.phase = .ended r → s'.phase = .ended r) ∧ (s.phase = .dropped → s'.phase = .dropped) := by
  cases hm with
  | control | late | abort | upload => exact ⟨fun _ h => h, fun h => h⟩
  | accept _ hp | start _ hp | firstSent _ hp | firstReceived _ hp => simp [hp]
  | refuse hp | finish hp | leave hp | leaveReturned hp => simp [hp]
  | settle hl | close hl | reuse hl => rcases hl with ⟨-, hp, -⟩ | ⟨-, hp, -⟩ <;> simp [hp]
  | drop hend hdrop => exact ⟨fun r h => absurd h (hend r), fun h => absurd h hdrop⟩

def Explains (s : DriverCore W) (r : Except Error ExchangeOutcome) : Prop :=
  r = .ok .reusable ∨ (s.phase = .dropped ∧ r = .error driverLost) ∨
    ∃ result outcome, s.phase = .ended result ∧ outcome ≠ .reusable ∧ r = result.map fun _ => outcome

theorem Move.explains (h : s.Inv) (hm : s.Move i e reopened pubs s') {id : ℕ}
    {r : Except Error ExchangeOutcome} (hr : (id, r) ∈ pubs) : s'.Explains r := by
  cases hm with
  | @refuse _ _ e' hp =>
    simp only [List.mem_singleton, Prod.mk.injEq] at hr
    exact .inr (.inr ⟨.error e', .closed .messagePolicy, rfl, by simp, hr.2⟩)
  | settle hl hne =>
    simp only [List.mem_singleton, Prod.mk.injEq] at hr
    exact .inr (.inr ⟨_, _, rfl, hne, hr.2⟩)
  | reuse =>
    simp only [List.mem_singleton, Prod.mk.injEq] at hr
    exact .inl hr.2
  | finish hp =>
    obtain ⟨-, -, hne⟩ := h.shuttingDown hp
    cases ht : s.terminal with
    | none => simp [terminalPublication, ht] at hr
    | some t =>
      simp only [terminalPublication, ht, Option.toList_some, List.map_cons, List.map_nil, List.mem_singleton,
        Prod.mk.injEq] at hr
      refine .inr (.inr ⟨_, t.2, rfl, fun hreuse => ?_, hr.2⟩)
      exact hne t.1 (by rw [ht, ← hreuse])
  | drop =>
    obtain ⟨j, -, hj⟩ := List.mem_map.mp hr
    cases hj
    exact .inr (.inl ⟨rfl, rfl⟩)
  | _ => cases hr

theorem Move.reusable (h : s.Inv) (hm : s.Move i e reopened pubs s') {id : ℕ}
    (hr : (id, .ok .reusable) ∈ pubs) :
    ∃ policy, LastHalf s i e id (.ok ()) (.ok ⟨.complete, [], policy⟩) ∧
      policy.finish .complete .complete = .ok .reusable ∧ (s.controls id).aborted = false := by
  have hne {r : Except Error ConnectionOutcome} {outcome : ExchangeOutcome} (hne : outcome ≠ .reusable) :
      .ok .reusable ≠ Except.map (fun _ => outcome) r := by
    cases r with
    | error e => simp [Except.map]
    | ok u => simpa [Except.map] using hne.symm
  cases hm with
  | reuse hl hpolicy haborted =>
    simp only [List.mem_singleton, Prod.mk.injEq, and_true] at hr
    subst hr
    exact ⟨_, hl, hpolicy, haborted⟩
  | settle hl hout =>
    simp only [List.mem_singleton, Prod.mk.injEq] at hr
    exact absurd hr.2 (hne hout)
  | refuse => simp at hr
  | finish hp =>
    obtain ⟨-, -, hout⟩ := h.shuttingDown hp
    cases ht : s.terminal with
    | none => simp [terminalPublication, ht] at hr
    | some t =>
      simp only [terminalPublication, ht, Option.toList_some, List.map_cons, List.map_nil, List.mem_singleton,
        Prod.mk.injEq] at hr
      refine absurd hr.2 (hne fun hreuse => ?_)
      exact hout t.1 (by rw [ht, ← hreuse])
  | drop =>
    obtain ⟨j, -, hj⟩ := List.mem_map.mp hr
    cases hj
  | _ => cases hr

/-- A move publishes for jobs whose receipt is held. -/
theorem Move.publishes_held (h : s.Inv) (hm : s.Move i e reopened pubs s') {id : ℕ}
    {r : Except Error ExchangeOutcome} (hr : (id, r) ∈ pubs) : id ∈ s.held := by
  cases hm with
  | refuse hp =>
    rw [held_exchanging h hp]
    exact List.mem_map_of_mem (f := Prod.fst) hr
  | settle hl | reuse hl =>
    rw [held_lastHalf h hl]
    exact List.mem_map_of_mem (f := Prod.fst) hr
  | finish hp =>
    obtain ⟨hq, -, -⟩ := h.shuttingDown hp
    simp only [terminalPublication, List.mem_map] at hr
    obtain ⟨t, ht, htr⟩ := hr
    cases htr
    simp only [held, hq, List.nil_append]
    exact List.mem_map_of_mem ht
  | drop =>
    obtain ⟨j, hj, hjr⟩ := List.mem_map.mp hr
    cases hjr
    exact hj
  | _ => cases hr

theorem Move.reopens (hm : s.Move i e reopened pubs s') (hr : reopened = true) :
    ∃ id, pubs = [(id, .ok .reusable)] := by
  cases hm with
  | reuse => exact ⟨_, rfl⟩
  | _ => cases hr

theorem Move.event_ne (hm : s.Move i e reopened pubs s') : e ≠ .panicked := by
  cases hm with
  | settle hl | close hl | reuse hl => rcases hl with ⟨-, -, rfl, -⟩ | ⟨-, -, rfl⟩ <;> nofun
  | _ => nofun

/-- As long as admission is open, only reusable receipts are published. -/
theorem Move.open_reusable (hm : s.Move i e reopened pubs s') (hr : s'.receiver = true) :
    s.receiver = true ∧ ∀ x ∈ pubs, x.2 = .ok .reusable := by
  cases hm with
  | refuse | settle | close | finish | leave | leaveReturned | drop => cases hr
  | reuse => exact ⟨hr, by simp⟩
  | _ => exact ⟨hr, by simp⟩

theorem Move.accepts (h : s.Inv) (hm : s.Move i e reopened pubs s') (hj : s.jobs < s'.jobs) :
    s'.jobs = s.jobs + 1 ∧ s.held = [] ∧ s.receiver = true ∧
      (s'.controls s.jobs).completion.result = none := by
  cases hm with
  | accept hq hp =>
    obtain ⟨hterm, hr⟩ := h.waiting hp
    exact ⟨rfl, by simp [held, hq, hterm], hr, by simp [Control.new]⟩
  | _ => simp at hj

end DriverCore

namespace DriverTrace

variable {tr : DriverTrace W} {c c' : DriverCore W} {i : DriverCall W} {o : DriverOutput W} {id : ℕ}

/-- Every accepted job is published once or its receipt is held. -/
structure Books (tr : DriverTrace W) (c : DriverCore W) : Prop where
  published : tr.published.map Prod.fst ++ c.held = List.range c.jobs
  accepted : tr.accepted = List.range c.jobs

namespace Books

theorem step (h : Books tr c) (hinv : c.Inv) (hm : c.Move i o.event o.reopened o.published c') :
    Books (tr ++ [(i, o)]) c' := by
  obtain ⟨hheld, hjobs, hnew⟩ := hm.books hinv
  have hrange : List.range c.jobs ++ o.event.acceptedJobs = List.range c'.jobs := by
    rw [hjobs]
    cases he : o.event with
    | accepted j =>
      obtain rfl : j = c.jobs := hnew j (by simp [he, DriverEvent.acceptedJobs])
      exact List.range_succ.symm
    | _ => simp [DriverEvent.acceptedJobs]
  refine ⟨?_, by rw [accepted_append, h.accepted, hrange]⟩
  rw [published_append, List.map_append, List.append_assoc, ← hheld, ← List.append_assoc, h.published, hrange]

theorem nodup (h : Books tr c) : (tr.published.map Prod.fst ++ c.held).Nodup := by
  rw [h.published]
  exact List.nodup_range

theorem held_lt (h : Books tr c) (hid : id ∈ c.held) : id < c.jobs := by
  rw [← List.mem_range, ← h.published]
  exact List.mem_append_right _ hid

theorem published_lt (h : Books tr c) {r : Except Error ExchangeOutcome} (hid : (id, r) ∈ tr.published) :
    id < c.jobs := by
  rw [← List.mem_range, ← h.published]
  exact List.mem_append_left _ (List.mem_map_of_mem hid)

theorem not_held (h : Books tr c) {r : Except Error ExchangeOutcome} (hid : (id, r) ∈ tr.published) :
    id ∉ c.held :=
  (List.nodup_append'.mp h.nodup).2.2 (List.mem_map_of_mem (f := Prod.fst) hid)

theorem settled (h : Books tr c) (hid : id < c.jobs) (hheld : id ∉ c.held) :
    ∃ r, (id, r) ∈ tr.published := by
  rw [← List.mem_range, ← h.published] at hid
  rcases List.mem_append.mp hid with hid | hid
  · obtain ⟨⟨_, r⟩, hr, rfl⟩ := List.mem_map.mp hid
    exact ⟨r, hr⟩
  · exact absurd hid hheld

end Books

/-- What was published, against the driver and the rest of the record. -/
structure Receipts (tr : DriverTrace W) (c : DriverCore W) : Prop where
  reused : ∀ id, (id, .ok .reusable) ∈ tr.published → tr.Reused id
  originating : ∀ id r e, (id, r) ∈ tr.published → tr.Failed id e → e.isCanceled = false →
    ∃ e', r = .error e' ∧ e'.isCanceled = false ∧ (e' = driverLost ∨ tr.Failed id e')
  explained : ∀ id r, (id, r) ∈ tr.published → c.Explains r
  slot : ∀ id < c.jobs, ∀ r, (c.controls id).completion.result = some r → (id, r) ∈ tr.published
  delivered : ∀ id r, (id, r) ∈ tr.published → (c.controls id).Delivered r
  /-- While admission is open, and for every job but the last, the receipts are reusable. -/
  serving : c.receiver = true → ∀ x ∈ tr.published, x.2 = .ok .reusable
  earlier : ∀ id, id + 1 < c.jobs → (id, .ok .reusable) ∈ tr.published

theorem Failed.later {e : Error} (h : tr.Failed id e) (x : DriverCall W × DriverOutput W) :
    Failed (tr ++ [x]) id e := by
  rcases h with h | h
  · exact .inl (sent_append.mpr (.inl h))
  · exact .inr (received_append.mpr (.inl h))

theorem failed_of_published (hb : Books tr c) (hinv : c.Inv)
    (hm : c.Move i o.event o.reopened o.published c') {r : Except Error ExchangeOutcome}
    (hid : (id, r) ∈ tr.published) {e : Error} (hf : Failed (tr ++ [(i, o)]) id e) : tr.Failed id e := by
  have habsent : ¬((∃ r, o.event = .sent id r) ∨ ∃ r, o.event = .received id r) := by
    intro he
    obtain ⟨sent, received, hp⟩ := half_exchanging hm he
    apply hb.not_held hid
    simp [DriverCore.held_exchanging hinv hp]
  rcases hf with hf | hf
  · rcases sent_append.mp hf with hf | hf
    · exact .inl hf
    · exact absurd (.inl ⟨_, hf⟩) habsent
  · rcases received_append.mp hf with hf | hf
    · exact .inr hf
    · exact absurd (.inr ⟨_, hf⟩) habsent

theorem originates_of_publishes (hh : Halves tr c)
    (hm : c.Move i o.event o.reopened o.published c') {r : Except Error ExchangeOutcome}
    (hid : (id, r) ∈ o.published) {e : Error} (hf : Failed (tr ++ [(i, o)]) id e) (hc : e.isCanceled = false) :
    ∃ e', r = .error e' ∧ e'.isCanceled = false ∧ (e' = driverLost ∨ Failed (tr ++ [(i, o)]) id e') := by
  generalize he : o.event = event at hm
  generalize o.reopened = reopened at hm
  generalize o.published = pubs at hm hid
  cases hm with
  | refuse hp =>
    obtain rfl : id = _ := congrArg Prod.fst (List.mem_singleton.mp hid)
    obtain ⟨hs, hr⟩ := hh.current _ _ _ hp
    simp [Failed, sent_append, received_append, he, hs, hr] at hf
  | settle hl _ hor =>
    obtain ⟨rfl, rfl⟩ := Prod.mk.inj (List.mem_singleton.mp hid)
    subst he
    obtain ⟨e', hr, hc', hhalf⟩ := hor e ((hh.failed hl e).mp hf) hc
    exact ⟨e', hr, hc', .inr ((hh.failed hl e').mpr hhalf)⟩
  | reuse hl =>
    obtain ⟨rfl, rfl⟩ := Prod.mk.inj (List.mem_singleton.mp hid)
    subst he
    simpa using (hh.failed hl e).mp hf
  | finish hp =>
    simp only [terminalPublication, List.mem_map, Option.mem_toList] at hid
    obtain ⟨t, ht, htr⟩ := hid
    cases htr
    simp only [Failed, sent_append, received_append, he, reduceCtorEq, or_false] at hf
    have := hh.closing t.1 t.2 hp ht e hf
    simp [this] at hc
  | drop =>
    obtain ⟨j, -, hj⟩ := List.mem_map.mp hid
    cases hj
    exact ⟨driverLost, rfl, rfl, .inl rfl⟩
  | _ => cases hid

theorem reused_of_publishes (hu : Uploads tr c) (hh : Halves tr c) (hinv : c.Inv)
    (hm : c.Move i o.event o.reopened o.published c') (hid : (id, .ok .reusable) ∈ o.published) :
    Reused (tr ++ [(i, o)]) id := by
  obtain ⟨policy, hl, hpolicy, haborted⟩ := hm.reusable hinv hid
  obtain ⟨hs, hr⟩ := hh.last hl
  have hcomplete : (c.controls id).uploadComplete = true := by
    rcases hl with ⟨-, -, -, hup⟩ | ⟨-, hp, -⟩
    · exact hup rfl
    · obtain ⟨-, -, -, -, hup, -⟩ := hinv.exchanging hp
      exact hup rfl
  exact ⟨(hu.complete id haborted hcomplete).later, (hs _).mpr rfl, policy, (hr _).mpr rfl, hpolicy⟩

theorem Receipts.step (h : Receipts tr c) (hb : Books tr c) (hu : Uploads tr c) (hh : Halves tr c)
    (hinv : c.Inv) (hm : c.Move i o.event o.reopened o.published c') : Receipts (tr ++ [(i, o)]) c' := by
  have hfinal := hm.final
  obtain ⟨-, hjobs, -⟩ := hm.books hinv
  refine ⟨fun id hid => ?_, fun id r e hid hf hc => ?_, fun id r hid => ?_, fun id hlt r hr => ?_,
    fun id r hid => ?_, fun hopen x hx => ?_, fun id hlt => ?_⟩
  all_goals rw [published_append] at *
  · rcases List.mem_append.mp hid with hid | hid
    · exact (h.reused id hid).later
    · exact reused_of_publishes hu hh hinv hm hid
  · rcases List.mem_append.mp hid with hid | hid
    · obtain ⟨e', hr, hc', hhalf⟩ := h.originating id r e hid (failed_of_published hb hinv hm hid hf) hc
      exact ⟨e', hr, hc', hhalf.imp_right (Failed.later · _)⟩
    · exact originates_of_publishes hh hm hid hf hc
  · rcases List.mem_append.mp hid with hid | hid
    · rcases h.explained id r hid with hr | ⟨hp, hr⟩ | ⟨result, outcome, hp, hrest⟩
      · exact .inl hr
      · exact .inr (.inl ⟨hfinal.2 hp, hr⟩)
      · exact .inr (.inr ⟨result, outcome, hfinal.1 _ hp, hrest⟩)
    · exact hm.explains hinv hid
  · by_cases hold : id < c.jobs
    · rcases (hm.slot hinv hold).result r hr with hr | hr
      · exact List.mem_append_left _ (h.slot id hold r hr)
      · exact List.mem_append_right _ hr
    · -- The control of a job that was just accepted is empty.
      obtain ⟨hone, -, -, hnone⟩ := hm.accepts hinv (by omega)
      obtain rfl : id = c.jobs := by omega
      simp [hnone] at hr
  · rcases List.mem_append.mp hid with hid | hid
    · refine (hm.slot hinv (hb.published_lt hid)).kept (fun hpub => ?_) r (h.delivered id r hid)
      obtain ⟨⟨_, r'⟩, hr', rfl⟩ := List.mem_map.mp hpub
      exact hb.not_held hid (hm.publishes_held hinv hr')
    · exact (hm.slot hinv (hb.held_lt (hm.publishes_held hinv hid))).stored r hid
  · obtain ⟨hrecv, hnew⟩ := hm.open_reusable hopen
    rcases List.mem_append.mp hx with hx | hx
    · exact h.serving hrecv x hx
    · exact hnew x hx
  · apply List.mem_append_left
    by_cases hold : id + 1 < c.jobs
    · exact h.earlier id hold
    · obtain ⟨hone, hheld, hrecv, -⟩ := hm.accepts hinv (by omega)
      have hlt' : id < c.jobs := by omega
      obtain ⟨r, hr⟩ := hb.settled hlt' (by simp [hheld])
      have hreuse : r = .ok .reusable := h.serving hrecv _ hr
      rwa [hreuse] at hr

structure Record (tr : DriverTrace W) (s : ClientDriver W) : Prop where
  linked : s.Linked
  inv : s.core.Inv
  uploads : Uploads tr s.core
  halves : Halves tr s.core
  books : Books tr s.core
  receipts : Receipts tr s.core
  reopened : ∀ x ∈ tr, x.2.reopened = true → ∃ id, x.2.published = [(id, .ok .reusable)]
  sound : ∀ x ∈ tr, x.2.event ≠ .panicked

theorem record_new (recovering : Bool) : Record [] (ClientDriver.new (W := W) recovering) where
  linked := ⟨ClientAdmission.inv_new, rfl, fun h => by cases h⟩
  inv := ⟨⟨rfl, rfl⟩, Nat.zero_le 1, fun _ h => by cases h⟩
  uploads := ⟨by simp, by simp, fun _ _ hup => by cases hup⟩
  halves := ⟨by simp [Sent, Received], fun _ _ _ hp => (by cases hp), fun _ _ hp => (by cases hp)⟩
  books := ⟨rfl, rfl⟩
  receipts := ⟨by simp [published], by simp [published], by simp [published],
    fun _ hid => (by cases hid), by simp [published], by simp [published], fun _ hid => (by cases hid)⟩
  reopened := by simp
  sound := by simp

theorem Record.step {s s' : ClientDriver W} (h : Record tr s) (hs : s.step i = some (s', o)) :
    Record (tr ++ [(i, o)]) s' := by
  obtain ⟨hlinked, hm⟩ := ClientDriver.step_moved h.linked h.inv hs
  refine ⟨hlinked, hm.inv h.inv, h.uploads.step h.inv hm, h.halves.step h.inv (fun _ => h.books.held_lt) hm,
    h.books.step h.inv hm, h.receipts.step h.books h.uploads h.halves h.inv hm, fun x hx => ?_, fun x hx => ?_⟩
  · rcases List.mem_append.mp hx with hx | hx
    · exact h.reopened x hx
    · obtain rfl := List.mem_singleton.mp hx
      exact hm.reopens
  · rcases List.mem_append.mp hx with hx | hx
    · exact h.sound x hx
    · obtain rfl := List.mem_singleton.mp hx
      exact hm.event_ne

theorem AbortedEarly.not_unaborted {s : ClientDriver W} (h : Record tr s) (ha : tr.AbortedEarly id) :
    ¬tr.Unaborted id := by
  rintro ⟨before, x, after, rfl, ⟨hx, hbefore⟩, -⟩
  obtain ⟨before', y, after', heq, ⟨hy, hbefore'⟩, -⟩ := ha
  have hy' : y ∈ before ++ x :: after := by simp [heq]
  obtain ⟨-, hquiet⟩ := h.uploads.accepted y hy' id hy
  rcases List.append_eq_append_iff.mp heq with ⟨mid, rfl, hmid⟩ | ⟨mid, rfl, hmid⟩
  · -- The completion comes first.
    cases mid with
    | nil =>
      cases hmid
      simp [hquiet] at hx
    | cons z mid =>
      cases hmid
      exact hbefore' x (by simp) hx
  · cases mid with
    | nil =>
      cases hmid
      simp [hquiet] at hx
    | cons z mid =>
      cases hmid
      exact hbefore y (by simp) hy

theorem Record.of_reaches {s : ClientDriver W} {recovering : Bool}
    (h : (clientDriver W).Reaches (.new recovering) tr s) : Record tr s :=
  h.invariant (record_new recovering) fun _ _ _ _ _ hr hs => hr.step hs

end DriverTrace

open DriverTrace in
/-- What a run of the client driver shows about reuse and receipts. -/
structure ClientReceipts (tr : DriverTrace W) (s : ClientDriver W) : Prop where
  sound : ∀ x ∈ tr, x.2.event ≠ .panicked
  reused : ∀ id, (id, .ok .reusable) ∈ tr.published → tr.Reused id
  /-- Admission reopens together with a reusable receipt. -/
  reopened : ∀ x ∈ tr, x.2.reopened = true → ∃ id, x.2.published = [(id, .ok .reusable)]
  /-- A failure of a half that is no cancellation is not reported as one. -/
  originating : ∀ id r e, (id, r) ∈ tr.published → tr.Failed id e → e.isCanceled = false →
    ∃ e', r = .error e' ∧ e'.isCanceled = false ∧ (e' = driverLost ∨ tr.Failed id e')
  /-- After an early abort the connection is never used again. -/
  retired : ∀ id, tr.AbortedEarly id →
    (id, .ok .reusable) ∉ tr.published ∧ ∀ id' ∈ tr.accepted, id' ≤ id
  distinct : tr.accepted.Nodup
  once : (tr.published.map Prod.fst).Nodup
  /-- A job that was not published is queued, or the driver holds its receipt. -/
  published_iff : ∀ id, (∃ r, (id, r) ∈ tr.published) ↔ id ∈ tr.accepted ∧ id ∉ s.core.held
  finished : s.isOver = true → ∀ id ∈ tr.accepted, ∃ r, (id, r) ∈ tr.published
  /-- A result is reusable, the loss of the driver, or what the driver returned. -/
  explained : ∀ id r, (id, r) ∈ tr.published → s.core.Explains r
  /-- A slot holds nothing but the published result, from its publication until the receipt
  returns it or is dropped. -/
  slot : ∀ id ∈ tr.accepted, ∀ r, (s.controls id).completion.result = some r → (id, r) ∈ tr.published
  delivered : ∀ id r, (id, r) ∈ tr.published → (s.controls id).Delivered r

theorem client_receipts {tr : DriverTrace W} {s : ClientDriver W} {recovering : Bool}
    (h : (clientDriver W).Reaches (.new recovering) tr s) : ClientReceipts tr s := by
  have hrec := DriverTrace.Record.of_reaches h
  have hb := hrec.books
  have haccepted (id : ℕ) : id ∈ tr.accepted ↔ id < s.jobs := by
    rw [hb.accepted, List.mem_range]
    rfl
  have hpublished (id : ℕ) : (∃ r, (id, r) ∈ tr.published) ↔ id ∈ tr.accepted ∧ id ∉ s.core.held := by
    rw [haccepted]
    exact ⟨fun ⟨r, hr⟩ => ⟨hb.published_lt hr, hb.not_held hr⟩, fun ⟨hlt, hheld⟩ => hb.settled hlt hheld⟩
  refine ⟨hrec.sound, hrec.receipts.reused, hrec.reopened, hrec.receipts.originating, ?_, ?_, ?_, hpublished, ?_,
    hrec.receipts.explained, ?_, hrec.receipts.delivered⟩
  · intro id hearly
    have hnot : (id, .ok .reusable) ∉ tr.published :=
      fun hid => hearly.not_unaborted hrec (hrec.receipts.reused id hid).upload
    refine ⟨hnot, fun id' hid' => ?_⟩
    by_contra hlt
    rw [haccepted] at hid'
    have hnext : id + 1 < s.core.jobs := by
      change id + 1 < s.jobs
      omega
    exact hnot (hrec.receipts.earlier id hnext)
  · rw [hb.accepted]
    exact List.nodup_range
  · exact (List.nodup_append'.mp hb.nodup).1
  · intro hover id hid
    rw [hpublished]
    have hp : (∃ r, s.core.phase = .ended r) ∨ s.core.phase = .dropped := by
      change (∃ r, s.phase = .ended r) ∨ s.phase = .dropped
      unfold ClientDriver.isOver at hover
      cases hp : s.phase <;> simp [hp] at hover ⊢
    exact ⟨hid, by simp [hrec.inv.returned hp]⟩
  · intro id hid
    rw [haccepted] at hid
    exact hrec.receipts.slot id hid

def samplePolicy : ExchangePolicy := ⟨.final, .reusable, .get, none, [], 0, 0⟩

theorem client_receipts_reused : ∃ (tr : DriverTrace ℕ) (s : ClientDriver ℕ),
    tr.map Prod.fst = [.admission .tryReserve, .submit, .next 1, .received (.ok ⟨.complete, [], samplePolicy⟩),
      .uploaded, .abort 0, .sent (.ok ()), .dropDriver] ∧
    tr.published = [(0, .ok .reusable)] ∧ ClientReceipts tr s := by
  have hrun : (clientDriver ℕ).run (.new false)
      [.admission .tryReserve, .submit, .next 1, .received (.ok ⟨.complete, [], samplePolicy⟩), .uploaded,
        .abort 0, .sent (.ok ()), .dropDriver] = some (_, _) := rfl
  exact ⟨_, _, Machine.run_inputs hrun, rfl, client_receipts (Machine.reaches_of_run hrun)⟩

end Vakya
