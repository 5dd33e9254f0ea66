import Vakya.Context

/-!
# The informational-response protocol

Whatever the service, the body receiver and the writer loop do, a head is
handed to the writer while its own send waits for it and before the final
response is selected, and what the send returns is about that head. The state
that decides this is small; wakers and counters play no part in it.
-/

namespace Vakya

open Library

/-- The part of the state that decides which operations are possible. -/
structure ContextCore where
  admission : ContextAdmission
  automaticContinue : AutomaticContinue
  command : CommandState
  sending : Bool
  demanded : Bool
  writerLoop : WriterLoop
  driver : Bool

def CommandState.held : CommandState → Bool
  | .queued _ | .writing | .complete _ => true
  | .idle | .writingAbandoned => false

def CommandState.inFlight : CommandState → Bool
  | .writing | .writingAbandoned => true
  | _ => false

def WriterLoop.application : WriterLoop → Bool
  | .holding (.application _) | .writing false _ | .flushing false => true
  | _ => false

def WriterLoop.automatic : WriterLoop → Bool
  | .holding .hundredContinue | .writing true _ | .flushing true => true
  | _ => false

/-- After the acknowledgement the loop waits for a command or has returned. -/
def WriterLoop.settled : WriterLoop → Bool
  | .waiting | .stopped _ => true
  | _ => false

variable {W : Type}

/-- The operation neither withdraws a send nor selects the final response. -/
def ContextCall.ordinary : ContextCall W → Bool
  | .dropSend | .selectFinal => false
  | _ => true

def Context.core (s : Context W) : ContextCore :=
  ⟨s.admission, s.automaticContinue, s.command, s.sending, s.demanded, s.writerLoop, s.driver⟩

namespace ContextCore

structure Inv (s : ContextCore) : Prop where
  sending : s.sending = s.command.held
  inFlight : s.driver = true → s.writerLoop.application = s.command.inFlight

/-- Every operation, by its effect on the core. -/
inductive Move (x : Crates) (cfg : WriterConfig) (s : ContextCore) :
    ContextCall W → ContextEvent → ContextCore → Prop
  | idle {i e} : i.ordinary = true →
      (e = .quiet ∨ (∃ r, e = .permitted r) ∨ e = .next none) → Move x cfg s i e s
  | refuse {r w e} : s.sending = false → Move x cfg s (.send r w) (.sent (.error e)) s
  | queue {r w} : s.admission = .opened → s.command = .idle →
      Move x cfg s (.send r w) (.queued r) { s with command := .queued r, sending := true }
  | settle {w result} : s.command = .complete result →
      Move x cfg s (.pollSend w) (.sent result) { s with command := .idle, sending := false }
  | close {w} : s.admission = .closed → Move x cfg s (.pollSend w) (.sent (.error Context.closedError))
      { s with command := s.command.abandon, sending := false }
  | withdraw : Move x cfg s .dropSend .quiet { s with command := s.command.abandon, sending := false }
  | demand : Move x cfg s .demand .quiet { s with demanded := true }
  | request {w e} : s.demanded = true → s.automaticContinue = .idle → (∃ r, e = .permitted r) →
      Move x cfg s (.continuePermission w) e { s with automaticContinue := .requested }
  | finish {w} : s.driver = true → s.writerLoop = .waiting → Move x cfg s (.next w) (.next (some none))
      { s with writerLoop := .stopped (.ok ()) }
  | provide {w} : s.driver = true → s.writerLoop = .waiting → s.admission = .opened →
      s.automaticContinue = .requested →
      Move x cfg s (.next w) (.next (some (some .hundredContinue)))
        { s with writerLoop := .holding .hundredContinue }
  | take {w r} : s.driver = true → s.writerLoop = .waiting → s.admission = .opened → s.command = .queued r →
      Move x cfg s (.next w) (.next (some (some (.application r))))
        { s with command := .writing, writerLoop := .holding (.application r) }
  | stop {i e} : s.driver = true → s.writerLoop.application = false → i.ordinary = true →
      Move x cfg s i .stopped { s with writerLoop := .stopped (.error e) }
  | encode {n c head} : s.driver = true → s.writerLoop = .holding c →
      informationalHead x cfg n c.response = .ok head →
      Move x cfg s .encode (.encoded head) { s with writerLoop := .writing c.automatic head }
  | wrote {r automatic head} : s.driver = true → s.writerLoop = .writing automatic head →
      Move x cfg s (.wrote r) (.wrote head) { s with writerLoop := .flushing automatic }
  | acknowledge {i result} {rest : WriterLoop} : s.driver = true → s.writerLoop.application = true →
      s.command = .writing → rest.settled = true → i.ordinary = true →
      (result = .ok () → i = .flushed (.ok ()) ∧ s.writerLoop = .flushing false) →
      Move x cfg s i (.acknowledged result) { s with command := .complete result, writerLoop := rest }
  | discard {i result} {rest : WriterLoop} : s.driver = true → s.writerLoop.application = true →
      s.command = .writingAbandoned → rest.settled = true → i.ordinary = true →
      Move x cfg s i (.acknowledged result) { s with command := .idle, writerLoop := rest }
  | continued {r} : s.driver = true → s.writerLoop = .flushing true →
      Move x cfg s (.flushed r) .continued
        { s with writerLoop := .waiting, automaticContinue := .complete }
  | selectFinal {admission command} : admission ≠ .opened → (admission = .closed → s.admission = .closed) →
      (command = s.command ∧ (∀ r, s.command ≠ .queued r) ∨
        (∃ r, s.command = .queued r) ∧ command = .complete (.error Context.lateError)) →
      Move x cfg s .selectFinal .quiet { s with admission := admission, command := command }
  | dropReceiver : Move x cfg s .dropReceiver .quiet { s with admission := .closed, driver := false }

end ContextCore

namespace Context

open ContextCore

variable {x : Crates} {cfg : WriterConfig} {s s' : Context W} {o : ContextOutput W}

theorem move_send (hs : s.sending = false) (r : InformationalResponse) (w : W) :
    Move x cfg s.core (.send r w) (s.send r w).2.event (s.send r w).1.core := by
  unfold send
  split_ifs with h1 h2 h3
  · exact .refuse hs
  · exact .refuse hs
  · exact .refuse hs
  · have hopen : s.admission = .opened := by cases h : s.admission <;> simp_all
    cases hc : s.command with
    | idle => exact .queue hopen hc
    | _ => exact .refuse hs

theorem move_pollSend (w : W) :
    Move x cfg s.core (.pollSend w) (s.pollSend w).2.event (s.pollSend w).1.core := by
  unfold pollSend
  split
  · rename_i result hc
    exact .settle hc
  · split_ifs with ha
    · exact .close ha
    · exact .idle rfl (.inl rfl)

theorem pollPermission_core (s : Context W) (w : W) :
    (s.pollPermission w).1.core = s.core ∧ ∃ r, (s.pollPermission w).2.event = .permitted r := by
  unfold pollPermission
  split_ifs
  · exact ⟨rfl, _, rfl⟩
  · exact ⟨rfl, _, rfl⟩
  · exact ⟨rfl, _, rfl⟩

theorem move_pollPermission (w : W) :
    Move x cfg s.core (.pollPermission w) (s.pollPermission w).2.event (s.pollPermission w).1.core := by
  obtain ⟨hcore, he⟩ := s.pollPermission_core w
  rw [hcore]
  exact .idle rfl (.inr (.inl he))

theorem move_continuePermission (hd : s.demanded = true) (w : W) :
    Move x cfg s.core (.continuePermission w) (s.continuePermission w).2.event
      (s.continuePermission w).1.core := by
  unfold continuePermission
  by_cases ha : s.automaticContinue = .idle
  · simp only [if_pos ha]
    obtain ⟨hcore, he⟩ := pollPermission_core
      { s with automaticContinue := .requested, writer := none, permission := true } w
    rw [hcore]
    exact .request hd ha he
  · simp only [if_neg ha]
    obtain ⟨hcore, he⟩ := pollPermission_core
      { s with automaticContinue := s.automaticContinue, writer := none, permission := true } w
    rw [hcore]
    exact .idle rfl (.inr (.inl he))

theorem move_next (hd : s.driver = true) (hl : s.writerLoop = .waiting) (w : W) :
    Move x cfg s.core (.next w) (s.next w).2.event (s.next w).1.core := by
  unfold next
  split_ifs with ha hr
  · exact .finish hd hl
  · exact .provide hd hl (not_not.mp ha) hr
  · split
    · rename_i r hc
      exact .take hd hl (not_not.mp ha) hc
    · exact .idle rfl (.inr (.inr rfl))

/-- An acknowledgement finds the command that the loop took: the panic of `complete` is not reached. -/
theorem move_complete (h : s.core.Inv) (hd : s.driver = true) (hl : s.writerLoop.application = true)
    {rest : WriterLoop} (hrest : rest.settled = true) (i : ContextCall W) (hi : i.ordinary = true)
    {result : Except Error Unit}
    (hok : result = .ok () → i = .flushed (.ok ()) ∧ s.writerLoop = .flushing false) (n : ℕ) :
    Move x cfg s.core i (complete { s with writerLoop := rest, count := n } result).2.event
      (complete { s with writerLoop := rest, count := n } result).1.core := by
  have hflight : s.command.inFlight = true := (h.inFlight hd).symm.trans hl
  unfold complete
  cases hc : s.command with
  | writing => exact .acknowledge hd hl hc hrest hi hok
  | writingAbandoned => exact .discard hd hl hc hrest hi
  | _ => simp [CommandState.inFlight, hc] at hflight

theorem move_stop (h : s.core.Inv) (hd : s.driver = true) {automatic : Bool}
    (hl : s.writerLoop.application = !automatic) (i : ContextCall W) (hi : i.ordinary = true) (e : Error) :
    Move x cfg s.core i (s.stop automatic e).2.event (s.stop automatic e).1.core := by
  unfold stop
  cases automatic with
  | true => exact .stop hd hl hi
  | false =>
    have hrest : (WriterLoop.stopped (.error e)).settled = true := rfl
    have hok : Except.error e = .ok () → i = .flushed (.ok ()) ∧ s.writerLoop = .flushing false := nofun
    exact move_complete h hd hl hrest i hi hok s.count

theorem move_encode (h : s.core.Inv) (hd : s.driver = true) {c : Command} (hl : s.writerLoop = .holding c) :
    Move x cfg s.core (.encode : ContextCall W) (s.encode x cfg c).2.event (s.encode x cfg c).1.core := by
  unfold encode
  split
  · rename_i head hhead
    exact .encode hd hl hhead
  · rename_i e he
    cases c with
    | hundredContinue => exact .stop hd (by simp [core, hl, WriterLoop.application]) rfl
    | application r =>
      have hrest : WriterLoop.waiting.settled = true := rfl
      have happ : s.writerLoop.application = true := by simp [hl, WriterLoop.application]
      have hok : Except.error e = .ok () → (.encode : ContextCall W) = .flushed (.ok ()) ∧
          s.writerLoop = .flushing false := nofun
      exact move_complete h hd happ hrest _ rfl hok s.count

theorem move_wrote (h : s.core.Inv) (hd : s.driver = true) {automatic : Bool} {head : Bytes}
    (hl : s.writerLoop = .writing automatic head) (r : Except Error Unit) :
    Move x cfg s.core (.wrote r : ContextCall W) (s.wrote automatic head r).2.event (s.wrote automatic head r).1.core := by
  unfold wrote
  split
  · exact .wrote hd hl
  · refine move_stop h hd ?_ _ rfl _
    cases automatic <;> simp [hl, WriterLoop.application]

theorem move_flushed (h : s.core.Inv) (hd : s.driver = true) {automatic : Bool}
    (hl : s.writerLoop = .flushing automatic) (r : Except Error Unit) :
    Move x cfg s.core (.flushed r : ContextCall W) (s.flushed automatic r).2.event (s.flushed automatic r).1.core := by
  unfold flushed
  split
  · cases automatic with
    | true => exact .continued hd hl
    | false =>
      have hrest : WriterLoop.waiting.settled = true := rfl
      have happ : s.writerLoop.application = true := by simp [hl, WriterLoop.application]
      exact move_complete h hd happ hrest _ rfl (fun _ => ⟨rfl, hl⟩) (s.count + 1)
  · refine move_stop h hd ?_ _ rfl _
    cases automatic <;> simp [hl, WriterLoop.application]

theorem move_selectFinal :
    Move x cfg s.core (.selectFinal : ContextCall W) s.selectFinal.2.event s.selectFinal.1.core := by
  refine .selectFinal ?_ ?_ ?_
  · show (if s.admission = .opened then .finalSelected else s.admission) ≠ ContextAdmission.opened
    split_ifs with ha
    · nofun
    · exact ha
  · show (if s.admission = .opened then .finalSelected else s.admission) = ContextAdmission.closed → _
    split_ifs with ha
    · nofun
    · exact id
  · cases hc : s.command with
    | queued r => exact .inr ⟨⟨r, hc⟩, by simp [selectFinal, hc]⟩
    | _ => exact .inl ⟨by simp [core, selectFinal, hc], by simp [core, hc]⟩

theorem move_of_step (h : s.core.Inv) {i : ContextCall W} (hs : s.step x cfg i = some (s', o)) :
    Move x cfg s.core i o.event s'.core := by
  have of_eq {r : Context W × ContextOutput W} (hr : some r = some (s', o))
      (hmove : Move x cfg s.core i r.2.event r.1.core) : Move x cfg s.core i o.event s'.core := by
    rw [Option.some.inj hr] at hmove
    exact hmove
  cases i with
  | send r w =>
    simp only [step] at hs
    split_ifs at hs with hsend
    exact of_eq hs (move_send (by simpa using hsend) r w)
  | pollSend w =>
    simp only [step] at hs
    split_ifs at hs
    exact of_eq hs (move_pollSend w)
  | dropSend =>
    simp only [step] at hs
    split_ifs at hs
    exact of_eq hs .withdraw
  | demand =>
    simp only [step] at hs
    split_ifs at hs
    exact of_eq hs .demand
  | continuePermission w =>
    simp only [step] at hs
    split_ifs at hs with hd
    simp only [Bool.and_eq_true] at hd
    exact of_eq hs (move_continuePermission hd.1.2 w)
  | pollPermission w =>
    simp only [step] at hs
    split_ifs at hs
    exact of_eq hs (move_pollPermission w)
  | dropPermission =>
    simp only [step] at hs
    split_ifs at hs
    exact of_eq hs (.idle rfl (.inl rfl))
  | next w =>
    simp only [step] at hs
    split at hs
    · exact of_eq hs (move_next ‹_› ‹_› w)
    · cases hs
  | cancelNext =>
    simp only [step] at hs
    split at hs
    · rename_i hd hl
      exact of_eq hs (.stop hd (by simp [core, hl, WriterLoop.application]) rfl)
    · cases hs
  | encode =>
    simp only [step] at hs
    split at hs
    · exact of_eq hs (move_encode h ‹_› ‹_›)
    · cases hs
  | wrote r =>
    simp only [step] at hs
    split at hs
    · exact of_eq hs (move_wrote h ‹_› ‹_› r)
    · cases hs
  | flushed r =>
    simp only [step] at hs
    split at hs
    · exact of_eq hs (move_flushed h ‹_› ‹_› r)
    · cases hs
  | selectFinal =>
    simp only [step] at hs
    split_ifs at hs
    exact of_eq hs move_selectFinal
  | dropReceiver =>
    simp only [step] at hs
    split_ifs at hs
    exact of_eq hs .dropReceiver

end Context

namespace ContextCore

variable {x : Crates} {cfg : WriterConfig} {s s' : ContextCore} {i : ContextCall W} {e : ContextEvent}

theorem held_abandon (c : CommandState) : c.abandon.held = false := by cases c <;> rfl

theorem inFlight_abandon (c : CommandState) : c.abandon.inFlight = c.inFlight := by cases c <;> rfl

theorem application_of_settled {loop : WriterLoop} (h : loop.settled = true) : loop.application = false := by
  cases loop <;> first | rfl | cases h

theorem Move.inv (h : s.Inv) (hm : Move x cfg s i e s') : s'.Inv := by
  obtain ⟨hs, hf⟩ := h
  cases hm with
  | idle => exact ⟨hs, hf⟩
  | refuse => exact ⟨hs, hf⟩
  | demand => exact ⟨hs, hf⟩
  | request => exact ⟨hs, hf⟩
  | queue ha hc => exact ⟨rfl, fun hd => by simpa [hc, CommandState.inFlight] using hf hd⟩
  | settle hc => exact ⟨rfl, fun hd => by simpa [hc, CommandState.inFlight] using hf hd⟩
  | close ha => exact ⟨(held_abandon _).symm, fun hd => (hf hd).trans (inFlight_abandon _).symm⟩
  | withdraw => exact ⟨(held_abandon _).symm, fun hd => (hf hd).trans (inFlight_abandon _).symm⟩
  | finish hd hl =>
    refine ⟨hs, fun _ => ?_⟩
    rw [← hf hd, hl]
    rfl
  | provide hd hl ha hr =>
    refine ⟨hs, fun _ => ?_⟩
    rw [← hf hd, hl]
    rfl
  | take hd hl ha hc => exact ⟨by rw [hs, hc]; rfl, fun _ => rfl⟩
  | stop hd hl hi =>
    refine ⟨hs, fun _ => ?_⟩
    rw [← hf hd, hl]
    rfl
  | @encode n c head hd hl hh =>
    refine ⟨hs, fun _ => ?_⟩
    rw [← hf hd, hl]
    cases c <;> rfl
  | @wrote r automatic head hd hl =>
    refine ⟨hs, fun _ => ?_⟩
    rw [← hf hd, hl]
    cases automatic <;> rfl
  | acknowledge hd hl hc hrest =>
    exact ⟨by rw [hs, hc]; rfl, fun _ => application_of_settled hrest⟩
  | discard hd hl hc hrest =>
    exact ⟨by rw [hs, hc]; rfl, fun _ => application_of_settled hrest⟩
  | continued hd hl =>
    refine ⟨hs, fun _ => ?_⟩
    rw [← hf hd, hl]
    rfl
  | selectFinal ha hc hcase =>
    rcases hcase with ⟨rfl, -⟩ | ⟨⟨r, hq⟩, rfl⟩
    · exact ⟨hs, hf⟩
    · exact ⟨by rw [hs, hq]; rfl, fun hd => by rw [hf hd, hq]; rfl⟩
  | dropReceiver => exact ⟨hs, fun hd => by cases hd⟩

/-- No 100 Continue has been asked of the loop. -/
structure Fresh (s : ContextCore) : Prop where
  driver : s.driver = true
  incomplete : s.automaticContinue ≠ .complete
  automatic : s.writerLoop.automatic = false
  running : ∀ r, s.writerLoop ≠ .stopped r

end ContextCore

def ContextEvent.isContinue : ContextEvent → Bool
  | .next (some (some .hundredContinue)) => true
  | _ => false

namespace ContextCore

variable {x : Crates} {cfg : WriterConfig} {s s' : ContextCore} {i : ContextCall W} {e : ContextEvent}

theorem automatic_of_application {loop : WriterLoop} (h : loop.application = true) :
    loop.automatic = false ∧ ∀ r, loop ≠ .stopped r := by
  have hrunning : ∀ r, loop ≠ .stopped r := by
    rintro r rfl
    cases h
  refine ⟨?_, hrunning⟩
  cases loop with
  | holding c =>
    cases c with
    | hundredContinue => cases h
    | application r => rfl
  | writing automatic head =>
    cases automatic with
    | true => cases h
    | false => rfl
  | flushing automatic =>
    cases automatic with
    | true => cases h
    | false => rfl
  | _ => cases h

theorem Move.fresh (hm : Move x cfg s i e s') :
    (s'.Fresh → s.Fresh ∧ e.isContinue = false) ∧ (e.isContinue = true → s.Fresh) := by
  cases hm with
  | idle hi he =>
    refine ⟨fun h => ⟨h, ?_⟩, fun h => ?_⟩
    · rcases he with rfl | ⟨r, rfl⟩ | rfl <;> rfl
    · rcases he with rfl | ⟨r, rfl⟩ | rfl <;> cases h
  | request hd ha he =>
    obtain ⟨r, rfl⟩ := he
    exact ⟨fun h => ⟨⟨h.1, by simp [ha], h.3, h.4⟩, rfl⟩, nofun⟩
  | finish => exact ⟨fun h => absurd rfl (h.running _), nofun⟩
  | stop => exact ⟨fun h => absurd rfl (h.running _), nofun⟩
  | provide hd hl ha hr =>
    refine ⟨fun h => absurd h.automatic nofun, fun _ => ⟨hd, by simp [hr], by simp [hl, WriterLoop.automatic], ?_⟩⟩
    simp [hl]
  | take hd hl ha hc =>
    refine ⟨fun h => ⟨⟨h.1, h.2, by simp [hl, WriterLoop.automatic], by simp [hl]⟩, rfl⟩, nofun⟩
  | @encode n c head hd hl hh =>
    refine ⟨fun h => ⟨⟨h.1, h.2, ?_, by simp [hl]⟩, rfl⟩, nofun⟩
    rw [hl]
    cases c with
    | hundredContinue => exact absurd h.automatic nofun
    | application r => rfl
  | @wrote r automatic head hd hl =>
    refine ⟨fun h => ⟨⟨h.1, h.2, ?_, by simp [hl]⟩, rfl⟩, nofun⟩
    rw [hl]
    cases automatic with
    | true => exact absurd h.automatic nofun
    | false => rfl
  | acknowledge hd hl =>
    obtain ⟨h3, h4⟩ := automatic_of_application hl
    exact ⟨fun h => ⟨⟨h.1, h.2, h3, h4⟩, rfl⟩, nofun⟩
  | discard hd hl =>
    obtain ⟨h3, h4⟩ := automatic_of_application hl
    exact ⟨fun h => ⟨⟨h.1, h.2, h3, h4⟩, rfl⟩, nofun⟩
  | continued => exact ⟨fun h => absurd rfl h.incomplete, nofun⟩
  | dropReceiver => exact ⟨fun h => absurd h.driver nofun, nofun⟩
  | selectFinal => exact ⟨fun h => ⟨⟨h.1, h.2, h.3, h.4⟩, rfl⟩, nofun⟩
  | _ => exact ⟨fun h => ⟨⟨h.1, h.2, h.3, h.4⟩, rfl⟩, nofun⟩

/-- Admission is never reopened, and only the receiver's destructor closes it. -/
theorem Move.admission (hm : Move x cfg s i e s') :
    (s'.admission = .opened → s.admission = .opened ∧ i ≠ .selectFinal) ∧
      (s'.admission = .closed → s.admission = .closed ∨ i = .dropReceiver) := by
  have ordinary (hi : i.ordinary = true) : i ≠ .selectFinal := by
    rintro rfl
    cases hi
  cases hm with
  | idle hi => exact ⟨fun h => ⟨h, ordinary hi⟩, .inl⟩
  | stop hd hl hi => exact ⟨fun h => ⟨h, ordinary hi⟩, .inl⟩
  | acknowledge hd hl hc hrest hi => exact ⟨fun h => ⟨h, ordinary hi⟩, .inl⟩
  | discard hd hl hc hrest hi => exact ⟨fun h => ⟨h, ordinary hi⟩, .inl⟩
  | selectFinal ha hc => exact ⟨fun h => absurd h ha, fun h => .inl (hc h)⟩
  | dropReceiver => exact ⟨nofun, fun _ => .inr rfl⟩
  | _ => exact ⟨fun h => ⟨h, nofun⟩, .inl⟩

theorem Move.demand_cases (hm : Move x cfg s i e s') :
    (s'.demanded = true → s.demanded = true ∨ i = .demand) ∧ (s.demanded = true → s'.demanded = true) ∧
      (s'.automaticContinue = .requested → s.automaticContinue = .requested ∨ s.demanded = true) := by
  cases hm with
  | demand => exact ⟨fun _ => .inr rfl, fun _ => rfl, .inl⟩
  | request hd ha he => exact ⟨.inl, id, fun _ => .inr hd⟩
  | continued => exact ⟨.inl, id, nofun⟩
  | _ => exact ⟨.inl, id, .inl⟩

end ContextCore

abbrev ContextTrace (W : Type) := List (ContextCall W × ContextOutput W)

def ContextEvent.turns : ContextEvent → Bool
  | .queued _ | .sent _ | .next (some (some (.application _))) => true
  | _ => false

def SameSend (y : ContextCall W × ContextOutput W) : Prop := y.1 ≠ .dropSend ∧ y.2.event.turns = false

/-- The send in progress queued `r`, and nothing has happened to it since. -/
def Queued (tr : ContextTrace W) (r : InformationalResponse) : Prop :=
  Since SameSend (fun _ y => y.2.event = .queued r) tr

/-- The writer took the head `r` that the send in progress had queued. -/
def Taken (tr : ContextTrace W) (r : InformationalResponse) : Prop :=
  Since SameSend (fun before y => y.2.event = .next (some (some (.application r))) ∧ Queued before r) tr

section

variable (x : Crates) (cfg : WriterConfig)

def HeadWritten (tr : ContextTrace W) (r : InformationalResponse) : Prop :=
  Since SameSend (fun before y => ∃ n head, y.2.event = .wrote head ∧
    informationalHead x cfg n r = .ok head ∧ Taken before r) tr

/-- The writer acknowledged the head that it took from the send in progress; `Ok` comes from the
flush that followed the write. -/
def Acknowledged (tr : ContextTrace W) (r : InformationalResponse) (result : Except Error Unit) : Prop :=
  Since SameSend (fun before y => y.2.event = .acknowledged result ∧ Taken before r ∧
    (result = .ok () → y.1 = .flushed (.ok ()) ∧ HeadWritten x cfg before r)) tr

/-- The final response was selected while the send in progress was queued. -/
def Late (tr : ContextTrace W) : Prop :=
  Since SameSend (fun before y => y.1 = .selectFinal ∧ ∃ r, Queued before r) tr

def LoopHistory (tr : ContextTrace W) (r : InformationalResponse) : WriterLoop → Prop
  | .holding c => c = .application r
  | .writing _ head => ∃ n, informationalHead x cfg n r = .ok head
  | .flushing _ => HeadWritten x cfg tr r
  | _ => True

def CommandHistory (tr : ContextTrace W) (s : ContextCore) : Prop :=
  match s.command with
  | .queued r => Queued tr r
  | .writing => ∃ r, Taken tr r ∧ (s.driver = true → LoopHistory x cfg tr r s.writerLoop)
  | .complete result => result = .error Context.lateError ∧ Late tr ∨ ∃ r, Acknowledged x cfg tr r result
  | _ => True

end

variable {x : Crates} {cfg : WriterConfig} {s s' : ContextCore} {tr : ContextTrace W}
  {i : ContextCall W} {o : ContextOutput W} {r : InformationalResponse}

theorem LoopHistory.later {loop : WriterLoop} (h : LoopHistory x cfg tr r loop) (hy : SameSend (i, o)) :
    LoopHistory x cfg (tr ++ [(i, o)]) r loop := by
  cases loop with
  | flushing automatic => exact Since.later h hy
  | _ => exact h

theorem CommandHistory.keep (h : CommandHistory x cfg tr s) (hy : SameSend (i, o))
    (hcommand : s'.command = s.command)
    (hloop : s.command = .writing → s'.driver = true → s.driver = true ∧ ∀ r, Taken tr r →
      LoopHistory x cfg tr r s.writerLoop → LoopHistory x cfg (tr ++ [(i, o)]) r s'.writerLoop) :
    CommandHistory x cfg (tr ++ [(i, o)]) s' := by
  unfold CommandHistory at h ⊢
  rw [hcommand]
  cases hc : s.command with
  | idle => trivial
  | queued r =>
    rw [hc] at h
    exact Since.later h hy
  | writing =>
    rw [hc] at h
    obtain ⟨r, htaken, hl⟩ := h
    refine ⟨r, htaken.later hy, fun hd => ?_⟩
    obtain ⟨hd', hkeep⟩ := hloop hc hd
    exact hkeep r htaken (hl hd')
  | writingAbandoned => trivial
  | complete result =>
    rw [hc] at h
    rcases h with ⟨hr, hlate⟩ | ⟨r, hack⟩
    · exact .inl ⟨hr, hlate.later hy⟩
    · exact .inr ⟨r, hack.later hy⟩

theorem commandHistory_of_not_held (h : s.command.held = false) : CommandHistory x cfg tr s := by
  unfold CommandHistory
  cases hc : s.command <;> first | trivial | simp [hc, CommandState.held] at h

theorem CommandHistory.move (hinv : s.Inv) (h : CommandHistory x cfg tr s)
    (hm : ContextCore.Move x cfg s i o.event s') : CommandHistory x cfg (tr ++ [(i, o)]) s' := by
  have ordinary (hi : i.ordinary = true) : i ≠ .dropSend := by
    rintro rfl
    cases hi
  -- While the loop has no application head, no send is being written.
  have busy (hd : s.driver = true) (hl : s.writerLoop.application = false) : s.command ≠ .writing := by
    intro hc
    have := hinv.inFlight hd
    rw [hl, hc] at this
    cases this
  obtain ⟨e, woke⟩ := o
  cases hm with
  | idle hi he =>
    refine h.keep ⟨ordinary hi, ?_⟩ rfl fun _ hd => ⟨hd, fun r _ hl => hl.later ⟨ordinary hi, ?_⟩⟩ <;>
      rcases he with rfl | ⟨r, rfl⟩ | rfl <;> rfl
  | refuse hs => exact commandHistory_of_not_held (hinv.sending ▸ hs)
  | queue ha hc => exact since_now rfl
  | settle hc => trivial
  | close ha => exact commandHistory_of_not_held (ContextCore.held_abandon _)
  | withdraw => exact commandHistory_of_not_held (ContextCore.held_abandon _)
  | demand => exact h.keep ⟨nofun, rfl⟩ rfl fun _ hd => ⟨hd, fun r _ hl => hl.later ⟨nofun, rfl⟩⟩
  | request hd ha he =>
    obtain ⟨r, rfl⟩ := he
    exact h.keep ⟨nofun, rfl⟩ rfl fun _ hd => ⟨hd, fun r _ hl => hl.later ⟨nofun, rfl⟩⟩
  | finish hd hl => exact h.keep ⟨nofun, rfl⟩ rfl fun _ hd => ⟨hd, fun _ _ _ => trivial⟩
  | provide hd hl ha hr =>
    exact h.keep ⟨nofun, rfl⟩ rfl fun hc _ => absurd hc (busy hd (by rw [hl]; rfl))
  | @take w r hd hl ha hc =>
    have hq : Queued tr r := by simpa only [CommandHistory, hc] using h
    exact ⟨r, since_now ⟨rfl, hq⟩, fun _ => rfl⟩
  | stop hd hl hi => exact h.keep ⟨ordinary hi, rfl⟩ rfl fun _ hd => ⟨hd, fun _ _ _ => trivial⟩
  | @encode n c head hd hl hh =>
    refine h.keep ⟨nofun, rfl⟩ rfl fun _ hd => ⟨hd, fun r _ hloop => ?_⟩
    rw [hl] at hloop
    obtain rfl : c = .application r := hloop
    exact ⟨n, hh⟩
  | @wrote result automatic head hd hl =>
    refine h.keep ⟨nofun, rfl⟩ rfl fun _ hd => ⟨hd, fun r htaken hloop => ?_⟩
    rw [hl] at hloop
    obtain ⟨n, hh⟩ := hloop
    exact since_now ⟨n, head, rfl, hh, htaken⟩
  | acknowledge hd hl hc hrest hi hok =>
    have hw : ∃ r, Taken tr r ∧ (s.driver = true → LoopHistory x cfg tr r s.writerLoop) := by
      simpa only [CommandHistory, hc] using h
    obtain ⟨r, htaken, hloop⟩ := hw
    refine .inr ⟨r, since_now ⟨rfl, htaken, fun hr => ?_⟩⟩
    obtain ⟨rfl, hflush⟩ := hok hr
    have hwritten := hloop hd
    rw [hflush] at hwritten
    exact ⟨rfl, hwritten⟩
  | discard => trivial
  | continued hd hl =>
    exact h.keep ⟨nofun, rfl⟩ rfl fun hc _ => absurd hc (busy hd (by rw [hl]; rfl))
  | selectFinal ha hc hcase =>
    rcases hcase with ⟨rfl, -⟩ | ⟨⟨r, hq⟩, rfl⟩
    · exact h.keep ⟨nofun, rfl⟩ rfl fun _ hd => ⟨hd, fun r _ hl => hl.later ⟨nofun, rfl⟩⟩
    · have hqueued : Queued tr r := by simpa only [CommandHistory, hq] using h
      exact .inl ⟨rfl, since_now ⟨rfl, r, hqueued⟩⟩
  | dropReceiver => exact h.keep ⟨nofun, rfl⟩ rfl fun _ hd => by cases hd

structure ContextRecord (x : Crates) (cfg : WriterConfig) (tr : ContextTrace W) (s : ContextCore) : Prop where
  inv : s.Inv
  command : CommandHistory x cfg tr s
  final : s.admission = .opened → ∀ y ∈ tr, y.1 ≠ .selectFinal
  closed : s.admission = .closed → ∃ y ∈ tr, y.1 = .dropReceiver
  demand : s.demanded = true → ∃ y ∈ tr, y.1 = .demand
  requested : s.automaticContinue = .requested → s.demanded = true
  continues : (tr.filter (·.2.event.isContinue)).length ≤ 1
  fresh : s.Fresh → tr.filter (·.2.event.isContinue) = []

theorem contextRecord_channel :
    ContextRecord x cfg ([] : ContextTrace W) (Context.channel : Context W).core where
  inv := ⟨rfl, fun _ => rfl⟩
  command := trivial
  final := by simp
  closed := nofun
  demand := nofun
  requested := nofun
  continues := by simp
  fresh := by simp

theorem ContextRecord.move (h : ContextRecord x cfg tr s) (hm : ContextCore.Move x cfg s i o.event s') :
    ContextRecord x cfg (tr ++ [(i, o)]) s' := by
  obtain ⟨hopen, hclosed⟩ := hm.admission
  obtain ⟨hdemand, hmono, hrequest⟩ := hm.demand_cases
  obtain ⟨hfresh, hcontinue⟩ := hm.fresh
  refine ⟨hm.inv h.inv, h.command.move h.inv hm, ?_, ?_, ?_, ?_, ?_, ?_⟩
  · intro ha y hy
    obtain ⟨ha', hi⟩ := hopen ha
    rcases List.mem_append.mp hy with hy | hy
    · exact h.final ha' y hy
    · rw [List.mem_singleton] at hy
      subst hy
      exact hi
  · intro ha
    rcases hclosed ha with ha | hi
    · obtain ⟨y, hy, he⟩ := h.closed ha
      exact ⟨y, List.mem_append_left _ hy, he⟩
    · exact ⟨(i, o), by simp, hi⟩
  · intro hd
    rcases hdemand hd with hd | hi
    · obtain ⟨y, hy, he⟩ := h.demand hd
      exact ⟨y, List.mem_append_left _ hy, he⟩
    · exact ⟨(i, o), by simp, hi⟩
  · intro hr
    rcases hrequest hr with hr | hd
    · exact hmono (h.requested hr)
    · exact hmono hd
  · by_cases hc : o.event.isContinue = true
    · rw [List.filter_append, h.fresh (hcontinue hc), List.nil_append]
      exact List.length_filter_le _ _
    · simpa [List.filter_append, hc] using h.continues
  · intro hf
    obtain ⟨hf', he⟩ := hfresh hf
    simp [List.filter_append, h.fresh hf', he]

theorem contextRecord_of_reaches {s : Context W} (h : (informational x cfg W).Reaches .channel tr s) :
    ContextRecord x cfg tr s.core :=
  h.invariant (P := fun tr s => ContextRecord x cfg tr s.core) contextRecord_channel
    fun _ _ _ _ _ hrec hs => hrec.move (Context.move_of_step hrec.inv hs)

/-- What the next operation can be after the run `tr` has led to `s`. -/
structure InformationalProtocol (x : Crates) (cfg : WriterConfig) (tr : ContextTrace W) (s : Context W) :
    Prop where
  /-- The writer gets a head that a send still waits for, that it has not got before, and only before
  the final response is selected. -/
  handed : ∀ {i s' o r}, s.step x cfg i = some (s', o) → o.event = .next (some (some (.application r))) →
    Queued tr r ∧ ∀ y ∈ tr, y.1 ≠ .selectFinal
  /-- A send that was queued returns what the writer acknowledged for its own head, or that the final
  response came first, or that the driver is gone. -/
  returned : ∀ {w s' o result}, s.step x cfg (.pollSend w) = some (s', o) → o.event = .sent result →
    (∃ r, Acknowledged x cfg tr r result) ∨ result = .error Context.lateError ∧ Late tr ∨
      result = .error Context.closedError ∧ ∃ y ∈ tr, y.1 = .dropReceiver
  /-- Without having been queued a send only fails. -/
  refused : ∀ {r w s' o result}, s.step x cfg (.send r w) = some (s', o) → o.event = .sent result →
    ∃ e, result = .error e
  /-- The automatic 100 Continue is issued once. -/
  continues : (tr.filter (·.2.event.isContinue)).length ≤ 1
  /-- It is issued after body demand. -/
  demanded : ∀ {i s' o}, s.step x cfg i = some (s', o) → o.event.isContinue = true →
    ∃ y ∈ tr, y.1 = .demand
  /-- Once the final response is selected `next` yields no command. -/
  silent : (∃ y ∈ tr, y.1 = .selectFinal) → ∀ {i s' o c}, s.step x cfg i = some (s', o) →
    o.event ≠ .next (some (some c))
  /-- Only the active writer acknowledges a head. -/
  reachable : ∀ {i s' o}, s.step x cfg i = some (s', o) → o.event ≠ .panicked

/-- A command is handed out only while admission is open. -/
theorem ContextCore.Move.opened_of_next {e : ContextEvent} (hm : ContextCore.Move x cfg s i e s') {c : Command}
    (he : e = .next (some (some c))) : s.admission = .opened ∧
      (c = .hundredContinue ∧ s.automaticContinue = .requested ∨ ∃ r, c = .application r ∧ s.command = .queued r) := by
  cases hm with
  | idle hi hquiet => rcases hquiet with rfl | ⟨r, rfl⟩ | rfl <;> cases he
  | request hd ha hp =>
    obtain ⟨r, rfl⟩ := hp
    cases he
  | provide hd hl ha hr =>
    cases he
    exact ⟨ha, .inl ⟨rfl, hr⟩⟩
  | @take w r hd hl ha hc =>
    cases he
    exact ⟨ha, .inr ⟨r, rfl, hc⟩⟩
  | _ => cases he

theorem ContextCore.Move.sent_cases {e : ContextEvent} {w : W} (hm : ContextCore.Move x cfg s (.pollSend w) e s')
    {result : Except Error Unit} (he : e = .sent result) :
    s.command = .complete result ∨ result = .error Context.closedError ∧ s.admission = .closed := by
  cases hm with
  | idle hi hquiet => rcases hquiet with rfl | ⟨r, rfl⟩ | rfl <;> cases he
  | settle hc =>
    cases he
    exact .inl hc
  | close ha =>
    cases he
    exact .inr ⟨rfl, ha⟩
  | _ => cases he

theorem ContextCore.Move.refused {e : ContextEvent} {w : W} (hm : ContextCore.Move x cfg s (.send r w) e s')
    {result : Except Error Unit} (he : e = .sent result) : ∃ error, result = .error error := by
  cases hm with
  | idle hi hquiet => rcases hquiet with rfl | ⟨r, rfl⟩ | rfl <;> cases he
  | refuse =>
    cases he
    exact ⟨_, rfl⟩
  | _ => cases he

theorem ContextCore.Move.not_panicked {e : ContextEvent} (hm : ContextCore.Move x cfg s i e s') :
    e ≠ .panicked := by
  rintro rfl
  cases hm with
  | idle hi hquiet => rcases hquiet with h | ⟨r, h⟩ | h <;> cases h
  | request hd ha hp =>
    obtain ⟨r, h⟩ := hp
    cases h

/-- For every interleaving of the service, the body receiver, the writer loop and the coordinator,
informational responses follow the protocol. -/
theorem informational_protocol {s : Context W} (h : (informational x cfg W).Reaches .channel tr s) :
    InformationalProtocol x cfg tr s := by
  have hrec := contextRecord_of_reaches h
  refine ⟨?_, ?_, ?_, hrec.continues, ?_, ?_, ?_⟩
  · intro i s' o r hs he
    obtain ⟨ha, hcase⟩ := (Context.move_of_step hrec.inv hs).opened_of_next he
    rcases hcase with ⟨hc, -⟩ | ⟨r', hr, hc⟩
    · cases hc
    · cases hr
      have hqueued := hrec.command
      simp only [CommandHistory, hc] at hqueued
      exact ⟨hqueued, hrec.final ha⟩
  · intro w s' o result hs he
    rcases (Context.move_of_step hrec.inv hs).sent_cases he with hc | ⟨hr, ha⟩
    · have hcomplete := hrec.command
      simp only [CommandHistory, hc] at hcomplete
      exact hcomplete.symm.imp_right .inl
    · exact .inr (.inr ⟨hr, hrec.closed ha⟩)
  · intro r w s' o result hs he
    exact (Context.move_of_step hrec.inv hs).refused he
  · intro i s' o hs he
    have hfresh := (Context.move_of_step hrec.inv hs)
    have hevent : o.event = .next (some (some .hundredContinue)) := by
      unfold ContextEvent.isContinue at he
      split at he
      · assumption
      · cases he
    obtain ⟨-, hcase⟩ := hfresh.opened_of_next hevent
    rcases hcase with ⟨-, hr⟩ | ⟨r, hr, -⟩
    · exact hrec.demand (hrec.requested hr)
    · cases hr
  · rintro ⟨y, hy, hsel⟩ i s' o c hs he
    obtain ⟨ha, -⟩ := (Context.move_of_step hrec.inv hs).opened_of_next he
    exact hrec.final ha y hy hsel
  · intro i s' o hs
    exact (Context.move_of_step hrec.inv hs).not_panicked

def sampleHints : InformationalResponse := ⟨⟨103, ExchangePolicy.earlyHints_three_digits⟩, .http11, .empty, none⟩

def sampleWriter : WriterConfig := ⟨.http11, 4, sampleConfig⟩

/-- An abandoned write is settled before the next head is queued, taken, written and acknowledged. -/
theorem informational_protocol_abandoned : ∃ (tr : ContextTrace ℕ) (s : Context ℕ),
    tr.map Prod.fst = [.send sampleHints 1, .next 2, .dropSend, .encode, .wrote (.ok ()), .flushed (.ok ()),
      .send sampleHints 1, .next 2, .encode, .wrote (.ok ()), .flushed (.ok ()), .pollSend 1] ∧
    InformationalProtocol reference sampleWriter tr s := by
  obtain ⟨tr, s, hrun⟩ : ∃ tr s, (informational reference sampleWriter ℕ).run .channel
      [.send sampleHints 1, .next 2, .dropSend, .encode, .wrote (.ok ()), .flushed (.ok ()),
        .send sampleHints 1, .next 2, .encode, .wrote (.ok ()), .flushed (.ok ()), .pollSend 1] =
      some (tr, s) := ⟨_, _, rfl⟩
  exact ⟨tr, s, Machine.run_inputs hrun, informational_protocol (Machine.reaches_of_run hrun)⟩

end Vakya
