import Vakya.Exchange
import Vakya.Delivery

/-!
# Observing a response (`client/response.rs`)

A `PendingResponse` takes the events of its exchange one at a time: informational heads, then the
final head with its body. Dropping it before the final head was delivered cancels the exchange;
dropping a `next_event` future does not.
-/

namespace Vakya

open Library

/-- A final head comes with what its body promises, if there is one. -/
inductive ResponseEvent
  | informational (message : ResponseHead)
  | final (message : ResponseHead) (body : Option (SizeHint × TrailerHint))

def ResponseEvent.isFinal : ResponseEvent → Bool
  | .informational _ => false
  | .final _ _ => true

abbrev EventChannel (W : Type) := Channel ResponseEvent Error W
abbrev EventCall (W : Type) := PipeCall ResponseEvent Error W
abbrev EventCallOutput (W : Type) := PipeOutput ResponseEvent Error W
abbrev EventResult := Except Error (Option ResponseEvent)

inductive NextEvent
  | unpolled
  | awaiting
  | resolved
deriving DecidableEq, Repr

structure PendingResponse (W : Type) where
  channel : EventChannel W
  /-- The application still has it. -/
  held : Bool
  delivered : Bool
  finished : Bool
  next : Option NextEvent

inductive PendingCall (W : Type)
  | producer (call : EventCall W)
  | nextEvent
  | pollEvent (waker : W)
  | dropEvent
  | drop

/-- The operations made on the channel, the result of a poll that was ready, and whether the
exchange was canceled. -/
structure PendingOutput (W : Type) where
  calls : List (EventCall W × EventCallOutput W)
  result : Option EventResult
  canceled : Bool

def driverClosed : Error := (Error.new .closed "response driver closed").withDetail .driverLost

section Events

variable {W : Type}

def takenEvents (calls : List (EventCall W × EventCallOutput W)) : List ResponseEvent :=
  calls.flatMap (·.2.event.taken)

def passedEvents (calls : List (EventCall W × EventCallOutput W)) : List ResponseEvent :=
  calls.flatMap (·.2.event.passed)

def channelEvents (calls : List (EventCall W × EventCallOutput W)) : List (PipeEvent ResponseEvent Error) :=
  calls.map (·.2.event)

@[simp] theorem channelEvents_append (calls calls' : List (EventCall W × EventCallOutput W)) :
    channelEvents (calls ++ calls') = channelEvents calls ++ channelEvents calls' := List.map_append ..

@[simp] theorem takenEvents_append (calls calls' : List (EventCall W × EventCallOutput W)) :
    takenEvents (calls ++ calls') = takenEvents calls ++ takenEvents calls' := List.flatMap_append ..

@[simp] theorem passedEvents_append (calls calls' : List (EventCall W × EventCallOutput W)) :
    passedEvents (calls ++ calls') = passedEvents calls ++ passedEvents calls' := List.flatMap_append ..

end Events

namespace PendingResponse

variable {W : Type}

abbrev Result (W : Type) := Option (PendingResponse W × PendingOutput W)

def new : PendingResponse W := ⟨.new, true, false, false, none⟩

def act (s : PendingResponse W) (call : EventCall W)
    (k : PendingResponse W → EventCallOutput W → Result W) : Result W :=
  match s.channel.step call with
  | none => none
  | some (channel, o) =>
    (k { s with channel } o).map fun (s, out) => (s, { out with calls := (call, o) :: out.calls })

def ready (s : PendingResponse W) (result : Option EventResult) : Result W :=
  some (s, ⟨[], result, false⟩)

/-- What `next_event` makes of the result of its `Take`. -/
def settle (s : PendingResponse W) (r : Except (TakeError Error) (Option ResponseEvent)) :
    PendingResponse W × EventResult :=
  match r with
  | .ok (some event) =>
    (if event.isFinal then { s with delivered := true, finished := true } else s, .ok (some event))
  | .error (.failed e) => ({ s with finished := true }, .error e)
  | .ok none | .error .disconnected => ({ s with finished := true }, .error driverClosed)

/-- A poll of the `Take` that `next_event` awaits. -/
def awaitTake (s : PendingResponse W) (w : W) : Result W :=
  s.act (.pollTake w) fun s o =>
    match o.event with
    | .took (some r) =>
      s.act .dropTake fun s _ =>
        let (s, result) := s.settle r
        ready { s with next := some .resolved } (some result)
    | _ => ready { s with next := some .awaiting } none

def pollEvent (s : PendingResponse W) (w : W) : Result W :=
  match s.next with
  | some .unpolled =>
    if s.finished then ready { s with next := some .resolved } (some (.ok none))
    else s.act .take fun s _ => s.awaitTake w
  | some .awaiting => s.awaitTake w
  | _ => none

def dropEvent (s : PendingResponse W) : Result W :=
  match s.next with
  | none => none
  | some .awaiting => s.act .dropTake fun s _ => ready { s with next := none } none
  | some _ => ready { s with next := none } none

def drop (s : PendingResponse W) : Result W :=
  if s.held && s.next.isNone then
    (s.act .dropConsumer fun s _ => ready { s with held := false } none).map
      fun (s, out) => (s, { out with canceled := !s.delivered })
  else none

def step (s : PendingResponse W) : PendingCall W → Result W
  | .producer call => if call.isProducer then s.act call fun s _ => ready s none else none
  | .nextEvent => if s.held && s.next.isNone then ready { s with next := some .unpolled } none else none
  | .pollEvent w => s.pollEvent w
  | .dropEvent => s.dropEvent
  | .drop => s.drop

/-- What `next_event` may tell of a channel that ended without a final head. -/
def Reported (ended : List (PipeState ResponseEvent Error)) (e : Error) : Prop :=
  .failed e ∈ ended ∨ e = driverClosed ∧ (.closed ∈ ended ∨ .disconnected ∈ ended)

/-- The events taken, and the results of `next_event`: informational heads, then the final one or
one error, then `Ok(None)`. -/
inductive Observed (ended : List (PipeState ResponseEvent Error)) :
    List ResponseEvent → List EventResult → (delivered finished : Bool) → Prop
  | waiting {events : List ResponseEvent} (informational : ∀ e ∈ events, e.isFinal = false) :
      Observed ended events (events.map fun e => .ok (some e)) false false
  | delivered {events : List ResponseEvent} {final : ResponseEvent} (k : ℕ)
      (informational : ∀ e ∈ events, e.isFinal = false) (last : final.isFinal = true) :
      Observed ended (events ++ [final])
        ((events ++ [final]).map (fun e => .ok (some e)) ++ List.replicate k (.ok none)) true true
  | failed {events : List ResponseEvent} {e : Error} (k : ℕ)
      (informational : ∀ e ∈ events, e.isFinal = false) (reported : Reported ended e) :
      Observed ended events (events.map (fun e => .ok (some e)) ++ .error e :: List.replicate k (.ok none))
        false true

theorem Observed.mono {ended : List (PipeState ResponseEvent Error)} {events : List ResponseEvent}
    {rs : List EventResult} {delivered finished : Bool} (h : Observed ended events rs delivered finished)
    (more : List (PipeState ResponseEvent Error)) : Observed (ended ++ more) events rs delivered finished := by
  cases h with
  | waiting hinf => exact .waiting hinf
  | delivered k hinf hlast => exact .delivered k hinf hlast
  | failed k hinf hrep =>
    apply Observed.failed k hinf
    rcases hrep with hfailed | ⟨rfl, hclosed | hlost⟩
    · exact .inl (List.mem_append_left _ hfailed)
    · exact .inr ⟨rfl, .inl (List.mem_append_left _ hclosed)⟩
    · exact .inr ⟨rfl, .inr (List.mem_append_left _ hlost)⟩

theorem Observed.again {ended : List (PipeState ResponseEvent Error)} {events : List ResponseEvent}
    {rs : List EventResult} {delivered : Bool} (h : Observed ended events rs delivered true) :
    Observed ended events (rs ++ [.ok none]) delivered true := by
  cases h with
  | @delivered events final k hinf hlast =>
    have hmore : Observed ended (events ++ [final]) _ true true := .delivered (k + 1) hinf hlast
    rwa [List.replicate_succ', ← List.append_assoc] at hmore
  | @failed events e k hinf hrep =>
    have hmore : Observed ended events _ false true := .failed (k + 1) hinf hrep
    rwa [List.replicate_succ', ← List.cons_append, ← List.append_assoc] at hmore

/-- What the operations on the channel and the results say together. -/
structure Recorded (calls : List (EventCall W × EventCallOutput W)) (rs : List EventResult)
    (s : PendingResponse W) : Prop where
  reach : (pipe _ _ W).Reaches .new calls s.channel
  observed : Observed (endings calls) (takenEvents calls) rs s.delivered s.finished
  consumer : s.held = true → s.channel.consumer ≠ none ∧
    (s.finished = false → s.channel.consumer = some .active)

structure Inv (calls : List (EventCall W × EventCallOutput W)) (rs : List EventResult)
    (s : PendingResponse W) : Prop extends Recorded calls rs s where
  taking : s.channel.taking = if s.next = some .awaiting then some false else none
  awaiting : s.next = some .awaiting → s.held = true ∧ s.finished = false
  unheld : s.held = false → s.next = none ∧ s.channel.consumer = none

variable {calls : List (EventCall W × EventCallOutput W)} {rs : List EventResult}
  {s s' : PendingResponse W} {i : PendingCall W} {o : PendingOutput W}

theorem inv_new : Inv [] [] (new : PendingResponse W) where
  reach := .start
  observed := @Observed.waiting _ [] (by simp)
  consumer := fun _ => ⟨by simp [new, Channel.new], fun _ => rfl⟩
  taking := rfl
  awaiting := fun h => (by cases h)
  unheld := fun h => (by cases h)

theorem endings_append (calls calls' : List (EventCall W × EventCallOutput W)) :
    endings (calls ++ calls') = endings calls ++ endings calls' := List.filterMap_append ..

namespace Recorded

theorem sound (h : Recorded calls rs s) : s.channel.Sound :=
  (channel_run h.reach Channel.sound_new Lifecycle.new).1

theorem life (h : Recorded calls rs s) : Lifecycle calls s.channel :=
  (channel_run h.reach Channel.sound_new Lifecycle.new).2

theorem ended (h : Recorded calls rs s) (hc : s.channel.consumer = some .active)
    (hterm : s.channel.state.isTerminal = true) : s.channel.state ∈ endings calls := by
  have hnone : s.channel.producer = none := by
    by_contra hn
    simp [(h.sound.producer_live hn).2] at hterm
  obtain ⟨t, ht, -, hactive, -⟩ := h.life.gone hnone
  rw [ht, hactive hc]
  exact List.mem_singleton_self t

theorem quiet (h : Recorded calls rs s) {call : EventCall W} {channel : EventChannel W} {out : EventCallOutput W}
    (hcall : ∀ w, call ≠ .pollTake w) (hs : s.channel.step call = some (channel, out)) (held : Bool)
    (next : Option NextEvent) (hkeep : held = true → s.held = true ∧ channel.consumer = s.channel.consumer) :
    Recorded (calls ++ [(call, out)]) rs { s with channel, held, next } := by
  refine ⟨h.reach.step hs, ?_, fun hheld => ?_⟩
  · have hsame : takenEvents (calls ++ [(call, out)]) = takenEvents calls := by
      simp [takenEvents, Channel.taken_eq_nil hcall hs]
    rw [endings_append, hsame]
    exact h.observed.mono _
  · obtain ⟨hs, hcons⟩ := hkeep hheld
    rw [hcons]
    exact h.consumer hs

end Recorded

theorem Observed.event {ended : List (PipeState ResponseEvent Error)} {events : List ResponseEvent}
    (h : Observed ended events rs s.delivered s.finished) (hopen : s.finished = false) (event : ResponseEvent) :
    Observed ended (events ++ [event]) (rs ++ [(s.settle (.ok (some event))).2])
      (s.settle (.ok (some event))).1.delivered (s.settle (.ok (some event))).1.finished := by
  rw [hopen] at h
  generalize hdelivered : s.delivered = delivered at h
  cases h with
  | waiting hinf =>
    cases hfinal : event.isFinal with
    | true =>
      have hlast : Observed ended (events ++ [event]) _ true true := .delivered 0 hinf hfinal
      simpa [settle, hfinal] using hlast
    | false =>
      have hall : ∀ e ∈ events ++ [event], e.isFinal = false := by
        intro e he
        rcases List.mem_append.mp he with he | he
        · exact hinf e he
        · rw [List.mem_singleton.mp he, hfinal]
      have hmore : Observed ended (events ++ [event]) _ false false := .waiting hall
      simpa [settle, hfinal, hopen, hdelivered] using hmore

theorem Observed.ending {ended : List (PipeState ResponseEvent Error)} {events : List ResponseEvent}
    (h : Observed ended events rs s.delivered s.finished) (hopen : s.finished = false)
    {state : PipeState ResponseEvent Error} (hterm : state.isTerminal = true) (hstate : state ∈ ended) :
    Observed ended events (rs ++ [(s.settle state.report).2]) (s.settle state.report).1.delivered
      (s.settle state.report).1.finished := by
  rw [hopen] at h
  generalize hdelivered : s.delivered = delivered at h
  cases h with
  | waiting hinf =>
    cases state with
    | closed =>
      have hrep : Reported ended driverClosed := .inr ⟨rfl, .inl hstate⟩
      simpa [settle, PipeState.report, hdelivered] using Observed.failed 0 hinf hrep
    | disconnected =>
      have hrep : Reported ended driverClosed := .inr ⟨rfl, .inr hstate⟩
      simpa [settle, PipeState.report, hdelivered] using Observed.failed 0 hinf hrep
    | failed e =>
      have hrep : Reported ended e := .inl hstate
      simpa [settle, PipeState.report, hdelivered] using Observed.failed 0 hinf hrep
    | idle | demanded | offered item | abandoned item => cases hterm

theorem dropConsumer_gone (c : EventChannel W) :
    c.dropConsumer.1.consumer = none ∧ c.dropConsumer.1.taking = c.taking := by
  unfold Channel.dropConsumer
  split_ifs
  · exact ⟨rfl, rfl⟩
  · cases c.state <;> exact ⟨rfl, rfl⟩

theorem settle_keeps (s : PendingResponse W) (r : Except (TakeError Error) (Option ResponseEvent)) :
    (s.settle r).1.channel = s.channel ∧ (s.settle r).1.held = s.held := by
  rcases r with (e | _) | (_ | event)
  · exact ⟨rfl, rfl⟩
  · exact ⟨rfl, rfl⟩
  · exact ⟨rfl, rfl⟩
  · simp only [settle]
    split_ifs <;> exact ⟨rfl, rfl⟩

theorem settle_open {r : Except (TakeError Error) (Option ResponseEvent)}
    (h : (s.settle r).1.finished = false) : ∃ event, r = .ok (some event) := by
  rcases r with (e | _) | (_ | event)
  · cases h
  · cases h
  · cases h
  · exact ⟨event, rfl⟩

theorem Recorded.awaitTake (h : Recorded calls rs s) (hheld : s.held = true) (hopen : s.finished = false)
    (htaking : s.channel.taking = some false) (w : W) :
    ∃ s' out, s.awaitTake w = some (s', out) ∧
      Inv (calls ++ out.calls) (rs ++ out.result.toList) s' ∧ s'.held = true ∧ out.canceled = false := by
  have hact := (h.consumer hheld).2 hopen
  have hab : s.channel.isAbandoned = false := h.sound.consumer_live (by simp [hact])
  have hcases := Channel.pollTake_active hact hab w
  have hstep : s.channel.step (.pollTake w) = some (s.channel.pollTake w) := by
    simp [Channel.step, htaking]
  generalize s.channel.pollTake w = polled at hstep hcases
  obtain ⟨c, o⟩ := polled
  dsimp only at hcases
  have hreach : (pipe _ _ W).Reaches .new (calls ++ [(.pollTake w, o)]) c := h.reach.step hstep
  rcases hcases with ⟨-, -, he, hcons, htake⟩ | ⟨r, he, htake, hcons, hr⟩
  · -- It waits.
    refine ⟨{ s with channel := c, next := some .awaiting }, ⟨[(.pollTake w, o)], none, false⟩, ?_,
      ⟨⟨hreach, ?_, fun _ => ⟨?_, fun _ => hcons⟩⟩, htake.trans htaking, fun _ => ⟨hheld, hopen⟩, ?_⟩, hheld, rfl⟩
    · simp only [PendingResponse.awaitTake, act, hstep, he, ready, Option.map_some]
    · have hsame : takenEvents (calls ++ [(.pollTake w, o)]) = takenEvents calls := by
        simp [takenEvents, he, PipeEvent.taken]
      rw [endings_append, hsame, Option.toList_none, List.append_nil]
      exact h.observed.mono _
    · rw [show c.consumer = _ from hcons]
      simp
    · intro hn
      rw [show s.held = false from hn] at hheld
      cases hheld
  · -- The `Take` is dropped with what it returned.
    have hdrop : c.step .dropTake = some ({ c with consumerWaker := none, taking := none }, ⟨.quiet, none⟩) := by
      simp [Channel.step, show c.taking = some true from htake]
    have hreach' : (pipe _ _ W).Reaches .new (calls ++ [(.pollTake w, o), (.dropTake, ⟨.quiet, none⟩)])
        { c with consumerWaker := none, taking := none } := by
      rw [List.append_cons]
      exact hreach.step hdrop
    let dropped : PendingResponse W := { s with channel := { c with consumerWaker := none, taking := none } }
    obtain ⟨hchannel, hkept⟩ := settle_keeps dropped r
    refine ⟨{ (dropped.settle r).1 with next := some .resolved },
      ⟨[(.pollTake w, o), (.dropTake, ⟨.quiet, none⟩)], some (dropped.settle r).2, false⟩, ?_,
      ⟨⟨hchannel ▸ hreach', ?_, fun _ => ⟨?_, ?_⟩⟩, by simp [hchannel, dropped], fun hn => (by cases hn), ?_⟩,
      hkept.trans hheld, rfl⟩
    · simp only [PendingResponse.awaitTake, act, hstep, he, hdrop, ready, Option.map_some]
      rfl
    · have htaken : takenEvents (calls ++ [(.pollTake w, o), (.dropTake, ⟨.quiet, none⟩)]) =
          takenEvents calls ++ (.took (some r) : PipeEvent ResponseEvent Error).taken := by
        simp [takenEvents, he, PipeEvent.taken]
      rw [endings_append, htaken]
      have hobs := h.observed.mono (endings [(.pollTake w, o), (.dropTake, ⟨.quiet, none⟩)])
      rcases hr with ⟨hterm, rfl⟩ | ⟨event, rfl, -, -⟩
      · have hnone : (PipeEvent.took (some s.channel.state.report)).taken = ([] : List ResponseEvent) := by
          cases s.channel.state <;> rfl
        rw [hnone, List.append_nil]
        apply Observed.ending (s := dropped) hobs hopen hterm
        exact List.mem_append_left _ (h.ended hact hterm)
      · exact Observed.event (s := dropped) hobs hopen event
    · rw [hchannel]
      exact hcons
    · intro hn
      obtain ⟨event, rfl⟩ := settle_open hn
      rcases hr with ⟨-, hreport⟩ | ⟨event', -, -, hactive⟩
      · exact absurd hreport.symm (report_ne_frame _ _)
      · rw [hchannel]
        exact hactive
    · intro hn
      rw [show (dropped.settle r).1.held = false from hn] at hkept
      rw [← show false = s.held from hkept] at hheld
      cases hheld

theorem Inv.producer (h : Inv calls rs s) {call : EventCall W} (hc : call.isProducer = true)
    {channel : EventChannel W} {out : EventCallOutput W} (hs : s.channel.step call = some (channel, out)) :
    Inv (calls ++ [(call, out)]) rs { s with channel } := by
  obtain ⟨hcons, htake⟩ := h.sound.step_producer hc hs
  have hrec := h.quiet (by rintro w rfl; cases hc) hs s.held s.next
    fun hheld => ⟨hheld, hcons⟩
  refine ⟨hrec, htake.trans h.taking, h.awaiting, fun hn => ?_⟩
  exact ⟨(h.unheld hn).1, hcons.trans (h.unheld hn).2⟩

theorem Inv.pollEvent (h : Inv calls rs s) {w : W} (hs : s.pollEvent w = some (s', o)) :
    Inv (calls ++ o.calls) (rs ++ o.result.toList) s' ∧ s'.held = s.held ∧ o.canceled = false := by
  unfold PendingResponse.pollEvent at hs
  split at hs
  · rename_i hnext
    have hheld : s.held = true := by
      by_contra hn
      simp [(h.unheld (by simpa using hn)).1] at hnext
    split_ifs at hs with hfin
    · cases hs
      have hobs := h.observed
      rw [hfin] at hobs
      refine ⟨?_, rfl, rfl⟩
      rw [List.append_nil]
      refine ⟨⟨h.reach, ?_, h.consumer⟩, by simpa [hnext] using h.taking, fun hn => (by cases hn), fun hn => ?_⟩
      · rw [hfin]
        exact hobs.again
      · rw [show s.held = false from hn] at hheld
        cases hheld
    · -- The first poll creates the `Take`.
      have hopen : s.finished = false := by simpa using hfin
      have hfree : s.channel.taking = none := by simpa [hnext] using h.taking
      have hlive := (h.consumer hheld).1
      have htake : s.channel.step .take = some ({ s.channel with taking := some false }, ⟨.quiet, none⟩) := by
        simp [Channel.step, Channel.consumerFree, hfree, Option.isSome_iff_ne_none, hlive]
      have hrec : Recorded (calls ++ [(.take, ⟨.quiet, none⟩)]) rs
          { s with channel := { s.channel with taking := some false } } :=
        h.quiet (by simp) htake _ _ fun _ => ⟨hheld, rfl⟩
      obtain ⟨s₁, o₁, heq, hinv, hheld', hquiet⟩ := hrec.awaitTake hheld hopen rfl w
      rw [act, htake] at hs
      simp only [heq, Option.map_some, Option.some.injEq, Prod.mk.injEq] at hs
      obtain ⟨rfl, rfl⟩ := hs
      rw [List.append_assoc] at hinv
      exact ⟨hinv, hheld'.trans hheld.symm, hquiet⟩
  · rename_i hnext
    obtain ⟨hheld, hopen⟩ := h.awaiting hnext
    obtain ⟨s₁, o₁, heq, hinv, hheld', hquiet⟩ := h.awaitTake hheld hopen (by simpa [hnext] using h.taking) w
    rw [heq] at hs
    cases hs
    exact ⟨hinv, hheld'.trans hheld.symm, hquiet⟩
  · cases hs

/-- One operation, with its results and what it did to the channel. Only the destructor gives the
response up, and it cancels unless the final head was delivered. -/
theorem Inv.step (h : Inv calls rs s) (hs : s.step i = some (s', o)) :
    Inv (calls ++ o.calls) (rs ++ o.result.toList) s' ∧
      (i ≠ .drop ∧ s'.held = s.held ∧ o.canceled = false ∨
        i = .drop ∧ s.held = true ∧ s'.held = false ∧ o.canceled = !s.delivered ∧ s'.delivered = s.delivered) := by
  have act_eq {call : EventCall W} {k : PendingResponse W → EventCallOutput W → Result W}
      (hact : s.act call k = some (s', o)) : ∃ channel out s₁ o₁, s.channel.step call = some (channel, out) ∧
        k { s with channel } out = some (s₁, o₁) ∧ s' = s₁ ∧ o = { o₁ with calls := (call, out) :: o₁.calls } := by
    simp only [act] at hact
    split at hact
    · cases hact
    · obtain ⟨⟨s₁, o₁⟩, hk, heq⟩ := Option.map_eq_some_iff.mp hact
      cases heq
      exact ⟨_, _, _, _, ‹_›, hk, rfl, rfl⟩
  cases i with
  | producer call =>
    simp only [PendingResponse.step] at hs
    split_ifs at hs with hcall
    obtain ⟨channel, out, s₁, o₁, hstep, hk, rfl, rfl⟩ := act_eq hs
    cases hk
    rw [Option.toList_none, List.append_nil]
    exact ⟨h.producer hcall hstep, .inl ⟨by simp, rfl, rfl⟩⟩
  | nextEvent =>
    simp only [PendingResponse.step, Bool.and_eq_true, Option.isNone_iff_eq_none] at hs
    split_ifs at hs with hfree
    cases hs
    refine ⟨?_, .inl ⟨by simp, rfl, rfl⟩⟩
    rw [List.append_nil, Option.toList_none, List.append_nil]
    refine ⟨⟨h.reach, h.observed, h.consumer⟩, by simpa [hfree.2] using h.taking, fun hn => (by cases hn), fun hn => ?_⟩
    rw [show s.held = false from hn] at hfree
    cases hfree.1
  | pollEvent w =>
    obtain ⟨hinv, hheld, hquiet⟩ := h.pollEvent hs
    exact ⟨hinv, .inl ⟨by simp, hheld, hquiet⟩⟩
  | dropEvent =>
    simp only [PendingResponse.step, PendingResponse.dropEvent] at hs
    split at hs
    · cases hs
    · rename_i hnext
      obtain ⟨channel, out, s₁, o₁, hstep, hk, rfl, rfl⟩ := act_eq hs
      cases hk
      obtain ⟨hheld, hopen⟩ := h.awaiting hnext
      have hdrop : channel = { s.channel with consumerWaker := none, taking := none } := by
        simp only [Channel.step] at hstep
        split_ifs at hstep
        cases hstep
        rfl
      have hrec := h.quiet (by simp) hstep s.held none fun _ => ⟨hheld, by rw [hdrop]⟩
      rw [Option.toList_none, List.append_nil]
      refine ⟨⟨hrec, by simp [hdrop], fun hn => (by cases hn), fun hn => ⟨rfl, ?_⟩⟩,
        .inl ⟨by simp, rfl, rfl⟩⟩
      rw [show s.held = false from hn] at hheld
      cases hheld
    · rename_i next hne hnext
      cases hs
      have hother : s.next ≠ some .awaiting := by
        rw [hnext]
        exact fun he => hne (Option.some.inj he)
      rw [List.append_nil, Option.toList_none, List.append_nil]
      exact ⟨⟨⟨h.reach, h.observed, h.consumer⟩, by simpa [hother] using h.taking, fun hn => (by cases hn),
        fun hn => ⟨rfl, (h.unheld hn).2⟩⟩, .inl ⟨by simp, rfl, rfl⟩⟩
  | drop =>
    simp only [PendingResponse.step, PendingResponse.drop, Bool.and_eq_true, Option.isNone_iff_eq_none] at hs
    split_ifs at hs with hfree
    obtain ⟨⟨s₁, o₁⟩, hact, heq⟩ := Option.map_eq_some_iff.mp hs
    cases heq
    simp only [act] at hact
    split at hact
    · cases hact
    · rename_i channel out hstep
      cases hact
      have hgone : channel.consumer = none ∧ channel.taking = s.channel.taking := by
        simp only [Channel.step] at hstep
        split_ifs at hstep
        have hkeep := dropConsumer_gone s.channel
        rwa [Option.some.inj hstep] at hkeep
      have hrec := h.quiet (by simp) hstep false s.next fun hn => (by cases hn)
      rw [Option.toList_none, List.append_nil]
      exact ⟨⟨hrec, hgone.2.trans h.taking, fun hn => absurd (hfree.2.symm.trans hn) (by simp),
        fun _ => ⟨hfree.2, hgone.1⟩⟩, .inr ⟨rfl, hfree.1, rfl, rfl, rfl⟩⟩

/-- A part of an operation of the application: all its calls are the consumer's. -/
def Consumes (s : PendingResponse W) (r : Result W) : Prop :=
  ∀ s' o, r = some (s', o) → (pipe _ _ W).Reaches s.channel o.calls s'.channel ∧
    ∀ y ∈ o.calls, y.1.isProducer = false

theorem Consumes.ready (s s' : PendingResponse W) (hs : s'.channel = s.channel) (result : Option EventResult) :
    Consumes s (ready s' result) := by
  intro s₁ o h
  cases h
  rw [hs]
  exact ⟨.start, by simp⟩

theorem Consumes.act {call : EventCall W} {k : PendingResponse W → EventCallOutput W → Result W}
    (hcall : call.isProducer = false) (hk : ∀ channel out, Consumes { s with channel } (k { s with channel } out)) :
    Consumes s (s.act call k) := by
  intro s' o h
  simp only [PendingResponse.act] at h
  split at h
  · cases h
  · rename_i channel out hstep
    obtain ⟨⟨s₁, o₁⟩, hrest, heq⟩ := Option.map_eq_some_iff.mp h
    cases heq
    obtain ⟨hreach, hcalls⟩ := hk channel out s₁ o₁ hrest
    have hfirst : (pipe _ _ W).Reaches s.channel [(call, out)] channel := Machine.reaches_single hstep
    refine ⟨hfirst.trans hreach, fun y hy => ?_⟩
    rcases List.mem_cons.mp hy with rfl | hy
    · exact hcall
    · exact hcalls y hy

theorem consumes_awaitTake (w : W) : Consumes s (s.awaitTake w) := by
  apply Consumes.act rfl
  intro channel out
  split
  · apply Consumes.act rfl
    intro channel' out'
    exact .ready { s with channel := channel' } { (settle _ _).1 with next := some .resolved } (settle_keeps _ _).1 _
  · exact .ready _ _ rfl _

theorem consumes_step (hi : ∀ call, i ≠ .producer call) : Consumes s (s.step i) := by
  cases i with
  | producer call => exact absurd rfl (hi call)
  | nextEvent =>
    simp only [PendingResponse.step]
    split_ifs
    · exact .ready _ _ rfl _
    · intro s' o h
      cases h
  | pollEvent w =>
    simp only [PendingResponse.step, PendingResponse.pollEvent]
    split
    · split_ifs
      · exact .ready _ _ rfl _
      · exact .act rfl fun channel out => consumes_awaitTake w
    · exact consumes_awaitTake w
    · intro s' o h
      cases h
  | dropEvent =>
    simp only [PendingResponse.step, PendingResponse.dropEvent]
    split
    · intro s' o h
      cases h
    · exact .act rfl fun channel out => .ready _ _ rfl _
    · exact .ready _ _ rfl _
  | drop =>
    simp only [PendingResponse.step, PendingResponse.drop]
    split_ifs
    · intro s' o h
      obtain ⟨⟨s₁, o₁⟩, hact, heq⟩ := Option.map_eq_some_iff.mp h
      cases heq
      have hdrop : Consumes s (s.act .dropConsumer fun s _ => PendingResponse.ready { s with held := false } none) :=
        .act rfl fun channel out => .ready _ _ rfl _
      exact hdrop s₁ o₁ hact
    · intro s' o h
      cases h

theorem taken_of_empty {c c' : EventChannel W} {e : PipeEvent ResponseEvent Error} (h : Channel.Effect c c' e)
    (hslot : c.slot = []) : e.taken = [] := by
  rcases e with _ | _ | _ | _ | _ | (_ | _ | _ | event) | _ | _ <;> first | rfl | skip
  rw [Channel.Effect, hslot] at h
  cases h.1

/-- What the consumer's operations leave alone: the producer, its future, and what it passed. What
they take was in the slot. -/
theorem consumer_run {c c' : EventChannel W} {tr : List (EventCall W × EventCallOutput W)}
    (h : (pipe _ _ W).Reaches c tr c') (hsound : c.Sound) (hcalls : ∀ y ∈ tr, y.1.isProducer = false)
    (es : List (PipeEvent ResponseEvent Error)) :
    c'.producer = c.producer ∧ c'.producing = c.producing ∧ passedEvents tr = [] ∧
      (c.producing = none → takenEvents tr = []) ∧
      (Balanced es c → Balanced (es ++ channelEvents tr) c') := by
  suffices c'.Sound ∧ ((∀ y ∈ tr, y.1.isProducer = false) → c'.producer = c.producer ∧
      c'.producing = c.producing ∧ passedEvents tr = [] ∧ (c.producing = none → takenEvents tr = []) ∧
      (Balanced es c → Balanced (es ++ channelEvents tr) c')) from this.2 hcalls
  refine h.invariant (P := fun tr c' => c'.Sound ∧ ((∀ y ∈ tr, y.1.isProducer = false) →
    c'.producer = c.producer ∧ c'.producing = c.producing ∧ passedEvents tr = [] ∧
    (c.producing = none → takenEvents tr = []) ∧ (Balanced es c → Balanced (es ++ channelEvents tr) c')))
    ⟨hsound, fun _ => ⟨rfl, rfl, rfl, fun _ => rfl, fun hbal => by simpa [channelEvents] using hbal⟩⟩ ?_
  rintro tr c₁ i c₂ o ⟨hsound₁, ih⟩ hs
  obtain ⟨hsound₂, heffect⟩ := hsound₁.step_spec hs
  refine ⟨hsound₂, fun hall => ?_⟩
  obtain ⟨hproducer, hproducing, hpassed, htaken, hbalanced⟩ := ih fun y hy => hall y (List.mem_append_left _ hy)
  obtain ⟨hp, hf, hnone, hret, hdrop⟩ := Channel.step_consumer (hall (i, o) (by simp)) hs
  refine ⟨hp.trans hproducer, hf.trans hproducing, ?_, fun hidle => ?_, fun hbal => ?_⟩
  · rw [passedEvents_append, hpassed]
    simpa [passedEvents] using hnone
  · have hslot := hsound₁.slot_of_free (hproducing.trans hidle)
    rw [takenEvents_append, htaken hidle]
    simpa [takenEvents] using taken_of_empty heffect hslot
  · have hmore := (hbalanced hbal).step heffect hret hdrop
    rwa [channelEvents_append, ← List.append_assoc]

end PendingResponse

end Vakya
