import Vakya.Incoming
import Vakya.Ending

/-!
# How a body ends

`next_frame` returns frames, then one other result, then `Ok(None)`. A body
that was cut short never ends cleanly.
-/

namespace Vakya

open Library

variable {T E W : Type}

namespace BodyPipe

variable {s s' : BodyPipe W}

theorem perform_reaches {calls : List (BodyPipeCall W)} {tr : List (BodyPipeCall W × BodyPipeOutput W)}
    (h : s.perform calls = some (s', tr)) : (pipe _ _ W).Reaches s.channel tr s'.channel := by
  obtain ⟨⟨tr', c⟩, hrun, heq⟩ := Option.map_eq_some_iff.mp h
  cases heq
  exact Machine.reaches_of_run hrun

theorem awaitTake_reaches {b : Incoming} {w : W} {o : BodyOutput W}
    (h : s.awaitTake b w = some (s', o)) : (pipe _ _ W).Reaches s.channel o.calls s'.channel := by
  unfold awaitTake at h
  split at h
  · cases h
  · rename_i c out hpoll
    have hfirst : (pipe _ _ W).Reaches s.channel [(.pollTake w, out)] c := Machine.reaches_single hpoll
    split at h
    · obtain ⟨⟨s₁, o₁⟩, hres, heq⟩ := Option.map_eq_some_iff.mp h
      cases heq
      unfold resolve at hres
      obtain ⟨⟨s₂, tr⟩, hperf, heq⟩ := Option.map_eq_some_iff.mp hres
      cases heq
      exact hfirst.trans (perform_reaches hperf)
    · cases h
      exact hfirst

theorem step_reaches {i : BodyCall W} {o : BodyOutput W} (h : s.step i = some (s', o)) :
    (pipe _ _ W).Reaches s.channel o.calls s'.channel := by
  cases i with
  | producer call =>
    simp only [step] at h
    split_ifs at h
    obtain ⟨⟨s₁, tr⟩, hperf, heq⟩ := Option.map_eq_some_iff.mp h
    cases heq
    exact perform_reaches hperf
  | nextFrame =>
    simp only [step] at h
    split_ifs at h
    cases h
    exact .start
  | pollNext w =>
    simp only [step, pollNext] at h
    split at h
    · split_ifs at h
      · split at h
        · cases h
        · rename_i htake
          obtain ⟨⟨s₁, o₁⟩, hawait, heq⟩ := Option.map_eq_some_iff.mp h
          cases heq
          have hfirst : (pipe _ _ W).Reaches s.channel [(.take, _)] _ := Machine.reaches_single htake
          exact hfirst.trans (awaitTake_reaches hawait)
      · cases h
        exact .start
    · exact awaitTake_reaches h
    · cases h
  | dropNext =>
    simp only [step, dropNext] at h
    split at h
    · cases h
    · obtain ⟨⟨s₁, tr⟩, hperf, heq⟩ := Option.map_eq_some_iff.mp h
      cases heq
      have hreach := perform_reaches hperf
      exact hreach
    · cases h
      exact .start
  | dropIncoming =>
    simp only [step, dropIncoming] at h
    split at h
    · obtain ⟨⟨s₁, tr⟩, hperf, heq⟩ := Option.map_eq_some_iff.mp h
      cases heq
      have hreach := perform_reaches hperf
      exact hreach
    · cases h
  | drainBudget bytes allowance =>
    simp only [step] at h
    split at h
    · cases h
      split_ifs <;> exact .start
    · cases h
  | chargeDrain bytes payload =>
    simp only [step] at h
    split at h <;> cases h <;> exact .start

def pipeTrace (tr : List (BodyCall W × BodyOutput W)) : List (BodyPipeCall W × BodyPipeOutput W) :=
  tr.flatMap (·.2.calls)

def results (tr : List (BodyCall W × BodyOutput W)) : List BodyResult := tr.filterMap (·.2.result)

end BodyPipe

def Frame.payloadLen : Frame IncomingData → ℕ
  | .data d => d.len
  | .trailers _ => 0

def isFrame : BodyResult → Bool
  | .ok (some _) => true
  | _ => false

/-- The payload bytes that results of `next_frame` delivered. -/
def delivered : List BodyResult → ℕ
  | [] => 0
  | .ok (some frame) :: rs => frame.payloadLen + delivered rs
  | _ :: rs => delivered rs

theorem delivered_append (rs rs' : List BodyResult) :
    delivered (rs ++ rs') = delivered rs + delivered rs' := by
  induction rs with
  | nil => simp [delivered]
  | cons r rs ih =>
    match r with
    | .ok (some frame) => simp [delivered, ih]; omega
    | .ok none => simp [delivered, ih]
    | .error e => simp [delivered, ih]

namespace Incoming

variable {b b' : Incoming}

theorem observe_ok {frame : Frame IncomingData} (h : b.observe frame = .ok b') :
    b'.consumer = b.consumer ∧ b'.size.lower = b.size.lower - frame.payloadLen := by
  cases frame with
  | data data =>
    simp only [observe] at h
    split_ifs at h
    obtain ⟨size, hsize, heq⟩ := bind_eq_ok h
    cases heq
    refine ⟨rfl, ?_⟩
    simp only [shrink, SizeHint.withBounds] at hsize
    split_ifs at hsize
    cases hsize
    rfl
  | trailers trailers =>
    simp only [observe] at h
    split_ifs at h with hc
    cases h
    simp only [not_or, not_not] at hc
    exact ⟨rfl, by simp [hc.2.2, Frame.payloadLen, SizeHint.withExact]⟩

theorem settle_cases (b : Incoming) (r : Except (TakeError Error) (Option (Frame IncomingData))) :
    (∃ frame, r = .ok (some frame) ∧ (b.settle r).2 = .ok (some frame) ∧
      b.observe frame = .ok (b.settle r).1) ∨
    ((b.settle r).1.consumer = false ∧
      ((∃ e, (b.settle r).2 = .error e) ∨ r = .ok none ∧ b.size.lower = 0 ∧ (b.settle r).2 = .ok none)) := by
  match r with
  | .ok (some frame) =>
    cases ho : b.observe frame with
    | ok b' => exact .inl ⟨frame, rfl, by simp [settle, ho], by simp [settle, ho]⟩
    | error e => exact .inr ⟨by simp [settle, ho, finish], .inl ⟨e, by simp [settle, ho]⟩⟩
  | .ok none =>
    by_cases hl : b.size.lower = 0
    · exact .inr ⟨by simp [settle, hl, finish], .inr ⟨rfl, hl, by simp [settle, hl]⟩⟩
    · exact .inr ⟨by simp [settle, hl, finish], .inl ⟨_, by simp [settle, hl]; rfl⟩⟩
  | .error (.failed e) => exact .inr ⟨rfl, .inl ⟨e, rfl⟩⟩
  | .error .disconnected => exact .inr ⟨rfl, .inl ⟨_, rfl⟩⟩

end Incoming

namespace BodyPipe

variable {s s' : BodyPipe W} {b : Incoming}

/-- A poll of the `Take` in a body that still owns its endpoint: it waits, or it has a
frame or the end of the channel. -/
def Polled (s s' : BodyPipe W) (b : Incoming) (o : BodyOutput W) : Prop :=
  (s.channel.state.isTerminal = false ∧ s.channel.slot = [] ∧ o.result = none ∧ s'.incoming = some b ∧
    s'.next = some .awaiting ∧ s'.channel.consumer = some .active ∧ s'.channel.taking = some false) ∨
  ∃ r, (s.channel.state.isTerminal = true ∧ r = s.channel.state.report ∨
      ∃ frame, r = .ok (some frame) ∧ s.channel.slot = [frame]) ∧
    o.result = some (b.settle r).2 ∧ s'.incoming = some (b.settle r).1 ∧ s'.next = some .resolved ∧
    ((b.settle r).1.consumer = true →
      s'.channel.consumer = some .active ∧ s'.channel.taking = none)

theorem resolve_spec (hc : s.channel.consumer ≠ none) (ht : s.channel.taking = some true)
    (r : Except (TakeError Error) (Option (Frame IncomingData))) :
    ∃ s' o, s.resolve b r = some (s', o) ∧ o.result = some (b.settle r).2 ∧
      s'.incoming = some (b.settle r).1 ∧ s'.next = some .resolved ∧
      ((b.settle r).1.consumer = true →
        s'.channel.consumer = s.channel.consumer ∧ s'.channel.taking = none) := by
  let c : BodyChannel W := { s.channel with consumerWaker := none, taking := none }
  have hfree : c.consumerFree = true := by
    simp [c, Channel.consumerFree, Option.isSome_iff_ne_none, hc]
  cases hb : (b.settle r).1.consumer with
  | true =>
    refine ⟨⟨c, s.remaining, some (b.settle r).1, some .resolved⟩,
      ⟨[(.dropTake, ⟨.quiet, none⟩)], some (b.settle r).2⟩, ?_, rfl, rfl, rfl, fun _ => ⟨rfl, rfl⟩⟩
    simp [resolve, perform, pipe, Machine.run, Channel.step, ht, hb, c]
  | false =>
    refine ⟨⟨c.dropConsumer.1, s.remaining, some (b.settle r).1, some .resolved⟩,
      ⟨[(.dropTake, ⟨.quiet, none⟩), (.dropConsumer, c.dropConsumer.2)], some (b.settle r).2⟩,
      ?_, rfl, rfl, rfl, fun hn => (by cases hn)⟩
    simp [resolve, perform, pipe, Machine.run, Channel.step, ht, hb, c] at hfree ⊢
    simp [hfree]

theorem awaitTake_spec (hsound : s.channel.Sound) (hc : s.channel.consumer = some .active)
    (ht : s.channel.taking = some false) (hin : s.incoming = some b) (w : W) :
    ∃ s' o, s.awaitTake b w = some (s', o) ∧ Polled s s' b o := by
  have hab : s.channel.isAbandoned = false := hsound.consumer_live (by simp [hc])
  have hstep : s.channel.step (.pollTake w) = some (s.channel.pollTake w) := by
    simp [Channel.step, ht]
  rcases Channel.pollTake_active hc hab w with ⟨hterm, hslot, he, hc', ht'⟩ | ⟨r, he, ht', hc', hr⟩
  · refine ⟨⟨(s.channel.pollTake w).1, s.remaining, s.incoming, some .awaiting⟩,
      ⟨[(.pollTake w, (s.channel.pollTake w).2)], none⟩, ?_,
      .inl ⟨hterm, hslot, rfl, hin, rfl, hc', ht'.trans ht⟩⟩
    simp only [awaitTake, hstep, he]
  · obtain ⟨s', o, hres, ho, hin', hnext, hkeep⟩ :=
      resolve_spec (b := b) (s := { s with channel := (s.channel.pollTake w).1 }) hc' ht' r
    refine ⟨s', ⟨(.pollTake w, (s.channel.pollTake w).2) :: o.calls, o.result⟩, ?_,
      .inr ⟨r, ?_, ho, hin', hnext, fun hb => ?_⟩⟩
    · simp only [awaitTake, hstep, he, hres, Option.map_some]
    · rcases hr with hr | ⟨frame, hr, hslot, -⟩
      · exact .inl hr
      · exact .inr ⟨frame, hr, hslot⟩
    · obtain ⟨hkc, hkt⟩ := hkeep hb
      rcases hr with ⟨-, rfl⟩ | ⟨frame, -, -, hact⟩
      · -- The end of the channel is never a frame, so the body does not keep its endpoint.
        rcases b.settle_cases s.channel.state.report with ⟨frame, hf, -⟩ | ⟨hfalse, -⟩
        · exact absurd hf (report_ne_frame _ _)
        · simp [hfalse] at hb
      · exact ⟨hkc.trans hact, hkt⟩

theorem pollNext_spec (hsound : s.channel.Sound) (hc : s.channel.consumer = some .active)
    (ht : s.channel.taking = if s.next = some .awaiting then some false else none)
    (hin : s.incoming = some b) (hb : b.consumer = true)
    (hnext : s.next = some .unpolled ∨ s.next = some .awaiting) (w : W) :
    ∃ s' o, s.pollNext w = some (s', o) ∧ Polled s s' b o := by
  rcases s with ⟨c, remaining, incoming, next⟩
  obtain rfl : incoming = some b := hin
  rcases hnext with hnext | hnext
  · -- The first poll creates the `Take`, which changes nothing else in the channel.
    obtain rfl : next = some .unpolled := hnext
    have hnone : c.taking = none := ht
    have hact : c.consumer = some .active := hc
    have htake : c.step .take = some ({ c with taking := some false }, ⟨.quiet, none⟩) := by
      simp [Channel.step, Channel.consumerFree, hact, hnone]
    obtain ⟨s', o, hawait, hpolled⟩ :=
      awaitTake_spec (s := ⟨{ c with taking := some false }, remaining, some b, some .unpolled⟩)
        (hsound.step_spec htake).1 hc rfl rfl w
    refine ⟨s', ⟨(.take, ⟨.quiet, none⟩) :: o.calls, o.result⟩, ?_, hpolled⟩
    simp only [pollNext, hb, if_true, htake, hawait, Option.map_some]
  · obtain rfl : next = some .awaiting := hnext
    exact awaitTake_spec hsound hc ht rfl w

/-- The results of `next_frame` so far: frames, and after them at most one other result,
then `Ok(None)` for ever. A clean end needs a close and the declared lower bound. -/
def Ordered (size : SizeHint) (tr : List (BodyCall W × BodyOutput W)) (ended : Bool) : Prop :=
  ∃ frames tail, results tr = frames ++ tail ∧ (∀ r ∈ frames, isFrame r = true) ∧
    (ended = false ∧ tail = [] ∨ ended = true ∧ ∃ r k, tail = r :: List.replicate k (.ok none) ∧
      ((∃ e, r = .error e) ∨
        r = .ok none ∧ .closed ∈ endings (pipeTrace tr) ∧ size.lower ≤ delivered frames))

structure Inv (size : SizeHint) (tr : List (BodyCall W × BodyOutput W)) (s : BodyPipe W) : Prop where
  sound : s.channel.Sound
  life : Lifecycle (pipeTrace tr) s.channel
  dropped : s.incoming = none → s.next = none ∧ ∃ ended, Ordered size tr ended
  reading : ∀ b, s.incoming = some b → b.consumer = true → Ordered size tr false ∧
    b.size.lower = size.lower - delivered (results tr) ∧ s.channel.consumer = some .active ∧
    s.channel.taking = if s.next = some .awaiting then some false else none
  finished : ∀ b, s.incoming = some b → b.consumer = false → Ordered size tr true ∧
    s.next ≠ some .awaiting

variable {size : SizeHint} {tr : List (BodyCall W × BodyOutput W)} {i : BodyCall W} {o : BodyOutput W}

@[simp] theorem pipeTrace_append : pipeTrace (tr ++ [(i, o)]) = pipeTrace tr ++ o.calls := by
  simp [pipeTrace]

@[simp] theorem results_append : results (tr ++ [(i, o)]) = results tr ++ o.result.toList := by
  cases ho : o.result <;> simp [results, ho]

theorem Ordered.quiet {ended : Bool} (h : Ordered size tr ended) (ho : o.result = none) :
    Ordered size (tr ++ [(i, o)]) ended := by
  obtain ⟨frames, tail, hres, hframes, htail⟩ := h
  refine ⟨frames, tail, by simpa [ho] using hres, hframes, ?_⟩
  rcases htail with htail | ⟨hended, r, k, rfl, hr⟩
  · exact .inl htail
  · refine .inr ⟨hended, r, k, rfl, ?_⟩
    rcases hr with hr | ⟨hr, hclosed, hlower⟩
    · exact .inl hr
    · refine .inr ⟨hr, ?_, hlower⟩
      rw [pipeTrace_append, endings, List.filterMap_append]
      exact List.mem_append_left _ hclosed

theorem delivered_of_no_result (ho : o.result = none) :
    delivered (results (tr ++ [(i, o)])) = delivered (results tr) := by
  simp [ho]

theorem Inv.quiet (h : Inv size tr s) (hs : s.step i = some (s', o)) (ho : o.result = none)
    (hin : s'.incoming = s.incoming) (hnone : s.incoming = none → s'.next = none)
    (hawait : ∀ b, s.incoming = some b → b.consumer = false → s'.next ≠ some .awaiting)
    (hkeep : ∀ b, s.incoming = some b → b.consumer = true → s.channel.consumer = some .active →
      s.channel.taking = (if s.next = some .awaiting then some false else none) →
      s'.channel.consumer = some .active ∧
      s'.channel.taking = if s'.next = some .awaiting then some false else none) :
    Inv size (tr ++ [(i, o)]) s' := by
  obtain ⟨hsound, hlife⟩ := channel_run (step_reaches hs) h.sound h.life
  refine ⟨hsound, by simpa using hlife, fun hn => ?_, fun b hb hc => ?_, fun b hb hc => ?_⟩
  · rw [hin] at hn
    obtain ⟨-, ended, hord⟩ := h.dropped hn
    exact ⟨hnone hn, ended, hord.quiet ho⟩
  · rw [hin] at hb
    obtain ⟨hord, hlower, hcons, htake⟩ := h.reading b hb hc
    rw [delivered_of_no_result ho]
    exact ⟨hord.quiet ho, hlower, hkeep b hb hc hcons htake⟩
  · rw [hin] at hb
    exact ⟨(h.finished b hb hc).1.quiet ho, hawait b hb hc⟩

theorem perform_single {call : BodyPipeCall W} {calls : List (BodyPipeCall W × BodyPipeOutput W)}
    (h : s.perform [call] = some (s', calls)) :
    ∃ c out, s.channel.step call = some (c, out) ∧ s' = ⟨c, s.remaining, s.incoming, s.next⟩ := by
  obtain ⟨⟨calls', c⟩, hrun, heq⟩ := Option.map_eq_some_iff.mp h
  cases heq
  simp only [Machine.run] at hrun
  split at hrun
  · cases hrun
  · cases hrun
    exact ⟨_, _, ‹_›, rfl⟩

theorem Inv.producer (h : Inv size tr s) {call : BodyPipeCall W}
    (hs : s.step (.producer call) = some (s', o)) : Inv size (tr ++ [(.producer call, o)]) s' := by
  have hs' := hs
  simp only [step] at hs'
  split_ifs at hs' with hcall
  obtain ⟨⟨s₁, calls⟩, hperf, heq⟩ := Option.map_eq_some_iff.mp hs'
  cases heq
  obtain ⟨c, out, hstep, rfl⟩ := perform_single hperf
  obtain ⟨hcons, htake⟩ := h.sound.step_producer hcall hstep
  refine h.quiet hs rfl rfl (fun hn => (h.dropped hn).1) (fun b hb hc => (h.finished b hb hc).2) ?_
  intro b hb hc hact htaking
  exact ⟨hcons.trans hact, htake.trans htaking⟩

theorem Inv.nextFrame (h : Inv size tr s) (hs : s.step .nextFrame = some (s', o)) :
    Inv size (tr ++ [(.nextFrame, o)]) s' := by
  have hs' := hs
  simp only [step, Bool.and_eq_true, Option.isSome_iff_ne_none, Option.isNone_iff_eq_none] at hs'
  split_ifs at hs' with hfree
  cases hs'
  refine h.quiet hs rfl rfl (fun hn => absurd hn hfree.1) (fun b hb hc => by simp) ?_
  intro b hb hc hact htaking
  exact ⟨hact, by simpa [hfree.2] using htaking⟩

theorem Inv.dropNext (h : Inv size tr s) (hs : s.step .dropNext = some (s', o)) :
    Inv size (tr ++ [(.dropNext, o)]) s' := by
  have hs' := hs
  simp only [step, BodyPipe.dropNext] at hs'
  split at hs'
  · cases hs'
  · obtain ⟨⟨s₁, calls⟩, hperf, heq⟩ := Option.map_eq_some_iff.mp hs'
    cases heq
    obtain ⟨c, out, hstep, rfl⟩ := perform_single hperf
    have htake : c.consumer = s.channel.consumer ∧ c.taking = none := by
      simp only [Channel.step] at hstep
      split_ifs at hstep
      cases hstep
      exact ⟨rfl, rfl⟩
    refine h.quiet hs rfl rfl (fun _ => rfl) (fun b hb hc => by simp) ?_
    intro b hb hc hact _
    exact ⟨htake.1.trans hact, by simpa using htake.2⟩
  · rename_i next hne hnext
    cases hs'
    refine h.quiet hs rfl rfl (fun _ => rfl) (fun b hb hc => by simp) ?_
    intro b hb hc hact htaking
    have hother : s.next ≠ some .awaiting := by rw [hnext]; exact fun he => hne (Option.some.inj he)
    exact ⟨hact, by simpa [hother] using htaking⟩

theorem Inv.budget (h : Inv size tr s) (hs : s.step i = some (s', o)) (ho : o.result = none)
    (hin : s'.incoming = s.incoming) (hnext : s'.next = s.next) (hchan : s'.channel = s.channel) :
    Inv size (tr ++ [(i, o)]) s' := by
  refine h.quiet hs ho hin (fun hn => hnext ▸ (h.dropped hn).1)
    (fun b hb hc => hnext ▸ (h.finished b hb hc).2) ?_
  intro b hb hc hact htaking
  rw [hnext, hchan]
  exact ⟨hact, htaking⟩

theorem Inv.drainBudget (h : Inv size tr s) {bytes allowance : ℕ}
    (hs : s.step (.drainBudget bytes allowance) = some (s', o)) :
    Inv size (tr ++ [(.drainBudget bytes allowance, o)]) s' := by
  have hs' := hs
  simp only [step] at hs'
  split at hs'
  · have hsame : s'.incoming = s.incoming ∧ s'.next = s.next ∧ s'.channel = s.channel := by
      cases hs'
      split_ifs <;> exact ⟨rfl, rfl, rfl⟩
    exact h.budget hs (by cases hs'; rfl) hsame.1 hsame.2.1 hsame.2.2
  · cases hs'

theorem Inv.chargeDrain (h : Inv size tr s) {bytes payload : ℕ}
    (hs : s.step (.chargeDrain bytes payload) = some (s', o)) :
    Inv size (tr ++ [(.chargeDrain bytes payload, o)]) s' := by
  have hs' := hs
  simp only [step] at hs'
  split at hs' <;> cases hs' <;> exact h.budget hs rfl rfl rfl rfl

theorem Inv.dropIncoming (h : Inv size tr s) (hs : s.step .dropIncoming = some (s', o)) :
    Inv size (tr ++ [(.dropIncoming, o)]) s' := by
  obtain ⟨hsound, hlife⟩ := channel_run (step_reaches hs) h.sound h.life
  simp only [step, BodyPipe.dropIncoming] at hs
  split at hs
  · rename_i b hin hnext
    obtain ⟨⟨s₁, calls⟩, hperf, heq⟩ := Option.map_eq_some_iff.mp hs
    cases heq
    obtain ⟨⟨calls', c⟩, -, heq⟩ := Option.map_eq_some_iff.mp hperf
    cases heq
    refine ⟨hsound, by simpa using hlife, fun _ => ⟨hnext, ?_⟩, fun b hb => (by cases hb),
      fun b hb => (by cases hb)⟩
    cases hc : b.consumer with
    | true => exact ⟨false, (h.reading b hin hc).1.quiet rfl⟩
    | false => exact ⟨true, (h.finished b hin hc).1.quiet rfl⟩
  · cases hs

theorem Inv.endings_eq (h : Inv size tr s) (hc : s.channel.consumer = some .active)
    (hterm : s.channel.state.isTerminal = true) : endings (pipeTrace tr) = [s.channel.state] := by
  have hnone : s.channel.producer = none := by
    by_contra hn
    simp [(h.sound.producer_live hn).2] at hterm
  obtain ⟨t, ht, -, hactive, -⟩ := h.life.gone hnone
  rw [ht, hactive hc]

/-- The poll that ends a body cleanly comes after a close and enough bytes. -/
theorem Inv.clean (h : Inv size tr s) {b : Incoming} (hin : s.incoming = some b) (hb : b.consumer = true)
    (hpolled : Polled s s' b o) (ho : o.result = some (.ok none)) :
    .closed ∈ endings (pipeTrace tr) ∧ size.lower ≤ delivered (results tr) := by
  obtain ⟨-, hlower, hcons, -⟩ := h.reading b hin hb
  rcases hpolled with ⟨-, -, hn, -⟩ | ⟨r, hr, hres, -⟩
  · simp [hn] at ho
  rw [ho, Option.some.injEq] at hres
  rcases b.settle_cases r with ⟨frame, -, hf, -⟩ | ⟨-, ⟨e, he⟩ | ⟨rfl, hzero, -⟩⟩
  · simp [hf] at hres
  · simp [he] at hres
  · obtain ⟨hterm, hreport⟩ | ⟨frame, hf, -⟩ := hr
    · have hclosed := closed_of_report hterm hreport.symm
      rw [h.endings_eq hcons hterm, hclosed]
      exact ⟨by simp, by omega⟩
    · cases hf

theorem Inv.polled (h : Inv size tr s) {b : Incoming} {w : W} (hin : s.incoming = some b)
    (hb : b.consumer = true) (hs : s.step (.pollNext w) = some (s', o)) (hpolled : Polled s s' b o) :
    Inv size (tr ++ [(.pollNext w, o)]) s' := by
  obtain ⟨hsound, hlife⟩ := channel_run (step_reaches hs) h.sound h.life
  rw [← pipeTrace_append (i := .pollNext w)] at hlife
  obtain ⟨⟨frames, tail, hres, hframes, htail⟩, hlower, hcons, -⟩ := h.reading b hin hb
  obtain rfl : tail = [] := by simpa using htail
  rw [List.append_nil] at hres
  have hclean := h.clean hin hb hpolled
  rcases hpolled with ⟨-, -, ho, hin', hnext, hcons', htake'⟩ | ⟨r, -, ho, hin', hnext, hkeep⟩
  · -- The future waits; nothing was returned.
    refine h.quiet hs ho (hin'.trans hin.symm) (fun hn => ?_) (fun b' hb' hc => ?_) (fun _ _ _ _ _ => ?_)
    · simp [hin] at hn
    · rw [hin, Option.some.injEq] at hb'
      simp [← hb', hb] at hc
    · exact ⟨hcons', by simp [hnext, htake']⟩
  · refine ⟨hsound, hlife, fun hn => (by simp [hin'] at hn), fun b' hb' hc => ?_, fun b' hb' hc => ?_⟩
    · -- A frame.
      rw [hin', Option.some.injEq] at hb'
      subst hb'
      rcases b.settle_cases r with ⟨frame, -, hf, hobs⟩ | ⟨hfalse, -⟩
      · obtain ⟨-, hshrunk⟩ := Incoming.observe_ok hobs
        rw [hf] at ho
        refine ⟨⟨frames ++ [.ok (some frame)], [], by simp [hres, ho], ?_, .inl ⟨rfl, rfl⟩⟩, ?_, ?_⟩
        · intro r' hr'
          rcases List.mem_append.mp hr' with hr' | hr'
          · exact hframes r' hr'
          · simp only [List.mem_singleton] at hr'
            rw [hr']
            rfl
        · rw [results_append, delivered_append, ho, hshrunk, hlower]
          simp only [Option.toList_some, delivered]
          omega
        · simpa [hnext] using hkeep hc
      · simp [hfalse] at hc
    · -- The only other result of this body.
      rw [hin', Option.some.injEq] at hb'
      subst hb'
      refine ⟨⟨frames, [(b.settle r).2], by simp [hres, ho], hframes,
        .inr ⟨rfl, (b.settle r).2, 0, rfl, ?_⟩⟩, by simp [hnext]⟩
      rcases b.settle_cases r with ⟨frame, -, hf, hobs⟩ | ⟨-, herr | ⟨-, -, hok⟩⟩
      · obtain ⟨hsame, -⟩ := Incoming.observe_ok hobs
        simp [hsame, hb] at hc
      · exact .inl herr
      · obtain ⟨hclosed, henough⟩ := hclean (by rw [ho, hok])
        refine .inr ⟨hok, ?_, hres ▸ henough⟩
        rw [pipeTrace_append, endings, List.filterMap_append]
        exact List.mem_append_left _ hclosed

theorem Inv.poll_cases (h : Inv size tr s) {w : W} (hs : s.step (.pollNext w) = some (s', o)) :
    ∃ b, s.incoming = some b ∧ (b.consumer = true ∧ Polled s s' b o ∨
      b.consumer = false ∧ s' = { s with next := some .resolved } ∧ o = ⟨[], some (.ok none)⟩) := by
  cases hin : s.incoming with
  | none => simp [BodyPipe.step, BodyPipe.pollNext, hin] at hs
  | some b =>
    have hlive : s.next = some .unpolled ∨ s.next = some .awaiting := by
      rcases hnext : s.next with _ | _ | _ | _ <;>
        simp [BodyPipe.step, BodyPipe.pollNext, hin, hnext] at hs ⊢
    refine ⟨b, rfl, ?_⟩
    cases hb : b.consumer with
    | true =>
      obtain ⟨-, -, hcons, htake⟩ := h.reading b hin hb
      obtain ⟨s₁, o₁, heq, hpolled⟩ := pollNext_spec h.sound hcons htake hin hb hlive w
      obtain ⟨rfl, rfl⟩ : s₁ = s' ∧ o₁ = o := by simpa [BodyPipe.step, heq] using hs
      exact .inl ⟨rfl, hpolled⟩
    | false =>
      have hnext : s.next = some .unpolled := by simpa [(h.finished b hin hb).2] using hlive
      simp only [BodyPipe.step, BodyPipe.pollNext, hin, hnext, hb, Bool.false_eq_true, if_false] at hs
      cases hs
      exact .inr ⟨rfl, rfl, rfl⟩

theorem Inv.pollNext (h : Inv size tr s) {w : W} (hs : s.step (.pollNext w) = some (s', o)) :
    Inv size (tr ++ [(.pollNext w, o)]) s' := by
  obtain ⟨b, hin, ⟨hb, hpolled⟩ | ⟨hb, rfl, rfl⟩⟩ := h.poll_cases hs
  · exact h.polled hin hb hs hpolled
  · -- One more `Ok(None)` after the end.
    obtain ⟨⟨frames, tail, hres, hframes, htail⟩, -⟩ := h.finished b hin hb
    obtain ⟨hn, -⟩ | ⟨-, r, k, rfl, hr⟩ := htail
    · cases hn
    · refine ⟨h.sound, by simpa using h.life, fun hn => (by simp [hin] at hn), fun b' hb' hc => ?_,
        fun b' hb' hc => ⟨⟨frames, r :: List.replicate (k + 1) (.ok none), ?_, hframes,
          .inr ⟨rfl, r, k + 1, rfl, by simpa using hr⟩⟩, by simp⟩⟩
      · have : b = b' := Option.some.inj (hin.symm.trans hb')
        simp [← this, hb] at hc
      · rw [results_append, hres, List.append_assoc, List.replicate_succ']
        rfl

theorem Inv.step (h : Inv size tr s) (hs : s.step i = some (s', o)) :
    Inv size (tr ++ [(i, o)]) s' := by
  cases i with
  | producer call => exact h.producer hs
  | nextFrame => exact h.nextFrame hs
  | pollNext w => exact h.pollNext hs
  | dropNext => exact h.dropNext hs
  | dropIncoming => exact h.dropIncoming hs
  | drainBudget bytes allowance => exact h.drainBudget hs
  | chargeDrain bytes payload => exact h.chargeDrain hs

theorem inv_of_reaches {trailers : TrailerHint} (h : (bodyPipe W).Reaches (new size trailers) tr s) :
    Inv size tr s := by
  refine h.invariant (P := fun tr s => Inv size tr s) ?_ fun tr s i s' o hinv hs => hinv.step hs
  refine ⟨Channel.sound_new, Lifecycle.new, fun hn => (by cases hn), fun b hb hc => ?_, fun b hb hc => ?_⟩
  · cases hb
    exact ⟨⟨[], [], rfl, by simp, .inl ⟨rfl, rfl⟩⟩, by simp [results, delivered, Incoming.channel], rfl, rfl⟩
  · cases hb
    cases hc

/-- The producer was dropped unfinished, failed, or closed below the declared lower bound. -/
def CutShort (size : SizeHint) (tr : List (BodyCall W × BodyOutput W)) : Prop :=
  .disconnected ∈ endings (pipeTrace tr) ∨ (∃ e, .failed e ∈ endings (pipeTrace tr)) ∨
    ∃ before x after, tr = before ++ x :: after ∧ .closed ∈ endings x.2.calls ∧
      delivered (results before) < size.lower

theorem result_eq_none (hs : s.step i = some (s', o)) (hi : ∀ w, i ≠ .pollNext w) :
    o.result = none := by
  cases i with
  | pollNext w => exact absurd rfl (hi w)
  | producer call =>
    simp only [BodyPipe.step] at hs
    split_ifs at hs
    obtain ⟨⟨s₁, calls⟩, -, heq⟩ := Option.map_eq_some_iff.mp hs
    cases heq
    rfl
  | nextFrame =>
    simp only [BodyPipe.step] at hs
    split_ifs at hs
    cases hs
    rfl
  | dropNext =>
    simp only [BodyPipe.step, BodyPipe.dropNext] at hs
    split at hs
    · cases hs
    · obtain ⟨⟨s₁, calls⟩, -, heq⟩ := Option.map_eq_some_iff.mp hs
      cases heq
      rfl
    · cases hs
      rfl
  | dropIncoming =>
    simp only [BodyPipe.step, BodyPipe.dropIncoming] at hs
    split at hs
    · obtain ⟨⟨s₁, calls⟩, -, heq⟩ := Option.map_eq_some_iff.mp hs
      cases heq
      rfl
    · cases hs
  | drainBudget bytes allowance =>
    simp only [BodyPipe.step] at hs
    split at hs <;> cases hs
    rfl
  | chargeDrain bytes payload =>
    simp only [BodyPipe.step] at hs
    split at hs <;> cases hs <;> rfl

theorem Inv.no_frame (h : Inv size tr s) (hend : endings (pipeTrace tr) ≠ [])
    (hs : s.step i = some (s', o)) {r : BodyResult} (ho : o.result = some r) : isFrame r = false := by
  have hnone : s.channel.producer = none := by
    by_contra hn
    exact hend (h.life.live hn).1
  by_cases hi : ∃ w, i = .pollNext w
  · obtain ⟨w, rfl⟩ := hi
    obtain ⟨b, hin, ⟨hb, hpolled⟩ | ⟨-, -, rfl⟩⟩ := h.poll_cases hs
    · rcases hpolled with ⟨-, -, hn, -⟩ | ⟨t, ht, hres, -⟩
      · simp [hn] at ho
      · rw [ho, Option.some.injEq] at hres
        subst hres
        rcases b.settle_cases t with ⟨frame, rfl, -, -⟩ | ⟨-, ⟨e, he⟩ | ⟨-, -, he⟩⟩
        · -- A frame in the slot is in flight, and its offer borrows the producer.
          obtain ⟨-, ht⟩ | ⟨frame', -, hslot⟩ := ht
          · exact absurd ht.symm (report_ne_frame _ _)
          · have hfly := h.sound.slot_inFlight (by simp [hslot])
            rw [Channel.inFlight, (h.sound.producer_gone hnone).1] at hfly
            cases hfly
        · rw [he]
          rfl
        · rw [he]
          rfl
    · cases ho
      rfl
  · rw [result_eq_none hs fun w hw => hi ⟨w, hw⟩] at ho
    cases ho

theorem delivered_eq_zero {r : Option BodyResult} (h : ∀ a, r = some a → isFrame a = false) :
    delivered r.toList = 0 := by
  match r with
  | none => rfl
  | some (.ok (some frame)) => cases h _ rfl
  | some (.ok none) => rfl
  | some (.error e) => rfl

theorem endings_perform {calls : List (BodyPipeCall W)} {out : List (BodyPipeCall W × BodyPipeOutput W)}
    (h : s.perform calls = some (s', out)) (hcalls : calls.filterMap PipeCall.ending = []) :
    endings out = [] := by
  obtain ⟨⟨out', c⟩, hrun, heq⟩ := Option.map_eq_some_iff.mp h
  cases heq
  rw [endings, ← hcalls, ← Machine.run_inputs hrun, List.filterMap_map]
  rfl

theorem endings_awaitTake {w : W} (h : s.awaitTake b w = some (s', o)) : endings o.calls = [] := by
  unfold awaitTake at h
  split at h
  · cases h
  · split at h
    · obtain ⟨⟨s₁, o₁⟩, hres, heq⟩ := Option.map_eq_some_iff.mp h
      cases heq
      unfold resolve at hres
      obtain ⟨⟨s₂, out⟩, hperf, heq⟩ := Option.map_eq_some_iff.mp hres
      cases heq
      have hrest := endings_perform hperf (by split_ifs <;> rfl)
      exact hrest
    · cases h
      rfl

theorem endings_pollNext {w : W} (h : s.step (.pollNext w) = some (s', o)) : endings o.calls = [] := by
  simp only [BodyPipe.step, BodyPipe.pollNext] at h
  split at h
  · split_ifs at h
    · split at h
      · cases h
      · obtain ⟨⟨s₁, o₁⟩, hawait, heq⟩ := Option.map_eq_some_iff.mp h
        cases heq
        have hrest := endings_awaitTake hawait
        exact hrest
    · cases h
      rfl
  · exact endings_awaitTake h
  · cases h

theorem delivered_after_end {trailers : TrailerHint} {before after : List (BodyCall W × BodyOutput W)}
    {x : BodyCall W × BodyOutput W}
    (h : (bodyPipe W).Reaches (new size trailers) (before ++ x :: after) s)
    (hx : endings x.2.calls ≠ []) :
    delivered (results (before ++ x :: after)) = delivered (results before) := by
  induction after using List.reverseRecOn generalizing s with
  | nil =>
    obtain ⟨t, -, hlast⟩ := h.split
    have hs := Machine.step_of_reaches_single hlast
    obtain ⟨i, o⟩ := x
    -- The operation that ends the channel is the producer's, so it returns nothing.
    have hnone : o.result = none := by
      apply result_eq_none hs
      rintro w rfl
      exact hx (endings_pollNext hs)
    exact delivered_of_no_result hnone
  | append_singleton after y ih =>
    rw [← List.cons_append, ← List.append_assoc] at h ⊢
    obtain ⟨t, hprev, hlast⟩ := h.split
    have hs := Machine.step_of_reaches_single hlast
    obtain ⟨i, o⟩ := y
    have hend : endings (pipeTrace (before ++ x :: after)) ≠ [] := by
      simp only [pipeTrace, endings, List.flatMap_append, List.flatMap_cons, List.filterMap_append]
      simp only [endings] at hx
      simp [hx]
    have hzero := delivered_eq_zero fun r hr => (inv_of_reaches hprev).no_frame hend hs hr
    rw [results_append, delivered_append, hzero, Nat.add_zero]
    exact ih hprev

theorem CutShort.spec {trailers : TrailerHint} (hcut : CutShort size tr)
    (h : (bodyPipe W).Reaches (new size trailers) tr s) :
    endings (pipeTrace tr) ≠ [] ∧
      (.closed ∈ endings (pipeTrace tr) → delivered (results tr) < size.lower) := by
  have hinv := inv_of_reaches h
  have hone {t : PipeState (Frame IncomingData) Error} (ht : t ∈ endings (pipeTrace tr)) :
      endings (pipeTrace tr) = [t] := by
    by_cases hp : s.channel.producer = none
    · obtain ⟨t', ht', -⟩ := hinv.life.gone hp
      rw [ht', List.mem_singleton] at ht
      rw [ht', ht]
    · rw [(hinv.life.live hp).1] at ht
      cases ht
  rcases hcut with hdisc | ⟨e, hfail⟩ | ⟨before, x, after, rfl, hclosed, hshort⟩
  · rw [hone hdisc]
    simp
  · rw [hone hfail]
    simp
  · have hx : endings x.2.calls ≠ [] := List.ne_nil_of_mem hclosed
    refine ⟨?_, fun _ => by rwa [delivered_after_end h hx]⟩
    apply List.ne_nil_of_mem (a := .closed)
    simp only [pipeTrace, endings, List.flatMap_append, List.flatMap_cons, List.filterMap_append]
    simp only [endings] at hclosed
    simp [hclosed]

theorem delivered_replicate (k : ℕ) : delivered (List.replicate k (.ok none)) = 0 := by
  induction k with
  | zero => rfl
  | succ k ih => simpa [List.replicate_succ, delivered] using ih

theorem poll_cutShort {trailers : TrailerHint} (h : (bodyPipe W).Reaches (new size trailers) tr s)
    (hcut : CutShort size tr) (hin : s.incoming = some b) (hb : b.consumer = true)
    (hlive : s.next = some .unpolled ∨ s.next = some .awaiting) (w : W) :
    ∃ s' o e, s.step (.pollNext w) = some (s', o) ∧ o.result = some (.error e) := by
  have hinv := inv_of_reaches h
  obtain ⟨hend, hshort⟩ := hcut.spec h
  obtain ⟨-, hlower, hcons, htake⟩ := hinv.reading b hin hb
  have hnone : s.channel.producer = none := by
    by_contra hn
    exact hend (hinv.life.live hn).1
  obtain ⟨t, -, hterm, hactive, -⟩ := hinv.life.gone hnone
  rw [← hactive hcons] at hterm
  obtain ⟨s', o, hpoll, hpolled⟩ := pollNext_spec hinv.sound hcons htake hin hb hlive w
  rcases hpolled with ⟨hopen, -⟩ | ⟨r, hr, ho, -⟩
  · simp [hopen] at hterm
  · obtain ⟨-, rfl⟩ | ⟨frame, -, hslot⟩ := hr
    · rcases b.settle_cases s.channel.state.report with ⟨frame, hf, -⟩ | ⟨-, ⟨e, he⟩ | ⟨hr, hzero, -⟩⟩
      · exact absurd hf (report_ne_frame _ _)
      · exact ⟨s', o, e, hpoll, by rw [ho, he]⟩
      · -- The channel was closed, but the declared bytes are missing.
        have hclosed := hinv.endings_eq hcons hterm
        rw [closed_of_report hterm hr] at hclosed
        have := hshort (by simp [hclosed])
        omega
    · have hfly := hinv.sound.slot_inFlight (by simp [hslot])
      rw [Channel.inFlight, (hinv.sound.producer_gone hnone).1] at hfly
      cases hfly

theorem Ordered.not_frames (h : Ordered size tr true) : ∃ r ∈ results tr, isFrame r = false := by
  obtain ⟨frames, tail, hres, -, ⟨hn, -⟩ | ⟨-, r, k, rfl, hr⟩⟩ := h
  · cases hn
  · refine ⟨r, by simp [hres], ?_⟩
    rcases hr with ⟨e, rfl⟩ | ⟨rfl, -⟩ <;> rfl

theorem Ordered.error_of_cutShort {trailers : TrailerHint} (h : Ordered size tr true)
    (hreach : (bodyPipe W).Reaches (new size trailers) tr s) (hcut : CutShort size tr) :
    ∃ frames, (∀ r ∈ frames, isFrame r = true) ∧
      ∃ e k, results tr = frames ++ .error e :: List.replicate k (.ok none) := by
  obtain ⟨frames, tail, hres, hframes, ⟨hn, -⟩ | ⟨-, r, k, rfl, hr⟩⟩ := h
  · cases hn
  · rcases hr with ⟨e, rfl⟩ | ⟨rfl, hclosed, henough⟩
    · exact ⟨frames, hframes, e, k, hres⟩
    · have hshort := (hcut.spec hreach).2 hclosed
      have hzero := delivered_replicate k
      rw [hres, delivered_append, delivered, hzero] at hshort
      · omega
      · simp

theorem cutShort_results {trailers : TrailerHint} (h : (bodyPipe W).Reaches (new size trailers) tr s)
    (hcut : CutShort size tr) : ∃ frames, (∀ r ∈ frames, isFrame r = true) ∧
      (results tr = frames ∧
        (∀ w, s.next = some .unpolled ∨ s.next = some .awaiting →
          ∃ s' o e, s.step (.pollNext w) = some (s', o) ∧ o.result = some (.error e)) ∨
      (∃ e k, results tr = frames ++ .error e :: List.replicate k (.ok none)) ∧
        (∀ w, s.next = some .unpolled ∨ s.next = some .awaiting →
          ∃ s' o, s.step (.pollNext w) = some (s', o) ∧ o.result = some (.ok none))) := by
  have hinv := inv_of_reaches h
  have hopen (hord : Ordered size tr false) :
      ∃ frames, (∀ r ∈ frames, isFrame r = true) ∧ results tr = frames := by
    obtain ⟨frames, tail, hres, hframes, ⟨-, rfl⟩ | ⟨hn, -⟩⟩ := hord
    · exact ⟨frames, hframes, by simpa using hres⟩
    · cases hn
  cases hin : s.incoming with
  | none =>
    -- The body is gone, and so is every call of `next_frame`.
    obtain ⟨hnext, ended, hord⟩ := hinv.dropped hin
    cases ended with
    | false =>
      obtain ⟨frames, hframes, hres⟩ := hopen hord
      exact ⟨frames, hframes, .inl ⟨hres, fun w hw => by simp [hnext] at hw⟩⟩
    | true =>
      obtain ⟨frames, hframes, herr⟩ := hord.error_of_cutShort h hcut
      exact ⟨frames, hframes, .inr ⟨herr, fun w hw => by simp [hnext] at hw⟩⟩
  | some b =>
    cases hb : b.consumer with
    | true =>
      obtain ⟨frames, hframes, hres⟩ := hopen (hinv.reading b hin hb).1
      exact ⟨frames, hframes, .inl ⟨hres, fun w hw => poll_cutShort h hcut hin hb hw w⟩⟩
    | false =>
      obtain ⟨hord, hnot⟩ := hinv.finished b hin hb
      obtain ⟨frames, hframes, herr⟩ := hord.error_of_cutShort h hcut
      refine ⟨frames, hframes, .inr ⟨herr, fun w hw => ?_⟩⟩
      have hnext : s.next = some .unpolled := by simpa [hnot] using hw
      exact ⟨{ s with next := some .resolved }, ⟨[], some (.ok none)⟩,
        by simp [BodyPipe.step, BodyPipe.pollNext, hin, hnext, hb], rfl⟩

end BodyPipe

open BodyPipe

/-- A truncated body never ends cleanly. The first result of `next_frame` that is not a
frame is `Ok(None)` only after a close and the declared bytes; a body that was cut short
reports one error and then `Ok(None)`; a take has the clean end only after a close, or
once this consumer was told of the failure. -/
theorem clean_end :
    (∀ (W : Type) (size : SizeHint) (trailers : TrailerHint) (tr : List (BodyCall W × BodyOutput W))
      (s : BodyPipe W), (bodyPipe W).Reaches (.new size trailers) tr s →
      (∀ i s' o, s.step i = some (s', o) → o.result = some (.ok none) →
        (∀ r ∈ results tr, isFrame r = true) →
        .closed ∈ endings (pipeTrace tr) ∧ size.lower ≤ delivered (results tr)) ∧
      (CutShort size tr → ∃ frames, (∀ r ∈ frames, isFrame r = true) ∧
        (results tr = frames ∧
          (∀ w, s.next = some .unpolled ∨ s.next = some .awaiting →
            ∃ s' o e, s.step (.pollNext w) = some (s', o) ∧ o.result = some (.error e)) ∨
        (∃ e k, results tr = frames ++ .error e :: List.replicate k (.ok none)) ∧
          (∀ w, s.next = some .unpolled ∨ s.next = some .awaiting →
            ∃ s' o, s.step (.pollNext w) = some (s', o) ∧ o.result = some (.ok none))))) ∧
    (∀ (T E W : Type) (tr : List (PipeCall T E W × PipeOutput T E W)) (c : Channel T E W),
      (pipe T E W).Reaches .new tr c → ∀ i c' o, c.step i = some (c', o) →
        o.event = .took (some (.ok none)) →
        .closed ∈ endings tr ∨ ∃ e, .took (some (.error e)) ∈ tr.map (·.2.event)) := by
  refine ⟨fun W size trailers tr s h => ⟨?_, ?_⟩, ?_⟩
  · intro i s' o hs ho hframes
    have hinv := inv_of_reaches h
    have hpoll : ∃ w, i = .pollNext w := by
      by_contra hn
      push Not at hn
      simp [result_eq_none hs hn] at ho
    obtain ⟨w, rfl⟩ := hpoll
    obtain ⟨b, hin, ⟨hb, hpolled⟩ | ⟨hb, -, -⟩⟩ := hinv.poll_cases hs
    · exact hinv.clean hin hb hpolled ho
    · -- A finished body has returned something else already.
      obtain ⟨r, hr, hnot⟩ := (hinv.finished b hin hb).1.not_frames
      simp [hframes r hr] at hnot
  · exact cutShort_results h
  · intro T E W tr c h i c' o hs ho
    exact took_clean_end h hs ho

/-- Five bytes are promised and the producer is dropped after three. -/
theorem clean_end_sample :
    ∃ tr, ∃ s : BodyPipe Unit,
      (bodyPipe Unit).Reaches (.new (.withExact 5 (by decide)) .none) tr s ∧
      delivered (results tr) = 3 ∧ s.next = some .unpolled ∧
      ∃ s' o e, s.step (.pollNext ()) = some (s', o) ∧ o.result = some (.error e) := by
  have hrun : (bodyPipe Unit).run (.new (.withExact 5 (by decide)) .none)
      [.nextFrame, .pollNext (), .producer (.offer (.data (.bytes [1, 2, 3]))), .producer (.pollProducer ()),
        .pollNext (), .dropNext, .producer (.pollProducer ()), .producer .dropFuture,
        .producer .dropProducer, .nextFrame] = some (_, _) := rfl
  have hreach := Machine.reaches_of_run hrun
  refine ⟨_, _, hreach, rfl, rfl, ?_⟩
  have hcut := (clean_end.1 _ _ _ _ _ hreach).2 (.inl (List.Mem.head _))
  obtain ⟨frames, -, ⟨-, hpoll⟩ | ⟨⟨e, k, hres⟩, -⟩⟩ := hcut
  · exact hpoll () (.inl rfl)
  · have hmem : .error e ∈ frames ++ .error e :: List.replicate k (.ok none) := by simp
    rw [← hres] at hmem
    have hone : .error e ∈ [(.ok (some (.data (.bytes [1, 2, 3]))) : BodyResult)] := hmem
    simp at hone

end Vakya
