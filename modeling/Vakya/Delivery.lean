import Vakya.BodyIo

/-!
# What the receive driver delivers

The frames a body returns are, in order, the payload that the decoder finds on
the wire, whatever the transport, the consumer and the cancellations do.
-/

namespace Vakya

open Library PipeEvent

variable {W : Type}

section Channel

variable {T E : Type} {es : List (PipeEvent T E)} {e : PipeEvent T E} {c c' : Channel T E W}

/-- Nothing was lost: what was passed to an offer was taken, or is on its way. -/
def Balanced (es : List (PipeEvent T E)) (c : Channel T E W) : Prop :=
  es.flatMap taken ++ c.slot ++ c.unpolled = es.flatMap passed

theorem Balanced.step (h : Balanced es c) (he : Channel.Effect c c' e) (hr : e.returned = [])
    (hd : e.dropped = []) : Balanced (es ++ [e]) c' := by
  unfold Balanced at *
  simp only [List.flatMap_append, List.flatMap_singleton]
  match e, he with
  | .offered a, ⟨hslot, hslot', hun, hun', _⟩ =>
    rw [hslot, hun] at h
    simp [taken, passed, hslot', hun', ← h]
  | .offer (some a) none, ⟨hslot, hslot', hun, hun', _⟩ =>
    rw [hslot, hun] at h
    simp [taken, passed, hslot', hun', ← h]
  | .offer (some a) (some r), ⟨_, _, _, _, _, hret⟩ =>
    rcases hret with rfl | rfl <;> cases hr
  | .offer none (some (.ok ())), ⟨_, hslot, hslot', hun, hun', _⟩ =>
    rw [hslot, hun] at h
    simp [taken, passed, hslot', hun', ← h]
  | .offer none (some (.error x)), ⟨_, _, _, _, _, a, hx, _⟩ =>
    subst hx
    cases hr
  | .took (some (.ok (some a))), ⟨hslot, hslot', hun, _⟩ =>
    rw [hslot] at h
    simp [taken, passed, hslot', hun, ← h]
  | .released a, _ => cases hd
  | .quiet, ⟨hslot, hun, _⟩ | .demand _, ⟨hslot, hun, _⟩ | .abandoned _, ⟨hslot, hun, _⟩
  | .offer none none, ⟨hslot, hun, _⟩ | .took none, ⟨hslot, hun, _⟩
  | .took (some (.error _)), ⟨hslot, hun, _⟩ | .took (some (.ok none)), ⟨hslot, hun, _⟩ =>
    simpa [taken, passed, hslot, hun] using h

namespace Channel

theorem step_consumer {i : PipeCall T E W} {o : PipeOutput T E W} (hi : i.isProducer = false)
    (hs : c.step i = some (c', o)) : c'.producer = c.producer ∧ c'.producing = c.producing ∧
      o.event.passed = [] ∧ o.event.returned = [] ∧ o.event.dropped = [] := by
  have of_eq {r : Channel T E W × PipeOutput T E W} (hr : some r = some (c', o))
      (hkeep : r.1.producer = c.producer ∧ r.1.producing = c.producing ∧ r.2.event.passed = [] ∧
        r.2.event.returned = [] ∧ r.2.event.dropped = []) :
      c'.producer = c.producer ∧ c'.producing = c.producing ∧
      o.event.passed = [] ∧ o.event.returned = [] ∧ o.event.dropped = [] := by
    rw [Option.some.inj hr] at hkeep
    exact hkeep
  cases i with
  | take | dropTake =>
    simp only [step] at hs
    split_ifs at hs
    exact of_eq hs ⟨rfl, rfl, rfl, rfl, rfl⟩
  | pollTake w =>
    simp only [step] at hs
    split_ifs at hs
    refine of_eq hs ?_
    unfold pollTake
    cases c.state <;> exact ⟨rfl, rfl, rfl, rfl, rfl⟩
  | dropConsumer =>
    simp only [step] at hs
    split_ifs at hs
    refine of_eq hs ?_
    unfold dropConsumer
    split_ifs
    · exact ⟨rfl, rfl, rfl, rfl, rfl⟩
    · cases c.state <;> exact ⟨rfl, rfl, rfl, rfl, rfl⟩
  | _ => cases hi

theorem items_of_step {i : PipeCall T E W} {o : PipeOutput T E W} (hs : c.step i = some (c', o)) :
    ((∀ a, i ≠ .offer a) → o.event.passed = []) ∧ ((∀ w, i ≠ .pollTake w) → o.event.taken = []) := by
  have of_eq {r : Channel T E W × PipeOutput T E W} (hr : some r = some (c', o))
      (hkeep : r.2.event.passed = [] ∧ r.2.event.taken = []) :
      ((∀ a, i ≠ .offer a) → o.event.passed = []) ∧ ((∀ w, i ≠ .pollTake w) → o.event.taken = []) := by
    rw [Option.some.inj hr] at hkeep
    exact ⟨fun _ => hkeep.1, fun _ => hkeep.2⟩
  have finish_quiet (c : Channel T E W) (t : PipeState T E) :
      (c.finish t).2.event.passed = [] ∧ (c.finish t).2.event.taken = [] := by
    unfold finish
    split_ifs
    · exact ⟨rfl, rfl⟩
    · cases c.state <;> exact ⟨rfl, rfl⟩
  cases i with
  | offer a =>
    refine ⟨fun hi => absurd rfl (hi a), fun _ => ?_⟩
    simp only [step] at hs
    split_ifs at hs
    cases hs
    rfl
  | pollTake w =>
    refine ⟨fun _ => ?_, fun hi => absurd rfl (hi w)⟩
    exact (step_consumer rfl hs).2.2.1
  | demand | abandoned | take | dropTake =>
    simp only [step] at hs
    split_ifs at hs
    exact of_eq hs ⟨rfl, rfl⟩
  | pollProducer w =>
    simp only [step] at hs
    split at hs
    · refine of_eq hs ?_
      unfold pollDemand
      cases c.state <;> exact ⟨rfl, rfl⟩
    · refine of_eq hs ?_
      unfold submit
      cases c.state <;> exact ⟨rfl, rfl⟩
    · refine of_eq hs ?_
      unfold resume
      rcases c.state with _ | _ | _ | _ | _ | _ | (_ | _) <;> exact ⟨rfl, rfl⟩
    · refine of_eq hs ?_
      unfold pollAbandoned
      split_ifs <;> exact ⟨rfl, rfl⟩
    · cases hs
  | dropFuture =>
    simp only [step] at hs
    split at hs
    · refine of_eq hs ?_
      unfold dropOffer
      split
      · exact ⟨rfl, rfl⟩
      · rcases c.state with _ | _ | _ | _ | _ | _ | (_ | _) <;> exact ⟨rfl, rfl⟩
    · exact of_eq hs ⟨rfl, rfl⟩
    · cases hs
  | close =>
    simp only [step] at hs
    split_ifs at hs
    exact of_eq hs (finish_quiet c _)
  | fail error =>
    simp only [step] at hs
    split_ifs at hs
    exact of_eq hs (finish_quiet c _)
  | dropProducer =>
    simp only [step] at hs
    split_ifs at hs
    refine of_eq hs ?_
    unfold dropProducer
    split_ifs
    · exact finish_quiet c _
    · exact ⟨rfl, rfl⟩
  | dropConsumer =>
    simp only [step] at hs
    split_ifs at hs
    refine of_eq hs ?_
    unfold dropConsumer
    split_ifs
    · exact ⟨rfl, rfl⟩
    · cases c.state <;> exact ⟨rfl, rfl⟩

theorem passed_eq_nil {i : PipeCall T E W} {o : PipeOutput T E W} (hi : ∀ a, i ≠ .offer a)
    (hs : c.step i = some (c', o)) : o.event.passed = [] :=
  (items_of_step hs).1 hi

theorem taken_eq_nil {i : PipeCall T E W} {o : PipeOutput T E W} (hi : ∀ w, i ≠ .pollTake w)
    (hs : c.step i = some (c', o)) : o.event.taken = [] :=
  (items_of_step hs).2 hi

end Channel

end Channel

/-- The frames among the results of `next_frame`. -/
def framesOf (rs : List BodyResult) : List (Frame IncomingData) :=
  rs.filterMap fun
    | .ok (some frame) => some frame
    | _ => none

theorem framesOf_append (rs rs' : List BodyResult) :
    framesOf (rs ++ rs') = framesOf rs ++ framesOf rs' := by
  simp [framesOf]

def takenBy (calls : List (BodyPipeCall W × BodyPipeOutput W)) : List (Frame IncomingData) :=
  calls.flatMap (·.2.event.taken)

def passedBy (calls : List (BodyPipeCall W × BodyPipeOutput W)) : List (Frame IncomingData) :=
  calls.flatMap (·.2.event.passed)

namespace BodyPipe

variable {s s' : BodyPipe W} {b : Incoming} {i : BodyCall W} {o : BodyOutput W} {size : SizeHint}
  {tr : List (BodyCall W × BodyOutput W)}

theorem step_producer_eq {call : BodyPipeCall W} (hc : call.isProducer = true) {c : BodyChannel W}
    {out : BodyPipeOutput W} (h : s.channel.step call = some (c, out)) :
    s.step (.producer call) = some ({ s with channel := c }, ⟨[(call, out)], none⟩) := by
  simp [step, hc, perform, pipe, Machine.run, h]

theorem perform_taken {calls : List (BodyPipeCall W)} {out : List (BodyPipeCall W × BodyPipeOutput W)}
    (h : s.perform calls = some (s', out)) (hcalls : ∀ w, .pollTake w ∉ calls) : takenBy out = [] := by
  obtain ⟨⟨tr', c⟩, hrun, heq⟩ := Option.map_eq_some_iff.mp h
  cases heq
  have hreach := Machine.reaches_of_run hrun
  have hinputs := Machine.run_inputs hrun
  -- Along the run, as long as its calls are among `calls`.
  have hall : (∀ y ∈ out, y.1 ∈ calls) → takenBy out = [] := by
    refine hreach.invariant (P := fun tr _ => (∀ y ∈ tr, y.1 ∈ calls) → takenBy tr = []) (fun _ => rfl) ?_
    intro tr c i c' o ih hs hmem
    have hlast : o.event.taken = [] := by
      apply Channel.taken_eq_nil _ hs
      rintro w rfl
      exact hcalls w (hmem (.pollTake w, o) (by simp))
    have hprev := ih fun y hy => hmem y (by simp [hy])
    simp only [takenBy, List.flatMap_append, List.flatMap_singleton, hlast, List.append_nil] at hprev ⊢
    exact hprev
  apply hall
  intro y hy
  rw [← hinputs]
  exact List.mem_map_of_mem hy

/-- What a `Take` may resolve to: the end of the channel, or a frame. -/
def Resolves (state : PipeState (Frame IncomingData) Error)
    (r : Except (TakeError Error) (Option (Frame IncomingData))) : Prop :=
  state.isTerminal = true ∧ r = state.report ∨ ∃ frame, r = .ok (some frame)

theorem resolves_of_pollTake {c : BodyChannel W} {w : W}
    {r : Except (TakeError Error) (Option (Frame IncomingData))}
    (h : (c.pollTake w).2.event = .took (some r)) : Resolves c.state r := by
  unfold Channel.pollTake at h
  cases hstate : c.state with
  | offered item =>
    simp only [hstate] at h
    cases h
    exact .inr ⟨item, rfl⟩
  | closed | failed e | disconnected =>
    simp only [hstate] at h
    cases h
    exact .inl ⟨rfl, rfl⟩
  | idle | demanded | abandoned item =>
    simp only [hstate] at h
    cases h

theorem awaitTake_taken {w : W} (h : s.awaitTake b w = some (s', o)) :
    (o.result = none ∧ takenBy o.calls = [] ∧ s'.incoming = s.incoming) ∨
    ∃ r, Resolves s.channel.state r ∧ o.result = some (b.settle r).2 ∧ s'.incoming = some (b.settle r).1 ∧
      takenBy o.calls = (.took (some r) : PipeEvent (Frame IncomingData) Error).taken := by
  unfold awaitTake at h
  split at h
  · cases h
  · rename_i c out hpoll
    split at h
    · rename_i r he
      obtain ⟨⟨s₁, o₁⟩, hres, heq⟩ := Option.map_eq_some_iff.mp h
      cases heq
      unfold resolve at hres
      obtain ⟨⟨s₂, calls⟩, hperf, heq⟩ := Option.map_eq_some_iff.mp hres
      cases heq
      have hnone := perform_taken hperf (by intro w; split_ifs <;> simp)
      obtain ⟨⟨tr', c'⟩, -, heq⟩ := Option.map_eq_some_iff.mp hperf
      cases heq
      refine .inr ⟨r, ?_, rfl, rfl, ?_⟩
      · simp only [Channel.step] at hpoll
        split_ifs at hpoll
        rw [← (Prod.mk.inj (Option.some.inj hpoll)).2] at he
        exact resolves_of_pollTake he
      simp only [takenBy, List.flatMap_cons, he] at hnone ⊢
      rw [hnone, List.append_nil]
    · rename_i he
      cases h
      refine .inl ⟨rfl, ?_, rfl⟩
      simp only [takenBy, List.flatMap_cons, List.flatMap_nil, List.append_nil]
      cases hev : out.event with
      | took r =>
        cases r with
        | some r => exact absurd hev (he r)
        | none => rfl
      | _ => rfl

theorem Inv.pollNext_taken (hinv : Inv size tr s) {w : W} (h : s.pollNext w = some (s', o)) :
    (o.result = none ∧ takenBy o.calls = [] ∧ (s'.incoming = s.incoming ∨ s'.incoming = none)) ∨
    (o.result = some (.ok none) ∧ takenBy o.calls = [] ∧ s'.incoming = s.incoming ∧
      ∃ b, s.incoming = some b ∧ b.consumer = false) ∨
    ∃ b r, s.incoming = some b ∧ b.consumer = true ∧ Resolves s.channel.state r ∧
      o.result = some (b.settle r).2 ∧ s'.incoming = some (b.settle r).1 ∧
      takenBy o.calls = (.took (some r) : PipeEvent (Frame IncomingData) Error).taken := by
  simp only [BodyPipe.pollNext] at h
  split at h
  · rename_i b hin hnext
    split_ifs at h with hb
    · split at h
      · cases h
      · rename_i c out htake
        obtain ⟨⟨s₁, o₁⟩, hawait, heq⟩ := Option.map_eq_some_iff.mp h
        cases heq
        have hnone : out.event.taken = [] := Channel.taken_eq_nil (by simp) htake
        rcases awaitTake_taken hawait with ⟨hres, htaken, hin'⟩ | ⟨r, hr, hres, hin', htaken⟩
        · refine .inl ⟨hres, ?_, .inl hin'⟩
          simpa [takenBy, hnone] using htaken
        · have hstate : c.state = s.channel.state := by
            simp only [Channel.step] at htake
            split_ifs at htake
            cases htake
            rfl
          refine .inr (.inr ⟨b, r, hin, hb, hstate ▸ hr, hres, hin', ?_⟩)
          simpa [takenBy, hnone] using htaken
    · cases h
      exact .inr (.inl ⟨rfl, rfl, rfl, b, hin, by simpa using hb⟩)
  · rename_i b hin hnext
    have hb : b.consumer = true := by
      by_contra hn
      exact (hinv.finished b hin (by simpa using hn)).2 hnext
    rcases awaitTake_taken h with ⟨hres, htaken, hin'⟩ | ⟨r, hr, hres, hin', htaken⟩
    · exact .inl ⟨hres, htaken, .inl hin'⟩
    · exact .inr (.inr ⟨b, r, hin, hb, hr, hres, hin', htaken⟩)
  · cases h

/-- One step: the body returns the frame that it took, unless the frame violates what the
head promised, and then the body is finished. -/
theorem Inv.step_taken (hinv : Inv size tr s) (h : s.step i = some (s', o)) :
    (o.result = none ∧ takenBy o.calls = [] ∧ (s'.incoming = s.incoming ∨ s'.incoming = none)) ∨
    (o.result = some (.ok none) ∧ takenBy o.calls = [] ∧ s'.incoming = s.incoming ∧
      ∃ b, s.incoming = some b ∧ b.consumer = false) ∨
    ∃ b r, s.incoming = some b ∧ b.consumer = true ∧ Resolves s.channel.state r ∧
      o.result = some (b.settle r).2 ∧ s'.incoming = some (b.settle r).1 ∧
      takenBy o.calls = (.took (some r) : PipeEvent (Frame IncomingData) Error).taken := by
  have quiet {p p' : BodyPipe W} {calls : List (BodyPipeCall W)}
      {out : List (BodyPipeCall W × BodyPipeOutput W)} (hperf : p.perform calls = some (p', out))
      (hcalls : ∀ w, .pollTake w ∉ calls) : takenBy out = [] ∧ p'.incoming = p.incoming := by
    refine ⟨perform_taken hperf hcalls, ?_⟩
    obtain ⟨⟨tr', c⟩, -, heq⟩ := Option.map_eq_some_iff.mp hperf
    cases heq
    rfl
  cases i with
  | producer call =>
    simp only [BodyPipe.step] at h
    split_ifs at h with hcall
    obtain ⟨⟨s₁, calls⟩, hperf, heq⟩ := Option.map_eq_some_iff.mp h
    cases heq
    obtain ⟨htaken, hin⟩ := quiet hperf (by rintro w hmem; simp at hmem; simp [← hmem, PipeCall.isProducer] at hcall)
    exact .inl ⟨rfl, htaken, .inl hin⟩
  | nextFrame =>
    simp only [BodyPipe.step] at h
    split_ifs at h
    cases h
    exact .inl ⟨rfl, rfl, .inl rfl⟩
  | pollNext w => exact hinv.pollNext_taken h
  | dropNext =>
    simp only [BodyPipe.step, BodyPipe.dropNext] at h
    split at h
    · cases h
    · obtain ⟨⟨s₁, calls⟩, hperf, heq⟩ := Option.map_eq_some_iff.mp h
      cases heq
      obtain ⟨htaken, hin⟩ := quiet hperf (by simp)
      exact .inl ⟨rfl, htaken, .inl hin⟩
    · cases h
      exact .inl ⟨rfl, rfl, .inl rfl⟩
  | dropIncoming =>
    simp only [BodyPipe.step, BodyPipe.dropIncoming] at h
    split at h
    · obtain ⟨⟨s₁, calls⟩, hperf, heq⟩ := Option.map_eq_some_iff.mp h
      cases heq
      obtain ⟨htaken, hin⟩ := quiet hperf (by intro w; split_ifs <;> simp)
      exact .inl ⟨rfl, htaken, .inr hin⟩
    · cases h
  | drainBudget bytes allowance =>
    simp only [BodyPipe.step] at h
    split at h
    · cases h
      split_ifs <;> exact .inl ⟨rfl, rfl, .inl rfl⟩
    · cases h
  | chargeDrain bytes payload =>
    simp only [BodyPipe.step] at h
    split at h <;> cases h <;> exact .inl ⟨rfl, rfl, .inl rfl⟩

theorem framesOf_results {trailers : TrailerHint} (h : (bodyPipe W).Reaches (new size trailers) tr s) :
    framesOf (results tr) <+: takenBy (pipeTrace tr) ∧
      ∀ b, s.incoming = some b → b.consumer = true →
        framesOf (results tr) = takenBy (pipeTrace tr) := by
  have hboth : Inv size tr s ∧ framesOf (results tr) <+: takenBy (pipeTrace tr) ∧
      ∀ b, s.incoming = some b → b.consumer = true →
        framesOf (results tr) = takenBy (pipeTrace tr) := by
    have hfirst : Inv size [] (new size trailers : BodyPipe W) :=
      inv_of_reaches (s := new size trailers) .start
    refine h.invariant (P := fun tr s => Inv size tr s ∧
      framesOf (results tr) <+: takenBy (pipeTrace tr) ∧ ∀ b, s.incoming = some b →
        b.consumer = true → framesOf (results tr) = takenBy (pipeTrace tr))
      ⟨hfirst, ⟨[], rfl⟩, fun _ _ _ => rfl⟩ ?_
    rintro tr s i s' o ⟨hinv, hpre, heq⟩ hs
    refine ⟨hinv.step hs, ?_⟩
    rw [results_append, framesOf_append, pipeTrace_append, takenBy, List.flatMap_append]
    rcases hinv.step_taken hs with ⟨hres, htaken, hin⟩ | ⟨hres, htaken, hin, b, hb, hc⟩ |
      ⟨b, r, hin, hb, -, hres, hin', htaken⟩
    · rw [takenBy] at htaken
      rw [hres, htaken]
      simp only [Option.toList_none, framesOf, List.filterMap_nil, List.append_nil]
      refine ⟨hpre, fun b' hb' hc' => ?_⟩
      rcases hin with hin | hin
      · exact heq b' (hin ▸ hb') hc'
      · simp [hin] at hb'
    · rw [takenBy] at htaken
      rw [hres, htaken]
      simp only [Option.toList_some, framesOf, List.filterMap_cons, List.filterMap_nil, List.append_nil]
      refine ⟨hpre, fun b' hb' hc' => ?_⟩
      rw [hin, hb, Option.some.injEq] at hb'
      simp [← hb', hc] at hc'
    · rw [takenBy] at htaken
      have hsame := heq b hin hb
      rw [hres, htaken, hsame]
      rcases b.settle_cases r with ⟨frame, rfl, hf, -⟩ | ⟨hfalse, hother⟩
      · rw [hf]
        exact ⟨⟨[], by simp [framesOf, taken, takenBy]⟩, fun _ _ _ => by simp [framesOf, taken, takenBy]⟩
      · have hnone : framesOf (some (b.settle r).2).toList = [] := by
          rcases hother with ⟨e, he⟩ | ⟨-, -, he⟩ <;> simp [framesOf, he]
        rw [hnone, List.append_nil]
        refine ⟨List.prefix_append _ _, fun b' hb' hc' => ?_⟩
        rw [hin', Option.some.injEq] at hb'
        simp [← hb', hfalse] at hc'
  exact hboth.2

theorem perform_consumer {calls : List (BodyPipeCall W)}
    {out : List (BodyPipeCall W × BodyPipeOutput W)} (h : s.perform calls = some (s', out))
    (hcalls : ∀ call ∈ calls, call.isProducer = false) : ∀ y ∈ out, y.1.isProducer = false := by
  obtain ⟨⟨tr', c⟩, hrun, heq⟩ := Option.map_eq_some_iff.mp h
  cases heq
  have hinputs := Machine.run_inputs hrun
  intro y hy
  apply hcalls
  rw [← hinputs]
  exact List.mem_map_of_mem hy

theorem awaitTake_consumer {w : W} (h : s.awaitTake b w = some (s', o)) :
    ∀ y ∈ o.calls, y.1.isProducer = false := by
  unfold awaitTake at h
  split at h
  · cases h
  · split at h
    · obtain ⟨⟨s₁, o₁⟩, hres, heq⟩ := Option.map_eq_some_iff.mp h
      cases heq
      unfold resolve at hres
      obtain ⟨⟨s₂, calls⟩, hperf, heq⟩ := Option.map_eq_some_iff.mp hres
      cases heq
      have hrest := perform_consumer hperf (by split_ifs <;> simp [PipeCall.isProducer])
      intro y hy
      rcases List.mem_cons.mp hy with rfl | hy
      · rfl
      · exact hrest y hy
    · cases h
      simp [PipeCall.isProducer]

theorem step_consumer (h : s.step i = some (s', o)) (hi : i.isBody = true) :
    ∀ y ∈ o.calls, y.1.isProducer = false := by
  cases i with
  | producer call | chargeDrain bytes payload => cases hi
  | nextFrame =>
    simp only [step] at h
    split_ifs at h
    cases h
    simp
  | pollNext w =>
    simp only [step, pollNext] at h
    split at h
    · split_ifs at h
      · split at h
        · cases h
        · obtain ⟨⟨s₁, o₁⟩, hawait, heq⟩ := Option.map_eq_some_iff.mp h
          cases heq
          have hrest := awaitTake_consumer hawait
          intro y hy
          rcases List.mem_cons.mp hy with rfl | hy
          · rfl
          · exact hrest y hy
      · cases h
        simp
    · exact awaitTake_consumer h
    · cases h
  | dropNext =>
    simp only [step, dropNext] at h
    split at h
    · cases h
    · obtain ⟨⟨s₁, calls⟩, hperf, heq⟩ := Option.map_eq_some_iff.mp h
      cases heq
      exact perform_consumer hperf (by simp [PipeCall.isProducer])
    · cases h
      simp
  | dropIncoming =>
    simp only [step, dropIncoming] at h
    split at h
    · obtain ⟨⟨s₁, calls⟩, hperf, heq⟩ := Option.map_eq_some_iff.mp h
      cases heq
      exact perform_consumer hperf (by split_ifs <;> simp [PipeCall.isProducer])
    · cases h
  | drainBudget bytes allowance =>
    simp only [step] at h
    split at h
    · cases h
      simp
    · cases h

/-- The frames passed and taken, seen from the driver: its body keeps the books, and leaves
the producer and the future that borrows it alone. -/
theorem body_keeps (tr : List (BodyPipeCall W × BodyPipeOutput W)) (hsound : s.channel.Sound)
    (h : s.step i = some (s', o)) (hi : i.isBody = true) :
    s'.channel.producer = s.channel.producer ∧ s'.channel.producing = s.channel.producing ∧
      passedBy o.calls = [] ∧ endings o.calls = [] ∧
      (Balanced (tr.map (·.2.event)) s.channel →
        Balanced ((tr ++ o.calls).map (·.2.event)) s'.channel) := by
  have hcons := step_consumer h hi
  have hrun := step_reaches h
  have hall : s'.channel.Sound ∧ ((∀ y ∈ o.calls, y.1.isProducer = false) →
      s'.channel.producer = s.channel.producer ∧ s'.channel.producing = s.channel.producing ∧
      passedBy o.calls = [] ∧ endings o.calls = [] ∧
      (Balanced (tr.map (·.2.event)) s.channel →
        Balanced ((tr ++ o.calls).map (·.2.event)) s'.channel)) := by
    refine hrun.invariant (P := fun calls c => c.Sound ∧ ((∀ y ∈ calls, y.1.isProducer = false) →
      c.producer = s.channel.producer ∧ c.producing = s.channel.producing ∧
      passedBy calls = [] ∧ endings calls = [] ∧ (Balanced (tr.map (·.2.event)) s.channel →
        Balanced ((tr ++ calls).map (·.2.event)) c))) ⟨hsound, fun _ =>
        ⟨rfl, rfl, rfl, rfl, fun hb => by simpa using hb⟩⟩ ?_
    rintro calls c i c' out ⟨hs, ih⟩ hstep
    obtain ⟨hs', heffect⟩ := hs.step_spec hstep
    refine ⟨hs', fun hmem => ?_⟩
    obtain ⟨hp, hf, hpassed, hend, hbal⟩ := ih fun y hy => hmem y (by simp [hy])
    have hi : i.isProducer = false := hmem (i, out) (by simp)
    obtain ⟨hp', hf', hnone, hret, hdrop⟩ := Channel.step_consumer hi hstep
    have hending : i.ending = none := by
      cases i <;> first | rfl | cases hi
    refine ⟨hp'.trans hp, hf'.trans hf, ?_, ?_, fun hb => ?_⟩
    · simpa [passedBy, hnone] using hpassed
    · simpa [endings, hending] using hend
    · rw [← List.append_assoc, List.map_append]
      exact (hbal hb).step heffect hret hdrop
  exact hall.2 hcons

theorem taken_of_gone {c c' : BodyChannel W} {calls : List (BodyPipeCall W × BodyPipeOutput W)}
    (hrun : (pipe _ _ W).Reaches c calls c') (hsound : c.Sound) (hgone : c.producer = none) :
    takenBy calls = [] := by
  have hall : c'.Sound ∧ c'.producer = none ∧ takenBy calls = [] := by
    refine hrun.invariant (P := fun calls c => c.Sound ∧ c.producer = none ∧ takenBy calls = [])
      ⟨hsound, hgone, rfl⟩ ?_
    rintro calls c i c' o ⟨hsound, hgone, htaken⟩ hs
    obtain ⟨hsound', heffect⟩ := hsound.step_spec hs
    have hgone' : c'.producer = none := by
      rcases hsound.step_turn hs with ⟨-, -, hlive, -⟩ | ⟨-, hp, -⟩ | ⟨-, hp, -⟩
      · exact absurd hgone hlive
      · exact hp.trans hgone
      · exact hp.trans hgone
    refine ⟨hsound', hgone', ?_⟩
    have hnone : o.event.taken = [] := by
      by_contra hsome
      match he : o.event with
      | .took (some (.ok (some a))) =>
        -- The slot would hold a frame in flight, and its offer borrows the producer.
        rw [he] at heffect
        have hfly := hsound.slot_inFlight (by simp [heffect.1])
        rw [Channel.inFlight, (hsound.producer_gone hgone).1] at hfly
        cases hfly
      | .took none | .took (some (.ok none)) | .took (some (.error _)) | .quiet | .offered _ | .demand _
      | .offer _ _ | .abandoned _ | .released _ | .panicked =>
        rw [he] at hsome
        exact hsome rfl
    simp only [takenBy, List.flatMap_append, List.flatMap_singleton, hnone, List.append_nil] at htaken ⊢
    exact htaken
  exact hall.2.2

end BodyPipe

end Vakya
