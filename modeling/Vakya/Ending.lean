import Vakya.Rendezvous

/-!
# How a channel ends

A channel ends once, by `close`, by `fail` or by dropping its producer, and
its consumer is told which.
-/

namespace Vakya

open Library

variable {T E W : Type}

def PipeCall.ending : PipeCall T E W → Option (PipeState T E)
  | .close => some .closed
  | .fail error => some (.failed error)
  | .dropProducer => some .disconnected
  | _ => none

def PipeState.report : PipeState T E → Except (TakeError E) (Option T)
  | .failed error => .error (.failed error)
  | .disconnected => .error .disconnected
  | _ => .ok none

theorem PipeCall.isTerminal_of_ending {i : PipeCall T E W} {t : PipeState T E}
    (h : i.ending = some t) : t.isTerminal = true := by
  cases i <;> simp only [ending, Option.some.injEq, reduceCtorEq] at h <;> subst h <;> rfl

theorem report_ne_frame (t : PipeState T E) (a : T) : t.report ≠ .ok (some a) := by
  cases t <;> simp [PipeState.report]

theorem closed_of_report {t : PipeState T E} (hterm : t.isTerminal = true)
    (hr : t.report = .ok none) : t = .closed := by
  cases t <;> simp_all [PipeState.isTerminal, PipeState.report]

namespace Channel

variable {c c' : Channel T E W}

/-- The operations as far as the two endpoints and the end of the channel go. -/
def Turn (c c' : Channel T E W) (i : PipeCall T E W) (e : PipeEvent T E) : Prop :=
  (∃ t, i.ending = some t ∧ c.producer ≠ none ∧ c'.producer = none ∧ c'.consumer = c.consumer ∧
    (c.isAbandoned = false → c'.state = t) ∧ e = .quiet) ∨
  (i.ending = none ∧ c'.producer = c.producer ∧ c.state.isTerminal = true ∧ c'.state = .closed ∧
    c.consumer ≠ none ∧ c'.consumer = some .complete ∧ e = .took (some c.state.report)) ∨
  (i.ending = none ∧ c'.producer = c.producer ∧ (c'.consumer = c.consumer ∨ c'.consumer = none) ∧
    (c.state.isTerminal = true → c'.state = c.state) ∧
    (∀ r, e = .took (some r) → ∃ a, r = .ok (some a)))

theorem ended_turn (hf : c.producerFree = true) {i : PipeCall T E W} {t : PipeState T E}
    (hi : i.ending = some t) : Turn c (c.ended t).1 i (c.ended t).2.event := by
  have hp : c.producer ≠ none := by
    simp only [producerFree, Bool.and_eq_true, Option.isSome_iff_ne_none] at hf
    exact hf.1
  unfold ended
  split_ifs with ha
  · exact .inl ⟨t, hi, hp, rfl, rfl, by simp [ha], rfl⟩
  · exact .inl ⟨t, hi, hp, rfl, rfl, fun _ => rfl, rfl⟩

theorem pollTake_turn (hlive : c.consumer ≠ none) (w : W) :
    Turn c (c.pollTake w).1 (.pollTake w) (c.pollTake w).2.event := by
  rcases c with ⟨state, pw, cw, p, q, f, t⟩
  cases state with
  | closed => exact .inr (.inl ⟨rfl, rfl, rfl, rfl, hlive, rfl, rfl⟩)
  | disconnected => exact .inr (.inl ⟨rfl, rfl, rfl, rfl, hlive, rfl, rfl⟩)
  | failed e => exact .inr (.inl ⟨rfl, rfl, rfl, rfl, hlive, rfl, rfl⟩)
  | offered a =>
    exact .inr (.inr ⟨rfl, rfl, .inl rfl, fun h => (by cases h), fun r hr => ⟨a, by cases hr; rfl⟩⟩)
  | _ => exact .inr (.inr ⟨rfl, rfl, .inl rfl, fun h => (by cases h), fun r hr => (by cases hr)⟩)

theorem pollTake_active (hc : c.consumer = some .active) (hab : c.isAbandoned = false) (w : W) :
    (c.state.isTerminal = false ∧ c.slot = [] ∧ (c.pollTake w).2.event = .took none ∧
      (c.pollTake w).1.consumer = some .active ∧ (c.pollTake w).1.taking = c.taking) ∨
    ∃ r, (c.pollTake w).2.event = .took (some r) ∧ (c.pollTake w).1.taking = some true ∧
      (c.pollTake w).1.consumer ≠ none ∧
      (c.state.isTerminal = true ∧ r = c.state.report ∨
        ∃ a, r = .ok (some a) ∧ c.slot = [a] ∧ (c.pollTake w).1.consumer = some .active) := by
  rcases c with ⟨state, pw, cw, p, q, f, t⟩
  obtain rfl : q = some .active := hc
  cases state with
  | idle => exact .inl ⟨rfl, rfl, rfl, rfl, rfl⟩
  | demanded => exact .inl ⟨rfl, rfl, rfl, rfl, rfl⟩
  | offered a => exact .inr ⟨_, rfl, rfl, by simp [pollTake], .inr ⟨a, rfl, rfl, rfl⟩⟩
  | abandoned item => simp [isAbandoned] at hab
  | closed => exact .inr ⟨_, rfl, rfl, by simp [pollTake], .inl ⟨rfl, rfl⟩⟩
  | disconnected => exact .inr ⟨_, rfl, rfl, by simp [pollTake], .inl ⟨rfl, rfl⟩⟩
  | failed e => exact .inr ⟨_, rfl, rfl, by simp [pollTake], .inl ⟨rfl, rfl⟩⟩

theorem dropConsumer_turn : Turn c c.dropConsumer.1 .dropConsumer c.dropConsumer.2.event := by
  unfold dropConsumer
  split_ifs
  · exact .inr (.inr ⟨rfl, rfl, .inr rfl, fun _ => rfl, fun r hr => (by cases hr)⟩)
  rcases c with ⟨state, pw, cw, p, q, f, t⟩
  cases state <;>
    exact .inr (.inr ⟨rfl, rfl, .inr rfl, fun h => (by first | rfl | cases h), fun _ hr => (by cases hr)⟩)

/-- Polls and destructors of the producer's futures leave both endpoints alone. -/
def Minor (c c' : Channel T E W) (e : PipeEvent T E) : Prop :=
  c'.producer = c.producer ∧ (c'.consumer = c.consumer ∧ c'.taking = c.taking) ∧
    (c.state.isTerminal = true → c'.state = c.state) ∧ ∀ r, e ≠ .took r

theorem Minor.turn {i : PipeCall T E W} {e : PipeEvent T E} (h : Minor c c' e)
    (hi : i.ending = none) : Turn c c' i e :=
  .inr (.inr ⟨hi, h.1, .inl h.2.1.1, h.2.2.1, fun _ hr => absurd hr (h.2.2.2 _)⟩)

theorem minor_of_state {e : PipeEvent T E} (hp : c'.producer = c.producer)
    (hc : c'.consumer = c.consumer) (ht : c'.taking = c.taking) (hs : c'.state = c.state)
    (he : ∀ r, e ≠ .took r) : Minor c c' e :=
  ⟨hp, ⟨hc, ht⟩, fun _ => hs, he⟩

theorem pollDemand_minor (w : W) : Minor c (c.pollDemand w).1 (c.pollDemand w).2.event := by
  rcases c with ⟨state, pw, cw, p, q, f, t⟩
  cases state <;> exact minor_of_state rfl rfl rfl rfl (by simp [pollDemand])

theorem pollAbandoned_minor (w : W) : Minor c (c.pollAbandoned w).1 (c.pollAbandoned w).2.event := by
  unfold pollAbandoned
  split_ifs <;> exact minor_of_state rfl rfl rfl rfl (by simp)

theorem submit_minor (item : T) (w : W) :
    Minor c (c.submit item w).1 (c.submit item w).2.event := by
  rcases c with ⟨state, pw, cw, p, q, f, t⟩
  cases state <;> exact ⟨rfl, ⟨rfl, rfl⟩, fun h => (by first | rfl | cases h), by simp [submit]⟩

theorem resume_minor (w : W) : Minor c (c.resume w).1 (c.resume w).2.event := by
  rcases c with ⟨state, pw, cw, p, q, f, t⟩
  cases state with
  | abandoned item =>
    cases item <;> exact ⟨rfl, ⟨rfl, rfl⟩, fun h => (by cases h), by simp [resume]⟩
  | _ => exact ⟨rfl, ⟨rfl, rfl⟩, fun _ => rfl, by simp [resume]⟩

theorem dropOffer_minor (lifecycle : OfferLifecycle T) :
    Minor c (c.dropOffer lifecycle).1 (c.dropOffer lifecycle).2.event := by
  rcases c with ⟨state, pw, cw, p, q, f, t⟩
  cases lifecycle with
  | pending item => exact minor_of_state rfl rfl rfl rfl (by simp [dropOffer])
  | submitted =>
    cases state with
    | abandoned item =>
      cases item <;> exact ⟨rfl, ⟨rfl, rfl⟩, fun h => (by cases h), by simp [dropOffer]⟩
    | _ => exact ⟨rfl, ⟨rfl, rfl⟩, fun h => (by first | rfl | cases h), by simp [dropOffer]⟩

theorem Sound.step_turn (h : c.Sound) {i : PipeCall T E W} {o : PipeOutput T E W}
    (hs : c.step i = some (c', o)) : Turn c c' i o.event := by
  have of_eq {r : Channel T E W × PipeOutput T E W} (hr : some r = some (c', o))
      (hturn : Turn c r.1 i r.2.event) : Turn c c' i o.event := by
    rw [Option.some.inj hr] at hturn
    exact hturn
  cases i with
  | demand | abandoned | offer item | take | dropTake =>
    simp only [step] at hs
    split_ifs at hs
    exact of_eq hs (.inr (.inr ⟨rfl, rfl, .inl rfl, fun _ => rfl, fun _ hr => (by cases hr)⟩))
  | pollProducer w =>
    simp only [step] at hs
    split at hs
    · exact of_eq hs ((pollDemand_minor w).turn rfl)
    · exact of_eq hs ((submit_minor _ w).turn rfl)
    · exact of_eq hs ((resume_minor w).turn rfl)
    · exact of_eq hs ((pollAbandoned_minor w).turn rfl)
    · cases hs
  | dropFuture =>
    simp only [step] at hs
    split at hs
    · exact of_eq hs ((dropOffer_minor _).turn rfl)
    · exact of_eq hs (Minor.turn (minor_of_state rfl rfl rfl rfl (by simp)) rfl)
    · cases hs
  | close =>
    simp only [step] at hs
    split_ifs at hs with hf
    rw [close_eq h hf] at hs
    exact of_eq hs (ended_turn hf rfl)
  | fail error =>
    simp only [step] at hs
    split_ifs at hs with hf
    rw [fail_eq h hf] at hs
    exact of_eq hs (ended_turn hf rfl)
  | dropProducer =>
    simp only [step] at hs
    split_ifs at hs with hf
    rw [dropProducer_eq h hf] at hs
    exact of_eq hs (ended_turn hf rfl)
  | pollTake w =>
    simp only [step] at hs
    split_ifs at hs with ht
    have hlive : c.consumer ≠ none := fun hn => by simp [h.consumer_gone hn] at ht
    exact of_eq hs (pollTake_turn hlive w)
  | dropConsumer =>
    simp only [step] at hs
    split_ifs at hs
    exact of_eq hs dropConsumer_turn

end Channel

def endings (tr : List (PipeCall T E W × PipeOutput T E W)) : List (PipeState T E) :=
  tr.filterMap (·.1.ending)

/-- The end of a channel along a run: it ends at most once, and a consumer that was told
its end was told the right one. -/
structure Lifecycle (tr : List (PipeCall T E W × PipeOutput T E W)) (c : Channel T E W) : Prop where
  live : c.producer ≠ none → endings tr = [] ∧ c.consumer ≠ some .complete
  gone : c.producer = none → ∃ t, endings tr = [t] ∧ t.isTerminal = true ∧
    (c.consumer = some .active → c.state = t) ∧
    (c.consumer = some .complete → c.state = .closed ∧ .took (some t.report) ∈ tr.map (·.2.event))

theorem Lifecycle.new : Lifecycle [] (Channel.new : Channel T E W) := by
  constructor <;> simp [Channel.new, endings]

theorem Lifecycle.step {tr : List (PipeCall T E W × PipeOutput T E W)} {c c' : Channel T E W}
    {i : PipeCall T E W} {o : PipeOutput T E W} (h : Lifecycle tr c) (hsound : c.Sound)
    (hturn : Channel.Turn c c' i o.event) : Lifecycle (tr ++ [(i, o)]) c' := by
  have happ : endings (tr ++ [(i, o)]) = endings tr ++ i.ending.toList := by
    cases hi : i.ending <;> simp [endings, hi]
  rcases hturn with ⟨t, hi, hp, hp', hc, hstate, he⟩ | ⟨hi, hp, hterm, hstate, hlive, hc, he⟩ |
    ⟨hi, hp, hc, hstate, -⟩
  · obtain ⟨hnone, hcomplete⟩ := h.live hp
    refine ⟨fun hn => absurd hp' hn, fun _ => ⟨t, by simp [happ, hnone, hi],
      PipeCall.isTerminal_of_ending hi, fun hcons => ?_, fun hcons => ?_⟩⟩
    · exact hstate (hsound.consumer_live (by rw [← hc, hcons]; simp))
    · exact absurd (hc ▸ hcons) hcomplete
  · -- The consumer is told the end of the channel.
    have hnone : c.producer = none := by
      by_contra hn
      simp [(hsound.producer_live hn).2] at hterm
    obtain ⟨t, ht, htt, hactive, hcomplete⟩ := h.gone hnone
    refine ⟨fun hn => absurd (hp ▸ hnone) hn, fun _ => ⟨t, by simp [happ, hi, ht], htt, by simp [hc], ?_⟩⟩
    intro _
    refine ⟨hstate, ?_⟩
    obtain ⟨lifecycle, hcons⟩ := Option.ne_none_iff_exists'.mp hlive
    cases lifecycle with
    | active => simp [he, hactive hcons]
    | complete =>
      simp only [List.map_append, List.mem_append]
      exact .inl (hcomplete hcons).2
  · refine ⟨fun hn => ?_, fun hn => ?_⟩
    · rw [hp] at hn
      obtain ⟨hnone, hcomplete⟩ := h.live hn
      refine ⟨by simp [happ, hi, hnone], ?_⟩
      rcases hc with hc | hc <;> simp [hc, hcomplete]
    · rw [hp] at hn
      obtain ⟨t, ht, htt, hactive, hcomplete⟩ := h.gone hn
      refine ⟨t, by simp [happ, hi, ht], htt, fun hcons => ?_, fun hcons => ?_⟩
      · rcases hc with hc | hc
        · have hsame := hactive (hc ▸ hcons)
          rw [hstate (hsame ▸ htt), hsame]
        · simp [hc] at hcons
      · rcases hc with hc | hc
        · obtain ⟨hclosed, htold⟩ := hcomplete (hc ▸ hcons)
          refine ⟨?_, by simp only [List.map_append, List.mem_append]; exact .inl htold⟩
          rw [hstate (by rw [hclosed]; rfl), hclosed]
        · simp [hc] at hcons

theorem Channel.Sound.step_producer {c c' : Channel T E W} (h : c.Sound) {i : PipeCall T E W}
    {o : PipeOutput T E W} (hi : i.isProducer = true) (hs : c.step i = some (c', o)) :
    c'.consumer = c.consumer ∧ c'.taking = c.taking := by
  have of_eq {r : Channel T E W × PipeOutput T E W} (hr : some r = some (c', o))
      (hkeep : r.1.consumer = c.consumer ∧ r.1.taking = c.taking) :
      c'.consumer = c.consumer ∧ c'.taking = c.taking := by
    rw [Option.some.inj hr] at hkeep
    exact hkeep
  have ended_keeps (t : PipeState T E) : (c.ended t).1.consumer = c.consumer ∧
      (c.ended t).1.taking = c.taking := by
    unfold ended
    split_ifs <;> exact ⟨rfl, rfl⟩
  cases i with
  | take | pollTake _ | dropTake | dropConsumer => cases hi
  | demand | abandoned | offer item =>
    simp only [step] at hs
    split_ifs at hs
    exact of_eq hs ⟨rfl, rfl⟩
  | pollProducer w =>
    simp only [step] at hs
    split at hs
    · exact of_eq hs (pollDemand_minor w).2.1
    · exact of_eq hs (submit_minor _ w).2.1
    · exact of_eq hs (resume_minor w).2.1
    · exact of_eq hs (pollAbandoned_minor w).2.1
    · cases hs
  | dropFuture =>
    simp only [step] at hs
    split at hs
    · exact of_eq hs (dropOffer_minor _).2.1
    · exact of_eq hs ⟨rfl, rfl⟩
    · cases hs
  | close =>
    simp only [step] at hs
    split_ifs at hs with hf
    exact of_eq hs (close_eq h hf ▸ ended_keeps _)
  | fail error =>
    simp only [step] at hs
    split_ifs at hs with hf
    exact of_eq hs (fail_eq h hf error ▸ ended_keeps _)
  | dropProducer =>
    simp only [step] at hs
    split_ifs at hs with hf
    exact of_eq hs (dropProducer_eq h hf ▸ ended_keeps _)

/-- A run of the channel keeps it sound and its end on record. -/
theorem channel_run {c c' : Channel T E W} {tr tr' : List (PipeCall T E W × PipeOutput T E W)}
    (hrun : (pipe T E W).Reaches c tr' c') (hsound : c.Sound) (hlife : Lifecycle tr c) :
    c'.Sound ∧ Lifecycle (tr ++ tr') c' := by
  refine hrun.invariant (P := fun tr' c' => c'.Sound ∧ Lifecycle (tr ++ tr') c')
    ⟨hsound, by simpa using hlife⟩ ?_
  rintro tr' c i c' o ⟨hsound, hlife⟩ hs
  refine ⟨(hsound.step_spec hs).1, ?_⟩
  rw [← List.append_assoc]
  exact hlife.step hsound (hsound.step_turn hs)

theorem took_clean_end {tr : List (PipeCall T E W × PipeOutput T E W)} {c c' : Channel T E W}
    (h : (pipe T E W).Reaches .new tr c) {i : PipeCall T E W} {o : PipeOutput T E W}
    (hs : c.step i = some (c', o)) (ho : o.event = .took (some (.ok none))) :
    .closed ∈ endings tr ∨ ∃ e, .took (some (.error e)) ∈ tr.map (·.2.event) := by
  obtain ⟨hsound, hlife⟩ := channel_run h Channel.sound_new Lifecycle.new
  rw [List.nil_append] at hlife
  rcases hsound.step_turn hs with ⟨_, _, _, _, _, _, he⟩ | ⟨-, -, hterm, -, hlive, -, he⟩ | ⟨-, -, -, -, he⟩
  · simp [he] at ho
  · have hclosed := closed_of_report hterm (by simpa [he] using ho)
    have hnone : c.producer = none := by
      by_contra hn
      simp [(hsound.producer_live hn).2] at hterm
    obtain ⟨t, ht, htt, hactive, hcomplete⟩ := hlife.gone hnone
    obtain ⟨lifecycle, hcons⟩ := Option.ne_none_iff_exists'.mp hlive
    cases lifecycle with
    | active => exact .inl (by simp [ht, ← hactive hcons, hclosed])
    | complete =>
      -- This consumer was told before: of a close, or of the failure.
      have htold := (hcomplete hcons).2
      cases t with
      | closed => exact .inl (by simp [ht])
      | failed e => exact .inr ⟨_, htold⟩
      | disconnected => exact .inr ⟨_, htold⟩
      | _ => cases htt
  · obtain ⟨a, ha⟩ := he _ ho
    cases ha

end Vakya
