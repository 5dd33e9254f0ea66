import Vakya.Pipe
import Mathlib.Data.List.Perm.Basic
import Mathlib.Data.List.Sublists

/-!
# Items in the rendezvous

Where each item offered to a channel can be, and what its offer can report.
One step is summed up by its effect on the slot and on the offer that borrows
the producer; everything about whole runs follows from these effects.
-/

namespace Vakya

open Library

variable {T E W : Type}

def PipeState.isTerminal : PipeState T E → Bool
  | .closed | .disconnected | .failed _ => true
  | _ => false

namespace Channel

def slot (c : Channel T E W) : List T :=
  match c.state with
  | .offered item | .abandoned (some item) => [item]
  | _ => []

def unpolled (c : Channel T E W) : List T :=
  match c.producing with
  | some (.offer (.pending item) _) => [item]
  | _ => []

def inFlight (c : Channel T E W) : Bool :=
  match c.producing with
  | some (.offer .submitted false) => true
  | _ => false

/-- What the borrows and the two lifecycles guarantee about the shared state. -/
structure Sound (c : Channel T E W) : Prop where
  producer_live : c.producer ≠ none → c.producer = some .active ∧ c.state.isTerminal = false
  producer_gone : c.producer = none →
    c.producing = none ∧ (c.state.isTerminal = true ∨ c.isAbandoned = true)
  consumer_live : c.consumer ≠ none → c.isAbandoned = false
  consumer_gone : c.consumer = none → c.taking = none
  slot_inFlight : c.slot ≠ [] → c.inFlight = true
  unresolved : ∀ item, c.producing ≠ some (.offer (.pending item) true)

/-- The items an event of the channel is about, and the offer it concerns. -/
def Effect (c c' : Channel T E W) : PipeEvent T E → Prop
  | .offered a => c.slot = [] ∧ c'.slot = [] ∧ c.unpolled = [] ∧ c'.unpolled = [a] ∧
      c'.inFlight = false
  | .offer (some a) none => c.slot = [] ∧ c'.slot = [a] ∧ c.unpolled = [a] ∧ c'.unpolled = [] ∧
      c'.inFlight = true
  | .offer (some a) (some r) => c.slot = [] ∧ c'.slot = [] ∧ c.unpolled = [a] ∧
      c'.unpolled = [] ∧ c'.inFlight = false ∧ (r = .error (.abandoned a) ∨ r = .error (.closed a))
  | .offer none (some (.ok ())) => c.inFlight = true ∧ c.slot = [] ∧ c'.slot = [] ∧
      c.unpolled = [] ∧ c'.unpolled = [] ∧ c'.inFlight = false
  | .offer none (some (.error e)) => c.inFlight = true ∧ c'.slot = [] ∧ c.unpolled = [] ∧
      c'.unpolled = [] ∧ c'.inFlight = false ∧ ∃ a, e = .abandoned a ∧ c.slot = [a]
  | .took (some (.ok (some a))) => c.slot = [a] ∧ c'.slot = [] ∧ c'.unpolled = c.unpolled ∧
      c'.inFlight = c.inFlight
  | .released a => c'.inFlight = false ∧ c'.slot = [] ∧ c'.unpolled = [] ∧
      (c.slot = [a] ∧ c.unpolled = [] ∨ c.slot = [] ∧ c.unpolled = [a])
  | .panicked => False
  | .quiet | .demand _ | .abandoned _ | .offer none none | .took none | .took (some (.error _)) |
    .took (some (.ok none)) =>
      c'.slot = c.slot ∧ c'.unpolled = c.unpolled ∧ (c'.inFlight = true → c.inFlight = true)

variable {c c' : Channel T E W}

theorem Sound.slot_of_free (h : c.Sound) (hf : c.producing = none) : c.slot = [] := by
  by_contra hs
  have := h.slot_inFlight hs
  simp [inFlight, hf] at this

theorem sound_new : (new : Channel T E W).Sound := by
  constructor <;> simp [new, PipeState.isTerminal, isAbandoned, slot]

theorem Sound.state_of_free (h : c.Sound) (hf : c.producerFree = true) :
    c.producer = some .active ∧ c.producing = none ∧
      (c.state = .idle ∨ c.state = .demanded ∨ c.state = .abandoned none) := by
  simp only [producerFree, Bool.and_eq_true, Option.isSome_iff_ne_none, Option.isNone_iff_eq_none] at hf
  obtain ⟨hact, hterm⟩ := h.producer_live hf.1
  have hslot := h.slot_of_free hf.2
  refine ⟨hact, hf.2, ?_⟩
  cases hs : c.state with
  | idle => simp
  | demanded => simp
  | offered a => simp [slot, hs] at hslot
  | abandoned item => cases item <;> simp [slot, hs] at hslot ⊢
  | _ => simp [PipeState.isTerminal, hs] at hterm

theorem start_spec (h : c.Sound) (hf : c.producerFree = true) {f : ProducerFuture T}
    (hdemand : f = .demand false ∨ f = .abandoned false) :
    Sound { c with producing := some f } ∧ Effect c { c with producing := some f } .quiet := by
  obtain ⟨hact, hp, hstate⟩ := h.state_of_free hf
  have hslot := h.slot_of_free hp
  obtain ⟨h1, h2, h3, h4, h5, h6⟩ := h
  refine ⟨⟨h1, fun hn => ?_, h3, h4, fun hs => ?_, ?_⟩, rfl, ?_, ?_⟩
  · simp [hact] at hn
  · exact absurd hslot hs
  · rcases hdemand with rfl | rfl <;> simp
  · rcases hdemand with rfl | rfl <;> simp [unpolled, hp]
  · rcases hdemand with rfl | rfl <;> simp [inFlight]

def ended (c : Channel T E W) (terminal : PipeState T E) : Channel T E W × PipeOutput T E W :=
  if c.isAbandoned then ({ c with producer := none }, ⟨.quiet, none⟩)
  else ({ c with state := terminal, consumerWaker := none, producer := none },
    ⟨.quiet, c.consumerWaker⟩)

theorem close_eq (h : c.Sound) (hf : c.producerFree = true) : c.close = c.ended .closed := by
  obtain ⟨hact, hp, hstate⟩ := h.state_of_free hf
  rcases hstate with hs | hs | hs <;>
    simp [close, finish, dropProducer, ended, hact, hs, isAbandoned]

theorem fail_eq (h : c.Sound) (hf : c.producerFree = true) (error : E) :
    c.fail error = c.ended (.failed error) := by
  obtain ⟨hact, hp, hstate⟩ := h.state_of_free hf
  rcases hstate with hs | hs | hs <;>
    simp [fail, finish, dropProducer, ended, hact, hs, isAbandoned]

theorem dropProducer_eq (h : c.Sound) (hf : c.producerFree = true) :
    c.dropProducer = c.ended .disconnected := by
  obtain ⟨hact, hp, hstate⟩ := h.state_of_free hf
  rcases hstate with hs | hs | hs <;>
    simp [dropProducer, finish, ended, hact, hs, isAbandoned]

theorem ended_spec (h : c.Sound) (hf : c.producerFree = true) {terminal : PipeState T E}
    (ht : terminal.isTerminal = true) :
    (c.ended terminal).1.Sound ∧ Effect c (c.ended terminal).1 (c.ended terminal).2.event := by
  obtain ⟨hact, hp, hstate⟩ := h.state_of_free hf
  have hslot := h.slot_of_free hp
  obtain ⟨h1, h2, h3, h4, h5, h6⟩ := h
  have hnot : (isAbandoned { c with state := terminal, consumerWaker := none, producer := none }) = false := by
    cases terminal <;> simp [PipeState.isTerminal] at ht <;> rfl
  have hempty : slot { c with state := terminal, consumerWaker := none, producer := none } = [] := by
    cases terminal <;> simp [PipeState.isTerminal] at ht <;> rfl
  unfold ended
  by_cases ha : c.isAbandoned = true
  · rw [if_pos ha]
    exact ⟨⟨by simp, fun _ => ⟨hp, .inr ha⟩, h3, h4, h5, h6⟩, rfl, rfl, id⟩
  · rw [if_neg ha]
    refine ⟨⟨by simp, fun _ => ⟨hp, .inl ht⟩, fun _ => hnot, h4, fun hs => absurd hempty hs, h6⟩, ?_, rfl, id⟩
    rw [hslot]
    exact hempty

theorem offer_spec (h : c.Sound) (hf : c.producerFree = true) (item : T) :
    Sound { c with producing := some (.offer (.pending item) false) } ∧
      Effect c { c with producing := some (.offer (.pending item) false) } (.offered item) := by
  obtain ⟨hact, hp, hstate⟩ := h.state_of_free hf
  have hslot := h.slot_of_free hp
  obtain ⟨h1, h2, h3, h4, h5, h6⟩ := h
  refine ⟨⟨h1, fun hn => ?_, h3, h4, fun hs => absurd hslot hs, by simp⟩, hslot, hslot, ?_, rfl, rfl⟩
  · simp [hact] at hn
  · simp [unpolled, hp]

theorem Sound.live_of_producing (h : c.Sound) {f : ProducerFuture T} (hp : c.producing = some f) :
    c.producer = some .active ∧ c.state.isTerminal = false := by
  refine h.producer_live fun hn => ?_
  have := (h.producer_gone hn).1
  simp [hp] at this

theorem Sound.slot_of_not_inFlight (h : c.Sound) (hf : c.inFlight = false) : c.slot = [] := by
  by_contra hs
  simp [h.slot_inFlight hs] at hf

theorem pollDemand_spec (h : c.Sound) (hp : c.producing = some (.demand false)) (w : W) :
    (c.pollDemand w).1.Sound ∧ Effect c (c.pollDemand w).1 (c.pollDemand w).2.event := by
  obtain ⟨hact, hterm⟩ := h.live_of_producing hp
  have hslot := h.slot_of_not_inFlight (by simp [inFlight, hp])
  obtain ⟨h1, h2, h3, h4, h5, h6⟩ := h
  rcases c with ⟨state, pw, cw, p, q, f, t⟩
  obtain rfl : f = some (.demand false) := hp
  obtain rfl : p = some .active := hact
  cases state with
  | idle => exact ⟨⟨h1, h2, h3, h4, h5, h6⟩, rfl, rfl, id⟩
  | _ =>
    exact ⟨⟨h1, fun hn => (by cases hn), h3, h4, fun hs => absurd hslot hs, fun _ hn => (by cases hn)⟩, rfl,
      rfl, fun hn => (by cases hn)⟩

theorem pollAbandoned_spec (h : c.Sound) (hp : c.producing = some (.abandoned false)) (w : W) :
    (c.pollAbandoned w).1.Sound ∧ Effect c (c.pollAbandoned w).1 (c.pollAbandoned w).2.event := by
  obtain ⟨hact, hterm⟩ := h.live_of_producing hp
  have hslot := h.slot_of_not_inFlight (by simp [inFlight, hp])
  obtain ⟨h1, h2, h3, h4, h5, h6⟩ := h
  unfold pollAbandoned
  split_ifs
  · refine ⟨⟨h1, fun hn => ?_, h3, h4, fun hs => absurd hslot hs, by simp⟩, rfl,
      by simp [unpolled, hp], by simp [inFlight]⟩
    simp [hact] at hn
  · exact ⟨⟨h1, h2, h3, h4, h5, h6⟩, rfl, rfl, id⟩

theorem submit_spec (h : c.Sound) {item : T} (hp : c.producing = some (.offer (.pending item) false))
    (w : W) : (c.submit item w).1.Sound ∧ Effect c (c.submit item w).1 (c.submit item w).2.event := by
  obtain ⟨hact, hterm⟩ := h.live_of_producing hp
  have hslot := h.slot_of_not_inFlight (by simp [inFlight, hp])
  obtain ⟨h1, h2, h3, h4, h5, h6⟩ := h
  rcases c with ⟨state, pw, cw, p, q, f, t⟩
  obtain rfl : f = some (.offer (.pending item) false) := hp
  obtain rfl : p = some .active := hact
  cases state with
  | offered a => simp [slot] at hslot
  | abandoned a =>
    exact ⟨⟨h1, fun hn => (by cases hn), h3, h4, fun hne => absurd hslot hne, fun _ hn => (by cases hn)⟩,
      hslot, hslot, rfl, rfl, rfl, .inl rfl⟩
  | idle =>
    exact ⟨⟨h1, fun hn => (by cases hn), h3, h4, fun _ => rfl, fun _ hn => (by cases hn)⟩, rfl, rfl, rfl, rfl,
      rfl⟩
  | demanded =>
    exact ⟨⟨h1, fun hn => (by cases hn), h3, h4, fun _ => rfl, fun _ hn => (by cases hn)⟩, rfl, rfl, rfl, rfl,
      rfl⟩
  | _ => simp [PipeState.isTerminal] at hterm

theorem resume_spec (h : c.Sound) (hp : c.producing = some (.offer .submitted false)) (w : W) :
    (c.resume w).1.Sound ∧ Effect c (c.resume w).1 (c.resume w).2.event := by
  obtain ⟨hact, hterm⟩ := h.live_of_producing hp
  obtain ⟨h1, h2, h3, h4, h5, h6⟩ := h
  rcases c with ⟨state, pw, cw, p, q, f, t⟩
  obtain rfl : f = some (.offer .submitted false) := hp
  obtain rfl : p = some .active := hact
  cases state with
  | offered a => exact ⟨⟨h1, h2, h3, h4, h5, h6⟩, rfl, rfl, id⟩
  | abandoned a =>
    cases a with
    | some a =>
      exact ⟨⟨h1, fun hn => (by cases hn), h3, h4, fun hne => absurd rfl hne, fun _ hn => (by cases hn)⟩, rfl,
        rfl, rfl, rfl, rfl, a, rfl, rfl⟩
    | none =>
      exact ⟨⟨h1, fun hn => (by cases hn), h3, h4, fun hne => absurd rfl hne, fun _ hn => (by cases hn)⟩, rfl,
        rfl, rfl, rfl, rfl, rfl⟩
  | idle =>
    exact ⟨⟨h1, fun hn => (by cases hn), h3, h4, fun hne => absurd rfl hne, fun _ hn => (by cases hn)⟩, rfl,
      rfl, rfl, rfl, rfl, rfl⟩
  | demanded =>
    exact ⟨⟨h1, fun hn => (by cases hn), h3, h4, fun hne => absurd rfl hne, fun _ hn => (by cases hn)⟩, rfl,
      rfl, rfl, rfl, rfl, rfl⟩
  | _ => simp [PipeState.isTerminal] at hterm

theorem dropOffer_spec (h : c.Sound) {lifecycle : OfferLifecycle T} {resolved : Bool}
    (hp : c.producing = some (.offer lifecycle resolved)) :
    (c.dropOffer lifecycle).1.Sound ∧
      Effect c (c.dropOffer lifecycle).1 (c.dropOffer lifecycle).2.event := by
  obtain ⟨hact, hterm⟩ := h.live_of_producing hp
  have hslot (hr : c.inFlight = false) := h.slot_of_not_inFlight hr
  obtain ⟨h1, h2, h3, h4, h5, h6⟩ := h
  rcases c with ⟨state, pw, cw, p, q, f, t⟩
  obtain rfl : f = some (.offer lifecycle resolved) := hp
  obtain rfl : p = some .active := hact
  cases lifecycle with
  | pending item =>
    cases resolved with
    | true => exact absurd rfl (h6 item)
    | false =>
      have hs := hslot rfl
      exact ⟨⟨h1, fun hn => (by cases hn), h3, h4, fun hne => absurd hs hne,
      fun _ hn => (by cases hn)⟩, rfl, hs, rfl, .inr ⟨hs, rfl⟩⟩
  | submitted =>
    cases state with
    | offered a =>
      exact ⟨⟨h1, fun hn => (by cases hn), h3, h4, fun hne => absurd rfl hne,
      fun _ hn => (by cases hn)⟩, rfl, rfl, rfl, .inl ⟨rfl, rfl⟩⟩
    | abandoned a =>
      cases a with
      | some a =>
        exact ⟨⟨h1, fun hn => (by cases hn), h3, h4, fun hne => absurd rfl hne,
      fun _ hn => (by cases hn)⟩, rfl, rfl, rfl, .inl ⟨rfl, rfl⟩⟩
      | none =>
        exact ⟨⟨h1, fun hn => (by cases hn), h3, h4, fun hne => absurd rfl hne,
      fun _ hn => (by cases hn)⟩, rfl, rfl, fun hn => (by cases hn)⟩
    | idle =>
      exact ⟨⟨h1, fun hn => (by cases hn), h3, h4, fun hne => absurd rfl hne,
      fun _ hn => (by cases hn)⟩, rfl, rfl, fun hn => (by cases hn)⟩
    | demanded =>
      exact ⟨⟨h1, fun hn => (by cases hn), h3, h4, fun hne => absurd rfl hne,
      fun _ hn => (by cases hn)⟩, rfl, rfl, fun hn => (by cases hn)⟩
    | _ => simp [PipeState.isTerminal] at hterm

theorem pollTake_spec (h : c.Sound) (ht : c.taking = some false) (w : W) :
    (c.pollTake w).1.Sound ∧ Effect c (c.pollTake w).1 (c.pollTake w).2.event := by
  have hlive : c.consumer ≠ none := by
    intro hn
    have := h.consumer_gone hn
    simp [ht] at this
  have hab := h.consumer_live hlive
  obtain ⟨h1, h2, h3, h4, h5, h6⟩ := h
  rcases c with ⟨state, pw, cw, p, q, f, t⟩
  cases state with
  | idle => exact ⟨⟨h1, h2, h3, h4, h5, h6⟩, rfl, rfl, id⟩
  | demanded => exact ⟨⟨h1, h2, h3, h4, h5, h6⟩, rfl, rfl, id⟩
  | offered a =>
    exact ⟨⟨h1, fun hn => by simpa [PipeState.isTerminal, isAbandoned] using (h2 hn).2, h3,
      fun hn => absurd hn hlive, fun hne => absurd rfl hne, h6⟩, rfl, rfl, rfl, rfl⟩
  | abandoned a => simp [isAbandoned] at hab
  | closed =>
    exact ⟨⟨h1, h2, fun _ => rfl, fun hn => (by cases hn), h5, h6⟩, rfl, rfl, id⟩
  | disconnected =>
    exact ⟨⟨h1, h2, fun _ => rfl, fun hn => (by cases hn), h5, h6⟩, rfl, rfl, id⟩
  | failed e =>
    exact ⟨⟨h1, h2, fun _ => rfl, fun hn => (by cases hn), h5, h6⟩, rfl, rfl, id⟩

theorem dropConsumer_spec (h : c.Sound) (hf : c.consumerFree = true) :
    c.dropConsumer.1.Sound ∧ Effect c c.dropConsumer.1 c.dropConsumer.2.event := by
  simp only [consumerFree, Bool.and_eq_true, Option.isSome_iff_ne_none, Option.isNone_iff_eq_none] at hf
  have hab := h.consumer_live hf.1
  obtain ⟨h1, h2, h3, h4, h5, h6⟩ := h
  unfold dropConsumer
  split_ifs
  · exact ⟨⟨h1, h2, fun hn => absurd rfl hn, fun _ => hf.2, h5, h6⟩, rfl, rfl, id⟩
  rcases c with ⟨state, pw, cw, p, q, f, t⟩
  -- An item in the slot stays there for its offer to get back.
  cases state with
  | abandoned a => simp [isAbandoned] at hab
  | offered a =>
    exact ⟨⟨h1, fun hn => ⟨(h2 hn).1, .inr rfl⟩, fun hn => absurd rfl hn, fun _ => hf.2, h5, h6⟩,
      rfl, rfl, id⟩
  | idle =>
    exact ⟨⟨h1, fun hn => ⟨(h2 hn).1, .inr rfl⟩, fun hn => absurd rfl hn, fun _ => hf.2, h5, h6⟩,
      rfl, rfl, id⟩
  | demanded =>
    exact ⟨⟨h1, fun hn => ⟨(h2 hn).1, .inr rfl⟩, fun hn => absurd rfl hn, fun _ => hf.2, h5, h6⟩,
      rfl, rfl, id⟩
  | _ => exact ⟨⟨h1, h2, fun hn => absurd rfl hn, fun _ => hf.2, h5, h6⟩, rfl, rfl, id⟩

theorem dropWait_spec (h : c.Sound) {f : ProducerFuture T} (hp : c.producing = some f)
    (hf : ∀ lifecycle resolved, f ≠ .offer lifecycle resolved) :
    Sound { c with producerWaker := none, producing := none } ∧
      Effect c { c with producerWaker := none, producing := none } .quiet := by
  obtain ⟨hact, hterm⟩ := h.live_of_producing hp
  have hfly : c.inFlight = false := by
    cases f with
    | offer l r => exact absurd rfl (hf l r)
    | _ => simp [inFlight, hp]
  have hun : c.unpolled = [] := by
    cases f with
    | offer l r => exact absurd rfl (hf l r)
    | _ => simp [unpolled, hp]
  have hslot := h.slot_of_not_inFlight hfly
  obtain ⟨h1, h2, h3, h4, h5, h6⟩ := h
  exact ⟨⟨h1, fun hn => ⟨rfl, (h2 hn).2⟩, h3, h4, fun hs => absurd hslot hs, fun _ hn => (by cases hn)⟩,
    rfl, hun.symm, fun hn => (by cases hn)⟩

/-- Every permitted operation keeps the channel sound and has one of the effects. -/
theorem Sound.step_spec (h : c.Sound) {i : PipeCall T E W} {o : PipeOutput T E W}
    (hs : c.step i = some (c', o)) : c'.Sound ∧ Effect c c' o.event := by
  -- It is enough to look at the operation itself, which is what `step` returns.
  have of_eq {r : Channel T E W × PipeOutput T E W} (hr : some r = some (c', o))
      (hspec : r.1.Sound ∧ Effect c r.1 r.2.event) : c'.Sound ∧ Effect c c' o.event := by
    rw [Option.some.inj hr] at hspec
    exact hspec
  cases i with
  | demand =>
    simp only [step] at hs
    split_ifs at hs with hf
    exact of_eq hs (start_spec h hf (.inl rfl))
  | abandoned =>
    simp only [step] at hs
    split_ifs at hs with hf
    exact of_eq hs (start_spec h hf (.inr rfl))
  | offer item =>
    simp only [step] at hs
    split_ifs at hs with hf
    exact of_eq hs (offer_spec h hf item)
  | pollProducer w =>
    simp only [step] at hs
    split at hs
    · exact of_eq hs (pollDemand_spec h ‹_› w)
    · exact of_eq hs (submit_spec h ‹_› w)
    · exact of_eq hs (resume_spec h ‹_› w)
    · exact of_eq hs (pollAbandoned_spec h ‹_› w)
    · cases hs
  | dropFuture =>
    simp only [step] at hs
    split at hs
    · exact of_eq hs (dropOffer_spec h ‹_›)
    · exact of_eq hs (dropWait_spec h ‹_› ‹_›)
    · cases hs
  | close =>
    simp only [step] at hs
    split_ifs at hs with hf
    rw [close_eq h hf] at hs
    exact of_eq hs (ended_spec h hf rfl)
  | fail error =>
    simp only [step] at hs
    split_ifs at hs with hf
    rw [fail_eq h hf] at hs
    exact of_eq hs (ended_spec h hf rfl)
  | dropProducer =>
    simp only [step] at hs
    split_ifs at hs with hf
    rw [dropProducer_eq h hf] at hs
    exact of_eq hs (ended_spec h hf rfl)
  | take =>
    simp only [step] at hs
    split_ifs at hs with hf
    apply of_eq hs
    simp only [consumerFree, Bool.and_eq_true, Option.isSome_iff_ne_none] at hf
    obtain ⟨h1, h2, h3, h4, h5, h6⟩ := h
    exact ⟨⟨h1, h2, h3, fun hn => absurd hn hf.1, h5, h6⟩, rfl, rfl, id⟩
  | pollTake w =>
    simp only [step] at hs
    split_ifs at hs with hf
    exact of_eq hs (pollTake_spec h hf w)
  | dropTake =>
    simp only [step] at hs
    split_ifs at hs with hf
    apply of_eq hs
    obtain ⟨h1, h2, h3, h4, h5, h6⟩ := h
    exact ⟨⟨h1, h2, h3, fun _ => rfl, h5, h6⟩, rfl, rfl, id⟩
  | dropConsumer =>
    simp only [step] at hs
    split_ifs at hs with hf
    exact of_eq hs (dropConsumer_spec h hf)

end Channel

namespace PipeEvent

def passed : PipeEvent T E → List T
  | .offered a => [a]
  | _ => []

def submitted : PipeEvent T E → List T
  | .offer (some a) _ => [a]
  | _ => []

def taken : PipeEvent T E → List T
  | .took (some (.ok (some a))) => [a]
  | _ => []

def returned : PipeEvent T E → List T
  | .offer _ (some (.error (.abandoned a))) | .offer _ (some (.error (.closed a))) => [a]
  | _ => []

def dropped : PipeEvent T E → List T
  | .released a => [a]
  | _ => []

end PipeEvent

open PipeEvent

/-- The poll of an offer that returned `r`, at the end of the events `es`: the offer was
polled first with item `a`, no other offer was polled since, and `r` is `Ok` exactly when
a take returned `a` since. -/
def Settled (es : List (PipeEvent T E)) (r : Except (OfferError T) Unit) : Prop :=
  ∃ before a result since, es = before ++ .offer (some a) result :: since ∧
    since.flatMap submitted = [] ∧ (r = .ok () ↔ since.flatMap taken = [a]) ∧
    (r = .ok () ∨ since.flatMap taken = []) ∧
    (r = .ok () ∨ r = .error (.abandoned a) ∨ r = .error (.closed a))

/-- The books of a channel: where the items of its events are. -/
structure Ledger (es : List (PipeEvent T E)) (c : Channel T E W) : Prop where
  ordered : (es.flatMap taken ++ c.slot).Sublist (es.flatMap submitted)
  conserved : (es.flatMap passed).Perm
    (es.flatMap taken ++ es.flatMap returned ++ es.flatMap dropped ++ c.slot ++ c.unpolled)
  /-- The offer in flight has its item in the slot, or a take has it. -/
  inFlight : c.inFlight = true → ∃ before a since, es = before ++ .offer (some a) none :: since ∧
    since.flatMap submitted = [] ∧
    (c.slot = [a] ∧ since.flatMap taken = [] ∨ c.slot = [] ∧ since.flatMap taken = [a])
  settled : ∀ before after s r, es = before ++ .offer s (some r) :: after →
    Settled (before ++ [.offer s (some r)]) r
  unreached : .panicked ∉ es

theorem Ledger.new : Ledger ([] : List (PipeEvent T E)) (Channel.new : Channel T E W) := by
  constructor <;> simp [Channel.new, Channel.slot, Channel.unpolled, Channel.inFlight]

section Step

variable {es : List (PipeEvent T E)} {c c' : Channel T E W} {e : PipeEvent T E}

theorem settled_append (h : ∀ before after s r, es = before ++ .offer s (some r) :: after →
      Settled (before ++ [.offer s (some r)]) r)
    (he : ∀ s r, e = .offer s (some r) → Settled (es ++ [e]) r) :
    ∀ before after s r, es ++ [e] = before ++ .offer s (some r) :: after →
      Settled (before ++ [.offer s (some r)]) r := by
  intro before after s r heq
  rcases List.eq_nil_or_concat after with rfl | ⟨after, last, rfl⟩
  · obtain ⟨rfl, hlast⟩ := List.append_inj' heq rfl
    simp only [List.cons.injEq, and_true] at hlast
    subst hlast
    exact he s r rfl
  · rw [List.concat_eq_append, ← List.cons_append, ← List.append_assoc] at heq
    obtain ⟨heq, -⟩ := List.append_inj' heq rfl
    exact h before after s r heq

theorem Ledger.inFlight_append (h : Ledger es c) (hfly : c'.inFlight = true → c.inFlight = true)
    (hslot : c'.slot = c.slot) (hs : e.submitted = []) (ht : e.taken = []) :
    c'.inFlight = true → ∃ before a since, es ++ [e] = before ++ .offer (some a) none :: since ∧
      since.flatMap submitted = [] ∧
      (c'.slot = [a] ∧ since.flatMap taken = [] ∨ c'.slot = [] ∧ since.flatMap taken = [a]) := by
  intro hf
  obtain ⟨before, a, since, rfl, hsub, hat⟩ := h.inFlight (hfly hf)
  refine ⟨before, a, since ++ [e], by simp, by simp [hsub, hs], ?_⟩
  simpa [hslot, ht] using hat

theorem Ledger.quiet (h : Ledger es c) (he : Channel.Effect c c' .quiet)
    (hp : e.passed = []) (hs : e.submitted = []) (ht : e.taken = []) (hr : e.returned = [])
    (hd : e.dropped = []) (hnot : ∀ s r, e ≠ .offer s (some r)) (hpanic : e ≠ .panicked) :
    Ledger (es ++ [e]) c' := by
  obtain ⟨hslot, hun, hfly⟩ := he
  constructor
  · simpa [hs, ht, hslot] using h.ordered
  · simpa [hp, ht, hr, hd, hslot, hun] using h.conserved
  · exact h.inFlight_append hfly hslot hs ht
  · exact settled_append h.settled fun s r heq => absurd heq (hnot s r)
  · simpa [hpanic.symm] using h.unreached

/-- Where items go is a matter of counting: what an event adds to one place leaves another. -/
theorem Ledger.conserved_append (h : Ledger es c)
    (hmove : ∀ [DecidableEq T] x, e.passed.count x + c.slot.count x + c.unpolled.count x =
      e.taken.count x + e.returned.count x + e.dropped.count x + c'.slot.count x + c'.unpolled.count x) :
    ((es ++ [e]).flatMap passed).Perm ((es ++ [e]).flatMap taken ++ (es ++ [e]).flatMap returned ++
      (es ++ [e]).flatMap dropped ++ c'.slot ++ c'.unpolled) := by
  classical
  rw [List.perm_iff_count]
  intro x
  have hold := List.perm_iff_count.mp h.conserved x
  have hx := hmove x
  simp only [List.flatMap_append, List.flatMap_singleton, List.count_append] at hold ⊢
  omega

theorem Ledger.step (h : Ledger es c) (he : Channel.Effect c c' e) : Ledger (es ++ [e]) c' := by
  have hord := h.ordered
  have hnew : .panicked ∉ es := h.unreached
  match e, he with
  | .offered a, ⟨hslot, hslot', hun, hun', hfly⟩ =>
    refine ⟨?_, h.conserved_append fun x => ?_, by simp [hfly],
      settled_append h.settled (by simp), by simpa using hnew⟩
    · simpa [taken, submitted, hslot, hslot'] using hord
    · simp [passed, taken, returned, dropped, hslot', hun', hslot, hun]
  | .offer (some a) none, ⟨hslot, hslot', hun, hun', hfly⟩ =>
    refine ⟨?_, h.conserved_append fun x => ?_, fun _ => ?_, settled_append h.settled (by simp),
      by simpa using hnew⟩
    · simpa [taken, submitted, hslot, hslot'] using hord
    · simp [passed, taken, returned, dropped, hslot', hun', hslot, hun]
    · exact ⟨es, a, [], rfl, rfl, .inl ⟨hslot', rfl⟩⟩
  | .offer (some a) (some r), ⟨hslot, hslot', hun, hun', hfly, hr⟩ =>
    refine ⟨?_, h.conserved_append fun x => ?_, by simp [hfly],
      settled_append h.settled fun s r' heq => ?_, by simpa using hnew⟩
    · rw [hslot, List.append_nil] at hord
      simpa [taken, submitted, hslot'] using hord.trans (List.sublist_append_left _ _)
    · have hret : returned (.offer (some a) (some r) : PipeEvent T E) = [a] := by
        rcases hr with rfl | rfl <;> rfl
      simp [passed, taken, dropped, hret, hslot, hslot', hun, hun']
    · obtain ⟨-, rfl⟩ : some a = s ∧ r = r' := by simpa using heq
      have hne : r ≠ .ok () := by rcases hr with rfl | rfl <;> simp
      exact ⟨es, a, _, [], rfl, rfl, by simp [hne], .inr rfl, .inr hr⟩
  | .offer none (some (.ok ())), ⟨hfly, hslot, hslot', hun, hun', hfly'⟩ =>
    refine ⟨?_, h.conserved_append fun x => ?_, by simp [hfly'], settled_append h.settled fun s r heq => ?_, by simpa using hnew⟩
    · simpa [taken, submitted, hslot, hslot'] using hord
    · simp [passed, taken, returned, dropped, hslot, hslot', hun, hun']
    · obtain ⟨rfl, rfl⟩ : none = s ∧ .ok () = r := by simpa using heq
      obtain ⟨before, a, since, rfl, hsub, hat⟩ := h.inFlight hfly
      -- The slot is empty, so a take has the item.
      have htook : since.flatMap taken = [a] := by simpa [hslot] using hat
      exact ⟨before, a, none, since ++ [.offer none (some (.ok ()))], by simp, by simp [hsub, submitted],
        by simp [htook, taken], .inl rfl, .inl rfl⟩
  | .offer none (some (.error x)), ⟨hfly, hslot', hun, hun', hfly', a, hx, hslot⟩ =>
    subst hx
    refine ⟨?_, h.conserved_append fun x => ?_, by simp [hfly'],
      settled_append h.settled fun s r heq => ?_, by simpa using hnew⟩
    · simpa [taken, submitted, hslot'] using (List.sublist_append_left _ _).trans hord
    · simp [passed, taken, returned, dropped, hslot', hun', hslot, hun]
    · obtain ⟨rfl, rfl⟩ : none = s ∧ .error (.abandoned a) = r := by simpa using heq
      obtain ⟨before, b, since, rfl, hsub, hat⟩ := h.inFlight hfly
      -- The slot still holds the item, so no take has it.
      obtain ⟨rfl, hnone⟩ : a = b ∧ since.flatMap taken = [] := by simpa [hslot] using hat
      exact ⟨before, a, none, since ++ [.offer none (some (.error (.abandoned a)))], by simp,
        by simp [hsub, submitted], by simp [hnone, taken], .inr (by simp [hnone, taken]), .inr (.inl rfl)⟩
  | .took (some (.ok (some a))), ⟨hslot, hslot', hun, hfly⟩ =>
    refine ⟨?_, h.conserved_append fun x => ?_, fun hf => ?_, settled_append h.settled (by simp),
      by simpa using hnew⟩
    · simpa [taken, submitted, hslot, hslot'] using hord
    · simp [passed, taken, returned, dropped, hslot', hun, hslot]
    · obtain ⟨before, b, since, rfl, hsub, hat⟩ := h.inFlight (hfly ▸ hf)
      obtain ⟨rfl, hnone⟩ : a = b ∧ since.flatMap taken = [] := by simpa [hslot] using hat
      exact ⟨before, a, since ++ [.took (some (.ok (some a)))], by simp, by simp [hsub, submitted],
        .inr ⟨hslot', by simp [hnone, taken]⟩⟩
  | .released a, ⟨hfly, hslot', hun', hat⟩ =>
    refine ⟨?_, h.conserved_append fun x => ?_, by simp [hfly], settled_append h.settled (by simp),
      by simpa using hnew⟩
    · simpa [taken, submitted, hslot'] using (List.sublist_append_left _ _).trans hord
    · rcases hat with ⟨hslot, hun⟩ | ⟨hslot, hun⟩ <;>
        simp [passed, taken, returned, dropped, hslot, hslot', hun, hun']
  | .quiet, he | .demand _, he | .abandoned _, he | .offer none none, he | .took none, he
  | .took (some (.error _)), he | .took (some (.ok none)), he =>
    exact h.quiet he rfl rfl rfl rfl rfl (by simp) (by simp)

end Step

/-- The rendezvous neither loses, duplicates nor reorders items, in every interleaving of
the operations on a channel; each offer that resolves tells its item's fate, and no
`unreachable!` is reached. -/
theorem pipe_conserves {tr : List (PipeCall T E W × PipeOutput T E W)} {c : Channel T E W}
    (h : (pipe T E W).Reaches Channel.new tr c) :
    let es := tr.map (·.2.event)
    (es.flatMap taken).Sublist (es.flatMap submitted) ∧
      (es.flatMap passed).Perm
        (es.flatMap taken ++ es.flatMap returned ++ es.flatMap dropped ++ c.slot ++ c.unpolled) ∧
      (∀ before after s r, es = before ++ .offer s (some r) :: after →
        Settled (before ++ [.offer s (some r)]) r) ∧
      .panicked ∉ es := by
  have hinv : Ledger (tr.map (·.2.event)) c ∧ c.Sound := by
    refine h.invariant (P := fun tr c => Ledger (tr.map (·.2.event)) c ∧ c.Sound)
      ⟨Ledger.new, Channel.sound_new⟩ ?_
    rintro tr c i c' o ⟨hledger, hsound⟩ hs
    obtain ⟨hsound', heffect⟩ := hsound.step_spec hs
    refine ⟨?_, hsound'⟩
    rw [List.map_append]
    exact hledger.step heffect
  obtain ⟨hledger, -⟩ := hinv
  exact ⟨(List.sublist_append_left _ _).trans hledger.ordered, hledger.conserved, hledger.settled,
    hledger.unreached⟩

/-- One item is taken, one comes back when the consumer goes away, one is dropped unpolled. -/
theorem pipe_conserves_sample :
    ∃ tr, ∃ c : Channel Nat Unit Unit, (pipe Nat Unit Unit).Reaches Channel.new tr c ∧
      let es := tr.map (·.2.event)
      es.flatMap passed = [1, 2, 3] ∧ es.flatMap taken = [1] ∧ es.flatMap returned = [2] ∧
        es.flatMap dropped = [3] ∧
        (∀ before after s r, es = before ++ .offer s (some r) :: after →
          Settled (before ++ [.offer s (some r)]) r) := by
  have hrun : (pipe Nat Unit Unit).run Channel.new
      [.offer 1, .pollProducer (), .take, .pollTake (), .pollProducer (), .dropFuture, .dropTake,
        .offer 2, .pollProducer (), .dropConsumer, .pollProducer (), .dropFuture, .offer 3, .dropFuture,
        .close] = some (_, _) := rfl
  have hreach := Machine.reaches_of_run hrun
  exact ⟨_, _, hreach, rfl, rfl, rfl, rfl, (pipe_conserves hreach).2.2.1⟩

end Vakya
