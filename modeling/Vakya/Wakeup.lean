import Vakya.Rendezvous

/-!
# Wakeups of the rendezvous

A future that returned `Pending` is polled again only after its waker was
invoked, so whatever makes the next poll return `Ready` has to invoke it. The
producer's waker slot serves three kinds of future and is emptied by wakeups
that change nothing for the one that waits: it is not the registration that
survives until the future is ready, but the registration or a wakeup.
-/

namespace Vakya

open Library

variable {T E W : Type}

/-- The two sides of a channel. Each has at most one future at a time. -/
inductive Endpoint
  | producer
  | consumer
deriving DecidableEq, Repr

def Endpoint.poll : Endpoint → W → PipeCall T E W
  | .producer, w => .pollProducer w
  | .consumer, w => .pollTake w

def Endpoint.dropFuture : Endpoint → PipeCall T E W
  | .producer => .dropFuture
  | .consumer => .dropTake

def PipeEvent.isPending : PipeEvent T E → Bool
  | .demand none | .offer _ none | .abandoned false | .took none => true
  | _ => false

def PipeEvent.isReady : PipeEvent T E → Bool
  | .demand (some _) | .offer _ (some _) | .abandoned true | .took (some _) => true
  | _ => false

def PipeCall.leaves (e : Endpoint) : PipeCall T E W → Bool
  | .pollProducer _ | .dropFuture => e == .consumer
  | .pollTake _ | .dropTake => e == .producer
  | _ => true

namespace Channel

/-- The future of this endpoint is registered under `w` and would return `Pending`. -/
def Waiting (e : Endpoint) (w : W) (c : Channel T E W) : Prop :=
  match e with
  | .consumer => c.consumerWaker = some w ∧ c.taking = some false ∧ c.state = .demanded
  | .producer => c.producerWaker = some w ∧
    match c.producing with
    | some (.demand false) => c.state = .idle
    | some (.offer .submitted false) => ∃ item, c.state = .offered item
    | some (.abandoned false) => c.isAbandoned = false
    | _ => False

variable {c c' : Channel T E W} {w : W} {o : PipeOutput T E W}

theorem waiting_of_pending {e : Endpoint} (hs : c.step (e.poll w) = some (c', o))
    (hp : o.event.isPending = true) : c'.Waiting e w := by
  rcases c with ⟨state, pw, cw, p, q, f, t⟩
  cases e with
  | consumer =>
    simp only [Endpoint.poll, step] at hs
    split_ifs at hs with ht
    obtain ⟨rfl, rfl⟩ := Prod.mk.inj (Option.some.inj hs)
    cases state with
    | idle => exact ⟨rfl, ht, rfl⟩
    | demanded => exact ⟨rfl, ht, rfl⟩
    | _ => cases hp
  | producer =>
    simp only [Endpoint.poll, step] at hs
    split at hs
    · obtain ⟨rfl, rfl⟩ := Prod.mk.inj (Option.some.inj hs)
      cases state with
      | idle => exact ⟨rfl, rfl⟩
      | _ => cases hp
    · rename_i item
      obtain ⟨rfl, rfl⟩ := Prod.mk.inj (Option.some.inj hs)
      cases state with
      | idle => exact ⟨rfl, item, rfl⟩
      | demanded => exact ⟨rfl, item, rfl⟩
      | _ => cases hp
    · obtain ⟨rfl, rfl⟩ := Prod.mk.inj (Option.some.inj hs)
      cases state with
      | offered item => exact ⟨rfl, item, rfl⟩
      | abandoned item => cases item <;> cases hp
      | _ => cases hp
    · obtain ⟨rfl, rfl⟩ := Prod.mk.inj (Option.some.inj hs)
      cases state with
      | abandoned item => cases hp
      | _ => exact ⟨rfl, rfl⟩
    · cases hs

theorem Waiting.not_ready {e : Endpoint} {w' : W} (h : c.Waiting e w)
    (hs : c.step (e.poll w') = some (c', o)) : o.event.isReady = false := by
  rcases c with ⟨state, pw, cw, p, q, f, t⟩
  cases e with
  | consumer =>
    obtain ⟨-, ht, hstate⟩ := h
    simp only [Endpoint.poll, step, if_pos ht] at hs
    obtain rfl : state = .demanded := hstate
    obtain ⟨rfl, rfl⟩ := Prod.mk.inj (Option.some.inj hs)
    rfl
  | producer =>
    obtain ⟨-, hf⟩ := h
    simp only [Endpoint.poll, step] at hs
    split at hf
    · rename_i hp
      obtain rfl : f = some (.demand false) := hp
      obtain rfl : state = .idle := hf
      obtain ⟨rfl, rfl⟩ := Prod.mk.inj (Option.some.inj hs)
      rfl
    · rename_i hp
      obtain rfl : f = some (.offer .submitted false) := hp
      obtain ⟨item, hstate⟩ := hf
      obtain rfl : state = .offered item := hstate
      obtain ⟨rfl, rfl⟩ := Prod.mk.inj (Option.some.inj hs)
      rfl
    · rename_i hp
      obtain rfl : f = some (.abandoned false) := hp
      cases state with
      | abandoned item => cases hf
      | _ =>
        obtain ⟨rfl, rfl⟩ := Prod.mk.inj (Option.some.inj hs)
        rfl
    · exact hf.elim

/-- While the producer's future waits, whatever the consumer does to the state wakes it. -/
theorem Waiting.producer_step (hc : c.Sound) (h : c.Waiting .producer w) {i : PipeCall T E W}
    (hi : i.leaves .producer = true) (hs : c.step i = some (c', o)) :
    c'.Waiting .producer w ∨ o.woke = some w := by
  obtain ⟨hw, hf⟩ := h
  -- The future borrows the producer, so no other operation of it is permitted.
  have hbusy : c.producerFree = false := by
    cases hp : c.producing with
    | none => simp [hp] at hf
    | some f => simp [producerFree, hp]
  cases i with
  | pollProducer w' => cases hi
  | dropFuture => cases hi
  | take =>
    simp only [step] at hs
    split_ifs at hs
    obtain ⟨rfl, rfl⟩ := Prod.mk.inj (Option.some.inj hs)
    exact .inl ⟨hw, hf⟩
  | dropTake =>
    simp only [step] at hs
    split_ifs at hs
    obtain ⟨rfl, rfl⟩ := Prod.mk.inj (Option.some.inj hs)
    exact .inl ⟨hw, hf⟩
  | pollTake w' =>
    simp only [step] at hs
    split_ifs at hs
    obtain ⟨rfl, rfl⟩ := Prod.mk.inj (Option.some.inj hs)
    cases hp : c.producing with
    | none => simp [hp] at hf
    | some f =>
      obtain ⟨-, hterm⟩ := hc.live_of_producing hp
      rcases c with ⟨state, pw, cw, p, q, f', t⟩
      -- Every poll that finds the channel open takes the producer's waker.
      cases state with
      | idle => exact .inr hw
      | demanded => exact .inr hw
      | offered item => exact .inr hw
      | abandoned item => exact .inl ⟨hw, hf⟩
      | _ => cases hterm
  | dropConsumer =>
    simp only [step] at hs
    split_ifs at hs
    unfold dropConsumer at hs
    by_cases hcomplete : c.consumer = some .complete
    · rw [if_pos hcomplete] at hs
      obtain ⟨rfl, rfl⟩ := Prod.mk.inj (Option.some.inj hs)
      exact .inl ⟨hw, hf⟩
    · rw [if_neg hcomplete] at hs
      obtain ⟨rfl, rfl⟩ := Prod.mk.inj (Option.some.inj hs)
      rcases c with ⟨state, pw, cw, p, q, f, t⟩
      cases state with
      | idle => exact .inr hw
      | demanded => exact .inr hw
      | offered item => exact .inr hw
      | abandoned item => exact .inr hw
      | _ => exact .inl ⟨hw, hf⟩
  | _ => simp [step, hbusy] at hs

/-- While `Take` waits, the producer changes the state only with its waker invoked. -/
theorem Waiting.consumer_step (hc : c.Sound) (h : c.Waiting .consumer w) {i : PipeCall T E W}
    (hi : i.leaves .consumer = true) (hs : c.step i = some (c', o)) :
    c'.Waiting .consumer w ∨ o.woke = some w := by
  obtain ⟨hw, ht, hstate⟩ := h
  have hbusy : c.consumerFree = false := by simp [consumerFree, ht]
  have hopen : c.isAbandoned = false := by simp [isAbandoned, hstate]
  -- Ending the channel takes the consumer's waker.
  have ending (terminal : PipeState T E) (hr : some (c.ended terminal) = some (c', o)) :
      o.woke = some w := by
    simp only [ended, hopen, Bool.false_eq_true, if_false] at hr
    obtain ⟨rfl, rfl⟩ := Prod.mk.inj (Option.some.inj hr)
    exact hw
  cases i with
  | pollTake w' => cases hi
  | dropTake => cases hi
  | close =>
    simp only [step] at hs
    split_ifs at hs with hf
    rw [close_eq hc hf] at hs
    exact .inr (ending _ hs)
  | fail error =>
    simp only [step] at hs
    split_ifs at hs with hf
    rw [fail_eq hc hf] at hs
    exact .inr (ending _ hs)
  | dropProducer =>
    simp only [step] at hs
    split_ifs at hs with hf
    rw [dropProducer_eq hc hf] at hs
    exact .inr (ending _ hs)
  | pollProducer w' =>
    rcases c with ⟨state, pw, cw, p, q, f, t⟩
    obtain rfl : state = .demanded := hstate
    simp only [step] at hs
    split at hs
    · obtain ⟨rfl, rfl⟩ := Prod.mk.inj (Option.some.inj hs)
      exact .inl ⟨hw, ht, rfl⟩
    · obtain ⟨rfl, rfl⟩ := Prod.mk.inj (Option.some.inj hs)
      exact .inr hw
    · obtain ⟨rfl, rfl⟩ := Prod.mk.inj (Option.some.inj hs)
      exact .inl ⟨hw, ht, rfl⟩
    · obtain ⟨rfl, rfl⟩ := Prod.mk.inj (Option.some.inj hs)
      exact .inl ⟨hw, ht, rfl⟩
    · cases hs
  | dropFuture =>
    rcases c with ⟨state, pw, cw, p, q, f, t⟩
    obtain rfl : state = .demanded := hstate
    simp only [step] at hs
    split at hs
    · rename_i lifecycle resolved
      obtain ⟨rfl, rfl⟩ := Prod.mk.inj (Option.some.inj hs)
      cases lifecycle with
      | pending item => exact .inl ⟨hw, ht, rfl⟩
      | submitted => exact .inl ⟨hw, ht, rfl⟩
    · obtain ⟨rfl, rfl⟩ := Prod.mk.inj (Option.some.inj hs)
      exact .inl ⟨hw, ht, rfl⟩
    · cases hs
  | take => simp [step, hbusy] at hs
  | dropConsumer => simp [step, hbusy] at hs
  | _ =>
    simp only [step] at hs
    split_ifs at hs
    obtain ⟨rfl, rfl⟩ := Prod.mk.inj (Option.some.inj hs)
    exact .inl ⟨hw, ht, hstate⟩

theorem Waiting.step {e : Endpoint} (hc : c.Sound) (h : c.Waiting e w) {i : PipeCall T E W}
    (hi : i.leaves e = true) (hs : c.step i = some (c', o)) : c'.Waiting e w ∨ o.woke = some w := by
  cases e with
  | producer => exact h.producer_step hc hi hs
  | consumer => exact h.consumer_step hc hi hs

end Channel

/-- No wakeup is lost: a future whose last poll returned `Pending`, and which would now return
`Ready`, has had the waker of that poll invoked since. -/
theorem no_lost_wakeup (e : Endpoint) {before since : List (PipeCall T E W × PipeOutput T E W)}
    {c c' : Channel T E W} {w w' : W} {o o' : PipeOutput T E W}
    (h : (pipe T E W).Reaches .new (before ++ (e.poll w, o) :: since) c)
    (hpending : o.event.isPending = true) (hlast : ∀ x ∈ since, x.1.leaves e = true)
    (hs : (pipe T E W).step c (e.poll w') = some (c', o')) (hready : o'.event.isReady = true) :
    ∃ x ∈ since, x.2.woke = some w := by
  -- Cut the run right after the poll that returned `Pending`.
  obtain ⟨c₀, c₁, hbefore, hstep, hsince⟩ := h.step_at
  have hinv : ∀ s i s' o, Channel.Sound s → (pipe T E W).step s i = some (s', o) → Channel.Sound s' :=
    fun _ _ _ _ hc hs => (hc.step_spec hs).1
  have hc₀ : c₀.Sound := hbefore.invariant (P := fun _ c => c.Sound) Channel.sound_new
    fun _ s i s' o => hinv s i s' o
  have hc₁ : c₁.Sound := hinv _ _ _ _ hc₀ hstep
  have hwait : c₁.Waiting e w := Channel.waiting_of_pending hstep hpending
  have huntil := hsince.until (R := fun x => x.2.woke = some w) hc₁ hwait hlast hinv
    fun _ _ _ _ hc hw hi hs => hw.step hc hi hs
  rcases huntil with hw | hwoke
  · rw [hw.not_ready hs] at hready
    cases hready
  · exact hwoke

/-- The wait for abandonment is woken by a first poll of `Take`, which changes nothing for it, and
finds its waker gone when the consumer is dropped. -/
theorem no_lost_wakeup_spurious :
    ∃ x ∈ [((.take : PipeCall Nat Unit Nat), (⟨.quiet, none⟩ : PipeOutput Nat Unit Nat)),
        (.pollTake 2, ⟨.took none, some 1⟩), (.dropTake, ⟨.quiet, none⟩), (.dropConsumer, ⟨.quiet, none⟩)],
      x.2.woke = some 1 := by
  have hrun : (pipe Nat Unit Nat).run .new
      [.abandoned, .pollProducer 1, .take, .pollTake 2, .dropTake, .dropConsumer] =
      some ([(.abandoned, ⟨.quiet, none⟩)] ++ (Endpoint.producer.poll 1, ⟨.abandoned false, none⟩) ::
        [(.take, ⟨.quiet, none⟩), (.pollTake 2, ⟨.took none, some 1⟩), (.dropTake, ⟨.quiet, none⟩),
          (.dropConsumer, ⟨.quiet, none⟩)],
        ⟨.abandoned none, none, none, some .active, none, some (.abandoned false), none⟩) := rfl
  have hready : (pipe Nat Unit Nat).step
      ⟨.abandoned none, none, none, some .active, none, some (.abandoned false), none⟩
      (Endpoint.producer.poll 3) =
      some (⟨.abandoned none, none, none, some .active, none, some (.abandoned true), none⟩,
        ⟨.abandoned true, none⟩) := rfl
  exact no_lost_wakeup .producer (Machine.reaches_of_run hrun) rfl (by decide) hready rfl

end Vakya
