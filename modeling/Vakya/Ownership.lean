import Vakya.Upgrade

/-!
# One owner of the upgraded transport

What holds along every run of the handoff: which future can ever be the claim,
where a transport is after the driver handed it over, and who is woken.
-/

namespace Vakya

open Library

variable {N V W : Type}

def HandoffEvent.isClaim : HandoffEvent N V → Bool
  | .claimed _ f => f.shared
  | _ => false

/-- The driver settled the exchange and kept the transport, or had none. -/
def HandoffEvent.isRefusal : HandoffEvent N V → Bool
  | .fulfilled (.error _) | .retired => true
  | _ => false

def HandoffCall.settles : HandoffCall N V W → Bool
  | .fulfill _ | .dropPending => true
  | _ => false

def HandoffCall.leaves (id : ℕ) : HandoffCall N V W → Bool
  | .poll id' _ | .dropFuture id' => id' != id
  | _ => true

def accepted : HandoffCall N V W × HandoffOutput N V W → List (Upgraded N V)
  | (.fulfill u, ⟨.fulfilled (.ok _), _⟩) => [u]
  | _ => []

/-- The transport that an operation gives to the application, or destroys with its claim. -/
def settled : HandoffCall N V W × HandoffOutput N V W → List (Upgraded N V)
  | (_, ⟨.polled (some (.ok u)), _⟩) | (_, ⟨.dropped (some (.ok u)), _⟩) => [u]
  | _ => []

def Handoff.stored (s : Handoff N V W) : List (Upgraded N V) :=
  match s.state.result with
  | some (.ok u) => [u]
  | _ => []

def Carries (u v : Upgraded N V) : Prop := v = u ∨ v = u.boxed

theorem carries_deliver (target : ClaimTarget N) (u : Upgraded N V) : Carries u (target.deliver u) := by
  cases target with
  | typed r w => exact .inl rfl
  | boxed => exact .inr rfl

namespace Handoff

variable [DecidableEq N] {s s' : Handoff N V W} {i : HandoffCall N V W} {o : HandoffOutput N V W}
  {tr : List (HandoffCall N V W × HandoffOutput N V W)}

theorem Move.live_of_live (h : s.Inv) (hm : Move s i o s') {id : ℕ} {f : OnUpgrade N}
    (hl : s'.Live id f) :
    (∃ g, s.Live id g) ∨ o.event = .claimed id f ∧ f.shared = true ∧ s.state.phase = .unclaimed := by
  cases hm with
  | refuse hc hp hk =>
    rw [live_issue] at hl
    rcases hl with ⟨-, -, hsh⟩ | hl
    · cases hsh
    · exact .inl ⟨f, hl⟩
  | claim hc hp hsh himm hfits =>
    rw [live_issue] at hl
    rcases hl with ⟨rfl, rfl, -⟩ | hl
    · exact .inr ⟨rfl, hsh, hp⟩
    · exact .inl ⟨f, hl⟩
  | fail hf hsh hsh' himm hk =>
    rw [live_set_idle hf hsh fun g hg => (Option.some.inj hg) ▸ hsh'] at hl
    exact .inl ⟨f, hl⟩
  | receive hl' hp hr =>
    exact absurd hl (h.not_live_set hl' (fun g hg => by cases hg; rfl) _ _)
  | forget hf hsh =>
    rw [live_set_idle hf hsh fun g hg => by cases hg] at hl
    exact .inl ⟨f, hl⟩
  | abandon hl' hp => exact absurd hl (h.not_live_set hl' (fun g hg => by cases hg) _ _)
  | discard hl' hp hr => exact absurd hl (h.not_live_set hl' (fun g hg => by cases hg) _ _)
  | _ => exact .inl ⟨f, hl⟩

theorem Move.phase (hm : Move s i o s') :
    (s'.state.phase = .unclaimed → s.state.phase = .unclaimed ∧ o.event.isClaim = false) ∧
      (s.state.phase = .closed → s'.state.phase = .closed) ∧
      (o.event.isClaim = true → s.state.phase = .unclaimed) := by
  cases hm with
  | refuse hc hp hk => exact ⟨fun h => absurd h hp, id, fun h => (by cases h)⟩
  | claim hc hp hsh himm hfits =>
    refine ⟨fun h => (by cases h), fun h => ?_, fun _ => hp⟩
    rw [hp] at h
    cases h
  | abandon hl hp =>
    refine ⟨fun h => (by cases h), fun h => ?_, fun h => (by cases h)⟩
    rw [hp] at h
    cases h
  | fail | wait | receive | forget => exact ⟨fun h => ⟨h, rfl⟩, id, fun h => (by cases h)⟩
  | _ => exact ⟨fun h => (by cases h), fun _ => rfl, fun h => (by cases h)⟩

theorem Move.refusal (hm : Move s i o s') :
    (o.event.isRefusal = true → s'.state.phase = .closed ∧ s'.stored = []) ∧
      (s.state.phase = .closed → s.stored = [] → s'.stored = []) := by
  cases hm with
  | deliver hl hfits hp ha =>
    refine ⟨fun h => (by cases h), fun hc => ?_⟩
    rw [hp] at hc
    cases hc
  | mismatch => exact ⟨fun _ => ⟨rfl, rfl⟩, fun _ _ => rfl⟩
  | keep => exact ⟨fun _ => ⟨rfl, rfl⟩, fun _ _ => rfl⟩
  | retire => exact ⟨fun _ => ⟨rfl, rfl⟩, fun _ _ => rfl⟩
  | expire => exact ⟨fun _ => ⟨rfl, rfl⟩, fun _ _ => rfl⟩
  | receive => exact ⟨fun h => (by cases h), fun _ _ => rfl⟩
  | abandon => exact ⟨fun h => (by cases h), fun _ _ => rfl⟩
  | discard => exact ⟨fun h => (by cases h), fun _ _ => rfl⟩
  | _ => exact ⟨fun h => (by cases h), fun _ h => h⟩

omit [DecidableEq N] in
theorem Inv.stored_eq_nil (h : s.Inv) (hp : s.state.phase ≠ .closed) : s.stored = [] := by
  cases hr : s.state.result with
  | none => simp [stored, hr]
  | some r => exact absurd (h.closed_of_result hr) hp

/-- Where the transport goes in one step. -/
theorem Move.transport (h : s.Inv) (hm : Move s i o s') :
    (accepted (i, o) = [] ∧ s.stored = settled (i, o) ++ s'.stored) ∨
      s.state.phase ≠ .closed ∧ s'.state.phase = .closed ∧ settled (i, o) = [] ∧
        ∃ u v, accepted (i, o) = [u] ∧ s'.stored = [v] ∧ Carries u v := by
  cases hm with
  | refuse hc hp hk => exact .inl ⟨by cases i <;> rfl, rfl⟩
  | claim hc hp hsh himm hfits => exact .inl ⟨by cases i <;> rfl, rfl⟩
  | fail => exact .inl ⟨rfl, rfl⟩
  | wait => exact .inl ⟨rfl, rfl⟩
  | forget => exact .inl ⟨rfl, rfl⟩
  | @receive id w f r hl hp hr =>
    refine .inl ⟨rfl, ?_⟩
    cases r <;> simp [stored, settled, hr]
  | @discard id f r hl hp hr =>
    refine .inl ⟨rfl, ?_⟩
    cases r <;> simp [stored, settled, hr]
  | @deliver u target id f hl hfits hp ha =>
    exact .inr ⟨by simp [hp], rfl, rfl, u, target.deliver u, rfl, rfl, carries_deliver target u⟩
  | abandon hl hp => exact .inl ⟨rfl, h.stored_eq_nil (by simp [hp])⟩
  | mismatch hl hp ha hk => exact .inl ⟨rfl, h.stored_eq_nil (by simp [hp])⟩
  | keep hp hno => exact .inl ⟨rfl, h.stored_eq_nil (h.pending_iff.mp hp)⟩
  | retire hp hl hk => exact .inl ⟨rfl, h.stored_eq_nil (h.pending_iff.mp hp)⟩
  | expire hp hno => exact .inl ⟨rfl, h.stored_eq_nil (h.pending_iff.mp hp)⟩

/-- What a run has recorded about the claim and the transport. -/
structure Recorded (tr : List (HandoffCall N V W × HandoffOutput N V W)) (s : Handoff N V W) : Prop where
  inv : s.Inv
  claims : (tr.filter (·.2.event.isClaim)).length ≤ 1
  unclaimed : s.state.phase = .unclaimed → tr.filter (·.2.event.isClaim) = []
  owner : ∀ x ∈ tr, ∀ id f, x.2.event = .claimed id f → f.shared = true → ∀ j g, s.Live j g → j = id
  refusal : ∀ x ∈ tr, x.2.event.isRefusal = true → s.state.phase = .closed ∧ s.stored = []
  fresh : s.state.phase ≠ .closed → tr.flatMap accepted = []
  balance : List.Forall₂ Carries (tr.flatMap accepted) (tr.flatMap settled ++ s.stored)

omit [DecidableEq N] in
theorem recorded_new : Recorded [] (new : Handoff N V W) where
  inv := inv_new
  claims := by simp
  unclaimed := by simp
  owner := by simp
  refusal := by simp
  fresh := by simp
  balance := .nil

theorem Recorded.owner_move (h : Recorded tr s) (hm : Move s i o s') {id : ℕ} {f : OnUpgrade N}
    (hseen : o.event = .claimed id f ∨ ∃ x ∈ tr, x.2.event = .claimed id f) (hsh : f.shared = true)
    {j : ℕ} {g : OnUpgrade N} (hl : s'.Live j g) : j = id := by
  rcases hm.live_of_live h.inv hl with ⟨g', hl'⟩ | ⟨he, hg, hp⟩
  · rcases hseen with he | ⟨x, hx, he⟩
    · -- A claim is returned live only while there is none.
      have hp := hm.phase.2.2 (by simp [HandoffEvent.isClaim, he, hsh])
      have hinv := h.inv.phase
      simp only [PhaseInv, hp] at hinv
      exact absurd hl' (hinv.2.2 _ _)
    · exact h.owner x hx id f he hsh j g' hl'
  · rcases hseen with he' | ⟨x, hx, he'⟩
    · rw [he] at he'
      cases he'
      rfl
    · have hnone := h.unclaimed hp
      rw [List.filter_eq_nil_iff] at hnone
      exact absurd (by simp [HandoffEvent.isClaim, he', hsh]) (hnone x hx)

theorem Recorded.move (h : Recorded tr s) (hm : Move s i o s') : Recorded (tr ++ [(i, o)]) s' := by
  obtain ⟨hun, hclosed, hclaim⟩ := hm.phase
  obtain ⟨hrefuse, hempty⟩ := hm.refusal
  refine ⟨hm.inv h.inv, ?_, fun hp => ?_, ?_, ?_, ?_, ?_⟩
  · -- A second live claim would need the phase of the first.
    by_cases hc : o.event.isClaim = true
    · rw [List.filter_append, h.unclaimed (hclaim hc), List.nil_append]
      exact List.length_filter_le _ _
    · simpa [List.filter_append, hc] using h.claims
  · obtain ⟨hp', hc⟩ := hun hp
    simp [List.filter_append, h.unclaimed hp', hc]
  · intro x hx id f he hsh j g hl
    refine h.owner_move hm ?_ hsh hl
    rcases List.mem_append.mp hx with hx | hx
    · exact .inr ⟨x, hx, he⟩
    · rw [List.mem_singleton] at hx
      subst hx
      exact .inl he
  · intro x hx he
    rcases List.mem_append.mp hx with hx | hx
    · obtain ⟨hp, hs⟩ := h.refusal x hx he
      exact ⟨hclosed hp, hempty hp hs⟩
    · rw [List.mem_singleton] at hx
      subst hx
      exact hrefuse he
  · intro hp
    have hopen : s.state.phase ≠ .closed := fun hc => hp (hclosed hc)
    rcases hm.transport h.inv with ⟨ha, -⟩ | ⟨-, hp', -⟩
    · simp [h.fresh hopen, ha]
    · exact absurd hp' hp
  · have hbalance := h.balance
    rcases hm.transport h.inv with ⟨ha, hst⟩ | ⟨hp, -, hset, u, v, ha, hst, hc⟩
    · simpa [ha, hst] using hbalance
    · have hnil := h.fresh hp
      rw [hnil, List.forall₂_nil_left_iff, List.append_eq_nil_iff] at hbalance
      simp [hnil, ha, hbalance.1, hset, hst, hc]

theorem recorded_of_reaches (h : (handoff N V W).Reaches .new tr s) : Recorded tr s :=
  h.invariant (P := fun tr s => Recorded tr s) recorded_new
    fun _ _ _ _ _ hrec hs => hrec.move (move_of_step hrec.inv hs)

/-- The claim `id` waits, registered under `w`, unless the exchange is settled. -/
def Registered (id : ℕ) (w : W) (s : Handoff N V W) : Prop :=
  s.pending = true → s.state.waker = some w ∧ ∃ f, s.Live id f

theorem Registered.move {id : ℕ} {w : W} (h : s.Inv) (hw : s.Registered id w)
    (hi : i.leaves id = true) (hm : Move s i o s') : s'.Registered id w := by
  cases hm with
  | @refuse i reader writer e hc hp hk =>
    intro hpending
    obtain ⟨hwaker, f, hl⟩ := hw hpending
    exact ⟨hwaker, f, live_issue.mpr (.inr hl)⟩
  | @claim i target f hc hp hsh himm hfits =>
    intro hpending
    obtain ⟨hwaker, g, hl⟩ := hw hpending
    exact ⟨hwaker, g, live_issue.mpr (.inr hl)⟩
  | @fail id' w' f f' e hf hsh hsh' himm hk =>
    intro hpending
    obtain ⟨hwaker, g, hl⟩ := hw hpending
    exact ⟨hwaker, g, (live_set_idle hf hsh (fun g hg => (Option.some.inj hg) ▸ hsh') id g).mpr hl⟩
  | @wait id' w' f target hl hp =>
    intro hpending
    obtain ⟨-, g, hl'⟩ := hw hpending
    simp [HandoffCall.leaves, h.unique hl hl'] at hi
  | @receive id' w' f r hl hp hr =>
    intro hpending
    exact absurd hp (h.pending_iff.mp hpending)
  | @forget id' f hf hsh =>
    intro hpending
    obtain ⟨hwaker, g, hl⟩ := hw hpending
    exact ⟨hwaker, g, (live_set_idle hf hsh (fun g hg => by cases hg) id g).mpr hl⟩
  | @abandon id' f target hl hp =>
    intro hpending
    obtain ⟨-, g, hl'⟩ := hw hpending
    simp [HandoffCall.leaves, h.unique hl hl'] at hi
  | @discard id' f r hl hp hr =>
    intro hpending
    exact absurd hp (h.pending_iff.mp hpending)
  | _ =>
    intro hpending
    cases hpending

theorem registered_of_pending {id : ℕ} {w : W} (h : s.Inv) (hs : s.step (.poll id w) = some (s', o))
    (ho : o.event = .polled none) : s'.Registered id w := by
  have hm := move_of_step h hs
  generalize hi : HandoffCall.poll id w = i at hm
  cases hm with
  | wait hl hp =>
    cases hi
    exact fun _ => ⟨rfl, _, hl⟩
  | _ => cases ho

theorem Move.woke (h : s.Inv) (hm : Move s i o s') (hi : i.settles = true) :
    s.pending = true ∧ o.woke = s.state.waker := by
  cases hm with
  | refuse hc hp hk => cases i <;> simp [HandoffCall.settles, HandoffCall.isClaim] at hi hc
  | claim hc hp hsh himm hfits => cases i <;> simp [HandoffCall.settles, HandoffCall.isClaim] at hi hc
  | deliver hl hfits hp ha => exact ⟨h.pending_iff.mpr (by simp [hp]), rfl⟩
  | mismatch hl hp ha hk => exact ⟨h.pending_iff.mpr (by simp [hp]), rfl⟩
  | keep hp hno => exact ⟨hp, rfl⟩
  | retire hp hl hk => exact ⟨hp, rfl⟩
  | expire hp hno => exact ⟨hp, rfl⟩
  | _ => cases hi

end Handoff

/-- A transport that leaves the protocol has one owner: everything the two sides of a handoff can
rely on after the run `tr` has led to `s`. -/
structure OneOwner [DecidableEq N] (tr : List (HandoffCall N V W × HandoffOutput N V W))
    (s : Handoff N V W) : Prop where
  /-- At most one future was ever returned as a live claim. -/
  claims : (tr.filter (·.2.event.isClaim)).length ≤ 1
  /-- Any other future fails at its next poll. -/
  others_fail : ∀ {id f} (w : W), s.future id = some f → f.shared = false →
    ∃ s' e, s.step (.poll id w) = some (s', ⟨.polled (some (.error e)), none⟩) ∧ e.kind = .upgrade
  /-- The driver's one `fulfill` stores the transport for a live claim that accepts it, or returns
  it as it was, and not both. -/
  fulfills : ∀ {u s' o}, s.step (.fulfill u) = some (s', o) →
    (∃ target id f, s.state.phase = .claimed target true ∧ s.Live id f ∧ target.Fits f ∧
      target.accepts u = true ∧ o.event = .fulfilled (.ok u.kind) ∧ s'.stored = [target.deliver u]) ∨
    ((∀ target, s.state.phase = .claimed target true → target.accepts u = false) ∧
      o.event = .fulfilled (.error u) ∧ s'.stored = [])
  /-- A stored transport is downcast to the types of its claim. -/
  downcasts : ∀ {id f u} (w : W), s.Live id f → s.state.result = some (.ok u) →
    ∃ s', s.step (.poll id w) = some (s', ⟨.polled (some (.ok u)), none⟩)
  /-- A claim that did not match, or whose exchange ended without an upgrade, fails. -/
  refused : (∃ x ∈ tr, x.2.event.isRefusal = true) → ∀ {id f} (w : W), s.Live id f →
    ∃ s' e, s.step (.poll id w) = some (s', ⟨.polled (some (.error e)), none⟩) ∧ e.kind = .upgrade
  /-- Settling the exchange wakes a claim whose last poll returned `Pending`. -/
  wakes : ∀ {before since id w o}, tr = before ++ (.poll id w, o) :: since → o.event = .polled none →
    (∀ x ∈ since, x.1.leaves id = true) →
    ∀ {i s' o'}, i.settles = true → s.step i = some (s', o') → o'.woke = some w
  /-- When the claim was dropped first, the driver gets the transport back. -/
  dropped : ∀ {x id f}, x ∈ tr → x.2.event = .claimed id f → f.shared = true → s.future id = none →
    ∀ {u s' o}, s.step (.fulfill u) = some (s', o) → o.event = .fulfilled (.error u)
  /-- Every transport taken from the driver was received, was dropped with its claim or is stored. -/
  balance : List.Forall₂ Carries (tr.flatMap accepted) (tr.flatMap settled ++ s.stored)

namespace Handoff

variable [DecidableEq N] {s s' : Handoff N V W} {o : HandoffOutput N V W}
  {tr : List (HandoffCall N V W × HandoffOutput N V W)}

theorem polls (h : s.Inv) {id : ℕ} {f : OnUpgrade N} (hf : s.future id = some f) (w : W) :
    ∃ s' r, s.step (.poll id w) = some (s', ⟨.polled r, none⟩) ∧
      (f.shared = true → r = s.state.result) ∧
      (f.shared = false → ∃ e, r = some (.error e) ∧ e.kind = .upgrade) := by
  have hs : s.step (.poll id w) = some (s.poll id f w) := by simp only [step, hf, Option.map_some]
  have hm := move_poll h hf w
  rw [hs]
  generalize s.poll id f w = result at hm
  obtain ⟨s', o⟩ := result
  cases hm with
  | refuse hc => cases hc
  | claim hc => cases hc
  | @fail _ _ f' _ e hf' hsh hsh' himm hk =>
    obtain rfl := Option.some.inj (hf.symm.trans hf')
    refine ⟨_, some (.error e), rfl, fun ht => ?_, fun _ => ⟨e, rfl, hk⟩⟩
    rw [hsh] at ht
    cases ht
  | @wait _ _ f' target hl hp =>
    obtain rfl := Option.some.inj (hf.symm.trans hl.1)
    have hinv := h.phase
    simp only [PhaseInv, hp] at hinv
    refine ⟨_, none, rfl, fun _ => hinv.1.symm, fun hsh => ?_⟩
    rw [hl.2] at hsh
    cases hsh
  | @receive _ _ f' r hl hp hr =>
    obtain rfl := Option.some.inj (hf.symm.trans hl.1)
    refine ⟨_, some r, rfl, fun _ => hr.symm, fun hsh => ?_⟩
    rw [hl.2] at hsh
    cases hsh

theorem fulfills (h : s.Inv) {u : Upgraded N V} (hs : s.step (.fulfill u) = some (s', o)) :
    (∃ target id f, s.state.phase = .claimed target true ∧ s.Live id f ∧ target.Fits f ∧
      target.accepts u = true ∧ o.event = .fulfilled (.ok u.kind) ∧ s'.stored = [target.deliver u]) ∨
    ((∀ target, s.state.phase = .claimed target true → target.accepts u = false) ∧
      o.event = .fulfilled (.error u) ∧ s'.stored = []) := by
  have hm := move_of_step h hs
  cases hm with
  | refuse hc => cases hc
  | claim hc => cases hc
  | @deliver u target id f hl hfits hp ha => exact .inl ⟨target, id, f, hp, hl, hfits, ha, rfl, rfl⟩
  | @mismatch u target id f e hl hp ha hk =>
    refine .inr ⟨fun target' hp' => ?_, rfl, rfl⟩
    rw [hp] at hp'
    cases hp'
    exact ha
  | keep hp hno =>
    refine .inr ⟨fun target hp' => ?_, rfl, rfl⟩
    obtain ⟨id, f, hl, -⟩ := h.live_of_claimed hp'
    exact absurd hl (hno id f)

omit [DecidableEq N] in
/-- After a refusal a claim that is still live finds an error stored for it. -/
theorem Recorded.refused (h : Recorded tr s) {x : HandoffCall N V W × HandoffOutput N V W} (hx : x ∈ tr)
    (hr : x.2.event.isRefusal = true) {id : ℕ} {f : OnUpgrade N} (hl : s.Live id f) :
    ∃ e, s.state.result = some (.error e) ∧ e.kind = .upgrade := by
  obtain ⟨hp, hst⟩ := h.refusal x hx hr
  have hinv := h.inv.phase
  simp only [PhaseInv, hp] at hinv
  cases hres : s.state.result with
  | none =>
    rw [hres] at hinv
    exact absurd hl (hinv.2 id f)
  | some r =>
    cases r with
    | ok u => simp [stored, hres] at hst
    | error e =>
      rw [hres] at hinv
      exact ⟨e, rfl, hinv.2.1⟩

theorem wakes (h : (handoff N V W).Reaches .new tr s) {id : ℕ} {w : W} {o : HandoffOutput N V W}
    {before since : List (HandoffCall N V W × HandoffOutput N V W)}
    (htr : tr = before ++ (.poll id w, o) :: since) (ho : o.event = .polled none)
    (hsince : ∀ x ∈ since, x.1.leaves id = true) : s.Registered id w := by
  subst htr
  obtain ⟨s₀, s₁, hbefore, hpoll, hlast⟩ := h.step_at
  have hs : s₀.step (.poll id w) = some (s₁, o) := hpoll
  have hinv₀ := (recorded_of_reaches hbefore).inv
  have huntil := hlast.until (R := fun _ => False) (hinv₀.step hs) (registered_of_pending hinv₀ hs ho) hsince
    (fun _ _ _ _ hi hs => hi.step hs)
    fun _ _ _ _ hi hr hq hs => .inl (hr.move hi hq (move_of_step hi hs))
  rcases huntil with hr | ⟨-, -, hfalse⟩
  · exact hr
  · exact hfalse.elim

end Handoff

/-- For every interleaving of claims, polls, destructors and the driver's one settlement, the
upgraded transport has exactly one owner. -/
theorem upgrade_one_owner [DecidableEq N] {tr : List (HandoffCall N V W × HandoffOutput N V W)}
    {s : Handoff N V W} (h : (handoff N V W).Reaches .new tr s) : OneOwner tr s := by
  have hrec := Handoff.recorded_of_reaches h
  refine ⟨hrec.claims, ?_, Handoff.fulfills hrec.inv, ?_, ?_, ?_, ?_, hrec.balance⟩
  · intro id f w hf hsh
    obtain ⟨s', r, hs, -, hfail⟩ := Handoff.polls hrec.inv hf w
    obtain ⟨e, rfl, hk⟩ := hfail hsh
    exact ⟨s', e, hs, hk⟩
  · intro id f u w hl hres
    obtain ⟨s', r, hs, hok, -⟩ := Handoff.polls hrec.inv hl.1 w
    rw [hok hl.2, hres] at hs
    exact ⟨s', hs⟩
  · rintro ⟨x, hx, hr⟩ id f w hl
    obtain ⟨e, hres, hk⟩ := hrec.refused hx hr hl
    obtain ⟨s', r, hs, hok, -⟩ := Handoff.polls hrec.inv hl.1 w
    rw [hok hl.2, hres] at hs
    exact ⟨s', e, hs, hk⟩
  · intro before since id w o htr ho hsince i s' o' hi hs
    obtain ⟨hpending, hwoke⟩ := (Handoff.move_of_step hrec.inv hs).woke hrec.inv hi
    rw [hwoke]
    exact (Handoff.wakes h htr ho hsince hpending).1
  · intro x id f hx he hsh hgone u s' o hs
    rcases Handoff.fulfills hrec.inv hs with ⟨target, j, g, -, hl, -⟩ | ⟨-, ho, -⟩
    · -- The claim the run has seen is the only one that could be live, and it is gone.
      obtain rfl := hrec.owner x hx id f he hsh j g hl
      rw [hl.1] at hgone
      cases hgone
    · exact ho

/-- A boxed claim is woken by `fulfill` and receives the erased transport; the second future fails. -/
theorem upgrade_one_owner_boxed :
    OneOwner (N := Bool) (V := Unit) (W := ℕ)
      [(.claimBoxed, ⟨.claimed 0 ⟨.boxedReadHalf, .boxedWriteHalf, true, none⟩, none⟩),
        (.claim (.named true) (.named true),
          ⟨.claimed 1 (.failed (.named true) (.named true) (.new .upgrade "upgrade was already claimed")), none⟩),
        (.poll 0 5, ⟨.polled none, none⟩),
        (.fulfill ⟨.named true (), .named false (), [7], .tunnel⟩, ⟨.fulfilled (.ok .tunnel), some 5⟩),
        (.poll 0 5, ⟨.polled (some (.ok
          ⟨.boxedRead (.named true ()), .boxedWrite (.named false ()), [7], .tunnel⟩)), none⟩)]
      ⟨⟨.closed, none, none⟩, false,
        [some ⟨.boxedReadHalf, .boxedWriteHalf, false, none⟩,
          some (.failed (.named true) (.named true) (.new .upgrade "upgrade was already claimed"))]⟩ := by
  apply upgrade_one_owner
  have hrun (is : List (HandoffCall Bool Unit ℕ)) {tr : List _} {t : Handoff Bool Unit ℕ}
      (h : (handoff Bool Unit ℕ).run .new is = some (tr, t)) :
      (handoff Bool Unit ℕ).Reaches .new tr t := Machine.reaches_of_run h
  exact hrun [.claimBoxed, .claim (.named true) (.named true), .poll 0 5,
    .fulfill ⟨.named true (), .named false (), [7], .tunnel⟩, .poll 0 5] rfl

end Vakya
