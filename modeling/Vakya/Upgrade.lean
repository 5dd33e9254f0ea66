import Vakya.Library.Machine
import Vakya.Error
import Mathlib.Data.List.Forall2

/-!
# Ownership of an upgraded transport (`upgrade.rs`)

The driver holds the one `PendingUpgrade`, the application the `UpgradeSlot` and
every future it made with it. A half of a transport is a value of some type; a
`Box<dyn Any>` is that value together with its type, which is all a downcast
looks at. Wakers are identified with the task they wake.
-/

namespace Vakya

open Library

/-- The type of a transport half: one of the application's, or an erased half. -/
inductive TypeId (N : Type)
  | named (name : N)
  | boxedReadHalf
  | boxedWriteHalf
deriving DecidableEq, Repr

/-- A transport half with its type. `BoxedReadHalf::new` accepts erased halves too. -/
inductive Half (N V : Type)
  | named (name : N) (value : V)
  | boxedRead (inner : Half N V)
  | boxedWrite (inner : Half N V)
deriving DecidableEq, Repr

def Half.typeId {N V : Type} : Half N V → TypeId N
  | .named name _ => .named name
  | .boxedRead _ => .boxedReadHalf
  | .boxedWrite _ => .boxedWriteHalf

/-- Settled halves and the bytes read beyond the message boundary. -/
structure Upgraded (N V : Type) where
  reader : Half N V
  writer : Half N V
  readAhead : Bytes
  kind : UpgradeKind
deriving DecidableEq, Repr

namespace Upgraded

variable {N V : Type}

def HasTypes (u : Upgraded N V) (r w : TypeId N) : Prop := u.reader.typeId = r ∧ u.writer.typeId = w

instance [DecidableEq N] (u : Upgraded N V) (r w : TypeId N) : Decidable (u.HasTypes r w) :=
  inferInstanceAs (Decidable (_ ∧ _))

def boxed (u : Upgraded N V) : Upgraded N V :=
  { u with reader := .boxedRead u.reader, writer := .boxedWrite u.writer }

/-- `BoxedUpgraded::downcast`. Only a value made by `boxed` has this type. -/
def downcast [DecidableEq N] (u : Upgraded N V) (r w : TypeId N) :
    Except (Upgraded N V) (Upgraded N V) :=
  match u.reader, u.writer with
  | .boxedRead reader, .boxedWrite writer =>
    if reader.typeId = r ∧ writer.typeId = w then .ok { u with reader := reader, writer := writer }
    else .error u
  | _, _ => .error u

/-- Erasure loses nothing: the original halves come back with what was read ahead. -/
theorem downcast_boxed [DecidableEq N] (u : Upgraded N V) :
    u.boxed.downcast u.reader.typeId u.writer.typeId = .ok u := by
  simp [boxed, downcast]

end Upgraded

inductive ClaimTarget (N : Type)
  | typed (reader writer : TypeId N)
  | boxed
deriving DecidableEq, Repr

inductive ClaimPhase (N : Type)
  | unclaimed
  | claimed (target : ClaimTarget N) (alive : Bool)
  | closed
deriving DecidableEq, Repr

def ClaimPhase.abandon {N : Type} : ClaimPhase N → ClaimPhase N
  | .claimed target _ => .claimed target false
  | phase => phase

structure UpgradeState (N V W : Type) where
  phase : ClaimPhase N
  result : Option (Except Error (Upgraded N V))
  waker : Option W

/-- A future `OnUpgrade<R, W>`; `shared` is true while it holds the coordination state. -/
structure OnUpgrade (N : Type) where
  reader : TypeId N
  writer : TypeId N
  shared : Bool
  immediate : Option Error

/-- The shared state, whether the driver still has its `PendingUpgrade`, and every future the slot
returned, in order (absent once dropped). -/
structure Handoff (N V W : Type) where
  state : UpgradeState N V W
  pending : Bool
  futures : List (Option (OnUpgrade N))

inductive HandoffCall (N V W : Type)
  | claim (reader writer : TypeId N)
  | claimBoxed
  | poll (id : ℕ) (waker : W)
  | dropFuture (id : ℕ)
  | fulfill (upgraded : Upgraded N V)
  | dropPending

/-- What one operation returns. A poll that returned `Pending` has no result; a dropped future
drops the result it never received. -/
inductive HandoffEvent (N V : Type)
  | claimed (id : ℕ) (future : OnUpgrade N)
  | polled (result : Option (Except Error (Upgraded N V)))
  | dropped (result : Option (Except Error (Upgraded N V)))
  | fulfilled (result : Except (Upgraded N V) UpgradeKind)
  | retired

structure HandoffOutput (N V W : Type) where
  event : HandoffEvent N V
  woke : Option W

def OnUpgrade.failed {N : Type} (reader writer : TypeId N) (error : Error) : OnUpgrade N :=
  ⟨reader, writer, false, some error⟩

def ClaimTarget.accepts {N V : Type} [DecidableEq N] (target : ClaimTarget N) (u : Upgraded N V) : Bool :=
  target == .typed u.reader.typeId u.writer.typeId || target == .boxed

def ClaimTarget.deliver {N V : Type} (target : ClaimTarget N) (u : Upgraded N V) : Upgraded N V :=
  match target with
  | .boxed => u.boxed
  | .typed _ _ => u

namespace Handoff

variable {N V W : Type}

def new : Handoff N V W := ⟨⟨.unclaimed, none, none⟩, true, []⟩

def issue (s : Handoff N V W) (f : OnUpgrade N) : Handoff N V W × HandoffOutput N V W :=
  ({ s with futures := s.futures ++ [some f] }, ⟨.claimed s.futures.length f, none⟩)

def claimTarget (s : Handoff N V W) (reader writer : TypeId N) (target : ClaimTarget N) :
    Handoff N V W × HandoffOutput N V W :=
  match s.state.phase with
  | .unclaimed =>
    issue { s with state := { s.state with phase := .claimed target true } } ⟨reader, writer, true, none⟩
  | .claimed _ _ => s.issue (.failed reader writer (.new .upgrade "upgrade was already claimed"))
  | .closed => s.issue (.failed reader writer (.new .upgrade "upgrade claim is no longer available"))

def claim (s : Handoff N V W) (reader writer : TypeId N) : Handoff N V W × HandoffOutput N V W :=
  s.claimTarget reader writer (.typed reader writer)

def claimBoxed (s : Handoff N V W) : Handoff N V W × HandoffOutput N V W :=
  s.claimTarget .boxedReadHalf .boxedWriteHalf .boxed

def poll [DecidableEq N] (s : Handoff N V W) (id : ℕ) (f : OnUpgrade N) (waker : W) :
    Handoff N V W × HandoffOutput N V W :=
  match f.immediate with
  | some error =>
    ({ s with futures := s.futures.set id (some { f with immediate := none }) },
      ⟨.polled (some (.error error)), none⟩)
  | none =>
    if f.shared then
      match s.state.result with
      | none => ({ s with state := { s.state with waker := some waker } }, ⟨.polled none, none⟩)
      | some result =>
        let s := { s with
          state := { s.state with result := none }
          futures := s.futures.set id (some { f with shared := false }) }
        match result with
        | .ok upgraded =>
          if upgraded.HasTypes f.reader f.writer then (s, ⟨.polled (some (.ok upgraded)), none⟩)
          else (s, ⟨.polled (some (.error
            (.new .upgrade "upgrade transport types do not match this future"))), none⟩)
        | .error error => (s, ⟨.polled (some (.error error)), none⟩)
    else
      (s, ⟨.polled (some (.error (.new .upgrade "upgrade future polled after completion"))), none⟩)

/-- The destructor of the future `f`, which is number `id`. -/
def dropFuture (s : Handoff N V W) (id : ℕ) (f : OnUpgrade N) : Handoff N V W × HandoffOutput N V W :=
  let futures := s.futures.set id none
  if f.shared then
    ({ s with state := ⟨s.state.phase.abandon, none, none⟩, futures := futures },
      ⟨.dropped s.state.result, none⟩)
  else ({ s with futures := futures }, ⟨.dropped none, none⟩)

def fulfill [DecidableEq N] (s : Handoff N V W) (upgraded : Upgraded N V) :
    Handoff N V W × HandoffOutput N V W :=
  let close (result : Option (Except Error (Upgraded N V))) : Handoff N V W :=
    { s with state := ⟨.closed, result, none⟩, pending := false }
  match s.state.phase with
  | .claimed target true =>
    if target.accepts upgraded then
      (close (some (.ok (target.deliver upgraded))), ⟨.fulfilled (.ok upgraded.kind), s.state.waker⟩)
    else
      (close (some (.error (.new .upgrade "upgrade transport types do not match this connection"))),
        ⟨.fulfilled (.error upgraded), s.state.waker⟩)
  | _ => (close s.state.result, ⟨.fulfilled (.error upgraded), s.state.waker⟩)

/-- The destructor of a `PendingUpgrade` that was not fulfilled. -/
def dropPending (s : Handoff N V W) : Handoff N V W × HandoffOutput N V W :=
  let result := match s.state.phase with
    | .claimed _ true => some (.error (.new .upgrade "message did not complete an upgrade"))
    | _ => s.state.result
  ({ s with state := ⟨.closed, result, none⟩, pending := false }, ⟨.retired, s.state.waker⟩)

def future (s : Handoff N V W) (id : ℕ) : Option (OnUpgrade N) := s.futures.getD id none

/-- `fulfill` consumes the `PendingUpgrade`, whose destructor then finds it settled. -/
def step [DecidableEq N] (s : Handoff N V W) :
    HandoffCall N V W → Option (Handoff N V W × HandoffOutput N V W)
  | .claim reader writer => some (s.claim reader writer)
  | .claimBoxed => some s.claimBoxed
  | .poll id waker => (s.future id).map fun f => s.poll id f waker
  | .dropFuture id => (s.future id).map fun f => s.dropFuture id f
  | .fulfill upgraded => if s.pending then some (s.fulfill upgraded) else none
  | .dropPending => if s.pending then some s.dropPending else none

end Handoff

def handoff (N V W : Type) [DecidableEq N] :
    Machine (Handoff N V W) (HandoffCall N V W) (HandoffOutput N V W) where
  step := Handoff.step

variable {N V W : Type}

def HandoffCall.isClaim : HandoffCall N V W → Bool
  | .claim _ _ | .claimBoxed => true
  | _ => false

def ClaimTarget.Fits (target : ClaimTarget N) (f : OnUpgrade N) : Prop :=
  match target with
  | .typed reader writer => f.reader = reader ∧ f.writer = writer
  | .boxed => f.reader = .boxedReadHalf ∧ f.writer = .boxedWriteHalf

theorem ClaimTarget.Fits.hasTypes [DecidableEq N] {target : ClaimTarget N} {f : OnUpgrade N}
    {u : Upgraded N V} (h : target.Fits f) (ha : target.accepts u = true) :
    (target.deliver u).HasTypes f.reader f.writer := by
  cases target with
  | boxed =>
    obtain ⟨hr, hw⟩ := h
    rw [hr, hw]
    exact ⟨rfl, rfl⟩
  | typed reader writer =>
    obtain ⟨hr, hw⟩ := h
    simp only [accepts, Bool.or_eq_true, beq_iff_eq, typed.injEq, reduceCtorEq, or_false] at ha
    rw [hr, hw, ha.1, ha.2]
    exact ⟨rfl, rfl⟩

namespace Handoff

def Live (s : Handoff N V W) (id : ℕ) (f : OnUpgrade N) : Prop := s.future id = some f ∧ f.shared = true

/-- What the phase says about the stored result, the waker and the live claim. -/
def PhaseInv (s : Handoff N V W) : Prop :=
  match s.state.phase with
  | .unclaimed | .claimed _ false =>
    s.state.result = none ∧ s.state.waker = none ∧ ∀ id f, ¬ s.Live id f
  | .claimed target true => s.state.result = none ∧ ∃ id f, s.Live id f ∧ target.Fits f
  | .closed => s.state.waker = none ∧
    match s.state.result with
    | none => ∀ id f, ¬ s.Live id f
    | some (.ok u) => ∃ id f, s.Live id f ∧ u.HasTypes f.reader f.writer
    | some (.error e) => e.kind = .upgrade ∧ ∃ id f, s.Live id f

structure Inv (s : Handoff N V W) : Prop where
  unique : ∀ {i j f g}, s.Live i f → s.Live j g → i = j
  immediate : ∀ {i f e}, s.future i = some f → f.immediate = some e →
    e.kind = .upgrade ∧ f.shared = false
  pending_iff : s.pending = true ↔ s.state.phase ≠ .closed
  phase : s.PhaseInv

variable {s s' : Handoff N V W} {o : HandoffOutput N V W}

theorem inv_new : (new : Handoff N V W).Inv := by
  refine ⟨?_, ?_, ?_, rfl, rfl, ?_⟩
  · intro i j f g h
    simp [Live, future, new] at h
  · intro i f e h
    simp [future, new] at h
  · simp [new]
  · intro i f h
    simp [Live, future, new] at h

theorem lt_of_future {id : ℕ} {f : OnUpgrade N} (h : s.future id = some f) : id < s.futures.length := by
  by_contra hge
  have hnone : s.futures[id]? = none := List.getElem?_eq_none (by omega)
  simp [future, List.getD_eq_getElem?_getD, hnone] at h

theorem future_issue (f : OnUpgrade N) (i : ℕ) :
    (s.issue f).1.future i = if i = s.futures.length then some f else s.future i := by
  simp only [issue, future, List.getD_eq_getElem?_getD]
  split_ifs with hi
  · simp [hi]
  · rcases Nat.lt_or_gt_of_ne hi with hlt | hgt
    · rw [List.getElem?_append_left hlt]
    · rw [List.getElem?_eq_none (by simp; omega), List.getElem?_eq_none (by omega)]

theorem future_set {id : ℕ} {f : OnUpgrade N} (h : s.future id = some f) (x : Option (OnUpgrade N))
    (state : UpgradeState N V W) (pending : Bool) (i : ℕ) :
    future ⟨state, pending, s.futures.set id x⟩ i = if i = id then x else s.future i := by
  have hlt := lt_of_future h
  simp only [future, List.getD_eq_getElem?_getD]
  split_ifs with hi
  · simp [hi, hlt]
  · rw [List.getElem?_set_ne (Ne.symm hi)]

theorem set_future {id : ℕ} {f : OnUpgrade N} (h : s.future id = some f) :
    s.futures.set id (some f) = s.futures := by
  have hlt := lt_of_future h
  have hget : s.futures[id] = some f := by
    simpa [future, List.getD_eq_getElem?_getD, hlt] using h
  rw [← hget, List.set_getElem_self]

def close (s : Handoff N V W) (result : Option (Except Error (Upgraded N V))) : Handoff N V W :=
  ⟨⟨.closed, result, none⟩, false, s.futures⟩

/-- Every step of the protocol, with what the invariant adds to the code's own tests. -/
inductive Move [DecidableEq N] (s : Handoff N V W) :
    HandoffCall N V W → HandoffOutput N V W → Handoff N V W → Prop
  | refuse {i reader writer e} : i.isClaim = true → s.state.phase ≠ .unclaimed → e.kind = .upgrade →
      Move s i ⟨.claimed s.futures.length (.failed reader writer e), none⟩
        (s.issue (.failed reader writer e)).1
  | claim {i target f} : i.isClaim = true → s.state.phase = .unclaimed → f.shared = true → f.immediate = none →
      target.Fits f →
      Move s i ⟨.claimed s.futures.length f, none⟩
        (issue { s with state := { s.state with phase := .claimed target true } } f).1
  | fail {id w f f' e} : s.future id = some f → f.shared = false → f'.shared = false →
      f'.immediate = none → e.kind = .upgrade →
      Move s (.poll id w) ⟨.polled (some (.error e)), none⟩
        { s with futures := s.futures.set id (some f') }
  | wait {id w f target} : s.Live id f → s.state.phase = .claimed target true →
      Move s (.poll id w) ⟨.polled none, none⟩ { s with state := { s.state with waker := some w } }
  | receive {id w f r} : s.Live id f → s.state.phase = .closed → s.state.result = some r →
      Move s (.poll id w) ⟨.polled (some r), none⟩
        { s with
          state := { s.state with result := none }
          futures := s.futures.set id (some { f with shared := false }) }
  | forget {id f} : s.future id = some f → f.shared = false →
      Move s (.dropFuture id) ⟨.dropped none, none⟩ { s with futures := s.futures.set id none }
  | abandon {id f target} : s.Live id f → s.state.phase = .claimed target true →
      Move s (.dropFuture id) ⟨.dropped none, none⟩
        { s with state := ⟨.claimed target false, none, none⟩, futures := s.futures.set id none }
  | discard {id f r} : s.Live id f → s.state.phase = .closed → s.state.result = some r →
      Move s (.dropFuture id) ⟨.dropped (some r), none⟩
        { s with state := ⟨.closed, none, none⟩, futures := s.futures.set id none }
  | deliver {u target id f} : s.Live id f → target.Fits f → s.state.phase = .claimed target true →
      target.accepts u = true →
      Move s (.fulfill u) ⟨.fulfilled (.ok u.kind), s.state.waker⟩ (s.close (some (.ok (target.deliver u))))
  | mismatch {u target id f e} : s.Live id f → s.state.phase = .claimed target true →
      target.accepts u = false → e.kind = .upgrade →
      Move s (.fulfill u) ⟨.fulfilled (.error u), s.state.waker⟩ (s.close (some (.error e)))
  | keep {u} : s.pending = true → (∀ id f, ¬ s.Live id f) →
      Move s (.fulfill u) ⟨.fulfilled (.error u), s.state.waker⟩ (s.close none)
  | retire {id f e} : s.pending = true → s.Live id f → e.kind = .upgrade →
      Move s .dropPending ⟨.retired, s.state.waker⟩ (s.close (some (.error e)))
  | expire : s.pending = true → (∀ id f, ¬ s.Live id f) →
      Move s .dropPending ⟨.retired, s.state.waker⟩ (s.close none)

theorem Inv.claimed_of_live (h : s.Inv) {id : ℕ} {f : OnUpgrade N} (hl : s.Live id f)
    (hr : s.state.result = none) : ∃ target, s.state.phase = .claimed target true := by
  have hp := h.phase
  unfold PhaseInv at hp
  split at hp
  · exact absurd hl (hp.2.2 id f)
  · exact absurd hl (hp.2.2 id f)
  · rename_i target hphase
    exact ⟨target, hphase⟩
  · rw [hr] at hp
    exact absurd hl (hp.2 id f)

theorem Inv.closed_of_result (h : s.Inv) {r : Except Error (Upgraded N V)}
    (hr : s.state.result = some r) : s.state.phase = .closed := by
  have hp := h.phase
  unfold PhaseInv at hp
  split at hp <;> simp_all

theorem Inv.unclaimed (h : s.Inv) (hpending : s.pending = true)
    (hp : ∀ target, s.state.phase ≠ .claimed target true) :
    s.state.result = none ∧ ∀ id f, ¬ s.Live id f := by
  have hopen := h.pending_iff.mp hpending
  have hinv := h.phase
  unfold PhaseInv at hinv
  split at hinv
  · exact ⟨hinv.1, hinv.2.2⟩
  · exact ⟨hinv.1, hinv.2.2⟩
  · exact absurd ‹_› (hp _)
  · exact absurd ‹_› hopen

theorem Inv.live_of_claimed (h : s.Inv) {target : ClaimTarget N}
    (hp : s.state.phase = .claimed target true) : ∃ id f, s.Live id f ∧ target.Fits f := by
  have hinv := h.phase
  simp only [PhaseInv, hp] at hinv
  exact hinv.2

section Steps

variable [DecidableEq N]

theorem move_claimTarget {i : HandoffCall N V W} (hi : i.isClaim = true) {reader writer : TypeId N}
    {target : ClaimTarget N} (hfits : target.Fits (⟨reader, writer, true, none⟩ : OnUpgrade N)) :
    Move s i (s.claimTarget reader writer target).2 (s.claimTarget reader writer target).1 := by
  unfold claimTarget
  split
  · rename_i hp
    exact .claim hi hp rfl rfl hfits
  · rename_i hp
    exact .refuse hi (by simp [hp]) rfl
  · rename_i hp
    exact .refuse hi (by simp [hp]) rfl

theorem move_poll (h : s.Inv) {id : ℕ} {f : OnUpgrade N} (hf : s.future id = some f) (w : W) :
    Move s (.poll id w) (s.poll id f w).2 (s.poll id f w).1 := by
  rcases f with ⟨reader, writer, shared, immediate⟩
  cases immediate with
  | some e =>
    obtain ⟨hk, hs⟩ := h.immediate hf rfl
    exact .fail hf hs hs rfl hk
  | none =>
    cases shared with
    | false =>
      have hsame : Move s (.poll id w)
          ⟨.polled (some (.error (.new .upgrade "upgrade future polled after completion"))), none⟩
          { s with futures := s.futures.set id (some ⟨reader, writer, false, none⟩) } :=
        .fail hf rfl rfl rfl rfl
      rwa [set_future hf] at hsame
    | true =>
      have hl : s.Live id ⟨reader, writer, true, none⟩ := ⟨hf, rfl⟩
      unfold poll
      cases hr : s.state.result with
      | none =>
        obtain ⟨target, hp⟩ := h.claimed_of_live hl hr
        exact .wait hl hp
      | some r =>
        have hclosed := h.closed_of_result hr
        cases r with
        | error e => exact .receive hl hclosed hr
        | ok u =>
          -- The downcast: the stored value has the types of the one live claim.
          have hp := h.phase
          simp only [PhaseInv, hclosed, hr] at hp
          obtain ⟨-, id', f', hl', htypes⟩ := hp
          obtain rfl := h.unique hl hl'
          obtain rfl := Option.some.inj (hf.symm.trans hl'.1)
          simp only [if_true, if_pos htypes]
          exact .receive hl hclosed hr

theorem move_dropFuture (h : s.Inv) {id : ℕ} {f : OnUpgrade N} (hf : s.future id = some f) :
    Move s (.dropFuture id) (s.dropFuture id f).2 (s.dropFuture id f).1 := by
  unfold dropFuture
  by_cases hsh : f.shared = true
  · rw [if_pos hsh]
    cases hr : s.state.result with
    | none =>
      obtain ⟨target, hp⟩ := h.claimed_of_live ⟨hf, hsh⟩ hr
      rw [hp]
      exact .abandon ⟨hf, hsh⟩ hp
    | some r =>
      have hclosed := h.closed_of_result hr
      rw [hclosed]
      exact .discard ⟨hf, hsh⟩ hclosed hr
  · rw [if_neg hsh]
    exact .forget hf (by simpa using hsh)

theorem move_fulfill (h : s.Inv) (hpending : s.pending = true) (u : Upgraded N V) :
    Move s (.fulfill u) (s.fulfill u).2 (s.fulfill u).1 := by
  unfold fulfill
  split
  · rename_i target hp
    obtain ⟨id, f, hl, hfits⟩ := h.live_of_claimed hp
    by_cases ha : target.accepts u = true
    · rw [if_pos ha]
      exact .deliver hl hfits hp ha
    · rw [if_neg ha]
      exact .mismatch hl hp (by simpa using ha) rfl
  · rename_i hp
    obtain ⟨hr, hl⟩ := h.unclaimed hpending hp
    rw [hr]
    exact .keep hpending hl

theorem move_dropPending (h : s.Inv) (hpending : s.pending = true) :
    Move s .dropPending s.dropPending.2 s.dropPending.1 := by
  unfold dropPending
  split
  · rename_i target hp
    obtain ⟨id, f, hl, -⟩ := h.live_of_claimed hp
    exact .retire hpending hl rfl
  · rename_i hp
    obtain ⟨hr, hl⟩ := h.unclaimed hpending fun target ht => hp target ht
    rw [hr]
    exact .expire hpending hl

/-- A permitted operation is one of the moves. -/
theorem move_of_step (h : s.Inv) {i : HandoffCall N V W} (hs : s.step i = some (s', o)) :
    Move s i o s' := by
  have of_eq {r : Handoff N V W × HandoffOutput N V W} (hr : some r = some (s', o))
      (hmove : Move s i r.2 r.1) : Move s i o s' := by
    rw [Option.some.inj hr] at hmove
    exact hmove
  cases i with
  | claim reader writer => exact of_eq hs (move_claimTarget rfl ⟨rfl, rfl⟩)
  | claimBoxed => exact of_eq hs (move_claimTarget rfl ⟨rfl, rfl⟩)
  | poll id w =>
    simp only [step, Option.map_eq_some_iff] at hs
    obtain ⟨f, hf, heq⟩ := hs
    exact of_eq (congrArg some heq) (move_poll h hf w)
  | dropFuture id =>
    simp only [step, Option.map_eq_some_iff] at hs
    obtain ⟨f, hf, heq⟩ := hs
    exact of_eq (congrArg some heq) (move_dropFuture h hf)
  | fulfill u =>
    simp only [step] at hs
    split_ifs at hs with hp
    exact of_eq hs (move_fulfill h hp u)
  | dropPending =>
    simp only [step] at hs
    split_ifs at hs with hp
    exact of_eq hs (move_dropPending h hp)

end Steps

theorem live_issue {f g : OnUpgrade N} {i : ℕ} :
    (s.issue f).1.Live i g ↔ (i = s.futures.length ∧ g = f ∧ f.shared = true) ∨ s.Live i g := by
  have hlen : s.future s.futures.length = none := by
    cases hf : s.future s.futures.length with
    | none => rfl
    | some g => exact absurd (lt_of_future hf) (lt_irrefl _)
  unfold Live
  rw [future_issue]
  by_cases hi : i = s.futures.length
  · subst hi
    rw [if_pos rfl, hlen]
    grind
  · rw [if_neg hi]
    grind

theorem live_set {id i : ℕ} {f g : OnUpgrade N} (h : s.future id = some f) {x : Option (OnUpgrade N)}
    {state : UpgradeState N V W} {pending : Bool} :
    Live ⟨state, pending, s.futures.set id x⟩ i g ↔
      (i = id ∧ x = some g ∧ g.shared = true) ∨ (i ≠ id ∧ s.Live i g) := by
  unfold Live
  rw [future_set h]
  by_cases hi : i = id
  · simp [hi]
  · simp [hi]

theorem Inv.not_live_set (h : s.Inv) {id : ℕ} {f : OnUpgrade N} (hl : s.Live id f)
    {x : Option (OnUpgrade N)} (hx : ∀ g, x = some g → g.shared = false)
    {state : UpgradeState N V W} {pending : Bool} (i : ℕ) (g : OnUpgrade N) :
    ¬ Live ⟨state, pending, s.futures.set id x⟩ i g := by
  rw [live_set hl.1]
  rintro (⟨-, hg, hs⟩ | ⟨hne, hg⟩)
  · simp [hx g hg] at hs
  · exact hne (h.unique hg hl)

theorem live_set_idle {id : ℕ} {f : OnUpgrade N} (h : s.future id = some f) (hf : f.shared = false)
    {x : Option (OnUpgrade N)} (hx : ∀ g, x = some g → g.shared = false)
    {state : UpgradeState N V W} {pending : Bool} (i : ℕ) (g : OnUpgrade N) :
    Live ⟨state, pending, s.futures.set id x⟩ i g ↔ s.Live i g := by
  rw [live_set h]
  constructor
  · rintro (⟨-, hg, hs⟩ | ⟨-, hg⟩)
    · simp [hx g hg] at hs
    · exact hg
  · intro hg
    refine .inr ⟨?_, hg⟩
    rintro rfl
    obtain ⟨hg, hs⟩ := hg
    rw [← Option.some.inj (h.symm.trans hg), hf] at hs
    cases hs

theorem PhaseInv.congr (h : s.PhaseInv) (hstate : s'.state = s.state)
    (hlive : ∀ i f, s'.Live i f ↔ s.Live i f) : s'.PhaseInv := by
  unfold PhaseInv at h ⊢
  rw [hstate]
  simpa only [hlive] using h

theorem Inv.of_idle (h : s.Inv) (hstate : s'.state = s.state) (hpending : s'.pending = s.pending)
    (hlive : ∀ i f, s'.Live i f ↔ s.Live i f)
    (himm : ∀ {i f e}, s'.future i = some f → f.immediate = some e → e.kind = .upgrade ∧ f.shared = false) :
    s'.Inv := by
  refine ⟨?_, himm, ?_, h.phase.congr hstate hlive⟩
  · intro i j f g hi hj
    exact h.unique ((hlive i f).mp hi) ((hlive j g).mp hj)
  · rw [hpending, hstate]
    exact h.pending_iff

theorem Inv.immediate_set (h : s.Inv) {id : ℕ} {f : OnUpgrade N} (hf : s.future id = some f)
    {x : Option (OnUpgrade N)} (hx : ∀ g, x = some g → g.immediate = none)
    {state : UpgradeState N V W} {pending : Bool} {i : ℕ} {g : OnUpgrade N} {e : Error}
    (hg : future ⟨state, pending, s.futures.set id x⟩ i = some g) (he : g.immediate = some e) :
    e.kind = .upgrade ∧ g.shared = false := by
  rw [future_set hf] at hg
  split_ifs at hg
  · simp [hx g hg] at he
  · exact h.immediate hg he

theorem Inv.release (h : s.Inv) {id : ℕ} {f : OnUpgrade N} (hl : s.Live id f)
    {x : Option (OnUpgrade N)} (hx : ∀ g, x = some g → g.shared = false ∧ g.immediate = none)
    {state : UpgradeState N V W} (hresult : state.result = none) (hwaker : state.waker = none)
    (hphase : state.phase = .closed ∨ ∃ target, state.phase = .claimed target false)
    (hpending : s.pending = true ↔ state.phase ≠ .closed) :
    Inv ⟨state, s.pending, s.futures.set id x⟩ := by
  have hnot : ∀ i g, ¬ Live ⟨state, s.pending, s.futures.set id x⟩ i g :=
    h.not_live_set hl fun g hg => (hx g hg).1
  refine ⟨fun hi => absurd hi (hnot _ _), h.immediate_set hl.1 fun g hg => (hx g hg).2, hpending, ?_⟩
  unfold PhaseInv
  rcases hphase with hp | ⟨target, hp⟩
  · rw [hp]
    simp only [hresult]
    exact ⟨hwaker, hnot⟩
  · rw [hp]
    exact ⟨hresult, hwaker, hnot⟩

/-- The driver settles the exchange: a result is stored exactly when a claim is live. -/
theorem Inv.close (h : s.Inv) {result : Option (Except Error (Upgraded N V))}
    (hresult : (s.close result).PhaseInv) : (s.close result).Inv :=
  ⟨h.unique, h.immediate, by simp [Handoff.close], hresult⟩

theorem Move.inv [DecidableEq N] (h : s.Inv) {i : HandoffCall N V W} (hm : Move s i o s') : s'.Inv := by
  cases hm with
  | @refuse i reader writer e hi hp hk =>
    refine h.of_idle rfl rfl (fun i f => ?_) fun {i f e'} hf he => ?_
    · rw [live_issue]
      simp [OnUpgrade.failed]
    · rw [future_issue] at hf
      split_ifs at hf
      · cases hf
        cases he
        exact ⟨hk, rfl⟩
      · exact h.immediate hf he
  | @claim i target f hi hp hsh himm hfits =>
    have hno : ∀ i g, ¬ s.Live i g := by
      have := h.phase
      simp only [PhaseInv, hp] at this
      exact this.2.2
    have hres : s.state.result = none := by
      have := h.phase
      simp only [PhaseInv, hp] at this
      exact this.1
    have hlive {i g} (hl : (issue { s with state := { s.state with phase := .claimed target true } } f).1.Live i g) :
        i = s.futures.length := by
      rw [live_issue] at hl
      exact hl.elim (fun hl => hl.1) fun hl => absurd hl (hno _ _)
    refine ⟨fun hi hj => (hlive hi).trans (hlive hj).symm, fun {i g e} hg he => ?_, ?_, hres, ?_⟩
    · rw [future_issue] at hg
      split_ifs at hg
      · cases hg
        rw [himm] at he
        cases he
      · exact h.immediate hg he
    · have hpending := h.pending_iff
      rw [hp] at hpending
      simpa [issue] using hpending
    · exact ⟨s.futures.length, f, live_issue.mpr (.inl ⟨rfl, rfl, hsh⟩), hfits⟩
  | @fail id w f f' e hf hsh hsh' himm hk =>
    have hx : ∀ g, some f' = some g → g.shared = false := fun g hg => by cases hg; exact hsh'
    refine h.of_idle rfl rfl (live_set_idle hf hsh hx) (h.immediate_set hf fun g hg => ?_)
    cases hg
    exact himm
  | @wait id w f target hl hp =>
    have hinv := h.phase
    simp only [PhaseInv, hp] at hinv
    refine ⟨h.unique, h.immediate, h.pending_iff, ?_⟩
    unfold PhaseInv
    rw [hp]
    exact hinv
  | @receive id w f r hl hp hr =>
    have hinv := h.phase
    simp only [PhaseInv, hp] at hinv
    refine h.release hl (fun g hg => ?_) rfl hinv.1 (.inl hp) h.pending_iff
    cases hg
    cases hi : f.immediate with
    | none => exact ⟨rfl, rfl⟩
    | some e =>
      have := (h.immediate hl.1 hi).2
      simp [hl.2] at this
  | @forget id f hf hsh =>
    have hx : ∀ g, (none : Option (OnUpgrade N)) = some g → g.shared = false := fun g hg => by cases hg
    exact h.of_idle rfl rfl (live_set_idle hf hsh hx) (h.immediate_set hf fun g hg => by cases hg)
  | @abandon id f target hl hp =>
    have hpending := h.pending_iff
    rw [hp] at hpending
    exact h.release hl (fun g hg => by cases hg) rfl rfl (.inr ⟨target, rfl⟩) (by simpa using hpending)
  | @discard id f r hl hp hr =>
    have hpending := h.pending_iff
    rw [hp] at hpending
    exact h.release hl (fun g hg => by cases hg) rfl rfl (.inl rfl) (by simpa using hpending)
  | @deliver u target id f hl hfits hp ha => exact h.close ⟨rfl, id, f, hl, hfits.hasTypes ha⟩
  | @mismatch u target id f e hl hp ha hk => exact h.close ⟨rfl, hk, id, f, hl⟩
  | keep hp hno => exact h.close ⟨rfl, hno⟩
  | @retire id f e hp hl hk => exact h.close ⟨rfl, hk, id, f, hl⟩
  | expire hp hno => exact h.close ⟨rfl, hno⟩

theorem Inv.step [DecidableEq N] (h : s.Inv) {i : HandoffCall N V W} (hs : s.step i = some (s', o)) :
    s'.Inv :=
  (move_of_step h hs).inv h

end Handoff

end Vakya
