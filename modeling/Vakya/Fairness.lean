import Vakya.Admission
import Mathlib.Tactic.Common

/-!
# Admission is exclusive and fair

At most one permit, queued job or running exchange at a time, at most one
registered waiter, and the waiter that was promised admission gets it.
-/

namespace Vakya

open Library

variable {R W : Type}

def Unique (f : ℕ → Option (Option W)) : Prop :=
  ∀ i j v w, f i = some (some v) → f j = some (some w) → i = j

/-- The waiter slot of an admission state against the reservations: a busy state has the
waker of the registered one, and a free state has nobody waiting. -/
def Waits : Admission R W → (ℕ → Option (Option W)) → Prop
  | .ready, f => ∀ j w, f j ≠ some (some w)
  | .readyForWaiter, f => ∃ j w, f j = some (some w)
  | .closed, _ => True
  | .reserved v, f | .queued _ v, f | .active v, f => ∀ w, v = some w ↔ ∃ j, f j = some (some w)

section Reservations

variable {f g : ℕ → Option (Option W)} {a : Admission R W}

theorem Unique.of_same (h : Unique f) (hg : ∀ j w, g j = some (some w) → f j = some (some w)) :
    Unique g :=
  fun i j v w hi hj => h i j v w (hg i v hi) (hg j w hj)

theorem Waits.of_same (h : Waits a f) (hg : ∀ j w, g j = some (some w) ↔ f j = some (some w)) :
    Waits a g := by
  cases a with
  | ready => exact fun j w hj => h j w ((hg j w).mp hj)
  | readyForWaiter =>
    obtain ⟨j, w, hj⟩ := h
    exact ⟨j, w, (hg j w).mpr hj⟩
  | closed => trivial
  | reserved v | queued job v | active v =>
    intro w
    rw [h w]
    exact exists_congr fun j => (hg j w).symm

theorem Waits.nobody (h : Waits a f) (ha : a.waiter = some none) : ∀ j w, f j ≠ some (some w) := by
  intro j w hj
  cases a with
  | reserved v | queued job v | active v =>
    simp only [Admission.waiter, Option.some.injEq] at ha
    have := (h w).mpr ⟨j, hj⟩
    simp [ha] at this
  | _ => simp [Admission.waiter] at ha

theorem waits_setWaiter_none (hf : ∀ j w, f j ≠ some (some w)) (ha : a ≠ .readyForWaiter) :
    Waits (a.setWaiter none) f := by
  cases a with
  | ready => exact hf
  | readyForWaiter => exact absurd rfl ha
  | closed => trivial
  | reserved v | queued job v | active v =>
    intro w
    constructor
    · intro hw
      cases hw
    · rintro ⟨j, hj⟩
      exact absurd hj (hf j w)

theorem update_unregistered (id : ℕ) {r : Option (Option W)} (hold : ∀ w, f id ≠ some (some w))
    (hnew : ∀ w, r ≠ some (some w)) (j : ℕ) (w : W) :
    Function.update f id r j = some (some w) ↔ f j = some (some w) := by
  by_cases hj : j = id
  · subst hj
    simp [hold w, hnew w]
  · rw [Function.update_of_ne hj]

theorem update_registered (h : Unique f) {id : ℕ} {v : W} (hid : f id = some (some v))
    (j : ℕ) (w : W) : Function.update f id none j ≠ some (some w) := by
  by_cases hj : j = id
  · subst hj
    simp
  · rw [Function.update_of_ne hj]
    intro hw
    exact hj (h j id w v hw hid)

theorem update_register {id : ℕ} (waker : W) (hf : ∀ j w, f j = some (some w) → j = id) (j : ℕ) (w : W) :
    Function.update f id (some (some waker)) j = some (some w) ↔ j = id ∧ waker = w := by
  by_cases hj : j = id
  · subst hj
    simp
  · rw [Function.update_of_ne hj]
    constructor
    · intro hw
      exact absurd (hf j w hw) hj
    · rintro ⟨rfl, -⟩
      exact absurd rfl hj

end Reservations

namespace ClientAdmission

variable {s s' : ClientAdmission R W} {i : AdmissionCall R W} {o : AdmissionOutput R W}

def Owned (permits : ℕ) (holding receiver : Bool) : Admission R W → Prop
  | .ready | .readyForWaiter | .queued _ _ => permits = 0 ∧ holding = false
  | .reserved _ => permits = 1 ∧ holding = false
  | .active _ => permits = 0
  | .closed => permits + holding.toNat ≤ 1 ∧ receiver = false

theorem Owned.setWaiter {permits : ℕ} {holding receiver : Bool} {a : Admission R W}
    (h : Owned permits holding receiver a) (v : Option W) :
    Owned permits holding receiver (a.setWaiter v) := by
  cases a <;> exact h

structure Inv (s : ClientAdmission R W) : Prop where
  owned : Owned s.permits s.holding s.receiver s.admission
  unique : Unique s.reservations
  waits : Waits s.admission s.reservations

theorem inv_new : (new : ClientAdmission R W).Inv :=
  ⟨⟨rfl, rfl⟩, by simp [Unique, new], by simp [Waits, new]⟩

theorem Inv.congr (h : s.Inv) (ha : s'.admission = s.admission) (hp : s'.permits = s.permits)
    (hh : s'.holding = s.holding) (hr : s'.receiver = s.receiver)
    (hf : s'.reservations = s.reservations) : s'.Inv := by
  refine ⟨?_, hf ▸ h.unique, ?_⟩
  · rw [ha, hp, hh, hr]
    exact h.owned
  · rw [ha, hf]
    exact h.waits

theorem tryReserve_inv (h : s.Inv) : s.tryReserve.1.Inv ∧ s.tryReserve.2.event ≠ .panicked := by
  unfold tryReserve
  split_ifs with hc
  · exact ⟨h, by simp⟩
  · split
    · rename_i ha
      obtain ⟨howned, hunique, hwaits⟩ := h
      rw [ha] at howned hwaits
      refine ⟨⟨⟨by rw [howned.1], howned.2⟩, hunique, ?_⟩, by simp⟩
      exact waits_setWaiter_none (a := .reserved none) hwaits (by simp)
    · exact ⟨h, by simp⟩

theorem dropReservation_inv (h : s.Inv) {id : ℕ} {registered : Option W}
    (hid : s.reservations id = some registered) : (s.dropReservation id registered).Inv := by
  obtain ⟨howned, hunique, hwaits⟩ := h
  cases registered with
  | none =>
    have hsame := update_unregistered (r := none) id (f := s.reservations) (by simp [hid]) (by simp)
    exact ⟨howned, hunique.of_same fun j w hj => (hsame j w).mp hj, hwaits.of_same hsame⟩
  | some v =>
    have hnone := update_registered hunique hid
    have hunique' : Unique (Function.update s.reservations id none) :=
      fun i j v w hi _ => absurd hi (hnone i v)
    unfold dropReservation
    simp only [setReservation]
    split
    · rename_i ha
      rw [ha] at howned
      exact ⟨howned, hunique', hnone⟩
    · rename_i ha
      exact ⟨howned.setWaiter none, hunique', waits_setWaiter_none hnone ha⟩

theorem register_inv (h : s.Inv) {id : ℕ} {waker : W} {v : Option W} (hbusy : s.admission.waiter = some v)
    (honly : ∀ j w, s.reservations j = some (some w) → j = id) :
    (s.register id waker).Inv := by
  obtain ⟨howned, hunique, hwaits⟩ := h
  have hreg := update_register waker honly
  refine ⟨howned.setWaiter _, ?_, ?_⟩
  · intro i j v w hi hj
    rw [((hreg i v).mp hi).1, ((hreg j w).mp hj).1]
  · have hwaker : ∀ w, some waker = some w ↔
        ∃ j, Function.update s.reservations id (some (some waker)) j = some (some w) := by
      intro w
      constructor
      · intro hw
        exact ⟨id, (hreg id w).mpr ⟨rfl, Option.some.inj hw⟩⟩
      · rintro ⟨j, hj⟩
        rw [((hreg j w).mp hj).2]
    change Waits (s.admission.setWaiter (some waker)) _
    cases ha : s.admission with
    | reserved v | queued job v | active v => exact hwaker
    | _ => simp [ha, Admission.waiter] at hbusy

theorem granted_inv (h : s.Inv) {id : ℕ} (hfree : s.admission = .ready ∨ s.admission = .readyForWaiter)
    (hnone : ∀ j w, Function.update s.reservations id none j ≠ some (some w)) :
    (s.grant id).Inv := by
  have howned : s.permits = 0 ∧ s.holding = false := by
    have := h.owned
    rcases hfree with ha | ha <;> (rw [ha] at this; exact this)
  refine ⟨⟨by simp [grant, howned.1], howned.2⟩, fun i j v w hi _ => absurd hi (hnone i v), ?_⟩
  exact waits_setWaiter_none (a := .reserved none) hnone (by simp)

theorem pollReserve_inv (h : s.Inv) {id : ℕ} {registered : Option W}
    (hid : s.reservations id = some registered) (waker : W) :
    (s.pollReserve id registered waker).1.Inv ∧
      (s.pollReserve id registered waker).2.event ≠ .panicked := by
  have hwaits := h.waits
  unfold pollReserve
  split_ifs with hclosed
  · exact ⟨dropReservation_inv h hid, by simp⟩
  · split
    · -- The waiter that was promised admission.
      rename_i v ha
      exact ⟨granted_inv h (.inr ha) (update_registered h.unique hid), by simp⟩
    · -- A newcomer finds admission free, so nobody waits.
      rename_i ha
      rw [ha] at hwaits
      refine ⟨granted_inv h (.inl ha) fun j w => ?_, by simp⟩
      have hsame := update_unregistered (r := none) id (f := s.reservations) (by simp [hid]) (by simp) j w
      intro hj
      exact hwaits j w (hsame.mp hj)
    · -- A registered waiter would have been promised admission.
      rename_i v ha
      rw [ha] at hwaits
      exact absurd hid (hwaits id v)
    · rename_i registered _ _ hpromised hfree _
      split_ifs with hrefused
      · exact ⟨dropReservation_inv h hid, by simp⟩
      · split
        · -- Only a busy admission gets here.
          rename_i hw
          exfalso
          simp only [hw, Option.all_none, Bool.and_true, Option.isNone_iff_eq_none] at hrefused
          obtain ⟨v, hv⟩ := Option.ne_none_iff_exists'.mp hrefused
          cases ha : s.admission with
          | ready =>
            rw [ha] at hwaits
            exact hwaits id v (hv ▸ hid)
          | readyForWaiter => exact hpromised v ha hv
          | closed => simp [ha, Admission.isClosed] at hclosed
          | _ => simp [ha, Admission.waiter] at hw
        · rename_i v hw
          refine ⟨register_inv h hw fun j w hj => ?_, by simp⟩
          cases hreg : registered with
          | none =>
            have hempty : v = none := by simpa [hw, hreg] using hrefused
            rw [hempty] at hw
            exact absurd hj (hwaits.nobody hw j w)
          | some v => exact h.unique j id w v hj (hreg ▸ hid)

theorem release_spec {a a' : Admission R W} {f : ℕ → Option (Option W)} {woken : Option W}
    (h : Waits a f) (hrel : a.release = some (a', woken)) :
    Waits a' f ∧ (a = .closed ∧ a' = .closed ∨ a' = .ready ∨ a' = .readyForWaiter) ∧
      (a ≠ .closed → ∀ j w, f j = some (some w) → woken = some w) := by
  have slot {v : Option W} (hv : ∀ w, v = some w ↔ ∃ j, f j = some (some w)) (j : ℕ) (w : W)
      (hj : f j = some (some w)) : v = some w := (hv w).mpr ⟨j, hj⟩
  cases a with
  | reserved v | active v =>
    cases v with
    | none =>
      cases hrel
      exact ⟨fun j w hj => (by simpa using slot h j w hj), .inr (.inl rfl), fun _ => slot h⟩
    | some v =>
      cases hrel
      obtain ⟨j, hj⟩ := (h v).mp rfl
      exact ⟨⟨j, v, hj⟩, .inr (.inr rfl), fun _ => slot h⟩
  | closed =>
    cases hrel
    exact ⟨trivial, .inl ⟨rfl, rfl⟩, fun hn => absurd rfl hn⟩
  | _ => cases hrel

theorem releaseShared_inv (event : AdmissionEvent R) (hunique : Unique s.reservations)
    (hwaits : Waits s.admission s.reservations)
    (hfree : (∃ v, s.admission = .reserved v ∨ s.admission = .active v) ∧ s.permits = 0 ∧
        s.holding = false ∨
      s.admission = .closed ∧ Owned s.permits s.holding s.receiver s.admission) :
    (s.releaseShared event).1.Inv ∧ (s.releaseShared event).2.event = event := by
  obtain ⟨a', woken, hrel⟩ : ∃ a' woken, s.admission.release = some (a', woken) := by
    rcases hfree with ⟨⟨v, ha | ha⟩, -⟩ | ⟨ha, -⟩ <;> rw [ha]
    · cases v <;> exact ⟨_, _, rfl⟩
    · cases v <;> exact ⟨_, _, rfl⟩
    · exact ⟨_, _, rfl⟩
  obtain ⟨hwaits', hstate, -⟩ := release_spec hwaits hrel
  unfold releaseShared
  rw [hrel]
  refine ⟨⟨?_, hunique, hwaits'⟩, rfl⟩
  rcases hfree with ⟨⟨v, ha⟩, hp, hh⟩ | ⟨ha, howned⟩
  · rcases hstate with ⟨hc, -⟩ | rfl | rfl
    · rcases ha with ha | ha <;> simp [ha] at hc
    · exact ⟨hp, hh⟩
    · exact ⟨hp, hh⟩
  · rw [ha] at hrel howned
    cases hrel
    exact howned

theorem Inv.permit (h : s.Inv) (hp : 0 < s.permits) :
    s.permits = 1 ∧ s.holding = false ∧
      ((∃ v, s.admission = .reserved v) ∨ s.admission = .closed ∧ s.receiver = false) := by
  have howned := h.owned
  cases ha : s.admission with
  | reserved v =>
    rw [ha] at howned
    exact ⟨howned.1, howned.2, .inl ⟨v, rfl⟩⟩
  | closed =>
    rw [ha] at howned
    obtain ⟨hle, hr⟩ := howned
    have hone : s.permits = 1 := by omega
    have hzero : s.holding.toNat = 0 := by omega
    exact ⟨hone, by simpa using hzero, .inr ⟨rfl, hr⟩⟩
  | ready | readyForWaiter | queued _ _ =>
    rw [ha] at howned
    exact absurd howned.1 (by omega)
  | active v =>
    rw [ha] at howned
    have hzero : s.permits = 0 := howned
    omega

theorem dropPermit_inv (h : s.Inv) (hp : 0 < s.permits) (event : AdmissionEvent R) :
    (releaseShared { s with permits := s.permits - 1 } event).1.Inv ∧
      (releaseShared { s with permits := s.permits - 1 } event).2.event = event := by
  obtain ⟨hone, hh, hstate⟩ := h.permit hp
  apply releaseShared_inv (s := { s with permits := s.permits - 1 }) event h.unique h.waits
  rcases hstate with ⟨v, ha⟩ | ⟨ha, hr⟩
  · exact .inl ⟨⟨v, .inl ha⟩, by simp [hone], hh⟩
  · refine .inr ⟨ha, ?_⟩
    simp only [ha]
    exact ⟨by simp [hone, hh], hr⟩

theorem send_inv (h : s.Inv) (hp : 0 < s.permits) (request : R) :
    (s.send request).1.Inv ∧ (s.send request).2.event ≠ .panicked := by
  unfold send
  simp only
  split_ifs with hc
  · obtain ⟨hinv, hevent⟩ := dropPermit_inv h hp (.sent request (.error (request, closedError)))
    exact ⟨hinv, by rw [hevent]; simp⟩
  · obtain ⟨hone, hh, ⟨v, ha⟩ | ⟨ha, -⟩⟩ := h.permit hp
    · have hwaits := h.waits
      simp only [ha] at hwaits ⊢
      exact ⟨⟨⟨by simp [hone], hh⟩, h.unique, hwaits⟩, by simp⟩
    · simp [ha, Admission.isClosed] at hc

theorem pollNext_inv (h : s.Inv) (waker : W) :
    (s.pollNext waker).1.Inv ∧ (s.pollNext waker).2.event ≠ .panicked := by
  unfold pollNext
  cases ha : s.admission with
  | queued job v =>
    obtain ⟨howned, hunique, hwaits⟩ := h
    rw [ha] at howned hwaits
    exact ⟨⟨howned.1, hunique, hwaits⟩, by simp [Admission.takeJob]⟩
  | _ =>
    simp only [Admission.takeJob]
    split_ifs
    · exact ⟨h, by simp⟩
    · exact ⟨h.congr ha.symm rfl rfl rfl rfl, by simp⟩

theorem Inv.running (h : s.Inv) (hr : s.receiver = true) (hh : s.holding = true) :
    ∃ v, s.admission = .active v := by
  have howned := h.owned
  cases ha : s.admission with
  | active v => exact ⟨v, rfl⟩
  | closed =>
    rw [ha] at howned
    simp [howned.2] at hr
  | _ =>
    rw [ha] at howned
    simp [howned.2] at hh

theorem release_inv (h : s.Inv) (hr : s.receiver = true) (hh : s.holding = true) :
    s.release.1.Inv ∧ s.release.2.event ≠ .panicked := by
  unfold release
  split_ifs
  · exact ⟨h, by simp⟩
  · obtain ⟨v, ha⟩ := h.running hr hh
    have howned := h.owned
    rw [ha] at howned
    obtain ⟨hinv, hevent⟩ := releaseShared_inv (s := { s with holding := false })
      (.released true) h.unique h.waits (.inl ⟨⟨v, .inr ha⟩, howned, rfl⟩)
    exact ⟨hinv, by rw [hevent]; simp⟩

theorem dropReceiver_inv (h : s.Inv) : s.dropReceiver.1.Inv ∧ s.dropReceiver.2.event ≠ .panicked := by
  refine ⟨⟨⟨?_, rfl⟩, h.unique, trivial⟩, by simp [dropReceiver]⟩
  have howned := h.owned
  change s.permits + s.holding.toNat ≤ 1
  cases ha : s.admission with
  | active v =>
    rw [ha] at howned
    have hzero : s.permits = 0 := howned
    have := Bool.toNat_le s.holding
    omega
  | closed =>
    rw [ha] at howned
    exact howned.1
  | _ =>
    rw [ha] at howned
    simp [howned.1, howned.2]

/-- Every operation keeps the invariant and reaches no assertion. -/
theorem Inv.step (h : s.Inv) (hs : s.step i = some (s', o)) : s'.Inv ∧ o.event ≠ .panicked := by
  have of_eq {r : ClientAdmission R W × AdmissionOutput R W} (hr : some r = some (s', o))
      (hspec : r.1.Inv ∧ r.2.event ≠ .panicked) : s'.Inv ∧ o.event ≠ .panicked := by
    rw [Option.some.inj hr] at hspec
    exact hspec
  cases i with
  | cloneSender | dropSender | shutdown =>
    simp only [ClientAdmission.step] at hs
    try split_ifs at hs
    exact of_eq hs ⟨h.congr rfl rfl rfl rfl rfl, by simp [quiet]⟩
  | tryReserve =>
    simp only [ClientAdmission.step] at hs
    split_ifs at hs
    exact of_eq hs (tryReserve_inv h)
  | reserve id =>
    simp only [ClientAdmission.step] at hs
    split_ifs at hs with hc
    have hsame := update_unregistered (r := some none) id (f := s.reservations) (by simp [hc.2]) (by simp)
    exact of_eq hs ⟨⟨h.owned, h.unique.of_same fun j w hj => (hsame j w).mp hj, h.waits.of_same hsame⟩,
      by simp [quiet]⟩
  | pollReserve id waker =>
    simp only [ClientAdmission.step] at hs
    split at hs
    · cases hs
    · exact of_eq hs (pollReserve_inv h ‹_› waker)
  | dropReserve id =>
    simp only [ClientAdmission.step] at hs
    split at hs
    · cases hs
    · exact of_eq hs ⟨dropReservation_inv h ‹_›, by simp [quiet]⟩
  | send request =>
    simp only [ClientAdmission.step] at hs
    split_ifs at hs with hp
    exact of_eq hs (send_inv h hp request)
  | dropPermit =>
    simp only [ClientAdmission.step] at hs
    split_ifs at hs with hp
    obtain ⟨hinv, hevent⟩ := dropPermit_inv h hp .quiet
    exact of_eq hs ⟨hinv, by rw [hevent]; simp⟩
  | pollNext waker =>
    simp only [ClientAdmission.step] at hs
    split_ifs at hs
    exact of_eq hs (pollNext_inv h waker)
  | release =>
    simp only [ClientAdmission.step, Bool.and_eq_true] at hs
    split_ifs at hs with hc
    exact of_eq hs (release_inv h hc.1 hc.2)
  | dropJob =>
    simp only [ClientAdmission.step] at hs
    split_ifs at hs with hh
    refine of_eq hs ⟨⟨?_, h.unique, h.waits⟩, by simp [quiet]⟩
    have howned := h.owned
    cases ha : s.admission with
    | active v =>
      rw [ha] at howned
      simp only [quiet]
      exact howned
    | closed =>
      rw [ha] at howned
      simp only [quiet]
      exact ⟨le_trans (by simp) howned.1, howned.2⟩
    | _ =>
      rw [ha] at howned
      simp [howned.2] at hh
  | dropReceiver =>
    simp only [ClientAdmission.step] at hs
    split_ifs at hs
    exact of_eq hs (dropReceiver_inv h)

theorem releaseShared_event (s : ClientAdmission R W) (event : AdmissionEvent R) :
    (s.releaseShared event).2.event = event ∨ (s.releaseShared event).2.event = .panicked := by
  unfold releaseShared
  split
  · exact .inr rfl
  · exact .inl rfl

theorem granted_cases (hs : s.step i = some (s', o)) (ho : o.event = .reserved (.ok ())) :
    s.admission = .ready ∨ s.admission = .readyForWaiter ∧
      ∃ id v w, i = .pollReserve id w ∧ s.reservations id = some (some v) := by
  have of_eq {r : ClientAdmission R W × AdmissionOutput R W} (hr : some r = some (s', o)) :
      r.2.event = .reserved (.ok ()) := by
    rw [Option.some.inj hr]
    exact ho
  cases i with
  | tryReserve =>
    simp only [ClientAdmission.step] at hs
    split_ifs at hs
    have hevent := of_eq hs
    unfold tryReserve at hevent
    split_ifs at hevent
    · simp at hevent
    · split at hevent
      · exact .inl ‹_›
      · simp at hevent
  | pollReserve id waker =>
    simp only [ClientAdmission.step] at hs
    split at hs
    · cases hs
    · rename_i registered hid
      have hevent := of_eq hs
      unfold pollReserve at hevent
      split_ifs at hevent
      · simp at hevent
      · split at hevent
        · exact .inr ⟨‹_›, id, _, waker, rfl, hid⟩
        · exact .inl ‹_›
        · simp at hevent
        · split_ifs at hevent
          · simp at hevent
          · split at hevent <;> simp at hevent
  | send request =>
    simp only [ClientAdmission.step] at hs
    split_ifs at hs
    have hevent := of_eq hs
    unfold send at hevent
    simp only at hevent
    split_ifs at hevent
    · rcases releaseShared_event { s with permits := s.permits - 1 }
        (.sent request (.error (request, closedError))) with he | he <;> simp [he] at hevent
    · split at hevent <;> simp at hevent
  | dropPermit =>
    simp only [ClientAdmission.step] at hs
    split_ifs at hs
    have hevent := of_eq hs
    rcases releaseShared_event { s with permits := s.permits - 1 } .quiet with he | he <;>
      simp [he] at hevent
  | pollNext waker =>
    simp only [ClientAdmission.step] at hs
    split_ifs at hs
    have hevent := of_eq hs
    unfold pollNext at hevent
    split at hevent
    · simp at hevent
    · split_ifs at hevent
  | release =>
    simp only [ClientAdmission.step] at hs
    split_ifs at hs
    have hevent := of_eq hs
    unfold release at hevent
    split_ifs at hevent
    rcases releaseShared_event { s with holding := false } (.released true) with he | he <;>
      simp [he] at hevent
  | dropReceiver =>
    simp only [ClientAdmission.step] at hs
    split_ifs at hs
    have hevent := of_eq hs
    simp [dropReceiver] at hevent
  | dropReserve id =>
    simp only [ClientAdmission.step] at hs
    split at hs
    · cases hs
    · have hevent := of_eq hs
      simp [quiet] at hevent
  | cloneSender | dropSender | reserve id | dropJob | shutdown =>
    simp only [ClientAdmission.step] at hs
    try split_ifs at hs
    have hevent := of_eq hs
    simp [quiet] at hevent

theorem Inv.not_overtaken (h : s.Inv) {j : ℕ} {w : W} (hj : s.reservations j = some (some w))
    (hs : s.step i = some (s', o)) (ho : o.event = .reserved (.ok ())) :
    s.admission = .readyForWaiter ∧ ∃ waker, i = .pollReserve j waker := by
  have hwaits := h.waits
  rcases granted_cases hs ho with ha | ⟨ha, id, v, waker, rfl, hid⟩
  · rw [ha] at hwaits
    exact absurd hj (hwaits j w)
  · exact ⟨ha, waker, by rw [h.unique j id w v hj hid]⟩

/-- Whether a poll of a reservation returns `Ready`. -/
def pollsReady (s : ClientAdmission R W) (id : ℕ) (waker : W) : Bool :=
  match s.step (.pollReserve id waker) with
  | some (_, ⟨.pending, _⟩) => false
  | some _ => true
  | none => false

theorem pollsReady_eq {j : ℕ} {w : W} (hj : s.reservations j = some (some w)) (waker : W) :
    s.pollsReady j waker = (s.admission.isClosed || s.stopping || !s.admission.isBusy) := by
  simp only [pollsReady, ClientAdmission.step, hj, pollReserve]
  by_cases hc : (s.admission.isClosed || s.stopping) = true
  · simp [hc]
  · rw [if_neg hc]
    simp only [Bool.not_eq_true] at hc
    rw [hc]
    cases s.admission <;> rfl

def letsGo : AdmissionCall R W → Bool
  | .send _ | .dropPermit | .release | .dropReceiver => true
  | _ => false

theorem Inv.slot (h : s.Inv) {j : ℕ} {w : W} (hj : s.reservations j = some (some w)) {v : Option W}
    (ha : s.admission.waiter = some v) : v = some w := by
  have hwaits := h.waits
  cases hs : s.admission with
  | reserved u | queued job u | active u =>
    rw [hs] at hwaits ha
    simp only [Admission.waiter, Option.some.injEq] at ha
    rw [← ha]
    exact (hwaits w).mpr ⟨j, hj⟩
  | _ => simp [hs, Admission.waiter] at ha

theorem releaseShared_woke (s : ClientAdmission R W) (event : AdmissionEvent R) {w : W}
    (ha : s.admission = .reserved (some w) ∨ s.admission = .active (some w)) :
    w ∈ (s.releaseShared event).2.woke := by
  unfold releaseShared
  rcases ha with ha | ha <;> simp [ha, Admission.release]

/-- The operation that makes the poll of the registered waiter ready wakes it. -/
theorem Inv.woken (h : s.Inv) {j : ℕ} {w : W} (hj : s.reservations j = some (some w))
    (hs : s.step i = some (s', o)) (hi : letsGo i = true) {waker : W}
    (hbefore : s.pollsReady j waker = false) (hafter : s'.pollsReady j waker = true) : w ∈ o.woke := by
  rw [pollsReady_eq hj] at hbefore
  simp only [Bool.or_eq_false_iff, Bool.not_eq_false'] at hbefore
  obtain ⟨⟨hopen, hrunning⟩, hbusy⟩ := hbefore
  have of_eq {r : ClientAdmission R W × AdmissionOutput R W} (hr : some r = some (s', o))
      (hw : w ∈ r.2.woke) : w ∈ o.woke := by
    rw [Option.some.inj hr] at hw
    exact hw
  cases i with
  | send request =>
    simp only [ClientAdmission.step] at hs
    split_ifs at hs with hp
    -- An accepted request keeps admission busy, so the waiter still waits.
    obtain ⟨-, -, ⟨v, ha⟩ | ⟨ha, -⟩⟩ := h.permit hp
    · have hsend : s.send request =
          ({ s with permits := s.permits - 1, admission := .queued request v, driver := none },
            ⟨.sent request (.ok ()), s.driver.toList⟩) := by
        unfold send
        simp only [ha]
        exact if_neg (by simp [Admission.isClosed, hrunning])
      rw [hsend] at hs
      cases hs
      rw [pollsReady_eq (by exact hj)] at hafter
      simp [Admission.isClosed, Admission.isBusy, hrunning] at hafter
    · simp [ha, Admission.isClosed] at hopen
  | dropPermit =>
    simp only [ClientAdmission.step] at hs
    split_ifs at hs with hp
    obtain ⟨-, -, ⟨v, ha⟩ | ⟨ha, -⟩⟩ := h.permit hp
    · have hv := h.slot hj (v := v) (by rw [ha]; rfl)
      exact of_eq hs (releaseShared_woke _ _ (.inl (by rw [← hv]; exact ha)))
    · simp [ha, Admission.isClosed] at hopen
  | release =>
    simp only [ClientAdmission.step, Bool.and_eq_true] at hs
    split_ifs at hs with hc
    unfold release at hs
    split_ifs at hs with hstop
    · -- Nothing was released.
      cases hs
      rw [pollsReady_eq hj] at hafter
      simp [hopen, hrunning, hbusy] at hafter
    · obtain ⟨v, ha⟩ := h.running hc.1 hc.2
      have hv := h.slot hj (v := v) (by rw [ha]; rfl)
      exact of_eq hs (releaseShared_woke _ _ (.inr (by rw [← hv]; exact ha)))
  | dropReceiver =>
    simp only [ClientAdmission.step] at hs
    split_ifs at hs
    apply of_eq hs
    cases ha : s.admission with
    | reserved v | queued job v | active v =>
      have hv := h.slot hj (v := v) (by rw [ha]; rfl)
      simp [dropReceiver, ha, Admission.close, hv]
    | _ => simp [ha, Admission.isBusy] at hbusy
  | _ => cases hi

end ClientAdmission

def Admission.jobs : Admission R W → List R
  | .queued job _ => [job]
  | _ => []

theorem Admission.jobs_setWaiter (a : Admission R W) (v : Option W) : (a.setWaiter v).jobs = a.jobs := by
  cases a <;> rfl

namespace AdmissionEvent

def accepted : AdmissionEvent R → List R
  | .sent request (.ok ()) => [request]
  | _ => []

def handed : AdmissionEvent R → List R
  | .next (some job) => [job]
  | _ => []

def discarded : AdmissionEvent R → List R
  | .dropped (some job) => [job]
  | _ => []

end AdmissionEvent

namespace ClientAdmission

variable {s s' : ClientAdmission R W} {i : AdmissionCall R W} {o : AdmissionOutput R W}

open AdmissionEvent

def Moves (s s' : ClientAdmission R W) (e : AdmissionEvent R) : Prop :=
  s.admission.jobs ++ e.accepted = e.handed ++ e.discarded ++ s'.admission.jobs ∧
    (e.handed ≠ [] → s.receiver = true) ∧ (s'.receiver = true → s.receiver = true ∧ e.discarded = [])

theorem moves_quiet {e : AdmissionEvent R} (hq : s'.admission.jobs = s.admission.jobs)
    (hr : s'.receiver = s.receiver) (ha : e.accepted = []) (hh : e.handed = [])
    (hd : e.discarded = []) : Moves s s' e := by
  refine ⟨by simp [hq, ha, hh, hd], fun hn => absurd hh hn, fun hs => ⟨hr ▸ hs, hd⟩⟩

theorem releaseShared_moves (s : ClientAdmission R W) {event : AdmissionEvent R}
    (ha : event.accepted = []) (hh : event.handed = []) (hd : event.discarded = []) :
    Moves s (s.releaseShared event).1 (s.releaseShared event).2.event := by
  unfold releaseShared
  cases hrel : s.admission.release with
  | none => exact moves_quiet rfl rfl rfl rfl rfl
  | some r =>
    obtain ⟨a', woken⟩ := r
    refine moves_quiet ?_ rfl ha hh hd
    cases hs : s.admission with
    | reserved v | active v =>
      rw [hs] at hrel
      cases v <;> (cases hrel; rfl)
    | closed =>
      rw [hs] at hrel
      cases hrel
      rfl
    | _ =>
      rw [hs] at hrel
      cases hrel

theorem dropReservation_jobs (s : ClientAdmission R W) (id : ℕ) (registered : Option W) :
    (s.dropReservation id registered).admission.jobs = s.admission.jobs ∧
      (s.dropReservation id registered).receiver = s.receiver := by
  cases registered with
  | none => exact ⟨rfl, rfl⟩
  | some w =>
    unfold dropReservation
    simp only [setReservation]
    split
    · rename_i ha
      rw [ha]
      exact ⟨rfl, rfl⟩
    · exact ⟨Admission.jobs_setWaiter _ _, rfl⟩

theorem pollReserve_moves (s : ClientAdmission R W) (id : ℕ) (registered : Option W) (waker : W) :
    Moves s (s.pollReserve id registered waker).1 (s.pollReserve id registered waker).2.event := by
  obtain ⟨hjobs, hrecv⟩ := dropReservation_jobs s id registered
  unfold pollReserve
  split_ifs
  · exact moves_quiet hjobs hrecv rfl rfl rfl
  · split
    · rename_i ha
      exact moves_quiet (by rw [ha]; rfl) rfl rfl rfl rfl
    · rename_i ha
      exact moves_quiet (by rw [ha]; rfl) rfl rfl rfl rfl
    · exact moves_quiet rfl rfl rfl rfl rfl
    · split_ifs
      · exact moves_quiet hjobs hrecv rfl rfl rfl
      · split
        · exact moves_quiet rfl rfl rfl rfl rfl
        · exact moves_quiet (Admission.jobs_setWaiter _ _) rfl rfl rfl rfl

theorem step_moves (hs : s.step i = some (s', o)) : Moves s s' o.event := by
  have of_eq {r : ClientAdmission R W × AdmissionOutput R W} (hr : some r = some (s', o))
      (hmoves : Moves s r.1 r.2.event) : Moves s s' o.event := by
    rw [Option.some.inj hr] at hmoves
    exact hmoves
  cases i with
  | cloneSender | dropSender | shutdown | reserve id | dropJob =>
    simp only [ClientAdmission.step] at hs
    try split_ifs at hs
    exact of_eq hs (moves_quiet rfl rfl rfl rfl rfl)
  | tryReserve =>
    simp only [ClientAdmission.step] at hs
    split_ifs at hs
    apply of_eq hs
    unfold tryReserve
    split_ifs
    · exact moves_quiet rfl rfl rfl rfl rfl
    · split
      · rename_i ha
        exact moves_quiet (by rw [ha]; rfl) rfl rfl rfl rfl
      · exact moves_quiet rfl rfl rfl rfl rfl
  | pollReserve id waker =>
    simp only [ClientAdmission.step] at hs
    split at hs
    · cases hs
    · exact of_eq hs (pollReserve_moves s id _ waker)
  | dropReserve id =>
    simp only [ClientAdmission.step] at hs
    split at hs
    · cases hs
    · rename_i registered _
      obtain ⟨hjobs, hrecv⟩ := dropReservation_jobs s id registered
      exact of_eq hs (moves_quiet hjobs hrecv rfl rfl rfl)
  | send request =>
    simp only [ClientAdmission.step] at hs
    split_ifs at hs
    apply of_eq hs
    unfold send
    simp only
    split_ifs
    · exact releaseShared_moves { s with permits := s.permits - 1 } rfl rfl rfl
    · split
      · -- The permit's request takes its place in the queue.
        rename_i v ha
        exact ⟨by rw [ha]; rfl, fun hn => absurd rfl hn, fun hr => ⟨hr, rfl⟩⟩
      · exact moves_quiet rfl rfl rfl rfl rfl
  | dropPermit =>
    simp only [ClientAdmission.step] at hs
    split_ifs at hs
    exact of_eq hs (releaseShared_moves { s with permits := s.permits - 1 } rfl rfl rfl)
  | pollNext waker =>
    simp only [ClientAdmission.step] at hs
    split_ifs at hs with hr
    apply of_eq hs
    unfold pollNext
    cases ha : s.admission with
    | queued job v => exact ⟨by rw [ha]; rfl, fun _ => hr, fun _ => ⟨hr, rfl⟩⟩
    | _ =>
      simp only [Admission.takeJob]
      split_ifs
      · exact moves_quiet rfl rfl rfl rfl rfl
      · exact moves_quiet (by rw [ha]) rfl rfl rfl rfl
  | release =>
    simp only [ClientAdmission.step] at hs
    split_ifs at hs
    apply of_eq hs
    unfold release
    split_ifs
    · exact moves_quiet rfl rfl rfl rfl rfl
    · exact releaseShared_moves { s with holding := false } rfl rfl rfl
  | dropReceiver =>
    simp only [ClientAdmission.step] at hs
    split_ifs at hs
    apply of_eq hs
    refine ⟨?_, fun hn => ?_, fun hn => (by cases hn)⟩
    · cases ha : s.admission <;> simp [dropReceiver, ha, Admission.close, Admission.jobs, accepted, handed,
        discarded]
    · simp [dropReceiver, handed] at hn

/-- The requests of a run: what was accepted was handed over, or dropped by the receiver,
or is still queued, in this order. -/
structure Books (tr : List (AdmissionCall R W × AdmissionOutput R W)) (s : ClientAdmission R W) : Prop where
  balance : (tr.map (·.2.event)).flatMap accepted = (tr.map (·.2.event)).flatMap handed ++
    (tr.map (·.2.event)).flatMap discarded ++ s.admission.jobs
  receiver : s.receiver = true → (tr.map (·.2.event)).flatMap discarded = []

theorem Books.step {tr : List (AdmissionCall R W × AdmissionOutput R W)} (h : Books tr s)
    (hmoves : Moves s s' o.event) : Books (tr ++ [(i, o)]) s' := by
  obtain ⟨hbalance, hhanded, hrecv⟩ := hmoves
  constructor
  · simp only [List.map_append, List.map_cons, List.map_nil, List.flatMap_append, List.flatMap_singleton]
    rw [h.balance]
    by_cases hn : o.event.handed = []
    · simp only [hn, List.nil_append, List.append_nil, List.append_assoc] at hbalance ⊢
      rw [hbalance]
    · -- The receiver is there, so nothing was dropped before this request.
      have hnone := h.receiver (hhanded hn)
      simp only [hnone, List.append_nil, List.nil_append, List.append_assoc] at hbalance ⊢
      rw [hbalance]
  · intro hr
    obtain ⟨hr', hd⟩ := hrecv hr
    simp [h.receiver hr', hd]

/-- An exchange is under way: the driver holds its job, or has not released it. -/
def exchanging (s : ClientAdmission R W) : Bool :=
  s.holding || match s.admission with
    | .active _ => true
    | _ => false

theorem Inv.exclusive (h : s.Inv) :
    s.permits + s.admission.jobs.length + s.exchanging.toNat ≤ 1 := by
  have howned := h.owned
  cases ha : s.admission with
  | active v =>
    rw [ha] at howned
    have hzero : s.permits = 0 := howned
    have := Bool.toNat_le s.exchanging
    simp only [Admission.jobs, List.length_nil]
    omega
  | closed =>
    rw [ha] at howned
    simpa [Admission.jobs, exchanging, ha] using howned.1
  | _ =>
    rw [ha] at howned
    simp [Admission.jobs, exchanging, ha, howned.1, howned.2]

theorem send_rejected {request : R} (hs : s.step (.send request) = some (s', o)) {submitted returned : R}
    {e : Error} (ho : o.event = .sent submitted (.error (returned, e))) : returned = request := by
  simp only [ClientAdmission.step] at hs
  split_ifs at hs
  have hevent : (s.send request).2.event = .sent submitted (.error (returned, e)) := by
    rw [Option.some.inj hs]
    exact ho
  unfold send at hevent
  simp only at hevent
  split_ifs at hevent
  · rcases releaseShared_event { s with permits := s.permits - 1 }
      (.sent request (.error (request, closedError))) with he | he
    · rw [he] at hevent
      cases hevent
      rfl
    · simp [he] at hevent
  · split at hevent <;> simp at hevent

theorem inv_of_reaches {tr : List (AdmissionCall R W × AdmissionOutput R W)}
    (h : (clientAdmission R W).Reaches .new tr s) :
    s.Inv ∧ Books tr s ∧ .panicked ∉ tr.map (·.2.event) := by
  refine h.invariant (P := fun tr s => s.Inv ∧ Books tr s ∧ .panicked ∉ tr.map (·.2.event))
    ⟨inv_new, ⟨rfl, fun _ => rfl⟩, by simp⟩ ?_
  rintro tr s i s' o ⟨hinv, hbooks, hpanic⟩ hs
  obtain ⟨hinv', hevent⟩ := hinv.step hs
  refine ⟨hinv', hbooks.step (step_moves hs), ?_⟩
  simpa [hevent.symm] using hpanic

end ClientAdmission

open ClientAdmission AdmissionEvent

/-- Admission is exclusive and fair to its waiter, in every interleaving of the senders, the
permits, the reservations, the driver and shutdown requests. -/
theorem admission_fair {tr : List (AdmissionCall R W × AdmissionOutput R W)} {s : ClientAdmission R W}
    (h : (clientAdmission R W).Reaches .new tr s) :
    -- At most one permit, queued job or running exchange, and at most one registered waiter.
    s.permits + s.admission.jobs.length + s.exchanging.toNat ≤ 1 ∧
    (∀ i j v w, s.reservations i = some (some v) → s.reservations j = some (some w) → i = j) ∧
    -- The waiter has the promised admission to itself, and never finds it free for all.
    (s.admission = .readyForWaiter → ∃ j w, s.reservations j = some (some w)) ∧
    (∀ j w, s.reservations j = some (some w) → s.admission ≠ .ready ∧
      ∀ i s' o, s.step i = some (s', o) → o.event = .reserved (.ok ()) →
        s.admission = .readyForWaiter ∧ ∃ waker, i = .pollReserve j waker) ∧
    .panicked ∉ tr.map (·.2.event) ∧
    -- Letting go of admission wakes the waiter whose poll it makes ready.
    (∀ j w, s.reservations j = some (some w) → ∀ i s' o waker, s.step i = some (s', o) →
      letsGo i = true → s.pollsReady j waker = false → s'.pollsReady j waker = true → w ∈ o.woke) ∧
    -- Accepted requests are handed over once or dropped with the receiver.
    (tr.map (·.2.event)).flatMap accepted = (tr.map (·.2.event)).flatMap handed ++
      (tr.map (·.2.event)).flatMap discarded ++ s.admission.jobs ∧
    (∀ request s' o submitted returned e, s.step (.send request) = some (s', o) →
      o.event = .sent submitted (.error (returned, e)) → returned = request) := by
  obtain ⟨hinv, hbooks, hpanic⟩ := inv_of_reaches h
  refine ⟨hinv.exclusive, hinv.unique, fun ha => ?_, fun j w hj => ⟨fun ha => ?_, ?_⟩, hpanic, ?_,
    hbooks.balance, ?_⟩
  · have hwaits := hinv.waits
    rw [ha] at hwaits
    exact hwaits
  · have hwaits := hinv.waits
    rw [ha] at hwaits
    exact hwaits j w hj
  · intro i s' o hs ho
    exact hinv.not_overtaken hj hs ho
  · intro j w hj i s' o waker hs hi hbefore hafter
    exact hinv.woken hj hs hi hbefore hafter
  · intro request s' o submitted returned e hs ho
    exact send_rejected hs ho

/-- A waiter registers behind a running exchange, a newcomer is refused, and the release
wakes the waiter, which is let in. -/
theorem admission_fair_sample :
    ∃ tr, ∃ s : ClientAdmission Nat Nat, (clientAdmission Nat Nat).Reaches .new tr s ∧
      s.reservations 0 = some (some 7) ∧ s.admission = .readyForWaiter ∧
      (∀ i s' o, s.step i = some (s', o) → o.event = .reserved (.ok ()) →
        ∃ waker, i = .pollReserve 0 waker) ∧
      (tr.map (·.2.event)).flatMap accepted = [5] := by
  have hrun : (clientAdmission Nat Nat).run .new
      [.tryReserve, .reserve 0, .reserve 1, .send 5, .pollNext 1, .pollReserve 0 6, .pollReserve 1 8,
        .pollReserve 0 7, .release] = some (_, _) := rfl
  have hreach := Machine.reaches_of_run hrun
  refine ⟨_, _, hreach, rfl, rfl, fun i s' o hs ho => ?_, rfl⟩
  exact (((admission_fair hreach).2.2.2.1 0 7 rfl).2 i s' o hs ho).2

end Vakya
