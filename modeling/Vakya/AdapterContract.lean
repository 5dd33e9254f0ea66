import Vakya.Adapters
import Vakya.BodyContract
import Vakya.SendBody

/-!
# The adapters keep the contract

`Limited`, `ExactLength` and `WithTrailers` wrap their source, the others mirror
it. What an adapter counts by itself, it counts for every source.
-/

namespace Vakya

open Library

namespace Body

variable {I D E D' E' T : Type} {b : Body I D E} {s : b.State} {i : I} {hold : b.State → T}
  {receive : b.State → FrameResult D E → T × FrameResult D' E'} {t : T}

theorem through_pending (h : b.through s i hold receive = some (t, .pending)) :
    ∃ s', b.nextFrame s i = some (s', .pending) ∧ t = hold s' := by
  unfold through at h
  split at h
  · cases h
  · rename_i s' hn
    cases h
    exact ⟨s', hn, rfl⟩
  · cases h

theorem through_ready {r' : FrameResult D' E'} (h : b.through s i hold receive = some (t, .ready r')) :
    ∃ s' r, b.nextFrame s i = some (s', .ready r) ∧ t = (receive s' r).1 ∧ r' = (receive s' r).2 := by
  unfold through at h
  split at h
  · cases h
  · cases h
  · rename_i s' r hn
    cases h
    exact ⟨s', r, hn, rfl, rfl⟩

theorem through_eq_none (h : b.through s i hold receive = none) : b.nextFrame s i = none := by
  unfold through at h
  split at h
  · assumption
  · cases h
  · cases h

end Body

/-! ## Adapters that may drop their source -/

def Slot.active {S : Type} (done : Bool) (body : Slot S) : Option S := if done then none else body.held?

theorem Slot.of_active {S : Type} {done : Bool} {body : Slot S} {s : S}
    (h : Slot.active done body = some s) : done = false ∧ body = .held s := by
  unfold Slot.active at h
  cases done with
  | true => cases h
  | false =>
    cases body with
    | held s' =>
      cases h
      exact ⟨rfl, rfl⟩
    | dropped s' => cases h

theorem Slot.active_map {S : Type} (done : Bool) (body : Slot S) (f : S → S) :
    Slot.active done (body.map f) = (Slot.active done body).map f := by
  cases done <;> cases body <;> rfl

/-- The polls of an adapter that may drop its source. -/
inductive Body.Guarded {I D E D' E' T : Type} (b : Body I D E) (done : Bool) (body : Slot b.State) (i : I)
    (t : T) (hold : b.State → T) (receive : b.State → FrameResult D E → T × FrameResult D' E') :
    T → FramePoll D' E' → Prop
  | done (h : done = true) : Guarded b done body i t hold receive t (.ready (.ok none))
  | pending {s s' : b.State} (hs : Slot.active done body = some s)
      (hn : b.nextFrame s i = some (s', .pending)) :
      Guarded b done body i t hold receive (hold s') .pending
  | ready {s s' : b.State} {r : FrameResult D E} (hs : Slot.active done body = some s)
      (hn : b.nextFrame s i = some (s', .ready r)) :
      Guarded b done body i t hold receive (receive s' r).1 (.ready (receive s' r).2)

section WhileActive

variable {I D E D' E' T : Type} {b : Body I D E} {done : Bool} {body : Slot b.State} {i : I} {t t' : T}
  {hold : b.State → T} {receive : b.State → FrameResult D E → T × FrameResult D' E'}
  {n : FramePoll D' E'}

theorem Body.guarded_of_whileActive (h : b.whileActive done body i t hold receive = some (t', n)) :
    b.Guarded done body i t hold receive t' n := by
  unfold Body.whileActive at h
  cases done with
  | true =>
    cases h
    exact .done rfl
  | false =>
    cases body with
    | dropped s => cases h
    | held s =>
      cases n with
      | pending =>
        obtain ⟨s', hn, rfl⟩ := Body.through_pending h
        exact .pending rfl hn
      | ready r' =>
        obtain ⟨s', r, hn, rfl, rfl⟩ := Body.through_ready h
        exact .ready rfl hn

end WhileActive

/-! ### What happens to the source -/

namespace Body

variable {I D E E' : Type}

/-- The source after a result that is not passed on: a data frame goes back to it. -/
def reclaim (b : Body I D E) (s : b.State) (r : FrameResult D E) : b.State :=
  match data? r with
  | some d => b.recycle s d
  | none => s

def reclaimed (r : FrameResult D E) : Trace I D E :=
  match data? r with
  | some d => [(.recycle d, none)]
  | none => []

/-- An adapter with its source in a slot passes the data frames of the source on, or reclaims the one
that it refuses and drops the source. -/
structure Slotted (a : Body I D E') (b : Body I D E) (body : a.State → Slot b.State)
    (done : a.State → Bool) : Prop where
  pending : ∀ {t i t'}, a.nextFrame t i = some (t', .pending) → ∃ s s', Slot.active (done t) (body t) = some s ∧
    b.nextFrame s i = some (s', .pending) ∧ done t' = false ∧ body t' = .held s'
  ready : ∀ {t i t' r'}, a.nextFrame t i = some (t', .ready r') →
    (done t = true ∧ t' = t ∧ r' = .ok none) ∨
      ∃ s s' r, Slot.active (done t) (body t) = some s ∧ b.nextFrame s i = some (s', .ready r) ∧
        ((body t' = .held s' ∧ data? r' = data? r) ∨
          (body t' = .dropped (b.reclaim s' r) ∧ done t' = true ∧ data? r' = none))
  drop : ∀ t, body (a.dropNext t) = (body t).map b.dropNext ∧ done (a.dropNext t) = done t
  recycle : ∀ t d, body (a.recycle t d) = (body t).map (b.recycle · d) ∧ done (a.recycle t d) = done t

/-- The history of a source in a slot: the data frames passed on, the slot, and whether the adapter is
done and a wait is pending. A source is dropped right after a result that was refused. -/
inductive Sourced (b : Body I D E) (s₀ : b.State) : List D → Slot b.State → Bool → Bool → Prop
  | held {str : Trace I D E} {s : b.State} {done w : Bool} (hr : b.machine.Reaches (s₀, false) str (s, w))
      (hw : done = true → w = false) : Sourced b s₀ (dataOf str) (.held s) done w
  | dropped {str : Trace I D E} {s : b.State} {i : I} {r : FrameResult D E}
      (hr : b.machine.Reaches (s₀, false) (str ++ (.poll i, some r) :: reclaimed r) (s, false)) :
      Sourced b s₀ (dataOf str) (.dropped s) true false

variable {a : Body I D E'} {b : Body I D E} {body : a.State → Slot b.State} {done : a.State → Bool}

theorem Sourced.held_of_active {s₀ : b.State} {ds : List D} {slot : Slot b.State} {d w : Bool}
    (h : Sourced b s₀ ds slot d w) (hd : d = false) : ∃ s, slot = .held s := by
  cases h with
  | held => exact ⟨_, rfl⟩
  | dropped => cases hd

theorem reaches_reclaimed {σ : b.State × Bool} {str : Trace I D E} {s : b.State}
    (hr : b.machine.Reaches σ str (s, false)) (r : FrameResult D E) :
    b.machine.Reaches σ (str ++ reclaimed r) (b.reclaim s r, false) := by
  unfold reclaim reclaimed
  cases data? r with
  | none => simpa using hr
  | some d => exact hr.step rfl

theorem Slotted.sourced (h : Slotted a b body done) {t₀ : a.State} {s₀ : b.State}
    (hbody : body t₀ = .held s₀) (hdone : done t₀ = false) {tr : Trace I D E'} {u : a.State × Bool}
    (hr : a.machine.Reaches (t₀, false) tr u) :
    Sourced b s₀ (dataOf tr) (body u.1) (done u.1) u.2 := by
  refine hr.invariant (P := fun tr u => Sourced b s₀ (dataOf tr) (body u.1) (done u.1) u.2) ?_ ?_
  · rw [hbody, hdone]
    exact .held .start (by simp)
  intro tr u e u' o hsrc hs
  rw [dataOf_concat]
  cases used_of_step hs with
  | @pending t t' w i hn =>
    obtain ⟨s, s', hact, hb, hd', hb'⟩ := h.pending hn
    obtain ⟨hd, hheld⟩ := Slot.of_active hact
    simp only [hheld, hd] at hsrc
    simp only [hb', hd']
    generalize dataOf tr = ds at hsrc
    cases hsrc with
    | held hreach =>
      have : Sourced b s₀ _ _ false _ := .held (hreach.step (step_pending _ hb)) (by simp)
      rwa [dataOf_concat] at this
  | @ready t t' w i r' hn =>
    rcases h.ready hn with ⟨hd, rfl, rfl⟩ | ⟨s, s', r, hact, hb, hcase⟩
    · simp only [data?, Option.bind_some, Option.toList_none, List.append_nil]
      simp only [hd] at hsrc ⊢
      generalize dataOf tr = ds at hsrc
      generalize body t' = slot at hsrc
      cases hsrc with
      | held hreach hw =>
        obtain rfl := hw rfl
        exact .held hreach fun _ => rfl
      | dropped hreach => exact .dropped hreach
    · obtain ⟨hd, hheld⟩ := Slot.of_active hact
      simp only [hheld, hd] at hsrc
      generalize dataOf tr = ds at hsrc
      cases hsrc with
      | held hreach =>
        have hreach' := hreach.step (step_ready _ hb)
        rcases hcase with ⟨hb', hdata⟩ | ⟨hb', hd', hdata⟩
        · have : Sourced b s₀ _ _ (done t') _ := .held hreach' (by simp)
          rw [dataOf_concat] at this
          simp only [hb', Option.bind_some, hdata]
          exact this
        · have hend := reaches_reclaimed hreach' r
          rw [List.append_assoc] at hend
          simp only [hb', hd', Option.bind_some, hdata, Option.toList_none, List.append_nil]
          exact .dropped hend
  | drop t =>
    simp only [(h.drop t).1, (h.drop t).2, Option.bind_none, Option.toList_none, List.append_nil]
    simp only at hsrc
    generalize dataOf tr = ds at hsrc
    generalize hbt : body t = slot at hsrc
    generalize hdt : done t = d at hsrc
    cases hsrc with
    | held hreach hw =>
      have : Sourced b s₀ _ _ d _ := .held (hreach.step (i := .drop) rfl) (by simp)
      rwa [dataOf_concat, Option.bind_none, Option.toList_none, List.append_nil] at this
  | recycle t data =>
    simp only [(h.recycle t data).1, (h.recycle t data).2, Option.bind_none, Option.toList_none,
      List.append_nil]
    simp only at hsrc
    generalize dataOf tr = ds at hsrc
    generalize hbt : body t = slot at hsrc
    generalize hdt : done t = d at hsrc
    cases hsrc with
    | held hreach hw =>
      have : Sourced b s₀ _ _ d _ := .held (hreach.step (i := .recycle data) rfl) (by simp)
      rwa [dataOf_concat, Option.bind_none, Option.toList_none, List.append_nil] at this
    | dropped hreach => exact .dropped hreach

end Body

/-! ## `Limited` -/

namespace Limited

variable {I D E : Type} {b : Body I D E}

def view (t : Limited b.State) : Option b.State := Slot.active t.done t.body

theorem sizeHint_of_view {t : Limited b.State} {s : b.State} {hint : SizeHint} (h : t.view = some s)
    (hb : b.sizeHint s = some hint) : ∃ h', (limited b).sizeHint t = some h' ∧
      h'.lower = (if hint.lower ≤ t.remaining then hint.lower else 0) ∧
      h'.upper = some (min (hint.upper.getD t.remaining) t.remaining) := by
  obtain ⟨hd, hbody⟩ := Slot.of_active h
  have hle : ∀ u ∈ some (min (hint.upper.getD t.remaining) t.remaining),
      (if hint.lower ≤ t.remaining then hint.lower else 0) ≤ u := by
    intro u hu
    obtain rfl := Option.some.inj hu
    split_ifs with hl
    · refine le_min ?_ hl
      cases hu : hint.upper with
      | none => exact hl
      | some v => exact hint.ordered v hu
    · exact Nat.zero_le _
  have hlower : (if hint.lower ≤ t.remaining then hint.lower else 0) < wordSize := by
    split_ifs
    · exact hint.lower_lt
    · decide
  have hupper : ∀ u ∈ some (min (hint.upper.getD t.remaining) t.remaining), u < wordSize := by
    intro u hu
    obtain rfl := Option.some.inj hu
    exact lt_of_le_of_lt (min_le_right _ _) t.remaining_lt
  have hbounds : SizeHint.withBounds _ _ hlower hupper = .ok ⟨_, _, hle, hlower, hupper⟩ := dif_pos hle
  refine ⟨⟨_, _, hle, hlower, hupper⟩, ?_, rfl, rfl⟩
  show Limited.sizeHint b t = _
  simp only [Limited.sizeHint, hd, hbody, Slot.held?, hb, Bool.false_eq_true, if_false, Option.bind_eq_bind,
    Option.bind_some]
  rw [hbounds]
  rfl

theorem wraps : (limited b).Wraps b view fun _ => false where
  stopped {t i t' n} hv h := by
    cases Body.guarded_of_whileActive h with
    | done => exact ⟨hv, rfl⟩
    | pending hs => cases hv.symm.trans hs
    | ready hs => cases hv.symm.trans hs
  pending {t s i t'} hv h := by
    cases Body.guarded_of_whileActive h with
    | @pending s₁ s' hs hn =>
      obtain rfl : s = s₁ := Option.some.inj (hv.symm.trans hs)
      exact ⟨s', hn, by simp [view, Slot.active, (Slot.of_active hv).1, Slot.held?], rfl⟩
  ready {t s i t' r'} hv h := by
    cases Body.guarded_of_whileActive h with
    | done hd => simp [view, Slot.active, hd] at hv
    | @ready s₁ s' r hs hn =>
      obtain rfl : s = s₁ := Option.some.inj (hv.symm.trans hs)
      have hd := (Slot.of_active hv).1
      refine ⟨s', r, hn, ?_⟩
      rcases r with e | _ | (data | fields)
      · exact .inr ⟨by simp [receive, view, Slot.active], .inl rfl⟩
      · exact .inr ⟨by simp [receive, view, Slot.active], .inr ⟨rfl, .inl rfl⟩⟩
      · by_cases hfit : (b.asInit data).length ≤ t.remaining
        · exact .inl ⟨rfl, by simp [receive, hfit, Body.shape, limited],
            by simp [receive, hfit, view, Slot.active, hd, Slot.held?], by simp⟩
        · exact .inr ⟨by simp [receive, hfit, view, Slot.active],
            .inl (by simp [receive, hfit, Body.shape])⟩
      · exact .inl ⟨rfl, rfl, by simp [receive, view, Slot.active, hd, Slot.held?], by simp⟩
  drop t := ⟨Slot.active_map _ _ _, rfl⟩
  recycle t data := ⟨Slot.active_map _ _ _, rfl⟩

theorem receive_remaining (t : Limited b.State) (s : b.State) (r : FrameResult D E) :
    ((limited b).shape (t.receive b s r).2).bytes + (t.receive b s r).1.remaining = t.remaining := by
  rcases r with e | _ | (data | fields)
  · simp [receive, Body.shape, FrameShape.bytes]
  · simp [receive, Body.shape, FrameShape.bytes]
  · by_cases hfit : (b.asInit data).length ≤ t.remaining
    · simp only [receive, if_pos hfit, Body.shape, FrameShape.bytes, limited]
      omega
    · simp [receive, if_neg hfit, Body.shape, FrameShape.bytes]
  · simp [receive, Body.shape, FrameShape.bytes]

theorem payload_add_remaining {t : Limited b.State} {w : Bool}
    {tr : Body.Trace I D (LimitError E)} {u : Limited b.State × Bool}
    (hr : (limited b).machine.Reaches (t, w) tr u) :
    payload ((limited b).shapes tr) + u.1.remaining = t.remaining := by
  refine hr.invariant
    (P := fun tr u => payload ((limited b).shapes tr) + u.1.remaining = t.remaining) (by simp) ?_
  intro tr u e u' o hsum hs
  rw [Body.shapes_append, payload_append]
  cases Body.used_of_step hs with
  | pending hn =>
    cases Body.guarded_of_whileActive hn with
    | pending => simpa using hsum
  | @ready t₁ t₂ w i r hn =>
    cases Body.guarded_of_whileActive hn with
    | done => simpa [Body.shape, FrameShape.bytes] using hsum
    | @ready s s' r' hs hn' =>
      have := receive_remaining t₁ s' r'
      simp only [Body.shapes_some, payload_cons, payload_nil]
      simp only at hsum
      omega
  | drop t₁ => simpa [limited] using hsum
  | recycle t₁ data => simpa [limited] using hsum

theorem slotted : (limited b).Slotted b Limited.body Limited.done where
  pending {t i t'} h := by
    cases Body.guarded_of_whileActive h with
    | @pending s s' hs hn => exact ⟨s, s', hs, hn, (Slot.of_active hs).1, rfl⟩
  ready {t i t' r'} h := by
    cases Body.guarded_of_whileActive h with
    | done hd => exact .inl ⟨hd, rfl, rfl⟩
    | @ready s s' r hs hn =>
      refine .inr ⟨s, s', r, hs, hn, ?_⟩
      rcases r with e | _ | (data | fields)
      · exact .inl ⟨rfl, rfl⟩
      · exact .inl ⟨rfl, rfl⟩
      · by_cases hfit : (b.asInit data).length ≤ t.remaining
        · exact .inl ⟨by simp [receive, hfit], by simp [receive, hfit, Body.data?]⟩
        · refine .inr ⟨?_, ?_, ?_⟩
          · simp only [receive, if_neg hfit]
            rfl
          · simp only [receive, if_neg hfit]
          · simp only [receive, if_neg hfit]
            rfl
      · exact .inl ⟨rfl, rfl⟩
  drop t := ⟨rfl, rfl⟩
  recycle t data := ⟨rfl, rfl⟩

theorem contract {s : b.State} (hc : b.Contract s) {m : ℕ} (hm : m < wordSize) :
    (limited b).Contract (new b s m hm) := by
  refine wraps.contract (show view _ = some s from rfl) hc ?_ ?_
  · intro tr t _ hv h hh
    by_cases hd : t.done = true
    · simp only [limited, sizeHint, hd, if_true] at hh
      exact (Option.some.inj hh).symm
    · -- the source is gone although the limit is active: the `expect`
      have hb : t.body.held? = none := by simpa [view, Slot.active, hd] using hv
      simp [limited, sizeHint, hd, hb] at hh
  · intro t s' next t' hnext hv hfore
    obtain ⟨hd, hbody⟩ := Slot.of_active hv
    have hsum := payload_add_remaining hnext
    constructor
    · intro hended
      simp [limited, hd] at hended
    · intro hnone
      apply hfore.trailers _ rfl
      simpa [limited, hd, hbody, Slot.held?] using hnone
    · intro h hh hfin hok
      cases hb : b.sizeHint s' with
      | none => simp [limited, sizeHint, hd, hbody, Slot.held?, hb] at hh
      | some hint =>
        obtain ⟨h', hh', hlower, hupper⟩ := sizeHint_of_view hv hb
        obtain rfl : h' = h := Option.some.inj (hh'.symm.trans hh)
        obtain ⟨hlo, hup⟩ := hfore.size hint hb hfin hok
        rw [hlower, hupper]
        constructor
        · split_ifs
          · exact hlo
          · exact Nat.zero_le _
        · intro u hu
          obtain rfl := Option.some.inj hu
          refine le_min ?_ (by omega)
          cases hv : hint.upper with
          | none => simp; omega
          | some v => exact hup v hv

end Limited

/-! ## `ExactLength` -/

namespace ExactLength

variable {I D E : Type} {b : Body I D E}

def view (t : ExactLength b.State) : Option b.State := Slot.active t.done t.body

theorem check_ok {t t' : ExactLength b.State} {frame : Frame D}
    (h : t.check (E := E) b frame = .ok t') :
    t'.done = t.done ∧ t'.trailers = t.trailers ∧
      (b.shape (.ok (some frame))).bytes + t'.remaining = t.remaining ∧
      (t.sawTrailers = true → t'.sawTrailers = true) ∧
      (b.shape (.ok (some frame)) = .trailers → t.trailers ≠ .none ∧ t.sawTrailers = false) := by
  cases frame with
  | data data =>
    simp only [check] at h
    split_ifs at h with hsaw hfit
    cases h
    simp only [Body.shape, FrameShape.bytes]
    refine ⟨trivial, trivial, by omega, id, ?_⟩
    intro hd
    cases hd
  | trailers fields =>
    simp only [check] at h
    split_ifs at h with hsaw hnone
    cases h
    simp only [Body.shape, FrameShape.bytes, Nat.zero_add]
    exact ⟨trivial, trivial, trivial, fun _ => trivial, fun _ => ⟨hnone, by simpa using hsaw⟩⟩

/-- What `next_frame` makes of the results of the source. -/
inductive Received (b : Body I D E) (t : ExactLength b.State) (s : b.State) :
    FrameResult D E → ExactLength b.State → FrameResult D (ExactLengthError E) → Prop
  | failed (e : E) : Received b t s (.error e) { t with body := .held s, done := true } (.error (.source e))
  | tooShort (h : t.remaining ≠ 0) :
      Received b t s (.ok none) { t with body := .dropped s, done := true } (.error (.tooShort t.remaining))
  | ended (h : t.remaining = 0) :
      Received b t s (.ok none) { t with body := .held s, done := true } (.ok none)
  | passed {frame : Frame D} {t' : ExactLength b.State} (h : t.check (E := E) b frame = .ok t') :
      Received b t s (.ok (some frame)) { t' with body := .held s } (.ok (some frame))
  | violated {frame : Frame D} {e : ExactLengthError E} (h : t.check b frame = .error e) :
      Received b t s (.ok (some frame)) { t with body := .dropped (reclaim b s frame), done := true }
        (.error e)

theorem received (t : ExactLength b.State) (s : b.State) (r : FrameResult D E) :
    Received b t s r (t.receive b s r).1 (t.receive b s r).2 := by
  rcases r with e | _ | frame
  · exact .failed e
  · unfold receive
    split_ifs with h
    · exact .tooShort h
    · exact .ended (not_not.mp h)
  · unfold receive
    cases hc : t.check (E := E) b frame with
    | ok t' =>
      simp only [hc]
      exact .passed hc
    | error e =>
      simp only [hc]
      exact .violated hc

theorem shape_frame (frame : Frame D) :
    (exactLength b).shape (.ok (some frame)) = b.shape (E := E) (.ok (some frame)) := by
  cases frame <;> rfl

theorem wraps : (exactLength b).Wraps b view fun _ => false where
  stopped {t i t' n} hv h := by
    cases Body.guarded_of_whileActive h with
    | done => exact ⟨hv, rfl⟩
    | pending hs => cases hv.symm.trans hs
    | ready hs => cases hv.symm.trans hs
  pending {t s i t'} hv h := by
    cases Body.guarded_of_whileActive h with
    | @pending s₁ s' hs hn =>
      obtain rfl : s = s₁ := Option.some.inj (hv.symm.trans hs)
      exact ⟨s', hn, by simp [view, Slot.active, (Slot.of_active hv).1, Slot.held?], rfl⟩
  ready {t s i t' r'} hv h := by
    cases Body.guarded_of_whileActive h with
    | done hd => simp [view, Slot.active, hd] at hv
    | @ready s₁ s' r hs hn =>
      obtain rfl : s = s₁ := Option.some.inj (hv.symm.trans hs)
      have hd := (Slot.of_active hv).1
      refine ⟨s', r, hn, ?_⟩
      generalize ht' : (t.receive b s' r).1 = t', hr' : (t.receive b s' r).2 = r'
      have hrec : Received b t s' r t' r' := ht' ▸ hr' ▸ received t s' r
      cases hrec with
      | failed e => exact .inr ⟨by simp [view, Slot.active], .inl rfl⟩
      | tooShort => exact .inr ⟨by simp [view, Slot.active], .inl rfl⟩
      | ended => exact .inr ⟨by simp [view, Slot.active], .inr ⟨rfl, .inl rfl⟩⟩
      | @passed frame t₁ hc =>
        obtain ⟨hd', -⟩ := check_ok hc
        refine .inl ⟨?_, shape_frame frame, by simp [view, Slot.active, hd', hd, Slot.held?], by simp⟩
        cases frame <;> rfl
      | violated => exact .inr ⟨by simp [view, Slot.active], .inl rfl⟩
  drop t := ⟨Slot.active_map _ _ _, rfl⟩
  recycle t data := ⟨Slot.active_map _ _ _, rfl⟩

/-- What a run of `ExactLength` has counted since the state `t`. -/
structure Counted (t : ExactLength b.State) (ys : List FrameShape) (u : ExactLength b.State) : Prop where
  trailers_eq : u.trailers = t.trailers
  saw : t.sawTrailers = true → u.sawTrailers = true
  bytes : payload ys + u.remaining = t.remaining
  trailers : .trailers ∈ ys → t.trailers ≠ .none ∧ t.sawTrailers = false
  notEnded : t.done = false → u.done = false → .finished ∉ ys
  ended : t.done = false → u.done = true → .failed ∈ ys ∨ u.remaining = 0

theorem Counted.snoc {t u u' : ExactLength b.State} {ys : List FrameShape} {s : b.State}
    {r : FrameResult D E} {r' : FrameResult D (ExactLengthError E)} (h : Counted t ys u)
    (hd : u.done = false) (hrec : Received b u s r u' r') :
    Counted t (ys ++ [(exactLength b).shape r']) u' := by
  cases hrec with
  | failed e =>
    exact ⟨h.trailers_eq, h.saw, by simpa [Body.shape, FrameShape.bytes] using h.bytes,
      by simpa [Body.shape] using h.trailers, by simp, by simp [Body.shape]⟩
  | tooShort =>
    exact ⟨h.trailers_eq, h.saw, by simpa [Body.shape, FrameShape.bytes] using h.bytes,
      by simpa [Body.shape] using h.trailers, by simp, by simp [Body.shape]⟩
  | ended hz =>
    exact ⟨h.trailers_eq, h.saw, by simpa [Body.shape, FrameShape.bytes] using h.bytes,
      by simpa [Body.shape] using h.trailers, by simp, fun _ _ => .inr hz⟩
  | violated =>
    exact ⟨h.trailers_eq, h.saw, by simpa [Body.shape, FrameShape.bytes] using h.bytes,
      by simpa [Body.shape] using h.trailers, by simp, by simp [Body.shape]⟩
  | @passed frame t' hc =>
    obtain ⟨hd', htr, hbytes, hsaw, htrailers⟩ := check_ok hc
    rw [shape_frame]
    have hne : b.shape (.ok (some frame)) ≠ .finished := by cases frame <;> simp [Body.shape]
    refine ⟨htr.trans h.trailers_eq, fun ht => hsaw (h.saw ht), ?_, ?_, ?_, ?_⟩
    · have := h.bytes
      simp only [payload_append, payload_cons, payload_nil]
      omega
    · intro hmem
      rcases List.mem_append.mp hmem with hmem | hmem
      · exact h.trailers hmem
      · obtain ⟨hnone, hnot⟩ := htrailers (List.mem_singleton.mp hmem).symm
        refine ⟨h.trailers_eq ▸ hnone, ?_⟩
        cases ht : t.sawTrailers with
        | false => rfl
        | true => simp [h.saw ht] at hnot
    · intro ht _ hmem
      rcases List.mem_append.mp hmem with hmem | hmem
      · exact h.notEnded ht hd hmem
      · exact hne (List.mem_singleton.mp hmem).symm
    · intro _ htrue
      simp [hd', hd] at htrue

theorem counted {t : ExactLength b.State} {w : Bool} {tr : Body.Trace I D (ExactLengthError E)}
    {u : ExactLength b.State × Bool} (hr : (exactLength b).machine.Reaches (t, w) tr u) :
    Counted t ((exactLength b).shapes tr) u.1 := by
  refine hr.invariant (P := fun tr u => Counted t ((exactLength b).shapes tr) u.1) ?_ ?_
  · exact ⟨rfl, id, by simp, by simp, by simp, fun hf ht => by simp [hf] at ht⟩
  intro tr u e u' o h hs
  rw [Body.shapes_append]
  cases Body.used_of_step hs with
  | pending hn =>
    cases Body.guarded_of_whileActive hn with
    | pending =>
      rw [Body.shapes_none, List.append_nil]
      exact ⟨h.trailers_eq, h.saw, h.bytes, h.trailers, h.notEnded, h.ended⟩
  | @ready t₁ t₂ w i r hn =>
    rw [Body.shapes_some]
    cases Body.guarded_of_whileActive hn with
    | done hd =>
      refine ⟨h.trailers_eq, h.saw, by simpa [Body.shape, FrameShape.bytes] using h.bytes,
        by simpa [Body.shape] using h.trailers, ?_, ?_⟩
      · intro _ hfalse
        cases hd.symm.trans hfalse
      · intro ht htrue
        exact (h.ended ht htrue).imp_left (List.mem_append_left _)
    | @ready s s' r' hact hn' => exact h.snoc (Slot.of_active hact).1 (received t₁ s' r')
  | drop t₁ =>
    rw [Body.shapes_none, List.append_nil]
    exact ⟨h.trailers_eq, h.saw, h.bytes, h.trailers, h.notEnded, h.ended⟩
  | recycle t₁ data =>
    rw [Body.shapes_none, List.append_nil]
    exact ⟨h.trailers_eq, h.saw, h.bytes, h.trailers, h.notEnded, h.ended⟩

theorem slotted : (exactLength b).Slotted b ExactLength.body ExactLength.done where
  pending {t i t'} h := by
    cases Body.guarded_of_whileActive h with
    | @pending s s' hs hn => exact ⟨s, s', hs, hn, (Slot.of_active hs).1, rfl⟩
  ready {t i t' r'} h := by
    cases Body.guarded_of_whileActive h with
    | done hd => exact .inl ⟨hd, rfl, rfl⟩
    | @ready s s' r hs hn =>
      refine .inr ⟨s, s', r, hs, hn, ?_⟩
      generalize ht' : (t.receive b s' r).1 = t', hr' : (t.receive b s' r).2 = r'
      have hrec : Received b t s' r t' r' := ht' ▸ hr' ▸ received t s' r
      cases hrec with
      | failed => exact .inl ⟨rfl, rfl⟩
      | tooShort => exact .inr ⟨rfl, rfl, rfl⟩
      | ended => exact .inl ⟨rfl, rfl⟩
      | @passed frame => exact .inl ⟨rfl, by cases frame <;> rfl⟩
      | @violated frame => exact .inr ⟨by cases frame <;> rfl, rfl, rfl⟩
  drop t := ⟨rfl, rfl⟩
  recycle t data := ⟨rfl, rfl⟩

theorem Counted.exact {t u : ExactLength b.State} {ys : List FrameShape} (h : Counted t ys u)
    (hd : t.done = false) (hfin : .finished ∈ ys) (hok : .failed ∉ ys) : payload ys = t.remaining := by
  have hz : u.remaining = 0 := by
    cases hu : u.done with
    | false => exact absurd hfin (h.notEnded hd hu)
    | true => exact (h.ended hd hu).resolve_left hok
  have := h.bytes
  omega

theorem contract {s : b.State} (hc : b.Contract s) {n : ℕ} (trailerHint : TrailerHint)
    (hn : n < wordSize) : (exactLength b).Contract (new b s n trailerHint hn) := by
  refine wraps.contract (show view _ = some s from rfl) hc ?_ ?_
  · intro tr t hr hv h hh
    have hd : t.done = true := by
      cases hd : t.done with
      | true => rfl
      | false =>
        obtain ⟨s', hb⟩ := (slotted.sourced rfl rfl hr).held_of_active hd
        have hb : t.body = .held s' := hb
        simp [view, Slot.active, hd, hb, Slot.held?] at hv
    have hh : some (if t.done then SizeHint.withExact 0 (by decide)
      else .withExact t.remaining t.remaining_lt) = some h := hh
    rw [hd] at hh
    exact (Option.some.inj hh).symm
  · intro t s' next t' hnext hv hfore
    have hd := (Slot.of_active hv).1
    have hcount := counted hnext
    constructor
    · intro hended
      simp [exactLength, hd] at hended
    · intro hnone hmem
      obtain ⟨hne, hsaw⟩ := hcount.trailers hmem
      simp [exactLength, hd, hsaw, hne] at hnone
    · intro h hh hfin hok
      rw [hcount.exact hd hfin hok]
      have hh : some (if t.done then SizeHint.withExact 0 (by decide)
        else .withExact t.remaining t.remaining_lt) = some h := hh
      rw [hd] at hh
      obtain rfl := Option.some.inj hh
      simp [SizeHint.withExact]

end ExactLength

/-! ## `WithTrailers` -/

theorem attachFields_values (fields : Headers) (n : HeaderName) (vs : List HeaderValue)
    (rest : List (Option HeaderName × HeaderValue)) :
    attachFields fields (some n) (vs.map (none, ·) ++ rest) =
      attachFields (vs.foldl (fun m v => m.append n v) fields) (some n) rest := by
  induction vs generalizing fields with
  | nil => rfl
  | cons v vs ih =>
    rw [List.map_cons, List.cons_append, attachFields]
    exact ih _

theorem getAll_foldl_append (fields : Headers) (n n' : HeaderName) (vs : List HeaderValue) :
    (vs.foldl (fun m v => m.append n v) fields).getAll n' =
      fields.getAll n' ++ if n' = n then vs else [] := by
  induction vs generalizing fields with
  | nil => simp
  | cons v vs ih =>
    rw [List.foldl_cons, ih]
    split_ifs with h
    · rw [h, HeaderMap.getAll_append_self, List.append_assoc]
      rfl
    · rw [HeaderMap.getAll_append_ne _ h]

theorem attachFields_entries (es : List (HeaderName × List HeaderValue)) (hne : ∀ e ∈ es, e.2 ≠ [])
    (hnd : (es.map Prod.fst).Nodup) (fields : Headers) (name : Option HeaderName) :
    ∃ fields', attachFields fields name (es.flatMap HeaderMap.namedOnce) = some fields' ∧
      ∀ n, fields'.getAll n =
        fields.getAll n ++ ((es.find? fun e => e.1 = n).map Prod.snd).getD [] := by
  induction es generalizing fields name with
  | nil => exact ⟨fields, rfl, by simp⟩
  | cons e es ih =>
    obtain ⟨m, vs⟩ := e
    obtain ⟨v, vs, rfl⟩ := List.exists_cons_of_ne_nil (hne (m, vs) List.mem_cons_self)
    rw [List.map_cons, List.nodup_cons] at hnd
    obtain ⟨fields', hrun, hget⟩ := ih (fun e he => hne e (List.mem_cons_of_mem _ he)) hnd.2
      ((v :: vs).foldl (fun m' v => m'.append m v) fields) (some m)
    refine ⟨fields', ?_, fun n => ?_⟩
    · rw [List.flatMap_cons, HeaderMap.namedOnce, List.cons_append, attachFields]
      exact (attachFields_values _ _ _ _).trans hrun
    · rw [hget, getAll_foldl_append, List.append_assoc]
      congr 1
      by_cases hn : n = m
      · -- the names of a map differ, so the rest has none of this one
        subst hn
        have hnone : es.find? (fun e => e.1 = n) = none := by
          rw [List.find?_eq_none]
          intro e he heq
          exact hnd.1 (List.mem_map.mpr ⟨e, he, by simpa using heq⟩)
        simp [hnone]
      · simp [hn, Ne.symm hn]

theorem attachFields_intoIter (fields pending : Headers) :
    ∃ fields', attachFields fields none pending.intoIter = some fields' ∧
      ∀ n, fields'.getAll n = fields.getAll n ++ pending.getAll n :=
  attachFields_entries pending.entries pending.values_ne_nil pending.names_nodup fields none

namespace WithTrailers

variable {I D E : Type} {b : Body I D E}

def view (t : WithTrailers b.State) : Option b.State := if t.done then none else some t.body

inductive Polled (b : Body I D E) (t : WithTrailers b.State) (i : I) :
    WithTrailers b.State → FramePoll D E → Prop
  | done (h : t.done = true) : Polled b t i t (.ready (.ok none))
  | pending {s : b.State} (h : t.done = false) (hn : b.nextFrame t.body i = some (s, .pending)) :
      Polled b t i { t with body := s } .pending
  | passed {s : b.State} {frame : Frame D} (h : t.done = false)
      (hn : b.nextFrame t.body i = some (s, .ready (.ok (some frame))))
      (hplain : frame.isTrailers = true → t.pending = none) :
      Polled b t i { t with body := s } (.ready (.ok (some frame)))
  | merged {s : b.State} {fields pending fields' : Headers} (h : t.done = false)
      (hp : t.pending = some pending)
      (hn : b.nextFrame t.body i = some (s, .ready (.ok (some (.trailers fields)))))
      (hm : attachFields fields none pending.intoIter = some fields') :
      Polled b t i { t with body := s, pending := none } (.ready (.ok (some (.trailers fields'))))
  | ended {s : b.State} (h : t.done = false) (hn : b.nextFrame t.body i = some (s, .ready (.ok none))) :
      Polled b t i ⟨s, none, true⟩ (.ready (.ok (t.pending.map Frame.trailers)))
  | failed {s : b.State} {e : E} (h : t.done = false)
      (hn : b.nextFrame t.body i = some (s, .ready (.error e))) :
      Polled b t i ⟨s, none, true⟩ (.ready (.error e))

theorem polled_of_nextFrame {t t' : WithTrailers b.State} {i : I} {n : FramePoll D E}
    (h : (withTrailers b).nextFrame t i = some (t', n)) : Polled b t i t' n := by
  obtain ⟨body, pending, done⟩ := t
  simp only [withTrailers] at h
  cases done with
  | true =>
    cases h
    exact .done rfl
  | false =>
    simp only [Bool.false_eq_true, if_false] at h
    cases hn : b.nextFrame body i with
    | none => simp [hn] at h
    | some p =>
      obtain ⟨s, n'⟩ := p
      cases n' with
      | pending =>
        simp only [hn] at h
        cases h
        exact .pending rfl hn
      | ready r =>
        simp only [hn] at h
        obtain ⟨p, hp, heq⟩ := Option.map_eq_some_iff.mp h
        cases heq
        rcases r with e | _ | (data | fields)
        · cases hp
          exact .failed rfl hn
        · cases hp
          exact .ended (t := ⟨body, pending, false⟩) rfl hn
        · cases hp
          exact .passed rfl hn (by simp [Frame.isTrailers])
        · cases pending with
          | none =>
            cases hp
            exact .passed rfl hn fun _ => rfl
          | some pending =>
            obtain ⟨fields', hm, heq⟩ := Option.bind_eq_some_iff.mp hp
            cases heq
            exact .merged rfl rfl hn hm

theorem of_view {t : WithTrailers b.State} {s : b.State} (h : t.view = some s) :
    t.done = false ∧ t.body = s := by
  unfold view at h
  split_ifs at h with hd
  exact ⟨by simpa using hd, Option.some.inj h⟩

theorem view_of_active {t : WithTrailers b.State} (h : t.done = false) : t.view = some t.body := by
  simp [view, h]

theorem wraps : (withTrailers b).Wraps b view fun t => t.pending.isSome where
  stopped {t i t' n} hv h := by
    cases polled_of_nextFrame h with
    | done => exact ⟨hv, rfl⟩
    | pending hd => cases (view_of_active hd).symm.trans hv
    | passed hd => cases (view_of_active hd).symm.trans hv
    | merged hd => cases (view_of_active hd).symm.trans hv
    | ended hd => cases (view_of_active hd).symm.trans hv
    | failed hd => cases (view_of_active hd).symm.trans hv
  pending {t s i t'} hv h := by
    obtain ⟨-, rfl⟩ := of_view hv
    cases polled_of_nextFrame h with
    | pending hd hn => exact ⟨_, hn, view_of_active hd, rfl⟩
  ready {t s i t' r'} hv h := by
    obtain ⟨hd, rfl⟩ := of_view hv
    cases polled_of_nextFrame h with
    | done hdone => cases hd.symm.trans hdone
    | @passed s' frame _ hn hplain =>
      refine ⟨s', _, hn, .inl ⟨?_, ?_, view_of_active hd, fun hlate => ⟨hlate, fun htr => ?_⟩⟩⟩
      · cases frame <;> rfl
      · cases frame <;> rfl
      · cases frame with
        | data d => cases htr
        | trailers fields =>
          have hnone : t.pending = none := hplain rfl
          simp [hnone] at hlate
    | merged _ hp hn => exact ⟨_, _, hn, .inl ⟨rfl, rfl, view_of_active hd, by simp⟩⟩
    | ended _ hn =>
      refine ⟨_, _, hn, .inr ⟨rfl, .inr ⟨rfl, ?_⟩⟩⟩
      cases hp : t.pending with
      | none => exact .inl rfl
      | some pending => exact .inr ⟨by simp, rfl⟩
    | failed _ hn => exact ⟨_, _, hn, .inr ⟨rfl, .inl rfl⟩⟩
  drop t := by
    obtain ⟨body, pending, done⟩ := t
    refine ⟨?_, rfl⟩
    cases done <;> rfl
  recycle t data := by
    obtain ⟨body, pending, done⟩ := t
    refine ⟨?_, rfl⟩
    cases done <;> rfl

theorem contract {s : b.State} (hc : b.Contract s) (trailers : Headers) :
    (withTrailers b).Contract (new b s trailers) := by
  refine wraps.contract (show view _ = some s from rfl) hc ?_ ?_
  · intro tr t _ hv h hh
    cases hd : t.done with
    | true =>
      simp only [withTrailers, hd, if_true] at hh
      exact (Option.some.inj hh).symm
    | false => cases (view_of_active hd).symm.trans hv
  · intro t s' next t' hnext hv hfore
    obtain ⟨hd, rfl⟩ := of_view hv
    constructor
    · intro hended
      simp [withTrailers, hd] at hended
    · intro hnone
      cases hp : t.pending with
      | none =>
        apply hfore.trailers _ (by simp [hp])
        simpa [withTrailers, hd, hp] using hnone
      | some pending => simp [withTrailers, hd, hp] at hnone
    · intro h hh hfin hok
      have hsize : b.sizeHint t.body = some h := by simpa [withTrailers, hd] using hh
      exact hfore.size h hsize hfin hok

end WithTrailers

/-! ## Adapters that pass frames on -/

section Mirrors

variable {I D E E' F D₂ E₂ : Type} {b : Body I D E} {b₂ : Body I D₂ E₂}

theorem mirrors_mapError (map : F → E → F × E') :
    (mapError b map).Mirrors b fun t s => t.1 = s where
  pending {t s i t'} hR h := by
    subst hR
    obtain ⟨s', hn, rfl⟩ := Body.through_pending h
    exact ⟨s', hn, rfl⟩
  ready {t s i t' r'} hR h := by
    subst hR
    obtain ⟨s', r, hn, rfl, rfl⟩ := Body.through_ready h
    refine ⟨s', r, hn, ?_⟩
    cases r with
    | error e => exact ⟨rfl, rfl⟩
    | ok next =>
      refine ⟨rfl, ?_⟩
      rcases next with _ | (data | fields) <;> rfl
  drop hR := congrArg b.dropNext hR
  recycle data hR := .inr ⟨data, congrArg (b.recycle · data) hR⟩
  sizeHint hR := congrArg b.sizeHint hR
  trailerHint hR := congrArg b.trailerHint hR
  isEndStream hR := congrArg b.isEndStream hR

theorem mirrors_inspectFrame (inspect : F → Frame D → F) :
    (inspectFrame b inspect).Mirrors b fun t s => t.1 = s where
  pending {t s i t'} hR h := by
    subst hR
    obtain ⟨s', hn, rfl⟩ := Body.through_pending h
    exact ⟨s', hn, rfl⟩
  ready {t s i t' r'} hR h := by
    subst hR
    obtain ⟨s', r, hn, rfl, rfl⟩ := Body.through_ready h
    refine ⟨s', r, hn, ?_⟩
    rcases r with e | _ | (data | fields) <;> exact ⟨rfl, rfl⟩
  drop hR := congrArg b.dropNext hR
  recycle data hR := .inr ⟨data, congrArg (b.recycle · data) hR⟩
  sizeHint hR := congrArg b.sizeHint hR
  trailerHint hR := congrArg b.trailerHint hR
  isEndStream hR := congrArg b.isEndStream hR

theorem mirrors_either_left : (either b b₂).Mirrors b fun t s => t = .inl s where
  pending {t s i t'} hR h := by
    subst hR
    obtain ⟨s', hn, rfl⟩ := Body.through_pending h
    exact ⟨s', hn, rfl⟩
  ready {t s i t' r'} hR h := by
    subst hR
    obtain ⟨s', r, hn, rfl, rfl⟩ := Body.through_ready h
    refine ⟨s', r, hn, rfl, ?_⟩
    rcases r with e | _ | (data | fields) <;> rfl
  drop hR := by subst hR; rfl
  recycle data hR := by
    subst hR
    cases data with
    | inl data => exact .inr ⟨data, rfl⟩
    | inr data => exact .inl rfl
  sizeHint hR := by subst hR; rfl
  trailerHint hR := by subst hR; rfl
  isEndStream hR := by subst hR; rfl

theorem mirrors_either_right : (either b b₂).Mirrors b₂ fun t s => t = .inr s where
  pending {t s i t'} hR h := by
    subst hR
    obtain ⟨s', hn, rfl⟩ := Body.through_pending h
    exact ⟨s', hn, rfl⟩
  ready {t s i t' r'} hR h := by
    subst hR
    obtain ⟨s', r, hn, rfl, rfl⟩ := Body.through_ready h
    refine ⟨s', r, hn, rfl, ?_⟩
    rcases r with e | _ | (data | fields) <;> rfl
  drop hR := by subst hR; rfl
  recycle data hR := by
    subst hR
    cases data with
    | inl data => exact .inl rfl
    | inr data => exact .inr ⟨data, rfl⟩
  sizeHint hR := by subst hR; rfl
  trailerHint hR := by subst hR; rfl
  isEndStream hR := by subst hR; rfl

end Mirrors

/-! ## A source -/

section Full

variable {I D : Type} {asInit : D → Bytes} {h : ∀ d, (asInit d).length < wordSize}

theorem full_run {s₀ : Option D} {w : Bool} {tr : Body.Trace I D Empty} {u : Option D × Bool}
    (hr : (full asInit h).machine.Reaches (s₀, w) tr u) :
    (u.1 = s₀ ∧ (full (I := I) asInit h).shapes tr = []) ∨
      (u.1 = none ∧ ∃ zs, (full (I := I) asInit h).shapes tr =
        (s₀.map fun data => FrameShape.data (asInit data).length).toList ++ zs ∧ ∀ z ∈ zs, z = .finished) := by
  refine hr.invariant (P := fun tr u => (u.1 = s₀ ∧ (full (I := I) asInit h).shapes tr = []) ∨
    (u.1 = none ∧ ∃ zs, (full (I := I) asInit h).shapes tr =
      (s₀.map fun data => FrameShape.data (asInit data).length).toList ++ zs ∧ ∀ z ∈ zs, z = .finished))
    (.inl ⟨rfl, rfl⟩) ?_
  intro tr u e u' o hinv hs
  rw [Body.shapes_append]
  cases Body.used_of_step hs with
  | @pending t t' w i hn => cases t <;> cases hn
  | @ready t t' w i r hn =>
    rw [Body.shapes_some]
    cases t with
    | none =>
      cases hn
      rcases hinv with ⟨rfl, hnil⟩ | ⟨-, zs, hzs, hend⟩
      · exact .inr ⟨rfl, [.finished], by simp [hnil, Body.shape], by simp⟩
      · refine .inr ⟨rfl, zs ++ [.finished], by simp [hzs, Body.shape], fun z hz => ?_⟩
        rcases List.mem_append.mp hz with hz | hz
        · exact hend z hz
        · exact List.mem_singleton.mp hz
    | some data =>
      cases hn
      rcases hinv with ⟨rfl, hnil⟩ | ⟨hnone, -⟩
      · exact .inr ⟨rfl, [], by rw [hnil]; rfl, by simp⟩
      · cases hnone
  | drop t =>
    rw [Body.shapes_none, List.append_nil]
    exact hinv
  | recycle t data =>
    rw [Body.shapes_none, List.append_nil]
    exact hinv

theorem full_contract (s₀ : Option D) : (full (I := I) asInit h).Contract s₀ := by
  intro tr s next t hr hnext
  have hall := full_run (hr.trans hnext)
  have hs := full_run hr
  have hn := full_run hnext
  constructor
  · rw [← Body.shapes_append]
    rcases hall with ⟨-, hnil⟩ | ⟨-, zs, hzs, hend⟩
    · rw [hnil]
      exact List.Pairwise.nil
    · rw [hzs]
      have hfin : InOrder zs := List.pairwise_iff_getElem.mpr fun i j hi hj _ => by
        rw [hend _ (List.getElem_mem hi), hend _ (List.getElem_mem hj)]
        rfl
      cases s₀ with
      | none => exact hfin
      | some data => exact List.pairwise_cons.mpr ⟨fun _ _ => trivial, hfin⟩
  · have hfinished (hnone : s = none) : ∀ y ∈ (full (I := I) asInit h).shapes next, y = .finished := by
      subst hnone
      rcases hn with ⟨-, hnil⟩ | ⟨-, zs, hzs, hend⟩
      · simp [hnil]
      · simpa [hzs] using hend
    constructor
    · intro hended y hy
      have hnone : s = none := Option.isNone_iff_eq_none.mp hended
      rw [hfinished hnone y hy]
      rfl
    · intro _ hmem
      rcases hn with ⟨-, hnil⟩ | ⟨-, zs, hzs, hend⟩
      · simp [hnil] at hmem
      · rw [hzs] at hmem
        rcases List.mem_append.mp hmem with hmem | hmem
        · cases s <;> simp at hmem
        · cases hend _ hmem
    · intro hint hh hfin _
      cases s with
      | none =>
        cases hh
        rw [payload_of_finished (hfinished rfl)]
        simp [SizeHint.withExact]
      | some data =>
        cases hh
        rcases hn with ⟨-, hnil⟩ | ⟨-, zs, hzs, hend⟩
        · simp [hnil] at hfin
        · rw [hzs, payload_append, payload_of_finished hend]
          simp [SizeHint.withExact, FrameShape.bytes]

end Full

/-! ## Compositions -/

/-- Bodies composed by adapters from sources that keep the contract. -/
inductive Composed (I : Type) : {D E : Type} → (b : Body I D E) → b.State → Prop
  | source {D E : Type} {b : Body I D E} {s : b.State} (h : b.Contract s) : Composed I b s
  | limited {D E : Type} {b : Body I D E} {s : b.State} (h : Composed I b s) (m : ℕ) (hm : m < wordSize) :
      Composed I (limited b) (Limited.new b s m hm)
  | exactLength {D E : Type} {b : Body I D E} {s : b.State} (h : Composed I b s) (n : ℕ)
      (trailerHint : TrailerHint) (hn : n < wordSize) :
      Composed I (exactLength b) (ExactLength.new b s n trailerHint hn)
  | withTrailers {D E : Type} {b : Body I D E} {s : b.State} (h : Composed I b s) (trailers : Headers) :
      Composed I (withTrailers b) (WithTrailers.new b s trailers)
  | mapError {D E E' F : Type} {b : Body I D E} {s : b.State} (h : Composed I b s)
      (map : F → E → F × E') (f : F) : Composed I (mapError b map) (s, f)
  | inspectFrame {D E F : Type} {b : Body I D E} {s : b.State} (h : Composed I b s)
      (inspect : F → Frame D → F) (f : F) : Composed I (inspectFrame b inspect) (s, f)
  | left {D E D₂ E₂ : Type} {b : Body I D E} {s : b.State} (h : Composed I b s) (b₂ : Body I D₂ E₂) :
      Composed I (either b b₂) (.inl s)
  | right {D E D₂ E₂ : Type} {b : Body I D E} {s : b.State} (h : Composed I b s) (b₂ : Body I D₂ E₂) :
      Composed I (either b₂ b) (.inr s)

theorem Composed.contract {I D E : Type} {b : Body I D E} {s : b.State} (h : Composed I b s) :
    b.Contract s := by
  induction h with
  | source h => exact h
  | limited _ m hm ih => exact Limited.contract ih hm
  | exactLength _ n trailerHint hn ih => exact ExactLength.contract ih trailerHint hn
  | withTrailers _ trailers ih => exact WithTrailers.contract ih trailers
  | mapError _ map f ih => exact (mirrors_mapError map).contract rfl ih
  | inspectFrame _ inspect f ih => exact (mirrors_inspectFrame inspect).contract rfl ih
  | left _ b₂ ih => exact mirrors_either_left.contract rfl ih
  | right _ b₂ ih => exact mirrors_either_right.contract rfl ih

end Vakya
