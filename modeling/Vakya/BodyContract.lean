import Vakya.Body

/-!
# Rules for the body contract

A body made from another one keeps the contract for one of two reasons. It
mirrors its source, use by use; or it wraps it: it passes frames on until the
source ends or the wrapper stops, and ends by itself from then on.
-/

namespace Vakya

open Library

namespace FrameShape

theorem mayPrecede_of_not_isFrame {x y : FrameShape} (hx : x.isFrame = true)
    (hy : y.isFrame = false) : x.MayPrecede y := by
  cases x with
  | data n => trivial
  | trailers => exact hy
  | _ => cases hx

end FrameShape

namespace Body

variable {I D D' E E' : Type} {a : Body I D' E'} {b : Body I D E}

/-- Every use of `a` in a state is a use of `b` in the related state, with the same result up to its
shape. A buffer that `b` did not produce may be kept from it. -/
structure Mirrors (a : Body I D' E') (b : Body I D E) (R : a.State → b.State → Prop) : Prop where
  pending : ∀ {t s i t'}, R t s → a.nextFrame t i = some (t', .pending) →
    ∃ s', b.nextFrame s i = some (s', .pending) ∧ R t' s'
  ready : ∀ {t s i t' r'}, R t s → a.nextFrame t i = some (t', .ready r') →
    ∃ s' r, b.nextFrame s i = some (s', .ready r) ∧ R t' s' ∧ a.shape r' = b.shape r
  drop : ∀ {t s}, R t s → R (a.dropNext t) (b.dropNext s)
  recycle : ∀ {t s} (data : D'), R t s →
    R (a.recycle t data) s ∨ ∃ d, R (a.recycle t data) (b.recycle s d)
  sizeHint : ∀ {t s}, R t s → a.sizeHint t = b.sizeHint s
  trailerHint : ∀ {t s}, R t s → a.trailerHint t = b.trailerHint s
  isEndStream : ∀ {t s}, R t s → a.isEndStream t = b.isEndStream s

theorem Mirrors.run {R : a.State → b.State → Prop} (h : Mirrors a b R) {t : a.State} {s : b.State}
    {w : Bool} {tr : Trace I D' E'} {t' : a.State × Bool} (hR : R t s)
    (hr : a.machine.Reaches (t, w) tr t') :
    ∃ str s', b.machine.Reaches (s, w) str (s', t'.2) ∧ R t'.1 s' ∧ a.shapes tr = b.shapes str := by
  refine hr.invariant (P := fun tr t' => ∃ str s', b.machine.Reaches (s, w) str (s', t'.2) ∧
    R t'.1 s' ∧ a.shapes tr = b.shapes str) ⟨[], s, .start, hR, rfl⟩ ?_
  rintro tr u e u' o ⟨str, s', hreach, hR, hshapes⟩ hs
  cases used_of_step hs with
  | pending hn =>
    obtain ⟨s'', hb, hR'⟩ := h.pending hR hn
    exact ⟨_, s'', hreach.step (step_pending _ hb), hR', by simp [hshapes]⟩
  | ready hn =>
    obtain ⟨s'', r, hb, hR', hshape⟩ := h.ready hR hn
    exact ⟨_, s'', hreach.step (step_ready _ hb), hR', by simp [hshapes, hshape]⟩
  | drop t =>
    exact ⟨_, b.dropNext s', hreach.step (i := .drop) rfl, h.drop hR, by simp [hshapes]⟩
  | recycle t data =>
    rcases h.recycle data hR with hsame | ⟨d, hR'⟩
    · exact ⟨str, s', hreach, hsame, by simp [hshapes]⟩
    · exact ⟨_, b.recycle s' d, hreach.step (i := .recycle d) rfl, hR', by simp [hshapes]⟩

theorem Mirrors.contract {R : a.State → b.State → Prop} (h : Mirrors a b R) {t₀ : a.State}
    {s₀ : b.State} (hR : R t₀ s₀) (hc : b.Contract s₀) : a.Contract t₀ := by
  intro tr t next t' hr hnext
  obtain ⟨str, s, hsr, hRs, hshapes⟩ := h.run hR hr
  obtain ⟨snext, s', hsnext, -, hshapes'⟩ := h.run hRs hnext
  rw [hshapes, hshapes', h.sizeHint hRs, h.trailerHint hRs, h.isEndStream hRs]
  exact hc str s snext (s', t'.2) hsr hsnext

/-- How a wrapper stops on a result `x` of its source with a result `y`: it fails, or both end, or
it puts late trailers in the place of the end. -/
def Stops (late : Bool) (x y : FrameShape) : Prop :=
  y = .failed ∨ x = .finished ∧ (y = .finished ∨ late = true ∧ y = .trailers)

/-- `view` is the source of a wrapper that has not stopped; `late` tells whether the wrapper has
trailers of its own. -/
structure Wraps (a : Body I D E') (b : Body I D E) (view : a.State → Option b.State)
    (late : a.State → Bool) : Prop where
  stopped : ∀ {t i t' n}, view t = none → a.nextFrame t i = some (t', n) →
    view t' = none ∧ n = .ready (.ok none)
  pending : ∀ {t s i t'}, view t = some s → a.nextFrame t i = some (t', .pending) →
    ∃ s', b.nextFrame s i = some (s', .pending) ∧ view t' = some s' ∧ late t' = late t
  ready : ∀ {t s i t' r'}, view t = some s → a.nextFrame t i = some (t', .ready r') →
    ∃ s' r, b.nextFrame s i = some (s', .ready r) ∧
      (((b.shape r).isFrame = true ∧ a.shape r' = b.shape r ∧ view t' = some s' ∧
          (late t' = true → late t = true ∧ b.shape r ≠ .trailers)) ∨
        (view t' = none ∧ Stops (late t) (b.shape r) (a.shape r')))
  drop : ∀ t, view (a.dropNext t) = (view t).map b.dropNext ∧ late (a.dropNext t) = late t
  recycle : ∀ t data, view (a.recycle t data) = (view t).map (b.recycle · data) ∧
    late (a.recycle t data) = late t

/-- What a wrapper has returned since its source was in `σ` and what has become of it. -/
inductive Tracks (b : Body I D E) (σ : b.State × Bool) (late₀ : Bool) :
    List FrameShape → Option b.State → Bool → Bool → Prop
  | active {str : Trace I D E} {s : b.State} {late w : Bool} (hr : b.machine.Reaches σ str (s, w))
      (hframes : ∀ x ∈ b.shapes str, x.isFrame = true)
      (hlate : late = true → late₀ = true ∧ .trailers ∉ b.shapes str) :
      Tracks b σ late₀ (b.shapes str) (some s) late w
  | stopped {str : Trace I D E} {σ' : b.State × Bool} {xs zs : List FrameShape} {x y : FrameShape}
      {late w : Bool} (hr : b.machine.Reaches σ str σ') (hstr : b.shapes str = xs ++ [x])
      (hframes : ∀ x ∈ xs, x.isFrame = true) (hstop : Stops late₀ x y)
      (hlast : y = .trailers → .trailers ∉ xs) (hend : ∀ z ∈ zs, z = .finished) :
      Tracks b σ late₀ (xs ++ y :: zs) none late w

theorem frames_concat {str : Trace I D E} {e : BodyEvent I D} {r : FrameResult D E}
    (h : ∀ x ∈ b.shapes str, x.isFrame = true) (hr : (b.shape r).isFrame = true) :
    ∀ x ∈ b.shapes (str ++ [(e, some r)]), x.isFrame = true := by
  intro x hx
  rw [shapes_append, shapes_some, List.mem_append, List.mem_singleton] at hx
  rcases hx with hx | rfl
  · exact h x hx
  · exact hr

section Wraps

variable {a : Body I D E'} {view : a.State → Option b.State} {late : a.State → Bool}

theorem Wraps.tracks_step (h : Wraps a b view late) {σ : b.State × Bool} {late₀ : Bool}
    {ys : List FrameShape} {u u' : a.State × Bool} {e : BodyEvent I D} {o : Option (FrameResult D E')}
    (ht : Tracks b σ late₀ ys (view u.1) (late u.1) u.2) (hs : a.machine.step u e = some (u', o)) :
    Tracks b σ late₀ (ys ++ a.shapes [(e, o)]) (view u'.1) (late u'.1) u'.2 := by
  generalize hv : view u.1 = v at ht
  generalize hl : late u.1 = l at ht
  cases ht with
  | @active str s l w hr hframes hlate =>
    cases used_of_step hs with
    | pending hn =>
      obtain ⟨s', hb, hv', hl'⟩ := h.pending hv hn
      have hr' := hr.step (step_pending _ hb)
      have : Tracks b σ late₀ _ _ l _ := .active hr' (by simpa using hframes) (by simpa using hlate)
      simpa [hv', hl', hl] using this
    | @ready _ _ _ _ r' hn =>
      obtain ⟨s', r, hb, ⟨hframe, hshape, hv', hl'⟩ | ⟨hv', hstop⟩⟩ := h.ready hv hn
      · have hr' := hr.step (step_ready _ hb)
        have : Tracks b σ late₀ _ _ (late _) _ := .active hr' (frames_concat hframes hframe) (by
          intro hlt
          obtain ⟨hlt', hne⟩ := hl' hlt
          obtain ⟨h0, hnot⟩ := hlate (hl ▸ hlt')
          exact ⟨h0, by simp [hnot, Ne.symm hne]⟩)
        simpa [hv', hshape] using this
      · have hr' := hr.step (step_ready _ hb)
        rw [hv', shapes_some]
        have hstop₀ : Stops late₀ (b.shape r) (a.shape r') := by
          refine hstop.imp_right fun ⟨hx, hy⟩ => ⟨hx, hy.imp_right fun ⟨hlt, hy⟩ => ⟨?_, hy⟩⟩
          exact (hlate (hl ▸ hlt)).1
        refine .stopped hr' (by simp) hframes hstop₀ ?_ (by simp)
        intro hy
        rcases hstop with hfail | ⟨-, hfin | ⟨hlt, -⟩⟩
        · rw [hfail] at hy; cases hy
        · rw [hfin] at hy; cases hy
        · exact (hlate (hl ▸ hlt)).2
    | drop t =>
      have hr' := hr.step (i := .drop) rfl
      have : Tracks b σ late₀ _ _ l _ := .active hr' (by simpa using hframes) (by simpa using hlate)
      rw [(h.drop t).1, (h.drop t).2, hv, hl]
      simpa using this
    | recycle t data =>
      have hr' := hr.step (i := .recycle data) rfl
      have : Tracks b σ late₀ _ _ l _ := .active hr' (by simpa using hframes) (by simpa using hlate)
      rw [(h.recycle t data).1, (h.recycle t data).2, hv, hl]
      simpa using this
  | @stopped str σ' xs zs x y l w hr hstr hframes hstop hlast hend =>
    cases used_of_step hs with
    | pending hn => cases (h.stopped hv hn).2
    | ready hn =>
      obtain ⟨hv', hn'⟩ := h.stopped hv hn
      obtain rfl := (FramePoll.ready.inj hn')
      rw [hv', shapes_some, List.append_assoc]
      refine .stopped hr hstr hframes hstop hlast fun z hz => ?_
      rcases List.mem_append.mp hz with hz | hz
      · exact hend z hz
      · exact List.mem_singleton.mp hz
    | drop t =>
      rw [(h.drop t).1, hv, shapes_none, List.append_nil]
      exact .stopped hr hstr hframes hstop hlast hend
    | recycle t data =>
      rw [(h.recycle t data).1, hv, shapes_none, List.append_nil]
      exact .stopped hr hstr hframes hstop hlast hend

theorem Wraps.tracks (h : Wraps a b view late) {t : a.State} {s : b.State} {w : Bool}
    {tr : Trace I D E'} {t' : a.State × Bool} (hv : view t = some s)
    (hr : a.machine.Reaches (t, w) tr t') :
    Tracks b (s, w) (late t) (a.shapes tr) (view t'.1) (late t'.1) t'.2 := by
  refine hr.invariant (P := fun tr t' =>
    Tracks b (s, w) (late t) (a.shapes tr) (view t'.1) (late t'.1) t'.2) ?_ ?_
  · have : Tracks b (s, w) (late t) _ _ (late t) _ := .active .start (by simp) (by simp)
    simpa [hv] using this
  · intro tr u e u' o ht hs
    rw [shapes_append]
    exact h.tracks_step ht hs

theorem Wraps.run_stopped (h : Wraps a b view late) {t : a.State} {w : Bool} {tr : Trace I D E'}
    {t' : a.State × Bool} (hv : view t = none) (hr : a.machine.Reaches (t, w) tr t') :
    ∀ y ∈ a.shapes tr, y = .finished := by
  suffices view t'.1 = none ∧ ∀ y ∈ a.shapes tr, y = .finished from this.2
  refine hr.invariant (P := fun tr t' => view t'.1 = none ∧ ∀ y ∈ a.shapes tr, y = .finished)
    ⟨hv, by simp⟩ ?_
  rintro tr u e u' o ⟨hv, hend⟩ hs
  cases used_of_step hs with
  | pending hn => cases (h.stopped hv hn).2
  | ready hn =>
    obtain ⟨hv', hn'⟩ := h.stopped hv hn
    obtain rfl := FramePoll.ready.inj hn'
    refine ⟨hv', fun y hy => ?_⟩
    rw [shapes_append, shapes_some, List.mem_append, List.mem_singleton] at hy
    exact hy.elim (hend y) id
  | drop t =>
    refine ⟨?_, by simpa using hend⟩
    rw [(h.drop t).1, hv]
    rfl
  | recycle t data =>
    refine ⟨?_, by simpa using hend⟩
    rw [(h.recycle t data).1, hv]
    rfl

theorem inOrder_stopped {late : Bool} {xs zs : List FrameShape} {x y : FrameShape}
    (hxs : InOrder xs) (hframes : ∀ x ∈ xs, x.isFrame = true) (hstop : Stops late x y)
    (hlast : y = .trailers → .trailers ∉ xs) (hend : ∀ z ∈ zs, z = .finished) :
    InOrder (xs ++ y :: zs) := by
  have hfin : InOrder zs := by
    refine List.pairwise_iff_getElem.mpr fun i j hi hj hij => ?_
    rw [hend _ (List.getElem_mem hi), hend _ (List.getElem_mem hj)]
    rfl
  refine List.pairwise_append.mpr ⟨hxs, List.pairwise_cons.mpr ⟨?_, hfin⟩, ?_⟩
  · intro z hz
    rw [hend z hz]
    rcases hstop with rfl | ⟨-, rfl | ⟨-, rfl⟩⟩ <;> rfl
  · intro x' hx' z hz
    rcases List.mem_cons.mp hz with rfl | hz
    · rcases hstop with rfl | ⟨-, rfl | ⟨-, rfl⟩⟩
      · exact FrameShape.mayPrecede_of_not_isFrame (hframes x' hx') rfl
      · exact FrameShape.mayPrecede_of_not_isFrame (hframes x' hx') rfl
      · -- Late trailers follow data only.
        cases x' with
        | data n => trivial
        | trailers => exact absurd hx' (hlast rfl)
        | _ => cases hframes _ hx'
    · rw [hend z hz]
      exact FrameShape.mayPrecede_of_not_isFrame (hframes x' hx') rfl

theorem Tracks.inOrder {σ : b.State × Bool} {late₀ l w : Bool} {ys : List FrameShape}
    {v : Option b.State} (ht : Tracks b σ late₀ ys v l w)
    (hsource : ∀ str σ', b.machine.Reaches σ str σ' → InOrder (b.shapes str)) : InOrder ys := by
  cases ht with
  | active hr => exact hsource _ _ hr
  | stopped hr hstr hframes hstop hlast hend =>
    have h := hsource _ _ hr
    rw [hstr] at h
    exact inOrder_stopped (List.pairwise_append.mp h).1 hframes hstop hlast hend

/-- What the promises of the source say about a wrapper that is still open. -/
structure Foreseen (b : Body I D E) (s : b.State) (late : Bool) (ys : List FrameShape) : Prop where
  trailers : b.trailerHint s = some .none → late = false → .trailers ∉ ys
  size : ∀ h, b.sizeHint s = some h → .finished ∈ ys → .failed ∉ ys →
    h.lower ≤ payload ys ∧ ∀ u ∈ h.upper, payload ys ≤ u

theorem not_mem_of_finished {x : FrameShape} {zs : List FrameShape} (hx : x ≠ .finished)
    (h : ∀ z ∈ zs, z = .finished) : x ∉ zs := fun hmem => hx (h x hmem)

theorem Tracks.foreseen {s : b.State} {late₀ l w : Bool} {ys past : List FrameShape}
    {v : Option b.State} (ht : Tracks b (s, false) late₀ ys v l w) (hpast : .failed ∉ past)
    (hp : ∀ str σ', b.machine.Reaches (s, false) str σ' →
      Promised (b.sizeHint s) (b.trailerHint s) (b.isEndStream s) past (b.shapes str)) :
    Foreseen b s late₀ ys := by
  cases ht with
  | active hr hframes =>
    refine ⟨fun hnone _ => (hp _ _ hr).trailers hnone, fun h _ hfin => ?_⟩
    cases hframes _ hfin
  | @stopped str σ' xs zs x y l w hr hstr hframes hstop hlast hend =>
    have hpr := hp _ _ hr
    rw [hstr] at hpr
    constructor
    · intro hnone hlate hmem
      have hnot := hpr.trailers hnone
      rw [List.mem_append, not_or] at hnot
      rcases List.mem_append.mp hmem with hmem | hmem
      · exact hnot.1 hmem
      · rcases List.mem_cons.mp hmem with heq | hmem
        · rcases hstop with rfl | ⟨-, rfl | ⟨htrue, -⟩⟩
          · cases heq
          · cases heq
          · rw [hlate] at htrue
            cases htrue
        · exact not_mem_of_finished (by simp) hend hmem
    · intro h hsize hfin hok
      -- Only the end of the source lets the wrapper end without a failure.
      have hx : x = .finished := by
        rcases hstop with rfl | ⟨hx, -⟩
        · exact absurd (by simp) hok
        · exact hx
      subst hx
      have hy : y.bytes = 0 := by
        rcases hstop with rfl | ⟨-, rfl | ⟨-, rfl⟩⟩ <;> rfl
      have hfailed : FrameShape.failed ∉ past ++ (xs ++ [.finished]) := by
        simp only [List.mem_append, List.mem_singleton, not_or]
        exact ⟨hpast, (fun hmem => by cases hframes _ hmem), by simp⟩
      have hbounds := hpr.size h hsize (by simp) hfailed
      have hpay : payload (xs ++ y :: zs) = payload (xs ++ [.finished]) := by
        rw [payload_append, payload_append, payload_cons, payload_of_finished hend, hy]
        rfl
      rwa [hpay]

theorem promised_of_finished {size : Option SizeHint} {trailers : Option TrailerHint} {ended : Bool}
    {past next : List FrameShape} (hsize : ∀ h, size = some h → h = .withExact 0 (by decide))
    (hend : ∀ y ∈ next, y = .finished) : Promised size trailers ended past next where
  ended _ y hy := by rw [hend y hy]; rfl
  trailers _ := not_mem_of_finished (by simp) hend
  size h hh _ _ := by
    rw [hsize h hh, payload_of_finished hend]
    simp [SizeHint.withExact]

/-- A wrapper keeps the contract if its source does and if, while it is open, its hints keep to what
the source's hints foresee. -/
theorem Wraps.contract (h : Wraps a b view late) {t₀ : a.State} {s₀ : b.State}
    (hv : view t₀ = some s₀) (hc : b.Contract s₀)
    (hstopped : ∀ {tr : Trace I D E'} {t : a.State}, a.machine.Reaches (t₀, false) tr (t, false) →
      view t = none → ∀ h, a.sizeHint t = some h → h = .withExact 0 (by decide))
    (hactive : ∀ {t : a.State} {s : b.State} {next : Trace I D E'} {t' : a.State × Bool},
      a.machine.Reaches (t, false) next t' → view t = some s →
      Foreseen b s (late t) (a.shapes next) →
      Promised (a.sizeHint t) (a.trailerHint t) (a.isEndStream t) [] (a.shapes next)) :
    a.Contract t₀ := by
  intro tr t next t' hr hnext
  have hsource (str : Trace I D E) (σ' : b.State × Bool)
      (hstr : b.machine.Reaches (s₀, false) str σ') : InOrder (b.shapes str) :=
    (hc [] s₀ str σ' .start hstr).1
  constructor
  · rw [← shapes_append]
    exact (h.tracks hv (hr.trans hnext)).inOrder hsource
  · have ht := h.tracks hv hr
    generalize hvt : view (t, false).1 = v at ht
    generalize hys : a.shapes tr = ys at ht
    cases ht with
    | stopped =>
      exact promised_of_finished (hstopped hr hvt) (h.run_stopped hvt hnext)
    | @active str s l w hstr hframes hlate =>
      have hpast : FrameShape.failed ∉ b.shapes str := fun hmem => by cases hframes _ hmem
      have hfore := (h.tracks hvt hnext).foreseen hpast fun snext σ' hs => (hc str s snext σ' hstr hs).2
      have hprom := hactive hnext hvt hfore
      exact ⟨hprom.ended, hprom.trailers, fun hint hh hfin hok => hprom.size hint hh hfin fun hmem =>
        hok (List.mem_append_right _ hmem)⟩

end Wraps

end Body

end Vakya
