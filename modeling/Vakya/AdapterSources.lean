import Vakya.AdapterContract

/-!
# Adapters over any source

The contract of an adapter rests on that of its source. What the adapters
enforce by themselves does not: the limit, the exact length, what becomes of a
refused frame, and where attached trailers go.
-/

namespace Vakya

open Library

section Slots

variable {I D E : Type} {b : Body I D E} {s : b.State}

theorem limited_forwards_le {m : ℕ} {hm : m < wordSize} {tr : Body.Trace I D (LimitError E)}
    {u : Limited b.State × Bool} (hr : (limited b).machine.Reaches (Limited.new b s m hm, false) tr u) :
    payload ((limited b).shapes tr) ≤ m := by
  have := Limited.payload_add_remaining hr
  simp only [Limited.new] at this
  omega

theorem exactLength_forwards {n : ℕ} {hint : TrailerHint} {hn : n < wordSize}
    {tr : Body.Trace I D (ExactLengthError E)} {u : ExactLength b.State × Bool}
    (hr : (exactLength b).machine.Reaches (ExactLength.new b s n hint hn, false) tr u)
    (hfin : .finished ∈ (exactLength b).shapes tr) (hok : .failed ∉ (exactLength b).shapes tr) :
    payload ((exactLength b).shapes tr) = n :=
  (ExactLength.counted hr).exact rfl hfin hok

theorem whileActive_eq_none {D' E' T : Type} {done : Bool} {body : Slot b.State} {i : I} {t : T}
    {hold : b.State → T} {receive : b.State → FrameResult D E → T × FrameResult D' E'}
    (hheld : done = false → ∃ s, body = .held s)
    (h : b.whileActive done body i t hold receive = none) :
    ∃ s, body = .held s ∧ b.nextFrame s i = none := by
  cases done with
  | true => cases h
  | false =>
    obtain ⟨s, rfl⟩ := hheld rfl
    exact ⟨s, rfl, Body.through_eq_none h⟩

theorem limited_expects {m : ℕ} {hm : m < wordSize} {tr : Body.Trace I D (LimitError E)}
    {t : Limited b.State} {w : Bool}
    (hr : (limited b).machine.Reaches (Limited.new b s m hm, false) tr (t, w)) :
    (∀ i, (limited b).nextFrame t i = none → ∃ s', t.body = .held s' ∧ b.nextFrame s' i = none) ∧
    ((limited b).sizeHint t = none → ∃ s', t.body = .held s' ∧ b.sizeHint s' = none) ∧
    ((limited b).trailerHint t = none → ∃ s', t.body = .held s' ∧ b.trailerHint s' = none) := by
  have hheld : t.done = false → ∃ s', t.body = .held s' :=
    (Limited.slotted.sourced rfl rfl hr).held_of_active
  refine ⟨fun i h => whileActive_eq_none hheld h, fun h => ?_, fun h => ?_⟩
  · cases hd : t.done with
    | true => simp [limited, Limited.sizeHint, hd] at h
    | false =>
      obtain ⟨s', hb⟩ := hheld hd
      refine ⟨s', hb, ?_⟩
      cases hs : b.sizeHint s' with
      | none => rfl
      | some hint =>
        have hv : t.view = some s' := by simp [Limited.view, Slot.active, hd, hb, Slot.held?]
        obtain ⟨h', hh', -⟩ := Limited.sizeHint_of_view hv hs
        rw [hh'] at h
        cases h
  · cases hd : t.done with
    | true => simp [limited, hd] at h
    | false =>
      obtain ⟨s', hb⟩ := hheld hd
      exact ⟨s', hb, by simpa [limited, hd, hb, Slot.held?] using h⟩

theorem exactLength_expects {n : ℕ} {hint : TrailerHint} {hn : n < wordSize}
    {tr : Body.Trace I D (ExactLengthError E)} {t : ExactLength b.State} {w : Bool}
    (hr : (exactLength b).machine.Reaches (ExactLength.new b s n hint hn, false) tr (t, w)) (i : I)
    (h : (exactLength b).nextFrame t i = none) : ∃ s', t.body = .held s' ∧ b.nextFrame s' i = none :=
  whileActive_eq_none (ExactLength.slotted.sourced rfl rfl hr).held_of_active h

end Slots

/-- What a body with trailers has made of the frames of its source, and the fields that still wait:
they went into the first trailers of the source, after its own. -/
inductive Attached {D E : Type} (fields : Headers) :
    List (FrameResult D E) → List (FrameResult D E) → Option Headers → Prop
  | waiting {rs : List (FrameResult D E)} (h : ∀ r ∈ rs, ∃ d, r = .ok (some (.data d))) :
      Attached fields rs rs (some fields)
  | merged {before later : List (FrameResult D E)} {own both : Headers}
      (hb : ∀ r ∈ before, ∃ d, r = .ok (some (.data d)))
      (hl : ∀ r ∈ later, ∃ frame, r = .ok (some frame))
      (hm : ∀ n, both.getAll n = own.getAll n ++ fields.getAll n) :
      Attached fields (before ++ .ok (some (.trailers own)) :: later)
        (before ++ .ok (some (.trailers both)) :: later) none

/-- What a body with trailers has returned after the end of its source: waiting fields are emitted
in the place of a clean end and are lost with an error. -/
inductive Closed {I D E : Type} (b : Body I D E) (s : b.State) (fields : Headers) :
    List (FrameResult D E) → Prop
  | ended {str : Body.Trace I D E} {σ : b.State × Bool} {rs ys : List (FrameResult D E)}
      {waiting : Option Headers} (hr : b.machine.Reaches (s, false) str σ)
      (hstr : Body.results str = rs ++ [.ok none]) (ha : Attached fields rs ys waiting) (k : ℕ) :
      Closed b s fields (ys ++ .ok (waiting.map Frame.trailers) :: List.replicate k (.ok none))
  | failed {str : Body.Trace I D E} {σ : b.State × Bool} {rs ys : List (FrameResult D E)}
      {waiting : Option Headers} {e : E} (hr : b.machine.Reaches (s, false) str σ)
      (hstr : Body.results str = rs ++ [.error e]) (ha : Attached fields rs ys waiting) (k : ℕ) :
      Closed b s fields (ys ++ .error e :: List.replicate k (.ok none))

theorem Closed.again {I D E : Type} {b : Body I D E} {s : b.State} {fields : Headers}
    {ys : List (FrameResult D E)} (h : Closed b s fields ys) : Closed b s fields (ys ++ [.ok none]) := by
  cases h with
  | ended hr hstr ha k =>
    rw [List.append_assoc, List.cons_append, ← List.replicate_succ']
    exact .ended hr hstr ha (k + 1)
  | failed hr hstr ha k =>
    rw [List.append_assoc, List.cons_append, ← List.replicate_succ']
    exact .failed hr hstr ha (k + 1)

theorem Attached.passed {D E : Type} {fields : Headers} {rs ys : List (FrameResult D E)}
    {waiting : Option Headers} {frame : Frame D} (h : Attached fields rs ys waiting)
    (hplain : frame.isTrailers = true → waiting = none) :
    Attached fields (rs ++ [.ok (some frame)]) (ys ++ [.ok (some frame)]) waiting := by
  cases h with
  | waiting hdata =>
    cases frame with
    | trailers f => cases hplain rfl
    | data d =>
      refine .waiting fun r hr => ?_
      rcases List.mem_append.mp hr with hr | hr
      · exact hdata r hr
      · exact ⟨d, List.mem_singleton.mp hr⟩
  | merged hb hl hm =>
    rw [List.append_assoc, List.append_assoc, List.cons_append, List.cons_append]
    refine .merged hb (fun r hr => ?_) hm
    rcases List.mem_append.mp hr with hr | hr
    · exact hl r hr
    · exact ⟨frame, List.mem_singleton.mp hr⟩

theorem withTrailers_attaches {I D E : Type} {b : Body I D E} {s : b.State} {fields : Headers}
    {tr : Body.Trace I D E} {u : WithTrailers b.State × Bool}
    (hr : (withTrailers b).machine.Reaches (WithTrailers.new b s fields, false) tr u) :
    (u.1.done = false ∧ ∃ str, b.machine.Reaches (s, false) str (u.1.body, u.2) ∧
      Attached fields (Body.results str) (Body.results tr) u.1.pending) ∨
    (u.1.done = true ∧ Closed b s fields (Body.results tr)) := by
  refine hr.invariant (P := fun tr u =>
    (u.1.done = false ∧ ∃ str, b.machine.Reaches (s, false) str (u.1.body, u.2) ∧
      Attached fields (Body.results str) (Body.results tr) u.1.pending) ∨
    (u.1.done = true ∧ Closed b s fields (Body.results tr))) ?_ ?_
  · exact .inl ⟨rfl, [], .start, .waiting (by simp [Body.results])⟩
  rintro tr u e u' o (⟨hd, str, hreach, ha⟩ | ⟨hd, hclosed⟩) hs
  · cases Body.used_of_step hs with
    | @pending t t' w i hn =>
      cases WithTrailers.polled_of_nextFrame hn with
      | pending _ hb =>
        exact .inl ⟨hd, _, hreach.step (Body.step_pending w hb), by simpa using ha⟩
    | @ready t t' w i r hn =>
      rw [Body.results_concat_some]
      cases WithTrailers.polled_of_nextFrame hn with
      | done hdone => cases hdone.symm.trans hd
      | passed _ hb hplain =>
        refine .inl ⟨hd, _, hreach.step (Body.step_ready w hb), ?_⟩
        rw [Body.results_concat_some]
        exact ha.passed hplain
      | @merged s' own pending both _ hp hb hm =>
        refine .inl ⟨hd, _, hreach.step (Body.step_ready w hb), ?_⟩
        rw [Body.results_concat_some]
        simp only [hp] at ha
        generalize Body.results tr = ys at ha
        generalize Body.results str = rs at ha
        cases ha with
        | waiting hdata =>
          obtain ⟨both', hm', hget⟩ := attachFields_intoIter own fields
          obtain rfl : both = both' := Option.some.inj (hm.symm.trans hm')
          exact .merged hdata (by simp) hget
      | ended _ hb =>
        exact .inr ⟨rfl, .ended (hreach.step (Body.step_ready w hb)) (by simp) ha 0⟩
      | failed _ hb =>
        exact .inr ⟨rfl, .failed (hreach.step (Body.step_ready w hb)) (by simp) ha 0⟩
    | drop t =>
      refine .inl ⟨hd, _, hreach.step (i := .drop) rfl, ?_⟩
      rw [Body.results_concat_none, Body.results_concat_none]
      exact ha
    | recycle t data =>
      refine .inl ⟨hd, _, hreach.step (i := .recycle data) rfl, ?_⟩
      rw [Body.results_concat_none, Body.results_concat_none]
      exact ha
  · cases Body.used_of_step hs with
    | @pending t t' w i hn =>
      cases WithTrailers.polled_of_nextFrame hn with
      | pending hopen => cases hopen.symm.trans hd
    | @ready t t' w i r hn =>
      rw [Body.results_concat_some]
      cases WithTrailers.polled_of_nextFrame hn with
      | done => exact .inr ⟨hd, hclosed.again⟩
      | passed hopen => cases hopen.symm.trans hd
      | merged hopen => cases hopen.symm.trans hd
      | ended hopen => cases hopen.symm.trans hd
      | failed hopen => cases hopen.symm.trans hd
    | drop t => exact .inr ⟨hd, by simpa using hclosed⟩
    | recycle t data => exact .inr ⟨hd, by simpa using hclosed⟩

/-- The adapters and their compositions keep the body contract; over any source, the limit and the
exact length are enforced, a refused data frame goes back to the source right before that is
dropped, attached fields are merged or emitted once, and the source is there when it is expected. -/
theorem adapters_keep_contract :
    (∀ {I D E : Type} {b : Body I D E} {s : b.State}, Composed I b s → b.Contract s) ∧
    (∀ {I D E : Type} {b : Body I D E} {s : b.State} {m : ℕ} {hm : m < wordSize}
      {tr : Body.Trace I D (LimitError E)} {t : Limited b.State} {w : Bool},
      (limited b).machine.Reaches (Limited.new b s m hm, false) tr (t, w) →
      payload ((limited b).shapes tr) ≤ m ∧ Body.Sourced b s (Body.dataOf tr) t.body t.done w ∧
      (∀ i, (limited b).nextFrame t i = none → ∃ s', t.body = .held s' ∧ b.nextFrame s' i = none) ∧
      ((limited b).sizeHint t = none → ∃ s', t.body = .held s' ∧ b.sizeHint s' = none) ∧
      ((limited b).trailerHint t = none → ∃ s', t.body = .held s' ∧ b.trailerHint s' = none)) ∧
    (∀ {I D E : Type} {b : Body I D E} {s : b.State} {n : ℕ} {hint : TrailerHint} {hn : n < wordSize}
      {tr : Body.Trace I D (ExactLengthError E)} {t : ExactLength b.State} {w : Bool},
      (exactLength b).machine.Reaches (ExactLength.new b s n hint hn, false) tr (t, w) →
      (.finished ∈ (exactLength b).shapes tr → .failed ∉ (exactLength b).shapes tr →
        payload ((exactLength b).shapes tr) = n) ∧
      Body.Sourced b s (Body.dataOf tr) t.body t.done w ∧
      ∀ i, (exactLength b).nextFrame t i = none → ∃ s', t.body = .held s' ∧ b.nextFrame s' i = none) ∧
    (∀ {I D E : Type} {b : Body I D E} {s : b.State} {fields : Headers} {tr : Body.Trace I D E}
      {t : WithTrailers b.State} {w : Bool},
      (withTrailers b).machine.Reaches (WithTrailers.new b s fields, false) tr (t, w) →
      (t.done = false ∧ ∃ str, b.machine.Reaches (s, false) str (t.body, w) ∧
        Attached fields (Body.results str) (Body.results tr) t.pending) ∨
      (t.done = true ∧ Closed b s fields (Body.results tr))) := by
  refine ⟨fun h => h.contract, fun hr => ?_, fun hr => ?_, fun hr => withTrailers_attaches hr⟩
  · exact ⟨limited_forwards_le hr, Limited.slotted.sourced rfl rfl hr, limited_expects hr⟩
  · exact ⟨exactLength_forwards hr, ExactLength.slotted.sourced rfl rfl hr, exactLength_expects hr⟩

/-- Five bytes with trailers, of exact length and within a limit. -/
theorem adapters_keep_contract_hello :
    (limited (exactLength (withTrailers (full (I := Unit) (fun _ : Unit => ascii "hello")
      fun _ => by decide)))).Contract
      (.new _ (.new _ (.new _ (some ()) .empty) 5 .mayHave (by decide)) 9 (by decide)) :=
  adapters_keep_contract.1
    ((((Composed.source (full_contract _)).withTrailers _).exactLength _ _ _).limited _ _)

end Vakya
