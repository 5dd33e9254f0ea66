import Vakya.Receiver
import Mathlib.Algebra.GroupWithZero.Nat

/-!
# What a head promises about its body

`next_frame` checks every frame against the promise that `incoming` made. The
frames of a body that was decoded from the wire keep it, so a body that was
closed returned all of them and no error.
-/

namespace Vakya

open Library

variable {W : Type}

def payloadLens (frames : List (Frame IncomingData)) : ℕ := (frames.map Frame.payloadLen).sum

theorem delivered_eq (rs : List BodyResult) : delivered rs = payloadLens (framesOf rs) := by
  induction rs with
  | nil => rfl
  | cons r rs ih =>
    match r with
    | .ok (some frame) =>
      have hcons : framesOf (.ok (some frame) :: rs) = frame :: framesOf rs := rfl
      rw [hcons, delivered, ih]
      simp [payloadLens]
    | .ok none | .error e => exact ih

namespace Incoming

def observeAll (b : Incoming) (frames : List (Frame IncomingData)) : Except Error Incoming :=
  frames.foldlM observe b

theorem observeAll_append (b : Incoming) (fs gs : List (Frame IncomingData)) :
    b.observeAll (fs ++ gs) = (b.observeAll fs).bind (observeAll · gs) := by
  unfold observeAll
  rw [List.foldlM_append]
  rfl

theorem observeAll_singleton (b : Incoming) (frame : Frame IncomingData) :
    b.observeAll [frame] = b.observe frame := by
  unfold observeAll
  rw [List.foldlM_cons]
  cases b.observe frame <;> rfl

theorem observeAll_data {b : Incoming} (hseen : b.trailersSeen = false) (ds : List IncomingData)
    (hupper : ∀ u ∈ b.size.upper, payloadLens (ds.map .data) ≤ u) :
    ∃ b', b.observeAll (ds.map .data) = .ok b' ∧ b'.trailersSeen = false ∧ b'.trailers = b.trailers ∧
      b'.size.lower = b.size.lower - payloadLens (ds.map .data) := by
  induction ds generalizing b with
  | nil => exact ⟨b, rfl, hseen, rfl, by simp [payloadLens]⟩
  | cons d ds ih =>
    have hsum : payloadLens ((d :: ds).map .data) = d.len + payloadLens (ds.map .data) := by
      simp [payloadLens, Frame.payloadLen]
    rw [hsum] at hupper ⊢
    have hfits : ¬(b.trailersSeen ∨ b.size.upper.any (d.len > ·)) := by
      simp only [hseen, Bool.false_eq_true, false_or, Option.any_eq_true, not_exists, decide_eq_true_eq]
      rintro u ⟨hu, hlt⟩
      have := hupper u hu
      omega
    have hordered : ∀ u ∈ b.size.upper.map (· - d.len), b.size.lower - d.len ≤ u := by
      intro u hu
      obtain ⟨v, hv, rfl⟩ := Option.map_eq_some_iff.mp hu
      have := b.size.ordered v hv
      omega
    obtain ⟨size, hsize, hlower, hup⟩ : ∃ size, shrink b.size d.len = .ok size ∧
        size.lower = b.size.lower - d.len ∧ size.upper = b.size.upper.map (· - d.len) :=
      ⟨_, by rw [shrink, SizeHint.withBounds, dif_pos hordered], rfl, rfl⟩
    have hobs : b.observe (.data d) = .ok { b with size } := by
      simp only [observe, if_neg hfits, hsize]
      rfl
    obtain ⟨b', hb', hseen', htr, hlow⟩ := ih (b := { b with size }) hseen (fun u hu => by
      simp only [hup] at hu
      obtain ⟨v, hv, rfl⟩ := Option.map_eq_some_iff.mp hu
      have := hupper v hv
      omega)
    refine ⟨b', ?_, hseen', htr, ?_⟩
    · rw [List.map_cons, observeAll, List.foldlM_cons, hobs]
      exact hb'
    · rw [hlow]
      simp only [hlower]
      omega

theorem observe_trailers {b : Incoming} (hseen : b.trailersSeen = false) (hhint : b.trailers ≠ .none)
    (hlower : b.size.lower = 0) (headers : Headers) : ∃ b', b.observe (.trailers headers) = .ok b' := by
  have hok : ¬(b.trailers = .none ∨ b.trailersSeen ∨ b.size.lower ≠ 0) := by simp [hhint, hseen, hlower]
  exact ⟨_, by rw [observe, if_neg hok]⟩

end Incoming

namespace BodyPipe

variable {s s' : BodyPipe W} {size : SizeHint} {trailers : TrailerHint}
  {tr : List (BodyCall W × BodyOutput W)} {i : BodyCall W} {o : BodyOutput W}

/-- A run in which the producer kept the promise: the frames that were taken pass the checks of
`next_frame`, and the channel was ended, if at all, by a close that left nothing out. -/
structure Honest (size : SizeHint) (trailers : TrailerHint) (tr : List (BodyCall W × BodyOutput W)) : Prop where
  kept : ∃ b, (Incoming.channel size trailers).observeAll (takenBy (pipeTrace tr)) = .ok b
  closed : ∀ t ∈ endings (pipeTrace tr), t = .closed
  enough : .closed ∈ endings (pipeTrace tr) → size.lower ≤ payloadLens (takenBy (pipeTrace tr))

theorem Honest.before (hinv : Inv size tr s) (hs : s.step i = some (s', o))
    (h : Honest size trailers (tr ++ [(i, o)])) : Honest size trailers tr := by
  obtain ⟨⟨b, hb⟩, hclosed, henough⟩ := h
  rw [pipeTrace_append] at hb hclosed henough
  simp only [takenBy, endings, List.flatMap_append, List.filterMap_append] at hb hclosed henough
  rw [Incoming.observeAll_append] at hb
  obtain ⟨b', hb', -⟩ := bind_eq_ok hb
  refine ⟨⟨b', hb'⟩, fun t ht => hclosed t (List.mem_append_left _ ht), fun hmem => ?_⟩
  -- The producer is gone, so the step took nothing.
  have hgone : s.channel.producer = none := by
    by_contra hn
    rw [(hinv.life.live hn).1] at hmem
    cases hmem
  have hnone := taken_of_gone (step_reaches hs) hinv.sound hgone
  have hsum := henough (List.mem_append_left _ hmem)
  simp only [takenBy] at hnone
  rw [hnone, List.append_nil] at hsum
  exact hsum

/-- The results of an honest run are its frames, and no errors. -/
structure Returned (size : SizeHint) (trailers : TrailerHint) (tr : List (BodyCall W × BodyOutput W))
    (s : BodyPipe W) : Prop where
  frames : framesOf (results tr) = takenBy (pipeTrace tr)
  no_error : ∀ e, .error e ∉ results tr
  reading : ∀ b, s.incoming = some b → b.consumer = true →
    (Incoming.channel size trailers).observeAll (takenBy (pipeTrace tr)) = .ok b

/-- A live body does not refuse what an honest producer passes to it. -/
theorem Honest.settle (hinv : Inv size tr s) (h : Honest size trailers tr)
    (hret : Returned size trailers tr s) {b : Incoming} (hin : s.incoming = some b) (hb : b.consumer = true)
    {r : Except (TakeError Error) (Option (Frame IncomingData))} (hr : Resolves s.channel.state r)
    (hnext : ∀ frame, r = .ok (some frame) → ∃ b', b.observe frame = .ok b') :
    (∃ frame, r = .ok (some frame) ∧ b.observe frame = .ok (b.settle r).1 ∧
      (b.settle r).2 = .ok (some frame)) ∨
    (r = .ok none ∧ (b.settle r).1.consumer = false ∧ (b.settle r).2 = .ok none) := by
  rcases hr with ⟨hterm, rfl⟩ | ⟨frame, rfl⟩
  · obtain ⟨-, hlower, hcons, -⟩ := hinv.reading b hin hb
    have hends := hinv.endings_eq hcons hterm
    have hclosed : s.channel.state = .closed := h.closed _ (by simp [hends])
    have henough := h.enough (by rw [hends, hclosed]; simp)
    rw [delivered_eq, hret.frames] at hlower
    have hzero : b.size.lower = 0 := by omega
    rw [hclosed]
    exact .inr ⟨rfl, by simp [PipeState.report, Incoming.settle, hzero, Incoming.finish],
      by simp [PipeState.report, Incoming.settle, hzero]⟩
  · obtain ⟨b', hb'⟩ := hnext frame rfl
    exact .inl ⟨frame, rfl, by simp [Incoming.settle, hb'], by simp [Incoming.settle, hb']⟩

theorem Returned.step (hinv : Inv size tr s) (hret : Returned size trailers tr s)
    (hs : s.step i = some (s', o)) (h : Honest size trailers (tr ++ [(i, o)])) :
    Returned size trailers (tr ++ [(i, o)]) s' := by
  have hbefore := h.before hinv hs
  obtain ⟨bl, hall⟩ := h.kept
  have happ : takenBy (pipeTrace (tr ++ [(i, o)])) = takenBy (pipeTrace tr) ++ takenBy o.calls := by
    simp [takenBy]
  rw [happ, Incoming.observeAll_append] at hall
  rcases hinv.step_taken hs with ⟨hres, htaken, hin⟩ | ⟨hres, htaken, hin, b, hb, hc⟩ |
    ⟨b, r, hin, hb, hr, hres, hin', htaken⟩
  · refine ⟨?_, ?_, fun b hb hc => ?_⟩
    · rw [happ, htaken, results_append, hres]
      simpa using hret.frames
    · rw [results_append, hres]
      simpa using hret.no_error
    · rw [happ, htaken, List.append_nil]
      rcases hin with hin | hin
      · exact hret.reading b (hin ▸ hb) hc
      · simp [hin] at hb
  · refine ⟨?_, ?_, fun b' hb' hc' => ?_⟩
    · rw [happ, htaken, results_append, framesOf_append, hres, hret.frames]
      rfl
    · rw [results_append, hres]
      simpa using hret.no_error
    · rw [hin, hb, Option.some.injEq] at hb'
      simp [← hb', hc] at hc'
  · have hfold := hret.reading b hin hb
    rw [hfold] at hall
    have hnext (frame : Frame IncomingData) (hf : r = .ok (some frame)) : ∃ b', b.observe frame = .ok b' := by
      rw [htaken, hf] at hall
      exact ⟨bl, by simpa [PipeEvent.taken, Except.bind, Incoming.observeAll_singleton] using hall⟩
    rcases hbefore.settle hinv hret hin hb hr hnext with ⟨frame, rfl, hobs, hok⟩ | ⟨rfl, hdone, hok⟩
    · have hone : takenBy o.calls = [frame] := htaken
      refine ⟨?_, ?_, fun b' hb' _ => ?_⟩
      · rw [happ, hone, results_append, framesOf_append, hres, hok, hret.frames]
        rfl
      · rw [results_append, hres, hok]
        simpa using hret.no_error
      · rw [hin', Option.some.injEq] at hb'
        rw [happ, hone, Incoming.observeAll_append, hfold, ← hb']
        exact (Incoming.observeAll_singleton b frame).trans hobs
    · have hone : takenBy o.calls = [] := htaken
      refine ⟨?_, ?_, fun b' hb' hc' => ?_⟩
      · rw [happ, hone, results_append, framesOf_append, hres, hok, hret.frames]
        rfl
      · rw [results_append, hres, hok]
        simpa using hret.no_error
      · rw [hin', Option.some.injEq] at hb'
        simp [← hb', hdone] at hc'

theorem returned_of_honest (hrun : (bodyPipe W).Reaches (new size trailers) tr s)
    (h : Honest size trailers tr) : Returned size trailers tr s := by
  have hboth : Inv size tr s ∧ (Honest size trailers tr → Returned size trailers tr s) := by
    refine hrun.invariant (P := fun tr s => Inv size tr s ∧
      (Honest size trailers tr → Returned size trailers tr s)) ⟨inv_of_reaches .start, fun _ => ?_⟩ ?_
    · refine ⟨rfl, by simp [results], fun b hb _ => ?_⟩
      cases hb
      rfl
    · rintro tr s i s' o ⟨hinv, ih⟩ hs
      exact ⟨hinv.step hs, fun hh => (ih (hh.before hinv hs)).step hinv hs hh⟩
  exact hboth.2 h

theorem Inv.ordered {tr : List (BodyCall W × BodyOutput W)} (h : Inv size tr s) :
    ∃ ended, Ordered size tr ended := by
  cases hin : s.incoming with
  | none => exact (h.dropped hin).2
  | some b =>
    cases hb : b.consumer with
    | true => exact ⟨false, (h.reading b hin hb).1⟩
    | false => exact ⟨true, (h.finished b hin hb).1⟩

end BodyPipe

theorem payloadLens_data {ds : List IncomingData} (h : Whole ds) :
    payloadLens (ds.map .data) = (payloadOf ds).length := by
  induction ds with
  | nil => rfl
  | cons d ds ih =>
    have hd : d.len = d.content.length := h d (by simp)
    have hds := ih fun d' hd' => h d' (by simp [hd'])
    simp only [payloadLens, payloadOf, List.map_cons, List.sum_cons, List.flatMap_cons, List.length_append,
      Frame.payloadLen, hd] at hds ⊢
    omega

theorem run_fixed_cases (x : Crates) (limits : DecodeLimits) (n : ℕ) (wire : Bytes) :
    n ≤ wire.length ∧
      (framing x limits).run (.fixed n) wire = ⟨wire.take n, .done (none, 0) (wire.drop n)⟩ ∨
    wire.length < n ∧
      (framing x limits).run (.fixed n) wire = ⟨wire, .more (.fixed (n - wire.length))⟩ := by
  by_cases hlen : n ≤ wire.length
  · refine .inl ⟨hlen, ?_⟩
    have htake : (wire.take n).length = n := by simp [hlen]
    have := run_fixed x limits (wire.take n) (wire.drop n) n (by omega)
    rw [List.take_append_drop, htake, Nat.sub_self, run_fixed_zero] at this
    simpa [Transcript.emit] using this
  · refine .inr ⟨by omega, ?_⟩
    obtain ⟨k, hk⟩ : ∃ k, n - wire.length = k + 1 := ⟨n - wire.length - 1, by omega⟩
    have := run_fixed x limits wire [] n (by omega)
    rw [List.append_nil, hk, run_nil (halt_fixed_succ k)] at this
    rw [hk]
    simpa [Transcript.emit] using this

theorem summary_fixed {x : Crates} {limits : DecodeLimits} {n : ℕ} {wire : Bytes} {eof : Bool}
    (h : (summary eof ((framing x limits).run (.fixed n) wire)).verdict = .complete) :
    (summary eof ((framing x limits).run (.fixed n) wire)).payload.length = n ∧
      (summary eof ((framing x limits).run (.fixed n) wire)).trailers = none := by
  rcases run_fixed_cases x limits n wire with ⟨hlen, hrun⟩ | ⟨-, hrun⟩
  · simp [hrun, summary, hlen]
  · -- Too short a wire leaves the body open.
    cases eof <;> simp [hrun, summary, Place.completeAtEof] at h

theorem incoming_cases {mode : BodyMode} {hmode : ∀ n, mode = .fixed n → n < wordSize} {size : SizeHint}
    {trailers : TrailerHint} (h : incoming mode hmode = some (size, trailers)) :
    (∃ n hn, mode = .fixed n ∧ size = .withExact n hn ∧ trailers = .none) ∨
      (size = .new ∧ (mode = .chunked ∧ trailers = .mayHave ∨ mode = .untilEof)) := by
  match mode, hmode, h with
  | .fixed (n + 1), hmode, h =>
    cases h
    exact .inl ⟨n + 1, hmode _ rfl, rfl, rfl, rfl⟩
  | .chunked, _, h =>
    cases h
    exact .inr ⟨rfl, .inl ⟨rfl, rfl⟩⟩
  | .untilEof, _, h =>
    cases h
    exact .inr ⟨rfl, .inr rfl⟩

theorem observeAll_frames {mode : BodyMode} {hmode : ∀ n, mode = .fixed n → n < wordSize} {size : SizeHint}
    {trailers : TrailerHint} (hin : incoming mode hmode = some (size, trailers)) (heof : mode ≠ .untilEof)
    {ds : List IncomingData} (hwhole : Whole ds) {t : Option Headers}
    (hfixed : ∀ n, mode = .fixed n → (payloadOf ds).length ≤ n ∧ t = none) :
    ∃ b, (Incoming.channel size trailers).observeAll (ds.map .data ++ t.toList.map .trailers) = .ok b := by
  have hlens := payloadLens_data hwhole
  rcases incoming_cases hin with ⟨n, hn, hmode', hsize, -⟩ | ⟨hsize, ⟨-, htr⟩ | hopen⟩
  · obtain ⟨hle, rfl⟩ := hfixed n hmode'
    obtain ⟨b', hb', -⟩ := Incoming.observeAll_data (b := .channel size trailers) rfl ds (by
      intro u hu
      simp only [Incoming.channel, hsize, SizeHint.withExact, Option.mem_def, Option.some.injEq] at hu
      omega)
    exact ⟨b', by simpa using hb'⟩
  · -- Nothing is owed, and trailers may come.
    obtain ⟨b', hb', hseen, hhint, hlower⟩ :=
      Incoming.observeAll_data (b := .channel size trailers) rfl ds (by simp [Incoming.channel, hsize, SizeHint.new])
    have hzero : b'.size.lower = 0 := by
      rw [hlower]
      simp [Incoming.channel, hsize, SizeHint.new]
    rw [Incoming.observeAll_append, hb']
    cases t with
    | none => exact ⟨b', rfl⟩
    | some headers =>
      obtain ⟨b'', hb''⟩ := Incoming.observe_trailers hseen (by rw [hhint, Incoming.channel, htr]; simp) hzero headers
      exact ⟨b'', (Incoming.observeAll_singleton b' _).trans hb''⟩
  · exact absurd hopen heof

namespace Receiver

open BodyPipe

variable {R : Reception} {wire : Bytes} {btr : List (BodyCall W × BodyOutput W)} {s : Receiver W}

/-- A driver that closed the channel kept the promise that was made with its body. -/
theorem Closed.honest (h : Closed R wire btr s) (hended : Ended R wire btr s.pipe .closed)
    {hmode : ∀ n, R.mode = .fixed n → n < wordSize} (hin : incoming R.mode hmode = some (R.size, R.trailers))
    (heof : R.mode ≠ .untilEof) : Honest R.size R.trailers btr := by
  obtain ⟨b, ds, t, -, -, -, htaken, hwhole, hverdict, hpayload, htrailers⟩ := h
  have hfixed (n : ℕ) (hn : R.mode = .fixed n) : (payloadOf ds).length = n ∧ t = none := by
    rw [hn] at hverdict hpayload htrailers
    obtain ⟨hlen, hnone⟩ := summary_fixed hverdict.symm
    exact ⟨by rw [← hlen]; exact congrArg List.length hpayload, (htrailers rfl).1.trans hnone⟩
  refine ⟨?_, by simp [hended.mark], fun _ => ?_⟩
  · rw [htaken]
    exact observeAll_frames hin heof hwhole fun n hn => ⟨(hfixed n hn).1.le, (hfixed n hn).2⟩
  · rcases incoming_cases hin with ⟨n, hn, hmode', hsize, -⟩ | ⟨hsize, -⟩
    · have hlens := payloadLens_data hwhole
      obtain ⟨hlen, rfl⟩ := hfixed n hmode'
      simp [htaken, hsize, SizeHint.withExact, hlens, hlen]
    · simp [hsize, SizeHint.new]

theorem Core.honest (h : Core R (R.Tracks wire) btr s) (hlive : s.pipe.channel.producer ≠ none)
    {hmode : ∀ n, R.mode = .fixed n → n < wordSize} (hin : incoming R.mode hmode = some (R.size, R.trailers))
    (heof : R.mode ≠ .untilEof) : Honest R.size R.trailers btr := by
  have hends := ((BodyPipe.inv_of_reaches h.reach).life.live hlive).1
  refine ⟨?_, by simp [hends], by simp [hends]⟩
  obtain ⟨rest, hrest⟩ := h.ordered
  obtain ⟨ds₀, t₀, bytes, ⟨hpassed, hwhole₀⟩, -, -⟩ := h.drive
  obtain ⟨ds, t, hframes, hpay, htr⟩ := h.assigned
  have hwhole : Whole ds := by
    intro d hd
    have hmem : .data d ∈ passedBy (pipeTrace btr) := by simp [hframes, hd]
    rw [hpassed] at hmem
    exact hwhole₀ d (by simpa using hmem)
  have hnone (n : ℕ) (hn : R.mode = .fixed n) : (payloadOf ds).length ≤ n ∧ t = none := by
    rw [hn, BodyMode.start] at hpay htr
    have hle := hpay.length_le
    refine ⟨?_, ?_⟩
    · rcases run_fixed_cases R.crates R.limits n wire with ⟨hlen, hrun⟩ | ⟨hlen, hrun⟩
      · rw [hrun, List.length_take] at hle
        omega
      · rw [hrun] at hle
        exact hle.trans hlen.le
    · by_contra hsome
      obtain ⟨headers, rfl⟩ := Option.ne_none_iff_exists'.mp hsome
      obtain ⟨charged, left, hdone⟩ := htr headers rfl
      rcases run_fixed_cases R.crates R.limits n wire with ⟨-, hrun⟩ | ⟨-, hrun⟩ <;> simp [hrun] at hdone
  obtain ⟨b, hb⟩ := observeAll_frames hin heof hwhole hnone
  rw [← hframes, ← hrest, Incoming.observeAll_append] at hb
  obtain ⟨b', hb', -⟩ := bind_eq_ok hb
  exact ⟨b', hb'⟩

theorem Closed.returned (h : Closed R wire btr s) (hended : Ended R wire btr s.pipe .closed)
    {hmode : ∀ n, R.mode = .fixed n → n < wordSize} (hin : incoming R.mode hmode = some (R.size, R.trailers))
    (heof : R.mode ≠ .untilEof) :
    ∃ b ds t, s.owner = .idle b ∧ b.Sound ∧ b.maxRetained = R.maxRetained ∧
      framesOf (results btr) = ds.map .data ++ t.toList.map .trailers ∧ (∀ e, .error e ∉ results btr) ∧
      DriveEnd.Agrees ⟨.complete, payloadOf ds, t, b.bytes⟩
        (summary s.eof ((framing R.crates R.limits).run R.mode.start wire)) := by
  have hret := returned_of_honest hended.reach (h.honest hended hin heof)
  obtain ⟨b, ds, t, hb, hsound, hmax, htaken, -, hagrees⟩ := h
  exact ⟨b, ds, t, hb, hsound, hmax, hret.frames.trans htaken, hret.no_error, hagrees⟩

theorem Core.frames (h : Core R (R.Tracks wire) btr s) (hlive : s.pipe.channel.producer ≠ none)
    {hmode : ∀ n, R.mode = .fixed n → n < wordSize} (hin : incoming R.mode hmode = some (R.size, R.trailers))
    (heof : R.mode ≠ .untilEof) : ∀ r ∈ results btr, isFrame r = true := by
  have hinv := BodyPipe.inv_of_reaches h.reach
  have hends := (hinv.life.live hlive).1
  have herr := (returned_of_honest h.reach (h.honest hlive hin heof)).no_error
  obtain ⟨ended, frames, tail, hres, hframes, ⟨-, rfl⟩ | ⟨-, r, k, rfl, ⟨e, rfl⟩ | ⟨-, hclosed, -⟩⟩⟩ := hinv.ordered
  · rw [hres, List.append_nil]
    exact hframes
  · exact absurd (by simp [hres]) (herr e)
  · simp [hends] at hclosed

end Receiver

end Vakya
