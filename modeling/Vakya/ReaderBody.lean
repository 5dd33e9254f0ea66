import Vakya.OwnedRead

/-!
# Reader-backed bodies lose nothing

What the reader has written, in the order of its completions, is what the
frames deliver, whatever is dropped or handed back in between. One invariant
says who owns the reader and the buffer, and each poll of `next_frame` is one
poll of the owned read.
-/

namespace Vakya

open Library

variable {R I E : Type}

/-! ## Traces -/

abbrev ReadTrace (R I E : Type) := List (ReadEvent I × ReadOutput R E)

namespace ReadTrace

def submissions (tr : ReadTrace R I E) : List (ReadOperation R) := tr.filterMap fun x => x.2.log.submitted

/-- The reads that the reader has completed, with their results and what they have written. -/
def completions (tr : ReadTrace R I E) : List (R × Except (ReadError E) ℕ × Bytes) :=
  tr.filterMap fun x => x.2.log.completed

def readBytes (tr : ReadTrace R I E) : Bytes := (completions tr).flatMap fun c => c.2.2

def bodyResults (tr : ReadTrace R I E) : List (FrameResult BytesMut (ReadError E)) := tr.filterMap fun x => x.2.result

def handedOut (tr : ReadTrace R I E) : Bytes := ((bodyResults tr).filterMap Body.data?).flatMap BytesMut.bytes

def lastReader (reader : R) (tr : ReadTrace R I E) : R := ((completions tr).getLast?.map Prod.fst).getD reader

def ReadsSettled (tr : ReadTrace R I E) : Prop := (submissions tr).length = (completions tr).length

def ReadOutstanding (tr : ReadTrace R I E) : Prop := (submissions tr).length = (completions tr).length + 1

theorem submissions_concat (tr : ReadTrace R I E) (e : ReadEvent I) (o : ReadOutput R E) :
    submissions (tr ++ [(e, o)]) = submissions tr ++ o.log.submitted.toList := by
  cases h : o.log.submitted <;> simp [submissions, h]

theorem completions_concat (tr : ReadTrace R I E) (e : ReadEvent I) (o : ReadOutput R E) :
    completions (tr ++ [(e, o)]) = completions tr ++ o.log.completed.toList := by
  cases h : o.log.completed <;> simp [completions, h]

theorem bodyResults_concat (tr : ReadTrace R I E) (e : ReadEvent I) (o : ReadOutput R E) :
    bodyResults (tr ++ [(e, o)]) = bodyResults tr ++ o.result.toList := by
  cases h : o.result <;> simp [bodyResults, h]

theorem readBytes_concat (tr : ReadTrace R I E) (e : ReadEvent I) (o : ReadOutput R E) :
    readBytes (tr ++ [(e, o)]) = readBytes tr ++ (o.log.completed.map fun c => c.2.2).getD [] := by
  rw [readBytes, completions_concat]
  cases o.log.completed <;> simp [readBytes]

theorem handedOut_concat (tr : ReadTrace R I E) (e : ReadEvent I) (o : ReadOutput R E) :
    handedOut (tr ++ [(e, o)]) = handedOut tr ++ ((o.result.bind Body.data?).map BytesMut.bytes).getD [] := by
  rw [handedOut, bodyResults_concat]
  cases o.result with
  | none => simp [handedOut]
  | some r => cases h : Body.data? r <;> simp [handedOut, h]

end ReadTrace

open ReadTrace

/-! ## The owned read -/

/-- The width of the read that a poll is about: that of the pending one, if there is one. -/
def OwnedRead.width (o : OwnedRead R) (requested : ℕ) : ℕ :=
  match o.state with
  | .idle _ => requested
  | .pending _ width => width

theorem validate_eq_ok {result : Except (ReadError E) ℕ} {buffer : BytesMut} {width n : ℕ}
    (h : validate result buffer width = .ok n) :
    result = .ok n ∧ buffer.bytes.length = n ∧ n ≤ width := by
  unfold validate at h
  split_ifs at h with hbad
  subst h
  simp only [Except.toOption, Option.any_some, Bool.or_eq_true, decide_eq_true_eq, bne_iff_ne, not_or, not_lt,
    not_not] at hbad
  exact ⟨rfl, hbad.2.2.symm, hbad.2.1⟩

/-- Who has the reader and the buffer after a trace. -/
inductive Owned (reader : R) (tr : ReadTrace R I E) : OwnedRead R → Prop
  | idle {last : R} {spare : Option BytesMut} (hspare : ∀ b ∈ spare, b.bytes = []) (h : ReadsSettled tr)
      (hreader : last = lastReader reader tr) : Owned reader tr ⟨.idle last, spare⟩
  | pending {op submitted : ReadOperation R} {width : ℕ} {spare : Option BytesMut}
      (hspare : ∀ b ∈ spare, b.bytes = []) (h : ReadOutstanding tr)
      (hlast : (submissions tr).getLast? = some submitted) (hbuffer : op.buffer = submitted.buffer)
      (hempty : submitted.buffer.bytes = []) (hslice : submitted.slice = width) :
      Owned reader tr ⟨.pending op width, spare⟩

/-- What was read by a step that completed: the bytes of its buffer, with a validated count. -/
def ReadResult (completed : Option (R × Except (ReadError E) ℕ × Bytes)) (width : ℕ)
    (result : Except (ReadError E) ℕ) (buffer : BytesMut) : Prop :=
  ∃ reader reported, completed = some (reader, reported, buffer.bytes) ∧ result = validate reported buffer width

namespace Owned

variable {A : AsyncRead R I E} {reader : R} {tr : ReadTrace R I E} {o o' : OwnedRead R}

theorem quiet (h : Owned reader tr o) (e : ReadEvent I) (r : Option (FrameResult BytesMut (ReadError E))) :
    Owned reader (tr ++ [(e, ⟨.quiet, r⟩)]) o := by
  have hs : submissions (tr ++ [(e, ⟨.quiet, r⟩)]) = submissions tr := by simp [submissions_concat, ReadLog.quiet]
  have hc : completions (tr ++ [(e, ⟨.quiet, r⟩)]) = completions tr := by simp [completions_concat, ReadLog.quiet]
  cases h with
  | idle hspare h hreader =>
    refine .idle hspare ?_ ?_
    · rwa [ReadsSettled, hs, hc]
    · rwa [lastReader, hc]
  | pending hspare h hlast hbuffer hempty hslice =>
    refine .pending hspare ?_ (hs ▸ hlast) hbuffer hempty hslice
    rwa [ReadOutstanding, hs, hc]

theorem recycle (h : Owned reader tr o) (b : BytesMut) : Owned reader tr (o.recycle b) := by
  unfold OwnedRead.recycle
  split_ifs
  · have hclear : ∀ b' ∈ some b.clear, b'.bytes = [] := by
      intro b' hb
      obtain rfl := Option.mem_some.mp hb
      rfl
    cases h with
    | idle hspare h hreader => exact .idle hclear h hreader
    | pending hspare h hlast hbuffer hempty hslice => exact .pending hclear h hlast hbuffer hempty hslice
  · exact h

theorem poll (sub : Option (ReadOperation R)) (submitted : ReadOperation R) {spare : Option BytesMut}
    {op : ReadOperation R} {width : ℕ} {i : I} {completed : Option (R × Except (ReadError E) ℕ × Bytes)}
    {res : Option (Except (ReadError E) ℕ × BytesMut)} (hspare : ∀ b ∈ spare, b.bytes = [])
    (hcount : (submissions tr).length + sub.toList.length = (completions tr).length + 1)
    (hlast : (submissions tr ++ sub.toList).getLast? = some submitted) (hbuffer : op.buffer = submitted.buffer)
    (hempty : submitted.buffer.bytes = []) (hslice : submitted.slice = width)
    (h : OwnedRead.pollOperation A spare op width i = (o', completed, res)) (e : ReadEvent I)
    (r : Option (FrameResult BytesMut (ReadError E))) :
    Owned reader (tr ++ [(e, ⟨⟨sub, completed⟩, r⟩)]) o' ∧ (res = none → completed = none) ∧
      ∀ v buffer, res = some (v, buffer) → ReadResult completed width v buffer ∧
        buffer = submitted.buffer.fill buffer.bytes := by
  unfold OwnedRead.pollOperation at h
  cases hp : A.poll op.reader op.slice op.canceled i with
  | mk reader' done =>
    cases done with
    | none =>
      simp only [hp, Prod.mk.injEq] at h
      obtain ⟨rfl, rfl, rfl⟩ := h
      refine ⟨.pending hspare ?_ ?_ hbuffer hempty hslice, fun _ => rfl, by simp⟩
      · simpa [ReadOutstanding, submissions_concat, completions_concat] using hcount
      · rwa [submissions_concat]
    | some c =>
      obtain ⟨result, written⟩ := c
      simp only [hp, Prod.mk.injEq] at h
      obtain ⟨rfl, rfl, rfl⟩ := h
      have hlastReader : lastReader reader (tr ++ [(e, ⟨⟨sub, some (reader', result, written)⟩, r⟩)]) = reader' := by
        simp [lastReader, completions_concat]
      have hfill : (op.buffer.fill written).bytes = written := by
        simp [BytesMut.fill, hbuffer, hempty]
      refine ⟨?_, by simp, ?_⟩
      · refine .idle hspare ?_ hlastReader.symm
        simpa [ReadsSettled, submissions_concat, completions_concat] using hcount
      · intro v buffer heq
        cases heq
        rw [hfill]
        exact ⟨⟨_, _, by rw [hfill], rfl⟩, by rw [hbuffer]⟩

theorem read {width grant : ℕ} {i : I} {log : ReadLog R E} {res : Option (Except (ReadError E) ℕ × BytesMut)}
    (h : Owned reader tr o) (hr : o.read A width grant i = (o', log, res)) (e : ReadEvent I)
    (r : Option (FrameResult BytesMut (ReadError E))) :
    Owned reader (tr ++ [(e, ⟨log, r⟩)]) o' ∧ (log.submitted.isSome = true → ReadsSettled tr) ∧
      (res = none → log.completed = none) ∧
      ∀ v buffer, res = some (v, buffer) → ReadResult log.completed (o.width width) v buffer := by
  cases h with
  | @idle last spare hspare h hreader =>
    simp only [OwnedRead.read] at hr
    set op : ReadOperation R := ⟨last, (((spare.getD (.withCapacity width)).clear).reserve width).roundUp grant,
      width, false⟩ with hop
    obtain ⟨o₁, completed, res₁, hp⟩ : ∃ o₁ completed res₁,
      OwnedRead.pollOperation A none op width i = (o₁, completed, res₁) := ⟨_, _, _, rfl⟩
    simp only [hp, Prod.mk.injEq] at hr
    obtain ⟨rfl, rfl, rfl⟩ := hr
    obtain ⟨howned, hnone, hsome⟩ := poll (some op) op (by simp)
      (by simpa [ReadsSettled] using h) (by simp) rfl rfl rfl hp e r
    exact ⟨howned, fun _ => h, hnone, fun v b hb => (hsome v b hb).1⟩
  | @pending op submitted w spare hspare h hlast hbuffer hempty hslice =>
    simp only [OwnedRead.read] at hr
    obtain ⟨o₁, completed, res₁, hp⟩ : ∃ o₁ completed res₁,
      OwnedRead.pollOperation A spare op w i = (o₁, completed, res₁) := ⟨_, _, _, rfl⟩
    simp only [hp, Prod.mk.injEq] at hr
    obtain ⟨rfl, rfl, rfl⟩ := hr
    obtain ⟨howned, hnone, hsome⟩ := poll none submitted hspare (by simpa [ReadOutstanding] using h)
      (by simpa using hlast) hbuffer hempty hslice hp e r
    exact ⟨howned, by simp, hnone, fun v b hb => (hsome v b hb).1⟩

end Owned

/-- What `into_parts` returns after a trace: a read that was retained has settled, and its buffer
holds what it has written; without one the buffer is empty. -/
inductive Recovered (reader : R) (tr : ReadTrace R I E) : ReadTrace R I E → ReaderParts R E → Prop
  | idle {i : I} {buffer : BytesMut} (h : ReadsSettled tr) (hempty : buffer.bytes = []) :
      Recovered reader tr (tr ++ [(.settle i, .silent)]) ⟨lastReader reader tr, buffer, none⟩
  | retained {i : I} {submitted : ReadOperation R} {reader' : R} {reported : Except (ReadError E) ℕ}
      {written : Bytes} (h : ReadOutstanding tr) (hlast : (submissions tr).getLast? = some submitted) :
      Recovered reader tr (tr ++ [(.settle i, ⟨⟨none, some (reader', reported, written)⟩, none⟩)])
        ⟨reader', submitted.buffer.fill written,
          some (validate reported (submitted.buffer.fill written) submitted.slice)⟩

theorem Owned.intoParts {A : AsyncRead R I E} {reader : R} {tr : ReadTrace R I E} {o : OwnedRead R} {i : I}
    {log : ReadLog R E} {rest : OwnedRead R ⊕ ReaderParts R E} (h : Owned reader tr o)
    (hr : o.intoParts A i = (log, rest)) :
    (∃ o', rest = .inl o' ∧ log.completed = none ∧ Owned reader (tr ++ [(.settle i, ⟨log, none⟩)]) o') ∨
      ∃ p, rest = .inr p ∧ Recovered reader tr (tr ++ [(.settle i, ⟨log, none⟩)]) p ∧
        p.buffer.bytes = (log.completed.map fun c => c.2.2).getD [] := by
  cases h with
  | @idle last spare hspare h hreader =>
    simp only [OwnedRead.intoParts, Prod.mk.injEq] at hr
    obtain ⟨rfl, rfl⟩ := hr
    refine .inr ⟨_, rfl, ?_, ?_⟩
    · rw [hreader]
      refine .idle h ?_
      cases spare with
      | none => rfl
      | some b => exact hspare b rfl
    · cases spare with
      | none => rfl
      | some b => exact hspare b rfl
  | @pending op submitted w spare hspare h hlast hbuffer hempty hslice =>
    simp only [OwnedRead.intoParts, OwnedRead.pollOperation] at hr
    cases hp : A.poll op.reader op.slice true i with
    | mk reader' done =>
      cases done with
      | none =>
        simp only [hp, Prod.mk.injEq] at hr
        obtain ⟨rfl, rfl⟩ := hr
        refine .inl ⟨_, rfl, rfl, .pending hspare ?_ ?_ hbuffer hempty hslice⟩
        · simpa [ReadOutstanding, submissions_concat, completions_concat] using h
        · simpa [submissions_concat] using hlast
      | some c =>
        obtain ⟨reported, written⟩ := c
        simp only [hp, Prod.mk.injEq] at hr
        obtain ⟨rfl, rfl⟩ := hr
        refine .inr ⟨_, rfl, ?_, ?_⟩
        · rw [hbuffer, ← hslice]
          exact .retained h hlast
        · simp [BytesMut.fill, hbuffer, hempty]

/-! ## Bodies over an owned read -/

/-- Every way in which a body may answer a poll: it is over, or the poll is one of its read. -/
inductive Advance (A : AsyncRead R I E) (P : ReadBacked R I E) (done : P.State → Bool) (s : P.State) (grant : ℕ)
    (i : I) : P.State → ReadLog R E → FramePoll BytesMut (ReadError E) → Prop
  | finished {s' : P.State} (hd' : done s' = true) (ho : P.owner s' = P.owner s) :
      Advance A P done s grant i s' .quiet (.ready (.ok none))
  | pending {s' : P.State} {log : ReadLog R E} {width : ℕ} (hd : done s = false)
      (hr : (P.owner s).read A width grant i = (P.owner s', log, none)) (hd' : done s' = false) :
      Advance A P done s grant i s' log .pending
  | chunk {s' : P.State} {log : ReadLog R E} {width n : ℕ} {buffer : BytesMut} (hd : done s = false)
      (hr : (P.owner s).read A width grant i = (P.owner s', log, some (.ok n, buffer))) (hd' : done s' = false) :
      Advance A P done s grant i s' log (.ready (.ok (some (.data buffer))))
  | ended {s' : P.State} {log : ReadLog R E} {width : ℕ} {o : OwnedRead R} {result : Except (ReadError E) ℕ}
      {buffer : BytesMut} {r : Except (ReadError E) Unit} (hd : done s = false)
      (hr : (P.owner s).read A width grant i = (o, log, some (result, buffer)))
      (hend : result = .ok 0 ∨ ∃ e, r = .error e) (ho : P.owner s' = o.recycle buffer) (hd' : done s' = true) :
      Advance A P done s grant i s' log (.ready (r.map fun _ => none))

/-- A body that is an owned read and a flag, in states with an invariant. -/
structure ReadBacked.Lawful (A : AsyncRead R I E) (P : ReadBacked R I E) (done : P.State → Bool)
    (Inv : P.State → Prop) : Prop where
  nextFrame : ∀ {s s' : P.State} {grant : ℕ} {i : I} {log : ReadLog R E}
    {r : FramePoll BytesMut (ReadError E)}, Inv s → P.nextFrame s grant i = some (s', log, r) →
      Inv s' ∧ Advance A P done s grant i s' log r
  recycle : ∀ (s : P.State) (data : BytesMut), Inv s → Inv (P.recycle s data)
  recycle_done : ∀ (s : P.State) (data : BytesMut), done (P.recycle s data) = done s
  recycle_owner : ∀ (s : P.State) (data : BytesMut),
    P.owner (P.recycle s data) = P.owner s ∨ P.owner (P.recycle s data) = (P.owner s).recycle data

/-- Everything that a poll of `next_chunk` can do. -/
inductive Chunked (A : AsyncRead R I E) (s : ReaderBody R) (width grant : ℕ) (i : I) :
    ReaderBody R → ReadLog R E → Option (Except (ReadError E) (Option BytesMut)) → Prop
  | finished (hd : s.done = true) : Chunked A s width grant i s .quiet (some (.ok none))
  | pending {reads : OwnedRead R} {log : ReadLog R E} (hd : s.done = false)
      (hr : s.reads.read A width grant i = (reads, log, none)) :
      Chunked A s width grant i { s with reads := reads } log none
  | chunk {reads : OwnedRead R} {log : ReadLog R E} {n : ℕ} {buffer : BytesMut} (hd : s.done = false)
      (hr : s.reads.read A width grant i = (reads, log, some (.ok n, buffer))) :
      Chunked A s width grant i { s with reads := reads } log (some (.ok (some buffer)))
  | eof {reads : OwnedRead R} {log : ReadLog R E} {buffer : BytesMut} (hd : s.done = false)
      (hr : s.reads.read A width grant i = (reads, log, some (.ok 0, buffer))) :
      Chunked A s width grant i { s with reads := reads.recycle buffer, done := true } log (some (.ok none))
  | failed {reads : OwnedRead R} {log : ReadLog R E} {e : ReadError E} {buffer : BytesMut} (hd : s.done = false)
      (hr : s.reads.read A width grant i = (reads, log, some (.error e, buffer))) :
      Chunked A s width grant i { s with reads := reads.recycle buffer, done := true } log (some (.error e))

theorem chunked_of_nextChunk {A : AsyncRead R I E} {s s' : ReaderBody R} {width grant : ℕ} {i : I}
    {log : ReadLog R E} {r : Option (Except (ReadError E) (Option BytesMut))}
    (h : s.nextChunk A width grant i = (s', log, r)) : Chunked A s width grant i s' log r := by
  unfold ReaderBody.nextChunk at h
  split at h
  · next hd =>
    cases h
    exact .finished hd
  · next hd =>
    simp only [Bool.not_eq_true] at hd
    split at h
    · next hr =>
      cases h
      exact .pending hd hr
    · next hr =>
      cases h
      exact .eof hd hr
    · next hr =>
      cases h
      exact .chunk hd hr
    · next hr =>
      cases h
      exact .failed hd hr

theorem ReaderBody.recycle_cases (s : ReaderBody R) (data : BytesMut) :
    s.recycle data = s ∨ s.recycle data = { s with reads := s.reads.recycle data } := by
  unfold ReaderBody.recycle
  split_ifs
  · exact .inr rfl
  · exact .inl rfl

theorem readerBody_lawful (A : AsyncRead R I E) :
    (readerBody A).Lawful A (fun s : ReaderBody R => s.done) fun _ => True where
  nextFrame := by
    intro s s' grant i log r _ h
    refine ⟨trivial, ?_⟩
    obtain ⟨s₁, log₁, res, hc⟩ : ∃ s₁ log₁ res, ReaderBody.nextChunk A s (ReaderBody.chunkSize s) grant i =
      (s₁, log₁, res) := ⟨_, _, _, rfl⟩
    have h : some (ReaderBody.nextFrame A s grant i) = some (s', log, r) := h
    simp only [ReaderBody.nextFrame, hc] at h
    cases chunked_of_nextChunk hc with
    | finished hd =>
      cases h
      exact .finished hd rfl
    | pending hd hr =>
      cases h
      exact .pending hd hr hd
    | chunk hd hr =>
      cases h
      exact .chunk hd hr hd
    | eof hd hr =>
      cases h
      exact .ended (r := .ok ()) hd hr (.inl rfl) rfl rfl
    | @failed _ _ e _ hd hr =>
      cases h
      exact .ended (r := .error e) hd hr (.inr ⟨e, rfl⟩) rfl rfl
  recycle _ _ _ := trivial
  recycle_done s data := by
    show (ReaderBody.recycle s data).done = s.done
    rcases ReaderBody.recycle_cases s data with h | h <;> rw [h]
  recycle_owner s data := by
    rcases ReaderBody.recycle_cases s data with h | h
    · exact .inl (congrArg ReaderBody.reads h)
    · exact .inr (congrArg ReaderBody.reads h)

def FileBody.Live {F : Type} (s : FileBody F) : Prop := s.reader.done = true → s.done = true

theorem fileBody_lawful {F : Type} (A : ReadAt F I E) :
    (fileBody A).Lawful (PositionalFile.reader A) (fun s : FileBody F => s.done) FileBody.Live where
  nextFrame := by
    intro s s' grant i log r hlive h
    have h : FileBody.nextFrame A s grant i = some (s', log, r) := h
    unfold FileBody.nextFrame at h
    split at h
    · next hd =>
      cases h
      exact ⟨hlive, .finished hd rfl⟩
    · next hd =>
      simp only [Bool.not_eq_true] at hd
      split at h
      · cases h
        exact ⟨fun _ => rfl, .finished rfl rfl⟩
      · have hdone : s.reader.done = false := by
          by_contra hr
          simp [hlive (by simpa using hr)] at hd
        obtain ⟨s₁, log₁, res, hc⟩ : ∃ s₁ log₁ res, ReaderBody.nextChunk (PositionalFile.reader A) (FileBody.reader s)
          (min (FileBody.remaining s) (16 * 1024)) grant i = (s₁, log₁, res) := ⟨_, _, _, rfl⟩
        simp only [hc] at h
        cases chunked_of_nextChunk hc with
        | finished hd' => simp [hdone] at hd'
        | pending _ hr =>
          cases h
          exact ⟨fun h => absurd h (by simp [hdone]), .pending hd hr hd⟩
        | chunk _ hr =>
          simp only at h
          split_ifs at h
          cases h
          exact ⟨fun h => absurd h (by simp [hdone]), .chunk hd hr hd⟩
        | eof _ hr =>
          cases h
          exact ⟨fun _ => rfl, .ended (r := .error _) hd hr (.inl rfl) rfl rfl⟩
        | failed _ hr =>
          cases h
          exact ⟨fun _ => rfl, .ended (r := .error _) hd hr (.inr ⟨_, rfl⟩) rfl rfl⟩
  recycle s data hlive := by
    rcases ReaderBody.recycle_cases (FileBody.reader s) data with h | h
    · exact fun hd => hlive (h ▸ hd)
    · exact fun hd => hlive (by simpa [fileBody, FileBody.recycle, h] using hd)
  recycle_done _ _ := rfl
  recycle_owner s data := by
    rcases ReaderBody.recycle_cases (FileBody.reader s) data with h | h
    · exact .inl (congrArg ReaderBody.reads h)
    · exact .inr (congrArg ReaderBody.reads h)

/-! ## Runs -/

namespace ReadTrace

/-- After an end or an error only `Ok(None)` follows. -/
def Fused (tr : ReadTrace R I E) : Prop :=
  (bodyResults tr).Pairwise fun x y => (∃ f, x = .ok (some f)) ∨ y = .ok none

/-- What the reader has written was delivered, is in the buffer that came back, or belongs to a read
whose error was reported. -/
def Kept (tr : ReadTrace R I E) (retained : Bytes) : Prop :=
  ∃ lost, readBytes tr = handedOut tr ++ lost ++ retained ∧ (lost ≠ [] → ∃ e, .error e ∈ bodyResults tr)

def Open (tr : ReadTrace R I E) : Prop :=
  readBytes tr = handedOut tr ∧ ∀ r ∈ bodyResults tr, ∃ f, r = .ok (some f)

variable {tr : ReadTrace R I E}

theorem Open.kept (h : Open tr) : Kept tr [] := ⟨[], by simp [h.1], by simp⟩

theorem Open.fused_concat (h : Open tr) (e : ReadEvent I) (o : ReadOutput R E) : Fused (tr ++ [(e, o)]) := by
  rw [Fused, bodyResults_concat, List.pairwise_append]
  refine ⟨List.pairwise_of_forall_mem_list fun x hx y _ => .inl (h.2 x hx), ?_, fun x hx y _ => .inl (h.2 x hx)⟩
  cases o.result <;> simp

theorem Fused.concat_none (h : Fused tr) (e : ReadEvent I) {o : ReadOutput R E}
    (ho : ∀ r, o.result = some r → r = .ok none) : Fused (tr ++ [(e, o)]) := by
  rw [Fused, bodyResults_concat, List.pairwise_append]
  refine ⟨h, ?_, fun x _ y hy => .inr (ho y (by simpa using hy))⟩
  cases o.result <;> simp

theorem Kept.concat {retained : Bytes} (h : Kept tr []) (e : ReadEvent I) {o : ReadOutput R E}
    (hc : (o.log.completed.map fun c => c.2.2).getD [] = retained) (ho : o.result.bind Body.data? = none) :
    Kept (tr ++ [(e, o)]) retained := by
  obtain ⟨lost, hstream, hlost⟩ := h
  refine ⟨lost, ?_, fun hne => ?_⟩
  · rw [readBytes_concat, handedOut_concat, ho, hc, hstream]
    simp
  · obtain ⟨err, herr⟩ := hlost hne
    exact ⟨err, by rw [bodyResults_concat]; exact List.mem_append_left _ herr⟩

end ReadTrace

/-- What holds after every run of a lawful body. -/
inductive Conserved (P : ReadBacked R I E) (done : P.State → Bool) (Inv : P.State → Prop) (reader : R)
    (tr : ReadTrace R I E) : ReadPhase P.State R E → Prop
  | serving {s : P.State} {w : Bool} (hinv : Inv s) (howned : Owned reader tr (P.owner s)) (hkept : Kept tr [])
      (hfused : Fused tr) (hopen : done s = false → Open tr) : Conserved P done Inv reader tr (.serving s w)
  | settling {o : OwnedRead R} (howned : Owned reader tr o) (hkept : Kept tr []) (hfused : Fused tr) :
      Conserved P done Inv reader tr (.settling o)
  | settled {before : ReadTrace R I E} {p : ReaderParts R E} (h : Recovered reader before tr p)
      (hkept : Kept tr p.buffer.bytes) (hfused : Fused tr) : Conserved P done Inv reader tr (.settled p)

section Lawful

variable {A : AsyncRead R I E} {P : ReadBacked R I E} {done : P.State → Bool} {Inv : P.State → Prop} {reader : R}
  {tr : ReadTrace R I E}

def FramePoll.result? {D E : Type} : FramePoll D E → Option (FrameResult D E)
  | .pending => none
  | .ready r => some r

theorem Advance.conserved {s s' : P.State} {grant : ℕ} {i : I} {log : ReadLog R E}
    {r : FramePoll BytesMut (ReadError E)} (h : Advance A P done s grant i s' log r) (hinv : Inv s')
    (howned : Owned reader tr (P.owner s)) (hkept : Kept tr []) (hfused : Fused tr)
    (hopen : done s = false → Open tr) (e : ReadEvent I) (w : Bool) :
    Conserved P done Inv reader (tr ++ [(e, ⟨log, r.result?⟩)]) (.serving s' w) ∧
      (log.submitted.isSome = true → ReadsSettled tr) := by
  cases h with
  | finished hd' ho =>
    refine ⟨.serving hinv (ho ▸ howned.quiet e _) (hkept.concat e rfl rfl) ?_ (by simp [hd']), by simp [ReadLog.quiet]⟩
    apply hfused.concat_none
    intro r hr
    exact (Option.some.inj hr).symm
  | pending hd hr hd' =>
    obtain ⟨howned', hsub, hnone, -⟩ := howned.read hr e none
    obtain ⟨hstream, hframes⟩ := hopen hd
    refine ⟨.serving hinv howned' (hkept.concat e ?_ rfl) ((hopen hd).fused_concat e _) fun _ => ⟨?_, ?_⟩, hsub⟩
    · simp [hnone rfl]
    · simp [readBytes_concat, handedOut_concat, hnone rfl, hstream, FramePoll.result?]
    · simpa [bodyResults_concat, FramePoll.result?] using hframes
  | @chunk log width n buffer hd hr hd' =>
    obtain ⟨howned', hsub, -, hsome⟩ := howned.read hr e (some (.ok (some (.data buffer))))
    obtain ⟨reader', reported, hcompleted, -⟩ := hsome _ _ rfl
    obtain ⟨hstream, hframes⟩ := hopen hd
    have hopen' : Open (tr ++ [(e, ⟨log, some (.ok (some (.data buffer)))⟩)]) := by
      constructor
      · simp [readBytes_concat, handedOut_concat, hcompleted, hstream, Body.data?]
      · intro r hr
        rw [bodyResults_concat] at hr
        rcases List.mem_append.mp hr with hr | hr
        · exact hframes r hr
        · exact ⟨.data buffer, by simpa using hr⟩
    exact ⟨.serving hinv howned' hopen'.kept ((hopen hd).fused_concat e _) fun _ => hopen', hsub⟩
  | @ended log width o result buffer r hd hr hend ho hd' =>
    obtain ⟨howned', hsub, -, hsome⟩ := howned.read hr e (some (r.map fun _ => none))
    obtain ⟨reader', reported, hcompleted, hvalid⟩ := hsome _ _ rfl
    obtain ⟨hstream, hframes⟩ := hopen hd
    refine ⟨.serving hinv (ho ▸ howned'.recycle buffer) ?_ ((hopen hd).fused_concat e _) (by simp [hd']), hsub⟩
    refine ⟨buffer.bytes, ?_, fun hne => ?_⟩
    · have hnodata : Body.data? (r.map fun _ => (none : Option (Frame BytesMut))) = none := by cases r <;> rfl
      simp [readBytes_concat, handedOut_concat, hcompleted, hstream, FramePoll.result?, hnodata]
    · rcases hend with hzero | ⟨err, rfl⟩
      · have hlen := (validate_eq_ok (hvalid ▸ hzero)).2.1
        exact absurd (List.eq_nil_of_length_eq_zero hlen) hne
      · exact ⟨err, by simp [bodyResults_concat, FramePoll.result?, Except.map]⟩

inductive ReadMove (A : AsyncRead R I E) (P : ReadBacked R I E) : ReadPhase P.State R E → ReadEvent I →
    ReadPhase P.State R E → ReadOutput R E → Prop
  | poll {s s' : P.State} {w w' : Bool} {grant : ℕ} {i : I} {log : ReadLog R E}
      {r : FramePoll BytesMut (ReadError E)} (h : P.nextFrame s grant i = some (s', log, r)) :
      ReadMove A P (.serving s w) (.poll grant i) (.serving s' w') ⟨log, r.result?⟩
  | drop (s : P.State) : ReadMove A P (.serving s true) .drop (.serving s false) .silent
  | recycle (s : P.State) (data : BytesMut) :
      ReadMove A P (.serving s false) (.recycle data) (.serving (P.recycle s data) false) .silent
  | intoParts (s : P.State) : ReadMove A P (.serving s false) .intoParts (.settling (P.owner s)) .silent
  | settle {o : OwnedRead R} {i : I} {log : ReadLog R E} {rest : OwnedRead R ⊕ ReaderParts R E}
      (h : o.intoParts A i = (log, rest)) :
      ReadMove A P (.settling o) (.settle i) (rest.elim .settling .settled) ⟨log, none⟩

theorem readMove_of_step {t t' : ReadPhase P.State R E} {e : ReadEvent I} {o : ReadOutput R E}
    (h : (P.machine A).step t e = some (t', o)) : ReadMove A P t e t' o := by
  cases t with
  | serving s w =>
    cases e with
    | poll grant i =>
      simp only [ReadBacked.machine] at h
      cases hn : P.nextFrame s grant i with
      | none => simp [hn] at h
      | some next =>
        obtain ⟨s', log, r⟩ := next
        cases r with
        | pending =>
          simp only [hn] at h
          cases h
          exact .poll hn
        | ready r =>
          simp only [hn] at h
          cases h
          exact .poll hn
    | drop =>
      cases w with
      | false => cases h
      | true =>
        cases h
        exact .drop s
    | recycle data =>
      cases w with
      | true => cases h
      | false =>
        cases h
        exact .recycle s data
    | intoParts =>
      cases w with
      | true => cases h
      | false =>
        cases h
        exact .intoParts s
    | settle i => cases w <;> cases h
  | settling o' =>
    cases e with
    | settle i =>
      simp only [ReadBacked.machine] at h
      obtain ⟨log, rest, hp⟩ : ∃ log rest, o'.intoParts A i = (log, rest) := ⟨_, _, rfl⟩
      cases rest with
      | inl o =>
        simp only [hp] at h
        cases h
        exact .settle hp
      | inr p =>
        simp only [hp] at h
        cases h
        exact .settle hp
    | _ => cases h
  | settled p => cases e <;> cases h

theorem Conserved.silent {s s' : P.State} {w w' : Bool} (hc : Conserved P done Inv reader tr (.serving s w))
    (hinv : Inv s') (hdone : done s' = done s)
    (ho : P.owner s' = P.owner s ∨ ∃ data, P.owner s' = (P.owner s).recycle data) (e : ReadEvent I) :
    Conserved P done Inv reader (tr ++ [(e, .silent)]) (.serving s' w') := by
  cases hc with
  | serving _ howned hkept hfused hopen =>
    have howned' : Owned reader tr (P.owner s') := by
      rcases ho with ho | ⟨data, ho⟩
      · exact ho ▸ howned
      · exact ho ▸ howned.recycle data
    refine .serving hinv (howned'.quiet e none) (hkept.concat e rfl rfl)
      (hfused.concat_none e (by simp [ReadOutput.silent])) fun hd => ?_
    obtain ⟨hstream, hframes⟩ := hopen (hdone ▸ hd)
    constructor
    · simpa [readBytes_concat, handedOut_concat, ReadOutput.silent, ReadLog.quiet] using hstream
    · simpa [bodyResults_concat, ReadOutput.silent] using hframes

theorem intoParts_submitted (A : AsyncRead R I E) (o : OwnedRead R) (i : I) :
    (o.intoParts A i).1.submitted = none := by
  unfold OwnedRead.intoParts
  split
  · rfl
  · split <;> rfl

theorem ReadBacked.Lawful.step (h : P.Lawful A done Inv) {t t' : ReadPhase P.State R E} {e : ReadEvent I}
    {o : ReadOutput R E} (hc : Conserved P done Inv reader tr t) (hs : (P.machine A).step t e = some (t', o)) :
    Conserved P done Inv reader (tr ++ [(e, o)]) t' ∧ (o.log.submitted.isSome = true → ReadsSettled tr) := by
  cases readMove_of_step hs with
  | @poll s s' w w' grant i log r hn =>
    cases hc with
    | serving hinv howned hkept hfused hopen =>
      obtain ⟨hinv', hadvance⟩ := h.nextFrame hinv hn
      exact hadvance.conserved hinv' howned hkept hfused hopen _ w'
  | drop s =>
    have hinv : Inv s := by
      cases hc with
      | serving hinv => exact hinv
    exact ⟨hc.silent hinv rfl (.inl rfl) _, by simp [ReadOutput.silent, ReadLog.quiet]⟩
  | recycle s data =>
    have hinv : Inv s := by
      cases hc with
      | serving hinv => exact hinv
    refine ⟨hc.silent (h.recycle s data hinv) (h.recycle_done s data) ?_ _, by simp [ReadOutput.silent, ReadLog.quiet]⟩
    exact (h.recycle_owner s data).imp_right fun ho => ⟨data, ho⟩
  | intoParts s =>
    cases hc with
    | serving _ howned hkept hfused _ =>
      refine ⟨.settling (howned.quiet _ none) (hkept.concat _ rfl rfl) ?_, by simp [ReadOutput.silent, ReadLog.quiet]⟩
      exact hfused.concat_none _ (by simp [ReadOutput.silent])
  | @settle owner i log rest hp =>
    cases hc with
    | settling howned hkept hfused =>
      have hfused' : Fused (tr ++ [(.settle i, (⟨log, none⟩ : ReadOutput R E))]) :=
        hfused.concat_none _ (by simp)
      have hsub : log.submitted = none := by
        rw [← intoParts_submitted A owner i, hp]
      refine ⟨?_, by simp [hsub]⟩
      rcases howned.intoParts hp with ⟨o', rfl, hnone, howned'⟩ | ⟨p, rfl, hrecovered, hbytes⟩
      · exact .settling howned' (hkept.concat _ (by simp [hnone]) rfl) hfused'
      · exact .settled hrecovered (hkept.concat _ hbytes.symm rfl) hfused'

theorem ReadBacked.Lawful.conserved (h : P.Lawful A done Inv) {s₀ : P.State} (hinv : Inv s₀)
    (howner : P.owner s₀ = .new reader) {t : ReadPhase P.State R E}
    (hr : (P.machine A).Reaches (.serving s₀ false) tr t) : Conserved P done Inv reader tr t := by
  refine hr.invariant ?_ fun tr t e t' o hc hs => (h.step hc hs).1
  refine .serving hinv ?_ ⟨[], rfl, by simp⟩ List.Pairwise.nil fun _ => ⟨rfl, by simp [bodyResults]⟩
  rw [howner]
  exact .idle (by simp) rfl rfl

end Lawful

def ReadPhase.retained {S R E : Type} : ReadPhase S R E → Bytes
  | .settled p => p.buffer.bytes
  | _ => []

/-- Nothing is lost, repeated or reordered; reads are submitted one at a time, whatever is dropped. -/
structure Conserves {S : Type} (reader : R) (tr : ReadTrace R I E) (t : ReadPhase S R E) : Prop where
  kept : Kept tr t.retained
  fused : Fused tr
  outstanding : ReadsSettled tr ∨ ReadOutstanding tr
  resumed : ∀ before x after, tr = before ++ x :: after → x.2.log.submitted.isSome = true → ReadsSettled before
  recovered : ∀ p, t = .settled p → ∃ before, Recovered reader before tr p

theorem Recovered.settled {reader : R} {before tr : ReadTrace R I E} {p : ReaderParts R E}
    (h : Recovered reader before tr p) : ReadsSettled tr := by
  cases h with
  | idle h => simpa [ReadsSettled, submissions_concat, completions_concat, ReadOutput.silent, ReadLog.quiet] using h
  | retained h => simpa [ReadOutstanding, ReadsSettled, submissions_concat, completions_concat] using h

theorem Owned.outstanding {reader : R} {tr : ReadTrace R I E} {o : OwnedRead R} (h : Owned reader tr o) :
    ReadsSettled tr ∨ ReadOutstanding tr := by
  cases h with
  | idle _ h => exact .inl h
  | pending _ h => exact .inr h

theorem ReadBacked.Lawful.conserves {A : AsyncRead R I E} {P : ReadBacked R I E} {done : P.State → Bool}
    {Inv : P.State → Prop} {reader : R} (h : P.Lawful A done Inv) {s₀ : P.State} (hinv : Inv s₀)
    (howner : P.owner s₀ = .new reader) {tr : ReadTrace R I E} {t : ReadPhase P.State R E}
    (hr : (P.machine A).Reaches (.serving s₀ false) tr t) : Conserves reader tr t := by
  have hresumed : ∀ before x after, tr = before ++ x :: after → x.2.log.submitted.isSome = true →
      ReadsSettled before := by
    rintro before x after rfl hsub
    obtain ⟨u, v, hbefore, hstep, -⟩ := hr.step_at
    exact (h.step (h.conserved hinv howner hbefore) hstep).2 hsub
  cases h.conserved hinv howner hr with
  | serving _ howned hkept hfused _ =>
    exact ⟨hkept, hfused, howned.outstanding, hresumed, fun p hp => by cases hp⟩
  | settling howned hkept hfused =>
    exact ⟨hkept, hfused, howned.outstanding, hresumed, fun p hp => by cases hp⟩
  | settled hrec hkept hfused =>
    refine ⟨hkept, hfused, .inl hrec.settled, hresumed, fun p hp => ?_⟩
    cases hp
    exact ⟨_, hrec⟩

/-! ## The counter of a file -/

section File

variable {F : Type} {A : ReadAt F I E}

def OwnedRead.offset (o : OwnedRead (PositionalFile F)) : ℕ :=
  match o.state with
  | .idle reader => reader.offset
  | .pending op _ => op.reader.offset

theorem pollOperation_offset {spare : Option BytesMut} {op : ReadOperation (PositionalFile F)} {width : ℕ} {i : I}
    {o : OwnedRead (PositionalFile F)} {completed : Option (PositionalFile F × Except (ReadError E) ℕ × Bytes)}
    {res : Option (Except (ReadError E) ℕ × BytesMut)}
    (h : OwnedRead.pollOperation (PositionalFile.reader A) spare op width i = (o, completed, res)) :
    (∀ op' w, o.state = .pending op' w → res = none ∧ w = width) ∧ (res = none → o.offset = op.reader.offset) ∧
      (∀ n buffer, res = some (.ok n, buffer) →
        o.offset = op.reader.offset + n ∧ buffer.bytes.length = n ∧ n ≤ width) ∧
      (∀ c, completed = some c → o.offset = c.1.offset) ∧ (completed = none → res = none) := by
  unfold OwnedRead.pollOperation PositionalFile.reader at h
  cases hp : A.poll op.reader.file op.slice op.reader.offset op.canceled i with
  | mk file done =>
    match done with
    | none =>
      simp only [hp, Prod.mk.injEq] at h
      obtain ⟨rfl, rfl, rfl⟩ := h
      exact ⟨fun _ _ hs => ⟨rfl, (ReadState.pending.inj hs).2.symm⟩, fun _ => rfl, by simp, by simp, fun _ => rfl⟩
    | some (.error e, written) =>
      simp only [hp, Prod.mk.injEq] at h
      obtain ⟨rfl, rfl, rfl⟩ := h
      refine ⟨fun _ _ hs => (by cases hs), by simp, fun n buffer hres => ?_,
        fun c hc => by cases hc; rfl, by simp⟩
      obtain ⟨hvalid, rfl⟩ := Prod.mk.inj (Option.some.inj hres)
      cases (validate_eq_ok hvalid).1
    | some (.ok count, written) =>
      by_cases hfits : op.reader.offset + count < wordSize
      · simp only [hp, if_pos hfits, Prod.mk.injEq] at h
        obtain ⟨rfl, rfl, rfl⟩ := h
        refine ⟨fun _ _ hs => (by cases hs), by simp, fun n buffer hres => ?_,
        fun c hc => by cases hc; rfl, by simp⟩
        obtain ⟨hvalid, rfl⟩ := Prod.mk.inj (Option.some.inj hres)
        obtain ⟨hcount, hlen, hle⟩ := validate_eq_ok hvalid
        cases hcount
        exact ⟨rfl, hlen, hle⟩
      · simp only [hp, if_neg hfits, Prod.mk.injEq] at h
        obtain ⟨rfl, rfl, rfl⟩ := h
        refine ⟨fun _ _ hs => (by cases hs), by simp, fun n buffer hres => ?_,
        fun c hc => by cases hc; rfl, by simp⟩
        obtain ⟨hvalid, rfl⟩ := Prod.mk.inj (Option.some.inj hres)
        cases (validate_eq_ok hvalid).1

theorem read_offset {o o' : OwnedRead (PositionalFile F)} {width grant : ℕ} {i : I}
    {log : ReadLog (PositionalFile F) E} {res : Option (Except (ReadError E) ℕ × BytesMut)}
    (h : o.read (PositionalFile.reader A) width grant i = (o', log, res)) :
    (∀ op, log.submitted = some op → op.reader.offset = o.offset ∧ op.slice = width) ∧
      (∀ op' w, o'.state = .pending op' w → res = none ∧ w = o.width width) ∧ (res = none → o'.offset = o.offset) ∧
      ∀ n buffer, res = some (.ok n, buffer) →
        o'.offset = o.offset + n ∧ buffer.bytes.length = n ∧ n ≤ o.width width := by
  obtain ⟨state, spare⟩ := o
  cases state with
  | idle reader =>
    simp only [OwnedRead.read] at h
    set op : ReadOperation (PositionalFile F) :=
      ⟨reader, (((spare.getD (.withCapacity width)).clear).reserve width).roundUp grant, width, false⟩ with hop
    obtain ⟨o₁, completed, res₁, hp⟩ : ∃ o₁ completed res₁,
      OwnedRead.pollOperation (PositionalFile.reader A) none op width i = (o₁, completed, res₁) := ⟨_, _, _, rfl⟩
    simp only [hp, Prod.mk.injEq] at h
    obtain ⟨rfl, rfl, rfl⟩ := h
    obtain ⟨hpend, hnone, hsome, -⟩ := pollOperation_offset hp
    refine ⟨fun op' hop' => ?_, hpend, hnone, hsome⟩
    cases hop'
    exact ⟨rfl, rfl⟩
  | pending op w =>
    simp only [OwnedRead.read] at h
    obtain ⟨o₁, completed, res₁, hp⟩ : ∃ o₁ completed res₁,
      OwnedRead.pollOperation (PositionalFile.reader A) spare op w i = (o₁, completed, res₁) := ⟨_, _, _, rfl⟩
    simp only [hp, Prod.mk.injEq] at h
    obtain ⟨rfl, rfl, rfl⟩ := h
    obtain ⟨hpend, hnone, hsome, -⟩ := pollOperation_offset hp
    exact ⟨by simp, hpend, hnone, hsome⟩

theorem recycle_state (o : OwnedRead R) (buffer : BytesMut) : (o.recycle buffer).state = o.state := by
  unfold OwnedRead.recycle
  split_ifs <;> rfl

/-- What a file still has to deliver, at which offset. -/
structure FileBody.Counts (n : ℕ) (sent : ℕ) (s : FileBody F) : Prop where
  snapshot : s.snapshotLen = n
  total : s.remaining + sent = n
  width : ∀ op w, s.reader.reads.state = .pending op w → w ≤ s.remaining
  offset : s.reader.done = false → s.reader.reads.offset = sent

/-- A poll of a file does not underflow, and reads where the delivery stands. -/
theorem FileBody.Counts.nextFrame {n sent : ℕ} {s : FileBody F} (hlive : s.Live) (hc : s.Counts n sent) (grant : ℕ)
    (i : I) : ∃ s' log r, FileBody.nextFrame A s grant i = some (s', log, r) ∧
      s'.Counts n (sent + (((r.result?.bind Body.data?).map BytesMut.bytes).getD []).length) ∧
      (s'.reader.done = true → s.reader.done = true ∨ ∃ e, r = .ready (.error e)) ∧
      ∀ op, log.submitted = some op → op.reader.offset = sent ∧ op.slice ≤ n - sent := by
  obtain ⟨hsnapshot, htotal, hwidth, hoffset⟩ := hc
  unfold FileBody.nextFrame
  by_cases hd : s.done = true
  · rw [if_pos hd]
    exact ⟨_, _, _, rfl, ⟨hsnapshot, htotal, hwidth, hoffset⟩, .inl, by simp [ReadLog.quiet]⟩
  rw [if_neg hd]
  by_cases hrem : s.remaining = 0
  · rw [if_pos hrem]
    exact ⟨_, _, _, rfl, ⟨hsnapshot, htotal, hwidth, hoffset⟩, .inl, by simp [ReadLog.quiet]⟩
  rw [if_neg hrem]
  simp only [Bool.not_eq_true] at hd
  have hdone : s.reader.done = false := by
    by_contra hr
    simp [hlive (by simpa using hr)] at hd
  have hoff := hoffset hdone
  obtain ⟨reader, log, res, hchunk⟩ : ∃ reader log res, s.reader.nextChunk (PositionalFile.reader A)
    (min s.remaining (16 * 1024)) grant i = (reader, log, res) := ⟨_, _, _, rfl⟩
  -- the read that is polled has no more than what remains
  have hle : s.reader.reads.width (min s.remaining (16 * 1024)) ≤ s.remaining := by
    unfold OwnedRead.width
    cases hs : s.reader.reads.state with
    | idle _ => exact min_le_left _ _
    | pending op w => exact hwidth op w hs
  simp only [hchunk]
  cases chunked_of_nextChunk hchunk with
  | finished hd' => simp [hdone] at hd'
  | pending _ hr =>
    obtain ⟨hsub, hpend, hnone, -⟩ := read_offset hr
    refine ⟨_, _, _, rfl, ⟨hsnapshot, htotal, ?_, fun _ => (hnone rfl).trans hoff⟩, .inl, ?_⟩
    · intro op w hs
      exact (hpend op w hs).2.trans_le hle
    · intro op hop
      obtain ⟨hread, hslice⟩ := hsub op hop
      exact ⟨hread.trans hoff, by omega⟩
  | @chunk reads log m buffer _ hr =>
    obtain ⟨hsub, hpend, -, hsome⟩ := read_offset hr
    obtain ⟨hoff', hlen, hm⟩ := hsome m buffer rfl
    simp only
    rw [if_pos (by omega)]
    refine ⟨_, _, _, rfl, ⟨hsnapshot, ?_, ?_, ?_⟩, .inl, ?_⟩
    · simp only [FramePoll.result?, Option.bind_some, Body.data?, Option.map_some, Option.getD_some]
      omega
    · intro op w hs
      cases (hpend op w hs).1
    · intro _
      simp only [FramePoll.result?, Option.bind_some, Body.data?, Option.map_some, Option.getD_some]
      show reads.offset = _
      omega
    · intro op hop
      obtain ⟨hread, hslice⟩ := hsub op hop
      exact ⟨hread.trans hoff, by omega⟩
  | @eof reads log buffer _ hr =>
    obtain ⟨hsub, hpend, -, -⟩ := read_offset hr
    refine ⟨_, _, _, rfl, ⟨hsnapshot, htotal, ?_, by simp⟩, fun _ => .inr ⟨_, rfl⟩, ?_⟩
    · intro op w hs
      rw [recycle_state] at hs
      cases (hpend op w hs).1
    · intro op hop
      obtain ⟨hread, hslice⟩ := hsub op hop
      exact ⟨hread.trans hoff, by omega⟩
  | @failed reads log e buffer _ hr =>
    obtain ⟨hsub, hpend, -, -⟩ := read_offset hr
    refine ⟨_, _, _, rfl, ⟨hsnapshot, htotal, ?_, by simp⟩, fun _ => .inr ⟨_, rfl⟩, ?_⟩
    · intro op w hs
      rw [recycle_state] at hs
      cases (hpend op w hs).1
    · intro op hop
      obtain ⟨hread, hslice⟩ := hsub op hop
      exact ⟨hread.trans hoff, by omega⟩

theorem FileBody.Counts.recycle {n sent : ℕ} {s : FileBody F} (hc : s.Counts n sent) (data : BytesMut) :
    (s.recycle data).Counts n sent := by
  obtain ⟨hsnapshot, htotal, hwidth, hoffset⟩ := hc
  unfold FileBody.recycle
  rcases ReaderBody.recycle_cases s.reader data with h | h
  · rw [h]
    exact ⟨hsnapshot, htotal, hwidth, hoffset⟩
  · rw [h]
    refine ⟨hsnapshot, htotal, ?_, ?_⟩
    · intro op w hs
      rw [recycle_state] at hs
      exact hwidth op w hs
    · intro hd
      simp only [OwnedRead.offset, recycle_state]
      exact hoffset hd

theorem intoParts_offset {reader : PositionalFile F} {tr : ReadTrace (PositionalFile F) I E}
    {o : OwnedRead (PositionalFile F)} {i : I} {log : ReadLog (PositionalFile F) E}
    {rest : OwnedRead (PositionalFile F) ⊕ ReaderParts (PositionalFile F) E} (ho : Owned reader tr o)
    (h : o.intoParts (PositionalFile.reader A) i = (log, rest)) :
    (∀ o', rest = .inl o' → o'.offset = o.offset) ∧
      ∀ p, rest = .inr p → (∀ e, p.result ≠ some (.error e)) →
        p.reader.offset = o.offset + p.buffer.bytes.length := by
  cases ho with
  | @idle last spare hspare _ _ =>
    simp only [OwnedRead.intoParts, Prod.mk.injEq] at h
    obtain ⟨rfl, rfl⟩ := h
    refine ⟨by simp, fun p hp _ => ?_⟩
    cases hp
    cases spare with
    | none => rfl
    | some b =>
      simp only [Option.getD_some, hspare b rfl, List.length_nil, Nat.add_zero]
      rfl
  | @pending op submitted w spare =>
    simp only [OwnedRead.intoParts] at h
    obtain ⟨o₁, completed, res₁, hp⟩ : ∃ o₁ completed res₁, OwnedRead.pollOperation (PositionalFile.reader A) spare
      { op with canceled := true } w i = (o₁, completed, res₁) := ⟨_, _, _, rfl⟩
    obtain ⟨-, hnone, hsome, hcompleted, hneither⟩ := pollOperation_offset hp
    simp only [hp] at h
    match completed, res₁ with
    | none, _ =>
      cases h
      refine ⟨fun o' ho' => ?_, by simp⟩
      cases ho'
      exact hnone (hneither rfl)
    | some c, none =>
      cases h
      refine ⟨fun o' ho' => ?_, by simp⟩
      cases ho'
      exact hnone rfl
    | some (reader', c), some (result, buffer) =>
      cases h
      refine ⟨by simp, fun p hp' hok => ?_⟩
      cases hp'
      cases result with
      | error e => exact absurd rfl (hok e)
      | ok n =>
        obtain ⟨hoff, hlen, -⟩ := hsome n buffer rfl
        have hreader := hcompleted _ rfl
        simp only at hreader ⊢
        rw [← hreader, hoff, hlen]
        rfl

/-- What holds after every run of a file of some length. -/
inductive FileBody.Filed (n : ℕ) (tr : ReadTrace (PositionalFile F) I E) :
    ReadPhase (FileBody F) (PositionalFile F) E → Prop
  | serving {s : FileBody F} {w : Bool} (hcounts : s.Counts n (handedOut tr).length)
      (hfailed : s.reader.done = true → ∃ e, .error e ∈ bodyResults tr) : Filed n tr (.serving s w)
  | settling {o : OwnedRead (PositionalFile F)} (hle : (handedOut tr).length ≤ n)
      (hoffset : (∀ e, .error e ∉ bodyResults tr) → o.offset = (handedOut tr).length) : Filed n tr (.settling o)
  | settled {p : ReaderParts (PositionalFile F) E} (hle : (handedOut tr).length ≤ n)
      (hoffset : (∀ e, .error e ∉ bodyResults tr) → (∀ e, p.result ≠ some (.error e)) →
        p.reader.offset = (handedOut tr).length + p.buffer.bytes.length) : Filed n tr (.settled p)

theorem handedOut_silent (tr : ReadTrace R I E) (e : ReadEvent I) (log : ReadLog R E) :
    handedOut (tr ++ [(e, ⟨log, none⟩)]) = handedOut tr ∧ bodyResults (tr ++ [(e, ⟨log, none⟩)]) = bodyResults tr := by
  simp [handedOut_concat, bodyResults_concat]

theorem FileBody.Filed.step {n : ℕ} {file : F} {tr : ReadTrace (PositionalFile F) I E}
    {t t' : ReadPhase (fileBody A).State (PositionalFile F) E} {e : ReadEvent I}
    {o : ReadOutput (PositionalFile F) E} (hf : FileBody.Filed n tr t)
    (hc : Conserved (fileBody A) (fun s : FileBody F => s.done) FileBody.Live ⟨file, 0⟩ tr t)
    (hs : ((fileBody A).machine (PositionalFile.reader A)).step t e = some (t', o)) :
    FileBody.Filed n (tr ++ [(e, o)]) t' := by
  cases readMove_of_step hs with
  | @poll s s' w w' grant i log r hn =>
    cases hf with
    | serving hcounts hfailed =>
      cases hc with
      | serving hlive _ _ _ _ =>
        obtain ⟨s₁, log₁, r₁, hn₁, hcounts', hdone, -⟩ := FileBody.Counts.nextFrame hlive hcounts grant i
        cases Option.some.inj (hn₁.symm.trans hn)
        refine .serving ?_ fun hd => ?_
        · rw [handedOut_concat, List.length_append]
          exact hcounts'
        · rw [bodyResults_concat]
          rcases hdone hd with hd | ⟨e, rfl⟩
          · obtain ⟨e, he⟩ := hfailed hd
            exact ⟨e, List.mem_append_left _ he⟩
          · exact ⟨e, by simp [FramePoll.result?]⟩
  | drop s =>
    cases hf with
    | serving hcounts hfailed =>
      obtain ⟨hdel, hres⟩ := handedOut_silent tr .drop (.quiet : ReadLog (PositionalFile F) E)
      exact .serving (by rwa [ReadOutput.silent, hdel]) (by rwa [ReadOutput.silent, hres])
  | recycle s data =>
    cases hf with
    | serving hcounts hfailed =>
      obtain ⟨hdel, hres⟩ := handedOut_silent tr (.recycle data) (.quiet : ReadLog (PositionalFile F) E)
      refine .serving ?_ ?_
      · rw [ReadOutput.silent, hdel]
        exact hcounts.recycle data
      · rw [ReadOutput.silent, hres]
        intro hd
        apply hfailed
        rcases ReaderBody.recycle_cases (FileBody.reader s) data with h | h
        · exact h ▸ hd
        · simpa [fileBody, FileBody.recycle, h] using hd
  | intoParts s =>
    cases hf with
    | serving hcounts hfailed =>
      obtain ⟨hdel, hres⟩ := handedOut_silent tr .intoParts (.quiet : ReadLog (PositionalFile F) E)
      refine .settling ?_ ?_
      · rw [ReadOutput.silent, hdel]
        have := hcounts.total
        omega
      · rw [ReadOutput.silent, hdel, hres]
        intro hok
        apply hcounts.offset
        by_contra hd
        obtain ⟨e, he⟩ := hfailed (by simpa using hd)
        exact hok e he
  | @settle owner i log rest hp =>
    cases hf with
    | settling hle hoffset =>
      cases hc with
      | settling howned _ _ =>
        obtain ⟨hdel, hres⟩ := handedOut_silent tr (.settle i) log
        obtain ⟨hpending, hparts⟩ := intoParts_offset howned hp
        cases rest with
        | inl o' =>
          refine .settling (by rwa [hdel]) ?_
          rw [hdel, hres, hpending o' rfl]
          exact hoffset
        | inr p =>
          refine .settled (by rwa [hdel]) ?_
          rw [hdel, hres]
          intro hok hresult
          rw [hparts p rfl hresult, hoffset hok]

theorem FileBody.filed_of_reaches {n : ℕ} {file : F} {tr : ReadTrace (PositionalFile F) I E}
    {t : ReadPhase (fileBody A).State (PositionalFile F) E}
    (hr : ((fileBody A).machine (PositionalFile.reader A)).Reaches (.serving (FileBody.new file n) false) tr t) :
    FileBody.Filed n tr t := by
  induction hr with
  | start =>
    refine .serving ⟨rfl, rfl, ?_, fun _ => rfl⟩ ?_
    · intro op w hs
      cases hs
    · intro hd
      cases hd
  | step hr hs ih =>
    exact ih.step ((fileBody_lawful A).conserved (fun hd => hd) rfl hr) hs

/-- While it serves, a file can be polled, and a poll reads where its delivery is. -/
theorem FileBody.serving_spec {n : ℕ} {file : F} {tr : ReadTrace (PositionalFile F) I E} {s : FileBody F} {w : Bool}
    (hr : ((fileBody A).machine (PositionalFile.reader A)).Reaches (.serving (FileBody.new file n) false) tr
      (.serving s w)) :
    s.remaining + (handedOut tr).length = n ∧ ∀ grant i, (s.nextFrame A grant i).isSome = true ∧
      ∀ s' log r, s.nextFrame A grant i = some (s', log, r) → ∀ op, log.submitted = some op →
        op.reader.offset = (handedOut tr).length ∧ op.slice ≤ n - (handedOut tr).length := by
  cases FileBody.filed_of_reaches hr with
  | serving hcounts _ =>
    cases (fileBody_lawful A).conserved (fun hd => hd) rfl hr with
    | serving hlive _ _ _ _ =>
      refine ⟨hcounts.total, fun grant i => ?_⟩
      obtain ⟨s₁, log₁, r₁, hn₁, -, -, hsub⟩ := FileBody.Counts.nextFrame (A := A) hlive hcounts grant i
      refine ⟨by rw [hn₁]; rfl, fun s' log r hn => ?_⟩
      cases Option.some.inj (hn₁.symm.trans hn)
      exact hsub

end File

/-- Reader-backed bodies lose nothing, whatever is dropped and handed back; a file stays within its
snapshot, its counter does not underflow, and its reads and its parts are where its delivery is. -/
theorem reader_bodies_conserve :
    (∀ {R I E : Type} {A : AsyncRead R I E} {reader : R} {s : ReaderBody R} {tr : ReadTrace R I E}
      {t : ReadPhase (ReaderBody R) R E},
      (s = .new reader ∨ ∃ chunkSize, ReaderBody.withChunkSize (E := E) reader chunkSize = .ok s) →
      ((readerBody A).machine A).Reaches (.serving s false) tr t → Conserves reader tr t) ∧
    (∀ {F I E : Type} {A : ReadAt F I E} {file : F} {n : ℕ} {tr : ReadTrace (PositionalFile F) I E}
      {t : ReadPhase (FileBody F) (PositionalFile F) E},
      ((fileBody A).machine (PositionalFile.reader A)).Reaches (.serving (FileBody.new file n) false) tr t →
      Conserves ⟨file, 0⟩ tr t ∧ (handedOut tr).length ≤ n ∧
      (∀ s w, t = .serving s w → s.remaining + (handedOut tr).length = n ∧
        ∀ grant i, (s.nextFrame A grant i).isSome = true) ∧
      (∀ before x after, tr = before ++ x :: after → ∀ op, x.2.log.submitted = some op →
        op.reader.offset = (handedOut before).length ∧ op.slice ≤ n - (handedOut before).length) ∧
      ∀ p, t = .settled p → (∀ e, .error e ∉ bodyResults tr) → (∀ e, p.result ≠ some (.error e)) →
        (FileBody.parts n p).offset = (handedOut tr).length + (FileBody.parts n p).buffer.bytes.length) := by
  refine ⟨fun {R I E A reader s tr t} hs hr => ?_, fun {F I E A file n tr t} hr => ?_⟩
  · apply (readerBody_lawful A).conserves trivial _ hr
    rcases hs with rfl | ⟨chunkSize, hs⟩
    · rfl
    · unfold ReaderBody.withChunkSize at hs
      split_ifs at hs
      cases hs
      rfl
  · have hfiled := FileBody.filed_of_reaches hr
    refine ⟨(fileBody_lawful A).conserves (fun hd => hd) rfl hr, ?_, ?_, ?_, ?_⟩
    · cases hfiled with
      | serving hcounts =>
        have := hcounts.total
        omega
      | settling hle => exact hle
      | settled hle => exact hle
    · rintro s w rfl
      exact (FileBody.serving_spec hr).imp_right fun h grant i => (h grant i).1
    · rintro before ⟨e, o⟩ after rfl op hop
      obtain ⟨u, v, hbefore, hstep, -⟩ := hr.step_at
      cases readMove_of_step hstep with
      | @poll s s' w w' grant i log r hn =>
        obtain ⟨-, hserving⟩ := FileBody.serving_spec hbefore
        exact (hserving grant i).2 _ _ _ hn op hop
      | drop => cases hop
      | recycle => cases hop
      | intoParts => cases hop
      | @settle owner i log rest hp =>
        have hnone := intoParts_submitted (PositionalFile.reader A) owner i
        rw [hp] at hnone
        cases hnone.symm.trans hop
    · rintro p rfl
      cases hfiled with
      | settled _ hoffset => exact hoffset

def sliceReader : AsyncRead Bytes Bool Empty where
  poll bytes width _ ready :=
    if ready then (bytes.drop width, some (.ok (bytes.take width).length, bytes.take width)) else (bytes, none)

/-- A wait is dropped and its read is resumed: it was submitted once. -/
theorem reader_bodies_conserve_resumed : ∃ (tr : ReadTrace Bytes Bool Empty) (t : ReadPhase (ReaderBody Bytes) _ _),
    ((readerBody sliceReader).machine sliceReader).run (.serving (.new (ascii "abc")) false)
      [.poll 0 false, .drop, .poll 0 true] = some (tr, t) ∧
    (submissions tr).length = 1 ∧ handedOut tr = ascii "abc" ∧ Conserves (ascii "abc") tr t := by
  have hrun : ((readerBody sliceReader).machine sliceReader).run (.serving (.new (ascii "abc")) false)
    [.poll 0 false, .drop, .poll 0 true] = some (_, _) := rfl
  exact ⟨_, _, hrun, rfl, rfl, reader_bodies_conserve.1 (.inl rfl) (Machine.reaches_of_run hrun)⟩

end Vakya
