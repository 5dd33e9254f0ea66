import Vakya.RoundTrip
import Vakya.SendBody

/-!
# What the wire of a body says

The producer's frames, framed by the encoder, and read by whoever gets the bytes. The encoder knows
at every moment the place at which the bytes written so far leave a receiver, and what follows from
there is what the encoder is still to be given.
-/

namespace Vakya

open Library

variable {D E : Type}

/-- The payload of a body, and the fields that ended it, once something has. -/
structure BodyContent where
  payload : Bytes
  ending : Option Headers

def contentOf (x : Crates) (asInit : D → Bytes) : BodyEncoder → List (Produced D E) → BodyContent
  | _, [] | _, .failed _ :: _ => ⟨[], none⟩
  | e, .finished :: _ =>
    match e.finish with
    | (_, .ok _) => ⟨[], some .empty⟩
    | (_, .error _) => ⟨[], none⟩
  | e, .frame (.trailers fields) :: _ =>
    match e.sendTrailers x fields with
    | (_, .ok _) => ⟨[], some fields⟩
    | (_, .error _) => ⟨[], none⟩
  | e, .frame (.data payload) :: rest =>
    match e.data (asInit payload).length with
    | (e', .ok _) =>
      let content := contentOf x asInit e' rest
      { content with payload := asInit payload ++ content.payload }
    | (_, .error _) => ⟨[], none⟩

def BodyMode.receives (mode : BodyMode) (fields : Headers) : Option Headers :=
  if mode = .chunked then some (fields.mapValues HeaderValue.trimmed) else Option.none

/-- Limits of a receiver that the encoder `e` stays within. -/
structure DecodeLimits.Admit (x : Crates) (limits : DecodeLimits) (e : BodyEncoder)
    (produced : List (Produced D E)) : Prop where
  lines : CHUNK_PREFIX_CAPACITY ≤ limits.maxChunkLineBytes
  block : e.maxTrailerBytes ≤ limits.maxTrailerBytes + 3
  empty_block : 2 ≤ limits.maxTrailerBytes
  count : ∀ fields, .frame (.trailers fields) ∈ produced → fields.iter.length ≤ limits.maxTrailers
  map : ∀ fields, fields = HeaderMap.empty ∨ .frame (.trailers fields) ∈ produced →
    x.mapCapacity fields.iter.length = true

theorem DecodeLimits.Admit.tail {x : Crates} {limits : DecodeLimits} {e e' : BodyEncoder} {first : Produced D E}
    {produced : List (Produced D E)} (h : limits.Admit x e (first :: produced))
    (he : e'.maxTrailerBytes = e.maxTrailerBytes) : limits.Admit x e' produced where
  lines := h.lines
  block := he ▸ h.block
  empty_block := h.empty_block
  count fields hf := h.count fields (List.mem_cons_of_mem _ hf)
  map fields hf := h.map fields (hf.imp_right (List.mem_cons_of_mem _))

namespace BodyEncoder

def place (e : BodyEncoder) : Place :=
  match e.state with
  | .fixed => .fixed e.remainingLower
  | .chunked => .size [] 0
  | .closeDelimited => .untilEof
  | _ => .fixed 0

/-- The encoder has not ended, and a fixed length is promised exactly. -/
structure Live (e : BodyEncoder) : Prop where
  going : e.state ≠ .done ∧ ∀ error, e.state ≠ .failed error
  exact : e.state = .fixed → e.remainingUpper = some e.remainingLower

theorem live_new {mode : BodyMode} {metadata : BodyMetadata} {config : EncodeConfig} {e : BodyEncoder}
    (h : BodyEncoder.new mode metadata config = .ok e) : e.Live ∧ e.place = mode.start ∧ e.state = mode.encoding := by
  cases mode with
  | none =>
    cases h
    exact ⟨⟨by simp, by simp⟩, rfl, rfl⟩
  | chunked =>
    cases h
    exact ⟨⟨by simp, by simp⟩, rfl, rfl⟩
  | untilEof =>
    simp only [BodyEncoder.new] at h
    split_ifs at h
    cases h
    exact ⟨⟨by simp, by simp⟩, rfl, rfl⟩
  | fixed length =>
    simp only [BodyEncoder.new] at h
    split_ifs at h with hc
    rw [not_or, not_not] at hc
    obtain ⟨hlow, hup⟩ := SizeHint.exact_eq_some hc.1
    cases h
    refine ⟨⟨by simp, fun _ => ?_⟩, ?_, rfl⟩
    · simp [hlow, hup]
    · simp [place, BodyMode.start, hlow]

theorem Live.charge {e : BodyEncoder} (h : e.Live) (n : ℕ) : (e.charge n).Live where
  going := h.going
  exact hs := by simp [BodyEncoder.charge, h.exact hs]

end BodyEncoder

theorem length_chunkPrefix {n : ℕ} (hw : n < wordSize) (hn : n ≠ 0) :
    (chunkPrefix n).length ≤ CHUNK_PREFIX_CAPACITY := by
  have h16 : (hexText n).length ≤ 16 := by
    simp only [hexText, List.length_map, List.length_reverse]
    rw [Nat.digits_length_le_iff (by decide)]
    exact hw
  rw [chunkPrefix_eq (Nat.pos_of_ne_zero hn) hw, List.length_append]
  exact Nat.add_le_add_right h16 2

theorem BodyEncoder.length_sendTrailers {x : Crates} {e e' : BodyEncoder} {fields : Headers} {bytes : Bytes}
    (h : e.sendTrailers x fields = (e', .ok bytes)) : bytes.length ≤ e.maxTrailerBytes := by
  cases hs : e.state with
  | chunked =>
    simp only [sendTrailers, hs] at h
    split_ifs at h
    · cases h
    · cases h
    rcases hwrite : e.writeTrailers x fields with error | w
    · simp [hwrite, fail] at h
    simp only [hwrite, Prod.mk.injEq, Except.ok.injEq] at h
    obtain ⟨-, rfl⟩ := h
    obtain ⟨w₁, h1, h2⟩ := bind_eq_ok hwrite
    obtain ⟨w₂, h2, h3⟩ := bind_eq_ok h2
    obtain rfl := BoundedWriter.bytes_of_push h1
    obtain ⟨lines, -, rfl⟩ := writeHeaders_ok h2
    obtain ⟨rfl, hlen⟩ := BoundedWriter.bytes_of_extend h3
    rw [List.length_append]
    exact hlen
  | none | fixed | closeDelimited | done => simp [sendTrailers, hs, fail] at h
  | failed error => simp [sendTrailers, hs] at h

theorem bodyWire_done (x : Crates) (asInit : D → Bytes) {e : BodyEncoder} (hdone : e.state = .done)
    (produced : List (Produced D E)) : bodyWire x asInit e produced = [] := by
  cases produced with
  | nil => rfl
  | cons next rest =>
    cases next with
    | frame frame => simp only [bodyWire, step_done hdone]
    | finished => simp only [bodyWire, BodyEncoder.finish, hdone, BodyEncoder.fail]
    | failed error => rfl

def Rests (state : BodyState) (ending : Option Headers) (p : Place) : Prop :=
  match state, ending with
  | .chunked, none => p = .size [] 0
  | .chunked, some fields => p = .finished (fields.mapValues HeaderValue.trimmed) [] 0
  | .fixed, none => ∃ remaining, p = .fixed remaining
  | .closeDelimited, _ => p = .untilEof
  | _, _ => p = .fixed 0

theorem BodyEncoder.Live.rests {e : BodyEncoder} (h : e.Live) : Rests e.state none e.place := by
  obtain ⟨⟨hdone, hfailed⟩, -⟩ := h
  cases hs : e.state with
  | none | fixed | chunked | closeDelimited => simp [Rests, BodyEncoder.place, hs]
  | done => exact absurd hs hdone
  | failed error => exact absurd hs (hfailed error)

section Runs

variable {x : Crates} {limits : DecodeLimits} {asInit : D → Bytes} {e e' : BodyEncoder}

theorem run_dataFrame {payload : Bytes} {out : DataFraming} (hlive : e.Live)
    (hlines : e.state = .chunked → CHUNK_PREFIX_CAPACITY ≤ limits.maxChunkLineBytes)
    (h : e.data payload.length = (e', .ok out)) (rest : Bytes) :
    (framing x limits).run e.place (out.before ++ payload ++ out.after ++ rest) =
      ((framing x limits).run e'.place rest).emit payload := by
  obtain ⟨hword, hupper, rfl, hnone, rfl⟩ := BodyEncoder.data_ok h
  cases hs : e.state with
  | chunked =>
    by_cases hempty : payload = []
    · simp [hempty, hs, DataFraming.bare, BodyEncoder.place, BodyEncoder.charge]
    · have hlen : payload.length ≠ 0 := by simpa using hempty
      have hplace : e.place = .size [] 0 := by simp [BodyEncoder.place, hs]
      have hplace' : (e.charge payload.length).place = .size [] 0 := by
        simp [BodyEncoder.place, BodyEncoder.charge, hs]
      rw [if_pos ⟨rfl, hlen⟩, hplace, hplace']
      exact run_chunk x limits hempty hword ((length_chunkPrefix hword hlen).trans (hlines hs)) 0 rest
  | fixed =>
    have hle : payload.length ≤ e.remainingLower := hupper _ (hlive.exact hs)
    simp only [BodyEncoder.place, BodyEncoder.charge, hs, DataFraming.bare, reduceCtorEq, false_and, if_false,
      List.nil_append, List.append_nil]
    exact run_fixed x limits payload rest _ hle
  | closeDelimited =>
    simp only [BodyEncoder.place, BodyEncoder.charge, hs, DataFraming.bare, reduceCtorEq, false_and, if_false,
      List.nil_append, List.append_nil]
    exact run_untilEof x limits payload rest
  | none => exact absurd hs hnone
  | done => exact absurd hs hlive.going.1
  | failed error => exact absurd hs (hlive.going.2 error)

theorem run_lastChunk (hb : x.HeaderBlocks) (hn : x.FoldsNames) (hv : x.KeepsValues) {fin : BodyFinish}
    {bytes : Bytes} (hs : e.state = .chunked) (h : fin.apply x e = (e', .ok bytes))
    (hline : 3 ≤ limits.maxChunkLineBytes) (hblock : bytes.length ≤ limits.maxTrailerBytes + 3)
    (hcount : fin.fields.iter.length ≤ limits.maxTrailers)
    (hmap : x.mapCapacity fin.fields.iter.length = true) (rest : Bytes) :
    (framing x limits).run e.place (bytes ++ rest) =
      (framing x limits).run (.finished (fin.fields.mapValues HeaderValue.trimmed) [] 0) rest := by
  obtain ⟨hok, lines, hf, rfl⟩ := apply_chunked hs h
  have hplace : e.place = .size [] 0 := by simp [BodyEncoder.place, hs]
  have hlen : (headerBlock lines).length ≤ limits.maxTrailerBytes := by
    simp [ascii] at hblock
    omega
  have hend := Transducer.run_of_halt (framing x limits)
    (s := .finished (fin.fields.mapValues HeaderValue.trimmed) [] 0) rfl rest
  rw [hplace, List.append_assoc, run_zero_line hline, run_trailerBlock hb hn hv hf hmap hok hcount hlen, hend]
  rfl

theorem run_lastBare {fin : BodyFinish} {bytes : Bytes} (hlive : e.Live) (hs : e.state ≠ .chunked)
    (h : fin.apply x e = (e', .ok bytes)) :
    bytes = [] ∧ Rests e.state (some fin.fields) e.place := by
  obtain ⟨rfl, rfl, hlower⟩ := apply_bare hs h
  refine ⟨rfl, ?_⟩
  cases hstate : e.state with
  | fixed =>
    simp only [Rests, BodyEncoder.place, hstate, Place.fixed.injEq]
    exact hlower (by simp [hstate])
  | none | closeDelimited => simp [Rests, BodyEncoder.place, hstate]
  | chunked => exact absurd hstate hs
  | done => exact absurd hstate hlive.going.1
  | failed error => exact absurd hstate (hlive.going.2 error)

variable (limits asInit) in
/-- **The encoder's framing means what the encoder was given.** Read from the place of the encoder,
the wire of what was produced gives its payload and leaves the receiver where the body stands. -/
theorem run_bodyWire (hb : x.HeaderBlocks) (hn : x.FoldsNames) (hv : x.KeepsValues) (hlive : e.Live)
    (produced : List (Produced D E)) (hfit : e.state = .chunked → limits.Admit x e produced) :
    ∃ p, Rests e.state (contentOf x asInit e produced).ending p ∧ ∀ rest,
      (framing x limits).run e.place (bodyWire x asInit e produced ++ rest) =
        ((framing x limits).run p rest).emit (contentOf x asInit e produced).payload := by
  induction produced generalizing e with
  | nil => exact ⟨e.place, hlive.rests, fun _ => rfl⟩
  | cons next rest ih =>
    cases next with
    | failed error => exact ⟨e.place, hlive.rests, fun _ => rfl⟩
    | finished =>
      rcases hend : e.finish with ⟨e', error | bytes⟩
      · simp only [bodyWire, contentOf, hend]
        exact ⟨e.place, hlive.rests, fun _ => rfl⟩
      · have happly : BodyFinish.finish.apply x e = (e', .ok bytes) := hend
        simp only [bodyWire, contentOf, hend]
        by_cases hs : e.state = .chunked
        · have hfit := hfit hs
          have hline : 3 ≤ limits.maxChunkLineBytes := (by decide : 3 ≤ CHUNK_PREFIX_CAPACITY).trans hfit.lines
          obtain ⟨-, lines, hlines, rfl⟩ := apply_chunked hs happly
          obtain rfl : lines = [] := by cases hlines; rfl
          refine ⟨.finished (HeaderMap.empty.mapValues HeaderValue.trimmed) [] 0, by simp [Rests, hs],
            run_lastChunk hb hn hv hs happly hline ?_ (Nat.zero_le _) (hfit.map _ (.inl rfl))⟩
          have := hfit.empty_block
          simp [ascii, headerBlock]
          omega
        · obtain ⟨rfl, hrests⟩ := run_lastBare hlive hs happly
          exact ⟨e.place, hrests, fun _ => rfl⟩
    | frame frame =>
      cases frame with
      | data payload =>
        rcases hdata : e.data (asInit payload).length with ⟨e', error | out⟩
        · simp only [bodyWire, contentOf, Frame.call, BodyEncoder.step, hdata]
          exact ⟨e.place, hlive.rests, fun _ => rfl⟩
        · -- the encoder is charged and nothing else
          obtain ⟨-, -, he', -, -⟩ := BodyEncoder.data_ok hdata
          have hstate : e'.state = e.state := by rw [he']; rfl
          have hlive' : e'.Live := he' ▸ hlive.charge _
          obtain ⟨p, hrests, hrun⟩ := ih hlive' fun hs =>
            (hfit (hstate ▸ hs)).tail (by rw [he']; rfl)
          refine ⟨p, ?_, fun suffix => ?_⟩
          · simp only [contentOf, hdata]
            exact hstate ▸ hrests
          · simp only [bodyWire, contentOf, Frame.call, Frame.wire, BodyEncoder.step, hdata, Prod.map, id,
              Except.map]
            rw [List.append_assoc, run_dataFrame hlive (fun hs => (hfit hs).lines) hdata, hrun,
              Transcript.emit_emit]
      | trailers fields =>
        rcases hend : e.sendTrailers x fields with ⟨e', error | bytes⟩
        · simp only [bodyWire, contentOf, Frame.call, BodyEncoder.step, hend]
          exact ⟨e.place, hlive.rests, fun _ => rfl⟩
        · have hstep : e.step x (.trailers fields) = (e', .ok (.last bytes)) := by
            simp [BodyEncoder.step, hend, Except.map]
          have hdone : e'.state = .done := by
            have hframe : e.step x ((Frame.trailers fields : Frame D).call asInit) = (e', .ok (.last bytes)) := hstep
            rcases frame_step hframe with ⟨data, framing, hdata, -⟩ | ⟨_, _, -, -, -, hdone⟩
            · cases hdata
            · exact hdone
          have happly : (BodyFinish.trailers fields).apply x e = (e', .ok bytes) := hend
          have hs : e.state = .chunked := by
            by_contra hs
            cases (apply_bare hs happly).1
          have hfit := hfit hs
          have hline : 3 ≤ limits.maxChunkLineBytes := (by decide : 3 ≤ CHUNK_PREFIX_CAPACITY).trans hfit.lines
          have hmem : Produced.frame (.trailers fields) ∈ .frame (.trailers fields) :: rest := List.mem_cons_self
          refine ⟨.finished (fields.mapValues HeaderValue.trimmed) [] 0, ?_, fun suffix => ?_⟩
          · simp [contentOf, hend, Rests, hs]
          · simp only [bodyWire, contentOf, Frame.call, Frame.wire, hstep, hend]
            rw [bodyWire_done x asInit hdone, List.append_nil]
            exact run_lastChunk hb hn hv hs happly hline
              ((BodyEncoder.length_sendTrailers hend).trans hfit.block) (hfit.count _ hmem)
              (hfit.map _ (.inr hmem)) suffix

end Runs

section Parts

variable {x : Crates} {limits : DecodeLimits} {mode : BodyMode} {content : BodyContent} {p : Place}
  {next : Bytes}

variable (x limits) in
theorem Rests.run_next (h : Rests mode.encoding content.ending p) (hmore : content.ending = none → next = [])
    (heof : mode = .untilEof → next = []) :
    (∃ place, (framing x limits).run p next = ⟨[], .more place⟩ ∧ (mode = .untilEof ∨ content.ending = none)) ∨
      (framing x limits).run p next = ⟨[], .done (content.ending.bind mode.receives, 0) next⟩ ∧
        (mode = .chunked → content.ending.isSome = true) := by
  obtain ⟨payload, ending⟩ := content
  have hzero : (framing x limits).run (.fixed 0) next = ⟨[], .done (none, 0) next⟩ := run_fixed_zero x limits next
  cases mode with
  | none =>
    have hreceives : ending.bind BodyMode.none.receives = none := by cases ending <;> rfl
    obtain rfl : p = .fixed 0 := by cases ending <;> exact h
    exact .inr ⟨by rw [hzero, hreceives], by simp⟩
  | fixed length =>
    cases ending with
    | none =>
      obtain ⟨remaining, rfl⟩ := h
      obtain rfl := hmore rfl
      cases remaining with
      | zero => exact .inr ⟨hzero, by simp⟩
      | succ remaining => exact .inl ⟨_, run_nil rfl, .inr rfl⟩
    | some fields =>
      obtain rfl : p = .fixed 0 := h
      exact .inr ⟨hzero, by simp⟩
  | chunked =>
    cases ending with
    | none =>
      obtain rfl : p = .size [] 0 := h
      obtain rfl := hmore rfl
      exact .inl ⟨_, run_nil rfl, .inr rfl⟩
    | some fields =>
      obtain rfl : p = .finished (fields.mapValues HeaderValue.trimmed) [] 0 := h
      have hhalt : (framing x limits).halt (.finished (fields.mapValues HeaderValue.trimmed) [] 0) =
          some ((some (fields.mapValues HeaderValue.trimmed), 0), []) := rfl
      exact .inr ⟨Transducer.run_of_halt _ hhalt next, by simp⟩
  | untilEof =>
    obtain rfl : p = .untilEof := by cases ending <;> exact h
    obtain rfl := heof rfl
    exact .inl ⟨_, run_nil rfl, .inl rfl⟩

/-- A receiver that has read a part of the wire; `later` is what it has not read. -/
structure ReadsPart (mode : BodyMode) (content : BodyContent) (later next : Bytes) (t : BodyRun) : Prop where
  payload : t.output <+: content.payload
  not_failed : t.ending ≠ .failed
  done : ∀ r rest, t.ending = .done r rest → t.output = content.payload ∧ rest ++ later = next ∧
    r.1 = content.ending.bind mode.receives ∧ (mode = .chunked → content.ending.isSome = true)
  whole : later = [] → t.output = content.payload ∧ (mode ≠ .untilEof → content.ending.isSome = true →
    ∃ r rest, t.ending = .done r rest)

theorem readsPart {part later wire : Bytes} (hrests : Rests mode.encoding content.ending p)
    (hrun : ∀ rest, (framing x limits).run mode.start (wire ++ rest) =
      ((framing x limits).run p rest).emit content.payload)
    (hparts : part ++ later = wire ++ next) (hmore : content.ending = none → next = [])
    (heof : mode = .untilEof → next = []) :
    ReadsPart mode content later next ((framing x limits).run mode.start part) := by
  -- what all of the wire comes to
  obtain ⟨ending, hall, hcases⟩ : ∃ ending, (framing x limits).run mode.start (part ++ later) =
        ⟨content.payload, ending⟩ ∧
      ((∃ place, ending = .more place) ∧ (mode = .untilEof ∨ content.ending = none) ∨
        ending = .done (content.ending.bind mode.receives, 0) next ∧
          (mode = .chunked → content.ending.isSome = true)) := by
    rw [hparts, hrun]
    rcases hrests.run_next x limits hmore heof with ⟨place, hp, hopen⟩ | ⟨hp, hchunked⟩
    · exact ⟨_, by rw [hp, Transcript.emit, List.append_nil], .inl ⟨⟨place, rfl⟩, hopen⟩⟩
    · exact ⟨_, by rw [hp, Transcript.emit, List.append_nil], .inr ⟨rfl, hchunked⟩⟩
  have hpre := Transducer.output_prefix (framing x limits) mode.start part later
  rw [hall] at hpre
  refine ⟨hpre, fun hfailed => ?_, fun r rest hdone => ?_, ?_⟩
  · rcases hcut : (framing x limits).run mode.start part with ⟨out, ending'⟩
    obtain rfl : ending' = .failed := by simpa [hcut] using hfailed
    have hstill := hall.symm.trans (Transducer.run_append_of_failed _ hcut later)
    obtain rfl : ending = .failed := by simpa using congrArg Transcript.ending hstill
    rcases hcases with ⟨⟨place, h⟩, -⟩ | ⟨h, -⟩ <;> cases h
  · rcases hcut : (framing x limits).run mode.start part with ⟨out, ending'⟩
    obtain rfl : ending' = .done r rest := by simpa [hcut] using hdone
    have hstill := hall.symm.trans (Transducer.run_append_of_done _ hcut later)
    obtain ⟨hout, rfl⟩ : content.payload = out ∧ ending = .done r (rest ++ later) := by simpa using hstill
    rcases hcases with ⟨⟨place, h⟩, -⟩ | ⟨h, hchunked⟩
    · cases h
    · cases h
      exact ⟨hout.symm, rfl, rfl, hchunked⟩
  · rintro rfl
    rw [List.append_nil] at hall
    rw [hall]
    refine ⟨rfl, fun hmode hsome => ?_⟩
    rcases hcases with ⟨-, h⟩ | ⟨h, -⟩
    · rcases h with h | h
      · exact absurd h hmode
      · simp [h] at hsome
    · exact ⟨_, _, h⟩

theorem reads_bodyWire (hb : x.HeaderBlocks) (hn : x.FoldsNames) (hv : x.KeepsValues) {metadata : BodyMetadata}
    {config : EncodeConfig} {e₀ : BodyEncoder} (hnew : BodyEncoder.new mode metadata config = .ok e₀)
    (asInit : D → Bytes) (produced : List (Produced D E)) (hfit : mode = .chunked → limits.Admit x e₀ produced)
    {part later : Bytes} (hparts : part ++ later = bodyWire x asInit e₀ produced ++ next)
    (hmore : (contentOf x asInit e₀ produced).ending = none → next = []) (heof : mode = .untilEof → next = []) :
    ReadsPart mode (contentOf x asInit e₀ produced) later next ((framing x limits).run mode.start part) := by
  obtain ⟨hlive, hplace, hstate⟩ := BodyEncoder.live_new hnew
  obtain ⟨p, hrests, hrun⟩ := run_bodyWire limits asInit hb hn hv hlive produced fun hs =>
    hfit (by cases mode <;> simp_all [BodyMode.encoding])
  rw [hplace] at hrun
  rw [hstate] at hrests
  exact readsPart hrests hrun hparts hmore heof

end Parts

section Ended

variable {x : Crates} {asInit : D → Bytes} {e₀ e : BodyEncoder} {fs : List (Frame D)} {wire : Bytes}
  {calls : List (EncoderCall × EncoderResult)}

theorem Sent.ending (h : Sent x asInit e₀ fs e wire calls) (rest : List (Produced D E)) :
    (fs.any Frame.isTrailers = true ∧ (contentOf x asInit e₀ (fs.map .frame ++ rest)).ending.isSome = true) ∨
      fs.any Frame.isTrailers = false ∧
        (contentOf x asInit e₀ (fs.map .frame ++ rest)).ending = (contentOf x asInit e rest).ending := by
  induction h generalizing rest with
  | start => exact .inr ⟨rfl, rfl⟩
  | @frame fs e e' wire calls f out _ hstep ih =>
    rw [List.map_append, List.append_assoc, List.any_append]
    rcases ih (.frame f :: rest) with ⟨hany, hsome⟩ | ⟨hany, heq⟩
    · exact .inl ⟨by rw [hany]; rfl, hsome⟩
    · simp only [List.map_cons, List.map_nil, List.singleton_append, heq, hany]
      cases f with
      | data payload =>
        rcases hdata : e.data (asInit payload).length with ⟨e₁, error | framing⟩
        · simp [Frame.call, BodyEncoder.step, hdata, Except.map] at hstep
        · obtain ⟨rfl, -⟩ : e₁ = e' ∧ _ := by simpa [Frame.call, BodyEncoder.step, hdata] using hstep
          exact .inr ⟨rfl, by simp only [contentOf, hdata]⟩
      | trailers fields =>
        rcases hend : e.sendTrailers x fields with ⟨e₁, error | bytes⟩
        · simp [Frame.call, BodyEncoder.step, hend, Except.map] at hstep
        · exact .inl ⟨rfl, by simp only [contentOf, hend, Option.isSome_some]⟩

end Ended

namespace Sender

variable {V U : Type} {x : Crates} {k : SendBuffers D V U} {e₀ : BodyEncoder} {h : SendHistory D E}
  {s s' : Sender D V U E} {stats : SendStats}

theorem afterData_going (stats : SendStats) (s : Sender D V U E) (loop : WriteLoop (Bytes × D × Bytes) V) (o : SendOutput D E) :
    (s.afterData loop o).1.phase ≠ .returned (.ok stats) := by
  unfold afterData
  split
  · dsimp only
    split <;> simp [returns]
  · simp

theorem afterTrailers_going (stats : SendStats) (s : Sender D V U E) (loop : WriteLoop Bytes U) (o : SendOutput D E) :
    (s.afterTrailers loop o).1.phase ≠ .returned (.ok stats) := by
  unfold afterTrailers
  split <;> simp [returns]

theorem afterFinish_output (s : Sender D V U E) (loop : WriteLoop Bytes U) (o : SendOutput D E) :
    (s.afterFinish loop o).2 = o := by
  unfold afterFinish
  split <;> rfl

theorem Between.take_ended {fs : List (Frame D)} (hb : Between x k e₀ h s fs) (stats : SendStats) (next : Produced D E)
    (hret : (s.take x k next).1.phase = .returned (.ok stats)) :
    (contentOf x k.asInit e₀ (h.add (s.take x k next).2).obtained).ending.isSome = true := by
  cases next with
  | failed error => simp [take, returns] at hret
  | frame frame =>
    cases frame with
    | data data =>
      simp only [take] at hret
      split at hret
      · simp [returns] at hret
      · exact absurd hret (afterData_going _ _ _ _)
    | trailers fields =>
      simp only [take] at hret
      split at hret
      · simp [returns] at hret
      · exact absurd hret (afterTrailers_going _ _ _ _)
  | finished =>
    have hobtained : (h.add (s.take x k .finished).2).obtained = fs.map .frame ++ [.finished] := by
      simp only [take, SendHistory.add, hb.obtained]
      congr 1
      split_ifs
      · rfl
      · split
        · rfl
        · rw [afterFinish_output]
    rw [hobtained]
    rcases hb.sent.ending [.finished] with ⟨-, hsome⟩ | ⟨hnone, heq⟩
    · exact hsome
    · rw [← hb.trailersSent] at hnone
      simp only [take, hnone, Bool.false_eq_true, if_false] at hret
      rw [heq]
      rcases hfinish : s.encoder.finish with ⟨e', error | bytes⟩
      · simp [hfinish, returns] at hret
      · simp only [contentOf, hfinish, Option.isSome_some]

/-- The body has ended if `send_body` has succeeded. -/
def Ended (x : Crates) (k : SendBuffers D V U) (e₀ : BodyEncoder) (h : SendHistory D E) (s : Sender D V U E) : Prop :=
  ∀ stats, s.phase = .returned (.ok stats) → (contentOf x k.asInit e₀ h.obtained).ending.isSome = true

theorem poll_cases {next : Option (Produced D E)} {o : SendOutput D E} (hs : s.poll x k next = some (s', o)) :
    (∃ item, s.take x k item = (s', o) ∧ (s.phase = .first ∨ s.phase = .polling true)) ∨
      ∀ stats, s'.phase ≠ .returned (.ok stats) := by
  unfold poll at hs
  cases hphase : s.phase with
  | first =>
    simp only [hphase] at hs
    by_cases htoken : s.token = some true
    · rw [if_pos htoken] at hs
      cases hs
      exact .inr (by simp [returns])
    · rw [if_neg htoken] at hs
      cases next with
      | some item => exact .inl ⟨item, Option.some.inj hs, .inl rfl⟩
      | none =>
        cases hs
        right
        cases s.pendingOutput <;> simp
  | polling yielded =>
    cases yielded with
    | false =>
      simp only [hphase] at hs
      cases hs
      exact .inr (by simp)
    | true =>
      simp only [hphase] at hs
      split_ifs at hs
      · cases hs
        exact .inr (by simp [returns])
      · cases next with
        | some item => exact .inl ⟨item, Option.some.inj hs, .inr rfl⟩
        | none =>
          cases hs
          exact .inr (by simp [hphase])
  | flushing | framed | trailers | finishing | returned => simp [hphase] at hs

theorem flushed_going {result : Except IoError Unit} {o : SendOutput D E} (hs : s.flushed result = some (s', o)) :
    s'.phase ≠ .returned (.ok stats) := by
  unfold flushed at hs
  split at hs
  · cases result with
    | error e =>
      cases hs
      simp [returns]
    | ok =>
      cases hs
      simp
  · cases hs

theorem ended_advance {i : WriteEvent} {o : SendOutput D E} (hinv : SendInv x k e₀ h s)
    (hs : s.advance k i = some (s', o)) : Ended x k e₀ (h.add o) s' := by
  intro stats hret
  unfold SendInv at hinv
  unfold advance at hs
  cases hphase : s.phase with
  | framed loop =>
    simp only [hphase] at hs
    obtain ⟨⟨loop', write⟩, -, heq⟩ := Option.map_eq_some_iff.mp hs
    have hgoing := afterData_going stats s loop' { SendOutput.quiet with write }
    rw [heq] at hgoing
    exact absurd hret hgoing
  | trailers loop =>
    simp only [hphase] at hs
    obtain ⟨⟨loop', write⟩, -, heq⟩ := Option.map_eq_some_iff.mp hs
    have hgoing := afterTrailers_going stats s loop' { SendOutput.quiet with write }
    rw [heq] at hgoing
    exact absurd hret hgoing
  | finishing loop =>
    simp only [hphase] at hinv hs
    obtain ⟨fs, bytes, wire, taken, hf, -⟩ := hinv
    obtain ⟨⟨loop', write⟩, -, heq⟩ := Option.map_eq_some_iff.mp hs
    have ho : o = { SendOutput.quiet with write } := by
      rw [← afterFinish_output s loop' { SendOutput.quiet with write }, heq]
    obtain ⟨e, calls, hsent, hfinish, -⟩ := hf.sent
    have hobtained : (h.add o).obtained = fs.map .frame ++ [.finished] := by
      rw [ho]
      exact (List.append_nil _).trans hf.obtained
    rw [hobtained]
    rcases hsent.ending [.finished] with ⟨-, hsome⟩ | ⟨-, hending⟩
    · exact hsome
    · simp only [hending, contentOf, hfinish, Option.isSome_some]
  | first | flushing | polling | returned => simp [hphase] at hs

theorem ended_cancel (hended : Ended x k e₀ h s) : Ended x k e₀ h s.cancel := by
  intro stats hret
  cases hphase : s.phase with
  | returned result =>
    simp only [cancel, hphase, SendPhase.returned.injEq] at hret
    exact hended stats (hphase.trans (congrArg _ hret))
  | first | flushing | polling | framed | trailers | finishing => simp [cancel, hphase] at hret

/-- **Success means that the body has ended**: the producer ended it and the encoder took its end. -/
theorem ended_of_reaches (hk : k.Lawful) {token : Option Bool} {tr : List (SendEvent D E × SendOutput D E)}
    (hr : (sendBody x k).Reaches (.start e₀ token) tr s) : Ended x k e₀ (sendHistory tr) s := by
  have hboth : SendInv x k e₀ (sendHistory tr) s ∧ Ended x k e₀ (sendHistory tr) s := by
    refine hr.invariant (P := fun tr s => SendInv x k e₀ (sendHistory tr) s ∧ Ended x k e₀ (sendHistory tr) s)
      ⟨inv_start x k e₀ token, by simp [Ended, start]⟩ ?_
    rintro tr s i s' o ⟨hinv, hended⟩ hs
    rw [sendHistory_concat]
    refine ⟨inv_step hk hinv hs, ?_⟩
    cases i with
    | cancel =>
      cases hs
      rw [SendHistory.add_quiet]
      exact ended_cancel hended
    | poll next =>
      rcases poll_cases hs with ⟨item, htake, hphase⟩ | hgoing
      · have hbetween : ∃ fs, Between x k e₀ (sendHistory tr) s fs := by
          unfold SendInv at hinv
          rcases hphase with hphase | hphase <;> simpa only [hphase] using hinv
        obtain ⟨fs, hb⟩ := hbetween
        intro stats hret
        have hsome := hb.take_ended stats item
        rw [htake] at hsome
        exact hsome hret
      · exact fun stats hret => absurd hret (hgoing stats)
    | flushed result => exact fun stats hret => absurd hret (flushed_going hs)
    | resume => exact ended_advance hinv hs
    | completed result => exact ended_advance hinv hs
  exact hboth.2

end Sender

end Vakya
