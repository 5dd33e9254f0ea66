import Vakya.DecodeRefines
import Vakya.Reference

/-!
# Fragmentation of a body

The decoder driven as the receive loop drives it: the consumed prefix is
dropped, the next piece is appended only when more input is needed, and the end
of the transport is seen once no piece is left. The result depends on the bytes
of the wire alone.
-/

namespace Vakya

open Library

/-- The receive loop between two calls of `decode`. `pieces` are the reads still to come. -/
structure Drive where
  decoder : BodyDecoder
  buffer : Bytes
  pieces : List Bytes
  eof : Bool
  payload : Bytes
  trailers : Option Headers

inductive Verdict
  | complete
  | needsInput
  | failed
deriving DecidableEq, Repr

/-- What a driven body comes to. `rest` is the part of the wire not consumed. -/
structure DriveEnd where
  verdict : Verdict
  payload : Bytes
  trailers : Option Headers
  rest : Bytes
deriving DecidableEq

namespace Drive

def start (mode : BodyMode) (limits : DecodeLimits) (pieces : List Bytes) : Drive :=
  ⟨.withLimits mode limits, [], pieces, false, [], none⟩

def finish (s : Drive) (verdict : Verdict) : DriveEnd :=
  ⟨verdict, s.payload, s.trailers, s.buffer ++ s.pieces.flatten⟩

/-- One read after `NeedMore`, if there is anything left to read. -/
def read (s : Drive) (endsEof : Bool) : Option Drive :=
  match s.pieces with
  | piece :: pieces => some { s with buffer := s.buffer ++ piece, pieces := pieces }
  | [] => if endsEof && !s.eof then some { s with eof := true } else none

def turn (x : Crates) (endsEof : Bool) (s : Drive) : Drive ⊕ DriveEnd :=
  if s.decoder.isComplete then .inr (s.finish .complete)
  else
    match s.decoder.decode x s.buffer s.eof with
    | (_, .error _) => .inr (s.finish .failed)
    | (d, .ok (.needMore consumed)) =>
      let s := { s with decoder := d, buffer := s.buffer.drop consumed }
      match s.read endsEof with
      | some s => .inl s
      | none => .inr (s.finish .needsInput)
    | (d, .ok (.data start stop consumed)) =>
      .inl { s with
        decoder := d, buffer := s.buffer.drop consumed
        payload := s.payload ++ (s.buffer.take stop).drop start }
    | (d, .ok (.trailers trailers consumed)) =>
      .inl { s with decoder := d, buffer := s.buffer.drop consumed, trailers := some trailers }
    | (d, .ok (.ended consumed)) =>
      .inr (finish { s with decoder := d, buffer := s.buffer.drop consumed } .complete)

def run (x : Crates) (endsEof : Bool) : ℕ → Drive → Option DriveEnd
  | 0, _ => none
  | fuel + 1, s =>
    match s.turn x endsEof with
    | .inl s' => run x endsEof fuel s'
    | .inr result => some result

/-- The drives that the loop passes through. -/
inductive Visits (x : Crates) (endsEof : Bool) (s₀ : Drive) : Drive → Prop
  | start : Visits x endsEof s₀ s₀
  | turn {s s' : Drive} : Visits x endsEof s₀ s → s.turn x endsEof = .inl s' → Visits x endsEof s₀ s'

def left (s : Drive) : Bytes := s.buffer ++ s.pieces.flatten

/-- Turns that are enough to drive `s` to its end. -/
def turns (s : Drive) : ℕ := s.left.length + s.pieces.length + 3

end Drive

def summary (endsEof : Bool) (t : BodyRun) : DriveEnd :=
  match t.ending with
  | .done r rest => ⟨.complete, t.output, r.1, rest⟩
  | .failed => ⟨.failed, t.output, none, []⟩
  | .more p =>
    if endsEof then
      if p.completeAtEof then ⟨.complete, t.output, none, []⟩ else ⟨.failed, t.output, none, []⟩
    else ⟨.needsInput, t.output, none, []⟩

def DriveEnd.Agrees (r r' : DriveEnd) : Prop :=
  r.verdict = r'.verdict ∧ r.payload = r'.payload ∧
    (r.verdict = .complete → r.trailers = r'.trailers ∧ r.rest = r'.rest)

theorem completeAtEof_afterSize {limits : DecodeLimits} {line : Bytes} {charged : ℕ} {p : Place}
    (h : afterSize limits line charged = some p) : p.completeAtEof = false := by
  unfold afterSize at h
  cases hp : parseChunkLine line with
  | error e => simp [hp] at h
  | ok size =>
    simp only [hp] at h
    split_ifs at h <;> (cases h; rfl)

theorem completeAtEof_afterBlock {x : Crates} {limits : DecodeLimits} {block : Bytes}
    {charged : ℕ} {p : Place} (h : afterBlock x limits block charged = some p) :
    p.completeAtEof = false := by
  unfold afterBlock at h
  cases hp : parseTrailers x limits.maxTrailers block with
  | error e => simp [hp] at h
  | ok q =>
    simp only [hp] at h
    cases h
    rfl

theorem completeAtEof_step {x : Crates} {limits : DecodeLimits} {p p' : Place} {b : UInt8}
    {out : Bytes} (h : p.step x limits b = some (p', out)) :
    p'.completeAtEof = p.completeAtEof := by
  cases p with
  | fixed remaining =>
    cases h
    rfl
  | untilEof =>
    cases h
    rfl
  | size line charged =>
    simp only [Place.step] at h
    split_ifs at h
    · obtain ⟨q, hq, he⟩ := Option.map_eq_some_iff.mp h
      cases he
      exact completeAtEof_afterSize hq
    · cases h
      rfl
  | data remaining charged =>
    simp only [Place.step, afterData] at h
    split_ifs at h <;> (cases h; rfl)
  | crlf cr charged =>
    cases cr <;>
    · simp only [Place.step] at h
      split_ifs at h
      cases h
      rfl
  | trailers block charged =>
    simp only [Place.step] at h
    split_ifs at h
    · obtain ⟨q, hq, he⟩ := Option.map_eq_some_iff.mp h
      cases he
      exact completeAtEof_afterBlock hq
    · cases h
      rfl
  | finished fields back charged => cases h

theorem completeAtEof_run {x : Crates} {limits : DecodeLimits} {p p' : Place} {xs : Bytes}
    (h : ((framing x limits).run p xs).ending = .more p') :
    p'.completeAtEof = p.completeAtEof := by
  induction xs generalizing p with
  | nil =>
    cases hh : p.halt with
    | some r => simp [Transducer.run, hh] at h
    | none =>
      simp only [run_nil hh, Ending.more.injEq] at h
      rw [h]
  | cons b bs ih =>
    cases hh : p.halt with
    | some r => simp [Transducer.run, hh] at h
    | none =>
      cases hs : p.step x limits b with
      | none => simp [run_refused hh hs] at h
      | some q =>
        obtain ⟨p₁, out⟩ := q
        rw [run_step hh hs, Transcript.emit_ending] at h
        rw [ih h, completeAtEof_step hs]

namespace BodyDecoder

variable {x : Crates} {d : BodyDecoder} {b : Bytes}

theorem decode_needMore (hx : x.HeadersWithin) (hw : d.Waiting b) {p : Place}
    (hr : (framing x d.limits).run d.place b = ⟨[], .more p⟩) :
    ∃ d' c, d.decode x b false = (d', .ok (.needMore c)) := by
  obtain ⟨-, h⟩ := decode_means hx hw
  rcases hd : d.decode x b false with ⟨d', e | o⟩
  · rw [hd] at h
    have := h []
    simp [hr] at this
  rw [hd] at h
  cases o with
  | needMore c => exact ⟨d', c, rfl⟩
  | data i j c =>
    obtain ⟨hij, hjc, hc, -, hrun⟩ := h
    have hout := congrArg (fun t => t.output.length) (hrun [])
    simp [hr] at hout
    omega
  | trailers t c =>
    have := h.2.2 []
    simp [hr] at this
  | ended c =>
    have := h.2.2 []
    simp [hr] at this

theorem place_completeAtEof (hw : d.Waiting b) :
    d.place.completeAtEof = true ↔ d.state = .untilEof := by
  cases hs : d.state with
  | chunked state => cases state <;> simp [place, hs, ChunkState.place, Place.completeAtEof]
  | done => simp [Waiting, hs] at hw
  | failed e => simp [Waiting, hs] at hw
  | _ => simp [place, hs, Place.completeAtEof]

def rescan (d : BodyDecoder) : BodyDecoder :=
  match d.state with
  | .chunked (.size _) => { d with state := .chunked (.size 0) }
  | .chunked (.trailers _) => { d with state := .chunked (.trailers 0) }
  | _ => d

/-- The loop works on the chunk state it is given; the one stored in the decoder is overwritten. -/
theorem chunkIteration_restate (d : BodyDecoder) (t : DecoderState) (state : ChunkState)
    (cursor : ℕ) (b : Bytes) (eof : Bool) :
    chunkIteration x { d with state := t } state cursor b eof =
      match chunkIteration x d state cursor b eof with
      | .again d' s' c' => .again { d' with state := t } s' c'
      | .leave r => .leave r := by
  cases state with
  | size scanned =>
    have hp : parseChunkLine { d with state := t } (b.drop cursor) scanned =
        (d.parseChunkLine (b.drop cursor) scanned).map fun r => ({ r.1 with state := t }, r.2) := by
      simp only [parseChunkLine, chargeExtensions_eq]
      split
      · rfl
      · split_ifs <;> [rfl; skip; skip] <;> split <;> rfl
      · split_ifs <;> rfl
    simp only [chunkIteration, hp]
    rcases d.parseChunkLine (b.drop cursor) scanned with e | ⟨d', _ | ⟨size, k⟩, s⟩
    · rfl
    · cases eof <;> rfl
    · rfl
  | data remaining =>
    simp only [chunkIteration]
    split_ifs <;> rfl
  | dataCrlf =>
    simp only [chunkIteration]
    split_ifs <;> rfl
  | trailers scanned => rfl

theorem chunkLoop_restate (d : BodyDecoder) (t : DecoderState) (state : ChunkState) (cursor : ℕ)
    (b : Bytes) (eof : Bool) :
    chunkLoop x { d with state := t } state cursor b eof = d.chunkLoop x state cursor b eof := by
  induction hn : state.rank using Nat.strong_induction_on generalizing d state cursor with
  | _ n ih =>
  rw [chunkLoop_eq, chunkIteration_restate, chunkLoop_eq d]
  cases hi : chunkIteration x d state cursor b eof with
  | again d' s' c' => exact ih _ (hn ▸ rank_lt_of_again hi) d' s' c' rfl
  | leave r => rfl

/-- A fitting scan offset changes nothing about a call, at the end of the transport or before. -/
theorem decode_rescan (hw : d.Waiting b) (eof : Bool) :
    d.rescan.decode x b eof = d.decode x b eof := by
  cases hs : d.state with
  | chunked state =>
    have hr : state.Retained b := by simpa [Waiting, hs] using hw
    cases state with
    | size scanned =>
      have hi : chunkIteration x d (.size 0) 0 b eof = chunkIteration x d (.size scanned) 0 b eof := by
        simp only [chunkIteration, List.drop_zero, parseChunkLine_rescan hr]
      simp only [decode, hs, decodeChunked, rescan, chunkLoop_restate]
      rw [chunkLoop_eq, hi, ← chunkLoop_eq]
    | trailers scanned =>
      have hi : chunkIteration x d (.trailers 0) 0 b eof =
          chunkIteration x d (.trailers scanned) 0 b eof := by
        simp only [chunkIteration, decodeTrailers, List.drop_zero, trailerEnd_rescan hr]
      simp only [decode, hs, decodeChunked, rescan, chunkLoop_restate]
      rw [chunkLoop_eq, hi, ← chunkLoop_eq]
    | _ => simp [rescan, hs]
  | _ => simp [rescan, hs]

end BodyDecoder

namespace Drive

variable {x : Crates} {mode : BodyMode} {limits : DecodeLimits} {endsEof : Bool} {wire : Bytes}
  {s : Drive}

/-- Before the end of the transport: what is left, read at the byte level from the decoder's
place, completes the run over the wire. -/
structure Following (x : Crates) (mode : BodyMode) (limits : DecodeLimits) (wire : Bytes)
    (s : Drive) : Prop where
  limits_eq : s.decoder.limits = limits
  waiting : s.decoder.Waiting s.buffer
  not_eof : s.eof = false
  no_trailers : s.trailers = none
  run_eq : (framing x limits).run mode.start wire =
    ((framing x limits).run s.decoder.place s.left).emit s.payload

/-- The trailers were handed over; the next turn closes the body. -/
structure Closing (x : Crates) (mode : BodyMode) (limits : DecodeLimits) (wire : Bytes)
    (s : Drive) : Prop where
  state_done : s.decoder.state = .done
  run_eq : ∃ charged, (framing x limits).run mode.start wire =
    ⟨s.payload, .done (s.trailers, charged) s.left⟩

/-- The end of the transport was read after the last piece; the next turn answers. -/
structure AtEnd (x : Crates) (mode : BodyMode) (limits : DecodeLimits) (wire : Bytes)
    (s : Drive) : Prop where
  limits_eq : s.decoder.limits = limits
  waiting : s.decoder.Waiting s.buffer
  eof : s.eof = true
  no_pieces : s.pieces = []
  no_trailers : s.trailers = none
  run_eq : (framing x limits).run mode.start wire =
    ((framing x limits).run s.decoder.place s.buffer).emit s.payload
  used : ∃ p, (framing x limits).run s.decoder.place s.buffer = ⟨[], .more p⟩

theorem following_start (x : Crates) (mode : BodyMode) (limits : DecodeLimits)
    (pieces : List Bytes) :
    Following x mode limits pieces.flatten (start mode limits pieces) := by
  refine ⟨rfl, ?_, rfl, rfl, ?_⟩
  · cases mode <;> simp [start, BodyDecoder.withLimits, BodyDecoder.Waiting, ChunkState.Retained,
      scanLine]
  · cases mode <;> rfl

theorem run_place_of_isComplete {d : BodyDecoder} (hc : d.isComplete = true) (rest : Bytes) :
    (framing x limits).run d.place rest = ⟨[], .done (none, 0) rest⟩ := by
  have hp : d.place = .fixed 0 := by
    unfold BodyDecoder.isComplete at hc
    unfold BodyDecoder.place
    split at hc <;> simp_all
  rw [hp]
  exact run_fixed_zero x limits rest

theorem Following.turn (hx : x.HeadersWithin) (h : Following x mode limits wire s)
    (endsEof : Bool) :
    match s.turn x endsEof with
    | .inl s' =>
      (Following x mode limits wire s' ∧ s'.left.length + s'.pieces.length <
        s.left.length + s.pieces.length) ∨ Closing x mode limits wire s' ∨
        (endsEof = true ∧ AtEnd x mode limits wire s')
    | .inr r => r.Agrees (summary endsEof ((framing x limits).run mode.start wire)) := by
  obtain ⟨hlim, hw, heof, htr, hrun⟩ := h
  -- a complete decoder ends the loop, and what is left over was never looked at
  by_cases hc : s.decoder.isComplete = true
  · rw [Drive.turn, if_pos hc]
    rw [run_place_of_isComplete hc] at hrun
    simp [hrun, Transcript.emit, summary, DriveEnd.Agrees, finish, htr, left]
  rw [Drive.turn, if_neg hc, heof]
  obtain ⟨hkeep, hm⟩ := BodyDecoder.decode_means hx hw
  rw [hlim] at hkeep hm
  rcases hd : s.decoder.decode x s.buffer false with ⟨d', e | o⟩
  · rw [hd] at hm
    have hf : (framing x limits).run mode.start wire = ⟨s.payload, .failed⟩ := by
      simpa [left, Transcript.emit] using hrun.trans (congrArg (·.emit s.payload) (hm s.pieces.flatten))
    simp [hf, summary, DriveEnd.Agrees, finish]
  rw [hd] at hkeep hm
  cases o with
  | needMore c =>
    obtain ⟨hcl, hw', ⟨p, hp, -⟩, hm⟩ := hm
    have hrun' := hrun.trans (congrArg (·.emit s.payload) (hm s.pieces.flatten))
    dsimp only
    -- the next piece goes to the buffer, or the transport is at its end
    rcases hps : s.pieces with _ | ⟨piece, pieces⟩
    · rw [hps] at hrun'
      cases endsEof with
      | false =>
        have hmore : (framing x limits).run mode.start wire = ⟨s.payload, .more p⟩ := by
          simpa [hp, Transcript.emit] using hrun'
        simp [read, hmore, summary, DriveEnd.Agrees, finish]
      | true =>
        exact .inr (.inr ⟨rfl, hkeep, hw', rfl, rfl, htr, by simpa using hrun', p, hp⟩)
    · rw [hps] at hrun'
      refine .inl ⟨⟨hkeep, hw'.append piece, rfl, htr, by simpa [left] using hrun'⟩, ?_⟩
      simp only [left, hps, List.length_append, List.length_drop, List.flatten_cons,
        List.length_cons]
      omega
  | data i j c =>
    obtain ⟨hij, hjc, hcl, hw', hm⟩ := hm
    have hrun' := hrun.trans (congrArg (·.emit s.payload) (hm s.pieces.flatten))
    refine .inl ⟨⟨hkeep, hw', rfl, htr, by simpa [left] using hrun'⟩, ?_⟩
    simp only [left, List.length_append, List.length_drop]
    omega
  | trailers t c =>
    obtain ⟨hcl, hdone, hm⟩ := hm
    have hrun' := hrun.trans (congrArg (·.emit s.payload) (hm s.pieces.flatten))
    exact .inr (.inl ⟨hdone, d'.extensionBytes, by simpa [left, Transcript.emit] using hrun'⟩)
  | ended c =>
    obtain ⟨hcl, hdone, hm⟩ := hm
    have hrun' : (framing x limits).run mode.start wire =
        ⟨s.payload, .done (none, 0) (s.buffer.drop c ++ s.pieces.flatten)⟩ := by
      simpa [Transcript.emit] using hrun.trans (congrArg (·.emit s.payload) (hm s.pieces.flatten))
    simp [hrun', summary, DriveEnd.Agrees, finish, htr]

theorem Closing.turn (h : Closing x mode limits wire s) (endsEof : Bool) :
    ∃ r, s.turn x endsEof = .inr r ∧
      r.Agrees (summary endsEof ((framing x limits).run mode.start wire)) := by
  obtain ⟨hs, charged, hrun⟩ := h
  have hc : s.decoder.isComplete = true := by simp [BodyDecoder.isComplete, hs]
  refine ⟨_, by rw [Drive.turn, if_pos hc], ?_⟩
  simp [hrun, summary, DriveEnd.Agrees, finish, left]

theorem AtEnd.turn (hx : x.HeadersWithin) (h : AtEnd x mode limits wire s) :
    ∃ r, s.turn x true = .inr r ∧
      r.Agrees (summary true ((framing x limits).run mode.start wire)) := by
  obtain ⟨hlim, hw, heof, hps, htr, hrun, p, hp⟩ := h
  have hmore : (framing x limits).run mode.start wire = ⟨s.payload, .more p⟩ := by
    simpa [hp, Transcript.emit] using hrun
  have hending : ((framing x limits).run s.decoder.place s.buffer).ending = .more p := by rw [hp]
  have hplace : p.completeAtEof = s.decoder.place.completeAtEof := completeAtEof_run hending
  have hopen : s.decoder.isComplete ≠ true := by
    intro hc
    rw [run_place_of_isComplete hc] at hp
    simp at hp
  obtain ⟨d', c, hd⟩ := BodyDecoder.decode_needMore hx hw (hlim.symm ▸ hp)
  have he := BodyDecoder.decode_eof hd
  have hiff := BodyDecoder.place_completeAtEof hw
  rw [Drive.turn, if_neg hopen, heof, hmore]
  by_cases hu : s.decoder.state = .untilEof
  · rw [if_pos hu] at he
    refine ⟨_, by rw [he.2], ?_⟩
    simp [summary, DriveEnd.Agrees, finish, htr, hps, hplace, hiff.mpr hu, he.1]
  · rw [if_neg hu] at he
    rcases hr : s.decoder.decode x s.buffer true with ⟨d₁, o⟩
    rw [hr] at he
    subst he
    have hf : s.decoder.place.completeAtEof = false := by
      simpa using fun ht => hu (hiff.mp ht)
    exact ⟨_, rfl, by simp [summary, DriveEnd.Agrees, finish, hplace, hf]⟩

def Tracks (x : Crates) (mode : BodyMode) (limits : DecodeLimits) (wire : Bytes) (endsEof : Bool)
    (s : Drive) : Prop :=
  Following x mode limits wire s ∨ Closing x mode limits wire s ∨
    (endsEof = true ∧ AtEnd x mode limits wire s)

theorem tracks_of_visits (hx : x.HeadersWithin) {s₀ : Drive}
    (h₀ : Following x mode limits wire s₀) (h : Visits x endsEof s₀ s) :
    Tracks x mode limits wire endsEof s := by
  induction h with
  | start => exact .inl h₀
  | @turn s s' _ ht ih =>
    rcases ih with hf | hc | ⟨rfl, he⟩
    · have hturn := hf.turn hx endsEof
      rw [ht] at hturn
      exact hturn.imp And.left id
    · obtain ⟨r, hr, -⟩ := hc.turn endsEof
      rw [hr] at ht
      cases ht
    · obtain ⟨r, hr, -⟩ := he.turn hx
      rw [hr] at ht
      cases ht

theorem Tracks.rescan (h : Tracks x mode limits wire endsEof s) :
    s.decoder.rescan.decode x s.buffer s.eof = s.decoder.decode x s.buffer s.eof := by
  rcases h with hf | hc | ⟨-, he⟩
  · exact BodyDecoder.decode_rescan hf.waiting _
  · simp [BodyDecoder.rescan, hc.state_done]
  · exact BodyDecoder.decode_rescan he.waiting _

/-- Enough turns drive the loop to the end that the byte-level run over the wire has. -/
theorem run_of_following (hx : x.HeadersWithin) (endsEof : Bool)
    (h : Following x mode limits wire s) (fuel : ℕ)
    (hfuel : s.left.length + s.pieces.length + 2 ≤ fuel) :
    ∃ r, run x endsEof fuel s = some r ∧
      r.Agrees (summary endsEof ((framing x limits).run mode.start wire)) := by
  induction fuel generalizing s with
  | zero => omega
  | succ fuel ih =>
    have hturn := h.turn hx endsEof
    rw [run]
    cases ht : s.turn x endsEof with
    | inr r =>
      rw [ht] at hturn
      exact ⟨r, rfl, hturn⟩
    | inl s' =>
      rw [ht] at hturn
      obtain ⟨k, rfl⟩ : ∃ k, fuel = k + 1 := ⟨fuel - 1, by omega⟩
      rcases hturn with ⟨hf, hlt⟩ | hc | ⟨rfl, he⟩
      · exact ih hf (by omega)
      · obtain ⟨r, hr, ha⟩ := hc.turn endsEof
        exact ⟨r, by simp [run, hr], ha⟩
      · obtain ⟨r, hr, ha⟩ := he.turn hx
        exact ⟨r, by simp [run, hr], ha⟩

/-- Two cuts of one wire are driven to ends that agree, and on the way no call depends on the
scan offset it was given. -/
theorem run_fragmentation (x : Crates) (hx : x.HeadersWithin) (mode : BodyMode)
    (limits : DecodeLimits) (pieces pieces' : List Bytes)
    (hcut : pieces.flatten = pieces'.flatten) (endsEof : Bool) :
    (∃ fuel₀, ∀ fuel ≥ fuel₀, ∃ r r',
      run x endsEof fuel (start mode limits pieces) = some r ∧
      run x endsEof fuel (start mode limits pieces') = some r' ∧ r.Agrees r') ∧
    ∀ s, Visits x endsEof (start mode limits pieces) s →
      s.decoder.rescan.decode x s.buffer s.eof = s.decoder.decode x s.buffer s.eof := by
  have h := following_start x mode limits pieces
  have h' := following_start x mode limits pieces'
  constructor
  · refine ⟨(start mode limits pieces).turns + (start mode limits pieces').turns,
      fun fuel hfuel => ?_⟩
    simp only [turns] at hfuel
    obtain ⟨r, hr, ha⟩ := run_of_following hx endsEof h fuel (by omega)
    obtain ⟨r', hr', ha'⟩ := run_of_following hx endsEof h' fuel (by omega)
    rw [← hcut] at ha'
    refine ⟨r, r', hr, hr', ha.1.trans ha'.1.symm, ha.2.1.trans ha'.2.1.symm, fun hc => ?_⟩
    have hc' : r'.verdict = .complete := by rw [ha'.1, ← ha.1, hc]
    obtain ⟨h1, h2⟩ := ha.2.2 hc
    obtain ⟨h3, h4⟩ := ha'.2.2 hc'
    exact ⟨h1.trans h3.symm, h2.trans h4.symm⟩
  · exact fun s hs => (tracks_of_visits hx h hs).rescan

/-- A chunk with an extension, a trailer field, and the first bytes of what follows. -/
def sampleWire : Bytes := ascii "5;a=b\r\nhello\r\n0\r\nx: y\r\n\r\nGET"

theorem run_fragmentation_bytewise :
    [sampleWire].flatten = (sampleWire.map fun b => [b]).flatten ∧
    ∃ fuel₀, ∀ fuel ≥ fuel₀, ∃ r r',
      run reference false fuel (start .chunked .default [sampleWire]) = some r ∧
      run reference false fuel (start .chunked .default (sampleWire.map fun b => [b])) = some r' ∧
      r.Agrees r' := by
  have hcut : [sampleWire].flatten = (sampleWire.map fun b => [b]).flatten := by decide
  exact ⟨hcut, (run_fragmentation reference Reference.headersWithin .chunked .default _ _ hcut
    false).1⟩

end Drive

end Vakya
