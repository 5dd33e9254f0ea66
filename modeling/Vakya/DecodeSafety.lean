import Vakya.Fragmentation
import Vakya.ChunkGrammar

/-!
# Progress and ranges of the decoder

The decoder again, with its panics: slices, conversions between `u64` and `usize`, subtractions and
the assertion that each round of the inner loop makes progress. From any state that a receive loop
reaches, and on any input, none of them fails and three rounds are enough.
-/

namespace Vakya

open Library

def checkedSub (a b : ℕ) : Except Fault ℕ := if b ≤ a then .ok (a - b) else .error .underflow

/-- `u64::try_from(len).unwrap_or(u64::MAX).min(remaining)` -/
def count64 (len remaining : ℕ) : ℕ := min (if len < wordSize then len else wordSize - 1) remaining

/-- `usize::try_from(count64).expect(..)`; a `usize` is below `usizeSize`. -/
def toUsize (usizeSize count64 : ℕ) : Except Fault ℕ :=
  if count64 < usizeSize then .ok count64 else .error .conversion

/-- What holds of the length in a state: it fits a `u64`, and a chunk is left once it is empty. -/
def ChunkState.Sound : ChunkState → Prop
  | .data remaining => 0 < remaining ∧ remaining < wordSize
  | _ => True

def BodyMode.LengthFits : BodyMode → Prop
  | .fixed length => length < wordSize
  | _ => True

def DecodeOutcome.isEnd : DecodeOutcome → Bool
  | .trailers .. | .ended _ => true
  | _ => false

namespace BodyDecoder

variable (x : Crates) (usizeSize : ℕ)

def checkedParseLine (d : BodyDecoder) (input : Bytes) (scanned : ℕ) :
    Except Fault (Except DecodeError (BodyDecoder × Option (ℕ × ℕ) × ℕ)) :=
  let scanned := if input.length < scanned then 0 else scanned
  match scanLine (input.take scanned).getLast? scanned (input.drop scanned) with
  | .invalid => .ok (.error .invalidChunkSize)
  | .line index =>
    let consumed := index + 1
    if consumed > d.limits.maxChunkLineBytes then .ok (.error (.limit .chunkLineBytes))
    else do
      let line ← sliceTo input (← checkedSub index 1)
      match ← checkedChunkLine line.length line with
      | .error e => .ok (.error e)
      | .ok size =>
        match d.chargeExtensions line with
        | .error e => .ok (.error e)
        | .ok d => .ok (.ok (d, some (size, consumed), 0))
  | .unfinished =>
    if input.length > d.limits.maxChunkLineBytes then .ok (.error (.limit .chunkLineBytes))
    else .ok (.ok (d, none, input.length))

/-- The slices of `decode_trailers`; without them it is as before. -/
def checkedTrailers (d : BodyDecoder) (input : Bytes) (cursor : ℕ) (eof : Bool) (scanned : ℕ) :
    Except Fault (BodyDecoder × Except DecodeError DecodeOutcome) := do
  let available ← sliceFrom input cursor
  match d.trailerEnd available scanned with
  | .ok (some trailerBytes, _) =>
    let _ ← sliceTo available trailerBytes
    .ok (d.decodeTrailers x input cursor eof scanned)
  | _ => .ok (d.decodeTrailers x input cursor eof scanned)

def checkedIteration (d : BodyDecoder) (state : ChunkState) (cursor : ℕ) (input : Bytes) (eof : Bool) :
    Except Fault Iteration :=
  match state with
  | .size scanned => do
    match ← d.checkedParseLine (← sliceFrom input cursor) scanned with
    | .error e => .ok (.leave (d.fail e))
    | .ok (d, none, scanned) =>
      if eof then .ok (.leave (d.fail .unexpectedEof))
      else .ok (.leave ({ d with state := .chunked (.size scanned) }, .ok (.needMore cursor)))
    | .ok (d, some (size, consumed), _) =>
      .ok (.again d (if size = 0 then .trailers 0 else .data size) (cursor + consumed))
  | .data remaining =>
    if cursor = input.length then
      if eof then .ok (.leave (d.fail .unexpectedEof))
      else .ok (.leave ({ d with state := .chunked state }, .ok (.needMore cursor)))
    else do
      let count64 := count64 (← checkedSub input.length cursor) remaining
      let count ← toUsize usizeSize count64
      let remaining ← checkedSub remaining count64
      .ok (.leave ({ d with state := .chunked (if remaining = 0 then .dataCrlf else .data remaining) },
        .ok (.data cursor (cursor + count) (cursor + count))))
  | .dataCrlf => do
    let remaining ← sliceFrom input cursor
    if remaining.length < 2 then
      if remaining ≠ [] ∧ remaining.head? ≠ some CR then .ok (.leave (d.fail .invalidChunkTerminator))
      else if eof then .ok (.leave (d.fail .unexpectedEof))
      else .ok (.leave ({ d with state := .chunked state }, .ok (.needMore cursor)))
    else if (← sliceTo remaining 2) ≠ CRLF then .ok (.leave (d.fail .invalidChunkTerminator))
    else .ok (.again d (.size 0) (cursor + 2))
  | .trailers scanned => do .ok (.leave (← d.checkedTrailers x input cursor eof scanned))

/-- The inner loop, one round for each unit of fuel. The assertion compares a round with the next. -/
def checkedLoop : ℕ → BodyDecoder → ChunkState → ℕ → Bytes → Bool →
    Except Fault (BodyDecoder × Except DecodeError DecodeOutcome)
  | 0, _, _, _, _, _ => .error .outOfFuel
  | fuel + 1, d, state, cursor, input, eof => do
    match ← d.checkedIteration x usizeSize state cursor input eof with
    | .leave result => .ok result
    | .again d' state' cursor' =>
      -- `debug_assert!`: every round changes the state or the cursor
      if state' ≠ state ∨ cursor < cursor' then checkedLoop fuel d' state' cursor' input eof
      else .error .stalled

def checkedDecode (fuel : ℕ) (d : BodyDecoder) (input : Bytes) (eof : Bool) :
    Except Fault (BodyDecoder × Except DecodeError DecodeOutcome) :=
  match d.state with
  | .fixed (remaining + 1) =>
    if input ≠ [] then do
      let count64 := count64 input.length (remaining + 1)
      let count ← toUsize usizeSize count64
      .ok ({ d with state := .fixed (← checkedSub (remaining + 1) count64) }, .ok (.data 0 count count))
    else .ok (d.decode x input eof)
  | .chunked state => d.checkedLoop x usizeSize fuel state 0 input eof
  | _ => .ok (d.decode x input eof)

variable {x usizeSize} {d : BodyDecoder} {input : Bytes} {eof : Bool}

theorem count64_eq (len : ℕ) {remaining : ℕ} (h : remaining < wordSize) : count64 len remaining = min len remaining := by
  unfold count64
  split_ifs with hlen
  · rfl
  · omega

def Sound (d : BodyDecoder) : Prop :=
  match d.state with
  | .fixed remaining => remaining < wordSize
  | .chunked state => state.Sound
  | _ => True

theorem sound_sizeNext {n : ℕ} (h : n < wordSize) : (sizeNext n).Sound := by
  unfold sizeNext
  split_ifs with hzero
  · trivial
  · exact ⟨Nat.pos_of_ne_zero hzero, h⟩

theorem line_bounds {prev : Option UInt8} {index i : ℕ} {xs : Bytes} (h : scanLine prev index xs = .line i)
    (hprev : index = 0 → prev = none) : 1 ≤ i ∧ i < index + xs.length := by
  obtain ⟨before, rest, rfl, rfl, -, hcr⟩ := scanLine_line h
  simp only [List.length_append, List.length_cons]
  constructor
  · by_contra hzero
    obtain rfl : before = [] := List.eq_nil_of_length_eq_zero (by omega)
    rw [hprev (by simpa using hzero)] at hcr
    cases hcr
  · omega

theorem start_le (scanned : ℕ) : (if input.length < scanned then 0 else scanned) ≤ input.length := by
  split_ifs <;> omega

theorem scan_bounds {scanned i : ℕ} (hle : scanned ≤ input.length)
    (h : scanLine (input.take scanned).getLast? scanned (input.drop scanned) = .line i) :
    1 ≤ i ∧ i < input.length := by
  have hbounds := line_bounds h (fun hzero => by simp [hzero])
  rw [List.length_drop] at hbounds
  omega

theorem checkedParseLine_eq (scanned : ℕ) :
    d.checkedParseLine input scanned = .ok (d.parseChunkLine input scanned) := by
  simp only [checkedParseLine, parseChunkLine]
  have hle : (if input.length < scanned then 0 else scanned) ≤ input.length := start_le scanned
  set start := if input.length < scanned then 0 else scanned
  cases hs : scanLine (input.take start).getLast? start (input.drop start) with
  | invalid => rfl
  | unfinished =>
    dsimp only
    split_ifs
    · rfl
    · rfl
  | line index =>
    dsimp only
    obtain ⟨hpos, hlt⟩ := scan_bounds hle hs
    have hsub : checkedSub index 1 = .ok (index - 1) := if_pos hpos
    have hslice : sliceTo input (index - 1) = .ok (input.take (index - 1)) := if_pos (by omega)
    split_ifs
    · rfl
    · simp only [hsub, ok_bind, hslice, checkedChunkLine_eq le_rfl]
      cases Vakya.parseChunkLine (input.take (index - 1)) with
      | error e => rfl
      | ok size =>
        dsimp only
        cases d.chargeExtensions (input.take (index - 1)) with
        | error e => rfl
        | ok d' => rfl

theorem trailerEnd_le {scanned n k : ℕ} (h : d.trailerEnd input scanned = .ok (some n, k)) : n ≤ input.length := by
  simp only [trailerEnd] at h
  split at h
  · rename_i index hfind
    cases h
    have hmem := List.mem_of_find?_eq_some hfind
    simp only [List.mem_range'_1] at hmem
    omega
  · split_ifs at h
    cases h

theorem checkedTrailers_eq {cursor : ℕ} (hc : cursor ≤ input.length) (scanned : ℕ) :
    d.checkedTrailers x input cursor eof scanned = .ok (d.decodeTrailers x input cursor eof scanned) := by
  simp only [checkedTrailers, sliceFrom_eq hc, ok_bind]
  rcases hend : d.trailerEnd (input.drop cursor) scanned with e | ⟨_ | n, k⟩
  · rfl
  · rfl
  · have hslice : sliceTo (input.drop cursor) n = .ok ((input.drop cursor).take n) := if_pos (trailerEnd_le hend)
    simp only [hslice, ok_bind]

theorem checkedIteration_eq {state : ChunkState} {cursor : ℕ} (h : state.Sound)
    (hc : cursor ≤ input.length) (hlen : input.length < usizeSize) :
    d.checkedIteration x usizeSize state cursor input eof = .ok (chunkIteration x d state cursor input eof) := by
  cases state with
  | size scanned =>
    simp only [checkedIteration, chunkIteration, sliceFrom_eq hc, ok_bind, checkedParseLine_eq]
    rcases d.parseChunkLine (input.drop cursor) scanned with e | ⟨d', _ | ⟨n, c⟩, s⟩
    · rfl
    · dsimp only
      split_ifs
      · rfl
      · rfl
    · rfl
  | data remaining =>
    simp only [checkedIteration, chunkIteration]
    by_cases hend : cursor = input.length
    · rw [if_pos hend, if_pos hend]
      cases eof with
      | true => rfl
      | false => rfl
    · rw [if_neg hend, if_neg hend]
      have hsub : checkedSub input.length cursor = .ok (input.length - cursor) := if_pos hc
      have hcount := count64_eq (input.length - cursor) h.2
      have hsize : toUsize usizeSize (min (input.length - cursor) remaining) =
          .ok (min (input.length - cursor) remaining) := if_pos (by omega)
      have hleft : checkedSub remaining (min (input.length - cursor) remaining) =
          .ok (remaining - min (input.length - cursor) remaining) := if_pos (by omega)
      simp only [hsub, ok_bind, hcount, hsize, hleft]
  | dataCrlf =>
    simp only [checkedIteration, chunkIteration, sliceFrom_eq hc, ok_bind]
    split_ifs with hshort hother heof hterm
    · rfl
    · rfl
    · rfl
    · have hslice : sliceTo (input.drop cursor) 2 = .ok ((input.drop cursor).take 2) := if_pos (by omega)
      simp only [hslice, ok_bind, if_pos hterm]
    · have hslice : sliceTo (input.drop cursor) 2 = .ok ((input.drop cursor).take 2) := if_pos (by omega)
      simp only [hslice, ok_bind, if_neg hterm]
  | trailers scanned =>
    simp only [checkedIteration, chunkIteration, checkedTrailers_eq hc, ok_bind]

/-- What a call reports about `input`: ranges inside it, and no wish for more after its end. -/
def Ranged (input : Bytes) (eof : Bool) : Except DecodeError DecodeOutcome → Prop
  | .ok (.data start stop consumed) => start < stop ∧ stop ≤ consumed ∧ consumed ≤ input.length
  | .ok (.needMore consumed) => consumed ≤ input.length ∧ eof = false
  | .ok (.trailers _ consumed) => consumed ≤ input.length
  | .ok (.ended consumed) => consumed ≤ input.length
  | .error _ => True

/-- The result of a call: sound again, in range, and an error is what the decoder now holds. -/
structure Behaves (input : Bytes) (eof : Bool) (r : BodyDecoder × Except DecodeError DecodeOutcome) : Prop where
  sound : r.1.Sound
  ranged : Ranged input eof r.2
  holds : ∀ e, r.2 = .error e → r.1.state = .failed e

theorem behaves_fail (e : DecodeError) : Behaves input eof (d.fail e) := by
  refine ⟨trivial, trivial, ?_⟩
  intro e' h
  cases h
  rfl

theorem behaves_ok {o : DecodeOutcome} (hs : d.Sound) (ho : Ranged input eof (.ok o)) :
    Behaves input eof (d, .ok o) := by
  refine ⟨hs, ho, ?_⟩
  intro e h
  cases h

theorem parseChunkLine_bounds {scanned n c k : ℕ} {d' : BodyDecoder}
    (h : d.parseChunkLine input scanned = .ok (d', some (n, c), k)) : n < wordSize ∧ 0 < c ∧ c ≤ input.length := by
  simp only [parseChunkLine] at h
  have hle : (if input.length < scanned then 0 else scanned) ≤ input.length := start_le scanned
  set start := if input.length < scanned then 0 else scanned
  cases hs : scanLine (input.take start).getLast? start (input.drop start) with
  | invalid =>
    rw [hs] at h
    cases h
  | unfinished =>
    rw [hs] at h
    dsimp only at h
    split_ifs at h
    cases h
  | line index =>
    rw [hs] at h
    dsimp only at h
    split_ifs at h
    obtain ⟨-, hlt⟩ := scan_bounds hle hs
    split at h
    · cases h
    · rename_i size hparse
      split at h
      · cases h
      · cases h
        obtain ⟨-, -, -, -, -, -, -, hword, -⟩ := parseChunkLine_iff.mp hparse
        exact ⟨hword, Nat.succ_pos _, hlt⟩

theorem behaves_decodeTrailers (hx : x.HeadersWithin) {cursor : ℕ} (hc : cursor ≤ input.length) (scanned : ℕ) :
    Behaves input eof (d.decodeTrailers x input cursor eof scanned) := by
  simp only [decodeTrailers]
  rcases hend : d.trailerEnd (input.drop cursor) scanned with e | ⟨_ | n, k⟩
  · exact behaves_fail e
  · cases eof with
    | true => exact behaves_fail _
    | false => exact behaves_ok trivial ⟨hc, rfl⟩
  · dsimp only
    cases hparse : parseTrailers x d.limits.maxTrailers ((input.drop cursor).take n) with
    | error e => exact behaves_fail e
    | ok parsed =>
      obtain ⟨consumed, trailers⟩ := parsed
      have hle := consumed_le_of_parseTrailers hx hparse
      simp only [List.length_take, List.length_drop] at hle
      refine behaves_ok trivial ?_
      simp only [Ranged]
      omega

/-- One round: the cursor moves or the state changes, and the state stays sound. -/
theorem chunkIteration_behaves (hx : x.HeadersWithin) (d : BodyDecoder) (eof : Bool) {state : ChunkState} {cursor : ℕ}
    (h : state.Sound) (hc : cursor ≤ input.length) :
    match chunkIteration x d state cursor input eof with
    | .again _ s' c' => s'.Sound ∧ c' ≤ input.length ∧ s' ≠ state ∧ cursor < c'
    | .leave r => Behaves input eof r := by
  cases state with
  | size scanned =>
    simp only [chunkIteration]
    rcases hp : d.parseChunkLine (input.drop cursor) scanned with e | ⟨d', _ | ⟨n, c⟩, s⟩
    · exact behaves_fail e
    · cases eof with
      | true => exact behaves_fail _
      | false => exact behaves_ok trivial ⟨hc, rfl⟩
    · obtain ⟨hword, hpos, hle⟩ := parseChunkLine_bounds hp
      rw [List.length_drop] at hle
      refine ⟨sound_sizeNext hword, by omega, ?_, by omega⟩
      split_ifs
      · intro heq
        cases heq
      · intro heq
        cases heq
  | data remaining =>
    obtain ⟨hpos, hword⟩ := h
    simp only [chunkIteration]
    by_cases hend : cursor = input.length
    · rw [if_pos hend]
      cases eof with
      | true => exact behaves_fail _
      | false => exact behaves_ok ⟨hpos, hword⟩ ⟨hc, rfl⟩
    · rw [if_neg hend]
      refine behaves_ok ?_ ?_
      · simp only [Sound]
        split_ifs with hdone
        · trivial
        · exact ⟨Nat.pos_of_ne_zero hdone, by omega⟩
      · simp only [Ranged]
        omega
  | dataCrlf =>
    simp only [chunkIteration]
    split_ifs with hshort hother heof hterm
    · exact behaves_fail _
    · exact behaves_fail _
    · exact behaves_ok trivial ⟨hc, by simpa using heof⟩
    · exact behaves_fail _
    · rw [List.length_drop] at hshort
      refine ⟨trivial, by omega, ?_, by omega⟩
      intro heq
      cases heq
  | trailers scanned => exact behaves_decodeTrailers hx hc scanned

theorem chunkLoop_behaves (hx : x.HeadersWithin) {state : ChunkState} {cursor : ℕ}
    (h : state.Sound) (hc : cursor ≤ input.length) :
    Behaves input eof (d.chunkLoop x state cursor input eof) := by
  induction hn : state.rank using Nat.strong_induction_on generalizing d state cursor with
  | _ n ih =>
  have hstep := chunkIteration_behaves hx d eof h hc
  rw [chunkLoop_eq]
  cases hi : chunkIteration x d state cursor input eof with
  | again d' s' c' =>
    rw [hi] at hstep
    exact ih s'.rank (hn ▸ rank_lt_of_again hi) hstep.1 hstep.2.1 rfl
  | leave r =>
    rw [hi] at hstep
    exact hstep

/-- More rounds than the rank of the state are enough. -/
theorem checkedLoop_eq (hx : x.HeadersWithin) {fuel : ℕ} {state : ChunkState} {cursor : ℕ}
    (h : state.Sound) (hc : cursor ≤ input.length) (hlen : input.length < usizeSize)
    (hfuel : state.rank < fuel) :
    d.checkedLoop x usizeSize fuel state cursor input eof = .ok (d.chunkLoop x state cursor input eof) := by
  induction fuel generalizing d state cursor with
  | zero => omega
  | succ fuel ih =>
    have hstep := chunkIteration_behaves hx d eof h hc
    rw [checkedLoop, checkedIteration_eq h hc hlen, chunkLoop_eq]
    simp only [ok_bind]
    cases hi : chunkIteration x d state cursor input eof with
    | again d' s' c' =>
      rw [hi] at hstep
      obtain ⟨hs', hc', hne, -⟩ := hstep
      have hrank := rank_lt_of_again hi
      simp only [if_pos (Or.inl hne : s' ≠ state ∨ cursor < c')]
      exact ih hs' hc' (by omega)
    | leave r => rfl

theorem rank_lt_three (state : ChunkState) : state.rank < 3 := by
  cases state <;> simp [ChunkState.rank]

/-- A call neither panics nor runs out of rounds. -/
theorem checkedDecode_eq (hx : x.HeadersWithin) (h : d.Sound) (hlen : input.length < usizeSize) :
    d.checkedDecode x usizeSize 3 input eof = .ok (d.decode x input eof) := by
  unfold checkedDecode
  cases hs : d.state with
  | fixed remaining =>
    cases remaining with
    | zero => rfl
    | succ remaining =>
      have hword : remaining + 1 < wordSize := by simpa [Sound, hs] using h
      simp only [decode, hs]
      split_ifs with hne heof
      · have hcount := count64_eq input.length hword
        have hsize : toUsize usizeSize (min input.length (remaining + 1)) =
            .ok (min input.length (remaining + 1)) := if_pos (by omega)
        have hleft : checkedSub (remaining + 1) (min input.length (remaining + 1)) =
            .ok (remaining + 1 - min input.length (remaining + 1)) := if_pos (by omega)
        simp only [hcount, hsize, hleft, ok_bind]
      · rfl
      · rfl
  | chunked state =>
    have hstate : state.Sound := by simpa [Sound, hs] using h
    simp only [decode, hs, decodeChunked]
    exact checkedLoop_eq hx hstate (Nat.zero_le _) hlen (rank_lt_three state)
  | empty => rfl
  | untilEof => rfl
  | done => rfl
  | failed e => rfl

theorem decode_behaves (hx : x.HeadersWithin) (h : d.Sound) (input : Bytes) (eof : Bool) :
    Behaves input eof (d.decode x input eof) := by
  cases hs : d.state with
  | empty =>
    simp only [decode, hs]
    exact behaves_ok trivial (Nat.zero_le _)
  | fixed remaining =>
    have hword : remaining < wordSize := by simpa [Sound, hs] using h
    cases remaining with
    | zero =>
      simp only [decode, hs]
      exact behaves_ok trivial (Nat.zero_le _)
    | succ remaining =>
      simp only [decode, hs]
      split_ifs with hne heof
      · have hpos := List.length_pos_iff.mpr hne
        refine behaves_ok ?_ ?_
        · simp only [Sound]
          omega
        · simp only [Ranged]
          omega
      · exact behaves_fail _
      · exact behaves_ok h ⟨Nat.zero_le _, by simpa using heof⟩
  | chunked state =>
    have hstate : state.Sound := by simpa [Sound, hs] using h
    simp only [decode, hs, decodeChunked]
    exact chunkLoop_behaves hx hstate (Nat.zero_le _)
  | untilEof =>
    simp only [decode, hs]
    split_ifs with hne heof heof
    · exact behaves_ok trivial ⟨List.length_pos_iff.mpr hne, le_rfl, le_rfl⟩
    · exact behaves_ok trivial ⟨List.length_pos_iff.mpr hne, le_rfl, le_rfl⟩
    · exact behaves_ok trivial (Nat.zero_le _)
    · exact behaves_ok h ⟨Nat.zero_le _, by simpa using heof⟩
  | done =>
    simp only [decode, hs]
    exact behaves_ok h (Nat.zero_le _)
  | failed e =>
    simp only [decode, hs]
    refine ⟨h, trivial, ?_⟩
    intro e' he
    cases he
    exact hs

theorem decode_failed {e : DecodeError} (h : d.state = .failed e) (input : Bytes) (eof : Bool) :
    d.decode x input eof = (d, .error e) := by
  simp only [decode, h]

/-- A decoder, what has been consumed, what is retained, and whether the reads have ended. Each call
is given the retained bytes; the reported part of them is dropped before the next call. -/
inductive Driven (x : Crates) (mode : BodyMode) (limits : DecodeLimits) :
    BodyDecoder → Bytes → Bytes → Bool → Prop
  | start : Driven x mode limits (withLimits mode limits) [] [] false
  | read {d : BodyDecoder} {front rest : Bytes} (piece : Bytes) : Driven x mode limits d front rest false →
      Driven x mode limits d front (rest ++ piece) false
  | readEof {d : BodyDecoder} {front rest : Bytes} {eof : Bool} : Driven x mode limits d front rest eof →
      Driven x mode limits d front rest true
  | call {d d' : BodyDecoder} {front rest : Bytes} {eof : Bool} {o : DecodeOutcome} :
      Driven x mode limits d front rest eof → d.decode x rest eof = (d', .ok o) →
      Driven x mode limits d' (front ++ rest.take o.consumed) (rest.drop o.consumed) eof
  | failed {d d' : BodyDecoder} {front rest : Bytes} {eof : Bool} {e : DecodeError} :
      Driven x mode limits d front rest eof → d.decode x rest eof = (d', .error e) →
      Driven x mode limits d' front rest eof

/-- The bytes read so far hold a whole body, or the end of the transport completes it. -/
def FramingComplete (t : BodyRun) (eof : Bool) : Prop :=
  (∃ r back, t.ending = .done r back) ∨ (eof = true ∧ ∃ p, t.ending = .more p ∧ p.completeAtEof = true)

variable {mode : BodyMode} {limits : DecodeLimits} {front rest : Bytes}

theorem FramingComplete.read {t : Place} {bytes : Bytes}
    (h : FramingComplete ((framing x limits).run t bytes) false) (piece : Bytes) :
    FramingComplete ((framing x limits).run t (bytes ++ piece)) false := by
  rcases h with ⟨r, back, hdone⟩ | ⟨hfalse, -⟩
  · refine .inl ⟨r, back ++ piece, ?_⟩
    have hrun : (framing x limits).run t bytes = ⟨((framing x limits).run t bytes).output, .done r back⟩ := by
      rw [← hdone]
    rw [Transducer.run_append_of_done _ hrun]
  · cases hfalse

theorem FramingComplete.readEof {t : BodyRun} (h : FramingComplete t eof) : FramingComplete t true := by
  rcases h with hdone | ⟨-, hmore⟩
  · exact .inl hdone
  · exact .inr ⟨rfl, hmore⟩

/-- Where a driven decoder stands in the body. -/
inductive Stands (x : Crates) (mode : BodyMode) (limits : DecodeLimits) (d : BodyDecoder) (front rest : Bytes)
    (eof : Bool) : Prop
  | waiting (out : Bytes) : d.limits = limits → d.Waiting rest →
      (∀ w, (framing x limits).run mode.start (front ++ (rest ++ w)) =
        ((framing x limits).run d.place (rest ++ w)).emit out) → Stands x mode limits d front rest eof
  | done : d.state = .done → FramingComplete ((framing x limits).run mode.start (front ++ rest)) eof →
      Stands x mode limits d front rest eof
  | failed (e : DecodeError) : d.state = .failed e → Stands x mode limits d front rest eof

structure Answers (x : Crates) (mode : BodyMode) (limits : DecodeLimits) (front rest : Bytes) (eof : Bool)
    (r : BodyDecoder × Except DecodeError DecodeOutcome) : Prop where
  stands : ∀ o, r.2 = .ok o → Stands x mode limits r.1 (front ++ rest.take o.consumed)
    (rest.drop o.consumed) eof
  complete : ∀ o, r.2 = .ok o → o.isEnd = true →
    FramingComplete ((framing x limits).run mode.start (front ++ rest)) eof

theorem answers_ok {o : DecodeOutcome}
    (hs : Stands x mode limits d (front ++ rest.take o.consumed) (rest.drop o.consumed) eof)
    (hc : o.isEnd = true → FramingComplete ((framing x limits).run mode.start (front ++ rest)) eof) :
    Answers x mode limits front rest eof (d, .ok o) := by
  constructor
  · intro o' ho
    cases ho
    exact hs
  · intro o' ho
    cases ho
    exact hc

theorem answers_error {e : DecodeError} : Answers x mode limits front rest eof (d, .error e) := by
  constructor
  · exact nofun
  · exact nofun

theorem answers_end {o : DecodeOutcome} (hd : d.state = .done)
    (hc : FramingComplete ((framing x limits).run mode.start (front ++ rest)) eof) :
    Answers x mode limits front rest eof (d, .ok o) := by
  refine answers_ok (.done hd ?_) (fun _ => hc)
  rw [List.append_assoc, List.take_append_drop]
  exact hc

theorem answers_of_means (eof : Bool) {p : Place} {out : Bytes} {r : BodyDecoder × Except DecodeError DecodeOutcome}
    (hrun : ∀ w, (framing x limits).run mode.start (front ++ (rest ++ w)) =
      ((framing x limits).run p (rest ++ w)).emit out)
    (hlimits : r.1.limits = limits) (h : Means x limits p rest 0 r) :
    Answers x mode limits front rest eof r := by
  obtain ⟨d', e | o⟩ := r
  · exact answers_error
  have hjoin (c : ℕ) (w : Bytes) : front ++ rest.take c ++ (rest.drop c ++ w) = front ++ (rest ++ w) := by
    rw [List.append_assoc, ← List.append_assoc (rest.take c), List.take_append_drop]
  cases o with
  | needMore c =>
    obtain ⟨hc, hw, -, hm⟩ := h
    refine answers_ok (.waiting out hlimits hw ?_) (fun hend => by cases hend)
    intro w
    rw [hjoin, hrun, ← List.drop_zero (l := rest), hm w]
    rfl
  | data i j c =>
    obtain ⟨hij, hjc, hc, hw, hm⟩ := h
    refine answers_ok (.waiting (out ++ (rest.take j).drop i) hlimits hw ?_) (fun hend => by cases hend)
    intro w
    have hmw := hm w
    rw [List.drop_zero] at hmw
    rw [hjoin, hrun, hmw, Transcript.emit_emit]
    rfl
  | trailers t c =>
    obtain ⟨hc, hdone, hm⟩ := h
    refine answers_end hdone (.inl ⟨(some t, d'.extensionBytes), rest.drop c, ?_⟩)
    have hmw := hm []
    have hall := hrun []
    simp only [List.drop_zero, List.append_nil] at hmw hall
    rw [hall, hmw]
    rfl
  | ended c =>
    obtain ⟨hc, hdone, hm⟩ := h
    refine answers_end hdone (.inl ⟨(none, 0), rest.drop c, ?_⟩)
    have hmw := hm []
    have hall := hrun []
    simp only [List.drop_zero, List.append_nil] at hmw hall
    rw [hall, hmw]
    rfl

theorem decode_atEof (h : d.state ≠ .untilEof) (b : Bytes) : AtEof (d.decode x b false) (d.decode x b true) := by
  cases hs : d.state with
  | empty =>
    simp only [decode, hs]
    rfl
  | fixed remaining =>
    cases remaining with
    | zero =>
      simp only [decode, hs]
      rfl
    | succ remaining =>
      simp only [decode, hs]
      by_cases hb : b = []
      · simp [hb, AtEof, fail]
      · simp [hb, AtEof]
  | chunked state =>
    simp only [decode, hs, decodeChunked]
    exact chunkLoop_eof d state 0
  | untilEof => exact absurd hs h
  | done =>
    simp only [decode, hs]
    rfl
  | failed e =>
    simp only [decode, hs]
    rfl

theorem answers_untilEof {out : Bytes} (hs : d.state = .untilEof)
    (hrun : ∀ w, (framing x limits).run mode.start (front ++ (rest ++ w)) =
      ((framing x limits).run d.place (rest ++ w)).emit out) :
    Answers x mode limits front rest true (d.decode x rest true) := by
  have hplace : d.place = .untilEof := by simp [place, hs]
  have hcomplete : FramingComplete ((framing x limits).run mode.start (front ++ rest)) true := by
    refine .inr ⟨rfl, .untilEof, ?_, rfl⟩
    have hall := hrun []
    have hread := run_untilEof x limits rest []
    rw [run_nil rfl, List.append_nil] at hread
    rw [List.append_nil, hplace, hread] at hall
    rw [hall]
    rfl
  simp only [decode, hs, if_true]
  split_ifs with hne
  · exact answers_end rfl hcomplete
  · exact answers_end rfl hcomplete

theorem Stands.answers (hx : x.HeadersWithin) (h : Stands x mode limits d front rest eof) :
    Answers x mode limits front rest eof (d.decode x rest eof) := by
  cases h with
  | waiting out hlimits hw hrun =>
    obtain ⟨hkeep, hmeans⟩ := decode_means hx hw
    have hopen := answers_of_means eof hrun (hkeep.trans hlimits) (hlimits ▸ hmeans)
    cases eof with
    | false => exact hopen
    | true =>
      by_cases hu : d.state = .untilEof
      · exact answers_untilEof hu hrun
      · have hboth := decode_atEof (x := x) hu rest
        rcases hd : d.decode x rest false with ⟨d', e | o⟩
        · rw [hd] at hboth hopen
          rw [show d.decode x rest true = _ from hboth]
          exact hopen
        · rw [hd] at hboth hopen
          cases o with
          | needMore c =>
            rcases hd' : d.decode x rest true with ⟨d'', o'⟩
            rw [hd'] at hboth
            obtain rfl : o' = .error .unexpectedEof := hboth
            exact answers_error
          | _ =>
            rw [show d.decode x rest true = _ from hboth]
            exact hopen
  | done hdone hcomplete =>
    simp only [decode, hdone]
    exact answers_end hdone hcomplete
  | failed e he =>
    rw [decode_failed he]
    exact answers_error

theorem waiting_start : (withLimits mode limits).Waiting [] := by
  cases mode with
  | chunked => exact ⟨le_rfl, rfl⟩
  | _ => trivial

theorem Driven.sound (hx : x.HeadersWithin) (hmode : mode.LengthFits)
    (h : Driven x mode limits d front rest eof) : d.Sound := by
  induction h with
  | start =>
    cases mode with
    | fixed length => exact hmode
    | _ => trivial
  | read _ _ ih => exact ih
  | readEof _ ih => exact ih
  | @call d d' front rest eof o _ hd ih =>
    have hbehaves := decode_behaves hx ih rest eof
    rw [hd] at hbehaves
    exact hbehaves.sound
  | @failed d d' front rest eof e _ hd ih =>
    have hbehaves := decode_behaves hx ih rest eof
    rw [hd] at hbehaves
    exact hbehaves.sound

theorem Driven.stands (hx : x.HeadersWithin) (hmode : mode.LengthFits) (h : Driven x mode limits d front rest eof) :
    Stands x mode limits d front rest eof := by
  induction h with
  | start =>
    refine .waiting [] rfl waiting_start ?_
    intro w
    cases mode <;> rfl
  | read piece _ ih =>
    cases ih with
    | waiting out hlimits hw hrun =>
      refine .waiting out hlimits (hw.append piece) ?_
      intro w
      rw [List.append_assoc]
      exact hrun (piece ++ w)
    | done hdone hcomplete =>
      refine .done hdone ?_
      rw [← List.append_assoc]
      exact hcomplete.read piece
    | failed e he => exact .failed e he
  | readEof _ ih =>
    cases ih with
    | waiting out hlimits hw hrun => exact .waiting out hlimits hw hrun
    | done hdone hcomplete => exact .done hdone hcomplete.readEof
    | failed e he => exact .failed e he
  | call _ hd ih =>
    have hanswers := ih.answers hx
    rw [hd] at hanswers
    exact hanswers.stands _ rfl
  | @failed d d' front rest eof e hdriven hd _ =>
    have hbehaves := decode_behaves hx (hdriven.sound hx hmode) rest eof
    rw [hd] at hbehaves
    exact .failed e (hbehaves.holds e rfl)

/-- Calls at the end of the transport, until one does not ask for another. -/
def drain (x : Crates) : ℕ → BodyDecoder → Bytes → Option (Except DecodeError DecodeOutcome)
  | 0, _, _ => none
  | fuel + 1, d, input =>
    match d.decode x input true with
    | (d', .ok (.data _ _ consumed)) => drain x fuel d' (input.drop consumed)
    | (d', .ok (.needMore consumed)) => drain x fuel d' (input.drop consumed)
    | (_, result) => some result

def Settled : Except DecodeError DecodeOutcome → Prop
  | .ok o => o.isEnd = true
  | .error _ => True

theorem drain_settles (hx : x.HeadersWithin) {fuel : ℕ} (h : d.Sound) (hfuel : input.length < fuel) :
    ∃ result, drain x fuel d input = some result ∧ Settled result := by
  induction fuel generalizing d input with
  | zero => omega
  | succ fuel ih =>
    have hbehaves := decode_behaves hx h input true
    rw [drain]
    rcases hd : d.decode x input true with ⟨d', e | o⟩
    · exact ⟨_, rfl, trivial⟩
    · rw [hd] at hbehaves
      obtain ⟨hsound, hranged, -⟩ := hbehaves
      cases o with
      | needMore c => cases hranged.2
      | data i j c =>
        obtain ⟨hij, hjc, hc⟩ := hranged
        refine ih hsound ?_
        rw [List.length_drop]
        omega
      | trailers t c => exact ⟨_, rfl, rfl⟩
      | ended c => exact ⟨_, rfl, rfl⟩

/-- Every state that a receive loop reaches, on every input: the call returns without a panic, its
ranges lie in the input, it does not wait after the end of the transport, an error stays, and
repeated calls come to an end. The end is reported only for complete framing. -/
theorem decoder_progress (x : Crates) (hx : x.HeadersWithin) (mode : BodyMode) (hmode : mode.LengthFits)
    (limits : DecodeLimits) {d : BodyDecoder} {front rest : Bytes} {eof : Bool}
    (h : Driven x mode limits d front rest eof) :
    (∀ usizeSize input eof', input.length < usizeSize →
      d.checkedDecode x usizeSize 3 input eof' = .ok (d.decode x input eof')) ∧
    (∀ input eof', Ranged input eof' (d.decode x input eof').2) ∧
    (∀ input eof' e, (d.decode x input eof').2 = .error e →
      ∀ later eof'', ((d.decode x input eof').1.decode x later eof'').2 = .error e) ∧
    (∀ o, (d.decode x rest eof).2 = .ok o → o.isEnd = true →
      FramingComplete ((framing x limits).run mode.start (front ++ rest)) eof) ∧
    ∀ input fuel, input.length < fuel → ∃ result, drain x fuel d input = some result ∧ Settled result := by
  have hsound := h.sound hx hmode
  refine ⟨?_, ?_, ?_, ?_, ?_⟩
  · intro usizeSize input eof' hlen
    exact checkedDecode_eq hx hsound hlen
  · intro input eof'
    exact (decode_behaves hx hsound _ _).ranged
  · intro input eof' e he later eof''
    rw [decode_failed ((decode_behaves hx hsound _ _).holds e he)]
  · exact ((h.stands hx hmode).answers hx).complete
  · intro input fuel hfuel
    exact drain_settles hx hsound hfuel

/-- A chunk of two bytes of which one has come, then the end of the transport. -/
theorem decoder_progress_sample : ∃ d, Driven reference .chunked .default d (ascii "2\r\na") [] true ∧
    drain reference 1 d [] = some (.error .unexpectedEof) ∧
    ∃ result, drain reference 1 d [] = some result ∧ Settled result := by
  have hcall : ((withLimits .chunked .default).decode reference (ascii "2\r\na") false).2 = .ok (.data 3 4 4) := by
    decide +kernel
  have hdriven : Driven reference .chunked .default
      ((withLimits .chunked .default).decode reference (ascii "2\r\na") false).1 (ascii "2\r\na") [] true := by
    have hstart : Driven reference .chunked .default (withLimits .chunked .default) [] [] false := .start
    have hread := hstart.read (ascii "2\r\na")
    exact (hread.call (o := .data 3 4 4) (Prod.ext rfl hcall)).readEof
  refine ⟨_, hdriven, by decide +kernel, ?_⟩
  exact (decoder_progress reference Reference.headersWithin .chunked trivial .default hdriven).2.2.2.2 [] 1 Nat.one_pos

end BodyDecoder

end Vakya
