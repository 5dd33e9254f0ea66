import Vakya.Framing
import Mathlib.Data.List.Infix

/-!
# The decoder refines the byte-level framing

Each call of `decode` is an abbreviation of byte-level steps: the place it
starts from, run over the retained input and whatever follows, is the place it
leaves, run over what it did not consume. The scan offsets only say how much of
the retained input is known to be unfinished.
-/

namespace Vakya

open Library

def ChunkState.place (charged : ℕ) : ChunkState → Place
  | .size _ => .size [] charged
  | .data remaining => .data remaining charged
  | .dataCrlf => .crlf false charged
  | .trailers _ => .trailers [] charged

/-- What a chunk state remembers about the retained input: its scanned part holds no line end. -/
def ChunkState.Retained (b : Bytes) : ChunkState → Prop
  | .size scanned => scanned ≤ b.length ∧ scanLine none 0 (b.take scanned) = .unfinished
  | .data remaining => 0 < remaining
  | .dataCrlf => True
  | .trailers scanned => scanned ≤ b.length ∧ ∀ i < scanned, emptyLineAt b i = false

theorem ChunkState.Retained.append {s : ChunkState} {b : Bytes} (h : s.Retained b) (w : Bytes) :
    s.Retained (b ++ w) := by
  cases s with
  | size scanned =>
    obtain ⟨hl, hs⟩ := h
    exact ⟨by simp; omega, by rwa [List.take_append_of_le_length hl]⟩
  | data remaining => exact h
  | dataCrlf => trivial
  | trailers scanned =>
    obtain ⟨hl, hs⟩ := h
    exact ⟨by simp; omega, fun i hi => by
      rw [emptyLineAt_append (by omega)]
      exact hs i hi⟩

namespace BodyDecoder

variable {x : Crates} {d d' : BodyDecoder}

/-- The byte-level place at the front of the retained input. A decoder that has ended is past it. -/
def place (d : BodyDecoder) : Place :=
  match d.state with
  | .empty => .fixed 0
  | .fixed remaining => .fixed remaining
  | .chunked state => state.place d.extensionBytes
  | .untilEof => .untilEof
  | .done | .failed _ => .fixed 0

/-- The decoder has not ended, and its scan offset fits the retained input. -/
def Waiting (d : BodyDecoder) (b : Bytes) : Prop :=
  match d.state with
  | .chunked state => state.Retained b
  | .done | .failed _ => False
  | _ => True

theorem Waiting.append {b : Bytes} (h : d.Waiting b) (w : Bytes) : d.Waiting (b ++ w) := by
  unfold Waiting at *
  cases hs : d.state with
  | chunked state =>
    rw [hs] at h
    exact ChunkState.Retained.append h w
  | done => simp [hs] at h
  | failed e => simp [hs] at h
  | _ => trivial

/-- Resuming a line scan finds what a scan of the whole input finds. -/
theorem parseChunkLine_rescan {b : Bytes} {scanned : ℕ}
    (h : (ChunkState.size scanned).Retained b) :
    d.parseChunkLine b scanned = d.parseChunkLine b 0 := by
  obtain ⟨hl, hs⟩ := h
  have hscan : scanLine (b.take scanned).getLast? scanned (b.drop scanned) =
      scanLine none 0 b := by
    have h1 := scanLine_append none 0 (b.take scanned) (b.drop scanned) hs
    rw [List.take_append_drop, List.length_take_of_le hl] at h1
    simpa using h1.symm
  simp only [parseChunkLine, if_neg (by omega : ¬ b.length < scanned), hscan]
  simp

/-- Resuming a trailer scan finds what a scan of the whole input finds. -/
theorem trailerEnd_rescan {b : Bytes} {scanned : ℕ}
    (h : (ChunkState.trailers scanned).Retained b) :
    d.trailerEnd b scanned = d.trailerEnd b 0 := by
  obtain ⟨hl, hs⟩ := h
  set bounded := min b.length d.limits.maxTrailerBytes with hb
  have hfind : (List.range' 0 bounded).find? (emptyLineAt b ·) =
      (List.range' (min scanned bounded) (bounded - min scanned bounded)).find?
        (emptyLineAt b ·) := by
    have hsplit : List.range' 0 bounded = List.range' 0 (min scanned bounded) ++
        List.range' (min scanned bounded) (bounded - min scanned bounded) := by
      conv_rhs => arg 2; rw [← Nat.zero_add (min scanned bounded)]
      rw [List.range'_append_1]
      congr 1
      omega
    rw [hsplit, List.find?_append, List.find?_eq_none.mpr, Option.none_or]
    intro i hi
    simp only [List.mem_range'_1] at hi
    simp [hs i (by omega)]
  simp only [trailerEnd, if_neg (by omega : ¬ b.length < scanned), ← hb, Nat.not_lt_zero,
    if_false, Nat.zero_min, Nat.sub_zero, hfind]

theorem extensionLen_of_idxOf? (line : Bytes) :
    (line.idxOf? SEMICOLON = none → extensionLen line = 0) ∧
      ∀ start, line.idxOf? SEMICOLON = some start →
        extensionLen line = line.length - start ∧ extensionLen line ≠ 0 := by
  induction line with
  | nil => simp [extensionLen]
  | cons b bs ih =>
    by_cases hb : b = SEMICOLON
    · simp [List.idxOf?_cons, hb, extensionLen]
    · have he : extensionLen (b :: bs) = extensionLen bs := by
        simp [extensionLen, hb]
      rw [he]
      simp only [List.idxOf?_cons, beq_iff_eq, if_neg hb, Option.map_eq_none_iff,
        Option.map_eq_some_iff, List.length_cons]
      refine ⟨ih.1, ?_⟩
      rintro _ ⟨start, hs, rfl⟩
      obtain ⟨h1, h2⟩ := ih.2 start hs
      exact ⟨by omega, h2⟩

theorem chargeExtensions_eq (d : BodyDecoder) (line : Bytes) :
    d.chargeExtensions line =
      if extensionLen line = 0 ∨
          d.extensionBytes + extensionLen line ≤ d.limits.maxChunkExtensionBytes then
        .ok { d with extensionBytes := d.extensionBytes + extensionLen line }
      else .error (.limit .chunkExtensionBytes) := by
  obtain ⟨h0, h1⟩ := extensionLen_of_idxOf? line
  have hlt := d.limits.extension_lt
  cases hi : line.idxOf? SEMICOLON with
  | none => simp [chargeExtensions, hi, h0 hi]
  | some start =>
    obtain ⟨he, hne⟩ := h1 start hi
    simp only [chargeExtensions, hi, checkedAdd, ← he, hne, false_or]
    by_cases hw : d.extensionBytes + extensionLen line < wordSize
    · simp only [if_pos hw, gt_iff_lt]
      split_ifs <;> first | rfl | omega
    · rw [if_neg hw, if_neg (by omega)]

/-- The meaning of a call that starts at `p`, `cursor` bytes into the input `b`: the bytes it
reports as consumed are those the byte-level run has read. -/
def Means (x : Crates) (limits : DecodeLimits) (p : Place) (b : Bytes) (cursor : ℕ) :
    BodyDecoder × Except DecodeError DecodeOutcome → Prop
  | (d', .ok (.needMore c)) => c ≤ b.length ∧ d'.Waiting (b.drop c) ∧
      (∃ s, (framing x limits).run d'.place (b.drop c) = ⟨[], .more s⟩ ∧ (b.drop c).length = s.retained) ∧
      ∀ w, (framing x limits).run p (b.drop cursor ++ w) =
        (framing x limits).run d'.place (b.drop c ++ w)
  | (d', .ok (.data i j c)) => i < j ∧ j ≤ c ∧ c ≤ b.length ∧ d'.Waiting (b.drop c) ∧
      ∀ w, (framing x limits).run p (b.drop cursor ++ w) =
        ((framing x limits).run d'.place (b.drop c ++ w)).emit ((b.take j).drop i)
  | (d', .ok (.trailers t c)) => c ≤ b.length ∧ d'.state = .done ∧
      ∀ w, (framing x limits).run p (b.drop cursor ++ w) =
        ⟨[], .done (some t, d'.extensionBytes) (b.drop c ++ w)⟩
  | (d', .ok (.ended c)) => c ≤ b.length ∧ d'.state = .done ∧
      ∀ w, (framing x limits).run p (b.drop cursor ++ w) = ⟨[], .done (none, 0) (b.drop c ++ w)⟩
  | (_, .error _) => ∀ w, (framing x limits).run p (b.drop cursor ++ w) = ⟨[], .failed⟩

theorem Means.trans {limits : DecodeLimits} {p p' : Place} {b : Bytes} {cursor cursor' : ℕ}
    {r : BodyDecoder × Except DecodeError DecodeOutcome}
    (h : ∀ w, (framing x limits).run p (b.drop cursor ++ w) =
      (framing x limits).run p' (b.drop cursor' ++ w))
    (hr : Means x limits p' b cursor' r) : Means x limits p b cursor r := by
  obtain ⟨d', o⟩ := r
  rcases o with e | o
  · exact fun w => (h w).trans (hr w)
  cases o with
  | needMore c => exact ⟨hr.1, hr.2.1, hr.2.2.1, fun w => (h w).trans (hr.2.2.2 w)⟩
  | data i j c => exact ⟨hr.1, hr.2.1, hr.2.2.1, hr.2.2.2.1, fun w => (h w).trans (hr.2.2.2.2 w)⟩
  | trailers t c => exact ⟨hr.1, hr.2.1, fun w => (h w).trans (hr.2.2 w)⟩
  | ended c => exact ⟨hr.1, hr.2.1, fun w => (h w).trans (hr.2.2 w)⟩

def sizeNext (size : ℕ) : ChunkState := if size = 0 then .trailers 0 else .data size

theorem sizeNext_retained (size : ℕ) (b : Bytes) : (sizeNext size).Retained b := by
  unfold sizeNext
  split_ifs with h
  · exact ⟨Nat.zero_le _, by simp⟩
  · exact Nat.pos_of_ne_zero h

theorem parseChunkLine_means (x : Crates) (d : BodyDecoder) (b : Bytes) :
    match d.parseChunkLine b 0 with
    | .error _ => ∀ w, (framing x d.limits).run (.size [] d.extensionBytes) (b ++ w) = ⟨[], .failed⟩
    | .ok (d', none, scanned) => d' = d ∧ scanned = b.length ∧
        scanLine none 0 b = .unfinished ∧ b.length ≤ d.limits.maxChunkLineBytes
    | .ok (d', some (size, c), _) => d'.limits = d.limits ∧ 0 < c ∧ c ≤ b.length ∧
        ∀ w, (framing x d.limits).run (.size [] d.extensionBytes) (b ++ w) =
          (framing x d.limits).run ((sizeNext size).place d'.extensionBytes) (b.drop c ++ w) := by
  simp only [parseChunkLine, Nat.not_lt_zero, if_false, List.take_zero, List.getLast?_nil,
    List.drop_zero]
  cases hs : scanLine none 0 b with
  | invalid => exact fun w => run_size_invalid x d.limits _ hs w
  | unfinished =>
    dsimp only
    by_cases hl : b.length > d.limits.maxChunkLineBytes
    · rw [if_pos hl]
      intro w
      rw [Transducer.run_append, run_size_unfinished x d.limits _ hs, if_neg (by omega)]
      rfl
    · rw [if_neg hl]
      exact ⟨rfl, rfl, rfl, by omega⟩
  | line i =>
    obtain ⟨text, rest, rfl, rfl, hrun⟩ := run_size_line x d.limits d.extensionBytes hs
    have htext : (text ++ CRLF ++ rest).take (text.length + 1 - 1) = text := by simp
    have hdrop : (text ++ CRLF ++ rest).drop (text.length + 1 + 1) = rest := by
      rw [List.drop_left' (by simp)]
    simp only [htext, chargeExtensions_eq]
    by_cases hl : text.length + 1 + 1 > d.limits.maxChunkLineBytes
    · rw [if_pos hl]
      intro w
      rw [hrun, lineRun, if_neg (by omega)]
    rw [if_neg hl]
    have hrun' (w : Bytes) := (hrun w).trans (by rw [lineRun, if_pos (by omega)])
    cases hp : Vakya.parseChunkLine text with
    | error e => exact fun w => (hrun' w).trans (by simp [afterSize, hp])
    | ok size =>
      by_cases hb : extensionLen text = 0 ∨
          d.extensionBytes + extensionLen text ≤ d.limits.maxChunkExtensionBytes
      · simp only [if_pos hb, hdrop]
        refine ⟨trivial, by omega, ?_, fun w => (hrun' w).trans ?_⟩
        · simp only [List.length_append, List.length_cons, List.length_nil]
          omega
        simp only [afterSize, hp, if_pos hb, sizeNext]
        split_ifs <;> rfl
      · simp only [if_neg hb]
        exact fun w => (hrun' w).trans (by simp only [afterSize, hp, if_neg hb])

variable {b : Bytes} {cursor scanned : ℕ}

theorem sizeIteration_means (hr : (ChunkState.size scanned).Retained (b.drop cursor))
    (hc : cursor ≤ b.length) :
    match chunkIteration x d (.size scanned) cursor b false with
    | .again d' s' c' => d'.limits = d.limits ∧ c' ≤ b.length ∧ s'.Retained (b.drop c') ∧
        ∀ w, (framing x d.limits).run (.size [] d.extensionBytes) (b.drop cursor ++ w) =
          (framing x d.limits).run (s'.place d'.extensionBytes) (b.drop c' ++ w)
    | .leave r => r.1.limits = d.limits ∧
        Means x d.limits (.size [] d.extensionBytes) b cursor r := by
  have h := parseChunkLine_means x d (b.drop cursor)
  simp only [chunkIteration, parseChunkLine_rescan hr]
  rcases hp : d.parseChunkLine (b.drop cursor) 0 with e | ⟨d', _ | ⟨size, c⟩, s⟩
  · rw [hp] at h
    exact ⟨rfl, h⟩
  · rw [hp] at h
    obtain ⟨rfl, rfl, hs, hl⟩ := h
    refine ⟨rfl, hc, ⟨le_rfl, by rwa [List.take_length]⟩,
      ⟨.size (b.drop cursor) d'.extensionBytes, ?_, rfl⟩, fun w => rfl⟩
    exact (run_size_unfinished x d'.limits _ hs).trans (if_pos hl)
  · rw [hp] at h
    obtain ⟨hlim, -, hcl, hrun⟩ := h
    rw [List.length_drop] at hcl
    refine ⟨hlim, by omega, sizeNext_retained size _, fun w => ?_⟩
    rw [hrun, List.drop_drop]
    rfl

theorem dataIteration_means {remaining : ℕ} (hr : 0 < remaining) (hc : cursor ≤ b.length) :
    ∃ r, chunkIteration x d (.data remaining) cursor b false = .leave r ∧
      r.1.limits = d.limits ∧ Means x d.limits (.data remaining d.extensionBytes) b cursor r := by
  simp only [chunkIteration]
  by_cases he : cursor = b.length
  · rw [if_pos he, if_neg (by simp)]
    have hnil : b.drop cursor = [] := List.drop_of_length_le (by omega)
    exact ⟨_, rfl, rfl, hc, hr, ⟨_, by rw [hnil]; exact run_nil rfl, by rw [hnil]; rfl⟩, fun w => rfl⟩
  · rw [if_neg he]
    refine ⟨_, rfl, rfl, by omega, le_rfl, by omega, ?_, fun w => ?_⟩
    · unfold Waiting
      dsimp only
      split_ifs with hz
      · trivial
      · exact Nat.pos_of_ne_zero hz
    · set count := min (b.length - cursor) remaining with hcount
      have hpay : (b.take (cursor + count)).drop cursor = (b.drop cursor).take count := by
        rw [List.drop_take, Nat.add_sub_cancel_left]
      have hlen : ((b.drop cursor).take count).length = count := by simp; omega
      have hsplit : b.drop cursor ++ w = (b.drop cursor).take count ++ (b.drop (cursor + count) ++ w) := by
        rw [← List.append_assoc, ← List.drop_drop, List.take_append_drop]
      rw [hpay, hsplit, run_data _ _ _ _ _ _ (by omega) hr, hlen]
      simp only [place, afterData]
      split_ifs <;> rfl

theorem crlfIteration_means (hc : cursor ≤ b.length) :
    match chunkIteration x d .dataCrlf cursor b false with
    | .again d' s' c' => d' = d ∧ s' = .size 0 ∧ c' ≤ b.length ∧
        ∀ w, (framing x d.limits).run (.crlf false d.extensionBytes) (b.drop cursor ++ w) =
          (framing x d.limits).run (.size [] d.extensionBytes) (b.drop c' ++ w)
    | .leave r => r.1.limits = d.limits ∧
        Means x d.limits (.crlf false d.extensionBytes) b cursor r := by
  have hstep (c : UInt8) (hne : c ≠ CR) :
      (Place.crlf false d.extensionBytes).step x d.limits c = none := by simp [Place.step, hne]
  simp only [chunkIteration]
  rcases hrem : b.drop cursor with _ | ⟨c, _ | ⟨c', rest⟩⟩
  · rw [if_pos (by simp), if_neg (by simp), if_neg (by simp)]
    exact ⟨rfl, hc, trivial, ⟨_, by rw [hrem]; exact run_nil rfl, by rw [hrem]; rfl⟩,
      fun w => by rw [hrem]; rfl⟩
  · by_cases hcr : c = CR
    · rw [if_pos (by simp), if_neg (by simp [hcr]), if_neg (by simp)]
      refine ⟨rfl, hc, trivial, ⟨.crlf true d.extensionBytes, ?_, by rw [hrem]; rfl⟩,
        fun w => by rw [hrem]; rfl⟩
      rw [hrem, hcr]
      rfl
    · rw [if_pos (by simp), if_pos (by simp [hcr])]
      refine ⟨rfl, fun w => ?_⟩
      rw [hrem]
      exact run_refused rfl (hstep c hcr) _
  · rw [if_neg (by simp)]
    by_cases hcrlf : c = CR ∧ c' = LF
    · obtain ⟨rfl, rfl⟩ := hcrlf
      have hlen : (b.drop cursor).length = rest.length + 2 := by simp [hrem]
      rw [List.length_drop] at hlen
      rw [if_neg (by simp)]
      refine ⟨rfl, rfl, by omega, fun w => ?_⟩
      rw [← List.drop_drop, hrem]
      exact run_crlf x d.limits d.extensionBytes (rest ++ w)
    · rw [if_pos (by simpa using hcrlf)]
      refine ⟨rfl, fun w => ?_⟩
      rw [hrem]
      by_cases hcr : c = CR
      · subst hcr
        have hlf : c' ≠ LF := fun h => hcrlf ⟨rfl, h⟩
        have h1 : (Place.crlf false d.extensionBytes).step x d.limits CR =
            some (.crlf true d.extensionBytes, []) := rfl
        rw [List.cons_append, run_step rfl h1, List.cons_append,
          run_refused rfl (by simp [Place.step, hlf])]
        rfl
      · exact run_refused rfl (hstep c hcr) _

theorem trailerEnd_means (d : BodyDecoder) (b : Bytes) :
    match d.trailerEnd b 0 with
    | .error _ => d.limits.maxTrailerBytes < b.length ∧
        ∀ i < d.limits.maxTrailerBytes, emptyLineAt b i = false
    | .ok (none, scanned) => scanned = b.length ∧ b.length ≤ d.limits.maxTrailerBytes ∧
        ∀ i < b.length, emptyLineAt b i = false
    | .ok (some n, _) => ∃ i, n = i + 1 ∧ i < b.length ∧ i < d.limits.maxTrailerBytes ∧
        emptyLineAt b i = true ∧ ∀ j < i, emptyLineAt b j = false := by
  simp only [trailerEnd, Nat.not_lt_zero, if_false, Nat.zero_min, Nat.sub_zero]
  cases hf : (List.range' 0 (min b.length d.limits.maxTrailerBytes)).find? (emptyLineAt b ·) with
  | some i =>
    obtain ⟨he, hi, hfirst⟩ := List.find?_range'_eq_some.mp hf
    rw [List.mem_range'_1] at hi
    exact ⟨i, rfl, by omega, by omega, he, fun j hj => by simpa using hfirst j (by omega) hj⟩
  | none =>
    have hn (i : ℕ) (h1 : i < b.length) (h2 : i < d.limits.maxTrailerBytes) :
        emptyLineAt b i = false := by
      simpa using List.find?_range'_eq_none.mp hf i (by omega) (by omega)
    dsimp only
    split_ifs with hl
    · exact ⟨hl, fun i hi => hn i (by omega) hi⟩
    · exact ⟨by omega, by omega, fun i hi => hn i hi (by omega)⟩

theorem consumed_le_of_parseTrailers (hx : x.HeadersWithin) {slots consumed : ℕ} {block : Bytes}
    {t : Headers} (h : parseTrailers x slots block = .ok (consumed, t)) :
    consumed ≤ block.length := by
  simp only [parseTrailers] at h
  split at h
  next c headers hp =>
    split at h
    · cases h
    split at h
    · cases h
    · cases h
      exact hx _ _ _ _ hp
  all_goals cases h

theorem decodeTrailers_means (hx : x.HeadersWithin)
    (hr : (ChunkState.trailers scanned).Retained (b.drop cursor)) (hc : cursor ≤ b.length) :
    (d.decodeTrailers x b cursor false scanned).1.limits = d.limits ∧
      Means x d.limits (.trailers [] d.extensionBytes) b cursor
        (d.decodeTrailers x b cursor false scanned) := by
  have h := trailerEnd_means d (b.drop cursor)
  simp only [decodeTrailers, trailerEnd_rescan hr]
  rcases he : d.trailerEnd (b.drop cursor) 0 with e | ⟨_ | n, s⟩
  · rw [he] at h
    refine ⟨rfl, fun w => ?_⟩
    rw [Transducer.run_append, run_trailers_open x d.limits _ (fun i _ hi => h.2 i hi),
      if_neg (by omega)]
    rfl
  · rw [he] at h
    obtain ⟨rfl, hl, hopen⟩ := h
    refine ⟨rfl, hc, ⟨le_rfl, hopen⟩, ⟨.trailers (b.drop cursor) d.extensionBytes, ?_, rfl⟩, fun w => rfl⟩
    exact (run_trailers_open x d.limits _ (fun i hi _ => hopen i hi)).trans (if_pos hl)
  · rw [he] at h
    obtain ⟨i, rfl, hi, hmax, hempty, hfirst⟩ := h
    have hrun (w : Bytes) := run_trailers_block x d.limits d.extensionBytes hi hmax hempty hfirst w
    dsimp only
    cases hp : parseTrailers x d.limits.maxTrailers ((b.drop cursor).take (i + 1)) with
    | error e => exact ⟨rfl, fun w => (hrun w).trans (by simp [blockRun, afterBlock, hp])⟩
    | ok q =>
      obtain ⟨consumed, t⟩ := q
      have hle : consumed ≤ i + 1 :=
        (consumed_le_of_parseTrailers hx hp).trans (List.length_take_le _ _)
      have hlen : i + 1 ≤ b.length - cursor := by
        rw [List.length_drop] at hi
        omega
      refine ⟨rfl, by omega, rfl, fun w => (hrun w).trans ?_⟩
      simp only [blockRun, afterBlock, hp]
      rw [Transducer.run_of_halt _ rfl, ← List.append_assoc]
      congr 3
      rw [← List.drop_append_of_le_length (by simp; omega), List.take_append_drop, List.drop_drop]

/-- One iteration either hands over to the next chunk state or returns. -/
theorem chunkIteration_means (hx : x.HeadersWithin) {state : ChunkState}
    (hr : state.Retained (b.drop cursor)) (hc : cursor ≤ b.length) :
    match chunkIteration x d state cursor b false with
    | .again d' s' c' => d'.limits = d.limits ∧ c' ≤ b.length ∧ s'.Retained (b.drop c') ∧
        ∀ w, (framing x d.limits).run (state.place d.extensionBytes) (b.drop cursor ++ w) =
          (framing x d.limits).run (s'.place d'.extensionBytes) (b.drop c' ++ w)
    | .leave r => r.1.limits = d.limits ∧
        Means x d.limits (state.place d.extensionBytes) b cursor r := by
  cases state with
  | size scanned => exact sizeIteration_means hr hc
  | data remaining =>
    obtain ⟨r, he, h⟩ := dataIteration_means (x := x) (d := d) hr hc
    rw [he]
    exact h
  | dataCrlf =>
    have h := crlfIteration_means (x := x) (d := d) hc
    cases hi : chunkIteration x d .dataCrlf cursor b false with
    | again d' s' c' =>
      rw [hi] at h
      obtain ⟨rfl, rfl, hc', hrun⟩ := h
      exact ⟨rfl, hc', ⟨Nat.zero_le _, rfl⟩, hrun⟩
    | leave r =>
      rw [hi] at h
      exact h
  | trailers scanned => exact decodeTrailers_means hx hr hc

theorem chunkLoop_eq (d : BodyDecoder) (state : ChunkState) (cursor : ℕ) (b : Bytes) (eof : Bool) :
    d.chunkLoop x state cursor b eof =
      match chunkIteration x d state cursor b eof with
      | .again d' s' c' => d'.chunkLoop x s' c' b eof
      | .leave r => r := by
  rw [chunkLoop]
  split <;> simp_all

/-- The chunked loop, entered anywhere. -/
theorem chunkLoop_means (hx : x.HeadersWithin) (d : BodyDecoder) (state : ChunkState)
    (cursor : ℕ) (hr : state.Retained (b.drop cursor)) (hc : cursor ≤ b.length) :
    (d.chunkLoop x state cursor b false).1.limits = d.limits ∧
      Means x d.limits (state.place d.extensionBytes) b cursor
        (d.chunkLoop x state cursor b false) := by
  induction hn : state.rank using Nat.strong_induction_on generalizing d state cursor with
  | _ n ih =>
  have h := chunkIteration_means (d := d) hx hr hc
  rw [chunkLoop_eq]
  cases hi : chunkIteration x d state cursor b false with
  | again d' s' c' =>
    rw [hi] at h
    obtain ⟨hlim, hc', hr', hrun⟩ := h
    obtain ⟨h1, h2⟩ := ih s'.rank (hn ▸ rank_lt_of_again hi) d' s' c' hr' hc' rfl
    rw [hlim] at h1 h2
    exact ⟨h1, h2.trans hrun⟩
  | leave r =>
    rw [hi] at h
    exact h

/-- One call of `decode` before the end of the transport. -/
theorem decode_means (hx : x.HeadersWithin) (hw : d.Waiting b) :
    (d.decode x b false).1.limits = d.limits ∧
      Means x d.limits d.place b 0 (d.decode x b false) := by
  cases hs : d.state with
  | empty =>
    simp only [decode, hs, place]
    exact ⟨trivial, Nat.zero_le _, rfl, fun w => run_fixed_zero _ _ _⟩
  | fixed remaining =>
    cases remaining with
    | zero =>
      simp only [decode, hs, place]
      exact ⟨trivial, Nat.zero_le _, rfl, fun w => run_fixed_zero _ _ _⟩
    | succ r =>
      simp only [decode, hs, place]
      by_cases hb : b = []
      · subst hb
        simp only [ne_eq, not_true_eq_false, if_false, Bool.false_eq_true]
        refine ⟨trivial, le_rfl, by simp [Waiting, hs], ⟨.fixed (r + 1), ?_, rfl⟩, fun w => ?_⟩
        · simp only [place, hs, List.drop_nil]
          exact run_nil rfl
        · simp [place, hs]
      · have hpos := List.length_pos_iff.mpr hb
        simp only [ne_eq, hb, not_false_eq_true, if_true]
        refine ⟨trivial, by omega, le_rfl, by omega, trivial, fun w => ?_⟩
        set count := min b.length (r + 1) with hcount
        have hsplit : b ++ w = b.take count ++ (b.drop count ++ w) := by
          rw [← List.append_assoc, List.take_append_drop]
        have hlen : (b.take count).length = count := by simp; omega
        rw [List.drop_zero, List.drop_zero, hsplit, run_fixed _ _ _ _ _ (by omega), hlen]
        rfl
  | chunked state =>
    have hr : state.Retained (b.drop 0) := by simpa [Waiting, hs] using hw
    have h := chunkLoop_means hx d state 0 hr (Nat.zero_le _)
    simpa only [decode, hs, place, decodeChunked] using h
  | untilEof =>
    simp only [decode, hs, place]
    by_cases hb : b = []
    · subst hb
      simp only [ne_eq, not_true_eq_false, if_false, Bool.false_eq_true]
      refine ⟨trivial, le_rfl, by simp [Waiting, hs], ⟨.untilEof, ?_, rfl⟩, fun w => ?_⟩
      · simp only [place, hs, List.drop_nil]
        exact run_nil rfl
      · simp [place, hs]
    · have hpos := List.length_pos_iff.mpr hb
      simp only [ne_eq, hb, not_false_eq_true, if_true, Bool.false_eq_true, if_false]
      refine ⟨trivial, hpos, le_rfl, le_rfl, trivial, fun w => ?_⟩
      rw [List.drop_zero, List.drop_zero, List.take_length, run_untilEof, List.drop_length,
        List.nil_append]
      rfl
  | done => simp [Waiting, hs] at hw
  | failed e => simp [Waiting, hs] at hw

/-- What a call answers at the end of the transport, given its answer before: the same, except
that waiting for input has become an error. -/
def AtEof (before after : BodyDecoder × Except DecodeError DecodeOutcome) : Prop :=
  match before with
  | (_, .ok (.needMore _)) => after.2 = .error .unexpectedEof
  | r => after = r

theorem decodeTrailers_eof (d : BodyDecoder) (input : Bytes) (cursor scanned : ℕ) :
    AtEof (d.decodeTrailers x input cursor false scanned)
      (d.decodeTrailers x input cursor true scanned) := by
  simp only [decodeTrailers]
  rcases d.trailerEnd (input.drop cursor) scanned with e | ⟨_ | n, s⟩
  · rfl
  · simp [AtEof, fail]
  · dsimp only
    cases parseTrailers x d.limits.maxTrailers ((input.drop cursor).take n) <;> rfl

theorem chunkIteration_eof (d : BodyDecoder) (state : ChunkState) (cursor : ℕ) (b : Bytes) :
    match chunkIteration x d state cursor b false with
    | .again d' s' c' => chunkIteration x d state cursor b true = .again d' s' c'
    | .leave r => ∃ r', chunkIteration x d state cursor b true = .leave r' ∧ AtEof r r' := by
  cases state with
  | size scanned =>
    simp only [chunkIteration]
    rcases d.parseChunkLine (b.drop cursor) scanned with e | ⟨d', _ | ⟨size, k⟩, s⟩
    · exact ⟨_, rfl, rfl⟩
    · exact ⟨_, rfl, rfl⟩
    · rfl
  | data remaining =>
    simp only [chunkIteration]
    by_cases he : cursor = b.length
    · rw [if_pos he, if_pos he]
      exact ⟨_, rfl, rfl⟩
    · rw [if_neg he, if_neg he]
      exact ⟨_, rfl, rfl⟩
  | dataCrlf =>
    simp only [chunkIteration]
    by_cases h2 : (b.drop cursor).length < 2
    · rw [if_pos h2, if_pos h2]
      by_cases h3 : b.drop cursor ≠ [] ∧ (b.drop cursor).head? ≠ some CR
      · rw [if_pos h3, if_pos h3]
        exact ⟨_, rfl, rfl⟩
      · rw [if_neg h3, if_neg h3]
        exact ⟨_, rfl, rfl⟩
    · rw [if_neg h2, if_neg h2]
      by_cases h3 : (b.drop cursor).take 2 ≠ CRLF
      · rw [if_pos h3]
        exact ⟨_, rfl, rfl⟩
      · rw [if_neg h3]
  | trailers scanned => exact ⟨_, rfl, decodeTrailers_eof d b cursor scanned⟩

theorem chunkLoop_eof (d : BodyDecoder) (state : ChunkState) (cursor : ℕ) :
    AtEof (d.chunkLoop x state cursor b false) (d.chunkLoop x state cursor b true) := by
  induction hn : state.rank using Nat.strong_induction_on generalizing d state cursor with
  | _ n ih =>
  have h := chunkIteration_eof (x := x) d state cursor b
  rw [chunkLoop_eq, chunkLoop_eq d state cursor b true]
  cases hi : chunkIteration x d state cursor b false with
  | again d' s' c' =>
    rw [hi] at h
    rw [h]
    exact ih _ (hn ▸ rank_lt_of_again hi) d' s' c' rfl
  | leave r =>
    rw [hi] at h
    obtain ⟨r', he, hr⟩ := h
    rw [he]
    exact hr

/-- At the end of the transport a decoder that waits for input fails, unless the transport
itself delimits the body. -/
theorem decode_eof {d' : BodyDecoder} {c : ℕ}
    (h : d.decode x b false = (d', .ok (.needMore c))) :
    if d.state = .untilEof then b = [] ∧ d.decode x b true = ({ d with state := .done }, .ok (.ended 0))
    else (d.decode x b true).2 = .error .unexpectedEof := by
  cases hs : d.state with
  | empty => simp [decode, hs] at h
  | fixed remaining =>
    cases remaining with
    | zero => simp [decode, hs] at h
    | succ r =>
      simp only [decode, hs] at h ⊢
      by_cases hb : b = []
      · simp [hb, fail]
      · simp [hb] at h
  | chunked state =>
    simp only [decode, hs, decodeChunked, reduceCtorEq, if_false] at h ⊢
    have he := chunkLoop_eof (x := x) (b := b) d state 0
    rw [h] at he
    exact he
  | untilEof =>
    simp only [decode, hs] at h ⊢
    by_cases hb : b = []
    · simp [hb]
    · simp [hb] at h
  | done => simp [decode, hs] at h
  | failed e => simp [decode, hs] at h

end BodyDecoder
end Vakya
