import Vakya.Fragmentation
import Mathlib.Algebra.GroupWithZero.Nat

/-!
# The limits of a chunked body

The bytes a chunked decoder has consumed are size lines, chunk data and CRLFs. Each size line is
charged when it is complete, and then it lies in the consumed part; what is scanned again is not
complete. So the charge is the sum over the consumed lines, and a limit error names a bound that
the bytes supplied so far do exceed.
-/

namespace Vakya

open Library

/-- The number of fields that the header parser sees in a block: it reports too many of them
exactly if there are more fields than slots. -/
def Crates.CountsFields (x : Crates) (fields : Bytes → ℕ) : Prop :=
  ∀ block slots, x.parseHeaders block slots = .error .tooManyHeaders ↔ slots < fields block

inductive Stage
  | size
  | data (remaining : ℕ)
  | crlf
  | trailers
deriving DecidableEq, Repr

def ChunkState.stage : ChunkState → Stage
  | .size _ => .size
  | .data remaining => .data remaining
  | .dataCrlf => .crlf
  | .trailers _ => .trailers

def afterLine (n : ℕ) : Stage := if n = 0 then .trailers else .data n

@[simp] theorem stage_sizeNext (n : ℕ) : (BodyDecoder.sizeNext n).stage = afterLine n := by
  unfold BodyDecoder.sizeNext afterLine
  split_ifs <;> rfl

/-- The size lines in the front of a chunked body, each without its CRLF, and what comes next. -/
inductive Layout : List Bytes → Bytes → Stage → Prop
  | start : Layout [] [] .size
  | line {lines : List Bytes} {front text : Bytes} {n : ℕ} : Layout lines front .size → LF ∉ text →
      parseChunkLine text = .ok n → Layout (lines ++ [text]) (front ++ (text ++ CRLF)) (afterLine n)
  | data {lines : List Bytes} {front payload : Bytes} {remaining : ℕ} : Layout lines front (.data remaining) →
      payload.length < remaining → Layout lines (front ++ payload) (.data (remaining - payload.length))
  | dataEnd {lines : List Bytes} {front payload : Bytes} : Layout lines front (.data payload.length) →
      Layout lines (front ++ payload) .crlf
  | crlf {lines : List Bytes} {front : Bytes} : Layout lines front .crlf → Layout lines (front ++ CRLF) .size

def extensionTotal (lines : List Bytes) : ℕ := (lines.map extensionLen).sum

def TrailerBlock (block : Bytes) : Prop :=
  ∃ i, block.length = i + 1 ∧ emptyLineAt block i = true ∧ ∀ j < i, emptyLineAt block j = false

/-- The lines of a body, with their CRLF, and its extension bytes. -/
structure Within (limits : DecodeLimits) (lines : List Bytes) : Prop where
  line_le : ∀ text ∈ lines, text.length + 2 ≤ limits.maxChunkLineBytes
  total_le : extensionTotal lines ≤ limits.maxChunkExtensionBytes

def WithinLimits (fields : Bytes → ℕ) (limits : DecodeLimits) (wire : Bytes) : Prop :=
  ∃ lines front block rest, wire = front ++ (block ++ rest) ∧ Layout lines front .trailers ∧
    Within limits lines ∧ TrailerBlock block ∧ block.length ≤ limits.maxTrailerBytes ∧
    fields block ≤ limits.maxTrailers

theorem WithinLimits.append {fields : Bytes → ℕ} {limits : DecodeLimits} {supplied : Bytes}
    (h : WithinLimits fields limits supplied) (later : Bytes) :
    WithinLimits fields limits (supplied ++ later) := by
  obtain ⟨lines, front, block, rest, rfl, h⟩ := h
  exact ⟨lines, front, block, rest ++ later, by simp, h⟩

/-- What a limit error says about the bytes supplied so far. The bound on the map is not the decoder's. -/
def Exceeds (fields : Bytes → ℕ) (limits : DecodeLimits) (supplied : Bytes) : DecodeLimit → Prop
  | .chunkLineBytes => ∃ lines front line rest, Layout lines front .size ∧ supplied = front ++ (line ++ rest) ∧
      LF ∉ line.dropLast ∧ limits.maxChunkLineBytes < line.length
  | .chunkExtensionBytes => ∃ lines front text rest, Layout lines front .size ∧
      supplied = front ++ (text ++ CRLF ++ rest) ∧ LF ∉ text ∧
      limits.maxChunkExtensionBytes < extensionTotal (lines ++ [text])
  | .trailerBytes => ∃ lines front block, Layout lines front .trailers ∧ supplied = front ++ block ∧
      limits.maxTrailerBytes < block.length ∧ ∀ i < limits.maxTrailerBytes, emptyLineAt block i = false
  | .trailers => ∃ lines front block rest, Layout lines front .trailers ∧ supplied = front ++ (block ++ rest) ∧
      TrailerBlock block ∧ limits.maxTrailers < fields block
  | .trailerMap => True

def Justified (fields : Bytes → ℕ) (limits : DecodeLimits) (supplied : Bytes) : DecodeError → Prop
  | .limit which => Exceeds fields limits supplied which
  | _ => True

/-- The decoder stands behind `front`, and the lines in it have been charged, each once. -/
structure Standing (d : BodyDecoder) (lines : List Bytes) (front : Bytes) (state : ChunkState) : Prop where
  layout : Layout lines front state.stage
  charged : d.extensionBytes = extensionTotal lines
  within : Within d.limits lines

theorem lf_notMem_of_unfinished {prev : Option UInt8} {index : ℕ} {xs : Bytes}
    (h : scanLine prev index xs = .unfinished) : LF ∉ xs := by
  induction xs generalizing prev index with
  | nil => exact List.not_mem_nil
  | cons b bs ih =>
    simp only [scanLine] at h
    split_ifs at h with hlf hcr hcr'
    rw [List.mem_cons, not_or]
    exact ⟨fun heq => hlf heq.symm, ih h⟩

theorem validateExtensions_error {input : Bytes} {e : DecodeError} (h : validateExtensions input = .error e) :
    e = .invalidChunkExtension := by
  induction hn : input.length using Nat.strong_induction_on generalizing input with
  | _ n ih =>
    subst hn
    rw [validateExtensions] at h
    split_ifs at h
    split at h
    · cases h
      rfl
    · rename_i rest _ hturn _
      exact ih _ (length_extensionTurn hturn) h rfl

theorem parseChunkLine_error {line : Bytes} {e : DecodeError} (h : parseChunkLine line = .error e)
    (fields : Bytes → ℕ) (limits : DecodeLimits) (supplied : Bytes) : Justified fields limits supplied e := by
  simp only [parseChunkLine] at h
  split_ifs at h with hbad
  · cases h
    trivial
  · split at h
    · cases h
      trivial
    · split at h
      · rename_i hext
        cases h
        rw [validateExtensions_error hext]
        trivial
      · cases h

theorem extensionTotal_append (lines : List Bytes) (text : Bytes) :
    extensionTotal (lines ++ [text]) = extensionTotal lines + extensionLen text := by
  simp [extensionTotal]

namespace BodyDecoder

variable {x : Crates} {fields : Bytes → ℕ} {d : BodyDecoder} {lines : List Bytes} {pre b : Bytes}

theorem standing_line {scanned n : ℕ} {text : Bytes} (h : Standing d lines pre (.size scanned)) (hnot : LF ∉ text)
    (hparse : Vakya.parseChunkLine text = .ok n) (hl : text.length + 2 ≤ d.limits.maxChunkLineBytes)
    (hfits : extensionLen text = 0 ∨
      d.extensionBytes + extensionLen text ≤ d.limits.maxChunkExtensionBytes) :
    Standing { d with extensionBytes := d.extensionBytes + extensionLen text } (lines ++ [text])
      (pre ++ (text ++ CRLF)) (sizeNext n) := by
  obtain ⟨hlayout, hcharged, hwithin⟩ := h
  refine ⟨?_, ?_, ?_, ?_⟩
  · rw [stage_sizeNext]
    exact hlayout.line hnot hparse
  · rw [extensionTotal_append]
    simp only [hcharged]
  · intro line hline
    rcases List.mem_append.mp hline with hold | hnew
    · exact hwithin.line_le line hold
    · rw [List.mem_singleton.mp hnew]
      exact hl
  · -- A line without extension adds nothing to a total that was within the budget.
    have htotal := hwithin.total_le
    rw [extensionTotal_append]
    simp only
    omega

theorem parseChunkLine_standing (fields : Bytes → ℕ) (b : Bytes) {scanned : ℕ} (h : Standing d lines pre (.size scanned)) :
    match d.parseChunkLine b 0 with
    | .error e => Justified fields d.limits (pre ++ b) e
    | .ok (d', none, _) => d' = d
    | .ok (d', some (n, c), _) => d'.limits = d.limits ∧ c ≤ b.length ∧
        ∃ text, Standing d' (lines ++ [text]) (pre ++ b.take c) (sizeNext n) := by
  have hlayout := h.layout
  have hcharged := h.charged
  simp only [parseChunkLine, Nat.not_lt_zero, if_false, List.take_zero, List.getLast?_nil, List.drop_zero]
  cases hs : scanLine none 0 b with
  | invalid => trivial
  | unfinished =>
    dsimp only
    split_ifs with hl
    · have hlf := lf_notMem_of_unfinished hs
      refine ⟨lines, pre, b, [], hlayout, by simp, ?_, hl⟩
      exact fun hmem => hlf (List.dropLast_subset b hmem)
    · rfl
  | line i =>
    obtain ⟨before, rest, rfl, rfl, hscan, hcr⟩ := scanLine_line hs
    obtain ⟨text, rfl⟩ : ∃ text, before = text ++ [CR] := List.getLast?_eq_some_iff.mp (by simpa using hcr)
    have hlf := lf_notMem_of_unfinished hscan
    have hnot : LF ∉ text := fun hmem => hlf (List.mem_append_left _ hmem)
    have hb : text ++ [CR] ++ LF :: rest = text ++ CRLF ++ rest := by simp
    have hindex : 0 + (text ++ [CR]).length = text.length + 1 := by simp
    have htext : (text ++ CRLF ++ rest).take (text.length + 1 - 1) = text := by simp
    simp only [hb, hindex, htext]
    split_ifs with hl
    -- the bytes up to the newline are already too many
    · have hlong : d.limits.maxChunkLineBytes < (text ++ CRLF).length := by
        simp only [List.length_append, List.length_cons, List.length_nil]
        omega
      refine ⟨lines, pre, text ++ CRLF, rest, hlayout, by simp, ?_, hlong⟩
      have hdrop : (text ++ CRLF).dropLast = text ++ [CR] := by
        rw [show text ++ CRLF = text ++ [CR] ++ [LF] by simp, List.dropLast_concat]
      rw [hdrop]
      exact hlf
    · cases hparse : Vakya.parseChunkLine text with
      | error e => exact parseChunkLine_error hparse fields d.limits _
      | ok n =>
        simp only [chargeExtensions_eq]
        split_ifs with hfits
        · have htake : (text ++ CRLF ++ rest).take (text.length + 1 + 1) = text ++ CRLF := by
            rw [List.take_left' (by simp)]
          have hlen : text.length + 1 + 1 ≤ (text ++ CRLF ++ rest).length := by
            simp only [List.length_append, List.length_cons, List.length_nil]
            omega
          refine ⟨rfl, hlen, text, ?_⟩
          rw [htake]
          exact standing_line h hnot hparse (by omega) hfits
        -- the sum with this line is over the budget
        · refine ⟨lines, pre, text, rest, hlayout, rfl, hnot, ?_⟩
          rw [extensionTotal_append]
          omega

theorem ownHeaders_not_limit {owned : Headers} {headers : List RawHeader} (which : DecodeLimit) :
    headers.foldlM (ownHeader x) owned ≠ .error (.limit which) := by
  induction headers generalizing owned with
  | nil =>
    intro h
    cases h
  | cons header headers ih =>
    intro h
    rw [List.foldlM_cons] at h
    simp only [ownHeader] at h
    split at h
    · exact ih h
    · cases h

/-- A call of the decoder after `pre`: what it consumes continues the layout. -/
def Accounts (fields : Bytes → ℕ) (limits : DecodeLimits) (pre b : Bytes) :
    BodyDecoder × Except DecodeError DecodeOutcome → Prop
  | (_, .error e) => Justified fields limits (pre ++ b) e
  | (d', .ok (.trailers _ _)) => d'.state = .done ∧ WithinLimits fields limits (pre ++ b)
  | (_, .ok (.ended _)) => False
  | (d', .ok (.needMore c)) => d'.limits = limits ∧
      ∃ state lines, d'.state = .chunked state ∧ Standing d' lines (pre ++ b.take c) state
  | (d', .ok (.data _ _ c)) => d'.limits = limits ∧
      ∃ state lines, d'.state = .chunked state ∧ Standing d' lines (pre ++ b.take c) state

theorem accounts_needMore {state state' : ChunkState} {cursor : ℕ}
    (h : Standing d lines (pre ++ b.take cursor) state) (hstage : state'.stage = state.stage) :
    Accounts fields d.limits pre b ({ d with state := .chunked state' }, .ok (.needMore cursor)) :=
  ⟨rfl, state', lines, rfl, hstage ▸ h.layout, h.charged, h.within⟩

theorem parseTrailers_error {slots : ℕ} {block : Bytes} {e : DecodeError} (hfields : x.CountsFields fields)
    (h : parseTrailers x slots block = .error e) :
    e = .limit .trailers ∧ slots < fields block ∨ ∀ which, e = .limit which → which = .trailerMap := by
  simp only [parseTrailers] at h
  split at h
  · rename_i consumed headers hparse
    split at h
    · rename_i e' hown
      cases h
      right
      rintro which rfl
      simp only [ownHeaders] at hown
      split_ifs at hown
      · exact absurd hown (ownHeaders_not_limit which)
      · cases hown
        rfl
    · split at h
      · rename_i e' hvalid
        cases h
        right
        rintro which rfl
        simp only [validateTrailers] at hvalid
        split_ifs at hvalid
        cases hvalid
      · cases h
  · cases h
    right
    rintro which ⟨⟩
  · rename_i hmany
    cases h
    exact .inl ⟨rfl, (hfields block slots).mp hmany⟩
  · cases h
    right
    rintro which ⟨⟩

theorem decodeTrailers_standing (hfields : x.CountsFields fields) {scanned cursor : ℕ} {eof : Bool}
    (h : Standing d lines (pre ++ b.take cursor) (.trailers scanned))
    (hr : (ChunkState.trailers scanned).Retained (b.drop cursor)) :
    Accounts fields d.limits pre b (d.decodeTrailers x b cursor eof scanned) := by
  have hsplit : pre ++ b = pre ++ b.take cursor ++ b.drop cursor := by
    rw [List.append_assoc, List.take_append_drop]
  have hend := trailerEnd_means d (b.drop cursor)
  simp only [decodeTrailers, trailerEnd_rescan hr]
  rcases he : d.trailerEnd (b.drop cursor) 0 with e | ⟨_ | n, s⟩
  · rw [he] at hend
    have hlimit : e = .limit .trailerBytes := by
      simp only [trailerEnd] at he
      split at he
      · cases he
      · split_ifs at he
        cases he
        rfl
    subst hlimit
    exact ⟨lines, _, _, h.layout, hsplit, hend.1, hend.2⟩
  · cases eof with
    | true => trivial
    | false => exact accounts_needMore h rfl
  · rw [he] at hend
    obtain ⟨i, rfl, hi, hmax, hempty, hfirst⟩ := hend
    have hblock : TrailerBlock ((b.drop cursor).take (i + 1)) := by
      refine ⟨i, by simp only [List.length_take]; omega, ?_, ?_⟩
      · rw [emptyLineAt_take (by omega) (by omega)]
        exact hempty
      · intro j hj
        rw [emptyLineAt_take (by omega) (by omega)]
        exact hfirst j hj
    have hall : pre ++ b = pre ++ b.take cursor ++
        ((b.drop cursor).take (i + 1) ++ (b.drop cursor).drop (i + 1)) := by
      rw [List.take_append_drop, hsplit]
    dsimp only
    cases hparse : parseTrailers x d.limits.maxTrailers ((b.drop cursor).take (i + 1)) with
    | error e =>
      rcases parseTrailers_error hfields hparse with ⟨rfl, hlt⟩ | hother
      · exact ⟨lines, _, _, _, h.layout, hall, hblock, hlt⟩
      · cases e with
        | limit which =>
          obtain rfl := hother which rfl
          trivial
        | _ => trivial
    | ok parsed =>
      refine ⟨rfl, lines, _, _, _, hall, h.layout, h.within, hblock, ?_, ?_⟩
      · rw [List.length_take]
        omega
      -- more fields than slots would have been `tooManyHeaders`
      · by_contra hlt
        have hmany := (hfields _ _).mpr (Nat.not_le.mp hlt)
        simp only [parseTrailers, hmany] at hparse
        cases hparse

/-- One iteration: it goes on behind a longer front, or the call ends. -/
theorem chunkIteration_standing (hfields : x.CountsFields fields) {state : ChunkState} {cursor : ℕ} (eof : Bool)
    (h : Standing d lines (pre ++ b.take cursor) state) (hr : state.Retained (b.drop cursor))
    (hc : cursor ≤ b.length) :
    match chunkIteration x d state cursor b eof with
    | .again d' s' c' => d'.limits = d.limits ∧ c' ≤ b.length ∧ s'.Retained (b.drop c') ∧
        ∃ lines', Standing d' lines' (pre ++ b.take c') s'
    | .leave r => Accounts fields d.limits pre b r := by
  have hsplit : pre ++ b = pre ++ b.take cursor ++ b.drop cursor := by
    rw [List.append_assoc, List.take_append_drop]
  have htake (n : ℕ) : pre ++ b.take (cursor + n) = pre ++ b.take cursor ++ (b.drop cursor).take n := by
    rw [List.append_assoc, List.take_add]
  cases state with
  | size scanned =>
    have hline := parseChunkLine_standing fields (b.drop cursor) h
    simp only [chunkIteration, parseChunkLine_rescan hr]
    rcases hp : d.parseChunkLine (b.drop cursor) 0 with e | ⟨d', _ | ⟨n, c⟩, s⟩
    · rw [hp, ← hsplit] at hline
      exact hline
    · rw [hp] at hline
      subst hline
      cases eof with
      | true => trivial
      | false => exact accounts_needMore h rfl
    · rw [hp] at hline
      obtain ⟨hlimits, hle, text, hstand⟩ := hline
      rw [List.length_drop] at hle
      refine ⟨hlimits, by omega, sizeNext_retained n _, lines ++ [text], ?_⟩
      rw [htake]
      exact hstand
  | data remaining =>
    simp only [chunkIteration]
    by_cases hend : cursor = b.length
    · rw [if_pos hend]
      cases eof with
      | true => trivial
      | false => exact accounts_needMore h rfl
    · rw [if_neg hend]
      refine ⟨rfl, _, lines, rfl, ?_, h.charged, h.within⟩
      have hlen : ((b.drop cursor).take (min (b.length - cursor) remaining)).length =
          min (b.length - cursor) remaining := by
        simp only [List.length_take, List.length_drop]
        omega
      rw [htake]
      split_ifs with hdone
      · apply Layout.dataEnd
        rw [hlen]
        have hall : min (b.length - cursor) remaining = remaining := by omega
        rw [hall]
        exact h.layout
      · have hshort : ((b.drop cursor).take (min (b.length - cursor) remaining)).length < remaining := by
          rw [hlen]
          omega
        have hdata := h.layout.data hshort
        rw [hlen] at hdata
        exact hdata
  | dataCrlf =>
    simp only [chunkIteration]
    split_ifs with hshort hother heof hterm
    · trivial
    · trivial
    · exact accounts_needMore h rfl
    · trivial
    · rw [not_not] at hterm
      rw [List.length_drop] at hshort
      refine ⟨rfl, by omega, ⟨Nat.zero_le _, rfl⟩, lines, ?_, h.charged, h.within⟩
      rw [htake, hterm]
      exact h.layout.crlf
  | trailers scanned => exact decodeTrailers_standing hfields h hr

theorem chunkLoop_standing (hfields : x.CountsFields fields) {state : ChunkState} {cursor : ℕ} (eof : Bool)
    (h : Standing d lines (pre ++ b.take cursor) state) (hr : state.Retained (b.drop cursor))
    (hc : cursor ≤ b.length) :
    Accounts fields d.limits pre b (d.chunkLoop x state cursor b eof) := by
  induction hn : state.rank using Nat.strong_induction_on generalizing d state cursor lines with
  | _ n ih =>
  have hstep := chunkIteration_standing hfields eof h hr hc
  rw [chunkLoop_eq]
  cases hi : chunkIteration x d state cursor b eof with
  | again d' s' c' =>
    rw [hi] at hstep
    obtain ⟨hlimits, hc', hr', lines', h'⟩ := hstep
    rw [← hlimits]
    exact ih s'.rank (hn ▸ rank_lt_of_again hi) h' hr' hc' rfl
  | leave r =>
    rw [hi] at hstep
    exact hstep

end BodyDecoder

namespace Drive

open BodyDecoder

variable {x : Crates} {fields : Bytes → ℕ} {limits : DecodeLimits} {endsEof : Bool} {wire : Bytes} {s : Drive}

/-- A chunked body is being read, or its trailers were read within all limits. -/
def Accounted (fields : Bytes → ℕ) (limits : DecodeLimits) (wire : Bytes) (s : Drive) : Prop :=
  (s.decoder.limits = limits ∧ ∃ state lines front, s.decoder.state = .chunked state ∧ wire = front ++ s.left ∧
    Standing s.decoder lines front state) ∨
  (s.decoder.state = .done ∧ WithinLimits fields limits wire)

theorem accounted_start (pieces : List Bytes) :
    Accounted fields limits pieces.flatten (start .chunked limits pieces) := by
  refine .inl ⟨rfl, .size 0, [], [], rfl, rfl, .start, rfl, ?_, Nat.zero_le _⟩
  intro text htext
  cases htext

/-- What a decoder that stands behind `front` makes of the buffer. -/
theorem decode_accounts (hfields : x.CountsFields fields) (hw : s.decoder.Waiting s.buffer)
    {state : ChunkState} {lines : List Bytes} {front : Bytes} (hstate : s.decoder.state = .chunked state)
    (h : Standing s.decoder lines front state) :
    Accounts fields s.decoder.limits front s.buffer (s.decoder.decode x s.buffer s.eof) := by
  have hr : state.Retained (s.buffer.drop 0) := by
    unfold Waiting at hw
    rw [hstate] at hw
    exact hw
  have h₀ : Standing s.decoder lines (front ++ s.buffer.take 0) state := by
    rw [List.take_zero, List.append_nil]
    exact h
  have hloop := chunkLoop_standing hfields s.eof h₀ hr (Nat.zero_le _)
  simp only [decode, hstate, decodeChunked]
  exact hloop

theorem Tracks.waiting (h : Tracks x .chunked limits wire endsEof s) {state : ChunkState}
    (hstate : s.decoder.state = .chunked state) : s.decoder.Waiting s.buffer := by
  rcases h with hf | hc | ⟨-, he⟩
  · exact hf.waiting
  · rw [hc.state_done] at hstate
    cases hstate
  · exact he.waiting

theorem Accounted.turn (hfields : x.CountsFields fields) (h : Accounted fields limits wire s)
    (ht : Tracks x .chunked limits wire endsEof s) {s' : Drive} (hs : s.turn x endsEof = .inl s') :
    Accounted fields limits wire s' := by
  rcases h with ⟨rfl, state, lines, front, hstate, rfl, hstand⟩ | ⟨hdone, hwithin⟩
  · have hcall := decode_accounts hfields (ht.waiting hstate) hstate hstand
    have hopen : s.decoder.isComplete ≠ true := by simp [isComplete, hstate]
    have hkeep (c : ℕ) : front ++ s.left = front ++ s.buffer.take c ++ (s.buffer.drop c ++ s.pieces.flatten) := by
      simp only [left, List.append_assoc]
      rw [← List.append_assoc (s.buffer.take c), List.take_append_drop]
    rw [Drive.turn, if_neg hopen] at hs
    rcases hd : s.decoder.decode x s.buffer s.eof with ⟨d', e | o⟩
    · simp only [hd] at hs
      cases hs
    · rw [hd] at hcall
      cases o with
      | needMore c =>
        obtain ⟨hlimits, state', lines', hstate', hstand'⟩ := hcall
        simp only [hd, read] at hs
        cases hp : s.pieces with
        | nil =>
          rw [hp] at hkeep
          simp only [hp] at hs
          split_ifs at hs
          all_goals cases hs
          refine .inl ⟨hlimits, state', lines', _, hstate', ?_, hstand'⟩
          rw [hkeep c]
          rfl
        | cons piece pieces =>
          rw [hp] at hkeep
          simp only [hp] at hs
          cases hs
          refine .inl ⟨hlimits, state', lines', _, hstate', ?_, hstand'⟩
          rw [hkeep c]
          simp [left]
      | data i j c =>
        obtain ⟨hlimits, state', lines', hstate', hstand'⟩ := hcall
        simp only [hd] at hs
        cases hs
        refine .inl ⟨hlimits, state', lines', _, hstate', ?_, hstand'⟩
        rw [hkeep c]
        rfl
      | trailers t c =>
        obtain ⟨hdone, hwithin⟩ := hcall
        simp only [hd] at hs
        cases hs
        refine .inr ⟨hdone, ?_⟩
        rw [left, ← List.append_assoc]
        exact hwithin.append _
      | ended c => exact hcall.elim
  · -- A decoder that is done lets the loop end.
    rw [Drive.turn, if_pos (by simp [isComplete, hdone])] at hs
    cases hs

theorem accounted_of_visits (hx : x.HeadersWithin) (hfields : x.CountsFields fields) {pieces : List Bytes}
    (h : Visits x endsEof (start .chunked limits pieces) s) : Accounted fields limits pieces.flatten s := by
  induction h with
  | start => exact accounted_start pieces
  | turn hv ht ih =>
    exact ih.turn hfields (tracks_of_visits hx (following_start x .chunked limits pieces) hv) ht

theorem exists_visits_of_run {s₀ : Drive} {fuel : ℕ} {r : DriveEnd} (hv : Visits x endsEof s₀ s)
    (h : run x endsEof fuel s = some r) : ∃ s', Visits x endsEof s₀ s' ∧ s'.turn x endsEof = .inr r := by
  induction fuel generalizing s with
  | zero => cases h
  | succ fuel ih =>
    rw [run] at h
    cases ht : s.turn x endsEof with
    | inl s' =>
      rw [ht] at h
      exact ih (hv.turn ht) h
    | inr r' =>
      rw [ht] at h
      cases h
      exact ⟨s, hv, ht⟩

/-- A chunked body ends in its trailers, and these were read within all limits. -/
theorem Accounted.complete (hfields : x.CountsFields fields) (h : Accounted fields limits wire s)
    (ht : Tracks x .chunked limits wire endsEof s) {r : DriveEnd} (hs : s.turn x endsEof = .inr r)
    (hr : r.verdict = .complete) : WithinLimits fields limits wire := by
  rcases h with ⟨rfl, state, lines, front, hstate, rfl, hstand⟩ | ⟨hdone, hwithin⟩
  · have hcall := decode_accounts hfields (ht.waiting hstate) hstate hstand
    have hopen : s.decoder.isComplete ≠ true := by simp [isComplete, hstate]
    rw [Drive.turn, if_neg hopen] at hs
    rcases hd : s.decoder.decode x s.buffer s.eof with ⟨d', e | o⟩
    · simp only [hd] at hs
      cases hs
      cases hr
    · rw [hd] at hcall
      cases o with
      | needMore c =>
        simp only [hd] at hs
        split at hs
        · cases hs
        · cases hs
          cases hr
      | data i j c =>
        simp only [hd] at hs
        cases hs
      | trailers t c =>
        simp only [hd] at hs
        cases hs
      | ended c => exact hcall.elim
  · exact hwithin

/-- For every chunked body and every cut of it: a complete body keeps all bounds; a limit error names a
bound that the bytes supplied so far exceed; and the charge is that of the consumed lines, each
counted once, and within the budget. -/
theorem decoder_limits_exact (x : Crates) (hx : x.HeadersWithin) (fields : Bytes → ℕ)
    (hfields : x.CountsFields fields) (limits : DecodeLimits) (pieces : List Bytes) (endsEof : Bool) :
    (∀ fuel r, run x endsEof fuel (start .chunked limits pieces) = some r → r.verdict = .complete →
      WithinLimits fields limits pieces.flatten) ∧
    ∀ s, Visits x endsEof (start .chunked limits pieces) s →
      (∀ d' which, s.decoder.decode x s.buffer s.eof = (d', .error (.limit which)) →
        ∃ supplied, pieces.flatten = supplied ++ s.pieces.flatten ∧ Exceeds fields limits supplied which) ∧
      ∀ state, s.decoder.state = .chunked state → ∃ lines front, pieces.flatten = front ++ s.left ∧
        Layout lines front state.stage ∧ s.decoder.extensionBytes = extensionTotal lines ∧
        extensionTotal lines ≤ limits.maxChunkExtensionBytes ∧ limits.maxChunkExtensionBytes < wordSize := by
  have hstart := following_start x .chunked limits pieces
  constructor
  · intro fuel r hrun hcomplete
    obtain ⟨s, hv, hturn⟩ := exists_visits_of_run .start hrun
    exact (accounted_of_visits hx hfields hv).complete hfields (tracks_of_visits hx hstart hv) hturn hcomplete
  intro s hv
  have htracks := tracks_of_visits hx hstart hv
  rcases accounted_of_visits hx hfields hv with ⟨rfl, state, lines, front, hstate, hwire, hstand⟩ | ⟨hdone, -⟩
  · constructor
    · intro d' which hd
      have hcall := decode_accounts hfields (htracks.waiting hstate) hstate hstand
      rw [hd] at hcall
      exact ⟨front ++ s.buffer, by rw [hwire, left, List.append_assoc], hcall⟩
    · intro state' hstate'
      rw [hstate] at hstate'
      cases hstate'
      exact ⟨lines, front, hwire, hstand.layout, hstand.charged, hstand.within.total_le, s.decoder.limits.extension_lt⟩
  · constructor
    · intro d' which hd
      simp only [decode, hdone] at hd
      cases hd
    · intro state hstate
      rw [hdone] at hstate
      cases hstate

end Drive

namespace Reference

/-- The fields that are read before the block ends or stops to make sense; the one that makes no
sense needs a slot too. -/
def countFields : ℕ → Bytes → ℕ
  | 0, _ => 0
  | fuel + 1, input =>
    match newline input with
    | .ok _ => 0
    | .error _ =>
      match field input with
      | .ok (some (_, rest)) => countFields fuel rest + 1
      | _ => 1

theorem newline_shorter {input rest : Bytes} (h : newline input = .ok (some ((), rest))) :
    rest.length < input.length := by
  unfold newline at h
  split at h
  · cases h
  · split_ifs at h
    · cases h
      simp
    · split at h
      · cases h
      · split_ifs at h
        cases h
        simp only [List.length_cons]
        omega

theorem field_shorter {input rest : Bytes} {f : RawHeader} (h : field input = .ok (some (f, rest))) :
    rest.length < input.length := by
  simp only [field] at h
  split at h
  · cases h
  · rename_i b after hdrop
    split_ifs at h
    split at h
    · rename_i hline
      cases h
      have hshort := newline_shorter hline
      have hafter := List.length_dropWhile_le isFieldByte after
      have hinput := List.length_dropWhile_le isTchar input
      rw [hdrop, List.length_cons] at hinput
      omega
    · cases h
    · cases h

theorem field_error {input : Bytes} {e : HttparseError} (h : field input = .error e) : e ≠ .tooManyHeaders := by
  simp only [field] at h
  split at h
  · cases h
  · split_ifs at h
    · cases h
      decide
    · split at h
      · cases h
      · cases h
      · cases h
        decide

theorem fields_tooMany {fuel slots : ℕ} {input : Bytes} (h : input.length < fuel) :
    fields slots input = .error .tooManyHeaders ↔ slots < countFields fuel input := by
  induction fuel generalizing slots input with
  | zero => omega
  | succ fuel ih =>
    rw [fields.eq_def, countFields]
    cases hline : newline input with
    | ok found =>
      rcases found with _ | ⟨-, rest⟩
      · simp
      · simp
    | error e =>
      dsimp only
      cases slots with
      | zero =>
        have hpos : 0 < match field input with
            | .ok (some (_, rest)) => countFields fuel rest + 1
            | _ => 1 := by
          split
          · exact Nat.succ_pos _
          · exact Nat.one_pos
        exact iff_of_true rfl hpos
      | succ slots =>
        rcases hfield : field input with e | _ | ⟨f, rest⟩
        · simp [field_error hfield]
        · simp
        · have hshort := field_shorter hfield
          have hrest := @ih slots rest (by omega)
          dsimp only
          rw [Nat.add_lt_add_iff_right, ← hrest]
          rcases fields slots rest with e | _ | ⟨fs, after⟩
          · simp
          · simp
          · simp

theorem countsFields : reference.CountsFields fun block => countFields (block.length + 1) block := by
  intro block slots
  rw [← fields_tooMany (Nat.lt_succ_self _)]
  simp only [reference, report]
  rcases fields slots block with e | _ | ⟨fs, rest⟩
  · simp
  · simp
  · simp

end Reference

/-- Two size lines with an extension each and one trailer field, at limits that they just meet. -/
def tightLimits : DecodeLimits := ⟨6, 5, 8, 1, by decide, by decide, by decide, by decide⟩

def tightWire : Bytes := ascii "1;ab\r\nx\r\n0;c\r\nA: 1\r\n\r\n"

theorem Drive.decoder_limits_exact_tight :
    (run reference false 64 (start .chunked tightLimits (tightWire.map fun b => [b]))).map DriveEnd.verdict =
        some .complete ∧
      WithinLimits (fun block => Reference.countFields (block.length + 1) block) tightLimits
        (tightWire.map fun b => [b]).flatten := by
  have hrun : (run reference false 64 (start .chunked tightLimits (tightWire.map fun b => [b]))).map
      DriveEnd.verdict = some .complete := by decide +kernel
  refine ⟨hrun, ?_⟩
  obtain ⟨r, hr, hverdict⟩ := Option.map_eq_some_iff.mp hrun
  exact (decoder_limits_exact reference Reference.headersWithin _ Reference.countsFields tightLimits _ false).1
    64 r hr hverdict

end Vakya
