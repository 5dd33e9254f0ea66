import Vakya.Library.Transducer
import Vakya.Decode

/-!
# Body framing, one byte at a time

What each body mode means on the wire, stated as a transducer over single bytes
that emits the payload. It never looks ahead and has no scan offsets; the
decoder is compared with it, and so is everything that reads or writes a body.
-/

namespace Vakya

open Library

/-- Where in a body the next byte stands. `charged` counts extension bytes so far. -/
inductive Place
  | fixed (remaining : ℕ)
  | untilEof
  | size (line : Bytes) (charged : ℕ)
  | data (remaining : ℕ) (charged : ℕ)
  | crlf (seenCr : Bool) (charged : ℕ)
  | trailers (block : Bytes) (charged : ℕ)
  | finished (fields : Headers) (back : Bytes) (charged : ℕ)
deriving DecidableEq

/-- The trailers of a complete body and the extension bytes charged for it. -/
abbrev BodyEnd := Option Headers × ℕ

def extensionLen (line : Bytes) : ℕ := (line.dropWhile (· != SEMICOLON)).length

def afterSize (limits : DecodeLimits) (line : Bytes) (charged : ℕ) : Option Place :=
  match parseChunkLine line with
  | .error _ => none
  | .ok size =>
    let total := charged + extensionLen line
    if extensionLen line = 0 ∨ total ≤ limits.maxChunkExtensionBytes then
      some (if size = 0 then .trailers [] total else .data size total)
    else none

def afterBlock (x : Crates) (limits : DecodeLimits) (block : Bytes) (charged : ℕ) : Option Place :=
  match parseTrailers x limits.maxTrailers block with
  | .error _ => none
  | .ok (consumed, trailers) => some (.finished trailers (block.drop consumed) charged)

/-- The place after `remaining` chunk bytes are still to come. -/
def afterData (remaining charged : ℕ) : Place :=
  if remaining = 0 then .crlf false charged else .data remaining charged

def Place.step (x : Crates) (limits : DecodeLimits) : Place → UInt8 → Option (Place × Bytes)
  | .fixed remaining, b => some (.fixed (remaining - 1), [b])
  | .untilEof, b => some (.untilEof, [b])
  | .size line charged, b =>
    if limits.maxChunkLineBytes ≤ line.length then none
    else if b = LF then
      if line.getLast? = some CR then (afterSize limits line.dropLast charged).map (·, [])
      else none
    else if line.getLast? = some CR then none
    else some (.size (line ++ [b]) charged, [])
  | .data remaining charged, b => some (afterData (remaining - 1) charged, [b])
  | .crlf false charged, b => if b = CR then some (.crlf true charged, []) else none
  | .crlf true charged, b => if b = LF then some (.size [] charged, []) else none
  | .trailers block charged, b =>
    if limits.maxTrailerBytes ≤ block.length then none
    else if emptyLineAt (block ++ [b]) block.length then
      (afterBlock x limits (block ++ [b]) charged).map (·, [])
    else some (.trailers (block ++ [b]) charged, [])
  | .finished .., _ => none

def Place.halt : Place → Option (BodyEnd × Bytes)
  | .fixed 0 => some ((none, 0), [])
  | .finished fields back charged => some ((some fields, charged), back)
  | _ => none

def framing (x : Crates) (limits : DecodeLimits) : Transducer UInt8 UInt8 Place BodyEnd where
  halt := Place.halt
  step := Place.step x limits

abbrev BodyRun := Transcript UInt8 UInt8 Place BodyEnd

def BodyMode.start : BodyMode → Place
  | .none => .fixed 0
  | .fixed length => .fixed length
  | .chunked => .size [] 0
  | .untilEof => .untilEof

/-- The bytes of an unfinished line or block, which a decoder has to keep. -/
def Place.retained : Place → ℕ
  | .size line _ => line.length
  | .crlf seenCr _ => if seenCr then 1 else 0
  | .trailers block _ => block.length
  | _ => 0

/-- The end of the transport completes a close-delimited body and no other. -/
def Place.completeAtEof : Place → Bool
  | .untilEof => true
  | _ => false

variable (x : Crates) (limits : DecodeLimits)

@[simp] theorem framing_halt (p : Place) : (framing x limits).halt p = p.halt := rfl

@[simp] theorem framing_step (p : Place) (b : UInt8) :
    (framing x limits).step p b = p.step x limits b := rfl

@[simp] theorem halt_size (line : Bytes) (charged : ℕ) : (Place.size line charged).halt = none := rfl

@[simp] theorem halt_data (r charged : ℕ) : (Place.data r charged).halt = none := rfl

@[simp] theorem halt_crlf (cr : Bool) (charged : ℕ) : (Place.crlf cr charged).halt = none := rfl

@[simp] theorem halt_trailers (block : Bytes) (charged : ℕ) :
    (Place.trailers block charged).halt = none := rfl

@[simp] theorem halt_untilEof : Place.untilEof.halt = none := rfl

theorem halt_fixed_succ (r : ℕ) : (Place.fixed (r + 1)).halt = none := rfl

variable {x limits}

theorem run_nil {p : Place} (h : p.halt = none) : (framing x limits).run p [] = ⟨[], .more p⟩ :=
  Transducer.run_nil_of_running _ h

theorem run_step {p p' : Place} {b : UInt8} {out : Bytes} (h : p.halt = none)
    (hs : p.step x limits b = some (p', out)) (rest : Bytes) :
    (framing x limits).run p (b :: rest) = ((framing x limits).run p' rest).emit out :=
  Transducer.run_cons_of_step _ h hs rest

theorem run_refused {p : Place} {b : UInt8} (h : p.halt = none) (hs : p.step x limits b = none)
    (rest : Bytes) : (framing x limits).run p (b :: rest) = ⟨[], .failed⟩ :=
  Transducer.run_cons_of_refused _ h hs rest

variable (x limits)

theorem run_fixed_zero (rest : Bytes) :
    (framing x limits).run (.fixed 0) rest = ⟨[], .done (none, 0) rest⟩ := by
  have h : (framing x limits).halt (.fixed 0) = some ((none, 0), []) := rfl
  simpa using Transducer.run_of_halt _ h rest

theorem run_fixed (payload rest : Bytes) (r : ℕ) (h : payload.length ≤ r) :
    (framing x limits).run (.fixed r) (payload ++ rest) =
      ((framing x limits).run (.fixed (r - payload.length)) rest).emit payload := by
  induction payload generalizing r with
  | nil => simp
  | cons b bs ih =>
    simp only [List.length_cons] at h
    -- the length is not used up while payload is left
    obtain ⟨r, rfl⟩ : ∃ k, r = k + 1 := ⟨r - 1, by omega⟩
    rw [List.cons_append, run_step (halt_fixed_succ r) rfl,
      ih _ (by omega)]
    simp

theorem run_untilEof (payload rest : Bytes) :
    (framing x limits).run .untilEof (payload ++ rest) =
      ((framing x limits).run .untilEof rest).emit payload := by
  induction payload with
  | nil => simp
  | cons b bs ih =>
    rw [List.cons_append, run_step halt_untilEof rfl, ih]
    simp

theorem run_data (payload rest : Bytes) (r charged : ℕ) (h : payload.length ≤ r) (hr : 0 < r) :
    (framing x limits).run (.data r charged) (payload ++ rest) =
      ((framing x limits).run (afterData (r - payload.length) charged) rest).emit payload := by
  induction payload generalizing r with
  | nil => simp [afterData, Nat.pos_iff_ne_zero.mp hr]
  | cons b bs ih =>
    simp only [List.length_cons] at h
    rw [List.cons_append, run_step (halt_data r charged) rfl]
    -- the byte that ends the chunk is the last of the payload
    rcases Nat.eq_zero_or_pos (r - 1) with hz | hp
    · have hb : bs = [] := List.eq_nil_of_length_eq_zero (by omega)
      simp [hb, hz]
    · rw [show afterData (r - 1) charged = .data (r - 1) charged by
          simp [afterData, Nat.pos_iff_ne_zero.mp hp], ih _ (by omega) hp]
      simp [Nat.sub_sub, Nat.add_comm]

theorem run_crlf (charged : ℕ) (rest : Bytes) :
    (framing x limits).run (.crlf false charged) (CRLF ++ rest) =
      (framing x limits).run (.size [] charged) rest := by
  have h1 : (Place.crlf false charged).step x limits CR = some (.crlf true charged, []) := rfl
  have h2 : (Place.crlf true charged).step x limits LF = some (.size [] charged, []) := rfl
  rw [List.cons_append, run_step rfl h1, List.cons_append,
    run_step rfl h2]
  simp

theorem scanLine_append (prev : Option UInt8) (index : ℕ) (xs ys : Bytes)
    (h : scanLine prev index xs = .unfinished) :
    scanLine prev index (xs ++ ys) =
      scanLine (xs.getLast?.or prev) (index + xs.length) ys := by
  induction xs generalizing prev index with
  | nil => simp
  | cons b bs ih =>
    simp only [scanLine] at h
    split_ifs at h with h1 h2 h3
    rw [List.cons_append, scanLine, if_neg h1, if_neg h3, ih _ _ h, List.getLast?_cons]
    cases bs.getLast? <;> simp [Nat.add_comm, Nat.add_left_comm]

/-- A line is found at the first newline, and that newline follows a CR. -/
theorem scanLine_line {prev : Option UInt8} {index i : ℕ} {xs : Bytes}
    (h : scanLine prev index xs = .line i) :
    ∃ pre rest, xs = pre ++ LF :: rest ∧ i = index + pre.length ∧
      scanLine prev index pre = .unfinished ∧ pre.getLast?.or prev = some CR := by
  induction xs generalizing prev index with
  | nil => simp [scanLine] at h
  | cons b bs ih =>
    simp only [scanLine] at h
    split_ifs at h with h1 h2 h3
    · cases h
      exact ⟨[], bs, by simp [h1], rfl, rfl, by simpa using h2⟩
    · obtain ⟨pre, rest, rfl, rfl, hs, hcr⟩ := ih h
      refine ⟨b :: pre, rest, rfl, by simp; omega, by simp [scanLine, h1, h3, hs], ?_⟩
      rw [List.getLast?_cons]
      cases hp : pre.getLast? <;> simp_all

theorem scanLine_invalid {prev : Option UInt8} {index : ℕ} {xs : Bytes}
    (h : scanLine prev index xs = .invalid) :
    ∃ pre b rest, xs = pre ++ b :: rest ∧ scanLine prev index pre = .unfinished ∧
      (b = LF ↔ pre.getLast?.or prev ≠ some CR) := by
  induction xs generalizing prev index with
  | nil => simp [scanLine] at h
  | cons b bs ih =>
    simp only [scanLine] at h
    split_ifs at h with h1 h2 h3
    · exact ⟨[], b, bs, rfl, rfl, by simp [h1, h2]⟩
    · exact ⟨[], b, bs, rfl, rfl, by simp [h1, h3]⟩
    · obtain ⟨pre, c, rest, rfl, hs, hc⟩ := ih h
      refine ⟨b :: pre, c, rest, rfl, by simp [scanLine, h1, h3, hs], ?_⟩
      rw [hc, List.getLast?_cons]
      cases hp : pre.getLast? <;> simp

theorem run_size_gather (line xs : Bytes) (charged index : ℕ)
    (h : scanLine line.getLast? index xs = .unfinished)
    (hl : line.length ≤ limits.maxChunkLineBytes) :
    (framing x limits).run (.size line charged) xs =
      if (line ++ xs).length ≤ limits.maxChunkLineBytes then
        ⟨[], .more (.size (line ++ xs) charged)⟩
      else ⟨[], .failed⟩ := by
  induction xs generalizing line index with
  | nil => rw [run_nil rfl, if_pos (by simpa using hl), List.append_nil]
  | cons b bs ih =>
    simp only [scanLine] at h
    split_ifs at h with h1 h2 h3
    by_cases hmax : limits.maxChunkLineBytes ≤ line.length
    · rw [run_refused rfl (by simp [Place.step, hmax]), if_neg]
      simp only [List.length_append, List.length_cons]
      omega
    · have hs : (Place.size line charged).step x limits b =
          some (.size (line ++ [b]) charged, []) := by
        simp [Place.step, hmax, h1, h3]
      rw [run_step rfl hs, Transcript.emit_nil,
        ih (line ++ [b]) (index + 1) (by simpa using h) (by simp; omega)]
      simp

theorem run_size_unfinished {xs : Bytes} (charged : ℕ) (h : scanLine none 0 xs = .unfinished) :
    (framing x limits).run (.size [] charged) xs =
      if xs.length ≤ limits.maxChunkLineBytes then ⟨[], .more (.size xs charged)⟩
      else ⟨[], .failed⟩ := by
  simpa using run_size_gather x limits [] xs charged 0 (by simpa using h) (by simp)

theorem run_size_invalid {xs : Bytes} (charged : ℕ) (h : scanLine none 0 xs = .invalid)
    (ys : Bytes) :
    (framing x limits).run (.size [] charged) (xs ++ ys) = ⟨[], .failed⟩ := by
  obtain ⟨pre, b, rest, rfl, hs, hb⟩ := scanLine_invalid h
  rw [List.append_assoc, Transducer.run_append, run_size_unfinished x limits charged hs]
  split_ifs with hl
  · have hr : (Place.size pre charged).step x limits b = none := by
      by_cases hcr : pre.getLast? = some CR <;> simp_all [Place.step]
    exact run_refused rfl hr _
  · rfl

/-- What follows a complete line; `text` is the line without its CRLF. -/
def lineRun (text : Bytes) (charged : ℕ) (rest : Bytes) : BodyRun :=
  if text.length + 2 ≤ limits.maxChunkLineBytes then
    match afterSize limits text charged with
    | some p => (framing x limits).run p rest
    | none => ⟨[], .failed⟩
  else ⟨[], .failed⟩

theorem run_size_line {xs : Bytes} {i : ℕ} (charged : ℕ) (h : scanLine none 0 xs = .line i) :
    ∃ text rest, xs = text ++ CRLF ++ rest ∧ i = text.length + 1 ∧
      ∀ ys, (framing x limits).run (.size [] charged) (xs ++ ys) =
        lineRun x limits text charged (rest ++ ys) := by
  obtain ⟨pre, rest, rfl, rfl, hs, hcr⟩ := scanLine_line h
  obtain ⟨text, rfl⟩ : ∃ text, pre = text ++ [CR] :=
    List.getLast?_eq_some_iff.mp (by simpa using hcr)
  refine ⟨text, rest, by simp, by simp, fun ys => ?_⟩
  rw [List.append_assoc, Transducer.run_append, run_size_unfinished x limits charged hs, lineRun]
  -- a line over the limit fails in the gathering or with its newline
  by_cases hl : text.length + 1 ≤ limits.maxChunkLineBytes
  swap
  · rw [if_neg (by simpa using hl), if_neg (by omega)]
    rfl
  rw [if_pos (by simpa using hl)]
  simp only [Transducer.resume, List.cons_append, Transcript.emit_nil]
  by_cases hmax : limits.maxChunkLineBytes ≤ text.length + 1
  · rw [if_neg (by omega)]
    exact run_refused rfl (by simp [Place.step, hmax]) _
  rw [if_pos (by omega)]
  cases ha : afterSize limits text charged with
  | none => exact run_refused rfl (by simp [Place.step, hmax, ha]) _
  | some p =>
    have hs : (Place.size (text ++ [CR]) charged).step x limits LF = some (p, []) := by
      simp [Place.step, hmax, ha]
    rw [run_step rfl hs]
    rfl

/-- Only bytes up to the newline decide whether it closes an empty line. -/
theorem emptyLineAt_append {xs : Bytes} {i : ℕ} (h : i < xs.length) (ys : Bytes) :
    emptyLineAt (xs ++ ys) i = emptyLineAt xs i := by
  have hg (j : ℕ) (hj : j ≤ i) : (xs ++ ys)[j]? = xs[j]? :=
    List.getElem?_append_left (by omega)
  simp only [emptyLineAt, hg i le_rfl, hg 0 (by omega), hg (i - 1) (by omega),
    hg (i - 2) (by omega)]

theorem emptyLineAt_take {xs : Bytes} {i n : ℕ} (h : i < n) (hn : n ≤ xs.length) :
    emptyLineAt (xs.take n) i = emptyLineAt xs i := by
  conv_rhs => rw [← List.take_append_drop n xs]
  exact (emptyLineAt_append (by simp; omega) _).symm

theorem run_trailers_gather (block xs : Bytes) (charged : ℕ)
    (h : ∀ i, block.length ≤ i → i < (block ++ xs).length → i < limits.maxTrailerBytes →
      emptyLineAt (block ++ xs) i = false)
    (hl : block.length ≤ limits.maxTrailerBytes) :
    (framing x limits).run (.trailers block charged) xs =
      if (block ++ xs).length ≤ limits.maxTrailerBytes then
        ⟨[], .more (.trailers (block ++ xs) charged)⟩
      else ⟨[], .failed⟩ := by
  induction xs generalizing block with
  | nil => rw [run_nil rfl, if_pos (by simpa using hl), List.append_nil]
  | cons b bs ih =>
    by_cases hmax : limits.maxTrailerBytes ≤ block.length
    · rw [run_refused rfl (by simp [Place.step, hmax]), if_neg]
      simp only [List.length_append, List.length_cons]
      omega
    · have hb : emptyLineAt (block ++ [b]) block.length = false := by
        rw [← h block.length le_rfl (by simp) (by omega),
          show block ++ b :: bs = block ++ [b] ++ bs by simp]
        exact (emptyLineAt_append (by simp) bs).symm
      have hs : (Place.trailers block charged).step x limits b =
          some (.trailers (block ++ [b]) charged, []) := by
        simp [Place.step, hmax, hb]
      rw [run_step rfl hs, Transcript.emit_nil, ih (block ++ [b]) _ (by simp; omega)]
      · simp
      · intro i h1 h2 h3
        simp only [List.append_assoc, List.singleton_append] at h2 ⊢
        exact h i (by simp at h1; omega) h2 h3

theorem run_trailers_open {xs : Bytes} (charged : ℕ)
    (h : ∀ i < xs.length, i < limits.maxTrailerBytes → emptyLineAt xs i = false) :
    (framing x limits).run (.trailers [] charged) xs =
      if xs.length ≤ limits.maxTrailerBytes then ⟨[], .more (.trailers xs charged)⟩
      else ⟨[], .failed⟩ := by
  simpa using run_trailers_gather x limits [] xs charged
    (by simpa using fun i hi hm => h i hi hm) (by simp)

def blockRun (block : Bytes) (charged : ℕ) (rest : Bytes) : BodyRun :=
  match afterBlock x limits block charged with
  | some p => (framing x limits).run p rest
  | none => ⟨[], .failed⟩

theorem run_trailers_block {xs : Bytes} {i : ℕ} (charged : ℕ) (hi : i < xs.length)
    (hmax : i < limits.maxTrailerBytes) (he : emptyLineAt xs i = true)
    (hfirst : ∀ j < i, emptyLineAt xs j = false) (ys : Bytes) :
    (framing x limits).run (.trailers [] charged) (xs ++ ys) =
      blockRun x limits (xs.take (i + 1)) charged (xs.drop (i + 1) ++ ys) := by
  have hsplit : xs ++ ys = xs.take i ++ xs[i] :: (xs.drop (i + 1) ++ ys) := by
    rw [← List.cons_append, List.getElem_cons_drop, ← List.append_assoc, List.take_append_drop]
  have hopen : (framing x limits).run (.trailers [] charged) (xs.take i) =
      ⟨[], .more (.trailers (xs.take i) charged)⟩ := by
    rw [run_trailers_open x limits charged, if_pos (by simp; omega)]
    intro j hj _
    rw [List.length_take] at hj
    rw [emptyLineAt_take (by omega) hi.le]
    exact hfirst j (by omega)
  have htake : xs.take i ++ [xs[i]] = xs.take (i + 1) := by simp
  have hlen : (xs.take i).length = i := by simp; omega
  have hempty : emptyLineAt (xs.take (i + 1)) i = true := by
    rw [emptyLineAt_take (by omega) (by omega), he]
  rw [hsplit, Transducer.run_append_of_more _ hopen, Transcript.emit_nil, blockRun]
  have hstep : (Place.trailers (xs.take i) charged).step x limits xs[i] =
      (afterBlock x limits (xs.take (i + 1)) charged).map (·, []) := by
    simp only [Place.step, hlen, htake, hempty, if_true]
    rw [if_neg (by omega)]
  cases ha : afterBlock x limits (xs.take (i + 1)) charged with
  | none => exact run_refused rfl (by rw [hstep, ha]; rfl) _
  | some p =>
    rw [run_step rfl (by rw [hstep, ha]; rfl)]
    rfl

end Vakya
