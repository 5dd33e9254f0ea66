import Vakya.Encode
import Vakya.Fragmentation
import Mathlib.Data.Nat.Digits.Lemmas

/-!
# Body round trip

The bytes the encoder puts around the frames of a body, read by the decoder in
the same mode, give back the payload and the trailers and stop where the body
ends. The argument runs over the byte-level framing, one frame at a time.
-/

namespace Vakya

open Library

/-- The hexadecimal digits of `n` without leading zeros. -/
def hexText (n : ℕ) : Bytes := (Nat.digits 16 n).reverse.map fun d => HEX.getD d 0

def lowDigits : ℕ → ℕ → Bytes
  | 0, _ => []
  | k + 1, n => lowDigits k (n / 16) ++ [HEX.getD (n % 16) 0]

theorem chunkDigits_eq (cursor n : ℕ) (bytes : Bytes) (h : cursor ≤ bytes.length) :
    chunkDigits cursor n bytes = lowDigits cursor n ++ bytes.drop cursor := by
  induction cursor generalizing n bytes with
  | zero => rfl
  | succ cursor ih =>
    have hlow : n &&& 0x0f = n % 16 := Nat.and_two_pow_sub_one_eq_mod n 4
    have hshift : n >>> 4 = n / 16 := Nat.shiftRight_eq_div_pow n 4
    rw [chunkDigits, ih _ _ (by simp; omega), hlow, hshift, lowDigits, List.append_assoc]
    congr 1
    rw [List.drop_eq_getElem_cons (by simp; omega), List.getElem_set_self,
      List.drop_set_of_lt (by omega)]
    rfl

theorem hexText_of_pos {n : ℕ} (h : 0 < n) :
    hexText n = hexText (n / 16) ++ [HEX.getD (n % 16) 0] := by
  rw [hexText, Nat.digits_def' (by decide) h]
  simp [hexText]

theorem lowDigits_digits (n : ℕ) : lowDigits (Nat.digits 16 n).length n = hexText n := by
  induction n using Nat.strong_induction_on with
  | _ n ih =>
    rcases Nat.eq_zero_or_pos n with rfl | hn
    · simp [lowDigits, hexText]
    · rw [hexText_of_pos hn, Nat.digits_def' (by decide) hn, List.length_cons, lowDigits,
        ih (n / 16) (Nat.div_lt_self hn (by decide))]

/-- The number of digits that `chunk_prefix` reads off the leading zeros. -/
theorem digits_of_leadingZeros {n : ℕ} (h : 0 < n) (hw : n < wordSize) :
    (64 - leadingZeros n + 3) / 4 = (Nat.digits 16 n).length := by
  have hne : n ≠ 0 := by omega
  have hlog : n.log2 < 64 := (Nat.log2_lt hne).mpr hw
  have hself : 2 ^ n.log2 ≤ n := Nat.log2_self_le hne
  have hlt : n < 2 ^ (n.log2 + 1) := Nat.lt_log2_self
  have hz : 64 - leadingZeros n = n.log2 + 1 := by
    simp only [leadingZeros, if_neg hne]
    omega
  have hpow (k : ℕ) : (16 : ℕ) ^ k = 2 ^ (4 * k) := by rw [Nat.pow_mul]
  rw [hz]
  refine le_antisymm ?_ ?_
  · have hle : 16 ^ (n.log2 / 4) ≤ n := by
      rw [hpow]
      exact (Nat.pow_le_pow_right (by decide) (by omega)).trans hself
    have := (Nat.lt_digits_length_iff (by decide) n).mpr hle
    omega
  · refine (Nat.digits_length_le_iff (by decide) n).mpr ?_
    rw [hpow]
    exact hlt.trans_le (Nat.pow_le_pow_right (by decide) (by omega))

theorem chunkPrefix_eq {n : ℕ} (h : 0 < n) (hw : n < wordSize) :
    chunkPrefix n = hexText n ++ CRLF := by
  have hd := digits_of_leadingZeros h hw
  have hlen : (hexText n).length = (Nat.digits 16 n).length := by simp [hexText]
  have h16 : (hexText n).length ≤ 16 := by
    rw [hlen, Nat.digits_length_le_iff (by decide)]
    exact hw
  simp only [chunkPrefix, hd]
  rw [chunkDigits_eq _ _ _ (by simp [CHUNK_PREFIX_CAPACITY]; omega), lowDigits_digits, ← hlen]
  obtain ⟨k, hk⟩ : ∃ k, CHUNK_PREFIX_CAPACITY = (hexText n).length + (k + 2) :=
    ⟨16 - (hexText n).length, by simp only [CHUNK_PREFIX_CAPACITY]; omega⟩
  rw [hk, List.drop_replicate, Nat.add_sub_cancel_left, List.replicate_succ, List.replicate_succ]
  simp [List.take_append]

theorem hex_digit {d : ℕ} (h : d < 16) :
    isAsciiHexdigit (HEX.getD d 0) = true ∧ hex (HEX.getD d 0) = some d := by
  revert h
  revert d
  decide

theorem hexText_mem {n : ℕ} {b : UInt8} (h : b ∈ hexText n) : isAsciiHexdigit b = true := by
  obtain ⟨d, hd, rfl⟩ := List.mem_map.mp h
  exact (hex_digit (Nat.digits_lt_base (by decide) (List.mem_reverse.mp hd))).1

theorem hexFold_hexText {n : ℕ} (hw : n < wordSize) : hexFold 0 (hexText n) = some n := by
  induction n using Nat.strong_induction_on with
  | _ n ih =>
    rcases Nat.eq_zero_or_pos n with rfl | hn
    · rfl
    · have hlt : n / 16 < n := Nat.div_lt_self hn (by decide)
      have hdigit := (hex_digit (Nat.mod_lt n (by decide : 16 > 0))).2
      have hprev := ih (n / 16) hlt (hlt.trans hw)
      have hmul : checkedMul (n / 16) 16 = some (n / 16 * 16) := if_pos (by omega)
      have hadd : checkedAdd (n / 16 * 16) (n % 16) = some n := by
        rw [checkedAdd, Nat.div_add_mod', if_pos hw]
      rw [hexText_of_pos hn]
      simp only [hexFold, List.foldlM_append] at hprev ⊢
      rw [hprev]
      simp only [Option.bind_eq_bind, Option.bind_some, List.foldlM_cons, List.foldlM_nil, hmul,
        hdigit, Option.getD_some, hadd]
      rfl

theorem hexText_ne_nil {n : ℕ} (h : 0 < n) : hexText n ≠ [] := by
  rw [hexText_of_pos h]
  simp

theorem parseChunkLine_digits {text : Bytes} {n : ℕ} (hne : text ≠ [])
    (hd : ∀ b ∈ text, isAsciiHexdigit b = true) (hn : hexFold 0 text = some n) :
    parseChunkLine text = .ok n ∧ extensionLen text = 0 := by
  have hsemi : ∀ b ∈ text, (b != SEMICOLON) = true := by
    intro b hb
    have := hd b hb
    rw [bne_iff_ne]
    rintro rfl
    revert this
    decide
  have hdrop : text.dropWhile (· != SEMICOLON) = [] := List.dropWhile_eq_nil_iff.mpr hsemi
  have htake : text.takeWhile (· != SEMICOLON) = text := List.takeWhile_eq_self_iff.mpr hsemi
  have htrim : trimEnd text = text := by
    refine trimEnd_of_last fun b hb => ?_
    have := hd b (List.mem_of_mem_getLast? hb)
    unfold isOws
    rw [Bool.or_eq_false_iff, beq_eq_false_iff_ne, beq_eq_false_iff_ne]
    constructor <;> (rintro rfl; revert this; decide)
  refine ⟨?_, by simp [extensionLen, hdrop]⟩
  have hext : validateExtensions [] = .ok () := by rw [validateExtensions, if_pos rfl]
  simp only [parseChunkLine, splitExtension, htake, hdrop, htrim, hn, hext]
  rw [if_neg]
  simpa [hne] using hd

def IsLine (text : Bytes) : Prop := ∀ b ∈ text, b ≠ CR ∧ b ≠ LF

theorem isLine_of_hexdigits {text : Bytes} (hd : ∀ b ∈ text, isAsciiHexdigit b = true) :
    IsLine text := by
  intro b hb
  have := hd b hb
  constructor <;> (rintro rfl; revert this; decide)

theorem scanLine_text {text : Bytes} (h : IsLine text) (prev : Option UInt8) (hp : prev ≠ some CR)
    (index : ℕ) : scanLine prev index text = .unfinished := by
  induction text generalizing prev index with
  | nil => rfl
  | cons b bs ih =>
    obtain ⟨hcr, hlf⟩ := h b (by simp)
    rw [scanLine, if_neg hlf, if_neg hp]
    exact ih (fun c hc => h c (by simp [hc])) _ (by simpa using hcr) _

variable (x : Crates) (limits : DecodeLimits)

theorem run_line {text : Bytes} (h : IsLine text) (charged : ℕ) (rest : Bytes) :
    (framing x limits).run (.size [] charged) (text ++ CRLF ++ rest) =
      lineRun x limits text charged rest := by
  have hlast : text.getLast? ≠ some CR := fun hl => (h CR (List.mem_of_getLast? hl)).1 rfl
  have hscan : scanLine none 0 (text ++ CRLF) = .line (text.length + 1) := by
    rw [scanLine_append _ _ _ _ (scanLine_text h none (by simp) 0), Option.or_none]
    simp [scanLine, hlast]
  obtain ⟨text', rest', heq, hlen, hrun⟩ := run_size_line x limits charged hscan
  obtain ⟨rfl, hrest⟩ := List.append_inj (heq.trans (List.append_assoc _ _ _)) (by omega)
  have hnil : rest' = [] := by
    have := congrArg List.length hrest
    simp at this
    exact this
  rw [hrun, hnil, List.nil_append]

theorem run_chunk {payload : Bytes} (hne : payload ≠ []) (hw : payload.length < wordSize)
    (hfit : (chunkPrefix payload.length).length ≤ limits.maxChunkLineBytes) (charged : ℕ)
    (rest : Bytes) :
    (framing x limits).run (.size [] charged)
        (chunkPrefix payload.length ++ payload ++ CRLF ++ rest) =
      ((framing x limits).run (.size [] charged) rest).emit payload := by
  have hpos : 0 < payload.length := List.length_pos_iff.mpr hne
  have hdig : ∀ b ∈ hexText payload.length, isAsciiHexdigit b = true := fun b => hexText_mem
  obtain ⟨hparse, hext⟩ := parseChunkLine_digits (hexText_ne_nil hpos) hdig (hexFold_hexText hw)
  rw [chunkPrefix_eq hpos hw] at hfit ⊢
  have hsplit : hexText payload.length ++ CRLF ++ payload ++ CRLF ++ rest =
      hexText payload.length ++ CRLF ++ (payload ++ (CRLF ++ rest)) := by simp
  have hafter : afterSize limits (hexText payload.length) charged =
      some (.data payload.length charged) := by
    simp [afterSize, hparse, hext, hne]
  rw [hsplit, run_line x limits (isLine_of_hexdigits hdig), lineRun, if_pos (by simpa using hfit),
    hafter]
  dsimp only
  rw [run_data x limits payload _ _ charged le_rfl hpos, Nat.sub_self]
  exact congrArg _ (run_crlf x limits charged rest)

theorem emptyLineAt_line {pre l : Bytes} (hline : IsLine l) (hne : l ≠ []) {j : ℕ}
    (hj : pre.length ≤ j) (hin : j < (pre ++ (l ++ CRLF)).length) :
    emptyLineAt (pre ++ (l ++ CRLF)) j = false := by
  have hlen := List.length_pos_iff.mpr hne
  have htext (k : ℕ) (h1 : pre.length ≤ k) (h2 : k < pre.length + l.length) :
      (pre ++ (l ++ CRLF))[k]? ≠ some LF := by
    rw [List.getElem?_append_right h1, List.getElem?_append_left (by omega)]
    exact fun hk => (hline LF (List.mem_of_getElem? hk)).2 rfl
  simp only [List.length_append, List.length_cons, List.length_nil] at hin
  by_cases h1 : j < pre.length + l.length
  · simp [emptyLineAt, htext j hj h1]
  by_cases h2 : j = pre.length + l.length
  · simp [emptyLineAt, h2]
  · obtain rfl : j = pre.length + l.length + 1 := by omega
    have hbefore := htext (pre.length + l.length - 1) (by omega) (by omega)
    simp [emptyLineAt, hbefore, hne]

/-- No newline before the end of a header block closes an empty line. `pre` is what stands
before the lines: nothing, or whole lines. -/
theorem emptyLineAt_lines {lines : List Bytes} (hl : ∀ l ∈ lines, IsLine l ∧ l ≠ [])
    (pre : Bytes) (hpre : pre = [] ∨ pre.getLast? = some LF) {j : ℕ} (hj : pre.length ≤ j)
    (hend : j < pre.length + (lines.flatMap (· ++ CRLF)).length + 1) :
    emptyLineAt (pre ++ (lines.flatMap (· ++ CRLF) ++ CRLF)) j = false := by
  induction lines generalizing pre with
  | nil =>
    have hj' : j = pre.length := by simp at hend; omega
    subst hj'
    simp [emptyLineAt]
  | cons l lines ih =>
    obtain ⟨hline, hne⟩ := hl l (by simp)
    have hassoc : pre ++ ((l :: lines).flatMap (· ++ CRLF) ++ CRLF) =
        (pre ++ (l ++ CRLF)) ++ (lines.flatMap (· ++ CRLF) ++ CRLF) := by simp
    rw [hassoc]
    simp only [List.flatMap_cons, List.length_append, List.length_cons, List.length_nil] at hend
    by_cases hin : j < (pre ++ (l ++ CRLF)).length
    · rw [emptyLineAt_append hin]
      exact emptyLineAt_line hline hne hj hin
    · refine ih (fun l' h' => hl l' (by simp [h'])) _ (.inr (by simp)) (by omega) ?_
      simp only [List.length_append, List.length_cons, List.length_nil]
      omega

theorem emptyLineAt_crlf {pre : Bytes} (hpre : pre = [] ∨ pre.getLast? = some LF) :
    emptyLineAt (pre ++ CRLF) (pre.length + 1) = true := by
  rcases hpre with rfl | hpre
  · decide
  · obtain ⟨ys, rfl⟩ := List.getLast?_eq_some_iff.mp hpre
    have hat (k : ℕ) : (ys ++ [LF] ++ CRLF)[ys.length + k]? = [LF, CR, LF][k]? := by
      rw [List.append_assoc, List.getElem?_append_right (by omega), Nat.add_sub_cancel_left]
      rfl
    have hidx : (ys ++ [LF]).length + 1 = ys.length + 2 := by simp
    rw [hidx, emptyLineAt, hat 2, show ys.length + 2 - 1 = ys.length + 1 by omega, hat 1,
      show ys.length + 2 - 2 = ys.length + 0 by omega, hat 0]
    simp

theorem getLast?_lines (lines : List Bytes) :
    lines.flatMap (· ++ CRLF) = [] ∨ (lines.flatMap (· ++ CRLF)).getLast? = some LF := by
  rcases lines.eq_nil_or_concat with rfl | ⟨ls, l, rfl⟩
  · exact .inl rfl
  · exact .inr (by simp)

theorem Spells.wellFormed {f : RawHeader} {e : HeaderName × HeaderValue} (h : Spells f e) :
    f.WellFormed := by
  obtain ⟨hname, hvalue⟩ := h
  refine ⟨isToken_of_lowercase (hname ▸ e.1.token), ?_⟩
  rw [hvalue, List.all_cons, e.2.visible]
  rfl

theorem wellFormed_of_spelled {fields : List RawHeader} {pairs : List (HeaderName × HeaderValue)}
    (h : List.Forall₂ Spells fields pairs) : ∀ f ∈ fields, f.WellFormed := by
  induction h with
  | nil => simp
  | cons hf _ ih => simpa using ⟨hf.wellFormed, ih⟩

def RawHeader.text (f : RawHeader) : Bytes := f.name ++ COLON :: f.value

theorem RawHeader.WellFormed.isLine {f : RawHeader} (h : f.WellFormed) :
    IsLine f.text ∧ f.text ≠ [] := by
  obtain ⟨hname, hvalue⟩ := h
  simp only [isToken, Bool.and_eq_true, List.all_eq_true] at hname hvalue
  refine ⟨fun b hb => ?_, by simp [text]⟩
  rw [text, List.mem_append, List.mem_cons] at hb
  rcases hb with hb | rfl | hb
  · have := hname.2 b hb
    constructor <;> (rintro rfl; revert this; decide)
  · decide
  · have := hvalue b hb
    constructor <;> (rintro rfl; revert this; decide)

theorem headerBlock_eq (fields : List RawHeader) :
    headerBlock fields = (fields.map RawHeader.text).flatMap (· ++ CRLF) ++ CRLF := by
  rw [headerBlock, List.flatMap_map]
  rfl

variable {x limits}

theorem ownHeaders_spelled (hn : x.FoldsNames) (hv : x.KeepsValues) {fields : List RawHeader}
    {headers : Headers} (h : List.Forall₂ Spells fields headers.iter)
    (hcap : x.mapCapacity headers.iter.length = true) :
    ownHeaders x (fields.map RawHeader.trimmed) = .ok (headers.mapValues HeaderValue.trimmed) := by
  have hfold (owned : Headers) (pairs : List (HeaderName × HeaderValue)) (fs : List RawHeader)
      (hs : List.Forall₂ Spells fs pairs) :
      (fs.map RawHeader.trimmed).foldlM (ownHeader x) owned =
        .ok ((pairs.map fun e => (e.1, e.2.trimmed)).foldl (fun m e => m.append e.1 e.2) owned) := by
    induction hs generalizing owned with
    | nil => rfl
    | @cons f e fs pairs hf hs ih =>
      have h1 : x.headerName f.trimmed.name = some e.1 := hn e.1 f.name hf.1
      have h2 : x.headerValue f.trimmed.value = some e.2.trimmed := by
        rw [RawHeader.trimmed, hf.2]
        exact hv e.2.trimmed
      rw [List.map_cons, List.foldlM_cons, ownHeader, h1, h2]
      exact ih _
  rw [ownHeaders, if_pos (by simpa [h.length_eq] using hcap), hfold _ _ _ h,
    ← headers.iter_mapValues HeaderValue.trimmed]
  exact congrArg _ (HeaderMap.ofList_iter _)

theorem validateTrailers_mapValues (t : Headers) (f : HeaderValue → HeaderValue) :
    validateTrailers (t.mapValues f) = validateTrailers t := by
  have hk : (t.mapValues f).keys = t.keys := by
    simp [HeaderMap.keys, HeaderMap.mapValues]
  simp only [validateTrailers, hk]

theorem parseTrailers_spelled (hb : x.HeaderBlocks) (hn : x.FoldsNames) (hv : x.KeepsValues)
    {fields : List RawHeader} {t : Headers} (h : List.Forall₂ Spells fields t.iter)
    (hcap : x.mapCapacity t.iter.length = true) (hok : validateTrailers t = .ok ()) {slots : ℕ}
    (hslots : t.iter.length ≤ slots) :
    parseTrailers x slots (headerBlock fields) =
      .ok ((headerBlock fields).length, t.mapValues HeaderValue.trimmed) := by
  have hparse := hb fields slots (wellFormed_of_spelled h) (by rwa [h.length_eq])
  simp only [parseTrailers, hparse, ownHeaders_spelled hn hv h hcap, validateTrailers_mapValues, hok]

theorem run_trailerBlock (hb : x.HeaderBlocks) (hn : x.FoldsNames) (hv : x.KeepsValues)
    {fields : List RawHeader} {t : Headers} (h : List.Forall₂ Spells fields t.iter)
    (hcap : x.mapCapacity t.iter.length = true) (hok : validateTrailers t = .ok ())
    (hslots : t.iter.length ≤ limits.maxTrailers)
    (hfit : (headerBlock fields).length ≤ limits.maxTrailerBytes) (charged : ℕ) (rest : Bytes) :
    (framing x limits).run (.trailers [] charged) (headerBlock fields ++ rest) =
      ⟨[], .done (some (t.mapValues HeaderValue.trimmed), charged) rest⟩ := by
  have hlines : ∀ l ∈ fields.map RawHeader.text, IsLine l ∧ l ≠ [] := by
    intro l hl
    obtain ⟨f, hf, rfl⟩ := List.mem_map.mp hl
    exact (wellFormed_of_spelled h f hf).isLine
  have hblock := headerBlock_eq fields
  set body := (fields.map RawHeader.text).flatMap (· ++ CRLF) with hbody
  have hlen : (headerBlock fields).length = body.length + 1 + 1 := by rw [hblock]; simp
  have hempty : emptyLineAt (headerBlock fields) (body.length + 1) = true := by
    rw [hblock]
    exact emptyLineAt_crlf (getLast?_lines _)
  have hfirst : ∀ j < body.length + 1, emptyLineAt (headerBlock fields) j = false := by
    intro j hj
    rw [hblock]
    exact emptyLineAt_lines hlines [] (.inl rfl) (Nat.zero_le _)
      (by rw [← hbody]; simpa using hj)
  rw [run_trailers_block x limits charged (by omega) (by omega) hempty hfirst, ← hlen,
    List.take_length, List.drop_length, blockRun, afterBlock,
    parseTrailers_spelled hb hn hv h hcap hok hslots]
  dsimp only
  rw [Transducer.run_of_halt _ rfl]
  simp

/-- The frames of a body, each with the framing the encoder puts around it. -/
def BodyEncoder.encodeFrames (e : BodyEncoder) : List Bytes → BodyEncoder × Except EncodeError Bytes
  | [] => (e, .ok [])
  | frame :: frames =>
    match e.data frame.length with
    | (e, .error error) => (e, .error error)
    | (e, .ok framing) =>
      match e.encodeFrames frames with
      | (e, .error error) => (e, .error error)
      | (e, .ok bytes) => (e, .ok (framing.before ++ frame ++ framing.after ++ bytes))

inductive BodyFinish
  | finish
  | trailers (fields : Headers)

def BodyFinish.apply (x : Crates) (e : BodyEncoder) :
    BodyFinish → BodyEncoder × Except EncodeError Bytes
  | .finish => e.finish
  | .trailers t => e.sendTrailers x t

def BodyFinish.expected (mode : BodyMode) : BodyFinish → Option Headers
  | .finish => if mode = .chunked then some HeaderMap.empty else none
  | .trailers t => some (t.mapValues HeaderValue.trimmed)

def BodyFinish.fields : BodyFinish → Headers
  | .finish => HeaderMap.empty
  | .trailers t => t

/-- A body all of whose calls are accepted: the bytes of its frames, and the last bytes. -/
def encodeBody (x : Crates) (mode : BodyMode) (metadata : BodyMetadata) (config : EncodeConfig)
    (frames : List Bytes) (fin : BodyFinish) : Except EncodeError (Bytes × Bytes) :=
  match BodyEncoder.new mode metadata config with
  | .error error => .error error
  | .ok e =>
    match e.encodeFrames frames with
    | (_, .error error) => .error error
    | (e, .ok bytes) =>
      match fin.apply x e with
      | (_, .error error) => .error error
      | (_, .ok last) => .ok (bytes, last)

/-- Limits that the lines and the trailers of a chunked body stay within. The trailer block is
what follows the last size line, `0` and CRLF. -/
structure LimitsFit (x : Crates) (limits : DecodeLimits) (frames : List Bytes) (fin : BodyFinish)
    (last : Bytes) : Prop where
  lines : ∀ frame ∈ frames, (chunkPrefix frame.length).length ≤ limits.maxChunkLineBytes
  last_line : 3 ≤ limits.maxChunkLineBytes
  block : last.length ≤ limits.maxTrailerBytes + 3
  count : fin.fields.iter.length ≤ limits.maxTrailers
  map : x.mapCapacity fin.fields.iter.length = true

namespace BodyEncoder

variable {e e' : BodyEncoder}

def charge (e : BodyEncoder) (n : ℕ) : BodyEncoder :=
  { e with remainingLower := e.remainingLower - n, remainingUpper := e.remainingUpper.map (· - n) }

def wrap (e : BodyEncoder) (frame : Bytes) : Bytes :=
  if e.state = .chunked ∧ frame ≠ [] then chunkPrefix frame.length ++ frame ++ CRLF else frame

theorem charge_charge (e : BodyEncoder) (n m : ℕ) : (e.charge n).charge m = e.charge (n + m) := by
  simp [charge, Nat.sub_sub, Function.comp_def]

theorem data_ok {n : ℕ} {framing : DataFraming} (h : e.data n = (e', .ok framing)) :
    n < wordSize ∧ (∀ u ∈ e.remainingUpper, n ≤ u) ∧ e' = e.charge n ∧ e.state ≠ .none ∧
      framing = if e.state = .chunked ∧ n ≠ 0 then ⟨chunkPrefix n, CRLF⟩ else .bare := by
  unfold data at h
  cases hs : e.state with
  | failed error => simp [hs] at h
  | done => simp [hs, fail] at h
  | none => simp [hs, fail] at h
  | _ =>
    simp only [hs] at h
    by_cases hw : wordSize ≤ n
    · simp [hw, fail] at h
    rw [if_neg hw] at h
    by_cases hu : e.remainingUpper.any (n > ·) = true
    · simp [hu, fail] at h
    rw [if_neg hu] at h
    simp only [frameData, Prod.mk.injEq, Except.ok.injEq] at h
    refine ⟨by omega, ?_, by rw [← h.1, charge, hs], by simp, ?_⟩
    · intro u hmem
      rw [Option.mem_def] at hmem
      simpa [hmem] using hu
    · rw [← h.2]
      by_cases hn : n = 0 <;> simp [hn]

/-- Accepted frames stay within the upper bound, and each goes out as `wrap` says. -/
theorem encodeFrames_ok {frames : List Bytes} {bytes : Bytes}
    (h : e.encodeFrames frames = (e', .ok bytes)) :
    (∀ frame ∈ frames, frame.length < wordSize) ∧
      (∀ u ∈ e.remainingUpper, frames.flatten.length ≤ u) ∧ e' = e.charge frames.flatten.length ∧
      (frames ≠ [] → e.state ≠ .none) ∧ bytes = frames.flatMap e.wrap := by
  induction frames generalizing e bytes with
  | nil =>
    simp only [encodeFrames, Prod.mk.injEq, Except.ok.injEq] at h
    obtain ⟨rfl, rfl⟩ := h
    simp [charge]
  | cons frame frames ih =>
    rw [encodeFrames] at h
    rcases hd : e.data frame.length with ⟨e₁, error | framing⟩
    · simp [hd] at h
    obtain ⟨hw, hu, rfl, hstate, rfl⟩ := data_ok hd
    simp only [hd] at h
    rcases hf : (e.charge frame.length).encodeFrames frames with ⟨e₂, error | rest⟩
    · simp [hf] at h
    simp only [hf, Prod.mk.injEq, Except.ok.injEq] at h
    obtain ⟨rfl, rfl⟩ := h
    obtain ⟨hw', hu', rfl, -, rfl⟩ := ih hf
    refine ⟨?_, ?_, ?_, fun _ => hstate, ?_⟩
    · simpa using ⟨hw, hw'⟩
    · intro u hmem
      have h1 := hu u hmem
      have h2 := hu' (u - frame.length) (by simpa [charge] using ⟨u, hmem, rfl⟩)
      simp only [List.flatten_cons, List.length_append]
      omega
    · simp [charge_charge]
    · have hwrap : (e.charge frame.length).wrap = e.wrap := rfl
      rw [hwrap, List.flatMap_cons]
      congr 1
      by_cases hc : e.state = .chunked ∧ frame ≠ []
      · simp [wrap, hc]
      · have hc' : ¬ (e.state = .chunked ∧ frame.length ≠ 0) := by simpa using hc
        rw [if_neg hc', wrap, if_neg hc]
        simp [DataFraming.bare]

end BodyEncoder

/-- The frames of a chunked body, read up to the last size line. -/
theorem run_frames {frames : List Bytes} (hw : ∀ frame ∈ frames, frame.length < wordSize)
    (hfit : ∀ frame ∈ frames, (chunkPrefix frame.length).length ≤ limits.maxChunkLineBytes)
    {e : BodyEncoder} (he : e.state = .chunked) (rest : Bytes) :
    (framing x limits).run (.size [] 0) (frames.flatMap e.wrap ++ rest) =
      ((framing x limits).run (.size [] 0) rest).emit frames.flatten := by
  induction frames with
  | nil => rfl
  | cons frame frames ih =>
    have ih := ih (fun f hf => hw f (by simp [hf])) (fun f hf => hfit f (by simp [hf]))
    by_cases hne : frame = []
    · simpa [BodyEncoder.wrap, hne] using ih
    · have hwrap : e.wrap frame = chunkPrefix frame.length ++ frame ++ CRLF :=
        if_pos ⟨he, hne⟩
      rw [List.flatMap_cons, hwrap, List.append_assoc,
        run_chunk x limits hne (hw frame (by simp)) (hfit frame (by simp)), ih]
      simp

theorem run_zero_line (hfit : 3 ≤ limits.maxChunkLineBytes) (rest : Bytes) :
    (framing x limits).run (.size [] 0) (ascii "0\r\n" ++ rest) =
      (framing x limits).run (.trailers [] 0) rest := by
  have hdig : ∀ b ∈ ascii "0", isAsciiHexdigit b = true := List.all_eq_true.mp (by decide)
  have hzero : hexFold 0 (ascii "0") = some 0 := rfl
  obtain ⟨hparse, hext⟩ := parseChunkLine_digits (by decide) hdig hzero
  have hafter : afterSize limits (ascii "0") 0 = some (.trailers [] 0) := by
    simp [afterSize, hparse, hext]
  have hline := run_line x limits (isLine_of_hexdigits hdig) 0 rest
  rw [lineRun, if_pos (by simpa [ascii] using hfit), hafter] at hline
  exact hline

theorem apply_chunked {e e' : BodyEncoder} {fin : BodyFinish} {last : Bytes}
    (he : e.state = .chunked) (h : fin.apply x e = (e', .ok last)) :
    validateTrailers fin.fields = .ok () ∧ ∃ fields, List.Forall₂ Spells fields fin.fields.iter ∧
      last = ascii "0\r\n" ++ headerBlock fields := by
  cases fin with
  | finish =>
    simp only [BodyFinish.apply, BodyEncoder.finish, he] at h
    by_cases hl : e.remainingLower ≠ 0
    · simp [hl, BodyEncoder.fail] at h
    simp only [if_neg hl, BodyEncoder.finishState, he, Prod.mk.injEq, Except.ok.injEq] at h
    exact ⟨by decide, [], .nil, by rw [← h.2]; decide⟩
  | trailers t =>
    simp only [BodyFinish.apply, BodyEncoder.sendTrailers, he] at h
    by_cases hl : e.remainingLower ≠ 0
    · simp [hl, BodyEncoder.fail] at h
    by_cases hv : e.trailers = .none ∨ validateTrailers t ≠ .ok ()
    · rw [if_neg hl, if_pos hv] at h
      cases h
    rw [if_neg hl, if_neg hv] at h
    rcases hwrite : e.writeTrailers x t with error | w
    · simp [hwrite, BodyEncoder.fail] at h
    simp only [hwrite, Prod.mk.injEq, Except.ok.injEq] at h
    obtain ⟨-, rfl⟩ := h
    obtain ⟨w₁, h1, h2⟩ := bind_eq_ok hwrite
    obtain ⟨w₂, h2, h3⟩ := bind_eq_ok h2
    obtain rfl := BoundedWriter.bytes_of_push h1
    obtain ⟨fields, hf, rfl⟩ := writeHeaders_ok h2
    obtain rfl := BoundedWriter.bytes_of_push h3
    have hok : validateTrailers t = .ok () := by
      by_contra hne
      exact hv (.inr hne)
    exact ⟨hok, fields, hf, by simp [headerBlock, BoundedWriter.new]⟩

theorem apply_bare {e e' : BodyEncoder} {fin : BodyFinish} {last : Bytes}
    (he : e.state ≠ .chunked) (h : fin.apply x e = (e', .ok last)) :
    fin = .finish ∧ last = [] ∧ (e.state ≠ .none → e.remainingLower = 0) := by
  cases fin with
  | trailers t =>
    cases hs : e.state <;> simp [BodyFinish.apply, BodyEncoder.sendTrailers, hs, BodyEncoder.fail] at h he
  | finish =>
    cases hs : e.state with
    | none =>
      simp only [BodyFinish.apply, BodyEncoder.finish, hs, BodyEncoder.finishState,
        Prod.mk.injEq, Except.ok.injEq] at h
      exact ⟨rfl, h.2.symm, fun hn => absurd rfl hn⟩
    | chunked => exact absurd hs he
    | done => simp [BodyFinish.apply, BodyEncoder.finish, hs, BodyEncoder.fail] at h
    | failed error => simp [BodyFinish.apply, BodyEncoder.finish, hs] at h
    | _ =>
      simp only [BodyFinish.apply, BodyEncoder.finish, hs] at h
      by_cases hl : e.remainingLower ≠ 0
      · simp [hl, BodyEncoder.fail] at h
      simp only [if_neg hl, BodyEncoder.finishState, hs, Prod.mk.injEq, Except.ok.injEq] at h
      exact ⟨rfl, h.2.symm, fun _ => by simpa using hl⟩

theorem encodeBody_ok {mode : BodyMode} {metadata : BodyMetadata} {config : EncodeConfig}
    {frames : List Bytes} {fin : BodyFinish} {bytes last : Bytes}
    (h : encodeBody x mode metadata config frames fin = .ok (bytes, last)) :
    ∃ e e', BodyEncoder.new mode metadata config = .ok e ∧
      e.encodeFrames frames = (e.charge frames.flatten.length, .ok bytes) ∧
      fin.apply x (e.charge frames.flatten.length) = (e', .ok last) := by
  unfold encodeBody at h
  rcases hn : BodyEncoder.new mode metadata config with error | e
  · simp [hn] at h
  simp only [hn] at h
  rcases hf : e.encodeFrames frames with ⟨e₁, error | bs⟩
  · simp [hf] at h
  obtain ⟨-, -, rfl, -, -⟩ := BodyEncoder.encodeFrames_ok hf
  simp only [hf] at h
  rcases ha : fin.apply x (e.charge frames.flatten.length) with ⟨e₂, error | l⟩
  · simp only [ha] at h
    cases h
  simp only [ha, Except.ok.injEq, Prod.mk.injEq] at h
  obtain ⟨rfl, rfl⟩ := h
  exact ⟨e, e₂, rfl, hf, ha⟩

theorem flatMap_wrap_bare {e : BodyEncoder} (he : e.state ≠ .chunked) (frames : List Bytes) :
    frames.flatMap e.wrap = frames.flatten := by
  have hw : e.wrap = id := funext fun frame => if_neg fun hc => he hc.1
  rw [hw, List.flatMap_id]

/-- The byte-level run over an encoded body and what follows it. -/
theorem run_encodeBody (hb : x.HeaderBlocks) (hn : x.FoldsNames) (hv : x.KeepsValues)
    {mode : BodyMode} {metadata : BodyMetadata} {config : EncodeConfig} {frames : List Bytes}
    {fin : BodyFinish} {bytes last : Bytes}
    (h : encodeBody x mode metadata config frames fin = .ok (bytes, last))
    (hfit : mode = .chunked → LimitsFit x limits frames fin last) (rest : Bytes)
    (hmode : mode ≠ .untilEof) :
    (framing x limits).run mode.start (bytes ++ last ++ rest) =
      ⟨frames.flatten, .done (fin.expected mode, 0) rest⟩ := by
  obtain ⟨e, e', hnew, hframes, hfin⟩ := encodeBody_ok h
  obtain ⟨hw, hu, -, hstate, rfl⟩ := BodyEncoder.encodeFrames_ok hframes
  cases mode with
  | untilEof => exact absurd rfl hmode
  | none =>
    simp only [BodyEncoder.new, Except.ok.injEq] at hnew
    have hs : e.state = .none := by rw [← hnew]
    have hnil : frames = [] := by
      by_contra hne
      exact hstate hne hs
    obtain ⟨rfl, rfl, -⟩ := apply_bare (by simp [BodyEncoder.charge, hs]) hfin
    subst hnil
    exact run_fixed_zero x limits rest
  | fixed length =>
    simp only [BodyEncoder.new] at hnew
    split_ifs at hnew with hc
    rw [not_or, not_not] at hc
    obtain ⟨hlow, hup⟩ := SizeHint.exact_eq_some hc.1
    simp only [Except.ok.injEq] at hnew
    have hs : e.state = .fixed := by rw [← hnew]
    have hel : e.remainingLower = length := by rw [← hnew, ← hlow]
    have heu : e.remainingUpper = some length := by rw [← hnew, hup]
    obtain ⟨rfl, rfl, hzero⟩ := apply_bare (by simp [BodyEncoder.charge, hs]) hfin
    have hle := hu length heu
    have hge : length - frames.flatten.length = 0 := by
      simpa [BodyEncoder.charge, hs, hel] using hzero
    rw [flatMap_wrap_bare (by simp [hs]), List.append_nil, BodyMode.start,
      run_fixed x limits _ _ _ hle, hge, run_fixed_zero]
    simp [Transcript.emit, BodyFinish.expected]
  | chunked =>
    obtain ⟨hlines, hlast, hblock, hcount, hmap⟩ := hfit rfl
    simp only [BodyEncoder.new, Except.ok.injEq] at hnew
    have hs : e.state = .chunked := by rw [← hnew]
    obtain ⟨hok, fields, hf, rfl⟩ := apply_chunked (by simp [BodyEncoder.charge, hs]) hfin
    have hlen : (headerBlock fields).length ≤ limits.maxTrailerBytes := by
      simp [ascii] at hblock
      omega
    rw [List.append_assoc, BodyMode.start, run_frames hw hlines hs, List.append_assoc,
      run_zero_line hlast, run_trailerBlock hb hn hv hf hmap hok hcount hlen]
    cases fin with
    | finish =>
      simp [Transcript.emit, BodyFinish.expected, BodyFinish.fields]
      rfl
    | trailers t => simp [Transcript.emit, BodyFinish.expected, BodyFinish.fields]

theorem run_encodeBody_untilEof (limits : DecodeLimits) {metadata : BodyMetadata} {config : EncodeConfig}
    {frames : List Bytes} {fin : BodyFinish} {bytes last : Bytes}
    (h : encodeBody x .untilEof metadata config frames fin = .ok (bytes, last)) :
    fin = .finish ∧ (framing x limits).run .untilEof (bytes ++ last) =
      ⟨frames.flatten, .more .untilEof⟩ := by
  obtain ⟨e, e', hnew, hframes, hfin⟩ := encodeBody_ok h
  obtain ⟨-, -, -, -, rfl⟩ := BodyEncoder.encodeFrames_ok hframes
  simp only [BodyEncoder.new] at hnew
  split_ifs at hnew
  simp only [Except.ok.injEq] at hnew
  have hs : e.state = .closeDelimited := by rw [← hnew]
  obtain ⟨rfl, rfl, -⟩ := apply_bare (by simp [BodyEncoder.charge, hs]) hfin
  refine ⟨rfl, ?_⟩
  rw [flatMap_wrap_bare (by simp [hs]), run_untilEof, run_nil rfl]
  simp [Transcript.emit]

variable (x)

/-- Every body whose calls the encoder accepts is decoded in the same mode, in any pieces, to its
payload and its trailers, and the decoder stops where the body ends. Size lines are the plain
hexadecimal sizes, and an empty frame adds no bytes. -/
theorem body_roundTrip (hx : x.HeadersWithin) (hb : x.HeaderBlocks) (hn : x.FoldsNames)
    (hv : x.KeepsValues) :
    (∀ (mode : BodyMode) (metadata : BodyMetadata) (config : EncodeConfig) (frames : List Bytes)
      (fin : BodyFinish) (bytes last : Bytes) (limits : DecodeLimits) (rest : Bytes)
      (pieces : List Bytes) (endsEof : Bool),
      encodeBody x mode metadata config frames fin = .ok (bytes, last) →
      (mode = .chunked → LimitsFit x limits frames fin last) →
      (mode = .untilEof → rest = [] ∧ endsEof = true) →
      pieces.flatten = bytes ++ last ++ rest →
      ∃ fuel₀, ∀ fuel ≥ fuel₀, Drive.run x endsEof fuel (Drive.start mode limits pieces) =
        some ⟨.complete, frames.flatten, fin.expected mode, rest⟩) ∧
    (∀ n, 0 < n → n < wordSize → chunkPrefix n = hexText n ++ CRLF ∧
      parseChunkLine (hexText n) = .ok n) ∧
    ∀ (e e' : BodyEncoder) (framing : DataFraming), e.data 0 = (e', .ok framing) →
      framing = ⟨[], []⟩ := by
  refine ⟨?_, fun n h hw => ⟨chunkPrefix_eq h hw, ?_⟩, ?_⟩
  · intro mode metadata config frames fin bytes last limits rest pieces endsEof h hfit heof hcut
    refine ⟨(Drive.start mode limits pieces).turns, fun fuel hfuel => ?_⟩
    have hrun : summary endsEof ((framing x limits).run mode.start pieces.flatten) =
        ⟨.complete, frames.flatten, fin.expected mode, rest⟩ := by
      rw [hcut]
      by_cases hmode : mode = .untilEof
      · subst hmode
        obtain ⟨rfl, rfl⟩ := heof rfl
        obtain ⟨rfl, hr⟩ := run_encodeBody_untilEof limits h
        rw [List.append_nil, BodyMode.start, hr]
        rfl
      · rw [run_encodeBody hb hn hv h hfit rest hmode]
        rfl
    obtain ⟨r, hr, ha⟩ := Drive.run_of_following hx endsEof
      (Drive.following_start x mode limits pieces) fuel (by simp only [Drive.turns] at hfuel; omega)
    rw [hrun] at ha
    obtain ⟨h1, h2, h3⟩ := ha
    obtain ⟨h3, h4⟩ := h3 h1
    rw [hr]
    obtain ⟨v, p, t, r⟩ := r
    simp only at h1 h2 h3 h4
    rw [h1, h2, h3, h4]
  · exact (parseChunkLine_digits (hexText_ne_nil h) (fun b => hexText_mem) (hexFold_hexText hw)).1
  · intro e e' framing h
    obtain ⟨-, -, -, -, hf⟩ := BodyEncoder.data_ok h
    simpa [DataFraming.bare] using hf

/-- A chunked body with an empty frame between two others, and one trailer field. -/
def sampleFrames : List Bytes := [ascii "hello", [], ascii " world"]

def sampleTrailers : Headers :=
  HeaderMap.empty.append ⟨ascii "x-sum", by decide, by decide, by decide⟩ ⟨ascii " 7 ", by decide⟩

def sampleConfig : EncodeConfig := ⟨1024, 1024, true, by decide, by decide⟩

theorem body_roundTrip_sample :
    ∃ fuel₀, ∀ fuel ≥ fuel₀, Drive.run reference false fuel
      (Drive.start .chunked .default
        [ascii "5\r\nhello\r\n6\r\n wor", ascii "ld\r\n0\r\nX-Sum:  7 \r\n\r\nGET"]) =
      some ⟨.complete, ascii "hello world",
        some (sampleTrailers.mapValues HeaderValue.trimmed), ascii "GET"⟩ := by
  have henc : encodeBody reference .chunked ⟨.new, .mayHave⟩ sampleConfig sampleFrames
      (.trailers sampleTrailers) = .ok (ascii "5\r\nhello\r\n6\r\n world\r\n",
        ascii "0\r\nX-Sum:  7 \r\n\r\n") := by rfl
  exact (body_roundTrip reference Reference.headersWithin Reference.headerBlocks
    Reference.foldsNames Reference.keepsValues).1 .chunked _ _ sampleFrames _ _ _ .default
    (ascii "GET") _ false henc
    (fun _ => ⟨by decide, by decide, by decide, by decide, by decide⟩) (by simp) (by decide)

end Vakya
