import Vakya.Encode
import Vakya.Reference
import Vakya.Library.Machine
import Mathlib.Algebra.GroupWithZero.Nat

/-!
# Length accounting of the body encoder

The encoder keeps what is left of the promised bounds. Along every sequence of
calls the bounds and the bytes accepted so far add up, the body ends at most
once, and the first error is the answer to every later call.
-/

namespace Vakya

open Library

inductive EncoderCall
  | data (length : ℕ)
  | trailers (fields : Headers)
  | finish

inductive EncoderOutput
  | framing (framing : DataFraming)
  | last (bytes : Bytes)

abbrev EncoderResult := Except EncodeError EncoderOutput

def BodyEncoder.step (x : Crates) (e : BodyEncoder) : EncoderCall → BodyEncoder × EncoderResult
  | .data length => (e.data length).map id (Except.map .framing)
  | .trailers fields => (e.sendTrailers x fields).map id (Except.map .last)
  | .finish => e.finish.map id (Except.map .last)

def bodyEncoder (x : Crates) : Machine BodyEncoder EncoderCall EncoderResult where
  step e call := some (e.step x call)

def acceptedBytes : EncoderCall × EncoderResult → ℕ
  | (.data length, .ok (.framing _)) => length
  | _ => 0

def sentBytes (tr : List (EncoderCall × EncoderResult)) : ℕ := (tr.map acceptedBytes).sum

@[simp] theorem sentBytes_append (tr tr' : List (EncoderCall × EncoderResult)) :
    sentBytes (tr ++ tr') = sentBytes tr + sentBytes tr' := by
  simp [sentBytes]

@[simp] theorem sentBytes_single (y : EncoderCall × EncoderResult) : sentBytes [y] = acceptedBytes y := by
  simp [sentBytes]

namespace BodyState

def isOpen : BodyState → Bool
  | .fixed | .chunked | .closeDelimited => true
  | _ => false

end BodyState

def BodyMode.encoding : BodyMode → BodyState
  | .none => .none
  | .fixed _ => .fixed
  | .chunked => .chunked
  | .untilEof => .closeDelimited

namespace BodyEncoder

variable {x : Crates} {e e' : BodyEncoder} {call : EncoderCall} {r : EncoderResult}

def Fails (e e' : BodyEncoder) (r : EncoderResult) : Prop :=
  ∃ error, r = .error error ∧ e' = { e with state := .failed error } ∧
    ∀ before, e.state = .failed before → error = before

def Accepts (e e' : BodyEncoder) (call : EncoderCall) (r : EncoderResult) : Prop :=
  ∃ n framing, call = .data n ∧ r = .ok (.framing framing) ∧ e.state.isOpen = true ∧
    (∀ u ∈ e.remainingUpper, n ≤ u) ∧
    e' = { e with
      remainingLower := e.remainingLower - n
      remainingUpper := e.remainingUpper.map (· - n) }

def Ends (e e' : BodyEncoder) (call : EncoderCall) (r : EncoderResult) : Prop :=
  ∃ bytes, r = .ok (.last bytes) ∧ e' = { e with state := .done } ∧
    (e.state = .none ∨ e.state.isOpen = true ∧ e.remainingLower = 0) ∧ (∀ n, call ≠ .data n) ∧
    ∀ fields, call = .trailers fields → e.state = .chunked ∧ e.trailers = .mayHave ∧
      validateTrailers fields = .ok ()

theorem fails_fail (h : ∀ before, e.state ≠ .failed before) (error : EncodeError) :
    Fails e { e with state := .failed error } (.error error) :=
  ⟨error, rfl, rfl, fun before hb => absurd hb (h before)⟩

theorem fails_again {error : EncodeError} (h : e.state = .failed error) : Fails e e (.error error) := by
  refine ⟨error, rfl, ?_, ?_⟩
  · rw [← h]
  · intro before hb
    rw [h] at hb
    cases hb
    rfl

theorem data_cases (n : ℕ) :
    Fails e (e.step x (.data n)).1 (e.step x (.data n)).2 ∨
      Accepts e (e.step x (.data n)).1 (.data n) (e.step x (.data n)).2 := by
  have hopen (hs : e.state.isOpen = true) (hnot : ∀ before, e.state ≠ .failed before)
      (hdata : e.data n = if wordSize ≤ n then e.fail .lengthMismatch
        else if e.remainingUpper.any (n > ·) then e.fail .lengthMismatch
        else frameData { e with
          remainingLower := e.remainingLower - n
          remainingUpper := e.remainingUpper.map (· - n) } n) :
      Fails e (e.step x (.data n)).1 (e.step x (.data n)).2 ∨
        Accepts e (e.step x (.data n)).1 (.data n) (e.step x (.data n)).2 := by
    rw [step, hdata]
    split_ifs with hword hupper
    · exact .inl (fails_fail hnot _)
    · exact .inl (fails_fail hnot _)
    · have hle : ∀ u ∈ e.remainingUpper, n ≤ u := by
        intro u hu
        by_contra hlt
        apply hupper
        rw [Option.any_eq_true]
        exact ⟨u, hu, by simpa using hlt⟩
      right
      cases hstate : e.state with
      | fixed | chunked | closeDelimited =>
        simp only [frameData]
        exact ⟨n, _, rfl, rfl, hs, hle, by rw [hstate]; rfl⟩
      | none | done | failed before => simp [hstate, BodyState.isOpen] at hs
  cases hstate : e.state with
  | fixed | chunked | closeDelimited =>
    exact hopen (by rw [hstate]; rfl) (by simp [hstate]) (by simp only [data, hstate])
  | none | done =>
    left
    simp only [step, data, hstate]
    exact fails_fail (by simp [hstate]) _
  | failed error =>
    left
    simp only [step, data, hstate]
    exact fails_again hstate

theorem trailers_cases (fields : Headers) :
    Fails e (e.step x (.trailers fields)).1 (e.step x (.trailers fields)).2 ∨
      Ends e (e.step x (.trailers fields)).1 (.trailers fields) (e.step x (.trailers fields)).2 := by
  cases hstate : e.state with
  | fixed | closeDelimited | none | done =>
    left
    simp only [step, sendTrailers, hstate]
    exact fails_fail (by simp [hstate]) _
  | failed error =>
    left
    simp only [step, sendTrailers, hstate]
    exact fails_again hstate
  | chunked =>
    have hnot : ∀ before, e.state ≠ .failed before := by simp [hstate]
    simp only [step, sendTrailers, hstate]
    split_ifs with hlower hallowed
    · exact .inl (fails_fail hnot _)
    · exact .inl (fails_fail hnot _)
    · cases e.writeTrailers x fields with
      | error error => exact .inl (fails_fail hnot _)
      | ok w =>
        right
        obtain ⟨hhint, hvalid⟩ := not_or.mp hallowed
        have hmay : e.trailers = .mayHave := by
          cases htr : e.trailers with
          | none => exact absurd htr hhint
          | mayHave => rfl
        refine ⟨w.bytes, rfl, rfl, .inr ⟨by rw [hstate]; rfl, not_not.mp hlower⟩, by simp, ?_⟩
        rintro fields' ⟨⟩
        exact ⟨hstate, hmay, not_not.mp hvalid⟩

theorem finish_cases :
    Fails e (e.step x .finish).1 (e.step x .finish).2 ∨
      Ends e (e.step x .finish).1 .finish (e.step x .finish).2 := by
  cases hstate : e.state with
  | done =>
    left
    simp only [step, finish, hstate]
    exact fails_fail (by simp [hstate]) _
  | failed error =>
    left
    simp only [step, finish, hstate]
    exact fails_again hstate
  | none =>
    right
    simp only [step, finish, finishState, hstate]
    exact ⟨_, rfl, rfl, .inl hstate, by simp, by simp⟩
  | fixed | chunked | closeDelimited =>
    have hnot : ∀ before, e.state ≠ .failed before := by simp [hstate]
    simp only [step, finish, hstate]
    split_ifs with hlower
    · exact .inl (fails_fail hnot _)
    · right
      simp only [finishState, hstate]
      exact ⟨_, rfl, rfl, .inr ⟨by rw [hstate]; rfl, not_not.mp hlower⟩, by simp, by simp⟩

theorem step_cases (h : e.step x call = (e', r)) : Fails e e' r ∨ Accepts e e' call r ∨ Ends e e' call r := by
  obtain ⟨rfl, rfl⟩ : e' = (e.step x call).1 ∧ r = (e.step x call).2 := by rw [h]; exact ⟨rfl, rfl⟩
  cases call with
  | data n => exact (data_cases n).imp_right .inl
  | trailers fields => exact (trailers_cases fields).imp_right .inr
  | finish => exact finish_cases.imp_right .inr

variable {mode : BodyMode} {metadata : BodyMetadata} {config : EncodeConfig}
  {tr : List (EncoderCall × EncoderResult)}

def isEnd : EncoderCall × EncoderResult → Bool
  | (_, .ok (.last _)) => true
  | _ => false

/-- The books: what is left and what was let through add up to what was promised, and the state
tells how the calls went. -/
structure Accounted (mode : BodyMode) (metadata : BodyMetadata) (tr : List (EncoderCall × EncoderResult))
    (e : BodyEncoder) : Prop where
  lower : e.remainingLower = metadata.size.lower - sentBytes tr
  upper : e.remainingUpper = metadata.size.upper.map (· - sentBytes tr)
  within : ∀ u ∈ metadata.size.upper, sentBytes tr ≤ u
  hint : e.trailers = metadata.trailers
  once : tr.countP isEnd ≤ 1
  state : (∃ error, e.state = .failed error) ∨ (e.state = .done ∧ tr.countP isEnd = 1) ∨
    e.state = mode.encoding ∧ tr.countP isEnd = 0

theorem accounted_new (h : new mode metadata config = .ok e) : Accounted mode metadata [] e := by
  have hbuilt (he : e = ⟨mode.encoding, config.maxTrailerBytes, config.titleCaseHeaders, metadata.size.lower,
      metadata.size.upper, metadata.trailers⟩) : Accounted mode metadata [] e := by
    subst he
    refine ⟨by simp [sentBytes], by simp [sentBytes], by simp [sentBytes], rfl, by simp, .inr (.inr ⟨rfl, rfl⟩)⟩
  apply hbuilt
  cases mode with
  | none | chunked =>
    cases h
    rfl
  | fixed length =>
    simp only [new] at h
    split_ifs at h
    cases h
    rfl
  | untilEof =>
    simp only [new] at h
    split_ifs at h
    cases h
    rfl

theorem Accounted.encoding (h : Accounted mode metadata tr e)
    (hlive : e.state = .none ∨ e.state.isOpen = true) : e.state = mode.encoding ∧ tr.countP isEnd = 0 := by
  rcases h.state with ⟨error, hs⟩ | ⟨hs, -⟩ | hs
  · simp [hs, BodyState.isOpen] at hlive
  · simp [hs, BodyState.isOpen] at hlive
  · exact hs

theorem Accounted.fits (h : Accounted mode metadata tr e) {n : ℕ} (hle : ∀ left ∈ e.remainingUpper, n ≤ left) :
    ∀ u ∈ metadata.size.upper, sentBytes tr + n ≤ u := by
  intro u hu
  have hwithin := h.within u hu
  have hleft := hle (u - sentBytes tr) (by simp [h.upper, Option.mem_def.mp hu])
  omega

theorem Accounted.lower_le (h : Accounted mode metadata tr e)
    (hlive : e.state = .none ∨ e.state.isOpen = true ∧ e.remainingLower = 0) (hmode : mode ≠ .none) :
    metadata.size.lower ≤ sentBytes tr := by
  obtain ⟨hstate, -⟩ := h.encoding (hlive.imp_right And.left)
  have hlower := h.lower
  have hzero : e.remainingLower = 0 := by
    rcases hlive with hnone | ⟨-, hzero⟩
    · rw [hstate] at hnone
      cases mode <;> simp_all [BodyMode.encoding]
    · exact hzero
  omega

theorem Accounted.step (h : Accounted mode metadata tr e) (hs : e.step x call = (e', r)) :
    Accounted mode metadata (tr ++ [(call, r)]) e' := by
  rcases step_cases hs with ⟨error, rfl, rfl, -⟩ | ⟨n, framing, rfl, rfl, hopen, hle, rfl⟩ |
    ⟨bytes, rfl, rfl, hlive, hcall, -⟩
  · have hzero : acceptedBytes (call, .error error) = 0 := by cases call <;> rfl
    have hend : isEnd (call, .error error) = false := rfl
    refine ⟨?_, ?_, ?_, h.hint, ?_, .inl ⟨error, rfl⟩⟩
    · simpa [hzero] using h.lower
    · simpa [hzero] using h.upper
    · simpa [hzero] using h.within
    · simpa [hend] using h.once
  · have hframe : acceptedBytes (.data n, .ok (.framing framing)) = n := rfl
    have hend : isEnd (.data n, .ok (.framing framing)) = false := rfl
    obtain ⟨hstate, hnone⟩ := h.encoding (.inr hopen)
    refine ⟨?_, ?_, ?_, h.hint, ?_, .inr (.inr ⟨hstate, ?_⟩)⟩
    · simp only [sentBytes_append, sentBytes_single, hframe, h.lower]
      omega
    · simp only [sentBytes_append, sentBytes_single, hframe, h.upper, Option.map_map]
      congr 1
      funext u
      simp only [Function.comp_apply]
      omega
    · simp only [sentBytes_append, sentBytes_single, hframe]
      exact h.fits hle
    · simpa [hend] using h.once
    · simpa [hend] using hnone
  · have hzero : acceptedBytes (call, .ok (.last bytes)) = 0 := by cases call <;> rfl
    have hend : isEnd (call, .ok (.last bytes)) = true := rfl
    obtain ⟨-, hnone⟩ := h.encoding (hlive.imp_right And.left)
    refine ⟨?_, ?_, ?_, h.hint, ?_, .inr (.inl ⟨rfl, ?_⟩)⟩
    · simpa [hzero] using h.lower
    · simpa [hzero] using h.upper
    · simpa [hzero] using h.within
    · simp [hend, hnone]
    · simp [hend, hnone]

theorem accounted_of_reaches {e₀ : BodyEncoder} (hnew : new mode metadata config = .ok e₀)
    (h : (bodyEncoder x).Reaches e₀ tr e) : Accounted mode metadata tr e := by
  apply h.invariant (accounted_new hnew)
  intro tr e call e' r hacc hs
  exact hacc.step (Option.some.inj hs)

theorem errors_of_failed {error : EncodeError} (hfailed : e.state = .failed error)
    (h : (bodyEncoder x).Reaches e tr e') : e'.state = .failed error ∧ ∀ z ∈ tr, z.2 = .error error := by
  apply h.invariant (P := fun tr e => e.state = .failed error ∧ ∀ z ∈ tr, z.2 = .error error)
    ⟨hfailed, by simp⟩
  rintro tr e call e' r ⟨hstate, htr⟩ hs
  rcases step_cases (Option.some.inj hs) with ⟨error', rfl, rfl, hsame⟩ | ⟨n, framing, -, -, hopen, -⟩ |
    ⟨bytes, -, -, hlive, -⟩
  · obtain rfl := hsame error hstate
    refine ⟨rfl, fun z hz => ?_⟩
    rcases List.mem_append.mp hz with hz | hz
    · exact htr z hz
    · rw [List.mem_singleton.mp hz]
  · simp [hstate, BodyState.isOpen] at hopen
  · simp [hstate, BodyState.isOpen] at hlive

theorem errors_of_done (hdone : e.state = .done) (h : (bodyEncoder x).Reaches e tr e') :
    ∀ z ∈ tr, ∃ error, z.2 = .error error := by
  have hall : (e'.state = .done ∨ ∃ error, e'.state = .failed error) ∧ ∀ z ∈ tr, ∃ error, z.2 = .error error := by
    apply h.invariant (P := fun tr e => (e.state = .done ∨ ∃ error, e.state = .failed error) ∧
      ∀ z ∈ tr, ∃ error, z.2 = .error error) ⟨.inl hdone, by simp⟩
    rintro tr e call e' r ⟨hstate, htr⟩ hs
    have hclosed : ¬(e.state = .none ∨ e.state.isOpen = true) := by
      rcases hstate with hs | ⟨error, hs⟩ <;> simp [hs, BodyState.isOpen]
    rcases step_cases (Option.some.inj hs) with ⟨error, rfl, rfl, -⟩ | ⟨n, framing, -, -, hopen, -⟩ |
      ⟨bytes, -, -, hlive, -⟩
    · refine ⟨.inr ⟨error, rfl⟩, fun z hz => ?_⟩
      rcases List.mem_append.mp hz with hz | hz
      · exact htr z hz
      · rw [List.mem_singleton.mp hz]
        exact ⟨error, rfl⟩
    · exact absurd (.inr hopen) hclosed
    · exact absurd (hlive.imp_right And.left) hclosed
  exact hall.2

theorem exact_of_new {n : ℕ} (h : new (.fixed n) metadata config = .ok e) :
    metadata.size.lower = n ∧ metadata.size.upper = some n := by
  simp only [new] at h
  split_ifs at h with hexact
  exact SizeHint.exact_eq_some (not_not.mp (not_or.mp hexact).1)

theorem Accounted.sent_eq {e₀ : BodyEncoder} {n : ℕ} (h : Accounted (.fixed n) metadata tr e)
    (hnew : new (.fixed n) metadata config = .ok e₀)
    (hlive : e.state = .none ∨ e.state.isOpen = true ∧ e.remainingLower = 0) : sentBytes tr = n := by
  obtain ⟨hlow, hup⟩ := exact_of_new hnew
  have hge := h.lower_le hlive (by simp)
  have hwithin := h.within n (by simp [hup])
  omega

theorem sentBytes_of_errors (h : ∀ z ∈ tr, ∃ error, z.2 = .error error) : sentBytes tr = 0 := by
  induction tr with
  | nil => rfl
  | cons y tr ih =>
    obtain ⟨call, r⟩ := y
    obtain ⟨error, rfl⟩ := h (call, r) (by simp)
    have hzero : acceptedBytes (call, .error error) = 0 := by cases call <;> rfl
    have hrest := ih fun z hz => h z (by simp [hz])
    simp only [sentBytes, List.map_cons, List.sum_cons, hzero] at hrest ⊢
    omega

end BodyEncoder

open BodyEncoder

/-- Length accounting. What is left of the upper bound and what was let through add up to the
bound, so no subtraction of the encoder wraps. A data frame is let through only within the bound
and never without a body; anything else returns an error and no framing. The body ends at most
once, with at least the lower bound sent (in mode `Fixed(n)` exactly `n` bytes), and with trailers
only if they were announced, are chunked and allowed; every call after the end fails. The first
error is the answer to every later call. -/
theorem encoder_accounting {x : Crates} {mode : BodyMode} {metadata : BodyMetadata} {config : EncodeConfig}
    {e₀ e : BodyEncoder} (hnew : BodyEncoder.new mode metadata config = .ok e₀)
    {tr : List (EncoderCall × EncoderResult)} (h : (bodyEncoder x).Reaches e₀ tr e) :
    (∀ u ∈ metadata.size.upper, ∃ left, e.remainingUpper = some left ∧ left + sentBytes tr = u) ∧
    tr.countP isEnd ≤ 1 ∧
    ∀ before call r after, tr = before ++ (call, r) :: after →
      (∀ n, call = .data n → (∃ error, r = .error error) ∨
        (∃ framing, r = .ok (.framing framing)) ∧ mode ≠ .none ∧
          ∀ u ∈ metadata.size.upper, sentBytes before + n ≤ u) ∧
      (∀ bytes, r = .ok (.last bytes) →
        (mode ≠ .none → metadata.size.lower ≤ sentBytes before) ∧
        (∀ n, mode = .fixed n → sentBytes before = n ∧ sentBytes tr = n) ∧
        (∀ fields, call = .trailers fields → mode = .chunked ∧ metadata.trailers = .mayHave ∧
          validateTrailers fields = .ok ()) ∧
        ∀ z ∈ after, ∃ error, z.2 = .error error) ∧
      (∀ error, r = .error error → ∀ z ∈ after, z.2 = .error error) := by
  have hacc := accounted_of_reaches hnew h
  refine ⟨fun u hu => ⟨u - sentBytes tr, ?_, ?_⟩, hacc.once, ?_⟩
  · rw [hacc.upper, Option.mem_def.mp hu]
    rfl
  · have := hacc.within u hu
    omega
  intro before call r after htr
  subst htr
  -- The run up to the call, the call, and the rest.
  obtain ⟨e₁, e₂, hbefore, hcall, hafter⟩ := h.step_at
  have hs : e₁.step x call = (e₂, r) := Option.some.inj hcall
  have hacc₁ := accounted_of_reaches hnew hbefore
  rcases step_cases hs with ⟨error, rfl, rfl, -⟩ | ⟨n, framing, rfl, rfl, hopen, hle, rfl⟩ |
    ⟨bytes, rfl, rfl, hlive, hnot, hfields⟩
  · refine ⟨fun n _ => .inl ⟨error, rfl⟩, by simp, ?_⟩
    rintro error' ⟨⟩
    exact (errors_of_failed rfl hafter).2
  · refine ⟨?_, by simp, by simp⟩
    rintro n' ⟨⟩
    refine .inr ⟨⟨framing, rfl⟩, ?_, hacc₁.fits hle⟩
    rintro rfl
    obtain ⟨hstate, -⟩ := hacc₁.encoding (.inr hopen)
    simp [hstate, BodyMode.encoding, BodyState.isOpen] at hopen
  · obtain ⟨hstate, -⟩ := hacc₁.encoding (hlive.imp_right And.left)
    have herrors := errors_of_done rfl hafter
    refine ⟨fun n hn => absurd hn (hnot n), ?_, by simp⟩
    rintro bytes' ⟨⟩
    refine ⟨hacc₁.lower_le hlive, ?_, fun fields hf => ?_, herrors⟩
    · rintro n rfl
      have hsent : sentBytes before = n := hacc₁.sent_eq hnew hlive
      have hlast : acceptedBytes (call, .ok (.last bytes)) = 0 := by cases call <;> rfl
      refine ⟨hsent, ?_⟩
      -- after the end nothing is let through, so the sum stands
      rw [List.append_cons, sentBytes_append, sentBytes_append, sentBytes_single, hlast,
        sentBytes_of_errors herrors, hsent]
      omega
    · obtain ⟨hchunked, hmay, hvalid⟩ := hfields fields hf
      refine ⟨?_, hacc₁.hint ▸ hmay, hvalid⟩
      rw [hstate] at hchunked
      cases mode <;> simp_all [BodyMode.encoding]

/-- A body of three bytes: an early end, and then nothing but the error. -/
theorem encoder_accounting_sample :
    ∃ e₀ e, ∃ tr, BodyEncoder.new (.fixed 3) ⟨.withExact 3 (by decide), .none⟩
        ⟨64, 64, false, by decide, by decide⟩ = .ok e₀ ∧
      (bodyEncoder reference).Reaches e₀ tr e ∧
      tr.map Prod.snd = [.ok (.framing .bare), .error .lengthMismatch, .error .lengthMismatch] ∧
      ∃ left, e.remainingUpper = some left ∧ left + sentBytes tr = 3 := by
  have hrun : (bodyEncoder reference).run
      ⟨.fixed, 64, false, 3, some 3, .none⟩ [.data 1, .finish, .data 1] = some (_, _) := rfl
  have hreach := Machine.reaches_of_run hrun
  have hnew : BodyEncoder.new (.fixed 3) ⟨.withExact 3 (by decide), .none⟩
      ⟨64, 64, false, by decide, by decide⟩ = .ok ⟨.fixed, 64, false, 3, some 3, .none⟩ := rfl
  exact ⟨_, _, _, hnew, hreach, rfl, (encoder_accounting hnew hreach).1 3 rfl⟩

end Vakya
