import Vakya.Adapters
import Vakya.SendBody

/-!
# Collecting a body (`collect.rs`)

`collect` copies the payload of any body into one buffer, within a limit and
within what the body announced at first. The body may break its contract, and
the allocator may round up or refuse. Dropping the future discards everything,
so a run is a prefix of the loop.
-/

namespace Vakya

open Library

/-! ## The buffer -/

structure CollectBuffer where
  bytes : Bytes
  capacity : ℕ
  fits : bytes.length ≤ capacity

/-- A call of `try_reserve_exact`: the length, the capacity that is asked for, and whether there is
that much. -/
structure Reservation where
  length : ℕ
  target : ℕ
  granted : Bool

namespace CollectBuffer

def empty : CollectBuffer := ⟨[], 0, le_refl _⟩

/-- `Vec::try_reserve_exact`. `grant` is the capacity that the allocator gives if it is asked; what it
gives is at least what it was asked for. -/
def tryReserveExact (d : CollectBuffer) (additional : ℕ) (grant : Option ℕ) :
    Option (Option CollectBuffer) :=
  if additional ≤ d.capacity - d.bytes.length then some (some d)
  else
    match grant with
    | none => some none
    | some c =>
      if h : d.bytes.length + additional ≤ c then
        some (some ⟨d.bytes, c, le_trans (Nat.le_add_right _ _) h⟩)
      else none

def extend (d : CollectBuffer) (frame : Bytes) : CollectBuffer where
  bytes := d.bytes ++ frame
  capacity := max d.capacity (d.bytes.length + frame.length)
  fits := by
    rw [List.length_append]
    exact le_max_right _ _

/-- What `extend_from_slice` asks for by itself when the capacity does not suffice. -/
def extendAsks (d : CollectBuffer) (frame : Bytes) : List Reservation :=
  if d.bytes.length + frame.length ≤ d.capacity then []
  else [⟨d.bytes.length, max (d.capacity * 2) (d.bytes.length + frame.length), true⟩]

def reserveForAppend (d : CollectBuffer) (newLen limit : ℕ) (grant : Option ℕ) :
    Option (Option CollectBuffer × List Reservation) :=
  if newLen ≤ d.capacity then some (some d, [])
  else
    -- `capacity().saturating_mul(2)`
    let target := min (max (min (d.capacity * 2) (wordSize - 1)) newLen) limit
    (d.tryReserveExact (target - d.bytes.length) grant).map fun r =>
      (r, [⟨d.bytes.length, target, r.isSome⟩])

end CollectBuffer

/-! ## The loop -/

inductive CollectError (E : Type)
  | body (error : E)
  | limitExceeded (limit : ℕ)
  | lengthOverflow
  | allocation
  | lengthMismatch
  | unexpectedTrailers
  | invalidSequence

def checkedTotal {E : Type} (current additional limit : ℕ) : Except (CollectError E) ℕ :=
  if wordSize ≤ current + additional then .error .lengthOverflow
  else if limit < current + additional then .error (.limitExceeded limit)
  else .ok (current + additional)

structure Collected where
  data : Bytes
  trailers : Option Headers

structure Collecting where
  hint : SizeHint
  trailerHint : TrailerHint
  data : CollectBuffer
  trailers : Option Headers

inductive CollectPhase (E : Type)
  | starting
  | looping (c : Collecting)
  | returned (result : Except (CollectError E) Collected)

structure Collector (S E : Type) where
  body : S
  phase : CollectPhase E

/-- The future is polled for the first time, or while it waits for a frame; `grant` answers the
allocation that follows, if there is one. -/
inductive CollectEvent (I : Type)
  | begin (grant : Option ℕ)
  | poll (input : I) (grant : Option ℕ)

structure CollectOutput (D E : Type) where
  obtained : Option (FrameResult D E)
  recycled : List D
  asked : List Reservation
  returned : Option (Except (CollectError E) Collected)

namespace Collector

variable {I D E : Type} (b : Body I D E) (limit : ℕ)

def append {E : Type} (limit : ℕ) (data : CollectBuffer) (frame : Bytes) (hint : SizeHint)
    (afterTrailers : Bool) (grant : Option ℕ) :
    Option (Except (CollectError E) CollectBuffer × List Reservation) :=
  if afterTrailers then some (.error .invalidSequence, [])
  else
    match checkedTotal data.bytes.length frame.length limit with
    | .error e => some (.error e, [])
    | .ok newLen =>
      if hint.upper.any (· < newLen) then some (.error .lengthMismatch, [])
      else
        match data.reserveForAppend newLen limit grant with
        | none => none
        | some (none, asked) => some (.error .allocation, asked)
        | some (some data, asked) => some (.ok (data.extend frame), asked ++ data.extendAsks frame)

def returns (s : b.State) (obtained : Option (FrameResult D E)) (recycled : List D)
    (asked : List Reservation) (result : Except (CollectError E) Collected) :
    Collector b.State E × CollectOutput D E :=
  (⟨s, .returned result⟩, ⟨obtained, recycled, asked, some result⟩)

/-- What comes before the loop; `none` when a hint of the body panics. -/
def start (s : b.State) (grant : Option ℕ) : Option (Collector b.State E × CollectOutput D E) :=
  match b.sizeHint s, b.trailerHint s with
  | some hint, some trailerHint =>
    if limit < hint.lower then some (returns b s none [] [] (.error (.limitExceeded limit)))
    else if hint.exact.any (wordSize ≤ ·) then some (returns b s none [] [] (.error .lengthOverflow))
    else
      let initial := hint.exact.getD 0
      match CollectBuffer.empty.tryReserveExact initial grant with
      | none => none
      | some none => some (returns b s none [] [⟨0, initial, false⟩] (.error .allocation))
      | some (some data) =>
        some (⟨s, .looping ⟨hint, trailerHint, data, none⟩⟩, ⟨none, [], [⟨0, initial, true⟩], none⟩)
  | _, _ => none

/-- The loop with a result of the body, whose state is then `s`. -/
def receive (c : Collecting) (s : b.State) (grant : Option ℕ) (r : FrameResult D E) :
    Option (Collector b.State E × CollectOutput D E) :=
  match r with
  | .error e => some (returns b s (some r) [] [] (.error (.body e)))
  | .ok none =>
    if c.data.bytes.length < c.hint.lower then
      some (returns b s (some r) [] [] (.error .lengthMismatch))
    else some (returns b s (some r) [] [] (.ok ⟨c.data.bytes, c.trailers⟩))
  | .ok (some (.data data)) =>
    match append limit c.data (b.asInit data) c.hint c.trailers.isSome grant with
    | none => none
    | some (.error e, asked) =>
      some (returns b (b.recycle s data) (some r) [data] asked (.error e))
    | some (.ok buffer, asked) =>
      some (⟨b.recycle s data, .looping { c with data := buffer }⟩, ⟨some r, [data], asked, none⟩)
  | .ok (some (.trailers fields)) =>
    if c.trailers.isSome then some (returns b s (some r) [] [] (.error .invalidSequence))
    else if c.trailerHint = .none then
      some (returns b s (some r) [] [] (.error .unexpectedTrailers))
    else some (⟨s, .looping { c with trailers := some fields }⟩, ⟨some r, [], [], none⟩)

end Collector

def collect {I D E : Type} (b : Body I D E) (limit : ℕ) :
    Machine (Collector b.State E) (CollectEvent I) (CollectOutput D E) where
  step t e :=
    match t.phase, e with
    | .starting, .begin grant => Collector.start b limit t.body grant
    | .looping c, .poll i grant =>
      match b.nextFrame t.body i with
      | none => none
      | some (s, .pending) => some (⟨s, .looping c⟩, ⟨none, [], [], none⟩)
      | some (s, .ready r) => Collector.receive b limit c s grant r
    | _, _ => none

/-! ## What is accepted -/

section Accepted

variable {I D E : Type} (b : Body I D E)

def Frame.trailers? : Frame D → Option Headers
  | .data _ => none
  | .trailers fields => some fields

def content (frames : List (Frame D)) : Bytes := (frames.filterMap Frame.data?).flatMap b.asInit

/-- The frames that a body may produce before its end. -/
structure Acceptable (limit : ℕ) (hint : SizeHint) (trailerHint : TrailerHint) (frames : List (Frame D)) :
    Prop where
  trailers : ∀ before fields later, frames = before ++ .trailers fields :: later →
    later = [] ∧ trailerHint ≠ .none
  limit : (content b frames).length ≤ limit
  lower : hint.lower ≤ (content b frames).length
  upper : ∀ u ∈ hint.upper, (content b frames).length ≤ u

def frameResults (frames : List (Frame D)) : List (FrameResult D E) := frames.map fun f => .ok (some f)

variable {b}

theorem content_append (frames frames' : List (Frame D)) :
    content b (frames ++ frames') = content b frames ++ content b frames' := by
  simp [content]

@[simp] theorem content_data (d : D) : content b [.data d] = b.asInit d := by
  simp [content, Frame.data?]

@[simp] theorem content_trailers (fields : Headers) : content b [.trailers fields] = [] := by
  simp [content, Frame.data?]

/-- The trailers that were seen are the last frame, and they were allowed. -/
inductive InSequence (trailerHint : TrailerHint) : List (Frame D) → Option Headers → Prop
  | data {frames : List (Frame D)} (h : ∀ f ∈ frames, f.isTrailers = false) :
      InSequence trailerHint frames none
  | trailers {frames : List (Frame D)} (h : ∀ f ∈ frames, f.isTrailers = false) (fields : Headers)
      (hint : trailerHint ≠ .none) : InSequence trailerHint (frames ++ [.trailers fields]) (some fields)

theorem InSequence.acceptable {th : TrailerHint} {frames : List (Frame D)} {trailers : Option Headers}
    (h : InSequence th frames trailers) (before : List (Frame D)) (fields : Headers) (later : List (Frame D))
    (heq : frames = before ++ .trailers fields :: later) : later = [] ∧ th ≠ .none := by
  cases h with
  | data h =>
    have := h (.trailers fields) (heq ▸ by simp)
    cases this
  | @trailers frames h fields' hint =>
    refine ⟨?_, hint⟩
    by_contra hne
    -- the trailers would be among the data
    obtain ⟨later', last, rfl⟩ := (List.eq_nil_or_concat later).resolve_left hne
    have hsplit : frames ++ [.trailers fields'] = (before ++ .trailers fields :: later') ++ [last] := by
      simpa using heq
    obtain ⟨rfl, -⟩ := List.append_inj' hsplit rfl
    have := h (.trailers fields) (by simp)
    cases this

theorem InSequence.findSome {th : TrailerHint} {frames : List (Frame D)} {trailers : Option Headers}
    (h : InSequence th frames trailers) : frames.findSome? Frame.trailers? = trailers := by
  have hnone (fs : List (Frame D)) (hfs : ∀ f ∈ fs, f.isTrailers = false) :
      fs.findSome? Frame.trailers? = none := by
    rw [List.findSome?_eq_none_iff]
    intro f hf
    cases f with
    | data d => rfl
    | trailers fields => cases hfs _ hf
  cases h with
  | data h => exact hnone _ h
  | trailers h fields =>
    rw [List.findSome?_append, hnone _ h]
    rfl

/-- What the loop has checked of the frames so far. -/
structure SoFar (limit : ℕ) (hint : SizeHint) (th : TrailerHint) (frames : List (Frame D))
    (trailers : Option Headers) : Prop where
  ordered : InSequence th frames trailers
  limit : (content b frames).length ≤ limit
  upper : ∀ u ∈ hint.upper, (content b frames).length ≤ u

theorem SoFar.acceptable {limit : ℕ} {hint : SizeHint} {th : TrailerHint} {frames : List (Frame D)}
    {trailers : Option Headers} (h : SoFar (b := b) limit hint th frames trailers)
    (hlower : hint.lower ≤ (content b frames).length) : Acceptable b limit hint th frames where
  trailers := h.ordered.acceptable
  limit := h.limit
  lower := hlower
  upper := h.upper

/-- A result after some frames, in a history with an end: it is that end, or one more frame. -/
theorem prefix_history {frames frames' : List (Frame D)} {r : FrameResult D E} {rest : List (FrameResult D E)}
    (h : frameResults frames ++ [r] <+: frameResults frames' ++ .ok none :: rest) :
    (r = .ok none ∧ frames' = frames) ∨ ∃ f later, r = .ok (some f) ∧ frames' = frames ++ f :: later := by
  induction frames generalizing frames' with
  | nil =>
    cases frames' with
    | nil => exact .inl ⟨(List.cons_prefix_cons.mp h).1, rfl⟩
    | cons f frames' => exact .inr ⟨f, frames', (List.cons_prefix_cons.mp h).1, rfl⟩
  | cons g frames ih =>
    cases frames' with
    | nil =>
      have heq := (List.cons_prefix_cons.mp h).1
      cases heq
    | cons f frames' =>
      obtain ⟨heq, htail⟩ := List.cons_prefix_cons.mp h
      have hgf : g = f := by simpa using heq
      subst hgf
      rcases ih htail with ⟨hr, rfl⟩ | ⟨f', later, hr, rfl⟩
      · exact .inl ⟨hr, rfl⟩
      · exact .inr ⟨f', later, hr, rfl⟩

end Accepted

/-! ## One step -/

def Reservation.Bounded (limit : ℕ) (q : Reservation) : Prop := q.length ≤ q.target ∧ q.target ≤ limit

def AllGranted (asked : List Reservation) : Prop := ∀ q ∈ asked, q.granted = true

theorem allGranted_append {asked asked' : List Reservation} :
    AllGranted (asked ++ asked') ↔ AllGranted asked ∧ AllGranted asked' := by
  simp only [AllGranted, List.mem_append]
  constructor
  · intro h
    exact ⟨fun q hq => h q (.inl hq), fun q hq => h q (.inr hq)⟩
  · rintro ⟨h1, h2⟩ q (hq | hq)
    · exact h1 q hq
    · exact h2 q hq

namespace CollectBuffer

theorem tryReserveExact_spec {d d' : CollectBuffer} {additional : ℕ} {grant : Option ℕ}
    (h : d.tryReserveExact additional grant = some (some d')) :
    d'.bytes = d.bytes ∧ d.bytes.length + additional ≤ d'.capacity := by
  have hfits := d.fits
  unfold tryReserveExact at h
  split_ifs at h with hroom
  · cases h
    exact ⟨rfl, by omega⟩
  · cases grant with
    | none => cases h
    | some c =>
      simp only at h
      split_ifs at h with hc
      cases h
      exact ⟨rfl, hc⟩

theorem reserveForAppend_spec {d : CollectBuffer} {newLen limit : ℕ} {grant : Option ℕ}
    {r : Option CollectBuffer} {asked : List Reservation} (hnew : d.bytes.length ≤ newLen) (hlimit : newLen ≤ limit)
    (h : d.reserveForAppend newLen limit grant = some (r, asked)) :
    (∀ q ∈ asked, q.Bounded limit) ∧ (r = none → ¬AllGranted asked) ∧
      ∀ d', r = some d' → d'.bytes = d.bytes ∧ newLen ≤ d'.capacity ∧ AllGranted asked := by
  unfold reserveForAppend at h
  split_ifs at h with hroom
  · cases h
    refine ⟨by simp, by simp, ?_⟩
    intro d' hd
    cases hd
    exact ⟨rfl, hroom, by simp [AllGranted]⟩
  · simp only [Option.map_eq_some_iff, Prod.mk.injEq] at h
    obtain ⟨r, hr, rfl, rfl⟩ := h
    set target := min (max (min (d.capacity * 2) (wordSize - 1)) newLen) limit with htarget
    have hle : newLen ≤ target := le_min (le_max_right _ _) hlimit
    refine ⟨?_, ?_, ?_⟩
    · intro q hq
      obtain rfl := List.mem_singleton.mp hq
      exact ⟨hnew.trans hle, min_le_right _ _⟩
    · rintro rfl
      simp [AllGranted]
    · rintro d' rfl
      obtain ⟨hbytes, hcap⟩ := tryReserveExact_spec hr
      exact ⟨hbytes, by omega, by simp [AllGranted]⟩

theorem extendAsks_eq_nil {d : CollectBuffer} {frame : Bytes} (h : d.bytes.length + frame.length ≤ d.capacity) :
    d.extendAsks frame = [] := if_pos h

end CollectBuffer

section Steps

variable {I D E : Type} {b : Body I D E} {limit : ℕ} {hint : SizeHint} {th : TrailerHint}

structure Holding (b : Body I D E) (limit : ℕ) (hint : SizeHint) (th : TrailerHint) (frames : List (Frame D))
    (c : Collecting) : Prop where
  hint_eq : c.hint = hint
  trailerHint_eq : c.trailerHint = th
  bytes : c.data.bytes = content b frames
  within : SoFar (b := b) limit hint th frames c.trailers

theorem SoFar.data {frames : List (Frame D)} (h : SoFar (b := b) limit hint th frames none) {d : D}
    (hlimit : (content b (frames ++ [.data d])).length ≤ limit)
    (hupper : ∀ u ∈ hint.upper, (content b (frames ++ [.data d])).length ≤ u) :
    SoFar (b := b) limit hint th (frames ++ [.data d]) none where
  ordered := by
    obtain ⟨⟨hdata⟩, -, -⟩ := h
    apply InSequence.data
    intro f hf
    rcases List.mem_append.mp hf with hf | hf
    · exact hdata f hf
    · obtain rfl := List.mem_singleton.mp hf
      rfl
  limit := hlimit
  upper := hupper

theorem SoFar.trailers {frames : List (Frame D)} (h : SoFar (b := b) limit hint th frames none)
    (fields : Headers) (hth : th ≠ .none) :
    SoFar (b := b) limit hint th (frames ++ [.trailers fields]) (some fields) where
  ordered := by
    obtain ⟨⟨hdata⟩, -, -⟩ := h
    exact .trailers hdata fields hth
  limit := by simpa [content_append] using h.limit
  upper := by simpa [content_append] using h.upper

theorem SoFar.not_acceptable {frames : List (Frame D)} {fields : Headers}
    (h : SoFar (b := b) limit hint th frames (some fields)) (f : Frame D) (later : List (Frame D)) :
    ¬Acceptable b limit hint th (frames ++ f :: later) := by
  intro hacc
  obtain ⟨ho, -, -⟩ := h
  cases ho with
  | @trailers frames _ _ _ =>
    have := (hacc.trailers frames fields (f :: later) (by simp)).1
    cases this

theorem Acceptable.data_le {frames later : List (Frame D)} {d : D}
    (h : Acceptable b limit hint th (frames ++ .data d :: later)) :
    (content b frames).length + (b.asInit d).length ≤ limit ∧
      ∀ u ∈ hint.upper, (content b frames).length + (b.asInit d).length ≤ u := by
  have hlen : (content b frames).length + (b.asInit d).length ≤
      (content b (frames ++ .data d :: later)).length := by
    rw [List.append_cons, content_append, content_append]
    simp
  exact ⟨hlen.trans h.limit, fun u hu => hlen.trans (h.upper u hu)⟩

inductive Appended (b : Body I D E) (limit : ℕ) (hint : SizeHint) (th : TrailerHint) (frames : List (Frame D))
    (d : D) (c : Collecting) : Except (CollectError E) CollectBuffer → List Reservation → Prop
  | ok {data : CollectBuffer} {asked : List Reservation}
      (hold : Holding b limit hint th (frames ++ [.data d]) { c with data := data })
      (none : c.trailers = none) (granted : AllGranted asked) :
      Appended b limit hint th frames d c (.ok data) asked
  | refused {e : CollectError E} (h : ∀ later, ¬Acceptable b limit hint th (frames ++ .data d :: later)) :
      Appended b limit hint th frames d c (.error e) []
  | allocation {asked : List Reservation} (h : ¬AllGranted asked) :
      Appended b limit hint th frames d c (.error .allocation) asked

theorem upper_any {upper : Option ℕ} {n : ℕ} : upper.any (· < n) = true ↔ ∃ u ∈ upper, u < n := by
  simp [Option.any_eq_true]

theorem appended_of_append {frames : List (Frame D)} {d : D} {c : Collecting} {grant : Option ℕ}
    {r : Except (CollectError E) CollectBuffer} {asked : List Reservation} (hword : limit < wordSize)
    (hc : Holding b limit hint th frames c)
    (h : Collector.append limit c.data (b.asInit d) c.hint c.trailers.isSome grant = some (r, asked)) :
    Appended b limit hint th frames d c r asked ∧ ∀ q ∈ asked, q.Bounded limit := by
  obtain ⟨rfl, rfl, hbytes, hw⟩ := hc
  unfold Collector.append at h
  cases htr : c.trailers with
  | some fields =>
    simp only [htr, Option.isSome_some, if_true, Option.some.injEq, Prod.mk.injEq] at h
    obtain ⟨rfl, rfl⟩ := h
    rw [htr] at hw
    exact ⟨.refused (hw.not_acceptable (.data d)), by simp⟩
  | none =>
    rw [htr] at hw
    simp only [htr, Option.isSome_none, Bool.false_eq_true, if_false, hbytes] at h
    have hlen : (content b (frames ++ [.data d])).length =
        (content b frames).length + (b.asInit d).length := by
      simp [content_append]
    unfold checkedTotal at h
    split_ifs at h with hover hlim
    · cases h
      refine ⟨.refused fun later hacc => ?_, by simp⟩
      have := hacc.data_le.1
      omega
    · cases h
      refine ⟨.refused fun later hacc => ?_, by simp⟩
      have := hacc.data_le.1
      omega
    · by_cases hup : c.hint.upper.any (· < (content b frames).length + (b.asInit d).length)
      · simp only [hup, if_true, Option.some.injEq, Prod.mk.injEq] at h
        obtain ⟨rfl, rfl⟩ := h
        refine ⟨.refused fun later hacc => ?_, by simp⟩
        obtain ⟨u, hu, hlt⟩ := upper_any.mp hup
        have := hacc.data_le.2 u hu
        omega
      · simp only [hup, Bool.false_eq_true, if_false] at h
        cases hres : c.data.reserveForAppend ((content b frames).length + (b.asInit d).length) limit grant with
        | none => simp [hres] at h
        | some p =>
          obtain ⟨data', asked'⟩ := p
          have hspec := CollectBuffer.reserveForAppend_spec (by rw [hbytes]; omega) (by omega) hres
          obtain ⟨hbounded, hdenied, hgranted⟩ := hspec
          cases data' with
          | none =>
            simp only [hres, Option.some.injEq, Prod.mk.injEq] at h
            obtain ⟨rfl, rfl⟩ := h
            exact ⟨.allocation (hdenied rfl), hbounded⟩
          | some data =>
            simp only [hres, Option.some.injEq, Prod.mk.injEq] at h
            obtain ⟨rfl, rfl⟩ := h
            obtain ⟨hsame, hcap, hall⟩ := hgranted data rfl
            rw [CollectBuffer.extendAsks_eq_nil (by rw [hsame, hbytes]; exact hcap), List.append_nil]
            refine ⟨.ok ⟨rfl, rfl, ?_, ?_⟩ htr hall, hbounded⟩
            · simp [CollectBuffer.extend, hsame, hbytes, content_append]
            · rw [htr]
              apply hw.data
              · omega
              · intro u hu
                by_contra hlt
                exact hup (upper_any.mpr ⟨u, hu, by omega⟩)

/-- Everything that the loop can do after some frames. -/
inductive Looped (b : Body I D E) (limit : ℕ) (hint : SizeHint) (th : TrailerHint) (frames : List (Frame D)) :
    Collector b.State E → CollectOutput D E → Prop
  | pending {s : b.State} {c : Collecting} (hold : Holding b limit hint th frames c) :
      Looped b limit hint th frames ⟨s, .looping c⟩ ⟨none, [], [], none⟩
  | frame {s : b.State} {c : Collecting} (f : Frame D) {asked : List Reservation}
      (hold : Holding b limit hint th (frames ++ [f]) c) (granted : AllGranted asked) :
      Looped b limit hint th frames ⟨s, .looping c⟩ ⟨some (.ok (some f)), f.data?.toList, asked, none⟩
  | refused {s : b.State} (f : Frame D) (e : CollectError E)
      (h : ∀ later, ¬Acceptable b limit hint th (frames ++ f :: later)) :
      Looped b limit hint th frames ⟨s, .returned (.error e)⟩
        ⟨some (.ok (some f)), f.data?.toList, [], some (.error e)⟩
  | allocation {s : b.State} (f : Frame D) {asked : List Reservation} (h : ¬AllGranted asked) :
      Looped b limit hint th frames ⟨s, .returned (.error .allocation)⟩
        ⟨some (.ok (some f)), f.data?.toList, asked, some (.error .allocation)⟩
  | failed {s : b.State} (e : E) :
      Looped b limit hint th frames ⟨s, .returned (.error (.body e))⟩
        ⟨some (.error e), [], [], some (.error (.body e))⟩
  | short {s : b.State} (h : ¬Acceptable b limit hint th frames) :
      Looped b limit hint th frames ⟨s, .returned (.error .lengthMismatch)⟩
        ⟨some (.ok none), [], [], some (.error .lengthMismatch)⟩
  | done {s : b.State} (h : Acceptable b limit hint th frames) :
      Looped b limit hint th frames
        ⟨s, .returned (.ok ⟨content b frames, frames.findSome? Frame.trailers?⟩)⟩
        ⟨some (.ok none), [], [], some (.ok ⟨content b frames, frames.findSome? Frame.trailers?⟩)⟩

theorem looped_of_receive {frames : List (Frame D)} {c : Collecting} {s : b.State} {grant : Option ℕ}
    {r : FrameResult D E} {t : Collector b.State E} {o : CollectOutput D E} (hword : limit < wordSize)
    (hc : Holding b limit hint th frames c) (h : Collector.receive b limit c s grant r = some (t, o)) :
    Looped b limit hint th frames t o ∧ ∀ q ∈ o.asked, q.Bounded limit := by
  unfold Collector.receive at h
  match r with
  | .error e =>
    cases h
    exact ⟨.failed e, by simp⟩
  | .ok none =>
    have hbytes := hc.bytes
    simp only [hc.hint_eq, hbytes, Collector.returns] at h
    split_ifs at h with hlower
    · cases h
      refine ⟨.short fun hacc => ?_, by simp⟩
      have := hacc.lower
      omega
    · cases h
      rw [← hc.within.ordered.findSome]
      exact ⟨.done (hc.within.acceptable (by omega)), by simp⟩
  | .ok (some (.data d)) =>
    cases happ : Collector.append (E := E) limit c.data (b.asInit d) c.hint c.trailers.isSome grant with
    | none => simp [happ] at h
    | some p =>
      obtain ⟨res, asked⟩ := p
      obtain ⟨hres, hbounded⟩ := appended_of_append hword hc happ
      cases hres with
      | ok hold hnone hgranted =>
        simp only [happ, Option.some.injEq, Prod.mk.injEq] at h
        obtain ⟨rfl, rfl⟩ := h
        exact ⟨.frame (.data d) hold hgranted, hbounded⟩
      | refused hnot =>
        simp only [happ, Collector.returns, Option.some.injEq, Prod.mk.injEq] at h
        obtain ⟨rfl, rfl⟩ := h
        exact ⟨.refused (.data d) _ hnot, hbounded⟩
      | allocation hdenied =>
        simp only [happ, Collector.returns, Option.some.injEq, Prod.mk.injEq] at h
        obtain ⟨rfl, rfl⟩ := h
        exact ⟨.allocation (.data d) hdenied, hbounded⟩
  | .ok (some (.trailers fields)) =>
    have hw := hc.within
    cases htr : c.trailers with
    | some fields' =>
      simp only [htr, Option.isSome_some, if_true, Collector.returns, Option.some.injEq, Prod.mk.injEq] at h
      obtain ⟨rfl, rfl⟩ := h
      rw [htr] at hw
      exact ⟨.refused (.trailers fields) _ (hw.not_acceptable _), by simp⟩
    | none =>
      rw [htr] at hw
      simp only [htr, hc.trailerHint_eq, Option.isSome_none, Bool.false_eq_true, if_false] at h
      split_ifs at h with hth
      · cases h
        refine ⟨.refused (.trailers fields) _ fun later hacc => ?_, by simp⟩
        exact (hacc.trailers frames fields later rfl).2 hth
      · cases h
        refine ⟨.frame (.trailers fields) ⟨hc.hint_eq, rfl, ?_, hw.trailers fields hth⟩ ?_, by simp⟩
        · simpa [content_append] using hc.bytes
        · simp [AllGranted]

/-- Everything that happens before the loop. -/
inductive Begun (b : Body I D E) (limit : ℕ) (hint : SizeHint) (th : TrailerHint) :
    Collector b.State E → CollectOutput D E → Prop
  | tooLong {s : b.State} (h : limit < hint.lower) :
      Begun b limit hint th ⟨s, .returned (.error (.limitExceeded limit))⟩
        ⟨none, [], [], some (.error (.limitExceeded limit))⟩
  | allocation {s : b.State} {asked : List Reservation} (h : ¬AllGranted asked) :
      Begun b limit hint th ⟨s, .returned (.error .allocation)⟩ ⟨none, [], asked, some (.error .allocation)⟩
  | looping {s : b.State} {c : Collecting} {asked : List Reservation} (h : hint.lower ≤ limit)
      (hold : Holding b limit hint th [] c) (granted : AllGranted asked) :
      Begun b limit hint th ⟨s, .looping c⟩ ⟨none, [], asked, none⟩

theorem begun_of_start {s : b.State} {grant : Option ℕ} {t : Collector b.State E} {o : CollectOutput D E}
    (h : Collector.start b limit s grant = some (t, o)) :
    ∃ hint th, b.sizeHint s = some hint ∧ b.trailerHint s = some th ∧ Begun b limit hint th t o ∧
      ∀ q ∈ o.asked, q.Bounded limit := by
  unfold Collector.start at h
  cases hs : b.sizeHint s with
  | none => simp [hs] at h
  | some hint =>
    cases ht : b.trailerHint s with
    | none => simp [hs, ht] at h
    | some th =>
      refine ⟨hint, th, rfl, rfl, ?_⟩
      have hsmall : hint.exact.any (wordSize ≤ ·) = false := by
        cases he : hint.exact with
        | none => rfl
        | some n =>
          have := hint.lower_lt
          rw [(SizeHint.exact_eq_some he).1] at this
          simpa using this
      have hinitial : limit < hint.lower ∨ hint.exact.getD 0 ≤ limit := by
        cases he : hint.exact with
        | none => exact .inr (Nat.zero_le _)
        | some n =>
          have := (SizeHint.exact_eq_some he).1
          simp only [Option.getD_some]
          omega
      simp only [hs, ht, hsmall, Bool.false_eq_true, if_false] at h
      split_ifs at h with hlower
      · cases h
        exact ⟨.tooLong hlower, by simp⟩
      · have hbounded : ∀ granted, Reservation.Bounded limit ⟨0, hint.exact.getD 0, granted⟩ :=
          fun _ => ⟨Nat.zero_le _, hinitial.resolve_left hlower⟩
        cases hres : CollectBuffer.empty.tryReserveExact (hint.exact.getD 0) grant with
        | none => simp [hres] at h
        | some r =>
          cases r with
          | none =>
            simp only [hres, Collector.returns, Option.some.injEq, Prod.mk.injEq] at h
            obtain ⟨rfl, rfl⟩ := h
            exact ⟨.allocation (by simp [AllGranted]), by simpa using hbounded false⟩
          | some data =>
            simp only [hres, Option.some.injEq, Prod.mk.injEq] at h
            obtain ⟨rfl, rfl⟩ := h
            have hdata := (CollectBuffer.tryReserveExact_spec hres).1
            refine ⟨.looping (by omega) ⟨rfl, rfl, hdata, ?_⟩ (by simp [AllGranted]), by simpa using hbounded true⟩
            exact ⟨.data (by simp), Nat.zero_le _, fun _ _ => Nat.zero_le _⟩

/-- Everything that a step of `collect` can do. -/
inductive Collects (b : Body I D E) (limit : ℕ) : Collector b.State E → CollectEvent I →
    Collector b.State E → CollectOutput D E → Prop
  | begin {s : b.State} {grant : Option ℕ} {t : Collector b.State E} {o : CollectOutput D E}
      (h : Collector.start b limit s grant = some (t, o)) : Collects b limit ⟨s, .starting⟩ (.begin grant) t o
  | pending {s s' : b.State} {c : Collecting} {i : I} {grant : Option ℕ}
      (h : b.nextFrame s i = some (s', .pending)) :
      Collects b limit ⟨s, .looping c⟩ (.poll i grant) ⟨s', .looping c⟩ ⟨none, [], [], none⟩
  | ready {s s' : b.State} {c : Collecting} {i : I} {grant : Option ℕ} {r : FrameResult D E}
      {t : Collector b.State E} {o : CollectOutput D E} (h : b.nextFrame s i = some (s', .ready r))
      (hr : Collector.receive b limit c s' grant r = some (t, o)) :
      Collects b limit ⟨s, .looping c⟩ (.poll i grant) t o

theorem collects_of_step {t t' : Collector b.State E} {e : CollectEvent I} {o : CollectOutput D E}
    (h : (collect b limit).step t e = some (t', o)) : Collects b limit t e t' o := by
  obtain ⟨s, phase⟩ := t
  cases phase with
  | starting =>
    cases e with
    | begin grant => exact .begin h
    | poll i grant => cases h
  | returned r => cases e <;> cases h
  | looping c =>
    cases e with
    | begin grant => cases h
    | poll i grant =>
      simp only [collect] at h
      cases hn : b.nextFrame s i with
      | none => simp [hn] at h
      | some p =>
        obtain ⟨s', n⟩ := p
        cases n with
        | pending =>
          simp only [hn] at h
          cases h
          exact .pending hn
        | ready r =>
          simp only [hn] at h
          exact .ready hn h

end Steps

/-! ## Runs -/

section Runs

variable {I D E : Type} {b : Body I D E} {limit : ℕ}

abbrev CollectTrace (I D E : Type) := List (CollectEvent I × CollectOutput D E)

def obtained (tr : CollectTrace I D E) : List (FrameResult D E) := tr.filterMap fun x => x.2.obtained

def recycled (tr : CollectTrace I D E) : List D := tr.flatMap fun x => x.2.recycled

def reservations (tr : CollectTrace I D E) : List Reservation := tr.flatMap fun x => x.2.asked

/-- A history of results that `collect` has to accept. -/
def Accepted (b : Body I D E) (limit : ℕ) (hint : SizeHint) (th : TrailerHint) (history : List (FrameResult D E))
    (frames : List (Frame D)) : Prop :=
  Acceptable b limit hint th frames ∧ ∃ rest, history = frameResults frames ++ .ok none :: rest

def NotPolled (tr : CollectTrace I D E) : Prop := ∀ x ∈ tr, ∃ grant, x.1 = .begin grant

/-- What holds of a run, by the phase it has reached. -/
inductive CollectProgress (b : Body I D E) (limit : ℕ) (s : b.State) (tr : CollectTrace I D E) :
    Collector b.State E → Prop
  | starting (h : tr = []) : CollectProgress b limit s tr ⟨s, .starting⟩
  | looping {s' : b.State} {hint : SizeHint} {th : TrailerHint} {frames : List (Frame D)} {c : Collecting}
      (size : b.sizeHint s = some hint) (trailers : b.trailerHint s = some th) (lower : hint.lower ≤ limit)
      (h : obtained tr = frameResults frames) (hold : Holding b limit hint th frames c)
      (granted : AllGranted (reservations tr)) : CollectProgress b limit s tr ⟨s', .looping c⟩
  | done {s' : b.State} {hint : SizeHint} {th : TrailerHint} {frames : List (Frame D)}
      (size : b.sizeHint s = some hint) (trailers : b.trailerHint s = some th) (lower : hint.lower ≤ limit)
      (h : obtained tr = frameResults frames ++ [.ok none]) (accepted : Acceptable b limit hint th frames)
      (granted : AllGranted (reservations tr)) :
      CollectProgress b limit s tr ⟨s', .returned (.ok ⟨content b frames, frames.findSome? Frame.trailers?⟩)⟩
  | failed {s' : b.State} {hint : SizeHint} {th : TrailerHint} {e : CollectError E}
      (size : b.sizeHint s = some hint) (trailers : b.trailerHint s = some th)
      (lower : limit < hint.lower → NotPolled tr)
      (h : ¬AllGranted (reservations tr) ∨
        ∀ history frames, obtained tr <+: history → ¬Accepted b limit hint th history frames) :
      CollectProgress b limit s tr ⟨s', .returned (.error e)⟩

theorem obtained_concat (tr : CollectTrace I D E) (e : CollectEvent I) (o : CollectOutput D E) :
    obtained (tr ++ [(e, o)]) = obtained tr ++ o.obtained.toList := by
  cases h : o.obtained <;> simp [obtained, h]

theorem recycled_concat (tr : CollectTrace I D E) (e : CollectEvent I) (o : CollectOutput D E) :
    recycled (tr ++ [(e, o)]) = recycled tr ++ o.recycled := by
  simp [recycled]

theorem reservations_concat (tr : CollectTrace I D E) (e : CollectEvent I) (o : CollectOutput D E) :
    reservations (tr ++ [(e, o)]) = reservations tr ++ o.asked := by
  simp [reservations]

theorem not_accepted_of_refused {hint : SizeHint} {th : TrailerHint} {frames frames' : List (Frame D)}
    {f : Frame D} {history : List (FrameResult D E)}
    (h : ∀ later, ¬Acceptable b limit hint th (frames ++ f :: later))
    (hpre : frameResults frames ++ [.ok (some f)] <+: history) : ¬Accepted b limit hint th history frames' := by
  rintro ⟨hacc, rest, rfl⟩
  rcases prefix_history hpre with ⟨heq, -⟩ | ⟨f', later, heq, rfl⟩
  · cases heq
  · cases heq
    exact h later hacc

theorem CollectProgress.begin {s : b.State} {grant : Option ℕ} {t : Collector b.State E} {o : CollectOutput D E}
    (h : Collector.start b limit s grant = some (t, o)) :
    CollectProgress b limit s [(CollectEvent.begin grant, o)] t := by
  obtain ⟨hint, th, hsize, hth, hbegun, -⟩ := begun_of_start h
  have hnot : ∀ o : CollectOutput D E, NotPolled [(CollectEvent.begin (I := I) grant, o)] := by
    intro o x hx
    obtain rfl := List.mem_singleton.mp hx
    exact ⟨grant, rfl⟩
  cases hbegun with
  | tooLong hlower =>
    refine .failed hsize hth (fun _ => hnot _) (.inr ?_)
    rintro history frames - ⟨hacc, -⟩
    have := hacc.lower
    have := hacc.limit
    omega
  | allocation hdenied =>
    refine .failed hsize hth (fun _ => hnot _) (.inl ?_)
    simpa [reservations] using hdenied
  | looping hlower hold hmore =>
    refine .looping hsize hth hlower (by simp [obtained, frameResults]) hold ?_
    simpa [reservations] using hmore

theorem CollectProgress.receive {s s' s'' : b.State} {tr : CollectTrace I D E} {e : CollectEvent I} {c : Collecting}
    {grant : Option ℕ} {r : FrameResult D E} {t : Collector b.State E} {o : CollectOutput D E}
    (hword : limit < wordSize) (hp : CollectProgress b limit s tr ⟨s', .looping c⟩)
    (h : Collector.receive b limit c s'' grant r = some (t, o)) :
    CollectProgress b limit s (tr ++ [(e, o)]) t := by
  cases hp with
  | @looping _ hint th frames _ hsize hth hlower hobt hold hgranted =>
  have hsmall (tr' : CollectTrace I D E) : limit < hint.lower → NotPolled tr' := fun hlt => by omega
  cases (looped_of_receive hword hold h).1 with
  | pending hold' =>
    exact .looping hsize hth hlower (by simpa [obtained_concat] using hobt) hold'
      (by simpa [reservations_concat] using hgranted)
  | frame f hold' hmore =>
    refine .looping hsize hth hlower ?_ hold' ?_
    · simp [obtained_concat, hobt, frameResults]
    · rw [reservations_concat, allGranted_append]
      exact ⟨hgranted, hmore⟩
  | refused f e' hnot =>
    refine .failed hsize hth (hsmall _) (.inr fun history frames' hpre => ?_)
    apply not_accepted_of_refused hnot
    simpa [obtained_concat, hobt] using hpre
  | allocation f hdenied =>
    refine .failed hsize hth (hsmall _) (.inl ?_)
    rw [reservations_concat, allGranted_append]
    exact fun hall => hdenied hall.2
  | failed e' =>
    refine .failed hsize hth (hsmall _) (.inr ?_)
    rintro history frames' hpre ⟨-, rest, rfl⟩
    rw [obtained_concat, hobt] at hpre
    rcases prefix_history hpre with ⟨heq, -⟩ | ⟨f, later, heq, -⟩
    · cases heq
    · cases heq
  | short hnot =>
    refine .failed hsize hth (hsmall _) (.inr ?_)
    rintro history frames' hpre ⟨hacc, rest, rfl⟩
    rw [obtained_concat, hobt] at hpre
    rcases prefix_history hpre with ⟨-, rfl⟩ | ⟨f, later, heq, -⟩
    · exact hnot hacc
    · cases heq
  | done hacc =>
    refine .done hsize hth hlower ?_ hacc ?_
    · simp [obtained_concat, hobt]
    · simpa [reservations_concat] using hgranted

theorem progress_of_reaches {s : b.State} {tr : CollectTrace I D E} {t : Collector b.State E}
    (hword : limit < wordSize) (hr : (collect b limit).Reaches ⟨s, .starting⟩ tr t) :
    CollectProgress b limit s tr t := by
  apply hr.invariant (.starting rfl)
  intro tr t e t' o hp hs
  cases collects_of_step hs with
  | begin h =>
    cases hp with
    | starting hnil =>
      subst hnil
      exact .begin h
  | pending h =>
    cases hp with
    | looping hsize hth hlower hobt hold hgranted =>
      exact .looping hsize hth hlower (by simpa [obtained_concat] using hobt) hold
        (by simpa [reservations_concat] using hgranted)
  | ready h hrec => exact hp.receive hword hrec

structure Consistent (phase : CollectPhase E) (o : CollectOutput D E) : Prop where
  recycled : o.recycled = (o.obtained.bind Body.data?).toList
  returned : ∀ r, o.returned = some r → phase = .returned r
  failed : ∀ e, o.obtained = some (.error e) → o.returned = some (.error (.body e))
  finished : o.obtained = some (.ok none) → o.returned.isSome = true

theorem Looped.consistent {hint : SizeHint} {th : TrailerHint} {frames : List (Frame D)}
    {t : Collector b.State E} {o : CollectOutput D E} (h : Looped b limit hint th frames t o) :
    Consistent t.phase o := by
  cases h with
  | pending hold => constructor <;> simp
  | frame f hold hgranted => constructor <;> cases f <;> simp [Frame.data?, Body.data?]
  | refused f e hnot => constructor <;> cases f <;> simp [Frame.data?, Body.data?]
  | allocation f hdenied => constructor <;> cases f <;> simp [Frame.data?, Body.data?]
  | failed e => constructor <;> simp [Body.data?]
  | short hnot => constructor <;> simp [Body.data?]
  | done hacc => constructor <;> simp [Body.data?]

theorem Begun.consistent {hint : SizeHint} {th : TrailerHint} {t : Collector b.State E} {o : CollectOutput D E}
    (h : Begun b limit hint th t o) : Consistent t.phase o := by
  cases h <;> constructor <;> simp

theorem output_of_reaches {s : b.State} {tr : CollectTrace I D E} {t t' : Collector b.State E}
    {e : CollectEvent I} {o : CollectOutput D E} (hword : limit < wordSize)
    (hr : (collect b limit).Reaches ⟨s, .starting⟩ tr t) (hs : (collect b limit).step t e = some (t', o)) :
    Consistent t'.phase o ∧ ∀ q ∈ o.asked, q.Bounded limit := by
  have hp := progress_of_reaches hword hr
  cases collects_of_step hs with
  | begin h =>
    obtain ⟨hint, th, -, -, hbegun, hbounded⟩ := begun_of_start h
    exact ⟨hbegun.consistent, hbounded⟩
  | pending h => exact ⟨by constructor <;> simp, by simp⟩
  | ready h hrec =>
    cases hp with
    | looping hsize hth hlower hobt hold hgranted =>
      obtain ⟨hlooped, hbounded⟩ := looped_of_receive hword hold hrec
      exact ⟨hlooped.consistent, hbounded⟩

/-- Whatever was obtained has been handed back, and what was asked for is bounded. -/
theorem recycled_of_reaches {s : b.State} {tr : CollectTrace I D E} {t : Collector b.State E}
    (hword : limit < wordSize) (hr : (collect b limit).Reaches ⟨s, .starting⟩ tr t) :
    recycled tr = (obtained tr).filterMap Body.data? ∧ ∀ q ∈ reservations tr, q.Bounded limit := by
  induction hr with
  | start => exact ⟨rfl, by simp [reservations]⟩
  | @step tr t t' e o hr hs ih =>
    obtain ⟨hcons, hbounded⟩ := output_of_reaches hword hr hs
    rw [recycled_concat, obtained_concat, reservations_concat, List.filterMap_append, ih.1, hcons.recycled]
    constructor
    · cases hobt : o.obtained with
      | none => rfl
      | some r => cases hd : Body.data? r <;> simp [hd]
    · intro q hq
      rcases List.mem_append.mp hq with hq | hq
      · exact ih.2 q hq
      · exact hbounded q hq

theorem returned_stuck {t t' : Collector b.State E} {r : Except (CollectError E) Collected} {after : CollectTrace I D E}
    (ht : t.phase = .returned r) (hr : (collect b limit).Reaches t after t') : after = [] ∧ t' = t := by
  induction hr with
  | start => exact ⟨rfl, rfl⟩
  | step hr hs ih =>
    rw [ih.2] at hs
    cases collects_of_step hs <;> cases ht

theorem reserveForAppend_isSome (data : CollectBuffer) (newLen limit : ℕ) :
    ∃ p, data.reserveForAppend newLen limit none = some p := by
  unfold CollectBuffer.reserveForAppend CollectBuffer.tryReserveExact
  split_ifs with hfits
  · exact ⟨_, rfl⟩
  · simp only
    split_ifs <;> exact ⟨_, rfl⟩

theorem append_isSome (limit : ℕ) (data : CollectBuffer) (frame : Bytes) (hint : SizeHint) (after : Bool) :
    ∃ p, Collector.append (E := E) limit data frame hint after none = some p := by
  unfold Collector.append
  split_ifs
  · exact ⟨_, rfl⟩
  · cases checkedTotal (E := E) data.bytes.length frame.length limit with
    | error e => exact ⟨_, rfl⟩
    | ok newLen =>
      simp only
      split_ifs
      · exact ⟨_, rfl⟩
      · obtain ⟨⟨reserved, asked⟩, hres⟩ := reserveForAppend_isSome data newLen limit
        rw [hres]
        cases reserved <;> exact ⟨_, rfl⟩

theorem step_poll_isSome {s : b.State} {c : Collecting} {i : I} (h : (b.nextFrame s i).isSome = true) :
    ((collect b limit).step ⟨s, .looping c⟩ (.poll i none)).isSome = true := by
  obtain ⟨⟨s', n⟩, hn⟩ := Option.isSome_iff_exists.mp h
  cases n with
  | pending => simp [collect, hn]
  | ready r =>
    simp only [collect, hn]
    match r with
    | .error e => rfl
    | .ok none =>
      simp only [Collector.receive]
      split <;> rfl
    | .ok (some (.trailers fields)) =>
      simp only [Collector.receive]
      split_ifs <;> rfl
    | .ok (some (.data d)) =>
      obtain ⟨p, hp⟩ := append_isSome (E := E) limit c.data (b.asInit d) c.hint c.trailers.isSome
      simp only [Collector.receive, hp]
      rcases p with ⟨e | data, asked⟩ <;> rfl

/-- `collect` is exact and bounded, over every body. A run has returned successfully exactly when the
results it obtained can only continue to a history that has to be accepted. -/
theorem collect_exact (hword : limit < wordSize) {s : b.State} {tr : CollectTrace I D E}
    {t : Collector b.State E} (hr : (collect b limit).Reaches ⟨s, .starting⟩ tr t) :
    (∀ r, t.phase = .returned r → ∃ hint th, b.sizeHint s = some hint ∧ b.trailerHint s = some th ∧
      ∀ history, obtained tr <+: history → ((∃ c, r = .ok c) ↔
        (∃ frames, Accepted b limit hint th history frames) ∧ AllGranted (reservations tr))) ∧
    (∀ c, t.phase = .returned (.ok c) → ∃ frames, obtained tr = frameResults frames ++ [.ok none] ∧
      c.data = content b frames ∧ c.trailers = frames.findSome? Frame.trailers?) ∧
    recycled tr = (obtained tr).filterMap Body.data? ∧
    (∀ before x after, tr = before ++ x :: after →
      (∀ e, x.2.obtained = some (.error e) → x.2.returned = some (.error (.body e))) ∧
      (x.2.obtained = some (.ok none) → x.2.returned.isSome = true) ∧
      ∀ r, x.2.returned = some r → after = [] ∧ t.phase = .returned r) ∧
    (∀ hint, b.sizeHint s = some hint → limit < hint.lower → NotPolled tr) ∧
    (∀ q ∈ reservations tr, q.length ≤ q.target ∧ q.target ≤ limit) ∧
    ∀ c i, t.phase = .looping c → (b.nextFrame t.body i).isSome = true →
      ((collect b limit).step t (.poll i none)).isSome = true := by
  have hp := progress_of_reaches hword hr
  obtain ⟨hrecycled, hbounded⟩ := recycled_of_reaches hword hr
  refine ⟨?_, ?_, hrecycled, ?_, ?_, hbounded, ?_⟩
  · intro r hret
    obtain ⟨s', phase⟩ := t
    subst hret
    cases hp with
    | @done _ hint th frames hsize hth hlower hobt hacc hgranted =>
      refine ⟨hint, th, hsize, hth, fun history hpre => ⟨fun _ => ⟨⟨frames, hacc, ?_⟩, hgranted⟩, fun _ => ⟨_, rfl⟩⟩⟩
      obtain ⟨rest, rfl⟩ := hpre
      exact ⟨rest, by simp [hobt]⟩
    | @failed _ hint th e hsize hth hlower hbad =>
      refine ⟨hint, th, hsize, hth, fun history hpre => ⟨?_, ?_⟩⟩
      · rintro ⟨c, hc⟩
        cases hc
      · rintro ⟨⟨frames, hacc⟩, hgranted⟩
        rcases hbad with hdenied | hnot
        · exact absurd hgranted hdenied
        · exact absurd hacc (hnot history frames hpre)
  · intro c hret
    obtain ⟨s', phase⟩ := t
    subst hret
    cases hp with
    | @done _ hint th frames hsize hth hlower hobt hacc hgranted => exact ⟨frames, hobt, rfl, rfl⟩
  · rintro before x after rfl
    obtain ⟨u, v, hbefore, hstep, hafter⟩ := hr.step_at
    have hcons := (output_of_reaches hword hbefore hstep).1
    refine ⟨hcons.failed, hcons.finished, fun r hret => ?_⟩
    obtain ⟨hnil, rfl⟩ := returned_stuck (hcons.returned r hret) hafter
    exact ⟨hnil, hcons.returned r hret⟩
  · intro hint hsize hlt
    cases hp with
    | starting hnil => simp [hnil, NotPolled]
    | looping hsize' hth hlower hobt hold hgranted =>
      cases hsize.symm.trans hsize'
      omega
    | done hsize' hth hlower hobt hacc hgranted =>
      cases hsize.symm.trans hsize'
      omega
    | failed hsize' hth hnot hbad =>
      cases hsize.symm.trans hsize'
      exact hnot hlt
  · intro c i hloop hpoll
    obtain ⟨s', phase⟩ := t
    subst hloop
    exact step_poll_isSome hpoll

/-- Five bytes within a limit of five, granted at once. -/
theorem collect_exact_hello : ∃ (tr : CollectTrace Unit Unit Empty) (frames : List (Frame Unit)),
    ((collect (full (I := Unit) (fun _ : Unit => ascii "hello") fun _ => by decide) 5).run
      ⟨some (), .starting⟩ [.begin (some 5), .poll () none, .poll () none]).map Prod.fst = some tr ∧
    obtained tr = frameResults frames ++ [.ok none] ∧
    ascii "hello" = content (full (I := Unit) (fun _ : Unit => ascii "hello") fun _ => by decide) frames ∧
    none = frames.findSome? Frame.trailers? := by
  have hrun : (collect (full (I := Unit) (fun _ : Unit => ascii "hello") fun _ => by decide) 5).run
      ⟨some (), .starting⟩ [.begin (some 5), .poll () none, .poll () none] = some (_, _) := rfl
  have hr := Machine.reaches_of_run hrun
  obtain ⟨frames, hframes⟩ := (collect_exact (by decide) hr).2.1 ⟨ascii "hello", none⟩ rfl
  exact ⟨_, frames, rfl, hframes⟩

end Runs

end Vakya
