import Vakya.Body

/-!
# Body adapters (`limited.rs`, `exact_length.rs`, `combinator.rs`, `simple.rs`)

Each adapter is a body made from one or two others. An adapter that may drop its
source keeps it in a slot; a dropped source stays there as it was when it was
dropped, so that what was done with it can be told.
-/

namespace Vakya

def full {I D : Type} (asInit : D → Bytes) (h : ∀ d, (asInit d).length < wordSize) : Body I D Empty where
  State := Option D
  asInit := asInit
  nextFrame s _ :=
    match s with
    | some data => some (none, .ready (.ok (some (.data data))))
    | none => some (none, .ready (.ok none))
  dropNext s := s
  sizeHint s :=
    match s with
    | some data => some (.withExact (asInit data).length (h data))
    | none => some (.withExact 0 zero_lt_wordSize)
  trailerHint _ := some .none
  isEndStream s := s.isNone
  recycle s _ := s

/-- `Option<B>` of an adapter: the source, or the source in the state in which it was dropped. -/
inductive Slot (S : Type)
  | held (s : S)
  | dropped (s : S)

namespace Slot

variable {S : Type}

def state : Slot S → S
  | held s => s
  | dropped s => s

def held? : Slot S → Option S
  | held s => some s
  | dropped _ => none

def take (b : Slot S) : Slot S := dropped b.state

def map (f : S → S) : Slot S → Slot S
  | held s => held (f s)
  | dropped s => dropped s

end Slot

/-- The wait of an adapter on a wait of its source: `hold` puts the source back while that is
pending, `receive` goes on with its result. -/
def Body.through {I D E D' E' T : Type} (b : Body I D E) (s : b.State) (i : I) (hold : b.State → T)
    (receive : b.State → FrameResult D E → T × FrameResult D' E') : Option (T × FramePoll D' E') :=
  match b.nextFrame s i with
  | none => none
  | some (s, .pending) => some (hold s, .pending)
  | some (s, .ready r) => some ((receive s r).1, .ready (receive s r).2)

/-- `next_frame` of an adapter that may drop its source: it is at its end once it is done, and it
expects the source before. -/
def Body.whileActive {I D E D' E' T : Type} (b : Body I D E) (done : Bool) (body : Slot b.State) (i : I)
    (t : T) (hold : b.State → T) (receive : b.State → FrameResult D E → T × FrameResult D' E') :
    Option (T × FramePoll D' E') :=
  if done then some (t, .ready (.ok none))
  else
    match body.held? with
    | none => none
    | some s => b.through s i hold receive

inductive LimitError (E : Type)
  | source (error : E)
  | limitExceeded (limit : ℕ)

structure Limited (S : Type) where
  body : Slot S
  limit : ℕ
  remaining : ℕ
  done : Bool
  remaining_lt : remaining < wordSize

namespace Limited

variable {I D E : Type} (b : Body I D E)

def new (s : b.State) (maxBytes : ℕ) (h : maxBytes < wordSize) : Limited b.State where
  body := .held s
  limit := maxBytes
  remaining := maxBytes
  done := false
  remaining_lt := h

/-- `next_frame` with the result of the source, whose state is then `s`. -/
def receive (t : Limited b.State) (s : b.State) :
    FrameResult D E → Limited b.State × FrameResult D (LimitError E)
  | .error e => ({ t with body := .held s, done := true }, .error (.source e))
  | .ok none => ({ t with body := .held s, done := true }, .ok none)
  | .ok (some (.trailers fields)) => ({ t with body := .held s }, .ok (some (.trailers fields)))
  | .ok (some (.data data)) =>
    if (b.asInit data).length ≤ t.remaining then
      ({ t with
          body := .held s
          remaining := t.remaining - (b.asInit data).length
          remaining_lt := lt_of_le_of_lt (Nat.sub_le _ _) t.remaining_lt },
        .ok (some (.data data)))
    else
      ({ t with body := (Slot.held (b.recycle s data)).take, done := true },
        .error (.limitExceeded t.limit))

def sizeHint (t : Limited b.State) : Option SizeHint :=
  if t.done then some (.withExact 0 zero_lt_wordSize)
  else do
    let hint ← b.sizeHint (← t.body.held?)
    -- If the source cannot fit, avoid inventing an exact truncated length.
    let lower := if hint.lower ≤ t.remaining then hint.lower else 0
    have hlower : lower < wordSize := by
      dsimp only [lower]
      split_ifs
      · exact hint.lower_lt
      · decide
    (SizeHint.withBounds lower (some (min (hint.upper.getD t.remaining) t.remaining)) hlower
      (by
        intro u hu
        obtain rfl := Option.some.inj hu
        exact lt_of_le_of_lt (min_le_right _ _) t.remaining_lt)).toOption

end Limited

def limited {I D E : Type} (b : Body I D E) : Body I D (LimitError E) where
  State := Limited b.State
  asInit := b.asInit
  nextFrame t i :=
    b.whileActive t.done t.body i t (fun s => { t with body := .held s }) (t.receive b)
  dropNext t := { t with body := t.body.map b.dropNext }
  sizeHint := Limited.sizeHint b
  trailerHint t := if t.done then some .none else t.body.held?.bind b.trailerHint
  isEndStream t := t.done
  recycle t data := { t with body := t.body.map fun s => b.recycle s data }

inductive ExactLengthError (E : Type)
  | source (error : E)
  | tooShort (remaining : ℕ)
  | tooLong (remaining frameBytes : ℕ)
  | dataAfterTrailers
  | repeatedTrailers
  | unexpectedTrailers

structure ExactLength (S : Type) where
  body : Slot S
  remaining : ℕ
  trailers : TrailerHint
  sawTrailers : Bool
  done : Bool
  remaining_lt : remaining < wordSize

namespace ExactLength

variable {I D E : Type} (b : Body I D E)

def new (s : b.State) (bytes : ℕ) (trailerHint : TrailerHint) (h : bytes < wordSize) :
    ExactLength b.State where
  body := .held s
  remaining := bytes
  trailers := trailerHint
  sawTrailers := false
  done := false
  remaining_lt := h

def check (t : ExactLength b.State) : Frame D → Except (ExactLengthError E) (ExactLength b.State)
  | .data data =>
    if t.sawTrailers then .error .dataAfterTrailers
    else if (b.asInit data).length ≤ t.remaining then
      .ok { t with
        remaining := t.remaining - (b.asInit data).length
        remaining_lt := lt_of_le_of_lt (Nat.sub_le _ _) t.remaining_lt }
    else .error (.tooLong t.remaining (b.asInit data).length)
  | .trailers _ =>
    if t.sawTrailers then .error .repeatedTrailers
    else if t.trailers = .none then .error .unexpectedTrailers
    else .ok { t with sawTrailers := true }

def reclaim (s : b.State) : Frame D → b.State
  | .data data => b.recycle s data
  | .trailers _ => s

def receive (t : ExactLength b.State) (s : b.State) :
    FrameResult D E → ExactLength b.State × FrameResult D (ExactLengthError E)
  | .error e => ({ t with body := .held s, done := true }, .error (.source e))
  | .ok none =>
    if t.remaining ≠ 0 then
      ({ t with body := (Slot.held s).take, done := true }, .error (.tooShort t.remaining))
    else ({ t with body := .held s, done := true }, .ok none)
  | .ok (some frame) =>
    match t.check b frame with
    | .ok t => ({ t with body := .held s }, .ok (some frame))
    | .error e => ({ t with body := (Slot.held (reclaim b s frame)).take, done := true }, .error e)

end ExactLength

def exactLength {I D E : Type} (b : Body I D E) : Body I D (ExactLengthError E) where
  State := ExactLength b.State
  asInit := b.asInit
  nextFrame t i :=
    b.whileActive t.done t.body i t (fun s => { t with body := .held s }) (t.receive b)
  dropNext t := { t with body := t.body.map b.dropNext }
  sizeHint t :=
    some (if t.done then .withExact 0 zero_lt_wordSize else .withExact t.remaining t.remaining_lt)
  trailerHint t := some (if t.done || t.sawTrailers then .none else t.trailers)
  isEndStream t := t.done
  recycle t data := { t with body := t.body.map fun s => b.recycle s data }

def HeaderMap.namedOnce {V : Type} (e : HeaderName × List V) : List (Option HeaderName × V) :=
  match e.2 with
  | [] => []
  | v :: vs => (some e.1, v) :: vs.map (none, ·)

/-- `HeaderMap`'s owned iterator: a name comes with its first value only. -/
def HeaderMap.intoIter {V : Type} (m : HeaderMap V) : List (Option HeaderName × V) :=
  m.entries.flatMap namedOnce

/-- The loop that appends the pending fields; `none` is the `expect` on the name. -/
def attachFields (fields : Headers) (name : Option HeaderName) :
    List (Option HeaderName × HeaderValue) → Option Headers
  | [] => some fields
  | (nextName, value) :: rest =>
    let name := nextName.or name
    match name with
    | none => none
    | some n => attachFields (fields.append n value) (some n) rest

structure WithTrailers (S : Type) where
  body : S
  pending : Option Headers
  done : Bool

namespace WithTrailers

variable {I D E : Type} (b : Body I D E)

def new (s : b.State) (trailers : Headers) : WithTrailers b.State := ⟨s, some trailers, false⟩

/-- `none` when appending the fields panics. -/
def receive (t : WithTrailers b.State) (s : b.State) :
    FrameResult D E → Option (WithTrailers b.State × FrameResult D E)
  | .ok (some (.trailers fields)) =>
    match t.pending with
    | none => some ({ t with body := s }, .ok (some (.trailers fields)))
    | some pending => do
      let fields ← attachFields fields none pending.intoIter
      some ({ t with body := s, pending := none }, .ok (some (.trailers fields)))
  | .ok (some (.data data)) => some ({ t with body := s }, .ok (some (.data data)))
  | .ok none => some ({ body := s, pending := none, done := true }, .ok (t.pending.map Frame.trailers))
  | .error e => some ({ body := s, pending := none, done := true }, .error e)

end WithTrailers

def withTrailers {I D E : Type} (b : Body I D E) : Body I D E where
  State := WithTrailers b.State
  asInit := b.asInit
  nextFrame t i :=
    if t.done then some (t, .ready (.ok none))
    else
      match b.nextFrame t.body i with
      | none => none
      | some (s, .pending) => some ({ t with body := s }, .pending)
      | some (s, .ready r) => (t.receive b s r).map fun p => (p.1, .ready p.2)
  dropNext t := { t with body := b.dropNext t.body }
  sizeHint t := if t.done then some (.withExact 0 zero_lt_wordSize) else b.sizeHint t.body
  trailerHint t :=
    if t.done then some .none
    else if t.pending.isSome then some .mayHave
    else b.trailerHint t.body
  isEndStream t := t.done
  recycle t data := { t with body := b.recycle t.body data }

def mapError {I D E E' F : Type} (b : Body I D E) (map : F → E → F × E') : Body I D E' where
  State := b.State × F
  asInit := b.asInit
  nextFrame t i :=
    b.through t.1 i (·, t.2) fun s r =>
      match r with
      | .error e => ((s, (map t.2 e).1), .error (map t.2 e).2)
      | .ok next => ((s, t.2), .ok next)
  dropNext t := (b.dropNext t.1, t.2)
  sizeHint t := b.sizeHint t.1
  trailerHint t := b.trailerHint t.1
  isEndStream t := b.isEndStream t.1
  recycle t data := (b.recycle t.1 data, t.2)

def inspectFrame {I D E F : Type} (b : Body I D E) (inspect : F → Frame D → F) : Body I D E where
  State := b.State × F
  asInit := b.asInit
  nextFrame t i :=
    b.through t.1 i (·, t.2) fun s r =>
      match r with
      | .ok (some frame) => ((s, inspect t.2 frame), .ok (some frame))
      | r => ((s, t.2), r)
  dropNext t := (b.dropNext t.1, t.2)
  sizeHint t := b.sizeHint t.1
  trailerHint t := b.trailerHint t.1
  isEndStream t := b.isEndStream t.1
  recycle t data := (b.recycle t.1 data, t.2)

def Frame.mapData {D D' : Type} (map : D → D') : Frame D → Frame D'
  | .data d => .data (map d)
  | .trailers fields => .trailers fields

def mapResult {D D' E E' : Type} (map : D → D') (mapErr : E → E') : FrameResult D E → FrameResult D' E'
  | .ok frame => .ok (frame.map (Frame.mapData map))
  | .error e => .error (mapErr e)

def either {I D₁ D₂ E₁ E₂ : Type} (a : Body I D₁ E₁) (b : Body I D₂ E₂) :
    Body I (D₁ ⊕ D₂) (E₁ ⊕ E₂) where
  State := a.State ⊕ b.State
  asInit
    | .inl data => a.asInit data
    | .inr data => b.asInit data
  nextFrame
    | .inl s, i => a.through s i .inl fun s r => (.inl s, mapResult .inl .inl r)
    | .inr s, i => b.through s i .inr fun s r => (.inr s, mapResult .inr .inr r)
  dropNext
    | .inl s => .inl (a.dropNext s)
    | .inr s => .inr (b.dropNext s)
  sizeHint
    | .inl s => a.sizeHint s
    | .inr s => b.sizeHint s
  trailerHint
    | .inl s => a.trailerHint s
    | .inr s => b.trailerHint s
  isEndStream
    | .inl s => a.isEndStream s
    | .inr s => b.isEndStream s
  recycle
    | .inl s, .inl data => .inl (a.recycle s data)
    | .inr s, .inr data => .inr (b.recycle s data)
    | s, _ => s

end Vakya
