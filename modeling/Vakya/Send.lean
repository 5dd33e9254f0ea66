import Vakya.Library.Machine
import Vakya.Decode

/-!
# Owned write loops (`io/send.rs`)

`write_scalar` and `write_vectors` submit the unwritten rest of their buffers again and again. A
write hands the buffers out as a view and returns them with what it did. `write_framed` is the
vectored loop over prefix, payload and suffix. The loop is a machine whose inputs are what happens
around it: a cancellation request, its own next turn, the completion of a write.
-/

namespace Vakya

open Library

/-- `io::ErrorKind`, as far as the loops look at it. -/
inductive IoError
  | canceled
  | interrupted
  | writeZero
  | invalidData
  | invalidInput
  | other (code : ℕ)
deriving DecidableEq, Repr

/-- The buffers of `karmaio`: their initialised parts, the view without the first bytes, the parts
of a view, and the way back. -/
structure Buffers (B V : Type) where
  parts : B → List Bytes
  slice : B → ℕ → V
  viewParts : V → List Bytes
  intoInner : V → B

namespace Buffers

variable {B V : Type}

def text (k : Buffers B V) (b : B) : Bytes := (k.parts b).flatten

def viewText (k : Buffers B V) (v : V) : Bytes := (k.viewParts v).flatten

/-- `slice(n)` drops exactly the first `n` bytes, and `into_inner` restores the buffers. -/
structure Lawful (k : Buffers B V) : Prop where
  slice_text : ∀ b n, n ≤ (k.text b).length → k.viewText (k.slice b n) = (k.text b).drop n
  intoInner_slice : ∀ b n, k.intoInner (k.slice b n) = b

end Buffers

inductive WriteKind
  | scalar
  | vectored
deriving DecidableEq, Repr

/-- The number of bytes to write; the vectored loop adds up its parts with a check. -/
def writeLength (kind : WriteKind) (parts : List Bytes) : Option ℕ :=
  match kind with
  | .scalar => some parts.flatten.length
  | .vectored => parts.foldlM (fun total part => checkedAdd total part.length) 0

def checkedProgress (result : Except IoError ℕ) (remaining : ℕ) : Except IoError ℕ :=
  match result with
  | .ok 0 => .error .writeZero
  | .ok count => if count > remaining then .error .invalidData else .ok count
  -- an interrupted write is submitted again
  | .error .interrupted => .ok 0
  | .error e => .error e

/-- At the top of the loop, waiting for a write, or back at the caller. -/
inductive WritePhase (B V : Type)
  | turn (buffer : B) (length written : ℕ)
  | submitted (view : V) (length written : ℕ)
  | returned (result : Except IoError ℕ) (buffer : B)

/-- The token says whether cancellation was requested, if the caller gave one. -/
structure WriteLoop (B V : Type) where
  token : Option Bool
  phase : WritePhase B V

inductive WriteEvent
  | cancel
  | resume
  | completed (result : Except IoError ℕ)

inductive WriteOutput
  | quiet
  | submit (bytes : Bytes)
  | accept (bytes : Bytes)
deriving DecidableEq

namespace WriteLoop

variable {B V : Type}

def start (k : Buffers B V) (kind : WriteKind) (buffer : B) (token : Option Bool) : WriteLoop B V where
  token := token
  phase := match writeLength kind (k.parts buffer) with
    | none => .returned (.error .invalidInput) buffer
    | some length => .turn buffer length 0

/-- A turn of the loop up to its write. The budget is waited for before the token is read. -/
def resume (k : Buffers B V) (s : WriteLoop B V) : Option (WriteLoop B V × WriteOutput) :=
  match s.phase with
  | .turn buffer length written =>
    if written < length then
      -- the token is read only while bytes are left to write
      if s.token = some true then some ({ s with phase := .returned (.error .canceled) buffer }, .quiet)
      else
        let view := k.slice buffer written
        some ({ s with phase := .submitted view length written }, .submit (k.viewText view))
    else some ({ s with phase := .returned (.ok written) buffer }, .quiet)
  | _ => none

/-- The write is over; the writer has taken the bytes that the check lets it report. -/
def completed (k : Buffers B V) (s : WriteLoop B V) (result : Except IoError ℕ) :
    Option (WriteLoop B V × WriteOutput) :=
  match s.phase with
  | .submitted view length written =>
    let buffer := k.intoInner view
    match checkedProgress result (length - written) with
    | .ok count =>
      some ({ s with phase := .turn buffer length (written + count) }, .accept ((k.viewText view).take count))
    | .error e => some ({ s with phase := .returned (.error e) buffer }, .quiet)
  | _ => none

def step (k : Buffers B V) (s : WriteLoop B V) : WriteEvent → Option (WriteLoop B V × WriteOutput)
  | .cancel => some ({ s with token := s.token.map fun _ => true }, .quiet)
  | .resume => s.resume k
  | .completed result => s.completed k result

end WriteLoop

def writeLoop {B V : Type} (k : Buffers B V) : Machine (WriteLoop B V) WriteEvent WriteOutput where
  step := WriteLoop.step k

def WriteOutput.accepted : WriteOutput → Bytes
  | .accept bytes => bytes
  | _ => []

def takenBytes (tr : List (WriteEvent × WriteOutput)) : Bytes := tr.flatMap fun e => e.2.accepted

@[simp] theorem takenBytes_nil : takenBytes [] = [] := rfl

@[simp] theorem takenBytes_append (tr tr' : List (WriteEvent × WriteOutput)) :
    takenBytes (tr ++ tr') = takenBytes tr ++ takenBytes tr' := List.flatMap_append ..

@[simp] theorem takenBytes_singleton (e : WriteEvent) (o : WriteOutput) :
    takenBytes [(e, o)] = o.accepted := List.flatMap_singleton ..

/-- Cancellation was requested before the call or by an event of the trace. -/
def CancelRequested (token : Option Bool) (tr : List (WriteEvent × WriteOutput)) : Prop :=
  token = some true ∨ token = some false ∧ ∃ e ∈ tr, e.1 = .cancel

section Framed

variable {P D S V : Type}

def writeFramed (k : Buffers (P × D × S) V) (before : P) (data : D) (suffix : S) (token : Option Bool) :
    WriteLoop (P × D × S) V :=
  .start k .vectored (before, data, suffix) token

def framedResult (s : WriteLoop (P × D × S) V) : Option (Except IoError ℕ × D) :=
  match s.phase with
  | .returned result (_, data, _) => some (result, data)
  | _ => none

end Framed

theorem checkedTotal_some {parts : List Bytes} {total length : ℕ}
    (h : parts.foldlM (fun total part => checkedAdd total part.length) total = some length) :
    length = total + parts.flatten.length := by
  induction parts generalizing total with
  | nil =>
    cases h
    rfl
  | cons part parts ih =>
    rw [List.foldlM_cons] at h
    obtain ⟨next, hnext, hrest⟩ := Option.bind_eq_some_iff.mp h
    unfold checkedAdd at hnext
    split_ifs at hnext
    cases hnext
    rw [ih hrest, List.flatten_cons, List.length_append]
    omega

theorem writeLength_some {kind : WriteKind} {parts : List Bytes} {length : ℕ}
    (h : writeLength kind parts = some length) : length = parts.flatten.length := by
  cases kind with
  | scalar =>
    cases h
    rfl
  | vectored =>
    have htotal := checkedTotal_some h
    omega

theorem writeLength_none {kind : WriteKind} {parts : List Bytes} (h : writeLength kind parts = none) :
    parts.flatten ≠ [] := by
  cases kind with
  | scalar => cases h
  | vectored =>
    intro hnil
    have hparts : ∀ part ∈ parts, part = [] := by simpa using hnil
    -- empty parts never overflow the sum
    have hfold : parts.foldlM (fun total part => checkedAdd total part.length) 0 = some 0 := by
      clear h hnil
      induction parts with
      | nil => rfl
      | cons part parts ih =>
        rw [List.foldlM_cons, hparts part (by simp)]
        exact ih fun p hp => hparts p (List.mem_cons_of_mem _ hp)
    rw [writeLength, hfold] at h
    cases h

/-- Only progress within what is left passes, and an interrupted write is no progress. -/
theorem checkedProgress_ok {result : Except IoError ℕ} {remaining count : ℕ}
    (h : checkedProgress result remaining = .ok count) :
    count ≤ remaining ∧ (result = .ok count ∧ 0 < count ∨ result = .error .interrupted ∧ count = 0) := by
  unfold checkedProgress at h
  split at h
  · cases h
  · rename_i n hne
    split_ifs at h
    cases h
    exact ⟨by omega, .inl ⟨rfl, Nat.pos_of_ne_zero fun hzero => hne (by rw [hzero])⟩⟩
  · cases h
    exact ⟨Nat.zero_le _, .inr ⟨rfl, rfl⟩⟩
  · cases h

namespace WriteLoop

variable {B V : Type} {k : Buffers B V} {b : B} {s s' : WriteLoop B V} {taken : Bytes}

/-- The loop over `b` when the writer has taken `taken`. -/
def Progress (k : Buffers B V) (b : B) (taken : Bytes) (s : WriteLoop B V) : Prop :=
  match s.phase with
  | .turn buffer length written =>
    buffer = b ∧ length = (k.text b).length ∧ written ≤ length ∧ taken = (k.text b).take written
  | .submitted view length written =>
    view = k.slice b written ∧ length = (k.text b).length ∧ written < length ∧ taken = (k.text b).take written
  | .returned (.ok total) buffer => buffer = b ∧ total = (k.text b).length ∧ taken = k.text b
  | .returned (.error _) buffer => buffer = b ∧ taken <+: k.text b ∧ taken ≠ k.text b

theorem Progress.start (k : Buffers B V) (kind : WriteKind) (b : B) (token : Option Bool) :
    Progress k b [] (start k kind b token) := by
  unfold Progress WriteLoop.start
  cases h : writeLength kind (k.parts b) with
  | none => exact ⟨rfl, List.nil_prefix, (writeLength_none h).symm⟩
  | some length => exact ⟨rfl, writeLength_some h, Nat.zero_le _, rfl⟩

theorem Progress.taken_prefix (h : Progress k b taken s) : taken <+: k.text b := by
  obtain ⟨token, phase⟩ := s
  cases phase with
  | turn buffer length written => exact h.2.2.2 ▸ List.take_prefix ..
  | submitted view length written => exact h.2.2.2 ▸ List.take_prefix ..
  | returned result buffer =>
    cases result with
    | ok total => exact h.2.2 ▸ List.prefix_refl _
    | error e => exact h.2.1

theorem take_ne_text {text : Bytes} {n : ℕ} (h : n < text.length) : text.take n ≠ text := by
  intro heq
  have hlen := congrArg List.length heq
  rw [List.length_take] at hlen
  omega

theorem Progress.resume {o : WriteOutput} (h : Progress k b taken s) (hs : s.resume k = some (s', o)) :
    Progress k b (taken ++ o.accepted) s' := by
  obtain ⟨token, phase⟩ := s
  cases phase with
  | turn buffer length written =>
    obtain ⟨rfl, rfl, hle, rfl⟩ := h
    simp only [WriteLoop.resume] at hs
    split_ifs at hs with hlt htoken
    · cases hs
      simp only [WriteOutput.accepted, List.append_nil]
      exact ⟨rfl, List.take_prefix .., take_ne_text hlt⟩
    · cases hs
      simp only [WriteOutput.accepted, List.append_nil]
      exact ⟨rfl, rfl, hlt, rfl⟩
    · cases hs
      simp only [WriteOutput.accepted, List.append_nil]
      exact ⟨rfl, by omega, List.take_of_length_le (by omega)⟩
  | submitted => cases hs
  | returned => cases hs

theorem take_append_drop_take (text : Bytes) (written count : ℕ) :
    text.take written ++ (text.drop written).take count = text.take (written + count) :=
  List.take_add.symm

theorem Progress.completed (hk : k.Lawful) {result : Except IoError ℕ} {o : WriteOutput}
    (h : Progress k b taken s) (hs : s.completed k result = some (s', o)) :
    Progress k b (taken ++ o.accepted) s' := by
  obtain ⟨token, phase⟩ := s
  cases phase with
  | turn => cases hs
  | submitted view length written =>
    obtain ⟨rfl, rfl, hlt, rfl⟩ := h
    simp only [WriteLoop.completed, hk.intoInner_slice] at hs
    split at hs
    -- `slice` dropped what is written, so the bytes taken are the next ones
    · rename_i count hcount
      cases hs
      have hle := (checkedProgress_ok hcount).1
      refine ⟨rfl, rfl, by omega, ?_⟩
      rw [WriteOutput.accepted, hk.slice_text b written hlt.le, take_append_drop_take]
    · cases hs
      simp only [WriteOutput.accepted, List.append_nil]
      exact ⟨rfl, List.take_prefix .., take_ne_text hlt⟩
  | returned => cases hs

theorem Progress.step (hk : k.Lawful) {i : WriteEvent} {o : WriteOutput}
    (h : Progress k b taken s) (hs : s.step k i = some (s', o)) :
    Progress k b (taken ++ o.accepted) s' := by
  cases i with
  | cancel =>
    cases hs
    simp only [WriteOutput.accepted, List.append_nil]
    exact h
  | resume => exact h.resume hs
  | completed result => exact h.completed hk hs

theorem Progress.submit (hk : k.Lawful) {i : WriteEvent} {bytes : Bytes}
    (h : Progress k b taken s) (hs : s.step k i = some (s', .submit bytes)) :
    bytes = (k.text b).drop taken.length ∧ s.token ≠ some true := by
  obtain ⟨token, phase⟩ := s
  cases i with
  | cancel => cases hs
  | resume =>
    cases phase with
    | turn buffer length written =>
      obtain ⟨rfl, rfl, hle, rfl⟩ := h
      simp only [WriteLoop.step, WriteLoop.resume] at hs
      split_ifs at hs with hlt htoken
      · cases hs
      · cases hs
        rw [hk.slice_text buffer written hle, List.length_take, Nat.min_eq_left hle]
        exact ⟨rfl, htoken⟩
      · cases hs
    | submitted => cases hs
    | returned => cases hs
  | completed result =>
    simp only [WriteLoop.step, WriteLoop.completed] at hs
    split at hs
    · split at hs
      · cases hs
      · cases hs
    · cases hs

theorem Progress.refuses (hk : k.Lawful) {count : ℕ} {o : WriteOutput} (h : Progress k b taken s)
    (hs : s.step k (.completed (.ok count)) = some (s', o)) :
    (count = 0 → s'.phase = .returned (.error .writeZero) b) ∧
      ((k.text b).length - taken.length < count → s'.phase = .returned (.error .invalidData) b) := by
  obtain ⟨token, phase⟩ := s
  cases phase with
  | turn => cases hs
  | submitted view length written =>
    obtain ⟨rfl, rfl, hlt, rfl⟩ := h
    simp only [WriteLoop.step, WriteLoop.completed, hk.intoInner_slice] at hs
    rw [List.length_take, Nat.min_eq_left hlt.le]
    constructor
    · rintro rfl
      cases hs
      rfl
    · intro hover
      have hpos : count ≠ 0 := by omega
      have hchecked : checkedProgress (.ok count) ((k.text b).length - written) = .error .invalidData := by
        obtain ⟨n, rfl⟩ := Nat.exists_eq_succ_of_ne_zero hpos
        rw [checkedProgress, if_pos hover]
        exact fun hzero => hpos (by cases hzero)
      rw [hchecked] at hs
      cases hs
      rfl
  | returned => cases hs

theorem step_returned {i : WriteEvent} {o : WriteOutput} {result : Except IoError ℕ}
    (h : s.phase = .returned result b) (hs : s.step k i = some (s', o)) : s'.phase = .returned result b := by
  cases i with
  | cancel =>
    cases hs
    exact h
  | resume =>
    simp only [step, resume, h] at hs
    cases hs
  | completed =>
    simp only [step, completed, h] at hs
    cases hs

theorem step_token {i : WriteEvent} {o : WriteOutput} (hs : s.step k i = some (s', o)) (hi : i ≠ .cancel) :
    s'.token = s.token := by
  cases i with
  | cancel => exact absurd rfl hi
  | resume =>
    simp only [step, resume] at hs
    split at hs
    · split_ifs at hs
      · cases hs
        rfl
      · cases hs
        rfl
      · cases hs
        rfl
    · cases hs
  | completed =>
    simp only [step, completed] at hs
    split at hs
    · split at hs
      · cases hs
        rfl
      · cases hs
        rfl
    · cases hs

end WriteLoop

section Runs

variable {B V : Type} {k : Buffers B V} {kind : WriteKind} {b : B} {token : Option Bool}
  {s : WriteLoop B V} {tr : List (WriteEvent × WriteOutput)}

theorem writeLoop_progress (hk : k.Lawful) (h : (writeLoop k).Reaches (.start k kind b token) tr s) :
    s.Progress k b (takenBytes tr) := by
  refine h.invariant (P := fun tr s => s.Progress k b (takenBytes tr)) (.start k kind b token) ?_
  intro tr s i s' o hprogress hs
  rw [takenBytes_append, takenBytes_singleton]
  exact hprogress.step hk hs

theorem cancelRequested_concat {e : WriteEvent} {o : WriteOutput} :
    CancelRequested token (tr ++ [(e, o)]) ↔ CancelRequested token tr ∨ token = some false ∧ e = .cancel := by
  simp only [CancelRequested, List.mem_append, List.mem_singleton, or_and_right, exists_or, exists_eq_left,
    and_or_left, or_assoc]

theorem writeLoop_token (h : (writeLoop k).Reaches (.start k kind b token) tr s) :
    (s.token = none ↔ token = none) ∧ (s.token = some true ↔ CancelRequested token tr) := by
  refine h.invariant
    (P := fun tr s => (s.token = none ↔ token = none) ∧ (s.token = some true ↔ CancelRequested token tr)) ?_ ?_
  · exact ⟨Iff.rfl, by simp [CancelRequested, WriteLoop.start]⟩
  -- the token is set by requests only, and never taken back
  · rintro tr s i s' o ⟨hnone, hrequested⟩ hs
    rw [cancelRequested_concat]
    by_cases hi : i = .cancel
    · subst hi
      cases hs
      -- a request is heard exactly when the caller gave a token
      rcases token with _ | _ | _
      · simp [hnone.mpr rfl, CancelRequested]
      · obtain ⟨flag, hflag⟩ := Option.ne_none_iff_exists'.mp (mt hnone.mp (by simp))
        simp [hflag]
      · obtain ⟨flag, hflag⟩ := Option.ne_none_iff_exists'.mp (mt hnone.mp (by simp))
        simp [hflag, CancelRequested]
    · rw [WriteLoop.step_token hs hi]
      exact ⟨hnone, by simp [hi, hrequested]⟩

theorem writeLoop_returned {s₀ : WriteLoop B V} {result : Except IoError ℕ} (h : (writeLoop k).Reaches s₀ tr s)
    (h0 : s₀.phase = .returned result b) : s.phase = .returned result b :=
  h.invariant (P := fun _ s => s.phase = .returned result b) h0
    fun _ _ _ _ _ hphase hs => WriteLoop.step_returned hphase hs

/-- What holds of every run of a loop over `b`: what the writer has taken, what each submission was,
and what the call returns. -/
structure WritesExactly (k : Buffers B V) (b : B) (token : Option Bool)
    (tr : List (WriteEvent × WriteOutput)) (s : WriteLoop B V) : Prop where
  accepted_prefix : takenBytes tr <+: k.text b
  submitted : ∀ before i bytes after, tr = before ++ (i, .submit bytes) :: after →
    bytes = (k.text b).drop (takenBytes before).length ∧ ¬ CancelRequested token before
  cursor : ∀ length written, (∃ buffer, s.phase = .turn buffer length written) ∨
      (∃ view, s.phase = .submitted view length written) →
    length = (k.text b).length ∧ written = (takenBytes tr).length ∧ written ≤ length
  returned : ∀ result buffer, s.phase = .returned result buffer →
    buffer = b ∧ (takenBytes tr = k.text b ↔ result = .ok (k.text b).length) ∧
      ∀ total, result = .ok total → total = (k.text b).length
  finishes : ∀ buffer length written, s.phase = .turn buffer length written → takenBytes tr = k.text b →
    s.resume k = some ({ s with phase := .returned (.ok (k.text b).length) b }, .quiet)
  zeroReport : ∀ before o after, tr = before ++ (.completed (.ok 0), o) :: after →
    s.phase = .returned (.error .writeZero) b
  overReport : ∀ before count o after, tr = before ++ (.completed (.ok count), o) :: after →
    ((k.text b).drop (takenBytes before).length).length < count →
    s.phase = .returned (.error .invalidData) b

theorem writeLoop_exact (hk : k.Lawful) (h : (writeLoop k).Reaches (.start k kind b token) tr s) :
    WritesExactly k b token tr s := by
  have hprogress := writeLoop_progress hk h
  obtain ⟨flag, phase⟩ := s
  refine { accepted_prefix := hprogress.taken_prefix, submitted := ?_, cursor := ?_, returned := ?_, finishes := ?_,
           zeroReport := ?_, overReport := ?_ }
  · rintro before i bytes after rfl
    -- the state in which this write was submitted
    obtain ⟨t, u, hbefore, hs, -⟩ := h.step_at
    obtain ⟨hbytes, htoken⟩ := (writeLoop_progress hk hbefore).submit hk hs
    exact ⟨hbytes, fun hrequested => htoken ((writeLoop_token hbefore).2.mpr hrequested)⟩
  · rintro length written (⟨buffer, hphase⟩ | ⟨view, hphase⟩)
    · obtain rfl : phase = _ := hphase
      obtain ⟨-, hlength, hle, htaken⟩ := hprogress
      rw [htaken, List.length_take]
      omega
    · obtain rfl : phase = _ := hphase
      obtain ⟨-, hlength, hlt, htaken⟩ := hprogress
      rw [htaken, List.length_take]
      omega
  · intro result buffer hphase
    obtain rfl : phase = _ := hphase
    cases result with
    | ok total =>
      obtain ⟨hbuffer, rfl, htaken⟩ := hprogress
      refine ⟨hbuffer, iff_of_true htaken rfl, fun n hn => ?_⟩
      cases hn
      rfl
    | error e =>
      obtain ⟨hbuffer, -, hne⟩ := hprogress
      exact ⟨hbuffer, iff_of_false hne (by simp), fun n hn => by cases hn⟩
  · intro buffer length written hphase hall
    obtain rfl : phase = _ := hphase
    obtain ⟨rfl, rfl, hle, htaken⟩ := hprogress
    have hwritten : written = (k.text buffer).length := by
      have hlen := congrArg List.length (hall.symm.trans htaken)
      rw [List.length_take] at hlen
      omega
    rw [WriteLoop.resume, hwritten]
    exact if_neg (lt_irrefl _)
  · rintro before o after rfl
    obtain ⟨t, u, hbefore, hs, hrest⟩ := h.step_at
    have hcompleted : t.step k (.completed (.ok 0)) = some (u, o) := hs
    exact writeLoop_returned hrest (((writeLoop_progress hk hbefore).refuses hk hcompleted).1 rfl)
  · intro before count o after htr hover
    subst htr
    rw [List.length_drop] at hover
    obtain ⟨t, u, hbefore, hs, hrest⟩ := h.step_at
    have hcompleted : t.step k (.completed (.ok count)) = some (u, o) := hs
    exact writeLoop_returned hrest (((writeLoop_progress hk hbefore).refuses hk hcompleted).2 hover)

end Runs

/-- The parts of a vectored buffer from byte `n` on, across the ends of the parts. -/
def dropParts (n : ℕ) : List Bytes → List Bytes
  | [] => []
  | part :: parts => part.drop n :: dropParts (n - part.length) parts

theorem dropParts_flatten (n : ℕ) (parts : List Bytes) : (dropParts n parts).flatten = parts.flatten.drop n := by
  induction parts generalizing n with
  | nil => rw [dropParts, List.flatten_nil, List.drop_nil]
  | cons part parts ih => rw [dropParts, List.flatten_cons, ih, List.flatten_cons, List.drop_append]

def Buffers.cursor {B : Type} (parts : B → List Bytes) : Buffers B (B × ℕ) where
  parts := parts
  slice b n := (b, n)
  viewParts v := dropParts v.2 (parts v.1)
  intoInner v := v.1

theorem Buffers.cursor_lawful {B : Type} (parts : B → List Bytes) : (Buffers.cursor parts).Lawful where
  slice_text b n _ := dropParts_flatten n (parts b)
  intoInner_slice _ _ := rfl

def framedBytes : Buffers (Bytes × Bytes × Bytes) ((Bytes × Bytes × Bytes) × ℕ) :=
  .cursor fun (before, data, suffix) => [before, data, suffix]

theorem framedBytes_lawful : framedBytes.Lawful := Buffers.cursor_lawful _

@[simp] theorem framedBytes_text (before data suffix : Bytes) :
    framedBytes.text (before, data, suffix) = before ++ data ++ suffix := by
  simp [framedBytes, Buffers.cursor, Buffers.text]

/-- **Owned writes are exact.** In every run of a write loop, over one buffer or over several, the
writer has taken a prefix of the text; each write submits the rest of it and none follows a request
to cancel; `Ok` is returned exactly when everything was taken; and the buffers come back. Between two
framing buffers the text is prefix, payload and suffix, and the payload comes back. -/
theorem writes_exactly {B V : Type} (k : Buffers B V) (hk : k.Lawful) {P D S W : Type}
    (framed : Buffers (P × D × S) W) (hframed : framed.Lawful) :
    (∀ kind b token tr s, (writeLoop k).Reaches (.start k kind b token) tr s → WritesExactly k b token tr s) ∧
      ∀ before data suffix token tr s,
        (writeLoop framed).Reaches (writeFramed framed before data suffix token) tr s →
        WritesExactly framed (before, data, suffix) token tr s ∧
          ∀ result data', framedResult s = some (result, data') → data' = data := by
  refine ⟨fun kind b token tr s h => writeLoop_exact hk h, fun before data suffix token tr s h => ?_⟩
  have hexact : WritesExactly framed (before, data, suffix) token tr s := writeLoop_exact hframed h
  refine ⟨hexact, fun result data' hresult => ?_⟩
  unfold framedResult at hresult
  split at hresult
  · rename_i result' before' data'' suffix' hphase
    cases hresult
    have hbuffer := (hexact.returned _ _ hphase).1
    exact congrArg (fun b => b.2.1) hbuffer
  · cases hresult

/-- Two short writes, the second one interrupted, and a request to cancel. -/
def shortWrites : List WriteEvent :=
  [.resume, .completed (.ok 5), .resume, .completed (.error .interrupted), .cancel, .resume]

theorem writes_exactly_short_writes :
    ∃ tr s, (writeLoop framedBytes).run
        (writeFramed framedBytes [52, 13, 10] [98, 111, 100, 121] [13, 10] (some false)) shortWrites = some (tr, s) ∧
      WritesExactly framedBytes ([52, 13, 10], [98, 111, 100, 121], [13, 10]) (some false) tr s ∧
      takenBytes tr = [52, 13, 10, 98, 111] ∧ framedResult s = some (.error .canceled, [98, 111, 100, 121]) := by
  have hexact := (writes_exactly framedBytes framedBytes_lawful framedBytes framedBytes_lawful).2
  refine ⟨_, _, rfl, (hexact _ _ _ _ _ _ ?_).1, rfl, rfl⟩
  exact @Machine.reaches_of_run _ _ _ (writeLoop framedBytes) _ _ shortWrites _ rfl

end Vakya
