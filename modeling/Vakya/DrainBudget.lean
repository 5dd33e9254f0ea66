import Vakya.Drain
import Vakya.Promise
import Vakya.Steady

/-!
# The budget of a body that is drained

Payload is counted twice: the driver charges what it decodes to a budget, and
`drain` counts what it takes. The driver offers at once what it has charged,
so with what had been returned before, the limit never exceeds what was
offered and what is left of the budget together.
-/

namespace Vakya

open Library

variable {W : Type}

open BodyPipe

/-! ## What a stretch of the driver does to the budget -/

def offered (calls : List (BodyCall W × BodyOutput W)) : ℕ := payloadLens (passedBy (pipeTrace calls))

theorem offered_append (calls calls' : List (BodyCall W × BodyOutput W)) :
    offered (calls ++ calls') = offered calls + offered calls' := by
  simp [offered, passedBy, payloadLens, pipeTrace]

/-- An error that names the payload limit of `drain`. -/
def Error.Overdrawn (e : Error) : Prop := e.detail = some (.incomingLimit .drainPayload)

/-- No failure of the driver names the payload limit of `drain`. -/
def Solvent (calls : List (BodyCall W × BodyOutput W)) : Prop :=
  ∀ e, .failed e ∈ endings (pipeTrace calls) → ¬e.Overdrawn

/-- Where a stretch leads, unless it panics or the buffer refused it. `next_frame` returns nothing
in it. -/
def Stretch (Q : List (BodyCall W × BodyOutput W) → DrainPolicy → Prop) (r : Receiver.Result W) : Prop :=
  ∀ s out, r = some (s, out) → out.refused = none → s.point ≠ .panicked →
    results out.body = [] ∧ Q out.body s.pipe.remaining

/-- A stretch without a charge that offers `n` bytes of payload. -/
structure Uncharged (policy : DrainPolicy) (n : ℕ) (calls : List (BodyCall W × BodyOutput W))
    (policy' : DrainPolicy) : Prop where
  kept : policy' = policy
  none : chargesIn calls = []
  offered : offered calls = n
  solvent : Solvent calls

/-- What a step does to the budget. `P` bounds the payload that it finds. -/
inductive Spent (P : ℕ → Prop) (policy : DrainPolicy) (calls : List (BodyCall W × BodyOutput W))
    (policy' : DrainPolicy) : Prop
  | uncharged (h : Uncharged policy 0 calls policy')
  | paid {bytes payload : ℕ} (hcharges : chargesIn calls = [(bytes, payload)])
      (hcharge : policy.charge bytes payload = .ok policy') (hoffered : offered calls = payload) (hP : P payload)
      (hsolvent : Solvent calls)
  | refused {bytes payload : ℕ} {limit : LimitKind} (hcharges : chargesIn calls = [(bytes, payload)])
      (hcharge : policy.charge bytes payload = .error limit) (hkept : policy' = policy)
      (hoffered : offered calls = 0) (hP : P payload)
      (hfailed : ¬Solvent calls → limit = .drainPayload)

/-- An operation on the producer that neither offers nor says that the limit was exceeded. -/
def BodyPipeCall.Plain (call : BodyPipeCall W) : Prop :=
  (∀ a, call ≠ .offer a) ∧ ∀ e, call = .fail e → ¬e.Overdrawn

theorem Uncharged.nil (policy : DrainPolicy) : Uncharged policy 0 ([] : List (BodyCall W × BodyOutput W)) policy :=
  ⟨rfl, rfl, rfl, by simp [Solvent, pipeTrace, endings]⟩

theorem step_quiet {pipe pipe' : BodyPipe W} {call : BodyPipeCall W} {o : BodyOutput W}
    (hs : pipe.step (.producer call) = some (pipe', o)) (hoffer : ∀ a, call ≠ .offer a) :
    pipe'.remaining = pipe.remaining ∧ offered [(.producer call, o)] = 0 ∧
      endings (pipeTrace [(.producer call, o)]) = call.ending.toList := by
  simp only [BodyPipe.step] at hs
  split_ifs at hs
  obtain ⟨⟨p, calls⟩, hperf, heq⟩ := Option.map_eq_some_iff.mp hs
  cases heq
  have hkept := perform_remaining hperf
  simp only [BodyPipe.perform, Machine.run] at hperf
  split at hperf
  · cases hperf
  · rename_i c out hstep
    cases hperf
    have hnone := Channel.passed_eq_nil hoffer hstep
    refine ⟨hkept, ?_, ?_⟩
    · simp [offered, pipeTrace, passedBy, hnone, payloadLens]
    · simp only [pipeTrace, endings, List.flatMap_singleton]
      cases hend : call.ending <;> simp [hend]

theorem step_plain {pipe pipe' : BodyPipe W} {call : BodyPipeCall W} {o : BodyOutput W}
    (hs : pipe.step (.producer call) = some (pipe', o)) (hplain : BodyPipeCall.Plain call) :
    Uncharged pipe.remaining 0 [(.producer call, o)] pipe'.remaining := by
  obtain ⟨hkept, hoffered, hend⟩ := step_quiet hs hplain.1
  refine ⟨hkept, rfl, hoffered, ?_⟩
  intro e he
  rw [hend] at he
  cases call with
  | fail error =>
    have heq : e = error := by simpa [PipeCall.ending] using he
    rw [heq]
    exact hplain.2 error rfl
  | _ => simp [PipeCall.ending] at he

namespace Stretch

variable {s : Receiver W} {Q Q' : List (BodyCall W × BodyOutput W) → DrainPolicy → Prop} {r : Receiver.Result W}

theorem mono (h : Stretch Q r) (hQ : ∀ calls policy, Q calls policy → Q' calls policy) : Stretch Q' r :=
  fun s out hr href hpoint => ⟨(h s out hr href hpoint).1, hQ _ _ (h s out hr href hpoint).2⟩

theorem stuck : Stretch Q (none : Receiver.Result W) := by
  intro s out hr
  cases hr

theorem panic : Stretch Q (s.suspend .panicked) := by
  intro s' out hr _ hpoint
  cases hr
  exact absurd rfl hpoint

theorem refuse (e : Error) : Stretch Q (s.refuse e) := by
  intro s' out hr href
  obtain ⟨⟨s₁, out₁⟩, -, heq⟩ := Option.map_eq_some_iff.mp hr
  cases heq
  cases href

theorem suspend {point : ReceivePoint} : Stretch (Uncharged s.pipe.remaining 0) (s.suspend point) := by
  intro s' out hr _ _
  cases hr
  exact ⟨rfl, .nil _⟩

theorem arrived (h : Stretch Q r) (w : Bytes) :
    Stretch Q (r.map fun (s, out) => (s, { out with arrived := w })) := by
  intro s' out hr href hpoint
  obtain ⟨⟨s₁, out₁⟩, hr₁, heq⟩ := Option.map_eq_some_iff.mp hr
  cases heq
  exact h _ out₁ hr₁ href hpoint

theorem act {call : BodyCall W} (hcall : ∀ w, call ≠ .pollNext w)
    {k : Receiver W → BodyOutput W → Receiver.Result W}
    (h : ∀ pipe o, s.pipe.step call = some (pipe, o) →
      Stretch (fun calls policy => Q ((call, o) :: calls) policy) (k { s with pipe } o)) :
    Stretch Q (s.act call k) := by
  intro s' out hr href hpoint
  unfold Receiver.act at hr
  split at hr
  · cases hr
  · rename_i pipe o hs
    obtain ⟨⟨s₁, out₁⟩, hk, heq⟩ := Option.map_eq_some_iff.mp hr
    cases heq
    obtain ⟨hquiet, hQ⟩ := h pipe o hs _ out₁ hk href hpoint
    have hnone := result_eq_none hs hcall
    refine ⟨?_, hQ⟩
    simp only [BodyPipe.results, List.filterMap_cons, hnone]
    exact hquiet

end Stretch

theorem chargesIn_append (calls calls' : List (BodyCall W × BodyOutput W)) :
    chargesIn (calls ++ calls') = chargesIn calls ++ chargesIn calls' := List.filterMap_append

theorem endings_pipeTrace_append (calls calls' : List (BodyCall W × BodyOutput W)) :
    endings (pipeTrace (calls ++ calls')) = endings (pipeTrace calls) ++ endings (pipeTrace calls') := by
  rw [pipeTrace, List.flatMap_append]
  exact List.filterMap_append

theorem Solvent.append {calls calls' : List (BodyCall W × BodyOutput W)} (h : Solvent calls) (h' : Solvent calls') :
    Solvent (calls ++ calls') := by
  intro e he
  rw [endings_pipeTrace_append] at he
  rcases List.mem_append.mp he with he | he
  · exact h e he
  · exact h' e he

section Stretches

variable {policy policy' policy'' : DrainPolicy} {calls calls' : List (BodyCall W × BodyOutput W)} {P : ℕ → Prop}

theorem Uncharged.append {n n' : ℕ} (h : Uncharged policy n calls policy') (h' : Uncharged policy' n' calls' policy'') :
    Uncharged policy (n + n') (calls ++ calls') policy'' where
  kept := h'.kept.trans h.kept
  none := by rw [chargesIn_append, h.none, h'.none, List.append_nil]
  offered := by rw [offered_append, h.offered, h'.offered]
  solvent := h.solvent.append h'.solvent

theorem Spent.after (h : Uncharged policy 0 calls policy') (h' : Spent P policy' calls' policy'') :
    Spent P policy (calls ++ calls') policy'' := by
  have hcharges : chargesIn (calls ++ calls') = chargesIn calls' := by
    rw [chargesIn_append, h.none, List.nil_append]
  have hoffers : offered (calls ++ calls') = offered calls' := by rw [offered_append, h.offered, Nat.zero_add]
  have hsame := h.kept
  cases h' with
  | uncharged h' => exact .uncharged (h.append h')
  | paid hcall hcharge hoffered hP hsolvent =>
    exact .paid (hcharges.trans hcall) (hsame ▸ hcharge) (hoffers.trans hoffered) hP (h.solvent.append hsolvent)
  | refused hcall hcharge hkept hoffered hP hfailed =>
    refine .refused (hcharges.trans hcall) (hsame ▸ hcharge) (hkept.trans hsame) (hoffers.trans hoffered) hP ?_
    exact fun hnot => hfailed fun hsolvent => hnot (h.solvent.append hsolvent)

end Stretches

theorem step_offer {pipe pipe' : BodyPipe W} {frame : Frame IncomingData} {o : BodyOutput W}
    (hs : pipe.step (.producer (.offer frame)) = some (pipe', o)) :
    Uncharged pipe.remaining frame.payloadLen [(.producer (.offer frame), o)] pipe'.remaining := by
  simp only [BodyPipe.step] at hs
  split_ifs at hs
  obtain ⟨⟨p, calls⟩, hperf, heq⟩ := Option.map_eq_some_iff.mp hs
  cases heq
  have hkept := perform_remaining hperf
  simp only [BodyPipe.perform, Machine.run] at hperf
  split at hperf
  · cases hperf
  · rename_i c out hstep
    cases hperf
    refine ⟨hkept, rfl, ?_, by simp [Solvent, pipeTrace, endings, PipeCall.ending]⟩
    have hevent : out.event = .offered frame := by
      have hstep : pipe.channel.step (.offer frame) = some (c, out) := hstep
      simp only [Channel.step] at hstep
      split_ifs at hstep
      cases hstep
      rfl
    simp [offered, pipeTrace, passedBy, hevent, PipeEvent.passed, payloadLens]

namespace Receiver

variable {s : Receiver W} {P : ℕ → Prop}

theorem stretch_produce {Q : DrainPolicy → List (BodyCall W × BodyOutput W) → DrainPolicy → Prop}
    (hQ : ∀ {policy policy' policy'' calls calls'}, Uncharged policy 0 calls policy' → Q policy' calls' policy'' →
      Q policy (calls ++ calls') policy'')
    {call : BodyPipeCall W} (hplain : BodyPipeCall.Plain call) {k : Receiver W → BodyOutput W → Result W}
    (h : ∀ pipe o, Stretch (Q pipe.remaining) (k { s with pipe } o)) :
    Stretch (Q s.pipe.remaining) (s.act (.producer call) k) :=
  .act (by simp) fun pipe o hs => (h pipe o).mono fun _ _ hrest => hQ (step_plain hs hplain) hrest

theorem stretch_plain {call : BodyPipeCall W} (hplain : BodyPipeCall.Plain call) {n : ℕ}
    {k : Receiver W → BodyOutput W → Result W}
    (h : ∀ pipe o, Stretch (Uncharged pipe.remaining n) (k { s with pipe } o)) :
    Stretch (Uncharged s.pipe.remaining n) (s.act (.producer call) k) :=
  stretch_produce (Q := fun policy calls policy' => Uncharged policy n calls policy')
    (fun h h' => by simpa using h.append h') hplain h

theorem fail_uncharged {e : Error} (he : ¬e.Overdrawn) : Stretch (Uncharged s.pipe.remaining 0) (s.fail e) :=
  stretch_plain ⟨by simp, fun e' h => by cases h; exact he⟩ fun _ _ => .suspend

theorem abandon_uncharged : Stretch (Uncharged s.pipe.remaining 0) s.abandon :=
  stretch_plain ⟨by simp, by simp⟩ fun _ _ => .suspend

theorem complete_uncharged : Stretch (Uncharged s.pipe.remaining 0) s.complete :=
  stretch_plain ⟨by simp, by simp⟩ fun _ _ => .suspend

theorem canceled_uncharged : Stretch (Uncharged s.pipe.remaining 0) s.canceled :=
  stretch_plain ⟨by simp, by simp⟩ fun _ _ => fail_uncharged (by simp [Error.Overdrawn, operationCanceled, Error.new])

theorem top_uncharged : Stretch (Uncharged s.pipe.remaining 0) s.top := by
  unfold Receiver.top
  split_ifs
  · exact complete_uncharged
  · exact stretch_plain ⟨by simp, by simp⟩ fun _ _ => .suspend

theorem afterRead_uncharged {result : Except Error ReadStatus} (h : ∀ e, result = .error e → ¬e.Overdrawn) :
    Stretch (Uncharged s.pipe.remaining 0) (s.afterRead result) := by
  unfold Receiver.afterRead
  split_ifs
  · exact abandon_uncharged
  · match result, h with
    | .ok .eof, _ => exact .suspend
    | .ok (.data n), _ => exact .suspend
    | .error e, h => exact fail_uncharged (h e rfl)

theorem readOrAbandoned_uncharged (cfg : ReceiveConfig) (p : DriverPoll W) :
    Stretch (Uncharged s.pipe.remaining 0) (s.readOrAbandoned cfg p) := by
  unfold Receiver.readOrAbandoned
  split_ifs
  · refine afterRead_uncharged ?_
    intro e he
    cases he
    simp [Error.Overdrawn, Error.new]
  · exact stretch_plain ⟨by simp, by simp⟩ fun _ _ => .suspend

theorem offer_uncharged (frame : Frame IncomingData) :
    Stretch (Uncharged s.pipe.remaining frame.payloadLen) (s.offer frame) :=
  .act (by simp) fun pipe o hs => Stretch.mono (.suspend (s := { s with pipe })) fun _ _ hrest => by
    simpa using (step_offer hs).append hrest

theorem consume_uncharged (b : RecvBuffer) (count : ℕ) {n : ℕ} {k : Receiver W → Result W}
    (hk : ∀ b, Stretch (Uncharged s.pipe.remaining n) (k { s with owner := .idle b })) :
    Stretch (Uncharged s.pipe.remaining n) (s.consume b count k) := by
  unfold Receiver.consume
  split
  · exact .refuse _
  · exact hk _

theorem takePayload_len {b b' : RecvBuffer} {start stop consumed : ℕ} {data : IncomingData}
    (h : b.takePayload start stop consumed = some (b', .ok data)) : data.len = stop - start := by
  unfold RecvBuffer.takePayload at h
  split_ifs at h with hrange
  · cases h
  · split at h
    · rename_i m hstorage
      cases h
      have hlen : b.len = m.bytes.length := by simp [RecvBuffer.len, hstorage, ReceiveStorage.len, ReceiveStorage.bytes]
      simp only [IncomingData.len, List.length_drop, List.length_take]
      omega
    · simp only at h
      split at h
      · cases h
      · rename_i permit hpermit
        have hdata := congrArg Prod.snd (Option.some.inj h)
        simp only [IncomingData.fromManaged] at hdata
        split_ifs at hdata
        cases hdata
        simp only [IncomingData.len]
        omega

theorem deliver_uncharged (cfg : ReceiveConfig) (p : DriverPoll W) (b : RecvBuffer) (o : DecodeOutcome) :
    Stretch (Uncharged s.pipe.remaining o.payload) (s.deliver cfg p b o) := by
  cases o with
  | needMore c =>
    exact consume_uncharged b c fun b => readOrAbandoned_uncharged (s := { s with owner := .idle b }) cfg p
  | trailers headers c =>
    exact consume_uncharged (k := fun s => s.offer (.trailers headers)) b c fun b =>
      offer_uncharged (s := { s with owner := .idle b }) _
  | ended c => exact consume_uncharged b c fun b => complete_uncharged (s := { s with owner := .idle b })
  | data i j c =>
    simp only [Receiver.deliver]
    split
    · exact .panic
    · exact .refuse _
    · rename_i b' data heq
      have hlen : (Frame.data data).payloadLen = j - i := takePayload_len heq
      have hoffer := offer_uncharged (s := { s with owner := .idle b' }) (.data data)
      rw [hlen] at hoffer
      exact hoffer

theorem toError_not_overdrawn (e : DecodeError) : ¬e.toError.Overdrawn := by
  unfold Error.Overdrawn DecodeError.toError
  cases e with
  | limit which => cases which <;> simp
  | _ => simp

theorem fail_refused {bytes payload : ℕ} {limit : LimitKind} {o : BodyOutput W} {error : Error}
    (hcalls : o.calls = []) (hcharge : s.pipe.remaining.charge bytes payload = .error limit) (hP : P payload)
    (herror : error.detail = some (.incomingLimit limit)) :
    Stretch (fun calls policy => Spent P s.pipe.remaining ((.chargeDrain bytes payload, o) :: calls) policy)
      (s.fail error) := by
  refine .act (by simp) fun pipe o' hs => ?_
  obtain ⟨hkept, hoffered, hend⟩ := step_quiet hs (by simp)
  intro s' out hr _ _
  cases hr
  refine ⟨rfl, .refused rfl hcharge hkept ?_ hP ?_⟩
  · simpa [offered, pipeTrace, hcalls, ReceiveOutput.quiet] using hoffered
  · intro hnot
    by_contra hlimit
    refine hnot fun e he => ?_
    have hmem : .failed e ∈ endings (pipeTrace [(BodyCall.producer (.fail error), o')]) := by
      simpa [pipeTrace, hcalls, ReceiveOutput.quiet] using he
    rw [hend] at hmem
    have heq := List.mem_singleton.mp hmem
    cases heq
    simpa [Error.Overdrawn, herror] using hlimit

theorem decode_spent {x : Crates} (cfg : ReceiveConfig) (p : DriverPoll W) (b : RecvBuffer)
    (hP : ∀ d o, s.decoder.decode x b.bytes s.eof = (d, .ok o) → P o.payload) :
    Stretch (Spent P s.pipe.remaining) (s.decode x cfg p b) := by
  unfold Receiver.decode
  split
  · rename_i d e hdec
    exact (fail_uncharged (s := { s with decoder := d }) (toError_not_overdrawn e)).mono fun _ _ h => .uncharged h
  · rename_i d o hdec
    refine .act (by simp) fun pipe out hs => ?_
    simp only [BodyPipe.step] at hs
    split at hs
    · rename_i remaining hcharge
      cases hs
      simp only [hcharge]
      refine (deliver_uncharged (s := { s with decoder := d, pipe := { s.pipe with remaining } }) cfg p b o).mono ?_
      rintro calls policy ⟨hkept, hnone, hoffered, hsolvent⟩
      have hcharges : chargesIn ((.chargeDrain o.consumed o.payload, ⟨[], none⟩) :: calls) =
          [(o.consumed, o.payload)] := by
        show (o.consumed, o.payload) :: chargesIn calls = _
        rw [hnone]
      exact .paid hcharges (hkept ▸ hcharge) hoffered (hP d o hdec) hsolvent
    · rename_i limit hcharge
      cases hs
      simp only [hcharge]
      exact fail_refused (s := { s with decoder := d }) rfl hcharge (hP d o hdec) rfl

/-! ## Polls -/

theorem pollDemand_spent {x : Crates} (cfg : ReceiveConfig) (p : DriverPoll W)
    (hP : ∀ b d o, s.owner = .idle b → s.decoder.decode x b.bytes s.eof = (d, .ok o) → P o.payload) :
    Stretch (Spent P s.pipe.remaining) (s.pollDemand x cfg p) := by
  unfold Receiver.pollDemand
  split_ifs
  · exact canceled_uncharged.mono fun _ _ => .uncharged
  · refine stretch_produce Spent.after ⟨by simp, by simp⟩ fun pipe o => ?_
    split
    · refine stretch_produce (s := { s with pipe }) Spent.after ⟨by simp, by simp⟩ fun pipe _ => ?_
      split
      · rename_i b hb
        exact decode_spent (s := { s with pipe }) cfg p b fun d o => hP b d o hb
      · exact .stuck
    · refine stretch_produce (s := { s with pipe }) Spent.after ⟨by simp, by simp⟩ fun pipe _ => ?_
      exact (abandon_uncharged (s := { s with pipe })).mono fun _ _ => .uncharged
    · exact Stretch.mono (.suspend (s := { s with pipe })) fun _ _ => .uncharged

theorem pollOffer_uncharged (cfg : ReceiveConfig) (p : DriverPoll W) :
    Stretch (Uncharged s.pipe.remaining 0) (s.pollOffer cfg p) := by
  unfold Receiver.pollOffer
  split_ifs
  · exact canceled_uncharged
  · refine stretch_plain ⟨by simp, by simp⟩ fun pipe o => ?_
    split
    · exact stretch_plain (s := { s with pipe }) ⟨by simp, by simp⟩ fun _ _ => .suspend
    · exact stretch_plain (s := { s with pipe }) ⟨by simp, by simp⟩ fun _ _ => abandon_uncharged
    · exact stretch_plain (s := { s with pipe }) ⟨by simp, by simp⟩ fun pipe _ =>
        stretch_plain (s := { s with pipe }) ⟨by simp, by simp⟩ fun _ _ => .suspend
    · exact .suspend

theorem drop_uncharged : Stretch (Uncharged s.pipe.remaining 0) s.drop := by
  unfold Receiver.drop
  dsimp only
  set lost : Receiver W := { s with owner := .lost s.owner.permit }
  cases s.point with
  | top => exact stretch_plain (s := lost) ⟨by simp, by simp⟩ fun _ _ => .suspend
  | demanding | reading canceled | offering =>
    exact stretch_plain (s := lost) ⟨by simp, by simp⟩ fun pipe _ =>
      stretch_plain (s := { lost with pipe }) ⟨by simp, by simp⟩ fun _ _ => .suspend
  | ended how | dropped | panicked => exact .stuck

end Receiver

/-! ## Errors of a read -/

/-- A result that does not blame the payload limit of `drain`. -/
def Blameless {α : Type} (r : Except Error α) : Prop := ∀ e, r = .error e → ¬e.Overdrawn

theorem blameless_ok {α : Type} (a : α) : Blameless (.ok a : Except Error α) := by
  intro e he
  cases he

theorem blameless_error {α : Type} {e : Error} (h : ¬e.Overdrawn) : Blameless (.error e : Except Error α) := by
  intro e' he
  cases he
  exact h

theorem fromIo_not_overdrawn (io : TransportError) : ¬(Error.fromIo io).Overdrawn := by
  cases io <;> simp [Error.Overdrawn, Error.fromIo, Error.new, Error.withDetail]

theorem Blameless.readUntil {r : Except Error ReadStatus} (h : Blameless r) (elapsed : Bool) :
    Blameless (readUntil elapsed r) := by
  have htimeout : Blameless (.error ((Error.new .timeout "HTTP receive deadline exceeded").withDetail
      (.timeout .head)) : Except Error ReadStatus) := blameless_error (by simp [Error.Overdrawn, Error.withDetail])
  unfold Vakya.readUntil
  match r, h with
  | .ok status, h =>
    dsimp only
    split_ifs
    · exact htimeout
    · exact h
  | .error e, h =>
    dsimp only
    split_ifs
    · exact htimeout
    · exact h

theorem Blameless.bodyProgress {r : Except Error ReadStatus} (h : Blameless r) :
    Blameless (r.mapError bodyProgress) := by
  match r, h with
  | .ok status, _ => exact blameless_ok status
  | .error e, h =>
    refine blameless_error ?_
    unfold Vakya.bodyProgress
    split_ifs
    · simp [Error.Overdrawn, Error.withDetail]
    · exact h e rfl

theorem Blameless.finishRead {result : Except Error ℕ} (h : Blameless result) (b : RecvBuffer) (slice : BytesMut)
    (target : ℕ) (appended : Bytes) : Blameless (b.finishRead slice target appended result).2 := by
  unfold RecvBuffer.finishRead
  match result, h with
  | .ok count, _ =>
    dsimp only
    split_ifs
    · exact blameless_error (by simp [Error.Overdrawn, Error.new])
    · exact blameless_ok _
    · exact blameless_ok _
  | .error e, h => exact blameless_error (h e rfl)

theorem Blameless.finishReadManaged {result : Except Error (Option Bytes)} (h : Blameless result) (b : RecvBuffer)
    (target : ℕ) : Blameless (b.finishReadManaged target result).2 := by
  have hmanaged : Blameless (RecvBuffer.managedRead target result) := by
    unfold RecvBuffer.managedRead
    split
    · split_ifs
      · exact blameless_error (by simp [Error.Overdrawn, Error.new])
      · exact blameless_error (by simp [Error.Overdrawn, Error.new])
      · exact blameless_ok _
    · exact blameless_ok _
    · exact blameless_error (h _ rfl)
  unfold RecvBuffer.finishReadManaged
  match hr : RecvBuffer.managedRead target result with
  | .ok (some buffer) => exact blameless_ok _
  | .ok none => exact blameless_ok _
  | .error e => exact blameless_error (hmanaged e hr)

/-- A read that is finished does not blame the limit, if the transport does not. -/
def ReadPoll.Blameless : Option ReadPoll → Prop
  | some (.ready _ result) => Vakya.Blameless result
  | _ => True

section Reads

variable {completion : Option (Completion × Bool)}
  (hio : ∀ c elapsed, completion = some (c, elapsed) → ∀ e, c.error? = some e → ∃ io, e = .fromIo io)

include hio

theorem settle_blameless (timed : Bool) (owner : BufferOwner) : ReadPoll.Blameless (owner.settle timed completion) := by
  rcases completion with _ | ⟨c, elapsed⟩
  · trivial
  have hcompleted {α : Type} {r : Except Error α} (hr : ∀ e, r = .error e → c.error? = some e) : Blameless r := by
    intro e he
    obtain ⟨io, rfl⟩ := hio c elapsed rfl e (hr e he)
    exact fromIo_not_overdrawn io
  cases owner with
  | idle b | lost permit => cases c <;> trivial
  | reading b slice target =>
    cases c with
    | managed result => trivial
    | portable appended result =>
      simp only [BufferOwner.settle]
      split_ifs
      · have hresult : Blameless result := hcompleted fun e he => by rw [he]; rfl
        exact (hresult.finishRead b slice target appended).readUntil _
      · trivial
  | readingManaged b target =>
    cases c with
    | portable appended result => trivial
    | managed result =>
      have hresult : Blameless result := hcompleted fun e he => by rw [he]; rfl
      exact (hresult.finishReadManaged b target).readUntil _

theorem pollRead_blameless (cfg : ReceiveConfig) (canceled : Bool) (owner : BufferOwner) :
    ReadPoll.Blameless (owner.pollRead cfg canceled completion) := by
  cases owner with
  | reading b slice target => exact settle_blameless hio _ _
  | readingManaged b target => exact settle_blameless hio _ _
  | lost permit => exact settle_blameless hio cfg.progressTimeout _
  | idle b =>
    have hcanceled : Blameless (.error operationCanceled : Except Error ReadStatus) :=
      blameless_error (by simp [Error.Overdrawn, operationCanceled, Error.new])
    have hread (canceled : Bool) {b b' : RecvBuffer} {result : Except Error ReadStatus}
        (h : b.beginRead canceled = (b', .done result)) : Blameless result := by
      unfold RecvBuffer.beginRead at h
      dsimp only at h
      split_ifs at h
      · cases h
        exact hcanceled
      · cases h
        exact blameless_error (by simp [Error.Overdrawn, Error.withDetail])
      · split at h <;> cases h
    simp only [BufferOwner.pollRead]
    split
    · rename_i b' result heq
      split_ifs at heq
      · unfold RecvBuffer.beginReadManaged at heq
        split_ifs at heq
        · cases heq
          exact hcanceled
        · exact hread canceled heq
        · exact hread canceled heq
        · cases heq
      · exact hread canceled heq
    · exact settle_blameless hio _ _
    · exact settle_blameless hio _ _
    · trivial

end Reads

namespace Receiver

variable {s : Receiver W}

theorem pollReading_uncharged (cfg : ReceiveConfig) {p : DriverPoll W} (hio : ReceiveInput.FromIo (.poll p))
    (canceled : Bool) : Stretch (Uncharged s.pipe.remaining 0) (s.pollReading cfg p canceled) := by
  have hblameless := pollRead_blameless hio cfg canceled s.owner
  unfold Receiver.pollReading
  split
  · exact .stuck
  · exact .panic
  · rename_i b result heq
    rw [heq] at hblameless
    refine Stretch.arrived ?_ _
    refine stretch_plain (s := { s with owner := .idle b }) ⟨by simp, by simp⟩ fun pipe _ => ?_
    exact afterRead_uncharged hblameless.bodyProgress
  · rename_i owner heq
    dsimp only
    split_ifs
    · exact .suspend
    · refine stretch_plain (s := { s with owner }) ⟨by simp, by simp⟩ fun pipe o => ?_
      split <;> exact .suspend

end Receiver

/-! ## What is offered is on the wire -/

theorem Drive.Tracks.payload_prefix {x : Crates} {mode : BodyMode} {limits : DecodeLimits} {wire : Bytes} {d : Drive}
    (h : Tracks x mode limits wire true d) : d.payload <+: ((framing x limits).run mode.start wire).output := by
  rcases h with hf | hc | ⟨-, he⟩
  · obtain ⟨-, -, -, -, hrun⟩ := hf
    simp [hrun]
  · obtain ⟨-, charged, hrun⟩ := hc
    simp [hrun]
  · obtain ⟨-, -, -, -, -, hrun, -⟩ := he
    simp [hrun]

def Reception.payload (R : Reception) (wire : Bytes) : ℕ :=
  ((framing R.crates R.limits).run R.mode.start wire).output.length

theorem Reception.payload_arrive (R : Reception) (wire w : Bytes) : R.payload wire ≤ R.payload (wire ++ w) :=
  (Transducer.output_prefix _ _ _ _).length_le

namespace Receiver

variable {R : Reception} {wire : Bytes} {btr : List (BodyCall W × BodyOutput W)} {s s' : Receiver W}
  {out : ReceiveOutput W} {cfg : ReceiveConfig}

theorem Core.decoded_within (hx : R.crates.HeadersWithin) (h : Core R (R.Tracks wire) btr s)
    (hopen : s.decoder.isComplete = false) {b : RecvBuffer} (hb : s.owner = .idle b) {d : BodyDecoder}
    {o : DecodeOutcome} (hdec : s.decoder.decode R.crates b.bytes s.eof = (d, .ok o)) :
    offered btr + o.payload ≤ R.payload wire := by
  obtain ⟨ds, t, bytes, ⟨hpassed, hwhole⟩, hbytes, hd⟩ := h.drive
  obtain rfl : b.bytes = bytes := by simpa [hb, BufferOwner.bytes] using hbytes
  obtain ⟨hlen, htr, hnext⟩ := hd.decode_cases hx rfl hopen hdec
  obtain rfl : t = none := htr
  have hoffered : offered btr = (payloadOf ds).length := by
    rw [← payloadLens_data hwhole, offered, hpassed]
    simp
  have hsofar : (payloadOf ds).length ≤ R.payload wire := hd.payload_prefix.length_le
  cases o with
  | data i j c =>
    obtain ⟨hij, hjc, htracks⟩ := hnext
    have hafter := htracks.payload_prefix.length_le
    have hslice : ((b.bytes.take j).drop i).length = j - i := by
      have : c ≤ b.bytes.length := hlen
      simp only [List.length_drop, List.length_take]
      omega
    simp only [List.length_append, hslice] at hafter
    rw [hoffered]
    exact hafter
  | needMore c | trailers headers c | ended c =>
    rw [hoffered]
    exact hsofar

theorem Inv.decoded_within (hx : R.crates.HeadersWithin) (h : Inv R wire btr s) (hpoint : s.point = .demanding)
    (b : RecvBuffer) (d : BodyDecoder) (o : DecodeOutcome) (hb : s.owner = .idle b)
    (hdec : s.decoder.decode R.crates b.bytes s.eof = (d, .ok o)) : offered btr + o.payload ≤ R.payload wire := by
  simp only [Inv, hpoint] at h
  exact h.1.decoded_within hx h.2.2.1 hb hdec

theorem Inv.spent (hx : R.crates.HeadersWithin) (h : Inv R wire btr s) {i : ReceiveInput W}
    (hi : ∀ m allowance, i ≠ .body (.drainBudget m allowance)) (hio : i.FromIo)
    (hs : s.step R.crates cfg i = some (s', out)) :
    Spent (fun n => offered btr + n ≤ R.payload wire) s.pipe.remaining out.body s'.pipe.remaining ∧
      ((∀ call, i ≠ .body call) → results out.body = []) := by
  obtain ⟨hinv', href⟩ := h.step hx hs
  have hpoint : s'.point ≠ .panicked := by
    intro hp
    simp [Inv, hp] at hinv'
  have hstretch {r : Result W}
      (hr : Stretch (Spent (fun n => offered btr + n ≤ R.payload wire) s.pipe.remaining) r) (heq : r = some (s', out)) :
      Spent (fun n => offered btr + n ≤ R.payload wire) s.pipe.remaining out.body s'.pipe.remaining ∧
        ((∀ call, i ≠ .body call) → results out.body = []) :=
    ⟨(hr s' out heq href hpoint).2, fun _ => (hr s' out heq href hpoint).1⟩
  cases i with
  | poll p =>
    have hpoll : s.poll R.crates cfg p = some (s', out) := hs
    unfold Receiver.poll at hpoll
    cases hat : s.point with
    | top =>
      rw [hat] at hpoll
      exact hstretch (top_uncharged.mono fun _ _ => .uncharged) hpoll
    | demanding =>
      rw [hat] at hpoll
      exact hstretch (pollDemand_spent cfg p (h.decoded_within hx hat)) hpoll
    | reading canceled =>
      rw [hat] at hpoll
      exact hstretch ((pollReading_uncharged cfg hio canceled).mono fun _ _ => .uncharged) hpoll
    | offering =>
      rw [hat] at hpoll
      exact hstretch ((pollOffer_uncharged cfg p).mono fun _ _ => .uncharged) hpoll
    | ended how | dropped | panicked => simp [hat] at hpoll
  | dropDriver =>
    have hdrop : s.drop = some (s', out) := hs
    exact hstretch (drop_uncharged.mono fun _ _ => .uncharged) hdrop
  | body call =>
    refine ⟨.uncharged ?_, fun hnot => absurd rfl (hnot call)⟩
    have hbody : s.step R.crates cfg (.body call) = some (s', out) := hs
    simp only [Receiver.step] at hbody
    split_ifs at hbody with hc
    simp only [act] at hbody
    split at hbody
    · cases hbody
    · rename_i pipe o hpipe
      cases hbody
      have hsound := (BodyPipe.inv_of_reaches h.orderly.reach).sound
      obtain ⟨-, -, hpassed, hend, -⟩ := body_keeps [] hsound hpipe hc
      refine ⟨step_remaining hpipe hc fun m allowance heq => hi m allowance (by rw [heq]), ?_, ?_, ?_⟩
      · cases call with
        | producer call | chargeDrain bytes payload => cases hc
        | _ => rfl
      · simp [offered, pipeTrace, hpassed, payloadLens, ReceiveOutput.quiet]
      · simp [Solvent, pipeTrace, hend, ReceiveOutput.quiet]
  | releaseLease =>
    have hrel : s.step R.crates cfg .releaseLease = some (s', out) := hs
    simp only [Receiver.step] at hrel
    split at hrel
    · cases hrel
      exact ⟨.uncharged (.nil _), fun _ => rfl⟩
    · cases hrel

end Receiver

/-! ## Charges -/

namespace DrainPolicy

variable {policy policy' : DrainPolicy} {bytes payload : ℕ}

theorem charge_some (wire data bytes payload : ℕ) :
    charge (some (wire, data)) bytes payload =
      if data < payload then .error .drainPayload
      else if wire < bytes then .error .drainWire
      else .ok (some (wire - bytes, data - payload)) := rfl

theorem charge_eq_ok {wire data : ℕ} (h : charge policy bytes payload = .ok (some (wire, data))) :
    policy = some (wire + bytes, data + payload) := by
  rcases policy with _ | ⟨wire', data'⟩
  · cases h
  · rw [charge_some] at h
    split_ifs at h with hdata hwire
    cases h
    simp only [Option.some.injEq, Prod.mk.injEq]
    omega

theorem charge_drainPayload (h : charge policy bytes payload = .error .drainPayload) :
    ∃ wire data, policy = some (wire, data) ∧ data < payload := by
  rcases policy with _ | ⟨wire, data⟩
  · cases h
  · rw [charge_some] at h
    split_ifs at h with hdata
    · exact ⟨wire, data, rfl, hdata⟩
    · cases h

def after : DrainPolicy → List (ℕ × ℕ) → DrainPolicy
  | p, [] => p
  | p, (bytes, payload) :: charges =>
    match p.charge bytes payload with
    | .ok p => after p charges
    | .error _ => after p charges

theorem after_append (p : DrainPolicy) (charges charges' : List (ℕ × ℕ)) :
    p.after (charges ++ charges') = (p.after charges).after charges' := by
  induction charges generalizing p with
  | nil => rfl
  | cons c charges ih =>
    obtain ⟨bytes, payload⟩ := c
    simp only [List.cons_append, after]
    cases p.charge bytes payload with
    | ok p' => exact ih p'
    | error limit => exact ih p

theorem after_none (charges : List (ℕ × ℕ)) : after none charges = none := by
  induction charges with
  | nil => rfl
  | cons c charges ih => exact ih

/-- The budget is what was granted without what it paid, and it paid no more than was granted. -/
theorem after_some (wire data : ℕ) (charges : List (ℕ × ℕ)) :
    let paid := paid (some (wire, data)) charges
    after (some (wire, data)) charges = some (wire - (paid.map Prod.fst).sum, data - (paid.map Prod.snd).sum) ∧
      (paid.map Prod.fst).sum ≤ wire ∧ (paid.map Prod.snd).sum ≤ data := by
  induction charges generalizing wire data with
  | nil => simp [after, paid]
  | cons c charges ih =>
    obtain ⟨bytes, payload⟩ := c
    simp only [after, paid, charge_some]
    split_ifs with hdata hwire
    · exact ih wire data
    · exact ih wire data
    · obtain ⟨hafter, hbytes, hpayload⟩ := ih (wire - bytes) (data - payload)
      refine ⟨?_, ?_, ?_⟩
      · simp only [hafter, List.map_cons, List.sum_cons, Option.some.injEq, Prod.mk.injEq]
        omega
      · simp only [List.map_cons, List.sum_cons]
        omega
      · simp only [List.map_cons, List.sum_cons]
        omega

end DrainPolicy

theorem Spent.after_charges {P : ℕ → Prop} {policy policy' : DrainPolicy}
    {calls : List (BodyCall W × BodyOutput W)} (h : Spent P policy calls policy') :
    policy' = policy.after (chargesIn calls) := by
  cases h with
  | uncharged h =>
    rw [h.none, h.kept]
    rfl
  | paid hcharges hcharge =>
    rw [hcharges]
    simp only [DrainPolicy.after, hcharge]
  | refused hcharges hcharge hkept =>
    rw [hcharges, hkept]
    simp only [DrainPolicy.after, hcharge]

/-! ## The invariant -/

/-- The limit never exceeds what was offered and what is left of the budget together: `goal` is the
limit and what had been returned when it was set. So a driver that blames the limit has found more
payload than the goal. -/
structure Funded (R : Reception) (goal : ℕ) (wire : Bytes) (btr : List (BodyCall W × BodyOutput W))
    (policy : DrainPolicy) : Prop where
  covered : offered btr ≤ R.payload wire
  funded : ∀ bytes data, policy = some (bytes, data) → goal ≤ offered btr + data
  overdrawn : ¬Solvent btr → goal < R.payload wire

namespace Funded

variable {R : Reception} {goal : ℕ} {wire : Bytes} {btr calls : List (BodyCall W × BodyOutput W)}
  {policy policy' : DrainPolicy}

theorem arrive (h : Funded R goal wire btr policy) (w : Bytes) : Funded R goal (wire ++ w) btr policy where
  covered := h.covered.trans (R.payload_arrive wire w)
  funded := h.funded
  overdrawn := fun hnot => (h.overdrawn hnot).trans_le (R.payload_arrive wire w)

theorem spent (h : Funded R goal wire btr policy)
    (hs : Spent (fun n => offered btr + n ≤ R.payload wire) policy calls policy') :
    Funded R goal wire (btr ++ calls) policy' := by
  have hsum := offered_append btr calls
  have hsolvent (hcalls : Solvent calls) (hnot : ¬Solvent (btr ++ calls)) : ¬Solvent btr :=
    fun hbtr => hnot (hbtr.append hcalls)
  cases hs with
  | uncharged hu =>
    have hsame : offered (btr ++ calls) = offered btr := by rw [hsum, hu.offered, Nat.add_zero]
    refine ⟨hsame ▸ h.covered, ?_, fun hnot => h.overdrawn (hsolvent hu.solvent hnot)⟩
    rw [hsame, hu.kept]
    exact h.funded
  | @paid bytes payload hcharges hcharge hoffered hP hclean =>
    rw [hoffered] at hsum
    refine ⟨hsum ▸ hP, fun left data hpolicy => ?_, fun hnot => h.overdrawn (hsolvent hclean hnot)⟩
    -- What the charge takes from the budget was offered.
    rw [hpolicy] at hcharge
    have hgoal := h.funded _ _ (DrainPolicy.charge_eq_ok hcharge)
    omega
  | @refused bytes payload limit hcharges hcharge hkept hoffered hP hfailed =>
    have hsame : offered (btr ++ calls) = offered btr := by rw [hsum, hoffered, Nat.add_zero]
    refine ⟨hsame ▸ h.covered, ?_, fun hnot => ?_⟩
    · rw [hsame, hkept]
      exact h.funded
    · by_cases hbtr : Solvent btr
      · -- The charge that failed is more than what was left, and is on the wire.
        obtain rfl := hfailed fun hcalls => hnot (hbtr.append hcalls)
        obtain ⟨left, data, hpolicy, hlt⟩ := DrainPolicy.charge_drainPayload hcharge
        have hgoal := h.funded _ _ hpolicy
        omega
      · exact h.overdrawn hbtr

end Funded

namespace Receiver

variable {R : Reception} {wire : Bytes} {btr : List (BodyCall W × BodyOutput W)} {s s' : Receiver W}
  {cfg : ReceiveConfig} {tr : List (ReceiveInput W × ReceiveOutput W)}

def Undrained (tr : List (ReceiveInput W × ReceiveOutput W)) : Prop :=
  ∀ y ∈ tr, ∀ m allowance, y.1 ≠ .body (.drainBudget m allowance)

theorem bodyTrace_append (tr tr' : List (ReceiveInput W × ReceiveOutput W)) :
    bodyTrace (tr ++ tr') = bodyTrace tr ++ bodyTrace tr' := List.flatMap_append

/-- A run that does not set the budget keeps the books. -/
theorem Inv.funded_run (hx : R.crates.HeadersWithin) (hinv : Inv R wire btr s) {goal : ℕ}
    (h : Funded R goal wire btr s.pipe.remaining) (hrun : (receiver W R.crates cfg).Reaches s tr s')
    (hset : Undrained tr) (hio : ∀ y ∈ tr, y.1.FromIo) :
    Inv R (wire ++ arrivedIn tr) (btr ++ bodyTrace tr) s' ∧
      Funded R goal (wire ++ arrivedIn tr) (btr ++ bodyTrace tr) s'.pipe.remaining ∧
      s'.pipe.remaining = s.pipe.remaining.after (chargesIn (bodyTrace tr)) := by
  have hall : (Undrained tr → (∀ y ∈ tr, y.1.FromIo) →
      Inv R (wire ++ arrivedIn tr) (btr ++ bodyTrace tr) s' ∧
      Funded R goal (wire ++ arrivedIn tr) (btr ++ bodyTrace tr) s'.pipe.remaining ∧
      s'.pipe.remaining = s.pipe.remaining.after (chargesIn (bodyTrace tr))) := by
    refine hrun.invariant (P := fun tr s' => Undrained tr → (∀ y ∈ tr, y.1.FromIo) →
      Inv R (wire ++ arrivedIn tr) (btr ++ bodyTrace tr) s' ∧
      Funded R goal (wire ++ arrivedIn tr) (btr ++ bodyTrace tr) s'.pipe.remaining ∧
      s'.pipe.remaining = s.pipe.remaining.after (chargesIn (bodyTrace tr)))
      (fun _ _ => ⟨by simpa [arrivedIn, bodyTrace] using hinv, by simpa [arrivedIn, bodyTrace] using h, rfl⟩) ?_
    intro tr s₁ i s₂ out ih hs hset hio
    obtain ⟨hinv₁, hfunded, hafter⟩ :=
      ih (fun y hy => hset y (by simp [hy])) (fun y hy => hio y (by simp [hy]))
    obtain ⟨hspent, -⟩ := hinv₁.spent hx (hset (i, out) (by simp)) (hio (i, out) (by simp)) hs
    obtain ⟨hinv₂, -⟩ := hinv₁.step hx hs
    have hb : bodyTrace (tr ++ [(i, out)]) = bodyTrace tr ++ out.body := by simp [bodyTrace]
    have ha : arrivedIn (tr ++ [(i, out)]) = arrivedIn tr ++ out.arrived := by simp [arrivedIn]
    rw [hb, ha, ← List.append_assoc, ← List.append_assoc]
    refine ⟨hinv₂, (hfunded.spent hspent).arrive out.arrived, ?_⟩
    rw [hspent.after_charges, hafter, chargesIn_append, DrainPolicy.after_append]
  exact hall hset hio

end Receiver

/-! ## What `next_frame` returned -/

namespace BodyPipe

variable {s : BodyPipe W} {size : SizeHint} {trailers : TrailerHint} {tr : List (BodyCall W × BodyOutput W)}

theorem frames_of_no_error (h : (bodyPipe W).Reaches (new size trailers) tr s)
    (hno : ∀ e, .error e ∉ results tr) : framesOf (results tr) = takenBy (pipeTrace tr) := by
  have hboth : Inv size tr s ∧ ((∀ e, .error e ∉ results tr) → framesOf (results tr) = takenBy (pipeTrace tr)) := by
    refine h.invariant (P := fun tr s => Inv size tr s ∧ ((∀ e, .error e ∉ results tr) →
      framesOf (results tr) = takenBy (pipeTrace tr))) ⟨inv_of_reaches .start, fun _ => rfl⟩ ?_
    intro tr s i s' o ⟨hinv, ih⟩ hs
    refine ⟨hinv.step hs, fun hno => ?_⟩
    rw [results_append] at hno ⊢
    have hsame := ih fun e he => hno e (List.mem_append_left _ he)
    rw [framesOf_append, pipeTrace_append, takenBy, List.flatMap_append, hsame]
    refine congrArg (takenBy (pipeTrace tr) ++ ·) ?_
    show framesOf o.result.toList = takenBy o.calls
    rcases hinv.step_taken hs with ⟨hres, htaken, -⟩ | ⟨hres, htaken, -⟩ | ⟨b, r, -, -, -, hres, -, htaken⟩
    · rw [hres, htaken]
      rfl
    · rw [hres, htaken]
      rfl
    · rw [hres, htaken]
      rcases b.settle_cases r with ⟨frame, rfl, hf, -⟩ | ⟨-, ⟨e, he⟩ | ⟨rfl, -, he⟩⟩
      · rw [hf]
        rfl
      · exact absurd (by simp [hres, he]) (hno e)
      · rw [he]
        rfl
  exact hboth.2 hno

theorem settle_overdrawn {b : Incoming} {r : Except (TakeError Error) (Option (Frame IncomingData))} {e : Error}
    (h : (b.settle r).2 = .error e) (he : e.Overdrawn) : r = .error (.failed e) := by
  have hobserve {frame : Frame IncomingData} {e : Error} (h : b.observe frame = .error e) : ¬e.Overdrawn := by
    cases frame with
    | data d =>
      simp only [Incoming.observe] at h
      split_ifs at h
      · cases h
        simp [Error.Overdrawn, Error.new]
      · -- The bounds are checked once more, but they still fit.
        cases hshrink : Incoming.shrink b.size d.len with
        | ok size =>
          rw [hshrink] at h
          cases h
        | error e' =>
          rw [hshrink] at h
          cases h
          simp only [Incoming.shrink, SizeHint.withBounds] at hshrink
          split_ifs at hshrink
          cases hshrink
          simp [Error.Overdrawn, Error.new]
    | trailers headers =>
      simp only [Incoming.observe] at h
      split_ifs at h
      cases h
      simp [Error.Overdrawn, Error.new]
  cases r with
  | ok frame =>
    cases frame with
    | some frame =>
      cases ho : b.observe frame with
      | ok b' => simp [Incoming.settle, ho] at h
      | error e' =>
        simp only [Incoming.settle, ho, Except.error.injEq] at h
        exact absurd he (h ▸ hobserve ho)
    | none =>
      simp only [Incoming.settle] at h
      split_ifs at h
      cases h
      simp [Error.Overdrawn, Error.new] at he
  | error t =>
    cases t with
    | failed e' =>
      simp only [Incoming.settle, Except.error.injEq] at h
      rw [h]
    | disconnected =>
      simp only [Incoming.settle, Except.error.injEq] at h
      subst h
      simp [Error.Overdrawn, Error.withDetail] at he

theorem overdrawn_of_result (h : (bodyPipe W).Reaches (new size trailers) tr s) {e : Error}
    (hmem : .error e ∈ results tr) (he : e.Overdrawn) : ¬Solvent tr := by
  have hboth : Inv size tr s ∧ (.error e ∈ results tr → .failed e ∈ endings (pipeTrace tr)) := by
    refine h.invariant (P := fun tr s => Inv size tr s ∧
      (.error e ∈ results tr → .failed e ∈ endings (pipeTrace tr))) ⟨inv_of_reaches .start, by simp [results]⟩ ?_
    rintro tr s i s' o ⟨hinv, ih⟩ hs
    refine ⟨hinv.step hs, fun hmem => ?_⟩
    rw [pipeTrace_append, endings, List.filterMap_append]
    rw [results_append] at hmem
    rcases List.mem_append.mp hmem with hmem | hmem
    · exact List.mem_append_left _ (ih hmem)
    · refine List.mem_append_left _ ?_
      rcases hinv.step_taken hs with ⟨hres, -⟩ | ⟨hres, -⟩ | ⟨b, r, hin, hb, hr, hres, -⟩
      · simp [hres] at hmem
      · simp [hres] at hmem
      · have hsettle : (b.settle r).2 = .error e := by simpa [hres, eq_comm] using hmem
        have hfailed := settle_overdrawn hsettle he
        rcases hr with ⟨hterm, hreport⟩ | ⟨frame, hframe⟩
        · have hends := hinv.endings_eq (hinv.reading b hin hb).2.2.1 hterm
          have hstate : s.channel.state = .failed e := by
            rw [hfailed] at hreport
            cases hst : s.channel.state with
            | failed e' =>
              rw [hst] at hreport
              cases hreport
              rfl
            | _ => simp [hst, PipeState.report] at hreport
          show .failed e ∈ endings (pipeTrace tr)
          rw [hends, hstate]
          exact List.mem_singleton.mpr rfl
        · rw [hframe] at hfailed
          cases hfailed
  exact fun hsolvent => hsolvent e (hboth.2 hmem) he

end BodyPipe

end Vakya
