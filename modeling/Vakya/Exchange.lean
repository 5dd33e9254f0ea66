import Vakya.Library.Machine
import Vakya.Error
import Vakya.Reference

/-!
# Exchange policy (`exchange.rs`)

One request and the heads that answer it. The policy is a machine whose inputs
are the calls of a driver; what it may conclude at the end is a statement about
every sequence of such calls.
-/

namespace Vakya

open Library

/-- The comma-separated members of `Upgrade` values. -/
def upgradeMembers (values : List HeaderValue) : List Bytes :=
  values.flatMap fun value => (splitOn COMMA value.bytes).map trimOws

def upgradeProtocolsMatch (offered : List HeaderValue) (selected : Headers) : Bool :=
  let members := upgradeMembers (selected.getAll .upgrade)
  !members.isEmpty && members.all fun member =>
    !member.isEmpty && (upgradeMembers offered).any (eqIgnoreAsciiCase · member)

inductive ActivityEnd
  | complete
  | retired
deriving DecidableEq, Repr

inductive ResponsePhase
  | awaitingHead
  | final
  | upgrade (kind : UpgradeKind)
deriving DecidableEq, Repr

inductive HeadAction
  | informational
  | final
  | upgrade (kind : UpgradeKind)
deriving DecidableEq, Repr

inductive Outcome
  | reusable
  | close
  | handoff (kind : UpgradeKind)
deriving DecidableEq, Repr

structure ExchangePolicy where
  phase : ResponsePhase
  persistence : Persistence
  method : Method
  upgrade : Option UpgradeKind
  offeredProtocols : List HeaderValue
  informational : ℕ
  maxInformational : ℕ

namespace ExchangePolicy

def new {x : Crates} (request : ValidatedRequestHead x) (maxInformational : ℕ) : ExchangePolicy where
  phase := .awaitingHead
  persistence := request.persistence
  method := request.head.method
  upgrade := request.upgrade
  offeredProtocols :=
    if request.upgrade = some .protocol then request.head.headers.getAll .upgrade else []
  informational := 0
  maxInformational := maxInformational

/-- Whether a response may make the upgrade `kind`. -/
def admitsUpgrade (p : ExchangePolicy) (kind : UpgradeKind) (headers : Headers) : Bool :=
  p.upgrade = some kind &&
    (kind ≠ .protocol || upgradeProtocolsMatch p.offeredProtocols headers)

def toFinal (p : ExchangePolicy) (persistence : Persistence) : ExchangePolicy :=
  { p with phase := .final, persistence := if persistence = .close then .close else p.persistence }

def receiveHead (p : ExchangePolicy) (head : ResponseHead) :
    ExchangePolicy × Except Error (ValidatedResponseHead × HeadAction) :=
  if p.phase ≠ .awaitingHead then
    (p, .error (.new .invalidMessage "response head after final response"))
  else
    match head.validate p.method with
    | .error e => (p, .error e.toError)
    | .ok head =>
      match head.upgrade with
      | some kind =>
        if p.admitsUpgrade kind head.head.headers then
          ({ p with phase := .upgrade kind }, .ok (head, .upgrade kind))
        else (p, .error (.new .upgrade "response did not match the requested upgrade"))
      | none =>
        if head.head.status.isInformational then
          if p.informational = p.maxInformational then
            (p, .error ((Error.new .limit "too many informational responses").withDetail
              (.incomingLimit .informationalResponses)))
          else ({ p with informational := p.informational + 1 }, .ok (head, .informational))
        else (p.toFinal head.persistence, .ok (head, .final))

def sentFinal (p : ExchangePolicy) (persistence : Persistence) :
    ExchangePolicy × Except Error Unit :=
  if p.phase ≠ .awaitingHead then
    (p, .error (.new .internal "invalid final response transition"))
  else (p.toFinal persistence, .ok ())

def sentResponse (p : ExchangePolicy) (head : ValidatedResponseHead) :
    ExchangePolicy × Except Error Unit :=
  match head.upgrade with
  | some kind =>
    if p.phase = .awaitingHead ∧ p.admitsUpgrade kind head.head.headers then
      ({ p with phase := .upgrade kind }, .ok ())
    else (p, .error (.new .upgrade "response did not match the requested upgrade"))
  | none => p.sentFinal head.persistence

def closeAfterExchange (p : ExchangePolicy) : ExchangePolicy := { p with persistence := .close }

def finish (p : ExchangePolicy) (request response : ActivityEnd) : Except Error Outcome :=
  if request = .retired ∨ response = .retired then .ok .close
  else
    match p.phase with
    | .awaitingHead => .error (.new .internal "exchange completed without final head")
    | .upgrade kind => .ok (.handoff kind)
    | .final =>
      match p.persistence with
      | .reusable => .ok .reusable
      | .close => .ok .close

end ExchangePolicy

inductive ExchangeCall
  | receiveHead (head : ResponseHead)
  | sentResponse (head : ValidatedResponseHead)
  | sentFinal (persistence : Persistence)
  | closeAfterExchange

/-- What a call returns; only `receive_head` returns a head. -/
abbrev CallResult := Except Error (Option (ValidatedResponseHead × HeadAction))

def StatusCode.isInterim (s : StatusCode) : Bool := s.isInformational && s ≠ .switchingProtocols

namespace ExchangePolicy

/-- The calls of a driver. The writer never passes an interim head to `sent_response`. -/
def calls : Machine ExchangePolicy ExchangeCall CallResult where
  step p
    | .receiveHead head =>
      let (p, r) := p.receiveHead head
      some (p, r.map some)
    | .sentResponse head =>
      if head.head.status.isInterim then none
      else
        let (p, r) := p.sentResponse head
        some (p, r.map fun _ => none)
    | .sentFinal persistence =>
      let (p, r) := p.sentFinal persistence
      some (p, r.map fun _ => none)
    | .closeAfterExchange => some (p.closeAfterExchange, .ok none)

end ExchangePolicy

inductive SeenHead
  | interim
  | final (persistence : Persistence)
  | upgrade (kind : UpgradeKind) (headers : Headers)
deriving DecidableEq

def SeenHead.of (head : ValidatedResponseHead) : SeenHead :=
  match head.upgrade with
  | some kind => .upgrade kind head.head.headers
  | none => if head.head.status.isInterim then .interim else .final head.persistence

def seenHead : ExchangeCall × CallResult → Option SeenHead
  | (.receiveHead _, .ok (some (head, _))) => some (.of head)
  | (.sentResponse head, .ok _) => some (.of head)
  | (.sentFinal persistence, .ok _) => some (.final persistence)
  | _ => none

def seenHeads (trace : List (ExchangeCall × CallResult)) : List SeenHead := trace.filterMap seenHead

def SelectsOffered (offered selected : List HeaderValue) : Prop :=
  upgradeMembers selected ≠ [] ∧ ∀ m ∈ upgradeMembers selected,
    ∃ o ∈ upgradeMembers offered, lowercase o = lowercase m

theorem selectsOffered_of_match {offered : List HeaderValue} {selected : Headers}
    (h : upgradeProtocolsMatch offered selected = true) :
    SelectsOffered offered (selected.getAll .upgrade) := by
  simp only [upgradeProtocolsMatch, Bool.and_eq_true, Bool.not_eq_true', List.isEmpty_eq_false_iff,
    List.all_eq_true, List.any_eq_true, eqIgnoreAsciiCase, beq_iff_eq] at h
  exact ⟨h.1, fun m hm => (h.2 m hm).2⟩

theorem ResponseHead.validate_ok {head : ResponseHead} {method : Method}
    {v : ValidatedResponseHead} (h : head.validate method = .ok v) :
    v.head = head ∧
      (v.upgrade = none → head.status.isInformational = head.status.isInterim) := by
  obtain ⟨-, connection, upgrade, body, -, hu, -, rfl⟩ := validate_eq_ok.mp h
  refine ⟨rfl, ?_⟩
  rintro rfl
  have h101 : head.status ≠ .switchingProtocols := by
    intro hs
    simp only [upgradeOf, hs, if_true] at hu
    split_ifs at hu
    split at hu <;> cases hu
  simp [StatusCode.isInterim, h101]

namespace ExchangePolicy

variable {p p' : ExchangePolicy}

def Takes (p p' : ExchangePolicy) : SeenHead → Prop
  | .interim => p' = { p with informational := p.informational + 1 } ∧
      p.informational ≠ p.maxInformational
  | .final persistence => p' = p.toFinal persistence
  | .upgrade kind headers => p' = { p with phase := .upgrade kind } ∧
      p.admitsUpgrade kind headers = true

theorem sentFinal_spec (p : ExchangePolicy) (persistence : Persistence) :
    match p.sentFinal persistence with
    | (p', .error _) => p' = p
    | (p', .ok _) => p.phase = .awaitingHead ∧ Takes p p' (.final persistence) := by
  unfold sentFinal
  by_cases hp : p.phase = .awaitingHead
  · rw [if_neg (by simpa using hp)]
    exact ⟨hp, rfl⟩
  · rw [if_pos hp]

theorem sentResponse_spec (p : ExchangePolicy) (head : ValidatedResponseHead)
    (hi : head.head.status.isInterim = false) :
    match p.sentResponse head with
    | (p', .error _) => p' = p
    | (p', .ok _) => p.phase = .awaitingHead ∧ Takes p p' (.of head) := by
  unfold sentResponse SeenHead.of
  cases hu : head.upgrade with
  | none => simpa [hi] using sentFinal_spec p head.persistence
  | some kind =>
    dsimp only
    by_cases hp : p.phase = .awaitingHead ∧ p.admitsUpgrade kind head.head.headers
    · rw [if_pos hp]
      exact ⟨hp.1, rfl, hp.2⟩
    · rw [if_neg hp]

theorem receiveHead_spec (p : ExchangePolicy) (head : ResponseHead) :
    match p.receiveHead head with
    | (p', .error _) => p' = p
    | (p', .ok (v, _)) => p.phase = .awaitingHead ∧ Takes p p' (.of v) := by
  unfold receiveHead
  by_cases hp : p.phase = .awaitingHead
  swap
  · rw [if_pos hp]
  rw [if_neg (by simpa using hp)]
  rcases hv : head.validate p.method with e | v
  · rfl
  obtain ⟨rfl, hinterim⟩ := ResponseHead.validate_ok hv
  cases hu : v.upgrade with
  | some kind =>
    have hof : SeenHead.of v = .upgrade kind v.head.headers := by simp [SeenHead.of, hu]
    by_cases ha : p.admitsUpgrade kind v.head.headers = true
    · simp only [hu, if_pos ha, hof]
      exact ⟨hp, rfl, ha⟩
    · simp only [hu, if_neg ha]
  | none =>
    have hst := hinterim hu
    by_cases hi : v.head.status.isInterim = true
    · have hof : SeenHead.of v = .interim := by simp [SeenHead.of, hu, hi]
      by_cases hm : p.informational = p.maxInformational
      · simp only [hu, hst, if_pos hi, if_pos hm]
      · simp only [hu, hst, if_pos hi, if_neg hm, hof]
        exact ⟨hp, rfl, hm⟩
    · have hof : SeenHead.of v = .final v.persistence := by simp [SeenHead.of, hu, hi]
      simp only [hu, hst, if_neg hi, hof]
      exact ⟨hp, rfl⟩

/-- Every permitted call asks not to reuse the connection, or fails and changes nothing, or
accepts one head while the exchange awaits one. -/
theorem step_cases {i : ExchangeCall} {o : CallResult} (h : calls.step p i = some (p', o)) :
    (i = .closeAfterExchange ∧ seenHead (i, o) = none ∧ p' = p.closeAfterExchange) ∨
    (i ≠ .closeAfterExchange ∧ seenHead (i, o) = none ∧ p' = p) ∨
    (i ≠ .closeAfterExchange ∧ (∀ e, o ≠ .error e) ∧ p.phase = .awaitingHead ∧
      ∃ seen, seenHead (i, o) = some seen ∧ Takes p p' seen) := by
  cases i with
  | closeAfterExchange =>
    simp only [calls, Option.some.injEq, Prod.mk.injEq] at h
    obtain ⟨rfl, rfl⟩ := h
    exact .inl ⟨rfl, rfl, rfl⟩
  | receiveHead head =>
    have hspec := receiveHead_spec p head
    rcases hr : p.receiveHead head with ⟨q, e | ⟨v, action⟩⟩
    · simp only [calls, hr, Option.some.injEq, Prod.mk.injEq] at h hspec
      obtain ⟨rfl, rfl⟩ := h
      exact .inr (.inl ⟨by simp, rfl, hspec⟩)
    · simp only [calls, hr, Option.some.injEq, Prod.mk.injEq] at h hspec
      obtain ⟨rfl, rfl⟩ := h
      exact .inr (.inr ⟨by simp, by simp [Except.map], hspec.1, _, rfl, hspec.2⟩)
  | sentResponse head =>
    by_cases hi : head.head.status.isInterim = true
    · simp [calls, hi] at h
    have hspec := sentResponse_spec p head (by simpa using hi)
    rcases hr : p.sentResponse head with ⟨q, e | u⟩
    · simp only [calls, hi, hr, Bool.false_eq_true, if_false, Option.some.injEq,
        Prod.mk.injEq] at h hspec
      obtain ⟨rfl, rfl⟩ := h
      exact .inr (.inl ⟨by simp, rfl, hspec⟩)
    · simp only [calls, hi, hr, Bool.false_eq_true, if_false, Option.some.injEq,
        Prod.mk.injEq] at h hspec
      obtain ⟨rfl, rfl⟩ := h
      exact .inr (.inr ⟨by simp, by simp [Except.map], hspec.1, _, rfl, hspec.2⟩)
  | sentFinal persistence =>
    have hspec := sentFinal_spec p persistence
    rcases hr : p.sentFinal persistence with ⟨q, e | u⟩
    · simp only [calls, hr, Option.some.injEq, Prod.mk.injEq] at h hspec
      obtain ⟨rfl, rfl⟩ := h
      exact .inr (.inl ⟨by simp, rfl, hspec⟩)
    · simp only [calls, hr, Option.some.injEq, Prod.mk.injEq] at h hspec
      obtain ⟨rfl, rfl⟩ := h
      exact .inr (.inr ⟨by simp, by simp [Except.map], hspec.1, _, rfl, hspec.2⟩)

def PhaseOf (p : ExchangePolicy) (seen : List SeenHead) : ResponsePhase → Prop
  | .awaitingHead => ∀ s ∈ seen, s = .interim
  | .final => ∃ before persistence, seen = before ++ [.final persistence] ∧
      (∀ s ∈ before, s = .interim) ∧ (p.persistence = .reusable → persistence = .reusable)
  | .upgrade kind => ∃ before headers, seen = before ++ [.upgrade kind headers] ∧
      (∀ s ∈ before, s = .interim) ∧ p.admitsUpgrade kind headers = true

/-- The policy agrees with its request and with the calls made on it. -/
structure Accounts {x : Crates} (request : ValidatedRequestHead x) (max : ℕ)
    (tr : List (ExchangeCall × CallResult)) (p : ExchangePolicy) : Prop where
  upgrade : p.upgrade = request.upgrade
  offered : p.offeredProtocols = (new request max).offeredProtocols
  max_eq : p.maxInformational = max
  count : p.informational = (seenHeads tr).count .interim
  count_le : p.informational ≤ max
  phase : p.PhaseOf (seenHeads tr) p.phase
  reusable : p.persistence = .reusable →
    request.persistence = .reusable ∧ ∀ e ∈ tr, e.1 ≠ .closeAfterExchange

variable {x : Crates} {request : ValidatedRequestHead x} {max : ℕ}

theorem accounts_new : Accounts request max [] (new request max) where
  upgrade := rfl
  offered := rfl
  max_eq := rfl
  count := rfl
  count_le := Nat.zero_le _
  phase := by simp [new, PhaseOf, seenHeads]
  reusable h := ⟨h, by simp⟩

theorem seenHeads_append (tr : List (ExchangeCall × CallResult)) (e : ExchangeCall × CallResult) :
    seenHeads (tr ++ [e]) = seenHeads tr ++ (seenHead e).toList := by
  cases h : seenHead e <;> simp [seenHeads, h]

theorem Accounts.takes {tr : List (ExchangeCall × CallResult)} (h : Accounts request max tr p)
    (hp : p.phase = .awaitingHead) {e : ExchangeCall × CallResult} {seen : SeenHead}
    (hseen : seenHead e = some seen) (hi : e.1 ≠ .closeAfterExchange) (ht : Takes p p' seen) :
    Accounts request max (tr ++ [e]) p' := by
  obtain ⟨hu, ho, hm, hc, hle, hphase, hr⟩ := h
  rw [hp] at hphase
  have hcalls (hper : p.persistence = .reusable) :
      request.persistence = .reusable ∧ ∀ a ∈ tr ++ [e], a.1 ≠ .closeAfterExchange := by
    refine ⟨(hr hper).1, fun a ha => ?_⟩
    rcases List.mem_append.mp ha with ha | ha
    · exact (hr hper).2 a ha
    · rwa [List.mem_singleton.mp ha]
  have hheads : seenHeads (tr ++ [e]) = seenHeads tr ++ [seen] := by
    rw [seenHeads_append, hseen]
    rfl
  cases seen with
  | interim =>
    obtain ⟨rfl, hne⟩ := ht
    refine ⟨hu, ho, hm, ?_, ?_, ?_, hcalls⟩
    · simp [hheads, hc]
    · simp only
      omega
    · simp only [hp, PhaseOf, hheads, List.mem_append, List.mem_singleton]
      rintro s (hs | hs)
      · exact hphase s hs
      · exact hs
  | final persistence =>
    obtain rfl := ht
    refine ⟨hu, ho, hm, ?_, hle, ?_, fun hper => hcalls ?_⟩
    · simp [hheads, hc, toFinal]
    · refine ⟨seenHeads tr, persistence, hheads, hphase, fun hper => ?_⟩
      cases persistence
      · rfl
      · simp [toFinal] at hper
    · simp only [toFinal] at hper
      split_ifs at hper
      exact hper
  | upgrade kind headers =>
    obtain ⟨rfl, ha⟩ := ht
    exact ⟨hu, ho, hm, by simp [hheads, hc], hle, ⟨seenHeads tr, headers, hheads, hphase, ha⟩, hcalls⟩

theorem Accounts.step {tr : List (ExchangeCall × CallResult)} (h : Accounts request max tr p)
    {i : ExchangeCall} {o : CallResult} (hs : calls.step p i = some (p', o)) :
    Accounts request max (tr ++ [(i, o)]) p' := by
  rcases step_cases hs with ⟨rfl, hnone, rfl⟩ | ⟨hi, hnone, rfl⟩ | ⟨hi, -, hp, seen, hseen, ht⟩
  · have hheads : seenHeads (tr ++ [(.closeAfterExchange, o)]) = seenHeads tr := by
      simp [seenHeads_append, hnone]
    obtain ⟨hu, ho, hm, hc, hle, hphase, -⟩ := h
    refine ⟨hu, ho, hm, by rwa [hheads], hle, ?_, fun hper => by simp [closeAfterExchange] at hper⟩
    rw [hheads]
    -- The phase is kept; closing only strengthens what a final head says about reuse.
    cases hph : p.phase with
    | awaitingHead => simpa [closeAfterExchange, hph, PhaseOf] using hphase
    | upgrade kind => simpa [closeAfterExchange, hph, PhaseOf, admitsUpgrade] using hphase
    | final =>
      rw [hph] at hphase
      obtain ⟨before, persistence, h1, h2, -⟩ := hphase
      simp only [closeAfterExchange, hph]
      exact ⟨before, persistence, h1, h2, fun hper => by simp at hper⟩
  · have hheads : seenHeads (tr ++ [(i, o)]) = seenHeads tr := by
      simp [seenHeads_append, hnone]
    obtain ⟨hu, ho, hm, hc, hle, hphase, hr⟩ := h
    refine ⟨hu, ho, hm, by rwa [hheads], hle, by rwa [hheads], fun hper => ⟨(hr hper).1, ?_⟩⟩
    intro a ha
    rcases List.mem_append.mp ha with ha | ha
    · exact (hr hper).2 a ha
    · rwa [List.mem_singleton.mp ha]
  · exact h.takes hp hseen hi ht

theorem accounts_of_reaches {tr : List (ExchangeCall × CallResult)}
    (h : calls.Reaches (new request max) tr p) : Accounts request max tr p :=
  h.invariant accounts_new fun _ _ _ _ _ hp hs => hp.step hs

theorem finish_reusable {ends endr : ActivityEnd} (h : p.finish ends endr = .ok .reusable) :
    ends = .complete ∧ endr = .complete ∧ p.phase = .final ∧ p.persistence = .reusable := by
  unfold finish at h
  cases ends <;> cases endr <;> simp at h
  cases hp : p.phase <;> cases hr : p.persistence <;> simp [hp, hr] at h ⊢

theorem finish_handoff {ends endr : ActivityEnd} {kind : UpgradeKind}
    (h : p.finish ends endr = .ok (.handoff kind)) :
    ends = .complete ∧ endr = .complete ∧ p.phase = .upgrade kind := by
  unfold finish at h
  cases ends <;> cases endr <;> simp at h
  cases hp : p.phase <;> cases hr : p.persistence <;> simp [hp, hr] at h ⊢ <;> exact h

theorem PhaseOf.last {seen : List SeenHead} {phase : ResponsePhase} (h : p.PhaseOf seen phase)
    {before after : List SeenHead} {head : SeenHead} (hs : seen = before ++ head :: after)
    (hne : head ≠ .interim) : after = [] := by
  have hlast (init : List SeenHead) (l : SeenHead) (hi : ∀ s ∈ init, s = .interim)
      (he : init ++ [l] = before ++ head :: after) : after = [] := by
    by_contra hafter
    obtain ⟨rest, r, rfl⟩ := (List.eq_nil_or_concat after).resolve_left hafter
    rw [List.concat_eq_append, ← List.cons_append, ← List.append_assoc] at he
    have hin := (List.append_inj' he rfl).1
    exact hne (hi head (by simp [hin]))
  cases phase with
  | awaitingHead => exact absurd (h head (by simp [hs])) hne
  | final =>
    obtain ⟨init, persistence, he, hi, -⟩ := h
    exact hlast init _ hi (he.symm.trans hs)
  | upgrade kind =>
    obtain ⟨init, headers, he, hi, -⟩ := h
    exact hlast init _ hi (he.symm.trans hs)

theorem unchanged_of_error {i : ExchangeCall} {e : Error}
    (h : calls.step p i = some (p', .error e)) : p' = p := by
  rcases step_cases h with ⟨rfl, -, -⟩ | ⟨-, -, hp⟩ | ⟨-, hok, -⟩
  · simp [calls] at h
  · exact hp
  · exact absurd rfl (hok e)

/-- Reuse and hand-off after any sequence of calls, and what any sequence can have accepted. -/
theorem finish_sound {x : Crates} (request : ValidatedRequestHead x) (max : ℕ)
    (tr : List (ExchangeCall × CallResult)) (p : ExchangePolicy)
    (h : calls.Reaches (new request max) tr p) :
    (∀ ends endr, p.finish ends endr = .ok .reusable →
      ends = .complete ∧ endr = .complete ∧
      (seenHeads tr).filter (· ≠ .interim) = [.final .reusable] ∧
      request.persistence = .reusable ∧ ∀ e ∈ tr, e.1 ≠ .closeAfterExchange) ∧
    (∀ ends endr kind, p.finish ends endr = .ok (.handoff kind) →
      ends = .complete ∧ endr = .complete ∧ request.upgrade = some kind ∧
      (kind = .protocol → ∃ headers, .upgrade .protocol headers ∈ seenHeads tr ∧
        SelectsOffered (request.head.headers.getAll .upgrade) (headers.getAll .upgrade))) ∧
    (seenHeads tr).count .interim ≤ max ∧
    (∀ before head after, seenHeads tr = before ++ head :: after → head ≠ .interim → after = []) ∧
    ∀ i p' e, calls.step p i = some (p', .error e) → p' = p := by
  obtain ⟨hu, ho, hm, hc, hle, hphase, hr⟩ := accounts_of_reaches h
  refine ⟨?_, ?_, by omega, fun before head after hs => hphase.last hs,
    fun i p' e he => unchanged_of_error he⟩
  · intro ends endr hf
    obtain ⟨h1, h2, h3, h4⟩ := finish_reusable hf
    rw [h3] at hphase
    obtain ⟨before, persistence, hseen, hinterim, hper⟩ := hphase
    have hnone : before.filter (· ≠ .interim) = [] := by
      simpa using hinterim
    refine ⟨h1, h2, ?_, hr h4⟩
    rw [hseen, List.filter_append, hnone, hper h4]
    rfl
  · intro ends endr kind hf
    obtain ⟨h1, h2, h3⟩ := finish_handoff hf
    rw [h3] at hphase
    obtain ⟨before, headers, hseen, -, hadm⟩ := hphase
    simp only [admitsUpgrade, Bool.and_eq_true, decide_eq_true_eq, Bool.or_eq_true] at hadm
    have hup : request.upgrade = some kind := hu ▸ hadm.1
    refine ⟨h1, h2, hup, ?_⟩
    rintro rfl
    have hmatch := hadm.2.resolve_left (by simp)
    rw [ho, new, if_pos hup] at hmatch
    exact ⟨headers, by simp [hseen], selectsOffered_of_match hmatch⟩

theorem rootTarget_visible :
    (!(ascii "/").isEmpty && (ascii "/").all fun b => 33 ≤ b && b ≤ 126) = true := by decide

theorem sampleHost_visible : (ascii "a").all isFieldByte = true := by decide

theorem earlyHints_three_digits : 100 ≤ 103 ∧ 103 ≤ 999 := by decide

/-- A request for the root, answered by an interim head and a final one. -/
def sampleRequest : ValidatedRequestHead reference where
  head := ⟨.get, ⟨ascii "/", rootTarget_visible⟩, .http11,
    HeaderMap.empty.append .host ⟨ascii "a", sampleHost_visible⟩, none⟩
  body := .none
  persistence := .reusable
  targetForm := .origin
  expectation := .none
  upgrade := none

def sampleHead (code : ℕ) (h : 100 ≤ code ∧ code ≤ 999) : ResponseHead :=
  ⟨.http11, ⟨code, h⟩, HeaderMap.empty.append .contentLength ⟨ascii "0", by decide⟩, none⟩

def sampleCalls : List ExchangeCall :=
  [.receiveHead (sampleHead 103 earlyHints_three_digits),
    .receiveHead (sampleHead 200 StatusCode.ok.three_digits)]

theorem finish_sound_sample :
    ∃ tr p, calls.Reaches (new sampleRequest 1) tr p ∧
      p.finish .complete .complete = .ok .reusable ∧
      (seenHeads tr).filter (· ≠ .interim) = [.final .reusable] := by
  have hrun : ∃ tr p, calls.run (new sampleRequest 1) sampleCalls = some (tr, p) ∧
      p.finish .complete .complete = .ok .reusable := ⟨_, _, rfl, rfl⟩
  obtain ⟨tr, p, hrun, hfinish⟩ := hrun
  have hreach := Machine.reaches_of_run hrun
  obtain ⟨-, -, hfinal, -⟩ :=
    (finish_sound sampleRequest 1 tr p hreach).1 .complete .complete hfinish
  exact ⟨tr, p, hreach, hfinish, hfinal⟩

end ExchangePolicy

end Vakya
