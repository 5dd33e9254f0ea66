import Vakya.Library.Messages
import Vakya.Boundaries
import Vakya.ClientReceive

/-!
# The heads of a response

What `receive` makes of its input is decided by the bytes alone: the heads that it accepts one after
the other, up to the final one. Reads, the application and the other half of the exchange decide
only how far it gets.
-/

namespace Vakya

open Library

variable {x : Crates} {W : Type} {cfg : ClientConfig}

def promise (mode : BodyMode) : Option (SizeHint × TrailerHint) :=
  if h : ∀ n, mode = .fixed n → n < wordSize then incoming mode h else none

namespace ValidatedResponseHead

def isFinal (head : ValidatedResponseHead) : Bool := head.upgrade.isSome || !head.head.status.isInformational

def event (head : ValidatedResponseHead) : ResponseEvent :=
  if head.isFinal then .final head.head (promise head.body) else .informational head.head

/-- Whether the upload need not wait for `Continue` any longer. -/
def permits (head : ValidatedResponseHead) : Bool := head.isFinal || head.head.status.code == 100

@[simp] theorem isFinal_event (head : ValidatedResponseHead) : head.event.isFinal = head.isFinal := by
  unfold event
  split_ifs with h <;> simp [ResponseEvent.isFinal, h]

end ValidatedResponseHead

theorem ResponseHead.fixed_lt {head : ResponseHead} {method : Method} {v : ValidatedResponseHead}
    (h : head.validate method = .ok v) (n : ℕ) (hn : v.body = .fixed n) : n < wordSize := by
  obtain ⟨-, connection, upgrade, body, -, -, hbody, rfl⟩ := ResponseHead.validate_eq_ok.mp h
  obtain rfl : body = .fixed n := hn
  simp only [ResponseHead.bodyOf] at hbody
  split_ifs at hbody
  · cases hbody
  obtain ⟨length, encoding, hlength, hencoding, hboth, hversion, hframing⟩ := messageLength_eq_ok.mp hbody
  -- The length was given, so what holds without one does not matter.
  have hsame : framingOf encoding length .none = .fixed n := by
    rcases encoding with _ | _ <;> rcases length with _ | _ <;> first | exact hframing | cases hframing
  have hnone := messageLength_eq_ok.mpr ⟨length, encoding, hlength, hencoding, hboth, hversion, hsame⟩
  exact ((mode_iff_framing hnone).2.1 n).mp rfl |>.2.2.1

/-- A head that the policy accepted: it kept awaiting one, or this was the last. -/
theorem ExchangePolicy.receiveHead_cases {p p' : ExchangePolicy} {head : ResponseHead}
    {v : ValidatedResponseHead} {action : HeadAction} (h : p.receiveHead head = (p', .ok (v, action))) :
    p.phase = .awaitingHead ∧ v.head = head ∧ (∀ n, v.body = .fixed n → n < wordSize) ∧
      (action = .informational ∧ v.isFinal = false ∧ p'.phase = .awaitingHead ∨
        action ≠ .informational ∧ v.isFinal = true ∧ p'.phase ≠ .awaitingHead) := by
  unfold receiveHead at h
  by_cases hopen : p.phase = .awaitingHead
  swap
  · rw [if_pos hopen] at h
    cases h
  rw [if_neg (by simpa using hopen)] at h
  rcases hv : head.validate p.method with e | v'
  · rw [hv] at h
    cases h
  have hlt := ResponseHead.fixed_lt hv
  have hhead := (ResponseHead.validate_ok hv).1
  simp only [hv] at h
  split at h
  · rename_i kind hupgrade
    split_ifs at h
    · cases h
      exact ⟨hopen, hhead, hlt, .inr ⟨by simp, by simp [ValidatedResponseHead.isFinal, hupgrade], by simp⟩⟩
    · cases h
  · rename_i hupgrade
    split_ifs at h with hinf hmax
    · cases h
    · cases h
      exact ⟨hopen, hhead, hlt, .inl ⟨rfl, by simp [ValidatedResponseHead.isFinal, hupgrade, hinf], hopen⟩⟩
    · cases h
      exact ⟨hopen, hhead, hlt,
        .inr ⟨by simp, by simp [ValidatedResponseHead.isFinal, hinf], by simp [ExchangePolicy.toFinal]⟩⟩

theorem ExchangePolicy.receiveHead_reusable {p p' : ExchangePolicy} {head : ResponseHead} {v : ValidatedResponseHead}
    {action : HeadAction} (h : p.receiveHead head = (p', .ok (v, action))) (hphase : p'.phase = .final)
    (hpersistence : p'.persistence = .reusable) : v.body ≠ .untilEof := by
  have hopen := (receiveHead_cases h).1
  unfold receiveHead at h
  rw [if_neg (by simpa using hopen)] at h
  rcases hv : head.validate p.method with e | v'
  · rw [hv] at h
    cases h
  simp only [hv] at h
  split at h
  · split_ifs at h
    · cases h
      cases hphase
    · cases h
  · split_ifs at h
    · cases h
    · cases h
      rw [show p.phase = .final from hphase] at hopen
      cases hopen
    · cases h
      -- A body that ends with the connection closes it.
      intro heof
      obtain ⟨-, connection, upgrade, body, -, -, -, rfl⟩ := ResponseHead.validate_eq_ok.mp hv
      subst heof
      simp [toFinal] at hpersistence

def HeadScan.Whole (text : Bytes) : Prop := scanFrom 0 .leading text = .complete text.length

theorem HeadScan.Whole.unambiguous {text text' : Bytes} (h : Whole text) (h' : Whole text')
    (hpre : text <+: text') : text = text' := by
  obtain ⟨more, rfl⟩ := hpre
  rw [Whole, scanFrom_append, h] at h'
  simp only [resume, HeadScan.complete.injEq, List.length_append] at h'
  have hnil : more = [] := List.eq_nil_of_length_eq_zero (by omega)
  rw [hnil, List.append_nil]

theorem HeadScan.whole_take {input : Bytes} {length : ℕ} (h : scanFrom 0 .leading input = .complete length) :
    length ≤ input.length ∧ Whole (input.take length) := by
  have hle : length ≤ input.length := by simpa using (length_of_scanFrom h).2
  refine ⟨hle, ?_⟩
  have hsplit := scanFrom_append 0 .leading (input.take length) (input.drop length)
  rw [List.take_append_drop, h] at hsplit
  have hlen : (input.take length).length = length := by simp [hle]
  unfold Whole
  cases hs : scanFrom 0 .leading (input.take length) with
  | complete found =>
    rw [hs] at hsplit
    simp only [resume, HeadScan.complete.injEq] at hsplit
    rw [hlen, hsplit]
  | scanning scanned line =>
    -- A scan that goes on ends behind what it has seen.
    rw [hs] at hsplit
    have hseen : scanned = 0 + (input.take length).length := scanned_of_scanFrom hs
    have hbeyond := (length_of_scanFrom hsplit.symm).1
    omega

def responseHeads (x : Crates) (cfg : ClientConfig) : MessageReader ExchangePolicy UInt8 ValidatedResponseHead where
  whole := HeadScan.Whole
  accept p text :=
    match (cfg.settings.parser.parseSharedResponse x text).2 with
    | .error _ => none
    | .ok head =>
      match p.receiveHead head with
      | (p, .ok (head, _)) => some (head, p)
      | (_, .error _) => none
  unambiguous := fun _ _ => HeadScan.Whole.unambiguous

/-- `Heard x cfg p text heads p'`: in `text` a policy `p` hears exactly the heads `heads`, one
behind the other. -/
abbrev Heard (x : Crates) (cfg : ClientConfig) : ExchangePolicy → Bytes → List ValidatedResponseHead →
    ExchangePolicy → Prop :=
  (responseHeads x cfg).Reads

namespace Heard

variable {p p' : ExchangePolicy} {text : Bytes} {heads : List ValidatedResponseHead}

theorem accept_cases {p p' : ExchangePolicy} {text : Bytes} {v : ValidatedResponseHead}
    (h : (responseHeads x cfg).accept p text = some (v, p')) :
    ∃ head action, (cfg.settings.parser.parseSharedResponse x text).2 = .ok head ∧
      p.receiveHead head = (p', .ok (v, action)) := by
  simp only [responseHeads] at h
  split at h
  · cases h
  · rename_i head hparse
    split at h
    · rename_i q v' action hreceive
      cases h
      exact ⟨head, action, hparse, hreceive⟩
    · cases h

theorem accept_eq {p p' : ExchangePolicy} {text : Bytes} {head : ResponseHead} {v : ValidatedResponseHead}
    {action : HeadAction} (hparse : (cfg.settings.parser.parseSharedResponse x text).2 = .ok head)
    (hreceive : p.receiveHead head = (p', .ok (v, action))) :
    (responseHeads x cfg).accept p text = some (v, p') := by
  simp only [responseHeads, hparse, hreceive]

theorem closed (h : Heard x cfg p text heads p') (hphase : p.phase ≠ .awaitingHead) :
    text = [] ∧ heads = [] ∧ p' = p := by
  cases h with
  | nothing => exact ⟨rfl, rfl, rfl⟩
  | message hwhole haccept hrest =>
    obtain ⟨head, action, -, hreceive⟩ := accept_cases haccept
    exact absurd (ExchangePolicy.receiveHead_cases hreceive).1 hphase

/-- While a final head is awaited every head was informational, and otherwise exactly the last one
was final. -/
theorem finals (h : Heard x cfg p text heads p') (hphase : p.phase = .awaitingHead) :
    (p'.phase = .awaitingHead ∧ ∀ head ∈ heads, head.isFinal = false) ∨
      p'.phase ≠ .awaitingHead ∧ ∃ before final, heads = before ++ [final] ∧ final.isFinal = true ∧
        ∀ head ∈ before, head.isFinal = false := by
  induction h with
  | nothing => exact .inl ⟨hphase, by simp⟩
  | @message p p₁ p' text rest v heads hwhole haccept hrest ih =>
    obtain ⟨head, action, -, hreceive⟩ := accept_cases haccept
    obtain ⟨-, -, -, ⟨-, hinf, hopen⟩ | ⟨-, hfinal, hclosed⟩⟩ := ExchangePolicy.receiveHead_cases hreceive
    · rcases ih hopen with ⟨hawait, hall⟩ | ⟨hdone, before, final, rfl, hlast, hbefore⟩
      · exact .inl ⟨hawait, by simpa [hinf] using hall⟩
      · exact .inr ⟨hdone, v :: before, final, rfl, hlast, by simpa [hinf] using hbefore⟩
    · obtain ⟨-, rfl, rfl⟩ := closed hrest hclosed
      exact .inr ⟨hclosed, [], v, rfl, hfinal, by simp⟩

theorem reusable (h : Heard x cfg p text heads p') (hphase : p'.phase = .final)
    (hpersistence : p'.persistence = .reusable) {before : List ValidatedResponseHead} {final : ValidatedResponseHead}
    (hheads : heads = before ++ [final]) (hfinal : final.isFinal = true) : final.body ≠ .untilEof := by
  induction h generalizing before with
  | nothing => simp at hheads
  | @message p p₁ p' text rest v heads hwhole haccept hrest ih =>
    obtain ⟨head, action, -, hreceive⟩ := accept_cases haccept
    cases before with
    | nil =>
      obtain ⟨rfl, rfl⟩ := List.cons.inj hheads
      rcases (ExchangePolicy.receiveHead_cases hreceive).2.2.2 with ⟨-, hinf, -⟩ | ⟨-, -, hclosed⟩
      · rw [hinf] at hfinal
        cases hfinal
      · obtain ⟨-, -, rfl⟩ := closed hrest hclosed
        exact ExchangePolicy.receiveHead_reusable hreceive hphase hpersistence
    | cons first before =>
      obtain ⟨-, hheads⟩ := List.cons.inj hheads
      exact ih hphase hpersistence hheads

theorem fixed_lt (h : Heard x cfg p text heads p') {head : ValidatedResponseHead} (hmem : head ∈ heads) (n : ℕ)
    (hn : head.body = .fixed n) : n < wordSize := by
  induction h with
  | nothing => cases hmem
  | message hwhole haccept hrest ih =>
    obtain ⟨raw, action, -, hreceive⟩ := accept_cases haccept
    rcases List.mem_cons.mp hmem with rfl | hmem
    · exact (ExchangePolicy.receiveHead_cases hreceive).2.2.1 n hn
    · exact ih hmem

end Heard

end Vakya
