import Vakya.Reference
import Vakya.RoundTrip
import Vakya.Upload

/-!
# Runs of an upload

What was written of a request at any moment is a part of it, the body comes behind the whole head and
after the wait for permission, and an upload that was canceled submits nothing more.
-/

namespace Vakya

open Library

theorem two_lt_wordSize : 2 < wordSize := by decide

namespace Upload

variable {x : Crates} {D V W E : Type} {cfg : UploadConfig D V W} {request : RequestUpload x}
  {tr : List (UploadEvent D E × UploadOutput D E)} {s s' : Upload D V W E} {i : UploadEvent D E}
  {o : UploadOutput D E}

theorem afterHead_phase (cfg : UploadConfig D V W) (s : Upload D V W E) (loop : WriteLoop Bytes W) :
    (s.afterHead cfg loop).phase ≠ .returned (.ok ()) := by
  unfold afterHead beginBody
  split
  · intro h
    cases h
  · split_ifs
    · intro h
      cases h
    · intro h
      cases h
    · intro h
      cases h
  · intro h
    cases h

theorem afterBody_phase (cfg : UploadConfig D V W) (s : Upload D V W E) (sender : Sender D V W E) :
    (s.afterBody cfg sender).phase ≠ .returned (.ok ()) := by
  unfold afterBody
  split
  · intro h
    cases h
  · intro h
    cases h
  · intro h
    cases h

theorem cancel_phase (s : Upload D V W E) : s.cancel.phase = .returned (.ok ()) ↔ s.phase = .returned (.ok ()) := by
  unfold cancel
  cases s.phase <;> simp

theorem uploaded_of_step (hs : s.step x cfg i = some (s', o)) :
    s'.phase = .returned (.ok ()) ↔ s.phase = .returned (.ok ()) ∨ o.uploaded = true := by
  cases i with
  | wait p =>
    simp only [step, wait] at hs
    split at hs
    · rename_i begun hphase
      split_ifs at hs
      · cases hs
        simp [hphase, returns, UploadOutput.quiet]
      · cases hs
        simp [hphase, returns, UploadOutput.quiet]
      · cases hs
        unfold beginBody
        split_ifs <;> simp [hphase, UploadOutput.quiet]
      · cases hs
        simp [hphase, UploadOutput.quiet]
    · cases hs
  | send event =>
    have hadvance {j : WriteEvent} (hs : s.advance cfg j = some (s', o)) :
        s'.phase = .returned (.ok ()) ↔ s.phase = .returned (.ok ()) ∨ o.uploaded = true := by
      unfold advance at hs
      split at hs
      · rename_i loop hphase
        obtain ⟨r, -, heq⟩ := Option.map_eq_some_iff.mp hs
        cases heq
        simp [hphase, afterHead_phase]
      · rename_i sender hphase
        obtain ⟨r, -, heq⟩ := Option.map_eq_some_iff.mp hs
        cases heq
        simp [hphase, afterBody_phase]
      · cases hs
    cases event with
    | cancel =>
      cases hs
      simp [cancel_phase, UploadOutput.quiet]
    | poll next =>
      simp only [step, poll] at hs
      split at hs
      · rename_i sender hphase
        obtain ⟨r, -, heq⟩ := Option.map_eq_some_iff.mp hs
        cases heq
        simp [hphase, afterBody_phase]
      · cases hs
    | flushed result =>
      simp only [step, flushed] at hs
      split at hs
      · rename_i hphase
        split at hs
        · cases hs
          simp [hphase, returns, UploadOutput.quiet]
        · cases hs
          simp [hphase, UploadOutput.quiet]
      · rename_i hphase
        split at hs
        · cases hs
          simp [hphase, returns, UploadOutput.quiet]
        · cases hs
          simp [returns]
      · rename_i sender hphase
        obtain ⟨r, -, heq⟩ := Option.map_eq_some_iff.mp hs
        cases heq
        simp [hphase, afterBody_phase]
      · cases hs
    | resume => exact hadvance hs
    | completed result => exact hadvance hs

/-- What was prepared of the request stays as it is. -/
structure Same (s s' : Upload D V W E) : Prop where
  mode : s'.mode = s.mode
  expectation : s'.expectation = s.expectation

theorem same_beginBody (s : Upload D V W E) : Same s s.beginBody := by
  unfold beginBody
  split_ifs
  · exact ⟨rfl, rfl⟩
  · exact ⟨rfl, rfl⟩

theorem same_afterHead (cfg : UploadConfig D V W) (s : Upload D V W E) (loop : WriteLoop Bytes W) :
    Same s (s.afterHead cfg loop) := by
  unfold afterHead
  split
  · exact ⟨rfl, rfl⟩
  · split_ifs
    · exact ⟨rfl, rfl⟩
    · exact same_beginBody s
  · exact ⟨rfl, rfl⟩

theorem same_afterBody (cfg : UploadConfig D V W) (s : Upload D V W E) (sender : Sender D V W E) :
    Same s (s.afterBody cfg sender) := by
  unfold afterBody
  split
  · exact ⟨rfl, rfl⟩
  · exact ⟨rfl, rfl⟩
  · exact ⟨rfl, rfl⟩

theorem same_step (hs : s.step x cfg i = some (s', o)) : Same s s' := by
  have hadvance {j : WriteEvent} (hs : s.advance cfg j = some (s', o)) : Same s s' := by
    unfold advance at hs
    split at hs
    · obtain ⟨r, -, heq⟩ := Option.map_eq_some_iff.mp hs
      cases heq
      exact same_afterHead ..
    · obtain ⟨r, -, heq⟩ := Option.map_eq_some_iff.mp hs
      cases heq
      exact same_afterBody ..
    · cases hs
  cases i with
  | wait p =>
    simp only [step, wait] at hs
    split at hs
    · split_ifs at hs
      · cases hs
        exact ⟨rfl, rfl⟩
      · cases hs
        exact ⟨rfl, rfl⟩
      · cases hs
        exact same_beginBody s
      · cases hs
        exact ⟨rfl, rfl⟩
    · cases hs
  | send event =>
    cases event with
    | cancel =>
      cases hs
      exact ⟨rfl, rfl⟩
    | poll next =>
      simp only [step, poll] at hs
      split at hs
      · obtain ⟨r, -, heq⟩ := Option.map_eq_some_iff.mp hs
        cases heq
        exact same_afterBody ..
      · cases hs
    | flushed result =>
      simp only [step, flushed] at hs
      split at hs
      · split at hs
        · cases hs
          exact ⟨rfl, rfl⟩
        · cases hs
          exact ⟨rfl, rfl⟩
      · split at hs
        · cases hs
          exact ⟨rfl, rfl⟩
        · cases hs
          exact ⟨rfl, rfl⟩
      · obtain ⟨r, -, heq⟩ := Option.map_eq_some_iff.mp hs
        cases heq
        exact same_afterBody ..
      · cases hs
    | resume => exact hadvance hs
    | completed result => exact hadvance hs

theorem inv_start (cfg : UploadConfig D V W) (request : RequestUpload x) (token : Bool) :
    Inv cfg request [] (start cfg request token : Upload D V W E) where
  mode := rfl
  expectation := rfl
  stage := ⟨rfl, [], rfl, .start cfg.buffers.single .scalar request.plan.bytes (some token)⟩
  uploaded := by simp [start]

theorem Inv.step (hk : cfg.buffers.Lawful) (h : Inv cfg request tr s) (hs : s.step x cfg i = some (s', o)) :
    Inv cfg request (tr ++ [(i, o)]) s' := by
  obtain ⟨hmode, hexpectation⟩ := same_step hs
  refine ⟨hmode.trans h.mode, hexpectation.trans h.expectation, stage_step hk h.stage hs, ?_⟩
  rw [uploaded_of_step hs, ← h.uploaded]
  simp [or_and_right, exists_or]

theorem inv_of_reaches (hk : cfg.buffers.Lawful) {token : Bool}
    (hrun : (upload E x cfg).Reaches (start cfg request token) tr s) : Inv cfg request tr s := by
  apply hrun.invariant (inv_start cfg request token)
  intro tr s i s' o h hs
  exact h.step hk hs

end Upload

theorem WriteLoop.step_going {B V : Type} {k : Buffers B V} {s s' : WriteLoop B V} {i : WriteEvent} {o : WriteOutput}
    (hs : s.step k i = some (s', o)) :
    (i ≠ .cancel → s'.token = s.token) ∧ ∀ bytes, o = .submit bytes → s.token ≠ some true := by
  refine ⟨fun hi => WriteLoop.step_token hs hi, ?_⟩
  rintro bytes rfl
  cases i with
  | cancel => cases hs
  | resume =>
    simp only [WriteLoop.step, WriteLoop.resume] at hs
    split at hs
    · split_ifs at hs with hlt htoken
      · cases hs
      · exact htoken
      · cases hs
    · cases hs
  | completed result =>
    simp only [WriteLoop.step, WriteLoop.completed] at hs
    split at hs
    · split at hs
      · cases hs
      · cases hs
    · cases hs

namespace Sender

variable {x : Crates} {D V W E : Type} {k : SendBuffers D V W} {s s' : Sender D V W E}

def Shared (s : Sender D V W E) : Prop :=
  match s.phase with
  | .framed loop => loop.token = s.token
  | .trailers loop | .finishing loop => loop.token = s.token
  | _ => True

def Keeps (s s' : Sender D V W E) : Prop := s'.Shared ∧ s'.token = s.token

theorem keeps_afterData {loop : WriteLoop (Bytes × D × Bytes) V} (h : loop.token = s.token) (o : SendOutput D E) :
    Keeps s (s.afterData loop o).1 := by
  unfold afterData
  split
  · split
    · exact ⟨trivial, rfl⟩
    · exact ⟨trivial, rfl⟩
  · exact ⟨h, rfl⟩

theorem keeps_afterTrailers {loop : WriteLoop Bytes W} (h : loop.token = s.token) (o : SendOutput D E) :
    Keeps s (s.afterTrailers loop o).1 := by
  unfold afterTrailers
  split
  · exact ⟨trivial, rfl⟩
  · exact ⟨trivial, rfl⟩
  · exact ⟨h, rfl⟩

theorem keeps_afterFinish {loop : WriteLoop Bytes W} (h : loop.token = s.token) (o : SendOutput D E) :
    Keeps s (s.afterFinish loop o).1 := by
  unfold afterFinish
  split
  · exact ⟨trivial, rfl⟩
  · exact ⟨trivial, rfl⟩
  · exact ⟨h, rfl⟩

theorem keeps_take (x : Crates) (k : SendBuffers D V W) (s : Sender D V W E) (next : Produced D E) :
    Keeps s (s.take x k next).1 := by
  unfold Sender.take
  split
  · exact ⟨trivial, rfl⟩
  · dsimp only
    split
    · exact ⟨trivial, rfl⟩
    · exact keeps_afterData (s := { s with encoder := _ }) rfl _
  · dsimp only
    split
    · exact ⟨trivial, rfl⟩
    · exact keeps_afterTrailers (s := { s with encoder := _ }) rfl _
  · split_ifs
    · exact ⟨trivial, rfl⟩
    · dsimp only
      split
      · exact ⟨trivial, rfl⟩
      · exact keeps_afterFinish (s := { s with encoder := _ }) rfl _

theorem afterData_write (loop : WriteLoop (Bytes × D × Bytes) V) (o : SendOutput D E) :
    (s.afterData loop o).2.write = o.write ∧ (s.afterData loop o).2.obtained = o.obtained := by
  unfold afterData
  split
  · split
    · exact ⟨rfl, rfl⟩
    · exact ⟨rfl, rfl⟩
  · exact ⟨rfl, rfl⟩

theorem afterTrailers_write (loop : WriteLoop Bytes W) (o : SendOutput D E) : (s.afterTrailers loop o).2 = o := by
  unfold afterTrailers
  split
  · rfl
  · rfl
  · rfl

theorem afterFinish_write (loop : WriteLoop Bytes W) (o : SendOutput D E) : (s.afterFinish loop o).2 = o := by
  unfold afterFinish
  split
  · rfl
  · rfl
  · rfl

/-- Nothing is asked of the producer, and nothing is submitted. -/
structure Still (o : SendOutput D E) : Prop where
  obtained : o.obtained = []
  write : ∀ bytes, o.write ≠ .submit bytes

theorem still_quiet : Still (SendOutput.quiet : SendOutput D E) := ⟨rfl, fun _ h => by cases h⟩

theorem advance_going {i : WriteEvent} {o : SendOutput D E} (hshared : s.Shared) (hi : i ≠ .cancel)
    (hs : s.advance k i = some (s', o)) : Keeps s s' ∧ (s.token = some true → Still o) := by
  unfold Shared at hshared
  unfold advance at hs
  split at hs
  · rename_i loop hphase
    simp only [hphase] at hshared
    obtain ⟨⟨loop', write⟩, hstep, heq⟩ := Option.map_eq_some_iff.mp hs
    obtain ⟨htoken, hsubmit⟩ := WriteLoop.step_going hstep
    have hwrite := afterData_write (s := s) loop' { (SendOutput.quiet : SendOutput D E) with write }
    have hkeeps := keeps_afterData ((htoken hi).trans hshared) { (SendOutput.quiet : SendOutput D E) with write }
    rw [Prod.mk.injEq] at heq
    rw [heq.1] at hkeeps
    rw [heq.2] at hwrite
    refine ⟨hkeeps, fun hcanceled => ⟨hwrite.2, fun bytes hbytes => ?_⟩⟩
    exact hsubmit bytes (hwrite.1.symm.trans hbytes) (hshared.trans hcanceled)
  · rename_i loop hphase
    simp only [hphase] at hshared
    obtain ⟨⟨loop', write⟩, hstep, heq⟩ := Option.map_eq_some_iff.mp hs
    obtain ⟨htoken, hsubmit⟩ := WriteLoop.step_going hstep
    have hwrite := afterTrailers_write (s := s) loop' { (SendOutput.quiet : SendOutput D E) with write }
    have hkeeps := keeps_afterTrailers ((htoken hi).trans hshared) { (SendOutput.quiet : SendOutput D E) with write }
    rw [Prod.mk.injEq] at heq
    rw [heq.1] at hkeeps
    rw [heq.2] at hwrite
    refine ⟨hkeeps, fun hcanceled => ?_⟩
    rw [hwrite]
    exact ⟨rfl, fun bytes hbytes => hsubmit bytes hbytes (hshared.trans hcanceled)⟩
  · rename_i loop hphase
    simp only [hphase] at hshared
    obtain ⟨⟨loop', write⟩, hstep, heq⟩ := Option.map_eq_some_iff.mp hs
    obtain ⟨htoken, hsubmit⟩ := WriteLoop.step_going hstep
    have hwrite := afterFinish_write (s := s) loop' { (SendOutput.quiet : SendOutput D E) with write }
    have hkeeps := keeps_afterFinish ((htoken hi).trans hshared) { (SendOutput.quiet : SendOutput D E) with write }
    rw [Prod.mk.injEq] at heq
    rw [heq.1] at hkeeps
    rw [heq.2] at hwrite
    refine ⟨hkeeps, fun hcanceled => ?_⟩
    rw [hwrite]
    exact ⟨rfl, fun bytes hbytes => hsubmit bytes hbytes (hshared.trans hcanceled)⟩
  · cases hs

theorem shared_cancel (h : s.Shared) : s.cancel.Shared := by
  unfold Shared at h ⊢
  unfold cancel
  cases hphase : s.phase with
  | framed loop | trailers loop | finishing loop =>
    simp only [hphase] at h
    simp only [h]
  | first | flushing | polling yielded | returned result => trivial

/-- A step under a token: once it was canceled, nothing more is asked or submitted. -/
theorem step_going {event : SendEvent D E} {o : SendOutput D E} (hshared : s.Shared) (hevent : event ≠ .cancel)
    (hs : s.step x k event = some (s', o)) : Keeps s s' ∧ (s.token = some true → Still o) := by
  cases event with
  | cancel => exact absurd rfl hevent
  | resume => exact advance_going hshared (by simp) hs
  | completed result => exact advance_going hshared (by simp) hs
  | flushed result =>
    simp only [step, flushed] at hs
    split at hs
    · split at hs
      · cases hs
        exact ⟨⟨trivial, rfl⟩, fun _ => still_quiet⟩
      · cases hs
        exact ⟨⟨trivial, rfl⟩, fun _ => still_quiet⟩
    · cases hs
  | poll next =>
    have htake {next : Produced D E} (hcanceled : s.token ≠ some true) (h : s.take x k next = (s', o)) :
        Keeps s s' ∧ (s.token = some true → Still o) := by
      have hkeeps := keeps_take x k s next
      rw [h] at hkeeps
      exact ⟨hkeeps, fun h => absurd h hcanceled⟩
    simp only [step, poll] at hs
    split at hs
    · by_cases hcanceled : s.token = some true
      · rw [if_pos hcanceled] at hs
        cases hs
        exact ⟨⟨trivial, rfl⟩, fun _ => still_quiet⟩
      · rw [if_neg hcanceled] at hs
        cases next with
        | some next => exact htake hcanceled (Option.some.inj hs)
        | none =>
          cases hs
          refine ⟨⟨?_, rfl⟩, fun _ => still_quiet⟩
          unfold Shared
          dsimp only
          split_ifs <;> trivial
    · cases hs
      exact ⟨⟨trivial, rfl⟩, fun _ => still_quiet⟩
    · split_ifs at hs with hcanceled
      · cases hs
        exact ⟨⟨trivial, rfl⟩, fun _ => still_quiet⟩
      · cases next with
        | some next => exact htake hcanceled (Option.some.inj hs)
        | none =>
          cases hs
          exact ⟨⟨hshared, rfl⟩, fun _ => still_quiet⟩
    · cases hs

end Sender

namespace Upload

variable {x : Crates} {D V W E : Type} {cfg : UploadConfig D V W} {request : RequestUpload x}
  {tr : List (UploadEvent D E × UploadOutput D E)} {s s' : Upload D V W E} {i : UploadEvent D E}
  {o : UploadOutput D E}

def Shared (s : Upload D V W E) : Prop :=
  match s.phase with
  | .head loop => loop.token = some s.token
  | .body sender => sender.token = some s.token ∧ sender.Shared
  | _ => True

def Keeps (s s' : Upload D V W E) : Prop := s'.Shared ∧ s'.token = s.token

theorem keeps_beginBody (s : Upload D V W E) : Keeps s s.beginBody := by
  unfold beginBody
  split_ifs
  · exact ⟨⟨rfl, trivial⟩, rfl⟩
  · exact ⟨trivial, rfl⟩

theorem keeps_afterHead (cfg : UploadConfig D V W) {loop : WriteLoop Bytes W} (h : loop.token = some s.token) :
    Keeps s (s.afterHead cfg loop) := by
  unfold afterHead
  split
  · exact ⟨trivial, rfl⟩
  · split_ifs
    · exact ⟨trivial, rfl⟩
    · exact keeps_beginBody s
  · exact ⟨h, rfl⟩

theorem keeps_afterBody (cfg : UploadConfig D V W) {sender : Sender D V W E} (h : sender.token = some s.token)
    (hshared : sender.Shared) : Keeps s (s.afterBody cfg sender) := by
  unfold afterBody
  split
  · exact ⟨trivial, rfl⟩
  · exact ⟨trivial, rfl⟩
  · exact ⟨⟨h, hshared⟩, rfl⟩

theorem shared_cancel (h : s.Shared) : s.cancel.Shared := by
  unfold Shared at h ⊢
  unfold cancel
  cases hphase : s.phase with
  | head loop =>
    simp only [hphase] at h
    simp [h]
  | body sender =>
    simp only [hphase] at h
    exact ⟨by simp [Sender.cancel, h.1], Sender.shared_cancel h.2⟩
  | flushing | waiting begun | closing | returned result => trivial

theorem body_going {sender sender' : Sender D V W E} (hshared : sender.token = some s.token ∧ sender.Shared)
    (event : SendEvent D E) {send : SendOutput D E} (hevent : event ≠ .cancel)
    (hs : sender.step x cfg.buffers event = some (sender', send)) :
    Keeps s (s.afterBody cfg sender') ∧ (s.token = true → Sender.Still send) := by
  obtain ⟨⟨hshared', htoken⟩, hstill⟩ := Sender.step_going hshared.2 hevent hs
  refine ⟨keeps_afterBody cfg (htoken.trans hshared.1) hshared', fun hcanceled => hstill ?_⟩
  rw [hshared.1, hcanceled]

theorem advance_going {j : WriteEvent} (hshared : s.Shared) (hj : j ≠ .cancel) (event : SendEvent D E)
    (hevent : ∀ sender : Sender D V W E, sender.advance cfg.buffers j = sender.step x cfg.buffers event)
    (hne : event ≠ .cancel) (hs : s.advance cfg j = some (s', o)) :
    Keeps s s' ∧ (s.token = true → Sender.Still o.send) := by
  unfold Shared at hshared
  unfold advance at hs
  split at hs
  · rename_i loop hphase
    simp only [hphase] at hshared
    obtain ⟨⟨loop', write⟩, hstep, heq⟩ := Option.map_eq_some_iff.mp hs
    cases heq
    obtain ⟨htoken, hsubmit⟩ := WriteLoop.step_going hstep
    refine ⟨keeps_afterHead cfg ((htoken hj).trans hshared), fun hcanceled => ⟨rfl, fun bytes hbytes => ?_⟩⟩
    apply hsubmit bytes hbytes
    rw [hshared, hcanceled]
  · rename_i sender hphase
    simp only [hphase] at hshared
    obtain ⟨⟨sender', send⟩, hstep, heq⟩ := Option.map_eq_some_iff.mp hs
    cases heq
    rw [hevent] at hstep
    exact body_going hshared event hne hstep
  · cases hs

/-- Once the upload was canceled, nothing more is asked of the body and nothing is submitted. -/
theorem step_going (hshared : s.Shared) (hi : i ≠ .send .cancel) (hs : s.step x cfg i = some (s', o)) :
    Keeps s s' ∧ (s.token = true → Sender.Still o.send) := by
  cases i with
  | wait p =>
    simp only [step, wait] at hs
    split at hs
    · split_ifs at hs
      · cases hs
        exact ⟨⟨trivial, rfl⟩, fun _ => Sender.still_quiet⟩
      · cases hs
        exact ⟨⟨trivial, rfl⟩, fun _ => Sender.still_quiet⟩
      · cases hs
        exact ⟨keeps_beginBody s, fun _ => Sender.still_quiet⟩
      · cases hs
        exact ⟨⟨trivial, rfl⟩, fun _ => Sender.still_quiet⟩
    · cases hs
  | send event =>
    cases event with
    | cancel => exact absurd rfl hi
    | resume => exact advance_going (x := x) hshared (by simp) .resume (fun _ => rfl) (by simp) hs
    | completed result => exact advance_going (x := x) hshared (by simp) (.completed result) (fun _ => rfl) (by simp) hs
    | poll next =>
      unfold Shared at hshared
      simp only [step, poll] at hs
      split at hs
      · rename_i sender hphase
        simp only [hphase] at hshared
        obtain ⟨⟨sender', send⟩, hstep, heq⟩ := Option.map_eq_some_iff.mp hs
        cases heq
        exact body_going (x := x) hshared (.poll next) (by simp) hstep
      · cases hs
    | flushed result =>
      unfold Shared at hshared
      simp only [step, flushed] at hs
      split at hs
      · split at hs
        · cases hs
          exact ⟨⟨trivial, rfl⟩, fun _ => Sender.still_quiet⟩
        · cases hs
          exact ⟨⟨trivial, rfl⟩, fun _ => Sender.still_quiet⟩
      · split at hs
        · cases hs
          exact ⟨⟨trivial, rfl⟩, fun _ => Sender.still_quiet⟩
        · cases hs
          exact ⟨⟨trivial, rfl⟩, fun _ => Sender.still_quiet⟩
      · rename_i sender hphase
        simp only [hphase] at hshared
        obtain ⟨⟨sender', send⟩, hstep, heq⟩ := Option.map_eq_some_iff.mp hs
        cases heq
        exact body_going (x := x) hshared (.flushed result) (by simp) hstep
      · cases hs

theorem shared_of_reaches {token : Bool} (hrun : (upload E x cfg).Reaches (start cfg request token) tr s) :
    s.Shared := by
  apply hrun.invariant (P := fun _ s => s.Shared)
  · rfl
  · intro tr s i s' o hshared hs
    by_cases hi : i = .send .cancel
    · subst hi
      cases hs
      exact shared_cancel hshared
    · exact (step_going hshared hi hs).1.1

theorem Inv.whole (h : Inv cfg request tr s) (hphase : s.phase = .returned (.ok ())) : Whole cfg request tr s := by
  have hstage := h.stage
  simpa only [Stage, hphase] using hstage

theorem Whole.ended (h : Whole cfg request tr s) (hmode : s.mode ≠ .none) :
    ∃ fs : List (Frame D), (uploadHistory tr).obtained = fs.map .frame ++ [.finished] := by
  cases h with
  | head hnone hwritten => exact absurd hnone hmode
  | body hopen hhistory hsucceeded =>
    rw [hhistory]
    exact ⟨_, hsucceeded.obtained⟩

/-- For every request, every producer, every behaviour of the writer, every moment at which permission
or a request to cancel comes: what was written is a part of the head with the encoded body behind it,
and all of it once the upload is recorded to be complete, which is when it succeeds; the body is asked
only after the whole head was written and, where the request waits for `Continue`, after permission or
the deadline; a canceled upload asks and submits nothing more. -/
theorem upload_in_order (hk : cfg.buffers.Lawful) {token : Bool}
    (hrun : (upload E x cfg).Reaches (start cfg request token) tr s) :
    (uploadHistory tr).written <+:
      request.plan.bytes ++ bodyWire x cfg.buffers.asInit request.encoder (uploadHistory tr).obtained ∧
    ((uploadHistory tr).obtained ≠ [] → request.plan.bytes <+: (uploadHistory tr).written ∧
      request.plan.head.body ≠ .none ∧ (s.awaits cfg = true → Permitted tr)) ∧
    ((∃ y ∈ tr, y.2.uploaded = true) ↔ s.phase = .returned (.ok ())) ∧
    (s.phase = .returned (.ok ()) → (uploadHistory tr).written =
        request.plan.bytes ++ bodyWire x cfg.buffers.asInit request.encoder (uploadHistory tr).obtained ∧
      (request.plan.head.body ≠ .none → ∃ fs : List (Frame D), (uploadHistory tr).obtained = fs.map .frame ++ [.finished])) ∧
    (s.token = true → ∀ i s' o, s.step x cfg i = some (s', o) → Sender.Still o.send) := by
  have hinv := inv_of_reaches hk hrun
  have hshared := shared_of_reaches hrun
  obtain ⟨hwritten, hbody⟩ := hinv.stage.part hk
  refine ⟨hwritten, fun hne => ?_, hinv.uploaded, fun hphase => ?_, fun hcanceled i s' o hs => ?_⟩
  · obtain ⟨hpre, hopen⟩ := hbody hne
    exact ⟨hpre, hinv.mode ▸ hopen.mode, hopen.permitted⟩
  · have hwhole := hinv.whole hphase
    refine ⟨hwhole.written_eq, fun hmode => ?_⟩
    apply hwhole.ended
    rw [hinv.mode]
    exact hmode
  · by_cases hi : i = .send .cancel
    · subst hi
      cases hs
      exact Sender.still_quiet
    · exact (step_going hshared hi hs).2 hcanceled

def sampleTarget : reference.Uri := ⟨[47, 117], by decide⟩

/-- The fields of a request to `a` that expects `100-continue`. -/
def sampleExpecting : Headers :=
  (HeaderMap.empty.append .host ⟨[97], by decide⟩).append .expect ⟨ascii "100-continue", by decide⟩

/-- An upload of two bytes that expects `100-continue`. -/
def sampleUpload : Except Error (RequestUpload reference) :=
  RequestUpload.prepare reference .post sampleTarget .http11 sampleExpecting none
    ⟨.withExact 2 two_lt_wordSize, .none⟩ sampleConfig 4

def sampleUploadHead : Bytes := ascii "POST /u HTTP/1.1\r\nHost: a\r\nExpect: 100-continue\r\nContent-Length: 2\r\n\r\n"

theorem sampleUpload_eq : ∃ request, sampleUpload = .ok request ∧ request.plan.bytes = sampleUploadHead ∧
    request.plan.head.body = .fixed 2 ∧ request.plan.head.expectation = .continue ∧
    request.encoder = ⟨.fixed, 1024, true, 2, some 2, .none⟩ ∧
    request.policy = ⟨.awaitingHead, .reusable, .post, none, [], 0, 4⟩ := by
  have hprepared : sampleUpload.toOption.any (fun request => decide (request.plan.bytes = sampleUploadHead ∧
      request.plan.head.body = .fixed 2 ∧ request.plan.head.expectation = .continue ∧
      request.policy.persistence = .reusable ∧ request.policy.method = .post ∧ request.policy.upgrade = none ∧
      request.policy.offeredProtocols.isEmpty = true)) = true := by decide +kernel
  cases hrequest : sampleUpload with
  | error e => simp [hrequest, Except.toOption] at hprepared
  | ok request =>
    simp only [hrequest, Except.toOption, Option.any_some, decide_eq_true_eq] at hprepared
    obtain ⟨hbytes, hmode, hexpect, hpersistence, hmethod, hupgrade, hoffered⟩ := hprepared
    obtain ⟨-, hencoder, hpolicy⟩ := RequestUpload.prepare_ok hrequest
    rw [hmode] at hencoder
    rw [List.isEmpty_iff] at hoffered
    refine ⟨request, rfl, hbytes, hmode, hexpect, (Except.ok.inj hencoder).symm, ?_⟩
    rw [hpolicy] at hpersistence hmethod hupgrade hoffered ⊢
    rw [← hpersistence, ← hmethod, ← hupgrade, ← hoffered]
    rfl

def sampleUploads : UploadConfig Bytes ((Bytes × Bytes × Bytes) × ℕ) (Bytes × ℕ) := ⟨plainBuffers, fun _ => .other, true⟩

/-- The head goes out in two writes, and permission comes at the second poll of the wait. -/
def sampleSending : List (UploadEvent Bytes Unit) :=
  [.send .resume, .send (.completed (.ok 30)), .send .resume, .send (.completed (.ok 40)), .send .resume,
    .send (.flushed (.ok ())), .wait ⟨false, false, false⟩, .wait ⟨false, true, false⟩,
    .send (.poll (some (.frame (.data (ascii "hi"))))), .send .resume, .send (.completed (.ok 2)), .send .resume,
    .send (.poll (some .finished)), .send .resume, .send (.flushed (.ok ()))]

theorem upload_in_order_permitted :
    ∃ request tr s, sampleUpload = .ok request ∧
      (upload Unit reference sampleUploads).Reaches (start sampleUploads request false) tr s ∧
      s.phase = .returned (.ok ()) ∧ (uploadHistory tr).written = sampleUploadHead ++ ascii "hi" ∧ Permitted tr := by
  obtain ⟨request, hrequest, hbytes, hmode, hexpect, hencoder, -⟩ := sampleUpload_eq
  have hstart : (start sampleUploads request false : Upload Bytes _ _ Unit) =
      ⟨.fixed 2, .continue, ⟨.fixed, 1024, true, 2, some 2, .none⟩, false,
        .head (.start plainBuffers.single .scalar sampleUploadHead (some false))⟩ := by
    simp [start, hbytes, hmode, hexpect, hencoder, sampleUploads]
  have hevaluates : ((upload Unit reference sampleUploads).run (start sampleUploads request false) sampleSending).map
      (fun r => (decide ((uploadHistory r.1).written = sampleUploadHead ++ ascii "hi"),
        r.1.any (fun y => y.2.uploaded), (uploadHistory r.1).obtained.isEmpty, r.2.awaits sampleUploads)) =
      some (true, true, false, true) := by
    rw [hstart]
    decide +kernel
  obtain ⟨⟨tr, s⟩, hrun, heq⟩ := Option.map_eq_some_iff.mp hevaluates
  simp only [Prod.mk.injEq, decide_eq_true_eq, List.any_eq_true, List.isEmpty_eq_false_iff] at heq
  obtain ⟨hwritten, huploaded, hasked, hawaits⟩ := heq
  have hreach := Machine.reaches_of_run hrun
  obtain ⟨-, hbody, hdone, -⟩ := upload_in_order plainBuffers_lawful hreach
  exact ⟨request, tr, s, hrequest, hreach, hdone.mp huploaded, hwritten, (hbody hasked).2.2 hawaits⟩

end Upload

end Vakya
