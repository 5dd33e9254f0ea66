import Vakya.DrainBudget
import Vakya.Reference

/-!
# Runs of `drain`

What a step of `drain` returns to it and does to its receiver, and from it
what a whole run shows: the frames since the first poll of `drain`, and how
they make it return.
-/

namespace Vakya

open Library BodyPipe Receiver

variable {W : Type} {x : Crates} {cfg : ReceiveConfig} {m wireAllowance : ℕ}

/-! ## Calls of the body -/

theorem step_body {s s' : Receiver W} {call : BodyCall W} {out : ReceiveOutput W}
    (h : s.step x cfg (.body call) = some (s', out)) :
    ∃ pipe o, s.pipe.step call = some (pipe, o) ∧ s' = { s with pipe } ∧ out = ⟨[(call, o)], [], none⟩ := by
  simp only [Receiver.step] at h
  split_ifs at h
  simp only [act] at h
  split at h
  · cases h
  · rename_i pipe o hpipe
    cases h
    exact ⟨pipe, o, hpipe, rfl, rfl⟩

theorem results_concat_body (tr : List (ReceiveInput W × ReceiveOutput W)) (i : ReceiveInput W) (call : BodyCall W)
    (o : BodyOutput W) (arrived : Bytes) (refused : Option Error) :
    results (bodyTrace (tr ++ [(i, ⟨[(call, o)], arrived, refused⟩)])) =
      results (bodyTrace tr) ++ o.result.toList := by
  rw [bodyTrace_append]
  exact results_append

theorem results_of_quiet {s s' : Receiver W} {tr : List (ReceiveInput W × ReceiveOutput W)}
    (h : (receiver W x cfg).Reaches s tr s')
    (hin : ∀ y ∈ tr, ∃ call, y.1 = .body call ∧ ∀ w, call ≠ .pollNext w) : results (bodyTrace tr) = [] := by
  have hall : (∀ y ∈ tr, ∃ call, y.1 = .body call ∧ ∀ w, call ≠ .pollNext w) → results (bodyTrace tr) = [] := by
    refine h.invariant (P := fun tr _ => (∀ y ∈ tr, ∃ call, y.1 = .body call ∧ ∀ w, call ≠ .pollNext w) →
      results (bodyTrace tr) = []) (fun _ => rfl) ?_
    intro tr s i s' out ih hs hin
    obtain ⟨call, hi, hcall⟩ := hin (i, out) (by simp)
    obtain rfl : i = .body call := hi
    have hs : s.step x cfg (.body call) = some (s', out) := hs
    obtain ⟨pipe, o, hpipe, -, rfl⟩ := step_body hs
    rw [results_concat_body, ih fun y hy => hin y (by simp [hy]), result_eq_none hpipe hcall]
    rfl
  exact hall hin

/-- Calls that `drain` makes, none of which sets the budget. -/
structure Calls (x : Crates) (cfg : ReceiveConfig) (s : Receiver W) (tr : List (ReceiveInput W × ReceiveOutput W))
    (s' : Receiver W) (rs : List BodyResult) : Prop where
  reach : (receiver W x cfg).Reaches s tr s'
  returned : results (bodyTrace tr) = rs
  undrained : Undrained tr
  fromIo : ∀ y ∈ tr, y.1.FromIo

namespace Calls

variable {s s' s'' : Receiver W} {tr tr' : List (ReceiveInput W × ReceiveOutput W)} {rs rs' : List BodyResult}

theorem nil (s : Receiver W) : Calls x cfg s [] s [] := ⟨.start, rfl, by simp [Undrained], by simp⟩

theorem trans (h : Calls x cfg s tr s' rs) (h' : Calls x cfg s' tr' s'' rs') :
    Calls x cfg s (tr ++ tr') s'' (rs ++ rs') where
  reach := h.reach.trans h'.reach
  returned := by
    rw [bodyTrace_append, BodyPipe.results, List.filterMap_append, ← h.returned, ← h'.returned]
    rfl
  undrained := List.forall_mem_append.mpr ⟨h.undrained, h'.undrained⟩
  fromIo := List.forall_mem_append.mpr ⟨h.fromIo, h'.fromIo⟩

theorem single {i : ReceiveInput W} {out : ReceiveOutput W} (hs : s.step x cfg i = some (s', out))
    (hset : ∀ m allowance, i ≠ .body (.drainBudget m allowance)) (hio : i.FromIo) :
    Calls x cfg s [(i, out)] s' (results out.body) where
  reach := Machine.reaches_single hs
  returned := by simp [bodyTrace]
  undrained := List.forall_mem_singleton.mpr hset
  fromIo := List.forall_mem_singleton.mpr hio

theorem of_inputs {calls : List (BodyCall W)} (hreach : (receiver W x cfg).Reaches s tr s')
    (hinputs : tr.map Prod.fst = calls.map .body)
    (hcalls : ∀ c ∈ calls, (∀ w, c ≠ .pollNext w) ∧ ∀ m a, c ≠ .drainBudget m a) : Calls x cfg s tr s' [] := by
  have hmem : ∀ y ∈ tr, ∃ c ∈ calls, y.1 = .body c := by
    intro y hy
    have hinput : y.1 ∈ calls.map ReceiveInput.body := hinputs ▸ List.mem_map_of_mem hy
    obtain ⟨c, hc, heq⟩ := List.mem_map.mp hinput
    exact ⟨c, hc, heq.symm⟩
  refine ⟨hreach, results_of_quiet hreach fun y hy => ?_, fun y hy m a heq => ?_, fun y hy => ?_⟩
  · obtain ⟨c, hc, heq⟩ := hmem y hy
    exact ⟨c, heq, (hcalls c hc).1⟩
  · obtain ⟨c, hc, hbody⟩ := hmem y hy
    rw [hbody] at heq
    cases heq
    exact (hcalls _ hc).2 m a rfl
  · obtain ⟨c, -, hbody⟩ := hmem y hy
    rw [hbody]
    trivial

theorem of_quiet {calls : List (BodyCall W)} (h : s.calls x cfg calls = some (tr, s'))
    (hcalls : ∀ c ∈ calls, (∀ w, c ≠ .pollNext w) ∧ ∀ m a, c ≠ .drainBudget m a) : Calls x cfg s tr s' [] :=
  of_inputs (Machine.reaches_of_run h) (Machine.run_inputs h) hcalls

theorem of_poll {calls : List (BodyCall W)} {w : W} (h : s.calls x cfg (calls ++ [.pollNext w]) = some (tr, s'))
    (hcalls : ∀ c ∈ calls, (∀ w, c ≠ .pollNext w) ∧ ∀ m a, c ≠ .drainBudget m a) :
    Calls x cfg s tr s' (answered tr).toList := by
  have hinputs := Machine.run_inputs h
  rw [List.map_append] at hinputs
  obtain ⟨before, last, rfl, hbefore, hlast⟩ := List.map_eq_append_iff.mp hinputs
  obtain ⟨⟨i, out⟩, rest, rfl, hi, hrest⟩ := List.map_eq_cons_iff.mp hlast
  obtain rfl : rest = [] := List.map_eq_nil_iff.mp hrest
  obtain rfl : i = .body (.pollNext w) := hi
  obtain ⟨s₁, hreach₁, hreach₂⟩ := (Machine.reaches_of_run h).split
  have hs : s₁.step x cfg (.body (.pollNext w)) = some (s', out) := Machine.step_of_reaches_single hreach₂
  have hboth := (of_inputs hreach₁ hbefore hcalls).trans (single hs (by simp) trivial)
  -- A poll returns once, if at all, so the answer is all there is.
  obtain ⟨pipe, o, -, -, rfl⟩ := step_body hs
  have hone : results [(BodyCall.pollNext w, o)] = o.result.toList := by
    cases hr : o.result <;> simp [BodyPipe.results, hr]
  rw [List.nil_append, hone] at hboth
  have hanswer : answered (before ++ [(ReceiveInput.body (.pollNext w), ⟨[(.pollNext w, o)], [], none⟩)]) =
      o.result := by
    have hall := hboth.returned
    rw [answered, ← List.head?_filterMap]
    rw [BodyPipe.results, bodyTrace] at hall
    rw [hall]
    cases o.result <;> rfl
  rw [hanswer]
  exact hboth

end Calls

/-! ## Steps of `drain` -/

/-- How `drain` goes on while it has `remaining` bytes to count and holds a frame or none, after its
calls returned `rs`. -/
inductive DrainNext (remaining : ℕ) : Option (Frame IncomingData) → List BodyResult → DrainPhase → Prop
  | wait : DrainNext remaining none [] (.draining remaining none)
  | frame (f : Frame IncomingData) : DrainNext remaining none [.ok (some f)] (.draining remaining (some f))
  | finished : DrainNext remaining none [.ok none] (.returned (.ok ()))
  | failed (e : Error) : DrainNext remaining none [.error e] (.returned (.error e))
  | counted {f : Frame IncomingData} (h : f.payloadLen ≤ remaining) :
      DrainNext remaining (some f) [] (.draining (remaining - f.payloadLen) none)
  | exceeded {f : Frame IncomingData} (h : remaining < f.payloadLen) (e : Error) :
      DrainNext remaining (some f) [] (.returned (.error e))
  /-- The deadline, or `drain` is dropped. -/
  | stopped {frame : Option (Frame IncomingData)} {phase : DrainPhase}
      (h : phase = .dropped ∨ ∃ e, phase = .returned (.error e) ∧ ¬e.Overdrawn) : DrainNext remaining frame [] phase

inductive DrainMove (x : Crates) (cfg : ReceiveConfig) (m wireAllowance : ℕ) :
    Draining W → DrainInput W → List (ReceiveInput W × ReceiveOutput W) → Draining W → Prop
  | receive {s s' : Receiver W} {phase : DrainPhase} {i : ReceiveInput W} {out : ReceiveOutput W}
      (hpermits : phase.permits i = true) (hs : s.step x cfg i = some (s', out)) :
      DrainMove x cfg m wireAllowance ⟨s, phase⟩ (.receive i) [(i, out)] ⟨s', phase⟩
  | start {s s₁ s' : Receiver W} {phase : DrainPhase} {overflow : Bool} {out : ReceiveOutput W}
      {tr : List (ReceiveInput W × ReceiveOutput W)}
      (hs : s.step x cfg (.body (.drainBudget m wireAllowance)) = some (s₁, out)) (hcalls : Calls x cfg s₁ tr s' [])
      (hphase : phase = .draining m none ∨ ∃ e, phase = .returned (.error e) ∧ ¬e.Overdrawn) :
      DrainMove x cfg m wireAllowance ⟨s, .before⟩ (.start overflow)
        ((.body (.drainBudget m wireAllowance), out) :: tr) ⟨s', phase⟩
  | next {s s' : Receiver W} {remaining : ℕ} {frame : Option (Frame IncomingData)} {phase : DrainPhase}
      {e : DrainInput W} {tr : List (ReceiveInput W × ReceiveOutput W)} {rs : List BodyResult}
      (hnot : DrainTrace.isStart e = false) (hcalls : Calls x cfg s tr s' rs)
      (hnext : DrainNext remaining frame rs phase) :
      DrainMove x cfg m wireAllowance ⟨s, .draining remaining frame⟩ e tr ⟨s', phase⟩

namespace Draining

theorem after_eq_some {r : Option (List (ReceiveInput W × ReceiveOutput W) × Receiver W)}
    {k : List (ReceiveInput W × ReceiveOutput W) → Receiver W → Result W} {t : Draining W}
    {o : List (ReceiveInput W × ReceiveOutput W)} (h : after r k = some (t, o)) :
    ∃ tr s o', r = some (tr, s) ∧ k tr s = some (t, o') ∧ o = tr ++ o' := by
  unfold after at h
  split at h
  · cases h
  · rename_i tr s
    obtain ⟨⟨t', o'⟩, hk, heq⟩ := Option.map_eq_some_iff.mp h
    cases heq
    exact ⟨tr, s, o', rfl, hk, rfl⟩

theorem finish_spec {s : Receiver W} {phase : DrainPhase} {t : Draining W}
    {o : List (ReceiveInput W × ReceiveOutput W)} (h : finish x cfg s phase = some (t, o)) :
    ∃ s', t = ⟨s', phase⟩ ∧ Calls x cfg s o s' [] := by
  obtain ⟨⟨tr, s'⟩, hcalls, heq⟩ := Option.map_eq_some_iff.mp h
  cases heq
  refine ⟨s', rfl, Calls.of_quiet hcalls fun c hc => ?_⟩
  have hdrop : c = .dropNext ∨ c = .dropIncoming := by
    split_ifs at hc
    · simpa using hc
    · exact .inr (by simpa using hc)
  rcases hdrop with rfl | rfl <;> simp

theorem move_of_next {s : Receiver W} {remaining : ℕ} {w : W} {t : Draining W}
    {o : List (ReceiveInput W × ReceiveOutput W)} (h : next x cfg w remaining s = some (t, o)) :
    ∃ s' rs phase, t = ⟨s', phase⟩ ∧ Calls x cfg s o s' rs ∧ DrainNext remaining none rs phase := by
  obtain ⟨tr, s₁, o', hcalls, hk, rfl⟩ := after_eq_some h
  have hpoll := Calls.of_poll hcalls fun c hc => by
    split_ifs at hc <;> simp at hc
    simp [hc]
  split at hk
  · rename_i hanswer
    cases hk
    rw [hanswer] at hpoll
    exact ⟨s₁, [], _, rfl, by simpa using hpoll, .wait⟩
  · rename_i frame hanswer
    obtain ⟨tr', s₂, o'', hdrop, hrest, rfl⟩ := after_eq_some hk
    cases hrest
    rw [hanswer] at hpoll
    have hquiet := Calls.of_quiet hdrop (by simp)
    exact ⟨s₂, _, _, rfl, by simpa using hpoll.trans hquiet, .frame frame⟩
  · rename_i hanswer
    obtain ⟨s₂, rfl, hquiet⟩ := finish_spec hk
    rw [hanswer] at hpoll
    exact ⟨s₂, _, _, rfl, hpoll.trans hquiet, .finished⟩
  · rename_i e hanswer
    obtain ⟨s₂, rfl, hquiet⟩ := finish_spec hk
    rw [hanswer] at hpoll
    exact ⟨s₂, _, _, rfl, hpoll.trans hquiet, .failed e⟩

theorem move_of_count {s : Receiver W} {remaining : ℕ} {frame : Frame IncomingData} {t : Draining W}
    {o : List (ReceiveInput W × ReceiveOutput W)} (h : count x cfg remaining s frame = some (t, o)) :
    ∃ s' phase, t = ⟨s', phase⟩ ∧ Calls x cfg s o s' [] ∧ DrainNext remaining (some frame) [] phase := by
  cases frame with
  | data d =>
    simp only [count] at h
    split_ifs at h with hle
    · cases h
      exact ⟨s, _, rfl, .nil s, .counted (f := .data d) hle⟩
    · obtain ⟨s', rfl, hquiet⟩ := finish_spec h
      exact ⟨s', _, rfl, hquiet, .exceeded (f := .data d) (not_le.mp hle) _⟩
  | trailers headers =>
    cases h
    exact ⟨s, _, rfl, .nil s, .counted (f := .trailers headers) (Nat.zero_le _)⟩

theorem move_of_step {t t' : Draining W} {e : DrainInput W} {o : List (ReceiveInput W × ReceiveOutput W)}
    (h : step x cfg m wireAllowance t e = some (t', o)) : DrainMove x cfg m wireAllowance t e o t' := by
  obtain ⟨s, phase⟩ := t
  cases e with
  | receive i =>
    simp only [step] at h
    split_ifs at h with hpermits
    obtain ⟨⟨s', out⟩, hs, heq⟩ := Option.map_eq_some_iff.mp h
    cases heq
    exact .receive hpermits hs
  | start overflow =>
    simp only [step] at h
    split at h
    · obtain ⟨tr, s₁, o', hcalls, hk, rfl⟩ := after_eq_some h
      have hreach := Machine.reaches_of_run hcalls
      obtain ⟨y, rest, rfl, hy, hrest⟩ := List.map_eq_cons_iff.mp (Machine.run_inputs hcalls)
      obtain rfl : rest = [] := List.map_eq_nil_iff.mp hrest
      obtain ⟨i, out⟩ := y
      obtain rfl : i = .body (.drainBudget m wireAllowance) := hy
      have hs : s.step x cfg (.body (.drainBudget m wireAllowance)) = some (s₁, out) :=
        Machine.step_of_reaches_single hreach
      split_ifs at hk
      · obtain ⟨s', rfl, hquiet⟩ := finish_spec hk
        exact .start hs hquiet (.inr ⟨_, rfl, by simp [Error.Overdrawn, Error.new]⟩)
      · cases hk
        exact .start hs (.nil s₁) (.inl rfl)
    · cases h
  | poll w =>
    simp only [step] at h
    split at h
    · obtain ⟨s', rs, phase, rfl, hcalls, hnext⟩ := move_of_next h
      exact .next rfl hcalls hnext
    · obtain ⟨s', phase, rfl, hcalls, hnext⟩ := move_of_count h
      exact .next rfl hcalls hnext
    · cases h
  | elapse =>
    simp only [step] at h
    split at h
    · obtain ⟨s', rfl, hquiet⟩ := finish_spec h
      exact .next rfl hquiet (.stopped (.inr ⟨_, rfl, by simp [Error.Overdrawn, Error.withDetail]⟩))
    · cases h
  | drop =>
    simp only [step] at h
    split at h
    · obtain ⟨s', rfl, hquiet⟩ := finish_spec h
      exact .next rfl hquiet (.stopped (.inl rfl))
    · cases h

end Draining

/-! ## Runs of `drain` -/

def takenResults (fs : List (Frame IncomingData)) : List BodyResult := fs.map fun f => .ok (some f)

/-- What the polls of `drain` returned so far, and where it is. -/
def Counted (m : ℕ) (rs : List BodyResult) : DrainPhase → Prop
  | .before => False
  | .draining remaining frame =>
    ∃ fs, rs = takenResults (fs ++ frame.toList) ∧ remaining + payloadLens fs = m
  | .returned (.ok ()) => ∃ fs, rs = takenResults fs ++ [.ok none] ∧ payloadLens fs ≤ m
  | .returned (.error e) => e.Overdrawn → (∃ fs, rs = takenResults fs ∧ m < payloadLens fs) ∨ .error e ∈ rs
  | .dropped => True

theorem Counted.next {rs rs' : List BodyResult} {remaining : ℕ} {frame : Option (Frame IncomingData)}
    {phase : DrainPhase} (h : Counted m rs (.draining remaining frame)) (hnext : DrainNext remaining frame rs' phase) :
    Counted m (rs ++ rs') phase := by
  obtain ⟨fs, rfl, hsum⟩ := h
  cases hnext with
  | wait => exact ⟨fs, by simp, hsum⟩
  | frame f => exact ⟨fs, by simp [takenResults], hsum⟩
  | finished => exact ⟨fs, by simp, by omega⟩
  | failed e => exact fun _ => .inr (by simp)
  | @counted f hle =>
    refine ⟨fs ++ [f], by simp, ?_⟩
    simp only [payloadLens, List.map_append, List.sum_append, List.map_cons, List.map_nil, List.sum_cons,
      List.sum_nil] at hsum ⊢
    omega
  | @exceeded f hlt e =>
    refine fun _ => .inl ⟨fs ++ [f], by simp, ?_⟩
    simp only [payloadLens, List.map_append, List.sum_append, List.map_cons, List.map_nil, List.sum_cons,
      List.sum_nil] at hsum ⊢
    omega
  | stopped h =>
    rcases h with rfl | ⟨e, rfl, he⟩
    · trivial
    · exact fun hover => absurd hover he

theorem fromIo_received {t₀ t : Draining W} {tr : DrainTrace W}
    (h : (drainer W x cfg m wireAllowance).Reaches t₀ tr t) (hio : ∀ y ∈ tr, y.1.FromIo) :
    ∀ y ∈ tr.received, y.1.FromIo := by
  have hall : (∀ y ∈ tr, y.1.FromIo) → ∀ y ∈ tr.received, y.1.FromIo := by
    refine h.invariant (P := fun tr _ => (∀ y ∈ tr, y.1.FromIo) → ∀ y ∈ DrainTrace.received tr, y.1.FromIo)
      (fun _ => by simp [DrainTrace.received]) ?_
    intro tr t e t' o ih hs hio y hy
    have hrec : DrainTrace.received (tr ++ [(e, o)]) = DrainTrace.received tr ++ o := by simp [DrainTrace.received]
    rw [hrec] at hy
    rcases List.mem_append.mp hy with hy | hy
    · exact ih (fun y hy => hio y (List.mem_append_left _ hy)) y hy
    · have hmove : DrainMove x cfg m wireAllowance t e o t' := Draining.move_of_step hs
      cases hmove with
      | @receive _ _ _ i out hpermits hstep =>
        rw [List.mem_singleton.mp hy]
        exact hio (.receive i, [(i, out)]) (by simp)
      | start hstep hcalls hphase =>
        rcases List.mem_cons.mp hy with rfl | hy
        · trivial
        · exact hcalls.fromIo y hy
      | next hkind hcalls hnext => exact hcalls.fromIo y hy
  exact hall hio

def QuietDriver (x : Crates) (cfg : ReceiveConfig) (s₀ : Receiver W) : Prop :=
  ∀ tr s i s' out, (receiver W x cfg).Reaches s₀ tr s → s.step x cfg i = some (s', out) →
    (∀ call, i ≠ .body call) → i.FromIo → results out.body = []

open DrainTrace in
inductive DrainRun (x : Crates) (cfg : ReceiveConfig) (m wireAllowance : ℕ) (s₀ : Receiver W) (tr : DrainTrace W) :
    Draining W → Prop
  | before {s : Receiver W} (hnot : ∀ y ∈ tr, isStart y.1 = false)
      (hreach : (receiver W x cfg).Reaches s₀ (received tr) s) (hset : Undrained (received tr)) :
      DrainRun x cfg m wireAllowance s₀ tr ⟨s, .before⟩
  | since {before after : DrainTrace W} {overflow : Bool} {o rest : List (ReceiveInput W × ReceiveOutput W)}
      {s₁ s₂ s : Receiver W} {out : ReceiveOutput W} {phase : DrainPhase}
      (htr : tr = before ++ (.start overflow, o) :: after) (hnot : ∀ y ∈ before, isStart y.1 = false)
      (hbefore : (receiver W x cfg).Reaches s₀ (received before) s₁) (hset : Undrained (received before))
      (hs : s₁.step x cfg (.body (.drainBudget m wireAllowance)) = some (s₂, out))
      (hsince : o ++ received after = (.body (.drainBudget m wireAllowance), out) :: rest)
      (hrest : Calls x cfg s₂ rest s (results (bodyTrace rest)))
      (hcounted : Counted m (results (bodyTrace rest)) phase) :
      DrainRun x cfg m wireAllowance s₀ tr ⟨s, phase⟩

theorem drainRun_of_reaches {s₀ : Receiver W} (hquiet : QuietDriver x cfg s₀) {tr : DrainTrace W} {t : Draining W}
    (h : (drainer W x cfg m wireAllowance).Reaches ⟨s₀, .before⟩ tr t)
    (hio : ∀ y ∈ DrainTrace.received tr, y.1.FromIo) :
    DrainRun x cfg m wireAllowance s₀ tr t := by
  have hall : (∀ y ∈ DrainTrace.received tr, y.1.FromIo) → DrainRun x cfg m wireAllowance s₀ tr t := by
    refine h.invariant (P := fun tr t => (∀ y ∈ DrainTrace.received tr, y.1.FromIo) →
      DrainRun x cfg m wireAllowance s₀ tr t)
      (fun _ => .before (by simp) .start (by simp [Undrained, DrainTrace.received])) ?_
    intro tr t e t' o ih hs hio
    have hrec : DrainTrace.received (tr ++ [(e, o)]) = DrainTrace.received tr ++ o := by simp [DrainTrace.received]
    rw [hrec] at hio
    have hrun := ih fun y hy => hio y (List.mem_append_left _ hy)
    have hmove : DrainMove x cfg m wireAllowance t e o t' := Draining.move_of_step hs
    cases hrun with
    | @before s hnot hreach hset =>
      cases hmove with
      | @receive _ s' _ i out hpermits hstep =>
        have hkeeps : ∀ m a, i ≠ .body (.drainBudget m a) := by
          rintro m a rfl
          cases hpermits
        refine .before (List.forall_mem_append.mpr ⟨hnot, List.forall_mem_singleton.mpr rfl⟩)
          (hrec ▸ hreach.step hstep) ?_
        rw [hrec]
        exact List.forall_mem_append.mpr ⟨hset, List.forall_mem_singleton.mpr hkeeps⟩
      | @start _ s₁ s' phase overflow out calls hstep hcalls hphase =>
        have hnone := hcalls.returned
        have hcut : tr ++ [(.start overflow, (.body (.drainBudget m wireAllowance), out) :: calls)] =
            tr ++ (.start overflow, (.body (.drainBudget m wireAllowance), out) :: calls) :: [] := rfl
        refine .since hcut hnot hreach hset hstep (by simp [DrainTrace.received]) (hnone.symm ▸ hcalls) ?_
        rw [hnone]
        rcases hphase with rfl | ⟨e, rfl, he⟩
        · exact ⟨[], rfl, rfl⟩
        · exact fun hover => absurd hover he
    | @since before after overflow o₁ rest s₁ s₂ s out phase htr hnot hbefore hset hstart hsince hrest hcounted =>
      have htr' : tr ++ [(e, o)] = before ++ (.start overflow, o₁) :: (after ++ [(e, o)]) := by simp [htr]
      have hsince' : o₁ ++ DrainTrace.received (after ++ [(e, o)]) =
          (.body (.drainBudget m wireAllowance), out) :: (rest ++ o) := by
        rw [← List.cons_append, ← hsince]
        simp [DrainTrace.received]
      -- What the step adds to the calls since the budget was set.
      have hmore {rs : List BodyResult} {s' : Receiver W} {phase' : DrainPhase} (hcalls : Calls x cfg s o s' rs)
          (hcounted' : Counted m (results (bodyTrace rest) ++ rs) phase') :
          DrainRun x cfg m wireAllowance s₀ (tr ++ [(e, o)]) ⟨s', phase'⟩ := by
        have hboth := hrest.trans hcalls
        have heq := hboth.returned
        exact .since htr' hnot hbefore hset hstart hsince' (heq.symm ▸ hboth) (heq.symm ▸ hcounted')
      cases hmove with
      | @receive _ s' _ i out' hpermits hstep =>
        have hdriver : ∀ call, i ≠ .body call := by
          rintro call rfl
          cases phase with
          | before => exact hcounted
          | draining | returned | dropped => cases hpermits
        have hset₂ : (receiver W x cfg).step s₁ (.body (.drainBudget m wireAllowance)) = some (s₂, out) := hstart
        have hreach := (hbefore.step hset₂).trans hrest.reach
        have hnone : results out'.body = [] := hquiet _ _ _ _ _ hreach hstep hdriver (hio (i, out') (by simp))
        have hcalls := Calls.single hstep (fun m a => hdriver _) (hio (i, out') (by simp))
        rw [hnone] at hcalls
        exact hmore hcalls (by simpa using hcounted)
      | start hstep hcalls hphase => exact hcounted.elim
      | next hkind hcalls hnext => exact hmore hcalls (hcounted.next hnext)
  exact hall hio

namespace DrainTrace

variable {tr before after : DrainTrace W} {overflow : Bool} {o : List (ReceiveInput W × ReceiveOutput W)}

theorem beforeDrain_of_not_started (h : ∀ y ∈ tr, isStart y.1 = false) : beforeDrain tr = received tr := by
  have hall : ∀ y ∈ tr, (!isStart y.1) = true := fun y hy => by simp [h y hy]
  rw [beforeDrain, List.takeWhile_eq_self_iff.mpr hall]

theorem beforeDrain_cut (h : ∀ y ∈ before, isStart y.1 = false) :
    beforeDrain (before ++ (.start overflow, o) :: after) = received before := by
  have hall : ∀ y ∈ before, (!isStart y.1) = true := fun y hy => by simp [h y hy]
  rw [beforeDrain, List.takeWhile_append_of_pos hall]
  simp [isStart]

theorem sinceDrain_cut (h : ∀ y ∈ before, isStart y.1 = false) :
    sinceDrain (before ++ (.start overflow, o) :: after) = o ++ received after := by
  have hall : ∀ y ∈ before, (!isStart y.1) = true := fun y hy => by simp [h y hy]
  rw [sinceDrain, List.dropWhile_append_of_pos hall]
  simp [isStart, received]

theorem received_cut :
    received (before ++ (.start overflow, o) :: after) = received before ++ (o ++ received after) := by
  simp [received]

end DrainTrace

/-- Enough turns of the decoder over the wire end as its byte-level run does. -/
theorem Drive.run_summary {x : Crates} (hx : x.HeadersWithin) (eof : Bool) (mode : BodyMode) (limits : DecodeLimits)
    (wire : Bytes) : ∃ fuel₀, ∀ fuel ≥ fuel₀, ∃ r, Drive.run x eof fuel (.start mode limits [wire]) = some r ∧
      r.verdict = (summary eof ((framing x limits).run mode.start wire)).verdict ∧
      r.payload = ((framing x limits).run mode.start wire).output := by
  refine ⟨(Drive.start mode limits [wire]).turns, fun fuel hfuel => ?_⟩
  simp only [Drive.turns] at hfuel
  obtain ⟨r, hr, ha⟩ := Drive.run_of_following hx eof (Drive.following_start x mode limits [wire]) fuel (by omega)
  simp only [List.flatten_cons, List.flatten_nil, List.append_nil] at ha
  exact ⟨r, hr, ha.1, ha.2.1.trans (summary_payload _ _)⟩

theorem payloadLens_append (fs gs : List (Frame IncomingData)) :
    payloadLens (fs ++ gs) = payloadLens fs + payloadLens gs := by
  simp [payloadLens]

theorem payloadLens_prefix {fs gs : List (Frame IncomingData)} (h : fs <+: gs) : payloadLens fs ≤ payloadLens gs := by
  obtain ⟨hs, rfl⟩ := h
  rw [payloadLens_append]
  omega

theorem delivered_takenResults (fs : List (Frame IncomingData)) : delivered (takenResults fs) = payloadLens fs := by
  rw [delivered_eq]
  congr 1
  induction fs with
  | nil => rfl
  | cons f fs ih => exact congrArg (f :: ·) ih

theorem not_error_mem_takenResults (fs : List (Frame IncomingData)) (e : Error) : .error e ∉ takenResults fs := by
  simp [takenResults]

namespace Receiver

variable {R : Reception} {wire : Bytes} {btr : List (BodyCall W × BodyOutput W)} {s s' : Receiver W}
  {tr : List (ReceiveInput W × ReceiveOutput W)} {out : ReceiveOutput W}

theorem Orderly.delivered_le (h : Orderly R wire btr s.pipe) : delivered (results btr) ≤ offered btr := by
  rw [delivered_eq]
  exact payloadLens_prefix ((framesOf_results h.reach).1.trans h.ordered)

theorem ended_run {how : ReceiveEnd} (h : s.point = .ended how) (hrun : (receiver W x cfg).Reaches s tr s') :
    s'.point = .ended how ∧ chargesIn (bodyTrace tr) = [] := by
  refine hrun.invariant (P := fun tr s' => s'.point = .ended how ∧ chargesIn (bodyTrace tr) = []) ⟨h, rfl⟩ ?_
  intro tr s₁ i s₂ out ⟨hpoint, hnone⟩ hs
  have hb : bodyTrace (tr ++ [(i, out)]) = bodyTrace tr ++ out.body := by simp [bodyTrace]
  rw [hb, chargesIn_append, hnone, List.nil_append]
  cases i with
  | poll p =>
    have hpoll : s₁.poll x cfg p = some (s₂, out) := hs
    simp [Receiver.poll, hpoint] at hpoll
  | dropDriver =>
    have hdrop : s₁.drop = some (s₂, out) := hs
    simp [Receiver.drop, hpoint] at hdrop
  | releaseLease =>
    have hrel : s₁.step x cfg .releaseLease = some (s₂, out) := hs
    simp only [Receiver.step] at hrel
    split at hrel
    · cases hrel
      exact ⟨hpoint, rfl⟩
    · cases hrel
  | body call =>
    have hbody : s₁.step x cfg (.body call) = some (s₂, out) := hs
    have hcall : call.isBody = true := by
      by_contra hc
      simp [Receiver.step, hc] at hbody
    obtain ⟨pipe, o, -, rfl, rfl⟩ := step_body hbody
    refine ⟨hpoint, ?_⟩
    cases call with
    | producer call | chargeDrain bytes payload => cases hcall
    | _ => rfl

theorem drainBudget_cases (h : s.step x cfg (.body (.drainBudget m wireAllowance)) = some (s', out)) :
    ∃ body, s.pipe.incoming = some body ∧ out = ⟨[(.drainBudget m wireAllowance, ⟨[], none⟩)], [], none⟩ ∧
      s' = { s with pipe := { s.pipe with
        remaining := if body.consumer then .budget m wireAllowance else s.pipe.remaining } } := by
  obtain ⟨pipe, o, hpipe, rfl, rfl⟩ := step_body h
  simp only [BodyPipe.step] at hpipe
  split at hpipe
  · rename_i body hin _
    cases hpipe
    refine ⟨body, hin, rfl, ?_⟩
    split_ifs <;> rfl
  · cases hpipe

theorem Inv.returned_whole (h : Inv R wire btr s) {fs : List BodyResult} (hres : results btr = fs ++ [.ok none])
    (hno : ∀ e, .error e ∉ fs) : s.point = .ended .complete ∧
      (summary s.eof ((framing R.crates R.limits).run R.mode.start wire)).verdict = .complete ∧
      delivered (results btr) = R.payload wire := by
  have horder := h.orderly
  have hpoint := h.complete_of_closed (closed_of_clean (BodyPipe.inv_of_reaches horder.reach) hres hno)
  have hnone : ∀ e, .error e ∉ results btr := by
    intro e he
    rw [hres] at he
    rcases List.mem_append.mp he with he | he
    · exact hno e he
    · simp at he
  have hframes := frames_of_no_error horder.reach hnone
  simp only [Inv, hpoint] at h
  obtain ⟨b, ds, t, -, -, -, htaken, hwhole, hverdict, hpayload, -⟩ := h.2 trivial
  rw [summary_payload] at hpayload
  refine ⟨hpoint, hverdict.symm, ?_⟩
  rw [delivered_eq, hframes, htaken, payloadLens_append, payloadLens_data hwhole, Reception.payload, ← hpayload]
  cases t <;> simp [payloadLens, Frame.payloadLen]

theorem Inv.finished_complete (h : Inv R wire btr s) {body : Incoming} (hin : s.pipe.incoming = some body)
    (hbody : body.consumer = false) (hno : ∀ e, .error e ∉ results btr) : s.point = .ended .complete := by
  have hinv := BodyPipe.inv_of_reaches h.orderly.reach
  obtain ⟨r, hr, hframe⟩ := (hinv.finished body hin hbody).1.not_frames
  have hend : r = .ok none := by
    match r, hframe with
    | .ok none, _ => rfl
    | .error e, _ => exact absurd hr (hno e)
  rw [hend] at hr
  obtain ⟨fs, rest, hres⟩ := List.append_of_mem hr
  exact h.complete_of_closed (closed_of_clean hinv hres fun e he => hno e (by simp [hres, he]))

theorem funded_before (hx : R.crates.HeadersWithin) {b : RecvBuffer} (hb : b.Sound)
    (hmax : b.maxRetained = R.maxRetained)
    (hrun : (receiver W R.crates cfg).Reaches (.new b R.mode R.limits R.size R.trailers) tr s) (hset : Undrained tr)
    (hio : ∀ y ∈ tr, y.1.FromIo) (goal : ℕ) :
    Inv R (b.bytes ++ arrivedIn tr) (bodyTrace tr) s ∧
      Funded R goal (b.bytes ++ arrivedIn tr) (bodyTrace tr) s.pipe.remaining ∧ s.pipe.remaining = none := by
  have hstart : Funded R goal b.bytes ([] : List (BodyCall W × BodyOutput W)) none := by
    refine ⟨Nat.zero_le _, fun bytes data h => (by cases h), fun hnot => absurd ?_ hnot⟩
    simp [Solvent, pipeTrace, endings]
  have hall := Inv.funded_run hx (inv_new hb hmax) hstart hrun hset hio
  rw [List.nil_append] at hall
  exact ⟨hall.1, hall.2.1, hall.2.2.trans (DrainPolicy.after_none _)⟩

theorem Inv.funded_set (hx : R.crates.HeadersWithin) (h : Inv R wire btr s) (hnone : s.pipe.remaining = none)
    (hfunded : Funded R (delivered (results btr) + m) wire btr s.pipe.remaining)
    (hs : s.step R.crates cfg (.body (.drainBudget m wireAllowance)) = some (s', out)) :
    Inv R wire (btr ++ out.body) s' ∧
      Funded R (delivered (results btr) + m) wire (btr ++ out.body) s'.pipe.remaining := by
  obtain ⟨hinv', -⟩ := h.step hx hs
  obtain ⟨body, -, rfl, rfl⟩ := drainBudget_cases hs
  rw [List.append_nil] at hinv'
  refine ⟨hinv', ?_⟩
  have hsame :
      offered (btr ++ [(BodyCall.drainBudget m wireAllowance, (⟨[], none⟩ : BodyOutput W))]) = offered btr := by
    rw [offered_append]
    rfl
  refine ⟨hsame ▸ hfunded.covered, fun bytes data hpolicy => ?_, fun hnot => hfunded.overdrawn fun hsolvent => hnot ?_⟩
  · have hle := h.orderly.delivered_le
    rw [hsame]
    dsimp only at hpolicy
    rw [hnone] at hpolicy
    split_ifs at hpolicy
    cases hpolicy
    omega
  · exact hsolvent.append (by simp [Solvent, pipeTrace, endings])

end Receiver

/-! ## The budgets -/

namespace DrainTrace

/-- The payload that was returned before `drain`. -/
def taken (tr : DrainTrace W) : ℕ := delivered (results (bodyTrace tr.beforeDrain))

def paid (m wireAllowance : ℕ) (tr : DrainTrace W) : List (ℕ × ℕ) :=
  (DrainPolicy.budget m wireAllowance).paid (chargesIn (bodyTrace tr.sinceDrain))

end DrainTrace

/-- What a run of `drain` shows of a body that decodes to `r` so far. -/
structure DrainSound (x : Crates) (cfg : ReceiveConfig) (m wireAllowance : ℕ) (r : DriveEnd) (tr : DrainTrace W)
    (t : Draining W) : Prop where
  taken : tr.taken ≤ r.payload.length
  /-- `Ok` needs the whole body, of which no more than the limit was left. -/
  complete : t.phase = .returned (.ok ()) → t.receiver.point = .ended .complete ∧ r.verdict = .complete ∧
    r.payload.length - tr.taken ≤ m
  /-- The payload limit is blamed only if more than it was left. -/
  exceeded : ∀ e, t.phase = .returned (.error e) → e.Overdrawn → m < r.payload.length - tr.taken
  unset : t.phase = .before → t.receiver.pipe.remaining = none
  paid : ((tr.paid m wireAllowance).map Prod.snd).sum ≤ m ∧
    ((tr.paid m wireAllowance).map Prod.fst).sum ≤ min (m + wireAllowance) (wordSize - 1)
  /-- Nothing else changes the budget, unless the body had ended and there is none. -/
  left : t.phase ≠ .before → t.receiver.pipe.remaining =
      some (min (m + wireAllowance) (wordSize - 1) - ((tr.paid m wireAllowance).map Prod.fst).sum,
        m - ((tr.paid m wireAllowance).map Prod.snd).sum) ∨
    t.receiver.pipe.remaining = none ∧ t.receiver.point = .ended .complete ∧ chargesIn (bodyTrace tr.sinceDrain) = []
  /-- A charge that fails leaves the budget. -/
  kept : ∀ i s' out, i.FromIo → t.receiver.step x cfg i = some (s', out) → ∀ c ∈ chargesIn out.body, ∀ limit,
    t.receiver.pipe.remaining.charge c.1 c.2 = .error limit → s'.pipe.remaining = t.receiver.pipe.remaining

theorem paid_within (m wireAllowance : ℕ) (tr : DrainTrace W) :
    ((tr.paid m wireAllowance).map Prod.snd).sum ≤ m ∧
      ((tr.paid m wireAllowance).map Prod.fst).sum ≤ min (m + wireAllowance) (wordSize - 1) := by
  obtain ⟨-, hbytes, hpayload⟩ := DrainPolicy.after_some (min (m + wireAllowance) (wordSize - 1)) m
    (chargesIn (bodyTrace tr.sinceDrain))
  exact ⟨hpayload, hbytes⟩

namespace Receiver

variable {R : Reception} {wire : Bytes} {btr : List (BodyCall W × BodyOutput W)} {s s' : Receiver W}
  {tr : List (ReceiveInput W × ReceiveOutput W)} {out : ReceiveOutput W}

theorem Inv.kept (hx : R.crates.HeadersWithin) (h : Inv R wire btr s) {i : ReceiveInput W} (hio : i.FromIo)
    (hs : s.step R.crates cfg i = some (s', out)) {c : ℕ × ℕ} (hc : c ∈ chargesIn out.body) {limit : LimitKind}
    (hcharge : s.pipe.remaining.charge c.1 c.2 = .error limit) : s'.pipe.remaining = s.pipe.remaining := by
  have hset : ∀ m allowance, i ≠ .body (.drainBudget m allowance) := by
    rintro m allowance rfl
    obtain ⟨body, -, rfl, -⟩ := drainBudget_cases hs
    cases hc
  obtain ⟨hspent, -⟩ := h.spent hx hset hio hs
  cases hspent with
  | uncharged hu => exact hu.kept
  | paid hcharges hpaid =>
    rw [hcharges, List.mem_singleton] at hc
    rw [hc] at hcharge
    simp [hpaid] at hcharge
  | refused hcharges hrefused hkept => exact hkept

/-- `drain` returned `Ok`: what it took is the rest of the whole body. -/
theorem Inv.drained (h : Inv R wire btr s) {taken rs : List BodyResult} (hresults : results btr = taken ++ rs)
    (hno : ∀ e, .error e ∉ taken) {fs : List (Frame IncomingData)} (hrs : rs = takenResults fs ++ [.ok none]) :
    s.point = .ended .complete ∧
      (summary s.eof ((framing R.crates R.limits).run R.mode.start wire)).verdict = .complete ∧
      delivered taken + payloadLens fs = R.payload wire := by
  have hclean : ∀ e, .error e ∉ taken ++ takenResults fs := by
    intro e he
    rcases List.mem_append.mp he with he | he
    · exact hno e he
    · exact not_error_mem_takenResults fs e he
  obtain ⟨hpoint, hwhole, htotal⟩ := h.returned_whole (by rw [hresults, hrs, List.append_assoc]) hclean
  refine ⟨hpoint, hwhole, ?_⟩
  rw [hresults, delivered_append, hrs, delivered_append, delivered_takenResults] at htotal
  have hnothing : delivered [.ok none] = 0 := rfl
  omega

/-- What is left of the budget that `drain` set; a body that had ended has none. -/
theorem Inv.budget_left (h : Inv R wire btr s) (hnone : s.pipe.remaining = none) (hno : ∀ e, .error e ∉ results btr)
    (hs : s.step R.crates cfg (.body (.drainBudget m wireAllowance)) = some (s', out)) {s'' : Receiver W}
    (hrun : (receiver W R.crates cfg).Reaches s' tr s'')
    (hafter : s''.pipe.remaining = s'.pipe.remaining.after (chargesIn (bodyTrace tr))) :
    let paid := (DrainPolicy.budget m wireAllowance).paid (chargesIn (bodyTrace tr))
    s''.pipe.remaining = some (min (m + wireAllowance) (wordSize - 1) - (paid.map Prod.fst).sum,
        m - (paid.map Prod.snd).sum) ∨
      s''.pipe.remaining = none ∧ s''.point = .ended .complete ∧ chargesIn (bodyTrace tr) = [] := by
  obtain ⟨body, hin, -, hs'⟩ := drainBudget_cases hs
  cases hbody : body.consumer with
  | true =>
    left
    obtain ⟨hsome, -⟩ := DrainPolicy.after_some (min (m + wireAllowance) (wordSize - 1)) m (chargesIn (bodyTrace tr))
    rw [hafter, hs']
    simp only [hbody, if_true]
    exact hsome
  | false =>
    right
    have hpoint := h.finished_complete hin hbody hno
    have hpoint' : s'.point = .ended .complete := by rw [hs', hpoint]
    obtain ⟨hended, hquiet⟩ := ended_run hpoint' hrun
    refine ⟨?_, hended, hquiet⟩
    rw [hafter, hs', hquiet]
    simp only [hbody, Bool.false_eq_true, if_false, DrainPolicy.after]
    exact hnone

end Receiver

section Producer

variable {R : Reception} {b : RecvBuffer} {tr : DrainTrace W} {t : Draining W}

theorem quietDriver_new (hx : R.crates.HeadersWithin) (hb : b.Sound) (hmax : b.maxRetained = R.maxRetained) :
    QuietDriver R.crates cfg (.new b R.mode R.limits R.size R.trailers : Receiver W) := by
  intro tr s i s' out hreach hs hdriver hio
  obtain ⟨hinv, -⟩ := inv_of_reaches hx hb hmax hreach
  exact (hinv.spent hx (fun m a => hdriver _) hio hs).2 hdriver

theorem drainSound_of_driver (hx : R.crates.HeadersWithin) (hb : b.Sound) (hmax : b.maxRetained = R.maxRetained)
    (h : (drainer W R.crates cfg m wireAllowance).Reaches
      ⟨.new b R.mode R.limits R.size R.trailers, .before⟩ tr t)
    (hio : ∀ y ∈ tr.received, y.1.FromIo) (hno : ∀ e, .error e ∉ results (bodyTrace tr.beforeDrain))
    {r : DriveEnd} (hverdict : r.verdict = (summary t.receiver.eof
      ((framing R.crates R.limits).run R.mode.start (b.bytes ++ arrivedIn tr.received))).verdict)
    (hpayload : r.payload.length = R.payload (b.bytes ++ arrivedIn tr.received)) :
    DrainSound R.crates cfg m wireAllowance r tr t := by
  have hrun := drainRun_of_reaches (quietDriver_new hx hb hmax) h hio
  cases hrun with
  | @before s hnot hreach hset =>
    obtain ⟨hinv, hfunded, hnone⟩ := funded_before hx hb hmax hreach hset hio 0
    have htaken : tr.taken ≤ r.payload.length := by
      rw [hpayload, DrainTrace.taken, DrainTrace.beforeDrain_of_not_started hnot]
      exact hinv.orderly.delivered_le.trans hfunded.covered
    exact ⟨htaken, fun hp => (by cases hp), fun e hp => (by cases hp), fun _ => hnone, paid_within m wireAllowance tr,
      fun hp => absurd rfl hp, fun i s' out hio hs c hc limit hcharge => hinv.kept hx hio hs hc hcharge⟩
  | @since before after overflow o rest s₁ s₂ s out phase htr hnot hbefore hset hs hsince hrest hcounted =>
    subst htr
    rw [DrainTrace.beforeDrain_cut hnot] at hno
    rw [DrainTrace.received_cut, hsince] at hio hverdict hpayload
    have harrived : arrivedIn (DrainTrace.received before ++ (.body (.drainBudget m wireAllowance), out) :: rest) =
        arrivedIn (DrainTrace.received before) ++ arrivedIn rest := by
      obtain ⟨body, -, rfl, -⟩ := drainBudget_cases hs
      simp [arrivedIn]
    rw [harrived, ← List.append_assoc] at hverdict hpayload
    -- The books up to the budget, with it, and since.
    obtain ⟨hinv₁, hfunded₁, hnone⟩ := funded_before hx hb hmax hbefore hset
      (fun y hy => hio y (List.mem_append_left _ hy)) (delivered (results (bodyTrace (DrainTrace.received before))) + m)
    obtain ⟨hinv₂, hfunded₂⟩ := hinv₁.funded_set hx hnone hfunded₁ hs
    obtain ⟨hinv, hfunded, hafter⟩ := Inv.funded_run hx hinv₂ hfunded₂ hrest.reach hrest.undrained
      fun y hy => hio y (List.mem_append_right _ (List.mem_cons_of_mem _ hy))
    obtain ⟨body, -, hout, -⟩ := drainBudget_cases hs
    have hresults : results (bodyTrace (DrainTrace.received before) ++ out.body ++ bodyTrace rest) =
        results (bodyTrace (DrainTrace.received before)) ++ results (bodyTrace rest) := by
      rw [hout]
      simp [BodyPipe.results]
    have htaken : DrainTrace.taken (before ++ (.start overflow, o) :: after) =
        delivered (results (bodyTrace (DrainTrace.received before))) := by
      rw [DrainTrace.taken, DrainTrace.beforeDrain_cut hnot]
    have hcharges : chargesIn (bodyTrace (DrainTrace.sinceDrain (before ++ (.start overflow, o) :: after))) =
        chargesIn (bodyTrace rest) := by
      rw [DrainTrace.sinceDrain_cut hnot, hsince, hout]
      rfl
    have hsum := hinv.orderly.delivered_le.trans hfunded.covered
    rw [hresults, delivered_append, ← hpayload] at hsum
    refine ⟨?_, fun hp => ?_, fun e hp he => ?_, fun hp => ?_, paid_within m wireAllowance _, fun _ => ?_,
      fun i s' out hio hs c hc limit hcharge => hinv.kept hx hio hs hc hcharge⟩
    · rw [htaken]
      omega
    · obtain rfl : phase = .returned (.ok ()) := hp
      obtain ⟨fs, hfs, hle⟩ := hcounted
      obtain ⟨hpoint, hwhole, htotal⟩ := hinv.drained hresults hno hfs
      refine ⟨hpoint, hverdict.trans hwhole, ?_⟩
      rw [← hpayload] at htotal
      rw [htaken]
      omega
    · obtain rfl : phase = .returned (.error e) := hp
      rw [htaken]
      rcases hcounted he with ⟨fs, hfs, hlt⟩ | hmem
      · -- `drain` counted more than the limit.
        rw [hfs, delivered_takenResults] at hsum
        omega
      · -- The driver could not charge what it had decoded.
        have hblamed := overdrawn_of_result hinv.orderly.reach (hresults ▸ List.mem_append_right _ hmem) he
        have hover := hfunded.overdrawn hblamed
        omega
    · obtain rfl : phase = .before := hp
      exact hcounted.elim
    · rw [DrainTrace.paid, hcharges]
      exact hinv₁.budget_left hnone hno hs hrest.reach hafter

end Producer

/-! ## Bodies without a driver -/

/-- A body that owns no endpoint returns its end, whenever it is asked. -/
structure Endless (rs : List BodyResult) (s : Receiver W) : Prop where
  point : s.point = .ended .complete
  eof : s.eof = false
  unset : s.pipe.remaining = none
  closed : ∀ body, s.pipe.incoming = some body → body.consumer = false
  unread : s.pipe.next ≠ some .awaiting
  ended : ∀ r ∈ rs, r = .ok none

theorem Endless.step {s s' : Receiver W} {rs : List BodyResult} {i : ReceiveInput W} {out : ReceiveOutput W}
    (h : Endless rs s) (hs : s.step x cfg i = some (s', out)) :
    Endless (rs ++ results out.body) s' ∧ ((∀ call, i ≠ .body call) → results out.body = []) := by
  cases i with
  | poll p =>
    have hpoll : s.poll x cfg p = some (s', out) := hs
    simp [Receiver.poll, h.point] at hpoll
  | dropDriver =>
    have hdrop : s.drop = some (s', out) := hs
    simp [Receiver.drop, h.point] at hdrop
  | releaseLease =>
    simp only [Receiver.step] at hs
    split at hs
    · cases hs
      refine ⟨⟨h.point, h.eof, h.unset, h.closed, h.unread, ?_⟩, fun _ => rfl⟩
      simpa [ReceiveOutput.quiet, BodyPipe.results] using h.ended
    · cases hs
  | body call =>
    have hcall : call.isBody = true := by
      by_contra hc
      simp [Receiver.step, hc] at hs
    obtain ⟨pipe, o, hpipe, rfl, rfl⟩ := step_body hs
    refine ⟨?_, fun hnot => absurd rfl (hnot call)⟩
    suffices hkeeps : pipe.remaining = none ∧ (∀ body, pipe.incoming = some body → body.consumer = false) ∧
        pipe.next ≠ some .awaiting ∧ ∀ r, o.result = some r → r = .ok none by
      refine ⟨h.point, h.eof, hkeeps.1, hkeeps.2.1, hkeeps.2.2.1, fun r hr => ?_⟩
      rcases List.mem_append.mp hr with hr | hr
      · exact h.ended r hr
      · exact hkeeps.2.2.2 r (by simpa [BodyPipe.results] using hr)
    cases call with
    | producer call | chargeDrain bytes payload => cases hcall
    | nextFrame =>
      simp only [BodyPipe.step] at hpipe
      split_ifs at hpipe
      cases hpipe
      exact ⟨h.unset, h.closed, by simp, by simp⟩
    | pollNext w =>
      simp only [BodyPipe.step, BodyPipe.pollNext] at hpipe
      split at hpipe
      · rename_i body hin hnext
        rw [if_neg (by simp [h.closed body hin])] at hpipe
        cases hpipe
        exact ⟨h.unset, h.closed, by simp, by simp⟩
      · rename_i body hin hnext
        exact absurd hnext h.unread
      · cases hpipe
    | dropNext =>
      simp only [BodyPipe.step, BodyPipe.dropNext] at hpipe
      split at hpipe
      · cases hpipe
      · rename_i hnext
        exact absurd hnext h.unread
      · cases hpipe
        exact ⟨h.unset, h.closed, by simp, by simp⟩
    | dropIncoming =>
      simp only [BodyPipe.step, BodyPipe.dropIncoming] at hpipe
      split at hpipe
      · rename_i body hin hnext
        rw [if_neg (by simp [h.closed body hin])] at hpipe
        cases hpipe
        exact ⟨h.unset, by simp, h.unread, by simp⟩
      · cases hpipe
    | drainBudget bytes allowance =>
      simp only [BodyPipe.step] at hpipe
      split at hpipe
      · rename_i body hin hnext
        rw [if_neg (by simp [h.closed body hin])] at hpipe
        cases hpipe
        exact ⟨h.unset, h.closed, h.unread, by simp⟩
      · cases hpipe

theorem endless_of_reaches {b : RecvBuffer} {mode : BodyMode} {limits : DecodeLimits} {s : Receiver W}
    {tr : List (ReceiveInput W × ReceiveOutput W)} (h : (receiver W x cfg).Reaches (.bodiless b mode limits) tr s) :
    Endless (results (bodyTrace tr)) s := by
  refine h.invariant (P := fun tr s => Endless (results (bodyTrace tr)) s)
    ⟨rfl, rfl, rfl, ?_, by simp [Receiver.bodiless], by simp [bodyTrace, BodyPipe.results]⟩ ?_
  · intro body hbody
    cases hbody
    rfl
  · intro tr s i s' out ih hs
    have hstep := (ih.step hs).1
    rw [bodyTrace_append, BodyPipe.results, List.filterMap_append]
    simpa [bodyTrace, BodyPipe.results] using hstep

theorem delivered_of_ended {rs : List BodyResult} (h : ∀ r ∈ rs, r = .ok none) : delivered rs = 0 := by
  induction rs with
  | nil => rfl
  | cons r rs ih =>
    rw [h r (by simp)]
    exact ih fun r hr => h r (by simp [hr])

theorem DrainTrace.received_eq (tr : DrainTrace W) : tr.received = tr.beforeDrain ++ tr.sinceDrain := by
  simp only [received, beforeDrain, sinceDrain, ← List.flatMap_append, List.takeWhile_append_dropWhile]

/-- The results of a run of `drain`, split where it started. -/
theorem DrainTrace.results_received (tr : DrainTrace W) : results (bodyTrace tr.received) =
    results (bodyTrace tr.beforeDrain) ++ results (bodyTrace tr.sinceDrain) := by
  rw [tr.received_eq, bodyTrace_append]
  exact List.filterMap_append

theorem drainSound_of_bodiless {b : RecvBuffer} {mode : BodyMode} {limits : DecodeLimits} {tr : DrainTrace W}
    {t : Draining W} (h : (drainer W x cfg m wireAllowance).Reaches ⟨.bodiless b mode limits, .before⟩ tr t)
    (hio : ∀ y ∈ tr.received, y.1.FromIo) {r : DriveEnd} (hverdict : r.verdict = .complete)
    (hpayload : r.payload = []) :
    DrainSound x cfg m wireAllowance r tr t := by
  have hquiet : QuietDriver x cfg (.bodiless b mode limits : Receiver W) :=
    fun _ _ _ _ _ hreach hs hdriver _ => ((endless_of_reaches hreach).step hs).2 hdriver
  have hrun := drainRun_of_reaches hquiet h hio
  have hreach : (receiver W x cfg).Reaches (.bodiless b mode limits) tr.received t.receiver := by
    cases hrun with
    | before hnot hreach => exact hreach
    | @since before after overflow o rest s₁ s₂ s out phase htr hnot hbefore hset hs hsince hrest =>
      have hset₂ : (receiver W x cfg).step s₁ (.body (.drainBudget m wireAllowance)) = some (s₂, out) := hs
      subst htr
      rw [DrainTrace.received_cut, hsince]
      simpa using (hbefore.step hset₂).trans hrest.reach
  have hend := endless_of_reaches hreach
  obtain ⟨hpoint, hcharges⟩ := ended_run rfl hreach
  have hbefore : ∀ r ∈ results (bodyTrace tr.beforeDrain), r = .ok none :=
    fun r hr => hend.ended r (by rw [tr.results_received]; exact List.mem_append_left _ hr)
  have hsince : ∀ r ∈ results (bodyTrace tr.sinceDrain), r = .ok none :=
    fun r hr => hend.ended r (by rw [tr.results_received]; exact List.mem_append_right _ hr)
  refine ⟨?_, fun _ => ⟨hpoint, hverdict, by simp [hpayload]⟩, fun e hp he => ?_, fun _ => hend.unset,
    paid_within m wireAllowance tr, fun _ => .inr ⟨hend.unset, hpoint, ?_⟩, fun i s' out _ hs c hc => ?_⟩
  · rw [DrainTrace.taken, delivered_of_ended hbefore]
    exact Nat.zero_le _
  · -- There is no frame to count, and no error.
    cases hrun with
    | before => cases hp
    | @since before after overflow o rest s₁ s₂ s out phase htr hnot _ _ hs hcut hrest hcounted =>
      obtain rfl : phase = .returned (.error e) := hp
      subst htr
      have hrestless : ∀ r ∈ results (bodyTrace rest), r = .ok none := by
        intro r hr
        refine hsince r ?_
        rw [DrainTrace.sinceDrain_cut hnot, hcut]
        have hsplit : bodyTrace ((ReceiveInput.body (.drainBudget m wireAllowance), out) :: rest) =
            out.body ++ bodyTrace rest := rfl
        rw [hsplit, BodyPipe.results, List.filterMap_append]
        exact List.mem_append_right _ hr
      rcases hcounted he with ⟨fs, hfs, hlt⟩ | hmem
      · rw [← delivered_takenResults, ← hfs, delivered_of_ended hrestless] at hlt
        exact absurd hlt (Nat.not_lt_zero m)
      · cases hrestless _ hmem
  · rw [tr.received_eq, bodyTrace_append, chargesIn_append] at hcharges
    exact (List.append_eq_nil_iff.mp hcharges).2
  · have hnone := (ended_run hpoint (Machine.reaches_single hs)).2
    simp only [bodyTrace, List.flatMap_singleton] at hnone
    rw [hnone] at hc
    cases hc

theorem start_of_bodiless {mode : BodyMode} {hmode : ∀ n, mode = .fixed n → n < wordSize}
    (h : incoming mode hmode = none) : mode.start = .fixed 0 := by
  match mode, hmode, h with
  | .none, _, _ => rfl
  | .fixed 0, _, _ => rfl

/-! ## Any body -/

/-- For every body of a connection that has returned no error before it is drained, every limit,
every point at which draining starts and whatever the driver, its transport and whoever cancels do:
`Ok` only after the whole body, with no more payload left at that point than the limit; the payload
limit is blamed only if more was left; the driver charges nothing before, no more than its budgets
after, and a charge that fails leaves them. -/
theorem drain_budgets {x : Crates} (hx : x.HeadersWithin) (cfg : ReceiveConfig) {mode : BodyMode}
    (hmode : ∀ n, mode = .fixed n → n < wordSize) (limits : DecodeLimits) {b : RecvBuffer} (hb : b.Reachable)
    (m wireAllowance : ℕ) {tr : DrainTrace W} {t : Draining W}
    (h : (drainer W x cfg m wireAllowance).Reaches (.new b mode hmode limits) tr t)
    (hio : ∀ y ∈ tr, y.1.FromIo) (hno : ∀ e, .error e ∉ results (bodyTrace tr.beforeDrain)) :
    ∃ fuel₀, ∀ fuel ≥ fuel₀, ∃ r,
      Drive.run x t.receiver.eof fuel (.start mode limits [b.bytes ++ arrivedIn tr.received]) = some r ∧
      DrainSound x cfg m wireAllowance r tr t := by
  obtain ⟨fuel₀, hfuel⟩ := Drive.run_summary hx t.receiver.eof mode limits (b.bytes ++ arrivedIn tr.received)
  refine ⟨fuel₀, fun fuel hge => ?_⟩
  obtain ⟨r, hr, hverdict, hpayload⟩ := hfuel fuel hge
  refine ⟨r, hr, ?_⟩
  have hio := fromIo_received h hio
  cases hin : incoming mode hmode with
  | none =>
    have hstart : Receiver.start (W := W) b mode hmode limits = none := by rw [Receiver.start, hin]; rfl
    rw [Draining.new, hstart] at h
    rw [start_of_bodiless hin, run_fixed_zero] at hverdict hpayload
    exact drainSound_of_bodiless h hio hverdict hpayload
  | some promise =>
    obtain ⟨size, trailers⟩ := promise
    have hstart : Receiver.start (W := W) b mode hmode limits = some (.new b mode limits size trailers) := by
      rw [Receiver.start, hin]
      rfl
    rw [Draining.new, hstart] at h
    let R : Reception := ⟨x, mode, limits, size, trailers, b.maxRetained⟩
    exact drainSound_of_driver (R := R) hx hb.sound rfl h hio hno hverdict (congrArg List.length hpayload)

/-- The byte of a body is offered when `drain` starts, and taken by it. -/
theorem drain_budgets_offered :
    ∃ (tr : DrainTrace Unit) (t : Draining Unit), (drainer Unit reference ⟨false, true, true⟩ 1 0).Reaches
        (.new ⟨.portable (.withCapacity 8), none, 8, 16⟩ (.fixed 1) (by rintro n ⟨⟩; decide) .default) tr t ∧
      t.phase = .returned (.ok ()) ∧ tr.taken = 0 ∧
      ∃ fuel₀, ∀ fuel ≥ fuel₀, ∃ r, Drive.run reference false fuel (.start (.fixed 1) .default [[1, 71]]) = some r ∧
        DrainSound reference ⟨false, true, true⟩ 1 0 r tr t := by
  let idle : DrainInput Unit := .receive (.poll ⟨(), false, false, none⟩)
  let arrive (bytes : Bytes) : DrainInput Unit :=
    .receive (.poll ⟨(), false, false, some (.portable bytes (.ok bytes.length), false)⟩)
  let b : RecvBuffer := ⟨.portable (.withCapacity 8), none, 8, 16⟩
  let inputs : List (DrainInput Unit) :=
    [idle, .receive (.body .nextFrame), .receive (.body (.pollNext ())), idle, arrive [1, 71], idle, idle, idle,
      .receive (.body .dropNext), .start false, .poll (), .poll (), idle, idle, .poll ()]
  have hb : b.Reachable := ⟨8, 16, b, [], [], rfl, .start⟩
  have hrun : (drainer Unit reference ⟨false, true, true⟩ 1 0).run
      (.new b (.fixed 1) (by rintro n ⟨⟩; decide) .default) inputs = some (_, _) := rfl
  have hreach := Machine.reaches_of_run hrun
  have hio : ∀ e ∈ inputs, e.FromIo := by
    simp [inputs, idle, arrive, DrainInput.FromIo, ReceiveInput.FromIo, Completion.error?]
  have hinputs := Machine.run_inputs hrun
  refine ⟨_, _, hreach, rfl, rfl, ?_⟩
  refine drain_budgets Reference.headersWithin _ _ .default hb 1 0 hreach (fun y hy => ?_) ?_
  · exact hio y.1 (hinputs ▸ List.mem_map_of_mem hy)
  · intro e he
    cases he

end Vakya
