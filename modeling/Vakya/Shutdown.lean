import Vakya.ClientDriver
import Vakya.Library.Machine
import Mathlib.Order.Lattice
import Mathlib.Order.MinMax
import Mathlib.Order.Defs.LinearOrder

/-!
# Shutdown requests (`connection.rs`)

Handles ask for a shutdown, the driver watches for one that has to end the
retained operations. The state is a summary of the requests made so far, in
whatever order they came, and the driver may be interrupted by a request
between any two steps of its watch.
-/

namespace Vakya

open Library

inductive Shutdown (T : Type)
  | running
  | graceful (deadline : Option T)
  | aborted
  deriving DecidableEq

inductive ControlCall (T : Type)
  | gracefulShutdown
  | gracefulShutdownWithDeadline (deadline : T)
  | abort

/-- All that changes the state: the calls, and what the driver itself does. -/
inductive ShutdownRequest (T : Type)
  | call (c : ControlCall T)
  | expiry
  | release

section Requests

variable {T : Type} [LinearOrder T]

namespace Shutdown

def toGraceful (s : Shutdown T) (requested : Option T) : Shutdown T :=
  match s with
  | .aborted => .aborted
  | .running => .graceful requested
  | .graceful deadline => .graceful <|
      match deadline, requested with
      | some old, some new => some (min old new)
      | old, new => old.or new

def apply (s : Shutdown T) : ShutdownRequest T → Shutdown T
  | .call .gracefulShutdown => s.toGraceful none
  | .call (.gracefulShutdownWithDeadline deadline) => s.toGraceful (some deadline)
  | .call .abort => .aborted
  | .expiry => .aborted
  | .release => s.toGraceful none

def after (requests : List (ShutdownRequest T)) : Shutdown T := requests.foldl apply .running

end Shutdown

namespace ShutdownRequest

def aborts : ShutdownRequest T → Bool
  | .call .abort => true
  | .expiry => true
  | _ => false

def deadline? : ShutdownRequest T → Option T
  | .call (.gracefulShutdownWithDeadline deadline) => some deadline
  | _ => none

end ShutdownRequest

def earliest (requests : List (ShutdownRequest T)) : Option T :=
  (requests.filterMap ShutdownRequest.deadline?).min?

def requestedState (requests : List (ShutdownRequest T)) : Shutdown T :=
  if requests.any ShutdownRequest.aborts then .aborted else .graceful (earliest requests)

theorem min?_concat (ds : List T) (d : T) :
    (ds ++ [d]).min? = some (ds.min?.elim d fun old => min old d) := by
  cases ds with
  | nil => rfl
  | cons e ds => simp only [List.cons_append, List.min?_cons', List.foldl_append, List.foldl_cons,
      List.foldl_nil, Option.elim_some]

theorem min?_congr {ds ds' : List T} (h : ∀ d, d ∈ ds ↔ d ∈ ds') : ds.min? = ds'.min? := by
  apply Option.ext
  intro d
  simp only [List.min?_eq_some_iff, h]

theorem earliest_le {requests : List (ShutdownRequest T)} {r : ShutdownRequest T} {d : T}
    (hr : r ∈ requests) (hd : r.deadline? = some d) : ∃ e, earliest requests = some e ∧ e ≤ d := by
  have hmem : d ∈ requests.filterMap ShutdownRequest.deadline? := List.mem_filterMap.mpr ⟨r, hr, hd⟩
  obtain ⟨e, he⟩ := Option.isSome_iff_exists.mp (List.isSome_min?_of_mem hmem)
  exact ⟨e, he, (List.min?_eq_some_iff.mp he).2 d hmem⟩

theorem earliest_concat (requests : List (ShutdownRequest T)) (r : ShutdownRequest T) :
    earliest (requests ++ [r]) =
      match r.deadline? with
      | none => earliest requests
      | some d => some ((earliest requests).elim d fun old => min old d) := by
  unfold earliest
  rw [List.filterMap_append]
  cases hd : r.deadline? with
  | none => simp [hd]
  | some d => rw [List.filterMap_cons_some hd, List.filterMap_nil, min?_concat]

theorem requestedState_concat (requests : List (ShutdownRequest T)) (r : ShutdownRequest T) :
    requestedState (requests ++ [r]) = (requestedState requests).apply r := by
  unfold requestedState
  rw [List.any_append, earliest_concat]
  by_cases habort : requests.any ShutdownRequest.aborts = true
  · rcases r with (_ | deadline | _) | _ | _ <;> simp [habort, Shutdown.apply, Shutdown.toGraceful]
  · rw [Bool.not_eq_true] at habort
    rcases r with (_ | deadline | _) | _ | _ <;>
      simp only [habort, Shutdown.apply, Shutdown.toGraceful, ShutdownRequest.aborts,
        ShutdownRequest.deadline?, List.any_cons, List.any_nil, Bool.or_false, Bool.or_true,
        Bool.false_eq_true, if_true, if_false]
    all_goals cases earliest requests <;> rfl

theorem apply_running (r : ShutdownRequest T) : Shutdown.running.apply r = requestedState [r] := by
  rcases r with (_ | deadline | _) | _ | _ <;> rfl

theorem after_concat (requests : List (ShutdownRequest T)) (r : ShutdownRequest T) :
    Shutdown.after (requests ++ [r]) = (Shutdown.after requests).apply r := by
  simp [Shutdown.after]

/-- The state is the summary of the requests. -/
theorem after_eq_requestedState {requests : List (ShutdownRequest T)} (h : requests ≠ []) :
    Shutdown.after requests = requestedState requests := by
  induction requests using List.reverseRecOn with
  | nil => exact absurd rfl h
  | append_singleton requests r ih =>
    rw [after_concat]
    by_cases hnil : requests = []
    · subst hnil
      exact apply_running r
    · rw [ih hnil, requestedState_concat]

theorem requestedState_congr {requests requests' : List (ShutdownRequest T)}
    (h : ∀ r, r ∈ requests ↔ r ∈ requests') : requestedState requests = requestedState requests' := by
  have hany : requests.any ShutdownRequest.aborts = requests'.any ShutdownRequest.aborts := by
    rw [Bool.eq_iff_iff, List.any_eq_true, List.any_eq_true]
    simp only [h]
  have hearliest : earliest requests = earliest requests' := by
    apply min?_congr
    intro d
    simp only [List.mem_filterMap, h]
  rw [requestedState, requestedState, hany, hearliest]

theorem requestedState_ne_running (requests : List (ShutdownRequest T)) :
    requestedState requests ≠ .running := by
  unfold requestedState
  split_ifs <;> simp

theorem mem_of_after_graceful {requests : List (ShutdownRequest T)} {d : T}
    (h : Shutdown.after requests = .graceful (some d)) : ∃ r ∈ requests, r.deadline? = some d := by
  have hne : requests ≠ [] := by
    rintro rfl
    cases h
  rw [after_eq_requestedState hne, requestedState] at h
  split_ifs at h
  simp only [Shutdown.graceful.injEq] at h
  exact List.mem_filterMap.mp (List.min?_mem h)

theorem mem_of_after_aborted {requests : List (ShutdownRequest T)}
    (h : Shutdown.after requests = .aborted) : ∃ r ∈ requests, r.aborts = true := by
  have hne : requests ≠ [] := by
    rintro rfl
    cases h
  rw [after_eq_requestedState hne, requestedState] at h
  split_ifs at h with hany
  exact List.any_eq_true.mp hany

end Requests

/-- Where `abort_requested` stands between two polls: at its first wait, or beside the timer of a
deadline that may have been superseded. -/
inductive AbortWait (T : Type)
  | observing
  | timing (deadline : T)

inductive DrivePhase (T : Type)
  /-- Between two polls. -/
  | idle (w : AbortWait T)
  /-- The race polls `abort_requested` first. -/
  | watching (w : AbortWait T)
  /-- The state was still the timer's deadline; the timer is polled. -/
  | armed (deadline : T)
  /-- The watch is pending, so the retained driver is polled. -/
  | driving (w : AbortWait T)
  /-- A request won the race; the retained driver settles. -/
  | settling (kind : ErrorKind)
  | finished

structure DriveState (T : Type) where
  shutdown : Shutdown T
  phase : DrivePhase T

/-- `R` is what the retained driver returns. -/
inductive DriveEvent (T R : Type)
  /-- A handle is used, between any two steps. -/
  | call (c : ControlCall T)
  | poll
  | watch
  /-- `sleep_until` is polled at a time. -/
  | timer (now : T) (ready : Bool)
  /-- The retained driver is polled. -/
  | retained (result : Option (Except Error R))
  | drop

inductive DriveOutput (R : Type)
  | nothing
  /-- The race is won by a request: the retained operations are canceled. -/
  | canceling (kind : ErrorKind)
  | returned (result : Except Error R)

section Drive

variable {T R : Type} [LinearOrder T]

/-- What `drive` makes of the retained driver's result once a request won. -/
def settleDrive (kind : ErrorKind) : Except Error R → Except Error R
  | .error e => if e.isCanceled then .error (shutdownError kind) else .error e
  | .ok _ => .error (shutdownError kind)

namespace DriveState

/-- Control is with `drive`; its guard releases when it ends. -/
def finish (s : DriveState T) : DriveState T := ⟨s.shutdown.apply .release, .finished⟩

def watchStep (s : DriveState T) : AbortWait T → DriveState T × DriveOutput R
  | .observing =>
    match s.shutdown with
    | .aborted => ({ s with phase := .settling .canceled }, .canceling .canceled)
    | .graceful (some deadline) => ({ s with phase := .watching (.timing deadline) }, .nothing)
    | .running | .graceful none => ({ s with phase := .driving .observing }, .nothing)
  | .timing deadline =>
    if s.shutdown = .graceful (some deadline) then ({ s with phase := .armed deadline }, .nothing)
    else ({ s with phase := .watching .observing }, .nothing)

def timerStep (s : DriveState T) (deadline now : T) (ready : Bool) :
    Option (DriveState T × DriveOutput R) :=
  if ready then
    if deadline ≤ now then
      some (⟨s.shutdown.apply .expiry, .settling .timeout⟩, .canceling .timeout)
    else none
  else some ({ s with phase := .driving (.timing deadline) }, .nothing)

def step (s : DriveState T) : DriveEvent T R → Option (DriveState T × DriveOutput R)
  | .call c => some ({ s with shutdown := s.shutdown.apply (.call c) }, .nothing)
  | .poll =>
    match s.phase with
    | .idle w => some ({ s with phase := .watching w }, .nothing)
    | _ => none
  | .watch =>
    match s.phase with
    | .watching w => some (s.watchStep w)
    | _ => none
  | .timer now ready =>
    match s.phase with
    | .armed deadline => s.timerStep deadline now ready
    | _ => none
  | .retained result =>
    match s.phase, result with
    | .driving w, none => some ({ s with phase := .idle w }, .nothing)
    | .driving _, some r => some (s.finish, .returned r)
    | .settling _, none => some (s, .nothing)
    | .settling kind, some r => some (s.finish, .returned (settleDrive kind r))
    | _, _ => none
  | .drop =>
    match s.phase with
    | .finished => none
    | _ => some (s.finish, .nothing)

def start : DriveState T := ⟨.running, .idle .observing⟩

end DriveState

variable (T R) in
def ConnectionControl.drive : Machine (DriveState T) (DriveEvent T R) (DriveOutput R) := ⟨DriveState.step⟩

def DriveEvent.request? : DriveEvent T R → Option (ShutdownRequest T)
  | .call c => some (.call c)
  | .timer _ true => some .expiry
  | .retained (some _) => some .release
  | .drop => some .release
  | _ => none

def requestsOf (tr : List (DriveEvent T R × DriveOutput R)) : List (ShutdownRequest T) :=
  tr.filterMap fun x => x.1.request?

namespace DrivePhase

def isRacing : DrivePhase T → Bool
  | .settling _ => false
  | .finished => false
  | _ => true

def deadline? : DrivePhase T → Option T
  | .idle (.timing d) => some d
  | .watching (.timing d) => some d
  | .armed d => some d
  | .driving (.timing d) => some d
  | _ => none

end DrivePhase

/-- Everything that a step of `drive` can do. -/
inductive Moved (s : DriveState T) : DriveEvent T R → DriveState T → DriveOutput R → Prop
  | call (c : ControlCall T) :
      Moved s (.call c) { s with shutdown := s.shutdown.apply (.call c) } .nothing
  /-- Only the phase changes; the watch learns of a deadline from the state alone. -/
  | moved {e : DriveEvent T R} (p : DrivePhase T) (he : e.request? = none)
      (hrace : p.isRacing = true → s.phase.isRacing = true)
      (hdead : ∀ d, p.deadline? = some d →
        s.phase.deadline? = some d ∨ s.shutdown = .graceful (some d))
      (hsettle : ∀ kind, p = .settling kind → s.phase = .settling kind) :
      Moved s e { s with phase := p } .nothing
  | aborted {e : DriveEvent T R} (he : e.request? = none) (hrace : s.phase.isRacing = true)
      (hsh : s.shutdown = .aborted) :
      Moved s e ⟨s.shutdown, .settling .canceled⟩ (.canceling .canceled)
  | expired (now d : T) (hp : s.phase = .armed d) (hnow : d ≤ now) :
      Moved s (.timer now true) ⟨s.shutdown.apply .expiry, .settling .timeout⟩ (.canceling .timeout)
  | returned (r : Except Error R) (hrace : s.phase.isRacing = true) :
      Moved s (.retained (some r)) s.finish (.returned r)
  | settled (r : Except Error R) (kind : ErrorKind) (hp : s.phase = .settling kind) :
      Moved s (.retained (some r)) s.finish (.returned (settleDrive kind r))
  | dropped : Moved s .drop s.finish .nothing

theorem moved_of_watchStep {sh : Shutdown T} {w : AbortWait T} {s' : DriveState T}
    {o : DriveOutput R} (hs : DriveState.watchStep ⟨sh, .watching w⟩ w = (s', o)) :
    Moved ⟨sh, .watching w⟩ .watch s' o := by
  cases w with
  | observing =>
    cases sh with
    | running =>
      cases hs
      exact .moved _ rfl id (by simp [DrivePhase.deadline?]) (by simp)
    | graceful deadline =>
      cases deadline with
      | none =>
        cases hs
        exact .moved _ rfl id (by simp [DrivePhase.deadline?]) (by simp)
      | some deadline =>
        cases hs
        exact .moved _ rfl id (by simp [DrivePhase.deadline?]) (by simp)
    | aborted =>
      cases hs
      exact .aborted rfl rfl rfl
  | timing deadline =>
    unfold DriveState.watchStep at hs
    simp only at hs
    split_ifs at hs with hsame
    · cases hs
      exact .moved _ rfl (fun _ => rfl) (by simp [DrivePhase.deadline?, hsame]) (by simp)
    · cases hs
      exact .moved _ rfl id (by simp [DrivePhase.deadline?]) (by simp)

theorem moved_of_step {s s' : DriveState T} {e : DriveEvent T R} {o : DriveOutput R}
    (hs : (ConnectionControl.drive T R).step s e = some (s', o)) : Moved s e s' o := by
  obtain ⟨sh, phase⟩ := s
  cases e with
  | call c =>
    cases hs
    exact .call c
  | poll =>
    cases phase with
    | idle w =>
      cases hs
      exact .moved _ rfl id (fun d hd => .inl (by cases w <;> exact hd)) (by simp)
    | _ => cases hs
  | watch =>
    cases phase with
    | watching w => exact moved_of_watchStep (Option.some.inj hs)
    | _ => cases hs
  | timer now ready =>
    cases phase with
    | armed deadline =>
      have hs : DriveState.timerStep ⟨sh, .armed deadline⟩ deadline now ready = some (s', o) := hs
      unfold DriveState.timerStep at hs
      cases ready with
      | true =>
        simp only [if_true] at hs
        split_ifs at hs with hnow
        cases hs
        exact .expired now deadline rfl hnow
      | false =>
        cases hs
        exact .moved _ rfl id (by simp [DrivePhase.deadline?]) (by simp)
    | _ => cases hs
  | retained result =>
    cases phase with
    | driving w =>
      cases result with
      | none =>
        cases hs
        exact .moved _ rfl id (fun d hd => .inl (by cases w <;> exact hd)) (by simp)
      | some r =>
        cases hs
        exact .returned r rfl
    | settling kind =>
      cases result with
      | none =>
        cases hs
        exact .moved _ rfl id (fun d hd => .inl hd) (fun _ hk => hk)
      | some r =>
        cases hs
        exact .settled r kind rfl
    | _ => cases result <;> cases hs
  | drop =>
    cases phase with
    | finished => cases hs
    | _ =>
      cases hs
      exact .dropped

section Requests

variable {tr : List (DriveEvent T R × DriveOutput R)} {e : DriveEvent T R} {o : DriveOutput R}

omit [LinearOrder T] in
theorem requestsOf_concat_none (h : e.request? = none) :
    requestsOf (tr ++ [(e, o)]) = requestsOf tr := by
  simp [requestsOf, h]

omit [LinearOrder T] in
theorem requestsOf_concat_some {r : ShutdownRequest T} (h : e.request? = some r) :
    requestsOf (tr ++ [(e, o)]) = requestsOf tr ++ [r] := by
  simp [requestsOf, h]

end Requests

/-- What a run of `drive` knows of its requests. -/
structure Watched (tr : List (DriveEvent T R × DriveOutput R)) (s : DriveState T) : Prop where
  shutdown : s.shutdown = Shutdown.after (requestsOf tr)
  racing : s.phase.isRacing = true →
    (∀ r ∈ requestsOf tr, r.aborts = true → r = .call .abort) ∧
      ∀ x ∈ tr, ∀ kind, x.2 ≠ .canceling kind
  deadline : ∀ d, s.phase.deadline? = some d → ∃ r ∈ requestsOf tr, r.deadline? = some d
  settling : ∀ kind, s.phase = .settling kind → ∃ x ∈ tr, x.2 = .canceling kind

namespace Watched

variable {tr : List (DriveEvent T R × DriveOutput R)} {s : DriveState T} {e : DriveEvent T R}

theorem start : Watched ([] : List (DriveEvent T R × DriveOutput R)) DriveState.start where
  shutdown := rfl
  racing _ := ⟨by simp [requestsOf], by simp⟩
  deadline d h := by cases h
  settling kind h := by cases h

theorem call (h : Watched tr s) (c : ControlCall T) :
    Watched (tr ++ [(.call c, .nothing)]) { s with shutdown := s.shutdown.apply (.call c) } where
  shutdown := by
    rw [requestsOf_concat_some rfl, after_concat, ← h.shutdown]
  racing hr := by
    obtain ⟨hreq, hout⟩ := h.racing hr
    rw [requestsOf_concat_some rfl]
    constructor
    · intro r hmem habort
      rcases List.mem_append.mp hmem with hmem | hmem
      · exact hreq r hmem habort
      · obtain rfl := List.mem_singleton.mp hmem
        cases c <;> first | rfl | cases habort
    · intro x hx
      rcases List.mem_append.mp hx with hx | hx
      · exact hout x hx
      · obtain rfl := List.mem_singleton.mp hx
        simp
  deadline d hd := by
    obtain ⟨r, hr, hrd⟩ := h.deadline d hd
    rw [requestsOf_concat_some rfl]
    exact ⟨r, List.mem_append_left _ hr, hrd⟩
  settling kind hk := by
    obtain ⟨x, hx, hxk⟩ := h.settling kind hk
    exact ⟨x, List.mem_append_left _ hx, hxk⟩

theorem move (h : Watched tr s) (he : e.request? = none) (p : DrivePhase T)
    (hrace : p.isRacing = true → s.phase.isRacing = true)
    (hdead : ∀ d, p.deadline? = some d →
      s.phase.deadline? = some d ∨ s.shutdown = .graceful (some d))
    (hsettle : ∀ kind, p = .settling kind → s.phase = .settling kind) :
    Watched (tr ++ [(e, .nothing)]) { s with phase := p } where
  shutdown := by
    rw [requestsOf_concat_none he, ← h.shutdown]
  racing hr := by
    obtain ⟨hreq, hout⟩ := h.racing (hrace hr)
    rw [requestsOf_concat_none he]
    refine ⟨hreq, fun x hx => ?_⟩
    rcases List.mem_append.mp hx with hx | hx
    · exact hout x hx
    · obtain rfl := List.mem_singleton.mp hx
      simp
  deadline d hd := by
    rw [requestsOf_concat_none he]
    rcases hdead d hd with hold | hgraceful
    · exact h.deadline d hold
    · exact mem_of_after_graceful (h.shutdown.symm.trans hgraceful)
  settling kind hk := by
    obtain ⟨x, hx, hxk⟩ := h.settling kind (hsettle kind hk)
    exact ⟨x, List.mem_append_left _ hx, hxk⟩

theorem cancel {kind : ErrorKind} {sh : Shutdown T}
    (hsh : sh = Shutdown.after (requestsOf (tr ++ [(e, .canceling kind)]))) :
    Watched (tr ++ [(e, .canceling kind)]) ⟨sh, .settling kind⟩ where
  shutdown := hsh
  racing hr := by cases hr
  deadline d hd := by cases hd
  settling kind' hk := by
    cases hk
    exact ⟨_, List.mem_append_right _ (List.mem_singleton_self _), rfl⟩

theorem finish (h : Watched tr s) (he : e.request? = some .release) (o : DriveOutput R) :
    Watched (tr ++ [(e, o)]) s.finish where
  shutdown := by
    rw [requestsOf_concat_some he, after_concat, ← h.shutdown]
    rfl
  racing hr := by cases hr
  deadline d hd := by cases hd
  settling kind hk := by cases hk

theorem step (h : Watched tr s) {s' : DriveState T} {o : DriveOutput R}
    (hs : (ConnectionControl.drive T R).step s e = some (s', o)) : Watched (tr ++ [(e, o)]) s' := by
  cases moved_of_step hs with
  | call c => exact h.call c
  | moved p he hrace hdead hsettle => exact h.move he p hrace hdead hsettle
  | aborted he => exact Watched.cancel (by rw [requestsOf_concat_none he, ← h.shutdown])
  | expired now d =>
    exact Watched.cancel (by rw [requestsOf_concat_some rfl, after_concat, ← h.shutdown])
  | returned r => exact h.finish rfl _
  | settled r kind => exact h.finish rfl _
  | dropped => exact h.finish rfl _

end Watched

theorem watched_of_reaches {tr : List (DriveEvent T R × DriveOutput R)} {s : DriveState T}
    (h : (ConnectionControl.drive T R).Reaches DriveState.start tr s) : Watched tr s :=
  h.invariant Watched.start fun _ _ _ _ _ hw hs => hw.step hs

theorem canceling_due {tr : List (DriveEvent T R × DriveOutput R)} {s s' : DriveState T}
    {e : DriveEvent T R} {kind : ErrorKind} (h : Watched tr s)
    (hs : (ConnectionControl.drive T R).step s e = some (s', .canceling kind)) :
    (kind = .timeout ∧ ∃ now d, e = .timer now true ∧ earliest (requestsOf tr) = some d ∧ d ≤ now) ∨
      (kind = .canceled ∧ ShutdownRequest.call ControlCall.abort ∈ requestsOf tr) := by
  cases moved_of_step hs with
  | aborted he hrace hsh =>
    obtain ⟨r, hr, habort⟩ := mem_of_after_aborted (h.shutdown.symm.trans hsh)
    exact .inr ⟨rfl, (h.racing hrace).1 r hr habort ▸ hr⟩
  | expired now d hp hnow =>
    -- An earlier deadline may have been asked for since the timer was armed.
    obtain ⟨r, hr, hd⟩ := h.deadline d (by rw [hp]; rfl)
    obtain ⟨d', he, hle⟩ := earliest_le hr hd
    exact .inl ⟨rfl, now, d', rfl, he, hle.trans hnow⟩

/-- What `drive` returns is the retained driver's result, or what a request that won the race has
made of it. -/
theorem returned_from {tr : List (DriveEvent T R × DriveOutput R)} {s s' : DriveState T}
    {e : DriveEvent T R} {result : Except Error R} (h : Watched tr s)
    (hs : (ConnectionControl.drive T R).step s e = some (s', .returned result)) :
    ∃ r, e = .retained (some r) ∧
      ((result = r ∧ ∀ x ∈ tr, ∀ kind, x.2 ≠ .canceling kind) ∨
        ∃ kind, result = settleDrive kind r ∧ ∃ x ∈ tr, x.2 = .canceling kind) := by
  cases moved_of_step hs with
  | returned r hrace => exact ⟨_, rfl, .inl ⟨rfl, (h.racing hrace).2⟩⟩
  | settled r kind hp => exact ⟨r, rfl, .inr ⟨kind, rfl, h.settling kind hp⟩⟩

theorem settleDrive_error {kind : ErrorKind} {e : Error} (h : e.isCanceled = false) :
    settleDrive (R := R) kind (.error e) = .error e := by
  simp [settleDrive, h]

theorem settleDrive_ne_ok (kind : ErrorKind) (r : Except Error R) (v : R) :
    settleDrive kind r ≠ .ok v := by
  cases r with
  | ok v' => simp [settleDrive]
  | error e => cases hc : e.isCanceled <;> simp [settleDrive, hc]

end Drive

/-- The driver's own model of `drive` replaces results in the same way. -/
theorem ClientDriver.drive_eq_settleDrive (kind : ErrorKind) (r : Except Error ConnectionOutcome) :
    ClientDriver.drive (some kind) r = settleDrive kind r := by
  cases r <;> rfl

/-- Shutdown requests form a monotone state that does not depend on their order, and the driver
gives way to a request only once it is due, keeping every error but a cancellation. -/
theorem shutdown_requests {T R : Type} [LinearOrder T] :
    (∀ requests : List (ShutdownRequest T), requests ≠ [] →
      Shutdown.after requests =
        (if requests.any ShutdownRequest.aborts then .aborted else .graceful (earliest requests)) ∧
      Shutdown.after requests ≠ .running ∧
      ∀ requests', (∀ r, r ∈ requests ↔ r ∈ requests') →
        Shutdown.after requests' = Shutdown.after requests) ∧
    ∀ (tr : List (DriveEvent T R × DriveOutput R)) (s : DriveState T),
      (ConnectionControl.drive T R).Reaches DriveState.start tr s →
      s.shutdown = Shutdown.after (requestsOf tr) ∧
      (∀ before e kind later, tr = before ++ (e, .canceling kind) :: later →
        (kind = .timeout ∧
          ∃ now d, e = .timer now true ∧ earliest (requestsOf before) = some d ∧ d ≤ now) ∨
        (kind = .canceled ∧ .call .abort ∈ requestsOf before)) ∧
      ∀ before e result later, tr = before ++ (e, .returned result) :: later →
        ∃ r, e = .retained (some r) ∧
          ((result = r ∧ ∀ x ∈ before, ∀ kind, x.2 ≠ .canceling kind) ∨
            ∃ kind, (∃ x ∈ before, x.2 = .canceling kind) ∧ (∀ v, result ≠ .ok v) ∧
              (∀ err, r = .error err → err.isCanceled = false → result = .error err) ∧
              ((∀ err, r = .error err → err.isCanceled = true) →
                result = .error (shutdownError kind))) := by
  constructor
  · intro requests hne
    rw [after_eq_requestedState hne]
    refine ⟨rfl, requestedState_ne_running requests, fun requests' hmem => ?_⟩
    have hne' : requests' ≠ [] := by
      obtain ⟨r, hr⟩ := List.exists_mem_of_ne_nil requests hne
      exact List.ne_nil_of_mem ((hmem r).mp hr)
    rw [after_eq_requestedState hne', requestedState_congr hmem]
  · intro tr s h
    refine ⟨(watched_of_reaches h).shutdown, ?_, ?_⟩
    · rintro before e kind later rfl
      obtain ⟨t, u, hbefore, hs, -⟩ := h.step_at
      exact canceling_due (watched_of_reaches hbefore) hs
    · rintro before e result later rfl
      obtain ⟨t, u, hbefore, hs, -⟩ := h.step_at
      obtain ⟨r, he, hfrom⟩ := returned_from (watched_of_reaches hbefore) hs
      refine ⟨r, he, hfrom.imp_right ?_⟩
      rintro ⟨kind, rfl, hx⟩
      refine ⟨kind, hx, settleDrive_ne_ok kind r, ?_, ?_⟩
      · rintro err rfl hc
        exact settleDrive_error hc
      · intro hc
        cases r with
        | ok v => rfl
        | error err => simp [settleDrive, hc err rfl]

/-- A deadline of 5 is armed, and it has passed at 7; the retained driver then settles as canceled. -/
theorem shutdown_requests_expired :
    ∃ tr s, (ConnectionControl.drive ℕ Unit).Reaches DriveState.start tr s ∧
      tr.map Prod.snd = [.nothing, .nothing, .nothing, .nothing, .canceling .timeout, .nothing,
        .returned (.error (shutdownError .timeout))] ∧
      s.shutdown = Shutdown.after (requestsOf tr) ∧ s.shutdown = .aborted ∧
      ∃ now d, tr[4]?.map Prod.fst = some (.timer now true) ∧ earliest (requestsOf (tr.take 4)) = some d ∧ d ≤ now := by
  let canceled : Error := .new .canceled "operation canceled"
  have hrun : (ConnectionControl.drive ℕ Unit).run DriveState.start
      [.call (.gracefulShutdownWithDeadline 5), .poll, .watch, .watch, .timer 7 true, .retained none,
        .retained (some (.error canceled))] = some (_, _) := rfl
  have hreach := Machine.reaches_of_run hrun
  obtain ⟨hstate, hcanceling, -⟩ := shutdown_requests.2 _ _ hreach
  refine ⟨_, _, hreach, rfl, hstate, rfl, ?_⟩
  rcases hcanceling [(.call (.gracefulShutdownWithDeadline 5), .nothing), (.poll, .nothing), (.watch, .nothing),
    (.watch, .nothing)] _ _ _ rfl with ⟨-, now, d, hnow, hearliest, hle⟩ | ⟨hkind, -⟩
  · exact ⟨now, d, by rw [← hnow]; rfl, hearliest, hle⟩
  · cases hkind

end Vakya
