import Vakya.Incoming
import Vakya.Library.Machine
import Mathlib.Algebra.GroupWithZero.Nat

/-!
# Bodies and their contract (`body.rs`)

A body is a producer that is polled for frames. Its waits may be dropped and
buffers may come back to it at any time between two waits. The contract is
about all of its runs: the order of what it returns, and what it promises at
each point about the rest.
-/

namespace Vakya

open Library

abbrev FrameResult (D E : Type) := Except E (Option (Frame D))

inductive FramePoll (D E : Type)
  | pending
  | ready (result : FrameResult D E)

/-- An implementation of the `Body` trait; `I` is what a poll reads from its environment. A body
may panic where the result is an option. -/
structure Body (I D E : Type) where
  State : Type
  asInit : D → Bytes
  /-- One poll of the wait for a frame, which starts with its first poll. -/
  nextFrame : State → I → Option (State × FramePoll D E)
  /-- A pending wait is dropped. -/
  dropNext : State → State
  sizeHint : State → Option SizeHint
  trailerHint : State → Option TrailerHint
  isEndStream : State → Bool
  recycle : State → D → State

inductive BodyEvent (I D : Type)
  | poll (input : I)
  | drop
  | recycle (data : D)

namespace Body

variable {I D E : Type} (b : Body I D E)

/-- A body under every use; the flag tells that a wait is pending, which borrows the body. -/
def machine : Machine (b.State × Bool) (BodyEvent I D) (Option (FrameResult D E)) where
  step
    | (s, _), .poll i =>
      match b.nextFrame s i with
      | none => none
      | some (s, .pending) => some ((s, true), none)
      | some (s, .ready r) => some ((s, false), some r)
    | (s, true), .drop => some ((b.dropNext s, false), none)
    | (s, false), .recycle d => some ((b.recycle s d, false), none)
    | _, _ => none

abbrev Trace (I D E : Type) := List (BodyEvent I D × Option (FrameResult D E))

end Body

inductive FrameShape
  | data (bytes : ℕ)
  | trailers
  | finished
  | failed
  deriving DecidableEq

namespace FrameShape

def isFrame : FrameShape → Bool
  | data _ => true
  | trailers => true
  | _ => false

def bytes : FrameShape → ℕ
  | data n => n
  | _ => 0

def MayPrecede : FrameShape → FrameShape → Prop
  | data _, _ => True
  | finished, y => y = finished
  | _, y => y.isFrame = false

end FrameShape

def payload (xs : List FrameShape) : ℕ := (xs.map FrameShape.bytes).sum

def InOrder (xs : List FrameShape) : Prop := xs.Pairwise FrameShape.MayPrecede

/-- What a body says at one point holds of all that follows; bounds on the payload hold if the body
ends successfully. -/
structure Promised (size : Option SizeHint) (trailers : Option TrailerHint) (ended : Bool)
    (past next : List FrameShape) : Prop where
  ended : ended = true → ∀ y ∈ next, y.isFrame = false
  trailers : trailers = some .none → .trailers ∉ next
  size : ∀ h, size = some h → .finished ∈ next → .failed ∉ past ++ next →
    h.lower ≤ payload next ∧ ∀ u ∈ h.upper, payload next ≤ u

namespace Body

variable {I D E : Type} (b : Body I D E)

def shape : FrameResult D E → FrameShape
  | .ok (some (.data d)) => .data (b.asInit d).length
  | .ok (some (.trailers _)) => .trailers
  | .ok none => .finished
  | .error _ => .failed

def shapes (tr : Trace I D E) : List FrameShape := tr.filterMap fun x => x.2.map b.shape

/-- The implementor contract, for a body in state `s₀`: of every run and every point of it between
two waits. -/
def Contract (s₀ : b.State) : Prop :=
  ∀ (tr : Trace I D E) (s : b.State) (next : Trace I D E) (t : b.State × Bool),
    b.machine.Reaches (s₀, false) tr (s, false) → b.machine.Reaches (s, false) next t →
    InOrder (b.shapes tr ++ b.shapes next) ∧
      Promised (b.sizeHint s) (b.trailerHint s) (b.isEndStream s) (b.shapes tr) (b.shapes next)

end Body

@[simp] theorem payload_nil : payload [] = 0 := rfl

@[simp] theorem payload_cons (x : FrameShape) (xs : List FrameShape) :
    payload (x :: xs) = x.bytes + payload xs := by
  simp [payload]

@[simp] theorem payload_append (xs ys : List FrameShape) :
    payload (xs ++ ys) = payload xs + payload ys := by
  simp [payload]

theorem payload_of_finished {xs : List FrameShape} (h : ∀ x ∈ xs, x = .finished) :
    payload xs = 0 := by
  induction xs with
  | nil => rfl
  | cons x xs ih =>
    rw [payload_cons, h x List.mem_cons_self, ih fun y hy => h y (List.mem_cons_of_mem _ hy)]
    rfl

namespace Body

variable {I D E : Type} {b : Body I D E}

@[simp] theorem shapes_nil : b.shapes [] = [] := rfl

@[simp] theorem shapes_append (tr tr' : Trace I D E) :
    b.shapes (tr ++ tr') = b.shapes tr ++ b.shapes tr' := by
  simp [shapes]

@[simp] theorem shapes_none (e : BodyEvent I D) : b.shapes [(e, none)] = [] := rfl

@[simp] theorem shapes_some (e : BodyEvent I D) (r : FrameResult D E) :
    b.shapes [(e, some r)] = [b.shape r] := rfl

def data? : FrameResult D E → Option D
  | .ok (some (.data d)) => some d
  | _ => none

def dataOf (tr : Trace I D E) : List D := tr.filterMap fun x => x.2.bind data?

theorem dataOf_concat (tr : Trace I D E) (e : BodyEvent I D) (o : Option (FrameResult D E)) :
    dataOf (tr ++ [(e, o)]) = dataOf tr ++ (o.bind data?).toList := by
  cases h : o.bind data? <;> simp [dataOf, h]

def results (tr : Trace I D E) : List (FrameResult D E) := tr.filterMap Prod.snd

@[simp] theorem results_concat_none (tr : Trace I D E) (e : BodyEvent I D) :
    results (tr ++ [(e, none)]) = results tr := by
  simp [results]

@[simp] theorem results_concat_some (tr : Trace I D E) (e : BodyEvent I D) (r : FrameResult D E) :
    results (tr ++ [(e, some r)]) = results tr ++ [r] := by
  simp [results]

theorem step_pending {s s' : b.State} {i : I} (w : Bool) (h : b.nextFrame s i = some (s', .pending)) :
    b.machine.step (s, w) (.poll i) = some ((s', true), none) := by
  simp only [machine, h]

theorem step_ready {s s' : b.State} {i : I} {r : FrameResult D E} (w : Bool)
    (h : b.nextFrame s i = some (s', .ready r)) :
    b.machine.step (s, w) (.poll i) = some ((s', false), some r) := by
  simp only [machine, h]

inductive Used (b : Body I D E) : b.State × Bool → BodyEvent I D → b.State × Bool →
    Option (FrameResult D E) → Prop
  | pending {s s' : b.State} {w : Bool} {i : I} (h : b.nextFrame s i = some (s', .pending)) :
      Used b (s, w) (.poll i) (s', true) none
  | ready {s s' : b.State} {w : Bool} {i : I} {r : FrameResult D E}
      (h : b.nextFrame s i = some (s', .ready r)) : Used b (s, w) (.poll i) (s', false) (some r)
  | drop (s : b.State) : Used b (s, true) .drop (b.dropNext s, false) none
  | recycle (s : b.State) (d : D) : Used b (s, false) (.recycle d) (b.recycle s d, false) none

theorem used_of_step {s s' : b.State × Bool} {e : BodyEvent I D} {o : Option (FrameResult D E)}
    (h : b.machine.step s e = some (s', o)) : Used b s e s' o := by
  obtain ⟨s, w⟩ := s
  cases e with
  | poll i =>
    simp only [machine] at h
    cases hn : b.nextFrame s i with
    | none => simp [hn] at h
    | some p =>
      obtain ⟨t, n⟩ := p
      cases n with
      | pending =>
        simp only [hn] at h
        cases h
        exact .pending hn
      | ready r =>
        simp only [hn] at h
        cases h
        exact .ready hn
  | drop =>
    cases w with
    | true =>
      cases h
      exact .drop s
    | false => cases h
  | recycle d =>
    cases w with
    | true => cases h
    | false =>
      cases h
      exact .recycle s d

end Body

end Vakya
