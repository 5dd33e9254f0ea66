import Vakya.Library.Machine

/-!
# Two machines on a link

What the left machine emits stays on the link, in order, until the right
machine absorbs it. Each machine takes its steps when it likes, and the left
end may be closed at any time: then nothing is emitted any more. A run of both
is a run of each, and nothing is lost or made up in between.
-/

namespace Library

structure Link (σ τ α : Type*) where
  left : σ
  right : τ
  inFlight : List α
  closed : Bool

inductive LinkInput (ι κ : Type*)
  | left (i : ι)
  | right (k : κ)
  | close

inductive LinkOutput (ω υ : Type*)
  | left (o : ω)
  | right (o : υ)
  | closed

section

variable {σ ι ω τ κ υ α : Type*} [DecidableEq α]

/-- `sawEnd` holds of a right machine that was told the end of the link. It is told so only once
the left end is closed and everything emitted was absorbed. -/
def link (A : Machine σ ι ω) (B : Machine τ κ υ) (emits : ω → List α) (absorbs : υ → List α)
    (sawEnd : τ → Bool) : Machine (Link σ τ α) (LinkInput ι κ) (LinkOutput ω υ) where
  step s
    | .left i =>
      if s.closed then none
      else (A.step s.left i).map fun (left, o) => ({ s with left, inFlight := s.inFlight ++ emits o }, .left o)
    | .right k =>
      match B.step s.right k with
      | none => none
      | some (right, o) =>
        let rest := s.inFlight.drop (absorbs o).length
        if (absorbs o).isPrefixOf s.inFlight && (!sawEnd right || s.closed && rest.isEmpty) then
          some ({ s with right, inFlight := rest }, .right o)
        else none
    | .close => if s.closed then none else some ({ s with closed := true }, .closed)

def LinkInput.leftStep : LinkInput ι κ × LinkOutput ω υ → Option (ι × ω)
  | (.left i, .left o) => some (i, o)
  | _ => none

def LinkInput.rightStep : LinkInput ι κ × LinkOutput ω υ → Option (κ × υ)
  | (.right k, .right o) => some (k, o)
  | _ => none

def leftTrace (tr : List (LinkInput ι κ × LinkOutput ω υ)) : List (ι × ω) := tr.filterMap LinkInput.leftStep

def rightTrace (tr : List (LinkInput ι κ × LinkOutput ω υ)) : List (κ × υ) := tr.filterMap LinkInput.rightStep

namespace Link

variable {A : Machine σ ι ω} {B : Machine τ κ υ} {emits : ω → List α} {absorbs : υ → List α}
  {sawEnd : τ → Bool} {s₀ s s' : Link σ τ α} {tr : List (LinkInput ι κ × LinkOutput ω υ)}
  {i : LinkInput ι κ} {o : LinkOutput ω υ}

@[simp] theorem leftTrace_append (tr tr' : List (LinkInput ι κ × LinkOutput ω υ)) :
    leftTrace (tr ++ tr') = leftTrace tr ++ leftTrace tr' := List.filterMap_append

@[simp] theorem rightTrace_append (tr tr' : List (LinkInput ι κ × LinkOutput ω υ)) :
    rightTrace (tr ++ tr') = rightTrace tr ++ rightTrace tr' := List.filterMap_append

@[simp] theorem leftTrace_left (i : ι) (o : ω) :
    leftTrace [((.left i, .left o) : LinkInput ι κ × LinkOutput ω υ)] = [(i, o)] := rfl

@[simp] theorem leftTrace_right (k : κ) (o : υ) :
    leftTrace [((.right k, .right o) : LinkInput ι κ × LinkOutput ω υ)] = [] := rfl

@[simp] theorem leftTrace_close : leftTrace [((.close, .closed) : LinkInput ι κ × LinkOutput ω υ)] = [] := rfl

@[simp] theorem rightTrace_left (i : ι) (o : ω) :
    rightTrace [((.left i, .left o) : LinkInput ι κ × LinkOutput ω υ)] = [] := rfl

@[simp] theorem rightTrace_right (k : κ) (o : υ) :
    rightTrace [((.right k, .right o) : LinkInput ι κ × LinkOutput ω υ)] = [(k, o)] := rfl

@[simp] theorem rightTrace_close : rightTrace [((.close, .closed) : LinkInput ι κ × LinkOutput ω υ)] = [] := rfl

theorem step_cases (h : (link A B emits absorbs sawEnd).step s i = some (s', o)) :
    (∃ j p left, i = .left j ∧ o = .left p ∧ s.closed = false ∧ A.step s.left j = some (left, p) ∧
      s' = { s with left, inFlight := s.inFlight ++ emits p }) ∨
    (∃ k q right rest, i = .right k ∧ o = .right q ∧ B.step s.right k = some (right, q) ∧
      s.inFlight = absorbs q ++ rest ∧ (sawEnd right = true → s.closed = true ∧ rest = []) ∧
      s' = { s with right, inFlight := rest }) ∨
    i = .close ∧ o = .closed ∧ s.closed = false ∧ s' = { s with closed := true } := by
  cases i with
  | left j =>
    simp only [link] at h
    split_ifs at h with hclosed
    obtain ⟨⟨left, p⟩, hA, heq⟩ := Option.map_eq_some_iff.mp h
    cases heq
    exact .inl ⟨j, p, left, rfl, rfl, by simpa using hclosed, hA, rfl⟩
  | right k =>
    simp only [link] at h
    split at h
    · cases h
    · rename_i right q hB
      split_ifs at h with hguard
      cases h
      rw [Bool.and_eq_true, List.isPrefixOf_iff_prefix] at hguard
      obtain ⟨⟨rest, hrest⟩, hend⟩ := hguard
      have hdrop : s.inFlight.drop (absorbs q).length = rest := by simp [← hrest]
      rw [hdrop] at hend
      refine .inr (.inl ⟨k, q, right, rest, rfl, rfl, hB, hrest.symm, fun hsaw => ?_, by rw [hdrop]⟩)
      simpa [hsaw] using hend
  | close =>
    simp only [link] at h
    split_ifs at h with hclosed
    cases h
    exact .inr (.inr ⟨rfl, rfl, by simpa using hclosed, rfl⟩)

theorem reaches_left (h : (link A B emits absorbs sawEnd).Reaches s₀ tr s) :
    A.Reaches s₀.left (leftTrace tr) s.left := by
  refine h.invariant (P := fun tr s => A.Reaches s₀.left (leftTrace tr) s.left) .start ?_
  intro tr s i s' o ih hs
  rw [leftTrace_append]
  rcases step_cases hs with ⟨j, p, left, rfl, rfl, -, hA, rfl⟩ | ⟨k, q, right, rest, rfl, rfl, -, -, -, rfl⟩ |
    ⟨rfl, rfl, -, rfl⟩
  · exact ih.step hA
  · simpa using ih
  · simpa using ih

theorem reaches_right (h : (link A B emits absorbs sawEnd).Reaches s₀ tr s) :
    B.Reaches s₀.right (rightTrace tr) s.right := by
  refine h.invariant (P := fun tr s => B.Reaches s₀.right (rightTrace tr) s.right) .start ?_
  intro tr s i s' o ih hs
  rw [rightTrace_append]
  rcases step_cases hs with ⟨j, p, left, rfl, rfl, -, -, rfl⟩ | ⟨k, q, right, rest, rfl, rfl, hB, -, -, rfl⟩ |
    ⟨rfl, rfl, -, rfl⟩
  · simpa using ih
  · exact ih.step hB
  · simpa using ih

/-- What was on the link and what was emitted is what was absorbed and what is still on it. -/
theorem conserved (h : (link A B emits absorbs sawEnd).Reaches s₀ tr s) :
    s₀.inFlight ++ (leftTrace tr).flatMap (fun e => emits e.2) =
      (rightTrace tr).flatMap (fun e => absorbs e.2) ++ s.inFlight := by
  refine h.invariant (P := fun tr s => s₀.inFlight ++ (leftTrace tr).flatMap (fun e => emits e.2) =
    (rightTrace tr).flatMap (fun e => absorbs e.2) ++ s.inFlight) (by simp [leftTrace, rightTrace]) ?_
  intro tr s i s' o ih hs
  rw [leftTrace_append, List.flatMap_append, ← List.append_assoc, ih]
  rcases step_cases hs with ⟨j, p, left, rfl, rfl, -, -, rfl⟩ |
    ⟨k, q, right, rest, rfl, rfl, -, hflight, -, rfl⟩ | ⟨rfl, rfl, -, rfl⟩
  · simp
  · simp [hflight]
  · simp

/-- A right machine that was told the end has absorbed everything that will ever be emitted. -/
theorem ended (h : (link A B emits absorbs sawEnd).Reaches s₀ tr s) (h0 : sawEnd s₀.right = false)
    (hsaw : sawEnd s.right = true) : s.closed = true ∧ s.inFlight = [] := by
  refine h.invariant (P := fun _ s => sawEnd s.right = true → s.closed = true ∧ s.inFlight = [])
    (by simp [h0]) ?_ hsaw
  intro tr s i s' o ih hs hsaw
  rcases step_cases hs with ⟨j, p, left, rfl, rfl, hopen, -, rfl⟩ |
    ⟨k, q, right, rest, rfl, rfl, -, -, hend, rfl⟩ | ⟨rfl, rfl, hopen, rfl⟩
  · simp [hopen] at ih
    simp [ih] at hsaw
  · exact hend hsaw
  · simp [hopen] at ih
    simp [ih] at hsaw

end Link

end

end Library
