import Mathlib.Data.List.Induction

/-!
# Labelled machines and their traces

A machine is a deterministic step function that refuses an input which is not
permitted in the current state. A trace lists the inputs of a run together with
what each of them returned, so a statement about every interleaving is a
statement about every trace, and it is proved by one step lemma.
-/

namespace Library

structure Machine (σ ι ω : Type*) where
  /-- `none` when the input is not permitted in this state. -/
  step : σ → ι → Option (σ × ω)

namespace Machine

variable {σ ι ω : Type*} (M : Machine σ ι ω)

/-- `Reaches M s₀ tr s`: the permitted run from `s₀` with trace `tr` ends in `s`. -/
inductive Reaches (s₀ : σ) : List (ι × ω) → σ → Prop
  | start : Reaches s₀ [] s₀
  | step {tr : List (ι × ω)} {s s' : σ} {i : ι} {o : ω} :
      Reaches s₀ tr s → M.step s i = some (s', o) → Reaches s₀ (tr ++ [(i, o)]) s'

def run (s : σ) : List ι → Option (List (ι × ω) × σ)
  | [] => some ([], s)
  | i :: is =>
    match M.step s i with
    | none => none
    | some (s', o) =>
      match run s' is with
      | none => none
      | some (tr, t) => some ((i, o) :: tr, t)

variable {M}

theorem Reaches.trans {s₀ s t : σ} {tr tr' : List (ι × ω)}
    (h : M.Reaches s₀ tr s) (h' : M.Reaches s tr' t) : M.Reaches s₀ (tr ++ tr') t := by
  induction h' with
  | start => simpa using h
  | step _ hs ih =>
    rw [← List.append_assoc]
    exact ih.step hs

theorem reaches_of_run {s t : σ} {is : List ι} {tr : List (ι × ω)}
    (h : M.run s is = some (tr, t)) : M.Reaches s tr t := by
  induction is generalizing s tr with
  | nil =>
    simp only [run, Option.some.injEq, Prod.mk.injEq] at h
    obtain ⟨rfl, rfl⟩ := h
    exact .start
  | cons i is ih =>
    simp only [run] at h
    cases hs : M.step s i with
    | none => simp [hs] at h
    | some p =>
      obtain ⟨s', o⟩ := p
      cases hr : M.run s' is with
      | none => simp [hs, hr] at h
      | some q =>
        obtain ⟨tr', t'⟩ := q
        simp only [hs, hr, Option.some.injEq, Prod.mk.injEq] at h
        obtain ⟨rfl, rfl⟩ := h
        have h1 : M.Reaches s [(i, o)] s' := Reaches.step .start hs
        exact h1.trans (ih hr)

theorem run_inputs {s t : σ} {is : List ι} {tr : List (ι × ω)} (h : M.run s is = some (tr, t)) :
    tr.map Prod.fst = is := by
  induction is generalizing s tr with
  | nil =>
    simp only [run, Option.some.injEq, Prod.mk.injEq] at h
    simp [← h.1]
  | cons i is ih =>
    simp only [run] at h
    split at h
    · cases h
    · split at h
      · cases h
      · rename_i hr
        cases h
        simp [ih hr]

theorem reaches_single {s t : σ} {i : ι} {o : ω} (h : M.step s i = some (t, o)) :
    M.Reaches s [(i, o)] t :=
  Reaches.step .start h

theorem step_of_reaches_single {s t : σ} {x : ι × ω} (h : M.Reaches s [x] t) :
    M.step s x.1 = some (t, x.2) := by
  generalize heq : [x] = tr at h
  cases h with
  | start => cases heq
  | @step tr s' _ i o hprev hs =>
    rw [← List.nil_append [x]] at heq
    obtain ⟨htr, hx⟩ := List.append_inj' heq rfl
    subst htr
    cases hx
    generalize hnil : ([] : List (ι × ω)) = tr at hprev
    cases hprev with
    | start => exact hs
    | step => simp at hnil

/-- A run can be cut at any point of its trace. -/
theorem Reaches.split {s₀ s : σ} {tr tr' : List (ι × ω)} (h : M.Reaches s₀ (tr ++ tr') s) :
    ∃ t, M.Reaches s₀ tr t ∧ M.Reaches t tr' s := by
  induction tr' using List.reverseRecOn generalizing s with
  | nil => exact ⟨s, by simpa using h, .start⟩
  | append_singleton tr' x ih =>
    rw [← List.append_assoc] at h
    generalize heq : tr ++ tr' ++ [x] = full at h
    cases h with
    | start => simp at heq
    | step hprev hs =>
      obtain ⟨rfl, hx⟩ := List.append_inj' heq rfl
      simp only [List.cons.injEq, and_true] at hx
      subst hx
      obtain ⟨t, h1, h2⟩ := ih hprev
      exact ⟨t, h1, h2.step hs⟩

theorem Reaches.step_at {s₀ s : σ} {before after : List (ι × ω)} {x : ι × ω}
    (h : M.Reaches s₀ (before ++ x :: after) s) :
    ∃ t u, M.Reaches s₀ before t ∧ M.step t x.1 = some (u, x.2) ∧ M.Reaches u after s := by
  rw [List.append_cons] at h
  obtain ⟨u, hx, hafter⟩ := h.split
  obtain ⟨t, hbefore, hsingle⟩ := hx.split
  exact ⟨t, u, hbefore, step_of_reaches_single hsingle, hafter⟩

/-- The invariant rule: what holds initially and survives every permitted step
holds along every trace. -/
theorem Reaches.invariant {s₀ s : σ} {tr : List (ι × ω)} {P : List (ι × ω) → σ → Prop}
    (h : M.Reaches s₀ tr s) (h0 : P [] s₀)
    (hstep : ∀ tr s i s' o, P tr s → M.step s i = some (s', o) → P (tr ++ [(i, o)]) s') :
    P tr s := by
  induction h with
  | start => exact h0
  | step _ hs ih => exact hstep _ _ _ _ _ ih hs

/-- The simulation rule: if every permitted step from a state with `I` keeps `I` and is, seen
through `f` and `g`, a step of `N` on the same input, then so is every run. -/
theorem Reaches.simulates {τ ω' : Type*} {N : Machine τ ι ω'} (f : σ → τ) (g : ω → ω')
    {I : σ → Prop} {s₀ s : σ} {tr : List (ι × ω)} (h : M.Reaches s₀ tr s) (h0 : I s₀)
    (hstep : ∀ s i s' o, I s → M.step s i = some (s', o) →
      I s' ∧ N.step (f s) i = some (f s', g o)) :
    I s ∧ N.Reaches (f s₀) (tr.map (Prod.map id g)) (f s) := by
  refine h.invariant (P := fun tr s => I s ∧ N.Reaches (f s₀) (tr.map (Prod.map id g)) (f s))
    ⟨h0, .start⟩ ?_
  rintro tr s i s' o ⟨hI, hN⟩ hs
  obtain ⟨hI', hs'⟩ := hstep s i s' o hI hs
  rw [List.map_append]
  exact ⟨hI', hN.step hs'⟩

/-- The component rule: if every permitted step of `M` is, seen through `f` and `g`, a run of `N`,
then so is every run of `M`. -/
theorem Reaches.component {τ κ π : Type*} {N : Machine τ κ π} (f : σ → τ) (g : ι × ω → List (κ × π)) {s₀ s : σ}
    {tr : List (ι × ω)} (h : M.Reaches s₀ tr s)
    (hstep : ∀ s i s' o, M.step s i = some (s', o) → N.Reaches (f s) (g (i, o)) (f s')) :
    N.Reaches (f s₀) (tr.flatMap g) (f s) := by
  apply h.invariant (P := fun tr s => N.Reaches (f s₀) (tr.flatMap g) (f s))
  · exact .start
  · intro tr s i s' o hN hs
    rw [List.flatMap_append, List.flatMap_singleton]
    exact hN.trans (hstep s i s' o hs)

/-- The until rule: if every step with an input in `Q` keeps `P` or shows `R`, then a run of such
inputs from a state with `P` ends with `P` or has shown `R` on the way. -/
theorem Reaches.until {I P : σ → Prop} {Q : ι → Prop} {R : ι × ω → Prop} {s₀ s : σ}
    {tr : List (ι × ω)} (h : M.Reaches s₀ tr s) (hI : I s₀) (hP : P s₀) (hQ : ∀ x ∈ tr, Q x.1)
    (hinv : ∀ s i s' o, I s → M.step s i = some (s', o) → I s')
    (hstep : ∀ s i s' o, I s → P s → Q i → M.step s i = some (s', o) → P s' ∨ R (i, o)) :
    P s ∨ ∃ x ∈ tr, R x := by
  suffices I s ∧ (P s ∨ ∃ x ∈ tr, R x) from this.2
  induction h with
  | start => exact ⟨hI, .inl hP⟩
  | @step tr s s' i o _ hs ih =>
    obtain ⟨hIs, hPs⟩ := ih fun x hx => hQ x (List.mem_append_left _ hx)
    refine ⟨hinv _ _ _ _ hIs hs, ?_⟩
    rcases hPs with hPs | ⟨x, hx, hR⟩
    · apply (hstep _ _ _ _ hIs hPs (hQ (i, o) (by simp)) hs).imp_right
      exact fun hR => ⟨(i, o), by simp, hR⟩
    · exact .inr ⟨x, List.mem_append_left _ hx, hR⟩

end Machine

/-- Some entry satisfies `ψ`, given what came before it, and every entry since satisfies `φ`. -/
def Since {α : Type*} (φ : α → Prop) (ψ : List α → α → Prop) (tr : List α) : Prop :=
  ∃ before x after, tr = before ++ x :: after ∧ ψ before x ∧ ∀ y ∈ after, φ y

section Since

variable {α : Type*} {φ : α → Prop} {ψ : List α → α → Prop} {tr : List α}

theorem since_now {x : α} (h : ψ tr x) : Since φ ψ (tr ++ [x]) :=
  ⟨tr, x, [], rfl, h, by simp⟩

theorem Since.later {y : α} (h : Since φ ψ tr) (hy : φ y) : Since φ ψ (tr ++ [y]) := by
  obtain ⟨before, x, after, rfl, hx, hafter⟩ := h
  refine ⟨before, x, after ++ [y], by simp, hx, fun z hz => ?_⟩
  rcases List.mem_append.mp hz with hz | hz
  · exact hafter z hz
  · rw [List.mem_singleton] at hz
    exact hz ▸ hy

end Since

end Library
