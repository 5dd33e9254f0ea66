import Mathlib.Data.List.Basic

/-!
# Streaming transducers

A transducer reads one symbol at a time, emits output, and stops by itself when
it is complete or when a symbol is refused. Reading is prefix-deterministic:
cutting the input anywhere and resuming gives the same transcript.
-/

namespace Library

structure Transducer (α β σ ρ : Type*) where
  /-- The result of a complete state, with the symbols it gives back unread. -/
  halt : σ → Option (ρ × List α)
  /-- `none` refuses the symbol. -/
  step : σ → α → Option (σ × List β)

inductive Ending (α σ ρ : Type*)
  | more (s : σ)
  | done (r : ρ) (rest : List α)
  | failed
deriving DecidableEq

structure Transcript (α β σ ρ : Type*) where
  output : List β
  ending : Ending α σ ρ
deriving DecidableEq

namespace Transcript

variable {α β σ ρ : Type*}

def emit (out : List β) (t : Transcript α β σ ρ) : Transcript α β σ ρ :=
  { t with output := out ++ t.output }

@[simp] theorem emit_output (out : List β) (t : Transcript α β σ ρ) :
    (t.emit out).output = out ++ t.output := rfl

@[simp] theorem emit_ending (out : List β) (t : Transcript α β σ ρ) :
    (t.emit out).ending = t.ending := rfl

@[simp] theorem emit_nil (t : Transcript α β σ ρ) : t.emit [] = t := rfl

@[simp] theorem emit_emit (a b : List β) (t : Transcript α β σ ρ) :
    (t.emit b).emit a = t.emit (a ++ b) := by
  simp [emit]

end Transcript

namespace Transducer

variable {α β σ ρ : Type*} (T : Transducer α β σ ρ)

def run : σ → List α → Transcript α β σ ρ
  | s, [] =>
    match T.halt s with
    | some (r, back) => ⟨[], .done r back⟩
    | none => ⟨[], .more s⟩
  | s, x :: xs =>
    match T.halt s with
    | some (r, back) => ⟨[], .done r (back ++ x :: xs)⟩
    | none =>
      match T.step s x with
      | none => ⟨[], .failed⟩
      | some (s', out) => (run s' xs).emit out

def resume (t : Transcript α β σ ρ) (ys : List α) : Transcript α β σ ρ :=
  match t.ending with
  | .more s => (T.run s ys).emit t.output
  | .done r rest => ⟨t.output, .done r (rest ++ ys)⟩
  | .failed => t

theorem run_of_halt {s : σ} {r : ρ} {back : List α} (h : T.halt s = some (r, back))
    (xs : List α) : T.run s xs = ⟨[], .done r (back ++ xs)⟩ := by
  cases xs <;> simp [run, h]

theorem run_nil_of_running {s : σ} (h : T.halt s = none) : T.run s [] = ⟨[], .more s⟩ := by
  simp [run, h]

theorem run_cons_of_step {s s' : σ} {x : α} {out : List β} (h : T.halt s = none)
    (hs : T.step s x = some (s', out)) (xs : List α) :
    T.run s (x :: xs) = (T.run s' xs).emit out := by
  simp [run, h, hs]

theorem run_cons_of_refused {s : σ} {x : α} (h : T.halt s = none) (hs : T.step s x = none)
    (xs : List α) : T.run s (x :: xs) = ⟨[], .failed⟩ := by
  simp [run, h, hs]

theorem resume_emit (out : List β) (t : Transcript α β σ ρ) (ys : List α) :
    T.resume (t.emit out) ys = (T.resume t ys).emit out := by
  obtain ⟨o, e⟩ := t
  cases e <;> simp [resume, Transcript.emit]

/-- Reading is prefix-deterministic: the input may be cut anywhere. -/
theorem run_append (s : σ) (xs ys : List α) :
    T.run s (xs ++ ys) = T.resume (T.run s xs) ys := by
  induction xs generalizing s with
  | nil =>
    cases h : T.halt s with
    | none => simp [T.run_nil_of_running h, resume]
    | some p => simp [T.run_of_halt h, resume]
  | cons x xs ih =>
    cases h : T.halt s with
    | some p => simp [T.run_of_halt h, resume]
    | none =>
      cases hs : T.step s x with
      | none => simp [T.run_cons_of_refused h hs, resume]
      | some q =>
        rw [List.cons_append, T.run_cons_of_step h hs, T.run_cons_of_step h hs, ih,
          T.resume_emit]

/-- A run that still wants input is resumed from the state it reached. -/
theorem run_append_of_more {s s' : σ} {xs : List α} {out : List β}
    (h : T.run s xs = ⟨out, .more s'⟩) (ys : List α) :
    T.run s (xs ++ ys) = (T.run s' ys).emit out := by
  rw [run_append, h, resume]

theorem run_append_of_done {s : σ} {xs rest : List α} {out : List β} {r : ρ}
    (h : T.run s xs = ⟨out, .done r rest⟩) (ys : List α) :
    T.run s (xs ++ ys) = ⟨out, .done r (rest ++ ys)⟩ := by
  rw [run_append, h, resume]

theorem run_append_of_failed {s : σ} {xs : List α} {out : List β}
    (h : T.run s xs = ⟨out, .failed⟩) (ys : List α) :
    T.run s (xs ++ ys) = ⟨out, .failed⟩ := by
  rw [run_append, h, resume]

/-- More input only extends the output. -/
theorem output_prefix (s : σ) (xs ys : List α) :
    (T.run s xs).output <+: (T.run s (xs ++ ys)).output := by
  rw [run_append, resume]
  cases (T.run s xs).ending <;> simp

end Transducer
end Library
