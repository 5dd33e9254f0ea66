import Mathlib.Data.List.Basic
import Mathlib.Data.List.Infix

/-!
# Self-delimiting messages

A reader takes messages off a stream one after the other. Where a message ends is visible in the
message itself, so no whole message begins another one, and two readers of one stream agree on
every message that both have read, however far each of them is.
-/

namespace Library

variable {σ α β : Type*}

/-- `whole`: the text is exactly one message. `accept`: what a reader in a given state makes of it. -/
structure MessageReader (σ α β : Type*) where
  whole : List α → Prop
  accept : σ → List α → Option (β × σ)
  unambiguous : ∀ text text', whole text → whole text' → text <+: text' → text = text'

namespace MessageReader

variable {R : MessageReader σ α β}

/-- `Reads s text ms s'`: `text` is the messages `ms`, which take the reader from `s` to `s'`. -/
inductive Reads (R : MessageReader σ α β) : σ → List α → List β → σ → Prop
  | nothing {s : σ} : Reads R s [] [] s
  | message {s s' s'' : σ} {text rest : List α} {m : β} {ms : List β} :
      R.whole text → R.accept s text = some (m, s') → Reads R s' rest ms s'' →
      Reads R s (text ++ rest) (m :: ms) s''

theorem Reads.trans {s s' s'' : σ} {text text' : List α} {ms ms' : List β} (h : R.Reads s text ms s')
    (h' : R.Reads s' text' ms' s'') : R.Reads s (text ++ text') (ms ++ ms') s'' := by
  induction h with
  | nothing => exact h'
  | message hwhole haccept _ ih =>
    rw [List.append_assoc]
    exact .message hwhole haccept (ih h')

theorem Reads.more {s s' s'' : σ} {text next : List α} {ms : List β} {m : β} (h : R.Reads s text ms s')
    (hwhole : R.whole next) (haccept : R.accept s' next = some (m, s'')) :
    R.Reads s (text ++ next) (ms ++ [m]) s'' := by
  have hlast : R.Reads s' (next ++ []) [m] s'' := .message hwhole haccept .nothing
  rw [List.append_nil] at hlast
  exact h.trans hlast

theorem whole_unique {text text' stream : List α} (h : R.whole text) (h' : R.whole text')
    (hpre : text <+: stream) (hpre' : text' <+: stream) : text = text' := by
  rcases List.prefix_or_prefix_of_prefix hpre hpre' with hle | hle
  · exact R.unambiguous text text' h h' hle
  · exact (R.unambiguous text' text h' h hle).symm

/-- Of two readers of one stream one has read what the other has read, and went on from there. -/
theorem Reads.comparable {s s₁ s₂ : σ} {text₁ text₂ stream : List α} {ms₁ ms₂ : List β}
    (h₁ : R.Reads s text₁ ms₁ s₁) (h₂ : R.Reads s text₂ ms₂ s₂) (hpre₁ : text₁ <+: stream)
    (hpre₂ : text₂ <+: stream) :
    (∃ rest more, text₂ = text₁ ++ rest ∧ ms₂ = ms₁ ++ more ∧ R.Reads s₁ rest more s₂) ∨
      ∃ rest more, text₁ = text₂ ++ rest ∧ ms₁ = ms₂ ++ more ∧ R.Reads s₂ rest more s₁ := by
  induction h₁ generalizing text₂ ms₂ stream with
  | nothing => exact .inl ⟨text₂, ms₂, rfl, rfl, h₂⟩
  | @message s s' s₁ text rest m ms hwhole haccept hrest ih =>
    cases h₂ with
    | nothing => exact .inr ⟨text ++ rest, m :: ms, rfl, rfl, .message hwhole haccept hrest⟩
    | @message s₂' _ _ text' rest' m' ms' hwhole' haccept' hrest' =>
      obtain rfl : text = text' :=
        whole_unique hwhole hwhole' ((List.prefix_append _ _).trans hpre₁) ((List.prefix_append _ _).trans hpre₂)
      rw [haccept] at haccept'
      cases haccept'
      obtain ⟨left, rfl⟩ := (List.prefix_append _ _).trans hpre₁
      rw [List.prefix_append_right_inj] at hpre₁ hpre₂
      rcases ih hrest' hpre₁ hpre₂ with ⟨tail, more, rfl, rfl, hmore⟩ | ⟨tail, more, rfl, rfl, hmore⟩
      · exact .inl ⟨tail, more, by rw [List.append_assoc], rfl, hmore⟩
      · exact .inr ⟨tail, more, by rw [List.append_assoc], rfl, hmore⟩

/-- A reader that cannot go on has read at least as much as any other. -/
theorem Reads.of_stuck {s s₁ s₂ : σ} {text₁ text₂ stream : List α} {ms₁ ms₂ : List β}
    (h₁ : R.Reads s text₁ ms₁ s₁) (h₂ : R.Reads s text₂ ms₂ s₂) (hpre₁ : text₁ <+: stream)
    (hpre₂ : text₂ <+: stream)
    (hstuck : ∀ next left, stream = text₁ ++ (next ++ left) → R.whole next → R.accept s₁ next = none) :
    ms₂ <+: ms₁ := by
  rcases h₁.comparable h₂ hpre₁ hpre₂ with ⟨rest, more, rfl, rfl, hmore⟩ | ⟨rest, more, -, rfl, -⟩
  · cases hmore with
    | nothing => simp
    | message hwhole haccept _ =>
      obtain ⟨left, rfl⟩ := hpre₂
      have hnone := hstuck _ _ (by rw [List.append_assoc, List.append_assoc]) hwhole
      rw [hnone] at haccept
      cases haccept
  · exact List.prefix_append _ _

end MessageReader

end Library
