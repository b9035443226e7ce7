import Mathlib

/-!
# Runs of a state machine

A run is a start state, the events so far, and the state they lead to.  `Runs.invariant` is the one
induction every property of runs goes through: a property of the events so far and the state that
holds at the start and is kept by every admissible step holds after every run of admissible events.
-/

namespace SxtEnterprise

variable {S E : Type}

/-- `Runs step s es s'`: from `s` the events `es` can lead to `s'`. -/
inductive Runs (step : S → E → S → Prop) (s : S) : List E → S → Prop
  | nil : Runs step s [] s
  | snoc {es : List E} {s₁ s₂ : S} {e : E} : Runs step s es s₁ → step s₁ e s₂ → Runs step s (es ++ [e]) s₂

namespace Runs

variable {step : S → E → S → Prop} {s s' : S} {es : List E}

/-- **Invariants of runs.** -/
theorem invariant {P : List E → S → Prop} {A : E → Prop} (h : Runs step s es s') (hA : ∀ e ∈ es, A e)
    (h0 : P [] s) (hstep : ∀ es s₁ e s₂, A e → P es s₁ → step s₁ e s₂ → P (es ++ [e]) s₂) : P es s' := by
  induction h with
  | nil => exact h0
  | snoc hr hs ih =>
    exact hstep _ _ _ _ (hA _ (by simp)) (ih fun e he => hA e (by simp [he])) hs

/-- A run of steps that are all steps of another kind. -/
theorem imp {step' : S → E → S → Prop} (h : Runs step s es s')
    (himp : ∀ s₁ e s₂, e ∈ es → step s₁ e s₂ → step' s₁ e s₂) : Runs step' s es s' := by
  induction h with
  | nil => exact .nil
  | snoc _ hs ih =>
    exact (ih fun s₁ e s₂ he => himp s₁ e s₂ (by simp [he])).snoc (himp _ _ _ (by simp) hs)

/-- Runs compose. -/
theorem append {es₁ es₂ : List E} {s₁ : S} (h : Runs step s es₁ s₁) (h' : Runs step s₁ es₂ s') :
    Runs step s (es₁ ++ es₂) s' := by
  induction h' with
  | nil => simpa using h
  | snoc _ hs ih => rw [← List.append_assoc]; exact ih.snoc hs

theorem cons {e : E} {s₁ : S} (h : step s e s₁) (h' : Runs step s₁ es s') : Runs step s (e :: es) s' :=
  (Runs.nil.snoc h : Runs step s ([] ++ [e]) s₁).append h'

end Runs

end SxtEnterprise
