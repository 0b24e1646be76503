/-
# Components with answers

A component is called and answers; a specification says which answers a call may have, and what
may come after.  A relation that one call keeps is kept by all.
-/
import Mathlib.Data.List.Basic
import Mathlib.Tactic.Common

namespace Answers

variable {σ τ α β : Type*}

/-- One call after the other with its answer, and the state after them. -/
def run (step : σ → α → β × σ) : σ → List α → List (α × β) × σ
  | s, [] => ([], s)
  | s, a :: as =>
      let rest := run step (step s a).2 as
      ((a, (step s a).1) :: rest.1, rest.2)

/-- The calls may have these answers. -/
inductive Allows (spec : τ → α → β → τ → Prop) : τ → List (α × β) → τ → Prop
  | nil {t : τ} : Allows spec t [] t
  | cons {t u v : τ} {a : α} {b : β} {l : List (α × β)} :
      spec t a b u → Allows spec u l v → Allows spec t ((a, b) :: l) v

/-- Each call is answered as the specification says. -/
def Refines (step : σ → α → β × σ) (spec : τ → α → β → τ → Prop) (R : σ → τ → Prop) : Prop :=
  ∀ s t a, R s t → ∃ u, spec t a (step s a).1 u ∧ R (step s a).2 u

variable {step : σ → α → β × σ} {spec : τ → α → β → τ → Prop} {R : σ → τ → Prop} {s : σ} {t : τ}

lemma Refines.run (h : Refines step spec R) (hR : R s t) (as : List α) :
    ∃ u, Allows spec t (Answers.run step s as).1 u ∧ R (Answers.run step s as).2 u := by
  induction as generalizing s t with
  | nil => exact ⟨t, .nil, hR⟩
  | cons a as ih =>
      obtain ⟨u, hspec, hR'⟩ := h s t a hR
      obtain ⟨v, hallows, hR''⟩ := ih hR'
      exact ⟨v, .cons hspec hallows, hR''⟩

end Answers
