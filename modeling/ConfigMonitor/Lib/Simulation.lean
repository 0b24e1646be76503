/-
# Simulation by runs

A relation between the states of two systems that lets each step of the first be answered by
a run of the second, of any length and the empty one included.  What can be observed of the
actions is kept: the observations of a run are the observations of the run that answers it.
-/
import ConfigMonitor.Lib.Run

namespace Run

variable {σ τ α β γ : Type*} {step : σ → α → Option σ} {step' : τ → β → Option τ}
  {s u : σ} {t : τ} {acts : List α} {P : σ → α → Prop}

/-- `R` is a simulation: a step that `P` does not single out is answered by a run with the same
observations. -/
def Simulates (step : σ → α → Option σ) (step' : τ → β → Option τ) (see : α → List γ)
    (see' : β → List γ) (P : σ → α → Prop) (R : σ → τ → Prop) : Prop :=
  ∀ s t a u, R s t → ¬ P s a → step s a = some u →
    ∃ bs t', Runs step' t bs t' ∧ bs.flatMap see' = see a ∧ R u t'

variable {see : α → List γ} {see' : β → List γ} {R : σ → τ → Prop}

/-- The run rule. -/
lemma Simulates.runs (hsim : Simulates step step' see see' P R) (hinit : R s t)
    (h : Runs step s acts u) (hno : ¬ Occurs step s P acts) :
    ∃ bs t', Runs step' t bs t' ∧ bs.flatMap see' = acts.flatMap see ∧ R u t' := by
  induction h with
  | nil => exact ⟨[], t, .nil, rfl, hinit⟩
  | snoc h hs ih =>
      rw [h.occurs_snoc, not_or] at hno
      obtain ⟨bs, t', hrun, hsee, hR⟩ := ih hno.1
      obtain ⟨bs', t'', hrun', hsee', hR'⟩ := hsim _ t' _ _ hR hno.2 hs
      refine ⟨bs ++ bs', t'', hrun.append hrun', ?_, hR'⟩
      rw [List.flatMap_append, List.flatMap_append, hsee, hsee', List.flatMap_singleton]

/-- One step as a run. -/
lemma Runs.single {a : α} (h : step s a = some u) : Runs step s [a] u := Runs.nil.snoc h

/-- A run found by execution in which no step is singled out. -/
lemma not_occurs_of_exec [∀ s a, Decidable (P s a)] :
    ∀ {acts : List α} {s u : σ}, exec step (fun s a => ¬ P s a) s acts = some u →
      Runs step s acts u ∧ ¬ Occurs step s P acts
  | [], s, u, h => by
      simp only [exec, Option.some.injEq] at h
      subst h
      exact ⟨.nil, not_occurs_nil⟩
  | a :: acts, s, u, h => by
      rw [exec] at h
      split_ifs at h with hP
      obtain ⟨t, ht, hrest⟩ := Option.bind_eq_some_iff.mp h
      obtain ⟨hrun, hno⟩ := not_occurs_of_exec hrest
      refine ⟨(Runs.single ht).append hrun, ?_⟩
      rintro ⟨before, b, after, v, hl, hv, hb⟩
      cases before with
      | nil =>
          obtain ⟨rfl, -⟩ := List.cons.inj hl
          rw [hv.unique .nil] at hb
          exact hP hb
      | cons a' before =>
          obtain ⟨rfl, rfl⟩ := List.cons.inj hl
          obtain ⟨t', ht', hv'⟩ := (show Runs step s ([a] ++ before) v from hv).of_append
          rw [ht'.unique (Runs.single ht)] at hv'
          exact hno ⟨before, b, after, v, rfl, hv', hb⟩

end Run
