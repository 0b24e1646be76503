/-
# Runs of a partial step function

A system is a partial function `step : σ → α → Option σ`: an action is enabled in a state
when the function is defined there.  Its runs are described by the states they reach, with
a side condition `ok` on each action in the state it is taken in; an invariant is proved of
one step and holds of the whole run.
-/
import Mathlib.Data.List.Induction
import Mathlib.Tactic.Common

namespace Run

variable {σ α : Type*}

/-- `Reach step ok s t`: some run from `s` ends in `t`, and each of its actions is one that
`ok` allows in the state it is taken in. -/
inductive Reach (step : σ → α → Option σ) (ok : σ → α → Prop) (s : σ) : σ → Prop
  | refl : Reach step ok s s
  | tail {t u : σ} {a : α} : Reach step ok s t → ok t a → step t a = some u →
      Reach step ok s u

variable {step : σ → α → Option σ} {ok : σ → α → Prop} {s t u : σ}

/-- The invariant rule: what holds at the start and is kept by every allowed step holds of
every state reached. -/
lemma Reach.invariant {I : σ → Prop} (h : Reach step ok s u) (hinit : I s)
    (hstep : ∀ t a u, I t → ok t a → step t a = some u → I u) : I u := by
  induction h with
  | refl => exact hinit
  | tail _ hok hs ih => exact hstep _ _ _ ih hok hs

lemma Reach.trans (h₁ : Reach step ok s t) (h₂ : Reach step ok t u) : Reach step ok s u := by
  induction h₂ with
  | refl => exact h₁
  | tail _ hok hs ih => exact ih.tail hok hs

/-- Execution of a list of actions, stopping where an action is not enabled or not allowed
by the decidable condition `ok`. -/
def exec (step : σ → α → Option σ) (ok : σ → α → Prop) [∀ s a, Decidable (ok s a)] :
    σ → List α → Option σ
  | s, [] => some s
  | s, a :: acts => if ok s a then (step s a).bind fun t => exec step ok t acts else none

lemma reach_of_exec [∀ s a, Decidable (ok s a)] :
    ∀ {acts : List α} {s u : σ}, exec step ok s acts = some u → Reach step ok s u
  | [], s, u, h => by
      simp only [exec, Option.some.injEq] at h
      subst h
      exact .refl
  | a :: acts, s, u, h => by
      rw [exec] at h
      split_ifs at h with hok
      obtain ⟨t, ht, hrest⟩ := Option.bind_eq_some_iff.mp h
      exact (Reach.refl.tail hok ht).trans (reach_of_exec hrest)

/-- A run found by execution, with what can be observed of the state it ends in. -/
lemma exists_reach_of_exec {β : Type*} (step : σ → α → Option σ) (ok : σ → α → Prop)
    [∀ s a, Decidable (ok s a)] (s : σ) (acts : List α) (f : σ → β) (b : β)
    (h : (exec step ok s acts).map f = some b) : ∃ u, Reach step ok s u ∧ f u = b := by
  obtain ⟨u, hu, hf⟩ := Option.map_eq_some_iff.mp h
  exact ⟨u, reach_of_exec hu, hf⟩

/-- The states a run goes through, oldest first, the last one included. -/
inductive Trace (step : σ → α → Option σ) (ok : σ → α → Prop) (s : σ) : List σ → σ → Prop
  | init : Trace step ok s [s] s
  | tail {h : List σ} {t u : σ} {a : α} : Trace step ok s h t → ok t a →
      step t a = some u → Trace step ok s (h ++ [u]) u

lemma Trace.reach {h : List σ} (ht : Trace step ok s h u) : Reach step ok s u := by
  induction ht with
  | init => exact .refl
  | tail _ hok hs ih => exact ih.tail hok hs

lemma Reach.exists_trace (hr : Reach step ok s u) : ∃ h, Trace step ok s h u := by
  induction hr with
  | refl => exact ⟨[s], .init⟩
  | tail _ hok hs ih =>
      obtain ⟨h, ht⟩ := ih
      exact ⟨_, ht.tail hok hs⟩

/-- `Runs step s acts t`: the actions `acts`, oldest first, lead from `s` to `t`. -/
inductive Runs (step : σ → α → Option σ) (s : σ) : List α → σ → Prop
  | nil : Runs step s [] s
  | snoc {acts : List α} {t u : σ} {a : α} : Runs step s acts t → step t a = some u →
      Runs step s (acts ++ [a]) u

variable {acts acts' : List α}

lemma Runs.append (h₁ : Runs step s acts t) (h₂ : Runs step t acts' u) :
    Runs step s (acts ++ acts') u := by
  induction h₂ with
  | nil => rwa [List.append_nil]
  | snoc _ hs ih =>
      rw [← List.append_assoc]
      exact ih.snoc hs

lemma Runs.of_snoc {a : α} (h : Runs step s (acts ++ [a]) u) :
    ∃ t, Runs step s acts t ∧ step t a = some u := by
  generalize hl : acts ++ [a] = l at h
  cases h with
  | nil => simp at hl
  | snoc h hs =>
      obtain ⟨rfl, rfl⟩ := List.append_singleton_inj.mp hl
      exact ⟨_, h, hs⟩

/-- The actions determine the state. -/
lemma Runs.unique (h : Runs step s acts t) (h' : Runs step s acts u) : t = u := by
  induction h generalizing u with
  | nil =>
      generalize hl : ([] : List α) = l at h'
      cases h' with
      | nil => rfl
      | snoc => simp at hl
  | snoc _ hs ih =>
      obtain ⟨t', ht', hs'⟩ := h'.of_snoc
      rw [ih ht', hs'] at hs
      exact (Option.some.inj hs).symm

/-- An action of a longer run is one of the run before, or the last one. -/
lemma exists_split_snoc {a : α} {Q : List α → α → List α → Prop} :
    (∃ before b after, acts ++ [a] = before ++ b :: after ∧ Q before b after) ↔
      (∃ before b after, acts = before ++ b :: after ∧ Q before b (after ++ [a])) ∨
        Q acts a [] := by
  constructor
  · rintro ⟨before, b, after, hl, hQ⟩
    rcases List.eq_nil_or_concat after with rfl | ⟨after, c, rfl⟩
    · obtain ⟨rfl, rfl⟩ := List.append_singleton_inj.mp hl
      exact Or.inr hQ
    · rw [List.concat_eq_append] at hl hQ
      rw [← List.cons_append, ← List.append_assoc] at hl
      obtain ⟨rfl, rfl⟩ := List.append_singleton_inj.mp hl
      exact Or.inl ⟨before, b, after, rfl, hQ⟩
  · rintro (⟨before, b, after, rfl, hQ⟩ | hQ)
    · exact ⟨before, b, after ++ [a], by simp, hQ⟩
    · exact ⟨acts, a, [], rfl, hQ⟩

/-- Some action of the run is taken in a state in which `P` holds of it. -/
def Occurs (step : σ → α → Option σ) (s : σ) (P : σ → α → Prop) (acts : List α) : Prop :=
  ∃ before a after t, acts = before ++ a :: after ∧ Runs step s before t ∧ P t a

variable {P : σ → α → Prop}

lemma not_occurs_nil : ¬ Occurs step s P [] := by
  rintro ⟨before, a, after, t, hl, -⟩
  simp at hl

lemma Runs.occurs_snoc (h : Runs step s acts t) {a : α} :
    Occurs step s P (acts ++ [a]) ↔ Occurs step s P acts ∨ P t a := by
  simp only [Occurs, exists_and_left, exists_split_snoc]
  refine or_congr_right ⟨?_, fun hP => ⟨t, h, hP⟩⟩
  rintro ⟨t', hrun, hP⟩
  rwa [h.unique hrun]

lemma Runs.of_append (h : Runs step s (acts ++ acts') u) :
    ∃ t, Runs step s acts t ∧ Runs step t acts' u := by
  induction acts' using List.reverseRecOn generalizing u with
  | nil => exact ⟨u, by rwa [List.append_nil] at h, .nil⟩
  | append_singleton acts' a ih =>
      rw [← List.append_assoc] at h
      obtain ⟨t', ht', hs⟩ := h.of_snoc
      obtain ⟨t, ht, hrest⟩ := ih ht'
      exact ⟨t, ht, hrest.snoc hs⟩

/-- `Q` holds of every state the run goes through. -/
def Always (step : σ → α → Option σ) (s : σ) (Q : σ → Prop) (acts : List α) : Prop :=
  ∀ before after t, acts = before ++ after → Runs step s before t → Q t

/-- The invariant rule, away from the steps that `P` singles out. -/
lemma Runs.invariant_of_not_occurs {I : σ → Prop} (h : Runs step s acts t) (hinit : I s)
    (hstep : ∀ t a u, I t → ¬ P t a → step t a = some u → I u) (hno : ¬ Occurs step s P acts) :
    I t := by
  induction h with
  | nil => exact hinit
  | snoc h hs ih =>
      rw [h.occurs_snoc, not_or] at hno
      exact hstep _ _ _ (ih hno.1) hno.2 hs

/-- The rule of the exact condition: when `I` is kept by every step that `P` does not single
out, and a step that `P` singles out breaks `Q`, then `Q` holds all along a run exactly when
there is no such step. -/
lemma Runs.always_iff_not_occurs {I Q : σ → Prop} (h : Runs step s acts u) (hinit : I s)
    (hstep : ∀ t a u, I t → ¬ P t a → step t a = some u → I u) (hQ : ∀ t, I t → Q t)
    (hbreak : ∀ t a u, P t a → step t a = some u → ¬ Q u) :
    Always step s Q acts ↔ ¬ Occurs step s P acts := by
  constructor
  · rintro hall ⟨before, a, after, t, rfl, ht, hP⟩
    rw [List.append_cons] at h
    obtain ⟨t', ht', -⟩ := h.of_append
    obtain ⟨t₀, ht₀, hs⟩ := ht'.of_snoc
    rw [ht₀.unique ht] at hs
    exact hbreak t a t' hP hs (hall _ after t' (List.append_cons _ _ _) ht')
  · rintro hno before after t rfl ht
    refine hQ t (ht.invariant_of_not_occurs hinit hstep ?_)
    rintro ⟨b, a, c, t', rfl, ht', hP⟩
    exact hno ⟨b, a, c ++ after, t', by simp, ht', hP⟩

lemma runs_of_exec : ∀ {acts : List α} {s u : σ},
    exec step (fun _ _ => True) s acts = some u → Runs step s acts u
  | [], s, u, h => by
      simp only [exec, Option.some.injEq] at h
      subst h
      exact .nil
  | a :: acts, s, u, h => by
      rw [exec, if_pos trivial] at h
      obtain ⟨t, ht, hrest⟩ := Option.bind_eq_some_iff.mp h
      exact (Runs.nil.snoc ht).append (runs_of_exec hrest)

end Run
