/-
# One chain of completions

An asynchronous operation with nobody else there: the server handles the request in flight, the
completion runs, and so on until the callback is called.  The server is given by its answers.
-/
import ConfigMonitor.Cppzk.Operations
import Mathlib.Computability.StateTransition

namespace ConfigMonitor

open StateTransition

namespace Chain

open Operations

/-- A request is in flight, or the callback has been called, or the library has refused a request
and nothing more happens. -/
inductive Progress
  | sent (request : ZooCall) (pending : Pending)
  | called (result : Result)
  | refused
deriving DecidableEq, Repr

/-- What a completion does. -/
def goOn : Next → Progress
  | .done result => .called result
  | .request request pending =>
      if usableHandle.accepts request then .sent request pending else .refused

/-- The server, and how far the operation is. -/
structure State (σ : Type*) where
  server : σ
  progress : Progress

variable {σ : Type*} {answer : σ → ZooCall → Option (σ × Answer)}

/-- The server handles the request, and the completion runs. -/
def step (answer : σ → ZooCall → Option (σ × Answer)) (s : State σ) : Option (State σ) :=
  match s.progress with
  | .sent request pending =>
      (answer s.server request).map fun r =>
        { server := r.1, progress := goOn (pending.complete r.2) }
  | _ => none

/-- The operation ends with the result and leaves the server as `s'`. -/
def Ends (answer : σ → ZooCall → Option (σ × Answer)) (s : σ) (next : Next) (result : Result)
    (s' : σ) : Prop :=
  { server := s', progress := .called result } ∈
    eval (step answer) { server := s, progress := goOn next }

variable {s s₁ s₂ : σ} {call : ZooCall} {pending : Pending} {next : Next} {result r₁ r₂ : Result}

lemma ends_done (s : σ) (result : Result) : Ends answer s (.done result) result s :=
  mem_eval.mpr ⟨.refl, rfl⟩

/-- There is one end. -/
lemma Ends.unique (h₁ : Ends answer s next r₁ s₁) (h₂ : Ends answer s next r₂ s₂) :
    r₁ = r₂ ∧ s₁ = s₂ := by
  have heq := Part.mem_unique h₁ h₂
  simp only [State.mk.injEq, Progress.called.injEq] at heq
  exact heq.symm

lemma ends_done_iff : Ends answer s (.done result) r₁ s₁ ↔ r₁ = result ∧ s₁ = s := by
  constructor
  · intro h
    exact h.unique (ends_done s result)
  · rintro ⟨rfl, rfl⟩
    exact ends_done s₁ r₁

/-- An operation with a request that the library refuses does not end. -/
lemma accepts_of_ends (h : Ends answer s (.request call pending) result s₁) :
    usableHandle.accepts call = true := by
  by_contra hacc
  rw [Ends, goOn, if_neg hacc] at h
  have hstop : { server := s, progress := .refused } ∈
      eval (step answer) { server := s, progress := .refused } := mem_eval.mpr ⟨.refl, rfl⟩
  have heq := Part.mem_unique h hstop
  simp at heq

/-- A request that is accepted and answered leads to what its completion does. -/
lemma ends_request_iff {r : σ × Answer} (hacc : usableHandle.accepts call = true)
    (hanswer : answer s call = some r) : Ends answer s (.request call pending) result s₁ ↔
      Ends answer r.1 (pending.complete r.2) result s₁ := by
  have hstep : step answer { server := s, progress := goOn (.request call pending) } =
      some { server := r.1, progress := goOn (pending.complete r.2) } := by
    rw [goOn, if_pos hacc]
    simp [step, hanswer]
  rw [Ends, Ends, reaches_eval (.single hstep)]

end Chain

end ConfigMonitor
