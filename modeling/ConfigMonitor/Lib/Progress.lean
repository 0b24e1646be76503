/-
# Progress

Until the goal holds every step keeps `I` and does not raise a rank, and the steps that are
counted lower it; the goal then holds for good.  So it holds after as many counted steps as the
rank says, whatever the other steps are.
-/
import ConfigMonitor.Lib.Run

namespace Run

variable {σ α : Type*} {step : σ → α → Option σ} {counted : α → Bool} {I G : σ → Prop}
  {rank : σ → ℕ} {s t : σ} {acts : List α}

/-- The counted steps lead from `I` to the goal. -/
structure Drives (step : σ → α → Option σ) (counted : α → Bool) (I G : σ → Prop)
    (rank : σ → ℕ) : Prop where
  keeps : ∀ s a t, G s → step s a = some t → G t
  drives : ∀ s a t, I s → step s a = some t →
    G t ∨ I t ∧ rank t + (if counted a = true then 1 else 0) ≤ rank s
  pos : ∀ s, I s → 0 < rank s

lemma Drives.runs (h : Drives step counted I G rank) (hI : I s) (hr : Runs step s acts t) :
    G t ∨ I t ∧ rank t + acts.countP counted ≤ rank s := by
  induction hr with
  | nil => exact Or.inr ⟨hI, by simp⟩
  | @snoc acts t u a _ hs ih =>
      rcases ih with hG | ⟨hIt, hle⟩
      · exact Or.inl (h.keeps _ _ _ hG hs)
      · refine (h.drives _ _ _ hIt hs).imp_right ?_
        rintro ⟨hIu, hlt⟩
        refine ⟨hIu, ?_⟩
        rw [List.countP_append, List.countP_singleton]
        omega

/-- The goal holds after as many counted steps as the rank says. -/
lemma Drives.reaches (h : Drives step counted I G rank) (hI : I s) (hr : Runs step s acts t)
    (hlong : rank s ≤ acts.countP counted) : G t := by
  rcases h.runs hI hr with hG | ⟨hIt, hle⟩
  · exact hG
  · have hpos := h.pos t hIt
    omega

end Run
