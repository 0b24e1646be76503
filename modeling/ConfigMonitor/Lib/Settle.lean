/-
# Systems that come to rest

Some of the actions of a system are its own; the others come from outside.  A rank that every
own step lowers bounds the runs of own steps; when two own steps can be taken in either order
with the same result, every such run can be continued to the same settled state, and all runs
to it have the same length.
-/
import ConfigMonitor.Lib.Simulation

namespace Run

variable {σ α : Type*} {step : σ → α → Option σ} {own : α → Prop} {I : σ → Prop} {rank : σ → ℕ}
  {s t u : σ} {acts acts' : List α}

/-- No own step is possible. -/
def Settled (step : σ → α → Option σ) (own : α → Prop) (s : σ) : Prop :=
  ∀ a, own a → step s a = none

/-- Every own step keeps `I` and lowers the rank. -/
def Lowers (step : σ → α → Option σ) (own : α → Prop) (I : σ → Prop) (rank : σ → ℕ) : Prop :=
  ∀ s a t, I s → own a → step s a = some t → I t ∧ rank t < rank s

/-- Two own steps can be taken in either order. -/
def Exchanges (step : σ → α → Option σ) (own : α → Prop) (I : σ → Prop) : Prop :=
  ∀ s a b t u, I s → own a → own b → step s a = some t → step s b = some u →
    t = u ∨ ∃ v, step t b = some v ∧ step u a = some v

lemma forall_own_snoc {a : α} :
    (∀ b ∈ acts ++ [a], own b) ↔ (∀ b ∈ acts, own b) ∧ own a := by
  simp [or_imp, forall_and]

/-- A run of own steps is no longer than the rank it starts from. -/
lemma Lowers.runs (hlow : Lowers step own I rank) (hI : I s) (h : Runs step s acts t)
    (hown : ∀ a ∈ acts, own a) : I t ∧ acts.length + rank t ≤ rank s := by
  induction h with
  | nil => exact ⟨hI, by simp⟩
  | snoc _ hs ih =>
      obtain ⟨hown, ha⟩ := forall_own_snoc.mp hown
      obtain ⟨hIt, hle⟩ := ih hown
      obtain ⟨hIu, hlt⟩ := hlow _ _ _ hIt ha hs
      refine ⟨hIu, ?_⟩
      rw [List.length_append, List.length_singleton]
      omega

/-- The system comes to rest. -/
lemma Lowers.exists_settled (hlow : Lowers step own I rank) (hI : I s) :
    ∃ acts t, Runs step s acts t ∧ (∀ a ∈ acts, own a) ∧ Settled step own t := by
  generalize hn : rank s = n
  induction n using Nat.strongRecOn generalizing s with
  | ind n ih =>
      by_cases hset : Settled step own s
      · exact ⟨[], s, .nil, by simp, hset⟩
      · simp only [Settled, not_forall] at hset
        obtain ⟨a, ha, hstep⟩ := hset
        obtain ⟨t, ht⟩ := Option.ne_none_iff_exists'.mp hstep
        obtain ⟨hIt, hlt⟩ := hlow s a t hI ha ht
        obtain ⟨acts, u, hrun, hown, hset⟩ := ih _ (hn ▸ hlt) hIt rfl
        exact ⟨[a] ++ acts, u, (Runs.single ht).append hrun, by simpa [ha] using hown, hset⟩

/-- A step before a run of own steps: it is one of them, or it can be taken after them. -/
lemma Exchanges.strip (hex : Exchanges step own I)
    (hkeep : ∀ s a t, I s → own a → step s a = some t → I t) (hI : I s) {a : α} (ha : own a)
    (ht : step s a = some t) (h : Runs step s acts u) (hown : ∀ b ∈ acts, own b) :
    I u ∧ ((∃ acts', acts'.length + 1 = acts.length ∧ (∀ b ∈ acts', own b) ∧
        Runs step t acts' u) ∨ ∃ v, step u a = some v ∧ Runs step t acts v) := by
  induction h with
  | nil => exact ⟨hI, Or.inr ⟨t, ht, .nil⟩⟩
  | snoc _ hs ih =>
      obtain ⟨hown, hb⟩ := forall_own_snoc.mp hown
      obtain ⟨hIu, hcase⟩ := ih hown
      refine ⟨hkeep _ _ _ hIu hb hs, ?_⟩
      rcases hcase with ⟨acts', hlen, hown', hrun⟩ | ⟨v, hv, hrun⟩
      · refine Or.inl ⟨acts' ++ [_], ?_, forall_own_snoc.mpr ⟨hown', hb⟩, hrun.snoc hs⟩
        simp [hlen]
      · rcases hex _ _ _ _ _ hIu ha hb hv hs with rfl | ⟨w, hw, hw'⟩
        · exact Or.inl ⟨_, by simp, hown, hrun⟩
        · exact Or.inr ⟨w, hw', hrun.snoc hw⟩

/-- Every run of own steps can be continued to the settled state that one of them leads to. -/
lemma Exchanges.runs (hex : Exchanges step own I)
    (hkeep : ∀ s a t, I s → own a → step s a = some t → I t) (hI : I s)
    (h : Runs step s acts t) (hown : ∀ a ∈ acts, own a) (hset : Settled step own t)
    (h' : Runs step s acts' u) (hown' : ∀ a ∈ acts', own a) :
    ∃ acts'', Runs step u acts'' t ∧ (∀ a ∈ acts'', own a) ∧
      acts'.length + acts''.length = acts.length := by
  suffices hall : I u ∧ ∃ acts'', Runs step u acts'' t ∧ (∀ a ∈ acts'', own a) ∧
      acts'.length + acts''.length = acts.length from hall.2
  induction h' with
  | nil => exact ⟨hI, acts, h, hown, by simp⟩
  | snoc _ hs ih =>
      obtain ⟨hown', hb⟩ := forall_own_snoc.mp hown'
      obtain ⟨hIu, acts'', hrun, hown'', hlen⟩ := ih hown'
      refine ⟨hkeep _ _ _ hIu hb hs, ?_⟩
      obtain ⟨-, ⟨acts₃, hlen₃, hown₃, hrun₃⟩ | ⟨v, hv, -⟩⟩ :=
        hex.strip hkeep hIu hb hs hrun hown''
      · refine ⟨acts₃, hrun₃, hown₃, ?_⟩
        rw [List.length_append, List.length_singleton]
        omega
      · rw [hset _ hb] at hv
        exact absurd hv (by simp)

/-- A settled state is left by no run of own steps. -/
lemma Settled.eq_nil (hset : Settled step own s) (h : Runs step s acts t)
    (hown : ∀ a ∈ acts, own a) : acts = [] := by
  cases acts with
  | nil => rfl
  | cons a acts =>
      obtain ⟨u, hu, -⟩ := (show Runs step s ([a] ++ acts) t from h).of_append
      obtain ⟨v, hv, hs⟩ := (show Runs step s ([] ++ [a]) u from hu).of_snoc
      rw [hv.unique .nil, hset a (hown a List.mem_cons_self)] at hs
      exact absurd hs (by simp)

end Run
