/-
# Statements about a growing history

`Explained h k ps` says that the statements `ps`, in their order, hold at positions of the
history `h` that start at `k` or later and never go back.  The history grows at its end;
statements are added at its present state, dropped, or replaced by consequences.
-/
import Mathlib.Data.List.Basic
import Mathlib.Data.List.Forall2
import Mathlib.Tactic.Common

namespace History

variable {σ : Type*}

/-- The statements hold at positions of the history that are at least `k` and never decrease. -/
def Explained (h : List σ) : ℕ → List (σ → Prop) → Prop
  | _, [] => True
  | k, P :: ps => ∃ k', k ≤ k' ∧ (∃ s, h[k']? = some s ∧ P s) ∧ Explained h k' ps

variable {h : List σ} {k k' : ℕ} {P : σ → Prop} {ps qs rs : List (σ → Prop)} {s : σ}

lemma Explained.of_le (hp : Explained h k ps) (hk : k' ≤ k) : Explained h k' ps := by
  cases ps with
  | nil => trivial
  | cons P ps =>
      obtain ⟨k₁, hle, hP, hrest⟩ := hp
      exact ⟨k₁, Nat.le_trans hk hle, hP, hrest⟩

/-- A longer history explains the same statements. -/
lemma Explained.extend (hp : Explained h k ps) (h' : List σ) : Explained (h ++ h') k ps := by
  induction ps generalizing k with
  | nil => trivial
  | cons P ps ih =>
      obtain ⟨k₁, hle, ⟨s, hs, hP⟩, hrest⟩ := hp
      refine ⟨k₁, hle, ⟨s, ?_, hP⟩, ih hrest⟩
      rw [List.getElem?_append_left (List.getElem?_eq_some_iff.mp hs).1, hs]

/-- A statement about the last state of the history goes after all others. -/
lemma Explained.append_last (hp : Explained h k ps) (hs : h.getLast? = some s) (hP : P s)
    (hk : k < h.length) : Explained h k (ps ++ [P]) := by
  induction ps generalizing k with
  | nil =>
      refine ⟨h.length - 1, by omega, ⟨s, ?_, hP⟩, trivial⟩
      rw [← List.getLast?_eq_getElem?, hs]
  | cons Q ps ih =>
      obtain ⟨k₁, hle, ⟨s₁, hs₁, hQ⟩, hrest⟩ := hp
      exact ⟨k₁, hle, ⟨s₁, hs₁, hQ⟩, ih hrest (List.getElem?_eq_some_iff.mp hs₁).1⟩

/-- Statements can be dropped. -/
lemma Explained.sublist (hp : Explained h k ps) (hsub : qs.Sublist ps) : Explained h k qs := by
  induction hsub generalizing k with
  | slnil => trivial
  | cons P _ ih =>
      obtain ⟨k₁, hle, -, hrest⟩ := hp
      exact ih (hrest.of_le hle)
  | cons_cons P _ ih =>
      obtain ⟨k₁, hle, hP, hrest⟩ := hp
      exact ⟨k₁, hle, hP, ih hrest⟩

/-- A statement can be replaced by statements that follow from it. -/
lemma Explained.replace (hp : Explained h k (ps ++ P :: qs)) (rs : List (σ → Prop))
    (hr : ∀ Q ∈ rs, ∀ s, P s → Q s) : Explained h k (ps ++ (rs ++ qs)) := by
  induction ps generalizing k with
  | nil =>
      obtain ⟨k₁, hle, ⟨s, hs, hP⟩, hrest⟩ := hp
      have hrs : Explained h k₁ (rs ++ qs) := by
        induction rs with
        | nil => exact hrest
        | cons R rs ih =>
            exact ⟨k₁, Nat.le_refl k₁, ⟨s, hs, hr R List.mem_cons_self s hP⟩,
              ih fun Q hQ => hr Q (List.mem_cons_of_mem _ hQ)⟩
      exact hrs.of_le hle
  | cons Q ps ih =>
      obtain ⟨k₁, hle, hQ, hrest⟩ := hp
      exact ⟨k₁, hle, hQ, ih hrest⟩

/-- The positions as a list. -/
lemma Explained.exists_positions {α : Type*} {R : α → σ → Prop} {l : List α}
    (hp : Explained h k (l.map R)) : ∃ ks : List ℕ, (∀ k' ∈ ks, k ≤ k') ∧ ks.Pairwise (· ≤ ·) ∧
      List.Forall₂ (fun k' a => ∃ s, h[k']? = some s ∧ R a s) ks l := by
  induction l generalizing k with
  | nil => exact ⟨[], by simp, List.Pairwise.nil, List.Forall₂.nil⟩
  | cons a l ih =>
      obtain ⟨k₁, hle, hP, hrest⟩ := hp
      obtain ⟨ks, hge, hpw, hall⟩ := ih hrest
      refine ⟨k₁ :: ks, ?_, List.Pairwise.cons hge hpw, List.Forall₂.cons hP hall⟩
      intro k' hk'
      rcases List.mem_cons.mp hk' with rfl | hk'
      · exact hle
      · exact Nat.le_trans hle (hge k' hk')

end History
