/-
# Chained tables

A table of chains as a function from the index to the chain, of which the first `n` are looked
at.  Writing one chain exchanges its elements, and moving elements to the heads of the chains
that `idx` names for them loses none.
-/
import Mathlib.Data.List.Basic
import Mathlib.Data.List.Perm.Basic
import Mathlib.Logic.Function.Basic
import Mathlib.Tactic.Common

namespace Chains

open Function

open scoped List

variable {α β : Type*} {n i : ℕ} {t : ℕ → List α} {idx : α → ℕ} {a : α} {l : List α}

/-- The elements of the first `n` chains, one chain after the other. -/
def listed (n : ℕ) (t : ℕ → List α) : List α := (List.range n).flatMap t

lemma mem_listed : a ∈ listed n t ↔ ∃ j < n, a ∈ t j := by
  simp [listed]

@[simp] lemma listed_empty : listed n (fun _ => ([] : List α)) = [] := by
  simp [listed]

lemma listed_succ : listed (n + 1) t = listed n t ++ t n := by
  rw [listed, List.range_succ, List.flatMap_append, List.flatMap_singleton]
  rfl

lemma listed_update_of_le (hi : n ≤ i) : listed n (update t i l) = listed n t := by
  rw [listed, listed]
  refine List.flatMap_congr fun j hj => update_of_ne ?_ _ _
  have := List.mem_range.mp hj
  omega

/-- What is written to a chain takes the place of what was in it. -/
lemma listed_update (hi : i < n) : listed n (update t i l) ++ t i ~ listed n t ++ l := by
  induction n with
  | zero => omega
  | succ n ih =>
      rw [listed_succ, listed_succ, List.append_assoc, List.append_assoc]
      rcases Nat.lt_succ_iff_lt_or_eq.mp hi with hlt | rfl
      · rw [update_of_ne (by omega)]
        calc listed n (update t i l) ++ (t n ++ t i)
          _ ~ listed n (update t i l) ++ (t i ++ t n) := List.perm_append_comm.append_left _
          _ ~ listed n t ++ l ++ t n := by
            rw [← List.append_assoc]
            exact (ih hlt).append_right _
          _ ~ listed n t ++ (t n ++ l) := by
            rw [List.append_assoc]
            exact List.perm_append_comm.append_left _
      · rw [listed_update_of_le (Nat.le_refl i), update_self]
        exact List.perm_append_comm.append_left _

lemma perm_update_append {l₁ l₂ : List α} (hi : i < n) (ht : t i = l₁ ++ a :: l₂) :
    listed n t ~ a :: listed n (update t i (l₁ ++ l₂)) := by
  have h := listed_update (t := t) (l := l₁ ++ l₂) hi
  rw [ht] at h
  refine (List.perm_append_right_iff (l₁ ++ l₂)).mp (h.symm.trans ?_)
  exact (List.perm_middle.append_left _).trans List.perm_middle

/-- One element of a chain is exchanged. -/
lemma perm_update_replace {l₁ l₂ : List α} {b : α} (hi : i < n) :
    listed n (update t i (l₁ ++ b :: l₂)) ~ b :: listed n (update t i (l₁ ++ l₂)) := by
  have h := perm_update_append (t := update t i (l₁ ++ b :: l₂)) hi (update_self i _ t)
  rwa [update_idem] at h

/-- Only the first element for which there is a replacement is replaced. -/
lemma replaceF_append_cons {f : α → Option α} {l₁ l₂ : List α} {b : α}
    (hl₁ : ∀ c ∈ l₁, f c = none) (ha : f a = some b) :
    (l₁ ++ a :: l₂).replaceF f = l₁ ++ b :: l₂ := by
  induction l₁ with
  | nil => exact List.replaceF_cons_of_some f ha
  | cons c l₁ ih =>
      rw [List.cons_append, List.replaceF_cons_of_none f (hl₁ c List.mem_cons_self),
        ih fun d hd => hl₁ d (List.mem_cons_of_mem c hd)]
      rfl

/-- The element is put in front of its chain. -/
def place (idx : α → ℕ) (t : ℕ → List α) (a : α) : ℕ → List α :=
  update t (idx a) (a :: t (idx a))

lemma listed_place (ha : idx a < n) : listed n (place idx t a) ~ a :: listed n t := by
  have h := @listed_update α n (idx a) t (a :: t (idx a)) ha
  refine (List.perm_append_right_iff (t (idx a))).mp (h.trans ?_)
  exact List.perm_middle

lemma listed_foldl_place (hl : ∀ a ∈ l, idx a < n) :
    listed n (l.foldl (place idx) t) ~ l ++ listed n t := by
  induction l generalizing t with
  | nil => exact List.Perm.refl _
  | cons a l ih =>
      have hplace := @listed_place α n t idx a (hl a List.mem_cons_self)
      refine (ih fun b hb => hl b (List.mem_cons_of_mem a hb)).trans ?_
      exact (hplace.append_left l).trans List.perm_middle

/-- Every element is in the chain that `idx` names for it. -/
def Placed (idx : α → ℕ) (t : ℕ → List α) : Prop := ∀ i, ∀ a ∈ t i, idx a = i

lemma placed_empty : Placed idx fun _ => [] := fun _ _ ha => absurd ha List.not_mem_nil

lemma Placed.update (h : Placed idx t) (hl : ∀ a ∈ l, idx a = i) : Placed idx (update t i l) := by
  intro j a ha
  rw [update_apply] at ha
  split_ifs at ha with hj
  · rw [hl a ha, hj]
  · exact h j a ha

lemma Placed.place (h : Placed idx t) (a : α) : Placed idx (place idx t a) := by
  refine h.update fun b hb => ?_
  rcases List.mem_cons.mp hb with rfl | hb
  · rfl
  · exact h _ b hb

lemma Placed.foldl_place (h : Placed idx t) (l : List α) :
    Placed idx (l.foldl (Chains.place idx) t) := by
  induction l generalizing t with
  | nil => exact h
  | cons a l ih => exact ih (h.place a)

/-- An element is looked for in its chain only. -/
lemma Placed.mem_iff (h : Placed idx t) (hn : idx a < n) : a ∈ listed n t ↔ a ∈ t (idx a) := by
  rw [mem_listed]
  refine ⟨?_, fun ha => ⟨_, hn, ha⟩⟩
  rintro ⟨j, -, ha⟩
  rwa [h j a ha]

end Chains
