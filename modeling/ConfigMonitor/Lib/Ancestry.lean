/-
# Ancestors

A forest is given by the parent of each node, a root being its own parent.  The nodes on the way
from a root down to a node are its ancestors, and a set that has the parents of its members has
their ancestors.
-/
import Mathlib.Data.List.Chain
import Mathlib.Data.Set.Basic
import Mathlib.Logic.Function.Iterate
import Mathlib.Tactic.Common

namespace Ancestry

variable {α : Type*}

/-- The node `a` is `q` or one of its ancestors. -/
def Above (parent : α → α) (q a : α) : Prop := ∃ n, parent^[n] q = a

/-- A set that has the parents of its members. -/
def Closed (parent : α → α) (S : Set α) : Prop := ∀ q ∈ S, parent q ∈ S

/-- Each node of the list is the parent of the next one. -/
abbrev Ladder (parent : α → α) (l : List α) : Prop := l.IsChain fun a b => parent b = a

variable {parent : α → α} {S : Set α} {q a b r : α} {l : List α}

lemma Above.refl : Above parent q q := ⟨0, rfl⟩

lemma Above.parents (h : Above parent q a) : Above parent (parent q) (parent a) := by
  obtain ⟨n, rfl⟩ := h
  exact ⟨n, by rw [← Function.iterate_succ_apply, Function.iterate_succ_apply']⟩

lemma Above.trans (h : Above parent q a) (h' : Above parent a b) : Above parent q b := by
  obtain ⟨n, rfl⟩ := h
  obtain ⟨m, rfl⟩ := h'
  exact ⟨m + n, Function.iterate_add_apply parent m n q⟩

/-- A node is above `q` if and only if it is `q` or above its parent. -/
lemma above_iff : Above parent q a ↔ a = q ∨ Above parent (parent q) a := by
  constructor
  · rintro ⟨_ | n, rfl⟩
    · exact Or.inl rfl
    · exact Or.inr ⟨n, rfl⟩
  · rintro (rfl | ⟨n, rfl⟩)
    · exact .refl
    · exact ⟨n + 1, rfl⟩

lemma Closed.above (h : Closed parent S) (hq : q ∈ S) (ha : Above parent q a) : a ∈ S := by
  obtain ⟨n, rfl⟩ := ha
  induction n with
  | zero => exact hq
  | succ n ih =>
      rw [Function.iterate_succ_apply']
      exact h _ ih

/-- Every node of a ladder is above the last one. -/
lemma Ladder.above (h : Ladder parent (l ++ [q])) (ha : a ∈ l ++ [q]) : Above parent q a := by
  induction l using List.reverseRecOn generalizing q with
  | nil =>
      obtain rfl := List.mem_singleton.mp ha
      exact .refl
  | append_singleton l b ih =>
      obtain ⟨hl, -, hlast⟩ := List.isChain_append.mp h
      have hb : parent q = b := hlast b (by simp) q (by simp)
      rcases List.mem_append.mp ha with ha | ha
      · rw [above_iff, hb]
        exact Or.inr (ih hl ha)
      · obtain rfl := List.mem_singleton.mp ha
        exact .refl

/-- The parent of a node of a ladder is in it, unless the node is the first. -/
lemma Ladder.parent_mem (h : Ladder parent (r :: l)) (ha : a ∈ l) : parent a ∈ r :: l := by
  induction l generalizing r with
  | nil => simp at ha
  | cons b l ih =>
      obtain ⟨hb, hl⟩ := List.isChain_cons_cons.mp h
      rcases List.mem_cons.mp ha with rfl | ha
      · rw [hb]
        exact List.mem_cons_self
      · exact List.mem_cons_of_mem _ (ih hl ha)

/-- A ladder from a root to a node consists of the ancestors of the node, and the node. -/
lemma Ladder.mem_iff (h : Ladder parent (r :: l)) (hr : parent r = r)
    (hq : (r :: l).getLast? = some q) : a ∈ r :: l ↔ Above parent q a := by
  have hclosed : Closed parent {a | a ∈ r :: l} := by
    intro b hb
    rcases List.mem_cons.mp hb with rfl | hb
    · rw [hr]
      exact List.mem_cons_self
    · exact h.parent_mem hb
  refine ⟨fun ha => ?_, fun ha => hclosed.above (List.mem_of_getLast? hq) ha⟩
  obtain ⟨l', hl'⟩ := List.getLast?_eq_some_iff.mp hq
  rw [hl'] at h ha
  exact h.above ha

end Ancestry
