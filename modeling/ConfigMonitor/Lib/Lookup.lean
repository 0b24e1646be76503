/-
# Association lists

What `List.lookup` finds, also after an entry has been changed or taken out.
-/
import Mathlib.Data.List.Basic
import Mathlib.Tactic.Common

namespace Lookup

variable {α β : Type*} [DecidableEq α] {l : List (α × β)} {q a : α} {v : β}

lemma map_fst_set : (l.map fun n => if n.1 = q then (q, v) else n).map Prod.fst =
    l.map Prod.fst := by
  rw [List.map_map]
  refine List.map_congr_left fun n _ => ?_
  by_cases hn : n.1 = q <;> simp [hn]

variable [BEq α] [LawfulBEq α]

lemma lookup_cons_ite : ((a, v) :: l).lookup q = if q = a then some v else l.lookup q := by
  by_cases h : q = a
  · simp [h]
  · rw [List.lookup_cons, beq_eq_false_iff_ne.mpr h, if_neg h]

lemma lookup_isSome_iff : (l.lookup q).isSome ↔ q ∈ l.map Prod.fst := by
  induction l with
  | nil => simp
  | cons n l ih =>
      rw [lookup_cons_ite, List.map_cons, List.mem_cons]
      by_cases h : q = n.1
      · simp [h]
      · rw [if_neg h, ih]
        simp [h]

lemma lookup_map_set : (l.map fun n => if n.1 = q then (q, v) else n).lookup a =
    if a = q then (l.lookup a).map fun _ => v else l.lookup a := by
  induction l with
  | nil => simp
  | cons n l ih =>
      obtain ⟨b, u⟩ := n
      rw [List.map_cons]
      by_cases hbq : b = q
      · subst hbq
        rw [if_pos rfl, lookup_cons_ite, lookup_cons_ite, ih]
        by_cases hab : a = b <;> simp [hab]
      · rw [if_neg hbq, lookup_cons_ite, lookup_cons_ite, ih]
        by_cases hab : a = b
        · simp [hab, hbq]
        · simp [hab]

/-- Only the entries whose keys satisfy `P` are kept. -/
lemma lookup_filter {P : α → Prop} [DecidablePred P] :
    (l.filter fun n => P n.1).lookup a = if P a then l.lookup a else none := by
  induction l with
  | nil => simp
  | cons n l ih =>
      obtain ⟨b, u⟩ := n
      rw [List.filter_cons, lookup_cons_ite]
      by_cases hb : P b
      · rw [if_pos (by simpa using hb), lookup_cons_ite, ih]
        by_cases hab : a = b
        · simp [hab, hb]
        · simp [hab]
      · rw [if_neg (by simpa using hb), ih]
        by_cases hab : a = b
        · simp [hab, hb]
        · simp [hab]

end Lookup
