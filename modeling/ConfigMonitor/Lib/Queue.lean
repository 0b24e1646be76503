/-
# The last value of a queue

`lastSome f init l` is the last value that `f` reads off an element of a first-in first-out
queue, or `init`: what will be known when the queue has been delivered.
-/
import Mathlib.Data.List.Basic
import Mathlib.Tactic.Common

namespace Queue

variable {α β : Type*}

/-- The last value that `f` reads off an element of the list, or `init` if there is none. -/
def lastSome (f : α → Option β) (init : Option β) (l : List α) : Option β :=
  l.foldl (fun acc m => (f m).or acc) init

variable {f : α → Option β} {init : Option β} {l : List α} {m : α}

@[simp] lemma lastSome_nil : lastSome f init [] = init := rfl

@[simp] lemma lastSome_cons : lastSome f init (m :: l) = lastSome f ((f m).or init) l := rfl

@[simp] lemma lastSome_append_singleton :
    lastSome f init (l ++ [m]) = (f m).or (lastSome f init l) := by
  simp [lastSome, List.foldl_append]

lemma lastSome_append {l' : List α} :
    lastSome f init (l ++ l') = lastSome f (lastSome f init l) l' := by
  simp [lastSome, List.foldl_append]

lemma lastSome_of_forall_none (h : ∀ a ∈ l, f a = none) : lastSome f init l = init := by
  induction l generalizing init with
  | nil => rfl
  | cons a l ih =>
      rw [lastSome_cons, h a List.mem_cons_self, Option.none_or]
      exact ih fun b hb => h b (List.mem_cons_of_mem _ hb)

/-- A value read off the list is read off it whatever the value before the list. -/
lemma lastSome_of_eq_some {b : β} (h : lastSome f none l = some b) : lastSome f init l = some b := by
  induction l generalizing init with
  | nil => simp at h
  | cons a l ih =>
      rw [lastSome_cons] at h ⊢
      cases hfa : f a with
      | some c => rw [hfa] at h; exact h
      | none => rw [hfa] at h; exact ih h

end Queue
