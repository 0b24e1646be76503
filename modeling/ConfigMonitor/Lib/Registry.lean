/-
# A registry of observers

An observer is entered under a key together with what it was last told; the two are kept in two
maps.  What was last told is overwritten when it changes, and writing it for a key that is not
there makes an entry without an observer.  `Paired` says that there is no such entry.
-/
import Mathlib.Data.List.AList
import Mathlib.Tactic.Common

/-- The observers `entry`, and what each of them was told last. -/
structure Registry (κ α β : Type*) where
  last : AList fun _ : κ => α
  entry : AList fun _ : κ => β

namespace Registry

variable {κ α β : Type*} [DecidableEq κ]

/-- The registry without an observer. -/
def empty : Registry κ α β := { last := ∅, entry := ∅ }

/-- Insertion that leaves an entry which is there as it is. -/
def emplace {γ : Type*} (m : AList fun _ : κ => γ) (k : κ) (c : γ) : AList fun _ : κ => γ :=
  if k ∈ m then m else m.insert k c

/-- An observer is entered. -/
def register (r : Registry κ α β) (k : κ) (a : α) (b : β) : Registry κ α β :=
  { last := emplace r.last k a, entry := emplace r.entry k b }

/-- An observer is taken out. -/
def remove (r : Registry κ α β) (k : κ) : Registry κ α β :=
  { last := r.last.erase k, entry := r.entry.erase k }

/-- What was last told is overwritten. -/
def store (r : Registry κ α β) (k : κ) (a : α) : Registry κ α β :=
  { r with last := r.last.insert k a }

/-- Every key has an observer and something it was told. -/
def Paired (r : Registry κ α β) : Prop := ∀ k, k ∈ r.last ↔ k ∈ r.entry

variable {r : Registry κ α β} {k k' : κ} {a : α} {b : β}

section emplace

variable {γ : Type*} {m : AList fun _ : κ => γ} {c : γ}

lemma mem_of_lookup (h : m.lookup k = some c) : k ∈ m :=
  AList.lookup_isSome.mp (Option.isSome_iff_exists.mpr ⟨c, h⟩)

lemma exists_lookup (h : k ∈ m) : ∃ c, m.lookup k = some c :=
  Option.isSome_iff_exists.mp (AList.lookup_isSome.mpr h)

lemma lookup_emplace_of_mem (h : k ∈ m) : emplace m k c = m := if_pos h

lemma lookup_emplace_self (h : k ∉ m) : (emplace m k c).lookup k = some c := by
  rw [emplace, if_neg h, AList.lookup_insert]

lemma lookup_emplace_of_ne (h : k' ≠ k) : (emplace m k c).lookup k' = m.lookup k' := by
  rw [emplace]
  split_ifs
  · rfl
  · rw [AList.lookup_insert_ne h]

lemma lookup_emplace_of_some {d : γ} (h : m.lookup k' = some d) :
    (emplace m k c).lookup k' = some d := by
  by_cases hk : k' = k
  · subst hk
    rw [lookup_emplace_of_mem (mem_of_lookup h), h]
  · rw [lookup_emplace_of_ne hk, h]

lemma mem_emplace : k' ∈ emplace m k c ↔ k' = k ∨ k' ∈ m := by
  rw [emplace]
  split_ifs with hk
  · refine ⟨Or.inr, ?_⟩
    rintro (rfl | h)
    · exact hk
    · exact h
  · exact AList.mem_insert m

/-- An entry after an insertion is the new one or was there before. -/
lemma lookup_emplace_eq_some {d : γ} (h : (emplace m k c).lookup k' = some d) :
    m.lookup k' = some d ∨ k' = k ∧ d = c ∧ k ∉ m := by
  by_cases hk : k' = k
  · subst hk
    by_cases hm : k' ∈ m
    · exact Or.inl (by rwa [lookup_emplace_of_mem hm] at h)
    · rw [lookup_emplace_self hm] at h
      exact Or.inr ⟨rfl, (Option.some.inj h).symm, hm⟩
  · exact Or.inl (by rwa [lookup_emplace_of_ne hk] at h)

end emplace

omit [DecidableEq κ] in
lemma paired_empty : (empty : Registry κ α β).Paired := by
  intro k
  simp [empty]

lemma Paired.register (h : r.Paired) (k : κ) (a : α) (b : β) : (r.register k a b).Paired := by
  intro k'
  rw [Registry.register, mem_emplace, mem_emplace, h k']

lemma Paired.remove (h : r.Paired) (k : κ) : (r.remove k).Paired := by
  intro k'
  rw [Registry.remove, AList.mem_erase, AList.mem_erase, h k']

/-- Overwriting keeps the maps paired exactly when the observer is still there. -/
lemma Paired.store_iff (h : r.Paired) : (r.store k a).Paired ↔ k ∈ r.entry := by
  refine ⟨fun hp => (hp k).mp ?_, fun hk k' => ?_⟩
  · rw [store, AList.mem_insert]
    exact Or.inl rfl
  · rw [store, AList.mem_insert, h k']
    refine ⟨?_, Or.inr⟩
    rintro (rfl | h')
    · exact hk
    · exact h'

end Registry
