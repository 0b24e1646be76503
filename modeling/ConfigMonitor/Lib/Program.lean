/-
# Straight-line programs

A program is a list of instructions; an instruction changes the state and gives outputs, or it
stops the program.  The outputs of a program are those of its instructions in their order, up to
the one that stops it.
-/
import Mathlib.Data.List.Basic
import Mathlib.Tactic.Common

namespace Program

variable {σ τ ρ : Type*}

/-- The outputs of a program, and the state it ends in unless it is stopped. -/
def run (instr : σ → τ → Option (σ × List ρ)) : σ → List τ → List ρ × Option σ
  | s, [] => ([], some s)
  | s, t :: rest =>
      match instr s t with
      | none => ([], none)
      | some r => (r.2 ++ (run instr r.1 rest).1, (run instr r.1 rest).2)

variable {instr : σ → τ → Option (σ × List ρ)} {s s' : σ} {t : τ} {l l' : List τ}
  {out : List ρ}

@[simp] lemma run_nil : run instr s [] = ([], some s) := rfl

lemma run_cons_none (h : instr s t = none) : run instr s (t :: l) = ([], none) := by
  rw [run, h]

lemma run_cons_some (h : instr s t = some (s', out)) :
    run instr s (t :: l) = (out ++ (run instr s' l).1, (run instr s' l).2) := by
  rw [run, h]

/-- A program that is stopped is not continued. -/
lemma run_append_none (h : (run instr s l).2 = none) : run instr s (l ++ l') = run instr s l := by
  induction l generalizing s with
  | nil => simp at h
  | cons t l ih =>
      rw [List.cons_append]
      cases hi : instr s t with
      | none => rw [run_cons_none hi, run_cons_none hi]
      | some r =>
          rw [run_cons_some hi] at h
          rw [run_cons_some hi, run_cons_some hi, ih h]

lemma run_append_some (h : (run instr s l).2 = some s') :
    run instr s (l ++ l') = ((run instr s l).1 ++ (run instr s' l').1, (run instr s' l').2) := by
  induction l generalizing s with
  | nil =>
      obtain rfl := Option.some.inj h
      rfl
  | cons t l ih =>
      rw [List.cons_append]
      cases hi : instr s t with
      | none => simp [run_cons_none hi] at h
      | some r =>
          rw [run_cons_some hi] at h
          rw [run_cons_some hi, run_cons_some hi, ih h, List.append_assoc]

lemma run_prefix_append : (run instr s l).1 <+: (run instr s (l ++ l')).1 := by
  cases h : (run instr s l).2 with
  | none => exact (run_append_none h).symm ▸ List.prefix_rfl
  | some s' =>
      rw [run_append_some h]
      exact List.prefix_append _ _

/-- What holds of the outputs of each instruction holds of those of the program. -/
lemma run_forall {P : ρ → Prop} (h : ∀ s, ∀ t ∈ l, ∀ r, instr s t = some r → ∀ x ∈ r.2, P x) :
    ∀ x ∈ (run instr s l).1, P x := by
  induction l generalizing s with
  | nil => simp
  | cons t l ih =>
      cases hi : instr s t with
      | none => simp [run_cons_none hi]
      | some r =>
          rw [run_cons_some hi]
          exact List.forall_mem_append.mpr ⟨h s t List.mem_cons_self r hi,
            ih fun s t ht => h s t (List.mem_cons_of_mem _ ht)⟩

end Program
