/-
# One-shot registrations

A client registers an interest by a request; the answer either arms the registration at the
other side or refuses it; an armed registration is consumed by one notice; the holder may
then register again.  Requests are answered, and answers and notices delivered, in order; what is
on its way may be lost.

Reading the queue towards the client, then the table of armed registrations, then the queue
towards the server, the traces of *one* registration form a word over `Token`.  A client that
registers again only when the previous answer or notice has reached it keeps this word in a
list of eight shapes (`Legal`); the lemmas below are the rules by which the three queues move
a token, one for each kind of event.
-/
import Mathlib.Data.List.Basic
import Mathlib.Tactic.Common

namespace OneShot

/-- The traces a registration leaves: its request, the answer that armed it, the answer that
refused it, its entry in the table of armed registrations, the notice that consumed it. -/
inductive Token
  | request
  | reply
  | refusal
  | armed
  | notice
deriving DecidableEq, Repr

/-- The words that the tokens of one registration may form. -/
def Legal (w : List Token) : Prop :=
  w = [] ∨ w = [.request] ∨ w = [.refusal] ∨ w = [.reply] ∨ w = [.reply, .armed] ∨
    w = [.reply, .notice] ∨ w = [.armed] ∨ w = [.notice]

/-- Requests and answers open a word: whatever is in flight of them is its oldest trace. -/
def Token.opens : Token → Bool
  | .request | .reply | .refusal => true
  | .armed | .notice => false

instance (w : List Token) : Decidable (Legal w) := by
  unfold Legal; infer_instance

@[simp] lemma legal_nil : Legal [] := Or.inl rfl

lemma legal_request : Legal [.request] := by decide

variable {A B C : List Token}

lemma Legal.length_le {w : List Token} (h : Legal w) : w.length ≤ 2 := by
  rcases h with rfl | rfl | rfl | rfl | rfl | rfl | rfl | rfl <;> decide

/-- A request in flight is the only trace of its registration. -/
lemma Legal.of_request (h : Legal (A ++ .request :: B)) : A = [] ∧ B = [] := by
  unfold Legal at h
  rcases A with _ | ⟨a, _ | ⟨b, A⟩⟩ <;> rcases B with _ | ⟨c, B⟩ <;> simp_all

/-- When the notice is the next thing to arrive, nothing else is left of the registration. -/
lemma Legal.of_notice (h : Legal (.notice :: A)) : A = [] := by
  unfold Legal at h
  simp_all

/-- What is left of a word when its first tokens have been delivered. -/
lemma Legal.of_append (h : Legal (A ++ B)) : Legal B := by
  unfold Legal at h
  rcases A with _ | ⟨a, _ | ⟨b, A⟩⟩
  · exact h
  · rcases B with _ | ⟨c, B⟩
    · exact legal_nil
    · obtain ⟨-, rfl, rfl⟩ | ⟨-, rfl, rfl⟩ :
          (a = .reply ∧ c = .armed ∧ B = []) ∨ (a = .reply ∧ c = .notice ∧ B = []) := by
        simpa using h
      · decide
      · decide
  · obtain rfl : B = [] := by
      have hlen := Legal.length_le h
      simp only [List.cons_append, List.length_cons, List.length_append] at hlen
      exact List.length_eq_zero_iff.mp (by omega)
    exact legal_nil

/-- What is left of a word when its last tokens have been lost. -/
lemma Legal.of_append_left (h : Legal (A ++ B)) : Legal A := by
  rcases A with _ | ⟨a, A⟩
  · exact legal_nil
  unfold Legal at h ⊢
  rcases h with h | h | h | h | h | h | h | h <;> rcases A with _ | ⟨b, A⟩ <;> simp_all

/-- A refusal or a notice is the last trace of its registration, and there is one at most. -/
lemma Legal.of_final (h : Legal (A ++ B)) (hA : .refusal ∈ A ∨ .notice ∈ A) :
    B = [] ∧ A.count .notice ≤ 1 := by
  unfold Legal at h
  rcases A with _ | ⟨a, A⟩
  · simp at hA
  rcases h with h | h | h | h | h | h | h | h <;>
    rcases A with _ | ⟨b, A⟩ <;> simp_all

/-- There is one request or answer at most, and nothing stands before it. -/
lemma Legal.of_opens (h : Legal (A ++ B)) (hB : 0 < B.countP Token.opens) :
    A = [] ∧ B.countP Token.opens = 1 := by
  rcases A with _ | ⟨a, A⟩
  · refine ⟨rfl, Nat.le_antisymm ?_ hB⟩
    rcases h with h | h | h | h | h | h | h | h <;> simp only [List.nil_append] at h <;>
      subst h <;> decide
  · exfalso
    rcases h with h | h | h | h | h | h | h | h <;> rcases A with _ | ⟨b, A⟩ <;>
      simp_all [Token.opens]

/-- Firing an armed registration turns its entry into a notice, the last of its traces. -/
lemma Legal.fire (h : Legal (A ++ .armed :: B)) : B = [] ∧ Legal (A ++ [.notice]) := by
  unfold Legal at h ⊢
  rcases A with _ | ⟨a, _ | ⟨b, A⟩⟩ <;> rcases B with _ | ⟨c, B⟩ <;> simp_all

/-- Withdrawing an armed registration. -/
lemma Legal.drop (h : Legal (A ++ .armed :: B)) : B = [] ∧ Legal A := by
  unfold Legal at h ⊢
  rcases A with _ | ⟨a, _ | ⟨b, A⟩⟩ <;> rcases B with _ | ⟨c, B⟩ <;> simp_all

/-- Firing some of the armed entries. -/
lemma Legal.fire_replicate {n k : ℕ}
    (h : Legal (A ++ (List.replicate (n + k) .armed ++ B))) :
    Legal (A ++ (List.replicate n .notice ++ (List.replicate k .armed ++ B))) := by
  cases n with
  | zero => simpa using h
  | succ n =>
      rw [Nat.succ_add, List.replicate_succ, List.cons_append] at h
      obtain ⟨hrest, hl⟩ := h.fire
      obtain ⟨hnk, rfl⟩ := List.append_eq_nil_iff.mp hrest
      obtain ⟨rfl, rfl⟩ : n = 0 ∧ k = 0 := by
        rw [List.replicate_eq_nil_iff] at hnk
        omega
      simpa using hl

/-- Withdrawing some of the armed entries. -/
lemma Legal.drop_replicate {n k : ℕ} (h : Legal (A ++ (List.replicate n .armed ++ B)))
    (hk : k ≤ n) : Legal (A ++ (List.replicate k .armed ++ B)) := by
  rcases Nat.eq_or_lt_of_le hk with rfl | hlt
  · exact h
  · obtain ⟨n, rfl⟩ := Nat.exists_eq_add_of_lt hlt
    rw [List.replicate_succ, List.cons_append] at h
    obtain ⟨hrest, hl⟩ := h.drop
    obtain ⟨hnk, rfl⟩ := List.append_eq_nil_iff.mp hrest
    obtain rfl : k = 0 := by
      rw [List.replicate_eq_nil_iff] at hnk
      omega
    simpa using hl

/-- A registration whose notice is lost is armed again, the last of its traces. -/
lemma Legal.rearm (h : Legal (A ++ .notice :: B)) : B = [] ∧ Legal (A ++ [.armed]) := by
  unfold Legal at h ⊢
  rcases A with _ | ⟨a, _ | ⟨b, A⟩⟩ <;> rcases B with _ | ⟨c, B⟩ <;> simp_all

/-- Arming again some that have been consumed. -/
lemma Legal.rearm_replicate {n k : ℕ}
    (h : Legal (A ++ (List.replicate n .notice ++ List.replicate k .armed))) :
    Legal (A ++ List.replicate (k + n) .armed) := by
  cases n with
  | zero => simpa using h
  | succ n =>
      rw [List.replicate_succ, List.cons_append] at h
      obtain ⟨hrest, hl⟩ := h.rearm
      obtain ⟨hn, hk⟩ := List.append_eq_nil_iff.mp hrest
      rw [List.replicate_eq_nil_iff] at hn hk
      subst hn hk
      simpa using hl

end OneShot
