/-
# Post-orders

A list of the nodes below a node in which each comes after the nodes below itself.  When a rank
gets smaller on the way up, the post-orders of the children of a node, each followed by the
child, make up one of the node.
-/
import ConfigMonitor.Lib.Ancestry

namespace Ancestry

variable {α : Type*} {parent : α → α} {rank : α → ℕ} {S : Set α} {a b c q : α} {l : List α}

/-- The rank gets smaller on the way up, until a root is reached. -/
def Ranked (parent : α → α) (rank : α → ℕ) : Prop := ∀ a, parent a = a ∨ rank (parent a) < rank a

lemma Above.rank_le (h : Above parent a b) (hr : Ranked parent rank) : rank b ≤ rank a := by
  obtain ⟨n, rfl⟩ := h
  induction n with
  | zero => exact le_rfl
  | succ n ih =>
      rw [Function.iterate_succ_apply']
      rcases hr (parent^[n] a) with heq | hlt
      · rwa [heq]
      · omega

/-- A child of a node is not the node, so that its rank is larger. -/
lemma Ranked.child (hr : Ranked parent rank) (hc : parent c = q) (hne : c ≠ q) :
    rank q < rank c := by
  rcases hr c with heq | hlt
  · exact absurd (heq.symm.trans hc) hne
  · rwa [hc] at hlt

/-- Of two nodes above a third one is above the other. -/
lemma Above.total (ha : Above parent q a) (hb : Above parent q b) :
    Above parent a b ∨ Above parent b a := by
  obtain ⟨n, rfl⟩ := ha
  obtain ⟨m, rfl⟩ := hb
  rcases Nat.le_total n m with h | h
  · refine Or.inl ⟨m - n, ?_⟩
    rw [← Function.iterate_add_apply, Nat.sub_add_cancel h]
  · refine Or.inr ⟨n - m, ?_⟩
    rw [← Function.iterate_add_apply, Nat.sub_add_cancel h]

/-- The way from a node up to another one goes through a child of the latter. -/
lemma Above.exists_child (h : Above parent a q) (hne : a ≠ q) :
    ∃ c, Above parent a c ∧ parent c = q ∧ c ≠ q := by
  obtain ⟨n, hn⟩ := h
  induction n with
  | zero => exact absurd hn hne
  | succ n ih =>
      by_cases hq : parent^[n] a = q
      · exact ih hq
      · rw [Function.iterate_succ_apply'] at hn
        exact ⟨_, ⟨n, rfl⟩, hn, hq⟩

/-- A child of a node is above no other one. -/
lemma Ranked.not_above_sibling (hr : Ranked parent rank) (hb : parent b = q) (hc : parent c = q)
    (hne : b ≠ c) (hcq : c ≠ q) : ¬ Above parent b c := by
  intro h
  rcases above_iff.mp h with heq | h
  · exact hne heq.symm
  · rw [hb] at h
    have hle := h.rank_le hr
    have hlt := hr.child hc hcq
    omega

lemma Ranked.antisymm (hr : Ranked parent rank) (h : Above parent a b) (h' : Above parent b a) :
    a = b := by
  by_contra hne
  obtain ⟨c, hac, hc, hcb⟩ := h.exists_child hne
  have hle := hac.rank_le hr
  have hlt := hr.child hc hcb
  have hle' := h'.rank_le hr
  omega

/-- The nodes of `S` below `q`, each after those below itself. -/
structure PostOrder (parent : α → α) (S : Set α) (q : α) (l : List α) : Prop where
  mem_iff : ∀ a, a ∈ l ↔ a ∈ S ∧ a ≠ q ∧ Above parent a q
  pairwise : l.Pairwise fun a b => ¬ Above parent b a

lemma PostOrder.nodup (h : PostOrder parent S q l) : l.Nodup := by
  refine h.pairwise.imp fun {a b} hab heq => hab ?_
  rw [heq]
  exact .refl

/-- What is below a node of the list is in front of it. -/
lemma PostOrder.mem_front (h : PostOrder parent S q l) (hr : Ranked parent rank) {l₁ l₂ : List α}
    (hl : l ++ [q] = l₁ ++ a :: l₂) (hb : b ∈ S) (hne : b ≠ a) (hba : Above parent b a) :
    b ∈ l₁ := by
  have hpair : (l ++ [q]).Pairwise fun a b => ¬ Above parent b a := by
    refine List.pairwise_append.mpr ⟨h.pairwise, List.pairwise_singleton .., fun x hx y hy => ?_⟩
    obtain rfl := List.mem_singleton.mp hy
    obtain ⟨-, hxq, habove⟩ := (h.mem_iff x).mp hx
    exact fun hyx => hxq (hr.antisymm habove hyx)
  have haq : Above parent a q := by
    have ha : a ∈ l ++ [q] := by simp [hl]
    rcases List.mem_append.mp ha with ha | ha
    · exact ((h.mem_iff a).mp ha).2.2
    · obtain rfl := List.mem_singleton.mp ha
      exact .refl
  have hmem : b ∈ l ++ [q] := by
    refine List.mem_append_left _ ((h.mem_iff b).mpr ⟨hb, ?_, hba.trans haq⟩)
    rintro rfl
    exact hne (hr.antisymm hba haq)
  rw [hl] at hmem hpair
  rcases List.mem_append.mp hmem with hmem | hmem
  · exact hmem
  · have hafter := (List.pairwise_cons.mp (List.pairwise_append.mp hpair).2.1).1
    exact absurd hba (hafter b ((List.mem_cons.mp hmem).resolve_left hne))

/-- The post-orders of the children, each followed by the child. -/
theorem PostOrder.flatMap {children : List α} {below : α → List α} (hr : Ranked parent rank)
    (hS : Closed parent S) (hnodup : children.Nodup)
    (hchildren : ∀ c, c ∈ children ↔ c ∈ S ∧ c ≠ q ∧ parent c = q)
    (h : ∀ c ∈ children, PostOrder parent S c (below c)) :
    PostOrder parent S q (children.flatMap fun c => below c ++ [c]) := by
  -- the block of a child consists of what is at the child or below it
  have hblock : ∀ c ∈ children, ∀ a, a ∈ below c ++ [c] ↔ a ∈ S ∧ Above parent a c := by
    intro c hc a
    rw [List.mem_append, List.mem_singleton, (h c hc).mem_iff]
    by_cases hac : a = c
    · subst hac
      exact iff_of_true (Or.inr rfl) ⟨((hchildren a).mp hc).1, .refl⟩
    · simp [hac]
  constructor
  · intro a
    rw [List.mem_flatMap]
    constructor
    · rintro ⟨c, hc, ha⟩
      obtain ⟨-, hcq, hparent⟩ := (hchildren c).mp hc
      obtain ⟨haS, hac⟩ := (hblock c hc a).mp ha
      refine ⟨haS, ?_, hac.trans ⟨1, hparent⟩⟩
      rintro rfl
      have hle := hac.rank_le hr
      have hlt := hr.child hparent hcq
      omega
    · rintro ⟨haS, hne, habove⟩
      obtain ⟨c, hac, hparent, hcq⟩ := habove.exists_child hne
      have hc : c ∈ children := (hchildren c).mpr ⟨hS.above haS hac, hcq, hparent⟩
      exact ⟨c, hc, (hblock c hc a).mpr ⟨haS, hac⟩⟩
  · refine List.pairwise_flatMap.mpr ⟨fun c hc => ?_, ?_⟩
    · refine List.pairwise_append.mpr
        ⟨(h c hc).pairwise, List.pairwise_singleton .., fun x hx y hy => ?_⟩
      obtain rfl := List.mem_singleton.mp hy
      obtain ⟨-, hxy, habove⟩ := ((h y hc).mem_iff x).mp hx
      exact fun hyx => hxy (hr.antisymm habove hyx)
    · refine hnodup.imp_of_mem fun {b c} hb hc hbc x hx y hy hyx => ?_
      obtain ⟨-, hbq, hbp⟩ := (hchildren b).mp hb
      obtain ⟨-, hcq, hcp⟩ := (hchildren c).mp hc
      have hyb : Above parent y b := hyx.trans ((hblock b hb x).mp hx).2
      rcases hyb.total ((hblock c hc y).mp hy).2 with habove | habove
      · exact hr.not_above_sibling hbp hcp hbc hcq habove
      · exact hr.not_above_sibling hcp hbp hbc.symm hbq habove

end Ancestry
