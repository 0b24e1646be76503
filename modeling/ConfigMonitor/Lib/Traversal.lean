/-
# Depth-first traversals of a forest that changes

A traversal lists the children of a node and goes through them, each followed by what is below
it; the node itself is done when its children are.  The loops that wait are a stack of pairs, a
node and the siblings that come after it.  The children of a node are those it has at the moment
they are listed; nothing is assumed about the forest before and afterwards.

`Walk` says where a traversal stands, and each of the four things it can do has its rule.  What
is done in the end has been there at some moment, each node once and after those below it, and
nothing that has been there all the time is missing.
-/
import ConfigMonitor.Lib.PostOrder
import Mathlib.Data.List.Nodup

namespace Ancestry

variable {α : Type*}

/-- The nodes that the traversal is in. -/
def opened (stack : List (α × List α)) : List α := stack.map Prod.fst

/-- The nodes that come later in the loops that wait. -/
def waiting (stack : List (α × List α)) : List α := stack.flatMap Prod.snd

/-- The node whose children the innermost loop goes through. -/
def top (p : α) : List (α × List α) → α
  | [] => p
  | f :: _ => f.1

/-- Each loop goes through children of the node of the next one. -/
inductive Nested (parent : α → α) (p : α) : List (α × List α) → Prop
  | nil : Nested parent p []
  | cons {x : α} {rest : List α} {stack : List (α × List α)} (node : parent x = top p stack)
      (siblings : ∀ b ∈ rest, parent b = top p stack) (outer : Nested parent p stack) :
      Nested parent p ((x, rest) :: stack)

/-- The nodes the traversal has met. -/
def met (stack : List (α × List α)) (todo done : List α) : List α :=
  done ++ (opened stack ++ (todo ++ waiting stack))

/-- Where a traversal of what is below `p` stands: `todo` is what is left of the innermost loop,
`now` the node whose children are listed next, if there is one.  The nodes in `seen` have been
there at some moment, those in `stays` at every moment. -/
structure Walk (parent : α → α) (p : α) (seen stays : α → Prop) (stack : List (α × List α))
    (todo now done : List α) : Prop where
  nested : Nested parent p stack
  level : ∀ a ∈ todo, parent a = top p stack
  current : ∀ a ∈ now, a = top p stack
  nodup : (met stack todo done).Nodup
  below : ∀ a ∈ met stack todo done, a ≠ p ∧ Above parent a p
  up : ∀ a ∈ done, parent a = p ∨ parent a ∈ done ∨ parent a ∈ opened stack
  fresh : ∀ a, a ∈ todo ∨ a ∈ waiting stack ∨ a ∈ now →
    ∀ b ∈ met stack todo done, Above parent b a → b = a
  ordered : done.Pairwise fun a b => ¬ Above parent b a
  closed : ∀ a ∈ done, ∀ b ∈ opened stack ++ (todo ++ waiting stack), ¬ Above parent b a
  seen : ∀ a ∈ met stack todo done, seen a
  covers : ∀ q, q ≠ p → Above parent q p → stays q → q ∈ done ∨ q ∈ opened stack ∨
    ∃ a, (a ∈ todo ∨ a ∈ waiting stack ∨ a ∈ now) ∧ Above parent q a

variable {parent : α → α} {rank : α → ℕ} {p x : α} {seen seen' stays stays' : α → Prop}
  {stack : List (α × List α)} {todo now done rest l : List α}

lemma mem_met {a : α} : a ∈ met stack todo done ↔
    a ∈ done ∨ a ∈ opened stack ∨ a ∈ todo ∨ a ∈ waiting stack := by
  simp [met]

/-- A traversal is begun. -/
lemma walk_start (parent : α → α) (p : α) (seen stays : α → Prop) :
    Walk parent p seen stays [] [] [p] [] where
  nested := .nil
  level := by simp
  current a ha := List.mem_singleton.mp ha
  nodup := by simp [met, opened, waiting]
  below := by simp [met, opened, waiting]
  up := by simp
  fresh := by simp [met, opened, waiting]
  ordered := List.Pairwise.nil
  closed := by simp
  seen := by simp [met, opened, waiting]
  covers q _ hq _ := Or.inr (Or.inr ⟨p, Or.inr (Or.inr (List.mem_singleton.mpr rfl)), hq⟩)

/-- Time goes on. -/
lemma Walk.mono (h : Walk parent p seen stays stack todo now done) (hseen : ∀ a, seen a → seen' a)
    (hstays : ∀ a, stays' a → stays a) : Walk parent p seen' stays' stack todo now done :=
  { h with
    seen := fun a ha => hseen a (h.seen a ha)
    covers := fun q hne hq hs => h.covers q hne hq (hstays q hs) }

/-! ## The nodes of the stack -/

/-- A node the traversal is in is below the outer ones, and below `p`. -/
lemma Nested.above (h : Nested parent p ((x, rest) :: stack)) :
    Above parent x p ∧ ∀ y ∈ opened stack, Above parent x y := by
  induction stack generalizing x rest with
  | nil =>
      cases h with
      | cons node => exact ⟨above_iff.mpr (Or.inr (node ▸ .refl)), by simp [opened]⟩
  | cons f stack ih =>
      cases h with
      | cons node siblings outer =>
          obtain ⟨hp, habove⟩ := @ih f.1 f.2 outer
          have hx : Above parent x f.1 := above_iff.mpr (Or.inr (node ▸ .refl))
          refine ⟨hx.trans hp, fun y hy => ?_⟩
          rcases List.mem_cons.mp hy with rfl | hy
          · exact hx
          · exact hx.trans (habove y hy)

/-- What waits is a child of `p` or of an outer node. -/
lemma Nested.parent_waiting (h : Nested parent p ((x, rest) :: stack)) :
    ∀ b ∈ waiting ((x, rest) :: stack), parent b = p ∨ parent b ∈ opened stack := by
  induction stack generalizing x rest with
  | nil =>
      cases h with
      | cons node siblings =>
          intro b hb
          exact Or.inl (siblings b (by simpa [waiting] using hb))
  | cons f stack ih =>
      cases h with
      | cons node siblings outer =>
          intro b hb
          rcases List.mem_append.mp hb with hb | hb
          · exact Or.inr (siblings b hb ▸ List.mem_cons_self)
          · exact (@ih f.1 f.2 outer b hb).imp_right (List.mem_cons_of_mem _)

lemma Nested.above_top (h : Nested parent p stack) : Above parent (top p stack) p := by
  cases h with
  | nil => exact .refl
  | cons node siblings outer => exact (Nested.cons node siblings outer).above.1

/-- The innermost node is `p`, with nothing waiting, or among the nodes that the traversal
is in. -/
lemma top_cases (p : α) (stack : List (α × List α)) :
    stack = [] ∧ top p stack = p ∨ top p stack ∈ opened stack := by
  cases stack with
  | nil => exact Or.inl ⟨rfl, rfl⟩
  | cons f stack => exact Or.inr List.mem_cons_self

/-! ## The rules -/

/-- The loop comes to its next node. -/
lemma Walk.enter (h : Walk parent p seen stays stack (x :: rest) [] done) :
    Walk parent p seen stays ((x, rest) :: stack) [] [x] done := by
  have hperm : (met ((x, rest) :: stack) [] done).Perm (met stack (x :: rest) done) := by
    refine List.Perm.append_left done ?_
    exact List.perm_middle.symm
  have hmem : ∀ a, a ∈ met ((x, rest) :: stack) [] done ↔ a ∈ met stack (x :: rest) done :=
    fun a => hperm.mem_iff
  refine ⟨.cons (h.level x List.mem_cons_self)
    (fun b hb => h.level b (List.mem_cons_of_mem _ hb)) h.nested, by simp,
    fun a ha => List.mem_singleton.mp ha, hperm.nodup_iff.mpr h.nodup,
    fun a ha => h.below a ((hmem a).mp ha), fun a ha => ?_, fun a ha b hb hab => ?_, h.ordered,
    fun a ha b hb => h.closed a ha b ?_, fun a ha => h.seen a ((hmem a).mp ha),
    fun q hne hq hs => ?_⟩
  · exact (h.up a ha).imp_right (Or.imp_right (List.mem_cons_of_mem _))
  · refine h.fresh a ?_ b ((hmem b).mp hb) hab
    rcases ha with ha | ha | ha
    · exact absurd ha List.not_mem_nil
    · rcases List.mem_append.mp ha with ha | ha
      · exact Or.inl (List.mem_cons_of_mem _ ha)
      · exact Or.inr (Or.inl ha)
    · exact Or.inl (List.mem_singleton.mp ha ▸ List.mem_cons_self)
  · have hb' : b = x ∨ b ∈ opened stack ∨ b ∈ rest ∨ b ∈ waiting stack := by
      simpa [opened, waiting] using hb
    simp only [List.mem_append, List.mem_cons]
    tauto
  · rcases h.covers q hne hq hs with hd | ho | ⟨a, ha, hqa⟩
    · exact Or.inl hd
    · exact Or.inr (Or.inl (List.mem_cons_of_mem _ ho))
    · refine Or.inr (Or.inr ⟨a, ?_, hqa⟩)
      have ha' : (a = x ∨ a ∈ rest) ∨ a ∈ waiting stack := by simpa using ha
      rcases ha' with (rfl | ha) | ha
      · exact Or.inr (Or.inr (List.mem_singleton.mpr rfl))
      · exact Or.inr (Or.inl (List.mem_append_left _ ha))
      · exact Or.inr (Or.inl (List.mem_append_right _ ha))

/-- The loop has come to its end: its node is done. -/
lemma Walk.leave (h : Walk parent p seen stays ((x, rest) :: stack) [] [] done)
    (hr : Ranked parent rank) : Walk parent p seen stays stack rest [] (done ++ [x]) := by
  have hmet : met stack rest (done ++ [x]) = met ((x, rest) :: stack) [] done := by
    simp [met, opened, waiting]
  have hnested := h.nested
  obtain ⟨hxp, hxopen⟩ := hnested.above
  have hnodup := h.nodup
  rw [met, List.nodup_append] at hnodup
  obtain ⟨hdone, hopen, hdisj⟩ := hnodup
  have hxin : x ∈ met ((x, rest) :: stack) [] done :=
    mem_met.mpr (Or.inr (Or.inl (by simp [opened])))
  have hxout : x ∉ opened stack ++ (rest ++ waiting stack) := by
    have hcons : (x :: (opened stack ++ (rest ++ waiting stack))).Nodup := hopen
    exact (List.nodup_cons.mp hcons).1
  cases hnested with
  | cons node siblings outer =>
      refine ⟨outer, siblings, by simp, hmet ▸ h.nodup, fun a ha => h.below a (hmet ▸ ha),
        fun a ha => ?_, fun a ha b hb hab => ?_, ?_, fun a ha b hb hab => ?_,
        fun a ha => h.seen a (hmet ▸ ha), fun q hne hq hs => ?_⟩
      · rcases List.mem_append.mp ha with ha | ha
        · rcases h.up a ha with hp | hd | ho
          · exact Or.inl hp
          · exact Or.inr (Or.inl (List.mem_append_left _ hd))
          · rcases List.mem_cons.mp ho with heq | ho
            · exact Or.inr (Or.inl (List.mem_append_right _ (List.mem_singleton.mpr heq)))
            · exact Or.inr (Or.inr ho)
        · rw [List.mem_singleton.mp ha, node]
          exact (top_cases p stack).imp And.right Or.inr
      · refine h.fresh a ?_ b (hmet ▸ hb) hab
        rcases ha with ha | ha | ha
        · exact Or.inr (Or.inl (List.mem_append_left _ ha))
        · exact Or.inr (Or.inl (List.mem_append_right _ ha))
        · exact absurd ha List.not_mem_nil
      · rw [List.pairwise_append]
        refine ⟨h.ordered, List.pairwise_singleton _ _, fun a ha b hb => ?_⟩
        rw [List.mem_singleton.mp hb]
        exact h.closed a ha x (by simp [opened])
      · rcases List.mem_append.mp ha with ha | ha
        · refine h.closed a ha b ?_ hab
          have hb' : b ∈ opened stack ∨ b ∈ rest ∨ b ∈ waiting stack := by simpa using hb
          simp only [opened, waiting, List.map_cons, List.flatMap_cons, List.mem_append,
            List.mem_cons] at hb' ⊢
          tauto
        · -- what is left is not below the node that is done
          obtain rfl := List.mem_singleton.mp ha
          have hba : b ≠ a := fun heq => hxout (heq ▸ hb)
          rcases List.mem_append.mp hb with hb | hb
          · exact hba (hr.antisymm hab (hxopen b hb))
          · have hpar := (Nested.cons node siblings outer).parent_waiting b
              (by simpa [waiting] using hb)
            have habove : Above parent (parent b) a :=
              (above_iff.mp hab).resolve_left (Ne.symm hba)
            rcases hpar with hpar | hpar
            · rw [hpar] at habove
              exact (h.below a hxin).1 (hr.antisymm hxp habove)
            · have heq := hr.antisymm (hxopen _ hpar) habove
              exact hxout (List.mem_append_left _ (heq ▸ hpar))
      · rcases h.covers q hne hq hs with hd | ho | ⟨a, ha, hqa⟩
        · exact Or.inl (List.mem_append_left _ hd)
        · rcases List.mem_cons.mp ho with heq | ho
          · exact Or.inl (List.mem_append_right _ (List.mem_singleton.mpr heq))
          · exact Or.inr (Or.inl ho)
        · refine Or.inr (Or.inr ⟨a, ?_, hqa⟩)
          have ha' : a ∈ rest ∨ a ∈ waiting stack := by simpa [waiting] using ha
          exact ha'.imp_right Or.inl

/-- The children of a node, as they are listed. -/
structure Children (parent : α → α) (x : α) (seen stays : α → Prop) (l : List α) : Prop where
  nodup : l.Nodup
  child : ∀ c ∈ l, parent c = x ∧ c ≠ x
  seen : ∀ c ∈ l, seen c
  all : ∀ c, parent c = x → c ≠ x → stays c → c ∈ l

/-- The children of the innermost node are listed. -/
lemma Walk.list (h : Walk parent p seen stays stack [] [top p stack] done)
    (hr : Ranked parent rank) (hstays : ∀ a, stays a → stays (parent a))
    (hl : Children parent (top p stack) seen stays l) :
    Walk parent p seen stays stack l [] done := by
  have htop := h.nested.above_top
  have habove : ∀ c ∈ l, Above parent c (top p stack) := fun c hc =>
    above_iff.mpr (Or.inr ((hl.child c hc).1 ▸ .refl))
  -- nothing below the node has been met
  have hnew : ∀ c ∈ l, c ∉ met stack [] done := by
    intro c hc hmem
    exact (hl.child c hc).2
      (h.fresh _ (Or.inr (Or.inr (List.mem_singleton.mpr rfl))) c hmem (habove c hc))
  have hmem : ∀ a, a ∈ met stack l done ↔ a ∈ met stack [] done ∨ a ∈ l := by
    intro a
    rw [mem_met, mem_met]
    simp only [List.not_mem_nil, false_or]
    tauto
  have hne : ∀ c ∈ l, c ≠ p := by
    rintro c hc rfl
    exact (hl.child c hc).2 (hr.antisymm (habove c hc) htop)
  have hperm : (met stack l done).Perm (l ++ met stack [] done) := by
    have hleft : met stack l done = (done ++ opened stack) ++ (l ++ waiting stack) := by
      simp [met]
    have hright : l ++ met stack [] done = l ++ ((done ++ opened stack) ++ waiting stack) := by
      simp [met]
    rw [hleft, hright]
    exact List.perm_append_comm_assoc _ _ _
  -- a node that waits is not below a child that is listed, nor the other way round
  have hwait : ∀ a ∈ waiting stack, ∀ b ∈ l, ¬ Above parent b a := by
    intro a ha b hb hab
    rcases above_iff.mp hab with rfl | hab
    · exact hnew a hb (mem_met.mpr (Or.inr (Or.inr (Or.inr ha))))
    · rw [(hl.child b hb).1] at hab
      rcases top_cases p stack with ⟨rfl, -⟩ | hopen
      · simp [waiting] at ha
      · have heq := h.fresh a (Or.inr (Or.inl ha)) _ (mem_met.mpr (Or.inr (Or.inl hopen))) hab
        have hnodup := h.nodup
        rw [met, List.nodup_append, List.nodup_append] at hnodup
        exact hnodup.2.1.2.2 _ hopen a (List.mem_append_right _ ha) heq
  refine ⟨h.nested, fun a ha => (hl.child a ha).1, by simp, hperm.nodup_iff.mpr ?_,
    fun a ha => ?_, h.up, fun a ha b hb hab => ?_, h.ordered, fun a ha b hb hab => ?_,
    fun a ha => ?_, fun q hq hqp hs => ?_⟩
  · rw [List.nodup_append]
    refine ⟨hl.nodup, h.nodup, ?_⟩
    rintro c hc b hb rfl
    exact hnew c hc hb
  · rcases (hmem a).mp ha with ha | ha
    · exact h.below a ha
    · exact ⟨hne a ha, (habove a ha).trans htop⟩
  · rcases (hmem b).mp hb with hb | hb
    · rcases ha with ha | ha | ha
      · -- a child is not above a node that has been met
        have heq := h.fresh _ (Or.inr (Or.inr (List.mem_singleton.mpr rfl))) b hb
          (hab.trans (habove a ha))
        rw [heq] at hab
        exact absurd (hr.antisymm (habove a ha) hab) (hl.child a ha).2
      · exact h.fresh a (Or.inr (Or.inl ha)) b hb hab
      · exact absurd ha List.not_mem_nil
    · rcases ha with ha | ha | ha
      · by_contra hba
        exact hr.not_above_sibling (hl.child b hb).1 (hl.child a ha).1 hba (hl.child a ha).2 hab
      · exact absurd hab (hwait a ha b hb)
      · exact absurd ha List.not_mem_nil
  · have hb' : b ∈ opened stack ∨ b ∈ l ∨ b ∈ waiting stack := by simpa using hb
    rcases hb' with hb | hb | hb
    · exact h.closed a ha b (List.mem_append_left _ hb) hab
    · rcases above_iff.mp hab with rfl | hab
      · exact hnew a hb (mem_met.mpr (Or.inl ha))
      · rw [(hl.child b hb).1] at hab
        rcases top_cases p stack with ⟨-, heq⟩ | hopen
        · rw [heq] at hab
          obtain ⟨hap, hbelow⟩ := h.below a (mem_met.mpr (Or.inl ha))
          exact hap (hr.antisymm hbelow hab)
        · exact h.closed a ha _ (List.mem_append_left _ hopen) hab
    · exact h.closed a ha b (List.mem_append_right _ (List.mem_append_right _ hb)) hab
  · exact ((hmem a).mp ha).elim (h.seen a) (hl.seen a)
  · rcases h.covers q hq hqp hs with hd | ho | ⟨a, ha, hqa⟩
    · exact Or.inl hd
    · exact Or.inr (Or.inl ho)
    · rcases ha with ha | ha | ha
      · exact absurd ha List.not_mem_nil
      · exact Or.inr (Or.inr ⟨a, Or.inr (Or.inl ha), hqa⟩)
      · obtain rfl := List.mem_singleton.mp ha
        by_cases hqt : q = top p stack
        · rcases top_cases p stack with ⟨-, heq⟩ | hopen
          · exact absurd (hqt.trans heq) hq
          · exact Or.inr (Or.inl (hqt ▸ hopen))
        · -- the way up goes through a child, and that one stays too
          obtain ⟨c, hqc, hc, hct⟩ := hqa.exists_child hqt
          have hclosed : Closed parent {a | stays a} := hstays
          have hcl := hl.all c hc hct (hclosed.above hs hqc)
          exact Or.inr (Or.inr ⟨c, Or.inl hcl, hqc⟩)

/-- A traversal that has come to its end. -/
structure Traversed (parent : α → α) (p : α) (seen stays : α → Prop) (done : List α) : Prop where
  nodup : done.Nodup
  below : ∀ a ∈ done, a ≠ p ∧ Above parent a p ∧ seen a
  up : ∀ a ∈ done, parent a = p ∨ parent a ∈ done
  ordered : done.Pairwise fun a b => ¬ Above parent b a
  covers : ∀ q, q ≠ p → Above parent q p → stays q → q ∈ done

lemma Walk.traversed (h : Walk parent p seen stays [] [] [] done) :
    Traversed parent p seen stays done := by
  have hmet : met ([] : List (α × List α)) [] done = done := by simp [met, opened, waiting]
  refine ⟨hmet ▸ h.nodup, fun a ha => ?_, fun a ha => ?_, h.ordered, fun q hne hq hs => ?_⟩
  · obtain ⟨hne, habove⟩ := h.below a (hmet.symm ▸ ha)
    exact ⟨hne, habove, h.seen a (hmet.symm ▸ ha)⟩
  · exact (h.up a ha).imp_right fun hor => hor.resolve_right (by simp [opened])
  · rcases h.covers q hne hq hs with hd | ho | ⟨a, ha, -⟩
    · exact hd
    · simp [opened] at ho
    · simp [waiting] at ha

end Ancestry
