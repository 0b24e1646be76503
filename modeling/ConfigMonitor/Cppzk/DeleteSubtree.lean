/-
# What is deleted

When nobody else changes the tree, the listing is a post-order of what is below the path, so that
each node has no children left when its turn comes.
-/
import ConfigMonitor.Cppzk.DeletePath

namespace ConfigMonitor

open Ancestry Run

namespace DeletePath

open Operations Listing

variable {t t' : Tree} {p q : Path} {v : Version} {subs : List Path} {l l' : Listing.Progress}

/-- The request of the call is handled `n` times, and nobody else changes the tree. -/
abbrev Serves (n : ℕ) : State → State → Prop :=
  fun s s' => Runs State.step s (List.replicate n (.serve none)) s'

/-- The call returns the code and leaves the tree `t'`. -/
def Leaves (t : Tree) (v : Version) (p : Path) (rc : ZooError) (t' : Tree) : Prop :=
  ∃ n s, Serves n (State.init t v p) s ∧ s.progress = .returned (.operated rc) ∧ s.tree = t'

lemma Serves.trans {n m : ℕ} {s s' s'' : State} (h : Serves n s s') (h' : Serves m s' s'') :
    Serves (n + m) s s'' := by
  rw [Serves, ← List.replicate_append_replicate]
  exact h.append h'

lemma Serves.one {s s' : State} (h : s.serve none = some s') : Serves 1 s s' := Runs.nil.snoc h

/-! ## Listing -/

/-- A call that is as far as its listing. -/
def State.at (t : Tree) (v : Version) (p : Path) (progress : Progress)
    (deleted : List (Path × Tree)) : State where
  tree := t
  version := v
  path := p
  progress := progress
  deleted := deleted

lemma serves_listing (h : Steps v t l l') (deleted : List (Path × Tree)) :
    ∃ n, Serves n (.at t v p (listed v p l) deleted) (.at t v p (listed v p l') deleted) := by
  induction h with
  | refl => exact ⟨0, .nil⟩
  | @tail l₁ l₂ _ hserve ih =>
      obtain ⟨n, hn⟩ := ih
      obtain ⟨q, hq, rfl⟩ := Option.map_eq_some_iff.mp hserve
      have hlisted : listed v p l₁ = .listing l₁ := by
        cases l₁ <;> first | rfl | simp [Listing.Progress.request] at hq
      refine ⟨n + 1, hn.trans (.one ?_)⟩
      rw [hlisted, State.serve]
      simp only [State.at, hq, Option.map_some]

/-! ## Deleting -/

/-- The nodes are deleted one after another. -/
def deleteAll (t : Tree) (subs : List Path) : Option Tree := subs.foldlM Tree.delete t

/-- The call goes on with the paths that are left. -/
def remaining : Version → List Path → Progress
  | .sync, subs => deleteLoop subs
  | .async, [] => .returned (.operated .zok)
  | .async, sub :: rest => goOn (.request (.adelete sub) (.deleteChain (sub :: rest)))

lemma listed_returned : listed v p (.returned .zok subs) = remaining v (subs ++ [p]) := by
  cases v with
  | sync => rfl
  | async => cases subs <;> rfl

lemma serves_remaining (h : deleteAll t subs = some t') (deleted : List (Path × Tree)) :
    ∃ n deleted', Serves n (.at t v p (remaining v subs) deleted)
      (.at t' v p (.returned (.operated .zok)) deleted') := by
  induction subs generalizing t deleted with
  | nil =>
      obtain rfl := Option.some.inj h
      refine ⟨0, deleted, ?_⟩
      cases v <;> exact .nil
  | cons sub rest ih =>
      obtain ⟨t₁, hdelete, hrest⟩ := Option.bind_eq_some_iff.mp h
      obtain ⟨n, deleted', hn⟩ := ih hrest (deleted ++ [(sub, t₁)])
      have hv : isValidPath sub false = true :=
        Tree.isValidPath_of_get (Tree.get_of_delete hdelete)
      refine ⟨1 + n, deleted', .trans (.one ?_) hn⟩
      cases v with
      | sync =>
          rw [remaining, deleteLoop, if_pos hv, State.serve]
          simp [State.at, State.answer, hdelete, remaining]
      | async =>
          have hacc : usableHandle.accepts (.adelete sub) = true := by
            simp [Handle.accepts, usableHandle, hv]
          rw [remaining, goOn, if_pos hacc, State.serve]
          cases rest <;>
            simp [State.at, State.answer, hdelete, remaining, Pending.complete, deleteCompletion,
              goOn]

/-- The tree without some of its nodes. -/
def Without (t : Tree) (gone : List Path) (t' : Tree) : Prop :=
  ∀ a, t'.get a = if a ∈ gone then none else t.get a

lemma above_root (h : Above parentPath root p) : p = root := by
  obtain ⟨n, rfl⟩ := h
  exact Function.iterate_fixed parentPath_root n

/-- A node of the list, or the one below which the list is: it is not the root. -/
lemma mem_of_postOrder {l : List Path} {a : Path}
    (hl : PostOrder parentPath {a | a ∈ t.paths} p l) (hp : p ∈ t.paths) (hroot : p ≠ root)
    (ha : a ∈ l ++ [p]) : a ∈ t.paths ∧ a ≠ root := by
  rcases List.mem_append.mp ha with ha | ha
  · obtain ⟨hmem, -, habove⟩ := (hl.mem_iff a).mp ha
    refine ⟨hmem, ?_⟩
    rintro rfl
    exact hroot (above_root habove)
  · obtain rfl := List.mem_singleton.mp ha
    exact ⟨hp, hroot⟩

/-- When a node of a post-order has its turn, its children are gone. -/
lemma children_of_without {l gone rest : List Path} {a : Path}
    (hl : PostOrder parentPath {a | a ∈ t.paths} p l) (hsplit : l ++ [p] = gone ++ a :: rest)
    (ht : Without t gone t') : t'.children a = [] := by
  rw [List.eq_nil_iff_forall_not_mem]
  intro c hc
  obtain ⟨n, hn, hif⟩ := List.mem_filterMap.mp hc
  split_ifs at hif with hcond
  have hsome := Tree.get_isSome_iff.mpr (List.mem_map_of_mem (f := Prod.fst) hn)
  rw [ht n.1] at hsome
  split_ifs at hsome with hgone
  · simp at hsome
  · have hmem := Tree.get_isSome_iff.mp hsome
    refine hgone (hl.mem_front ranked_length hsplit hmem ?_ ⟨1, hcond.2⟩)
    rw [← hcond.2]
    exact (parentPath_ne hmem hcond.1).symm

/-- A post-order can be deleted in its order. -/
lemma exists_deleteAll {l gone rest : List Path}
    (hl : PostOrder parentPath {a | a ∈ t.paths} p l) (hp : p ∈ t.paths) (hroot : p ≠ root)
    (hsplit : l ++ [p] = gone ++ rest) (ht : Without t gone t') :
    ∃ t'', deleteAll t' rest = some t'' ∧ Without t (l ++ [p]) t'' := by
  induction rest generalizing gone t' with
  | nil =>
      rw [List.append_nil] at hsplit
      exact ⟨t', rfl, hsplit ▸ ht⟩
  | cons a rest ih =>
      obtain ⟨hmem, haroot⟩ := mem_of_postOrder hl hp hroot (a := a) (by simp [hsplit])
      have hnodup : (l ++ [p]).Nodup := List.nodup_append.mpr
        ⟨hl.nodup, List.nodup_singleton p, fun x hx y hy heq =>
          ((hl.mem_iff x).mp hx).2.1 (heq.trans (List.mem_singleton.mp hy))⟩
      have hnot : a ∉ gone := by
        intro ha
        rw [hsplit] at hnodup
        exact (List.nodup_append.mp hnodup).2.2 a ha a List.mem_cons_self rfl
      obtain ⟨t₁, hdelete⟩ : ∃ t₁, t'.delete a = some t₁ := by
        have hsome : (t'.get a).isSome := by
          rw [ht a, if_neg hnot]
          exact Tree.get_isSome_iff.mpr hmem
        rw [Tree.delete, dif_pos
          ⟨Tree.get_isSome_iff.mp hsome, haroot, children_of_without hl hsplit ht⟩]
        exact ⟨_, rfl⟩
      have hgone : Without t (gone ++ [a]) t₁ := by
        intro b
        rw [Tree.get_delete hdelete, ht b]
        by_cases hb : b = a <;> simp [hb]
      obtain ⟨t'', hall, hwithout⟩ := ih (by simp [hsplit]) hgone
      refine ⟨t'', ?_, hwithout⟩
      rw [deleteAll, List.foldlM_cons, hdelete]
      exact hall

/-! ## The result -/

lemma init_sync : State.init t .sync p = .at t .sync p (listed .sync p (recursiveGetSubPath p)) [] :=
  rfl

lemma init_async : State.init t .async p =
    .at t .async p (listed .async p (asyncRecursiveGetSubPath p)) [] := rfl

/-- A call that has listed what is below the path deletes it. -/
lemma leaves_of_steps {l : List Path} (hsteps : Steps v t l' (.returned .zok l))
    (hinit : State.init t v p = .at t v p (listed v p l') [])
    (hall : deleteAll t (l ++ [p]) = some t') : Leaves t v p .zok t' := by
  obtain ⟨n, hn⟩ := serves_listing (p := p) hsteps []
  obtain ⟨m, deleted', hm⟩ := serves_remaining (v := v) (p := p) hall []
  rw [listed_returned] at hn
  rw [← hinit] at hn
  exact ⟨n + m, _, hn.trans hm, rfl, rfl⟩

/-- A call whose node does not exist is told so by the answer to its first request. -/
lemma leaves_of_not_mem (hv : isValidPath p false = true) (hp : p ∉ t.paths) :
    Leaves t v p .znonode t := by
  have hget : getChildren t p none = .error ⟨.znonode, znonode_ne_zok⟩ := by
    rw [getChildren, if_neg hp]
  cases v with
  | sync =>
      have hstep : Steps .sync t (recursiveGetSubPath p) (.returned .znonode []) := by
        rw [recursiveGetSubPath, call, if_pos hv]
        refine .single ?_
        rw [Listing.Progress.serve, Listing.Progress.request, Option.map_some, hget]
        rfl
      obtain ⟨n, hn⟩ := serves_listing (p := p) hstep []
      rw [← init_sync] at hn
      exact ⟨n, _, hn, rfl, rfl⟩
  | async =>
      have hstep : Steps .async t (asyncRecursiveGetSubPath p) (.returned .znonode []) := by
        rw [asyncRecursiveGetSubPath, if_pos hv]
        refine .single ?_
        rw [Listing.Progress.serve, Listing.Progress.request, Option.map_some, hget]
        rfl
      obtain ⟨n, hn⟩ := serves_listing (p := p) hstep []
      rw [← init_async] at hn
      exact ⟨n, _, hn, rfl, rfl⟩

/-- Both versions delete the node and what is below it, and nothing else; when there is no node
both say so and change nothing. -/
theorem delete_subtree (hv : isValidPath p false = true) (hroot : p ≠ root) (t : Tree) :
    ∃ rc t', Leaves t .sync p rc t' ∧ Leaves t .async p rc t' ∧
      (p ∈ t.paths → rc = .zok ∧ ∀ a, (Above parentPath a p → t'.get a = none) ∧
        (¬ Above parentPath a p → t'.get a = t.get a)) ∧
      (p ∉ t.paths → rc = .znonode ∧ t' = t) := by
  by_cases hp : p ∈ t.paths
  · obtain ⟨l, hsync, hasync, hl⟩ := exists_steps hp (childPaths_map hp hroot)
    have hself : Without t [] t := fun a => by simp
    obtain ⟨t', hall, hwithout⟩ :=
      exists_deleteAll hl hp hroot (List.nil_append (l ++ [p])).symm hself
    refine ⟨.zok, t', leaves_of_steps hsync init_sync hall,
      leaves_of_steps hasync init_async hall, fun _ => ⟨rfl, fun a => ?_⟩, fun h => absurd hp h⟩
    have hmem : a ∈ l ++ [p] ↔ a ∈ t.paths ∧ Above parentPath a p := by
      rw [List.mem_append, List.mem_singleton, hl.mem_iff]
      by_cases ha : a = p
      · subst ha
        exact iff_of_true (Or.inr rfl) ⟨hp, .refl⟩
      · simp [ha]
    rw [hwithout a]
    constructor
    · intro habove
      split_ifs with hgone
      · rfl
      · exact Tree.get_eq_none_iff.mpr fun ha => hgone (hmem.mpr ⟨ha, habove⟩)
    · intro habove
      rw [if_neg fun hgone => habove (hmem.mp hgone).2]
  · exact ⟨.znonode, t, leaves_of_not_mem hv hp, leaves_of_not_mem hv hp, fun h => absurd h hp,
      fun _ => ⟨rfl, rfl⟩⟩

/-- `/c` with its child. -/
theorem delete_subtree_treeCD : ∃ t', Leaves treeCD .sync ['/', 'c'] .zok t' ∧
    Leaves treeCD .async ['/', 'c'] .zok t' ∧ t'.get ['/', 'c', '/', 'd'] = none := by
  obtain ⟨rc, t', hsync, hasync, hmem, -⟩ :=
    delete_subtree (p := ['/', 'c']) (by decide) (by decide) treeCD
  obtain ⟨rfl, hget⟩ := hmem (by decide)
  exact ⟨t', hsync, hasync, (hget ['/', 'c', '/', 'd']).1 ⟨1, rfl⟩⟩

end DeletePath

end ConfigMonitor
