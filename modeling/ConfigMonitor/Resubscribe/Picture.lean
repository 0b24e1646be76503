/-
# The picture a fresh sub-path subscription gets

`watch_sub_path(p, cb)` on a monitor at rest, with no further changes: one exists request, one
listing, and one read for each child that is not in `last_sub_path_[p]`.  That set outlives the
subscriptions it was made for.
-/
import ConfigMonitor.Resubscribe.Owed
import ConfigMonitor.Removal.Frame
import ConfigMonitor.Monitor.Truthful

namespace ConfigMonitor

namespace Resubscribe

open Run WatchSubPath

/-- The value of every child of `p`. -/
def picture (t : Tree) (cb : Cb) (p : Path) : List Call :=
  (t.children p).filterMap fun s => (t.get (subPath p s)).map (changedAt cb (subPath p s))

/-- What has been called in `w'` since `w` is the value of every child of `p`, each once. -/
def Pictured (w : World) (p : Path) (cb : Cb) (w' : World) : Prop :=
  ∃ ks, w'.client.calls = w.client.calls ++ ks ∧ ks.Perm (picture w.tree cb p)

/-- A subscription to a node that is there tells its callback the value of every child, once,
and nothing else. -/
def FullPicture : Prop :=
  ∀ t w p cb w', Reach World.step Truthful.Allowed (World.start t) w → w.Quiescent →
    (w.tree.get p).isSome → p ≠ root →
    Reach World.step (fun _ a => a.Internal)
      { w with client := w.client.watchSubPath p cb } w' → w'.Quiescent →
      Pictured w p cb w'

/-! ## A path that is watched again -/

theorem not_fullPicture : ¬ FullPicture := by
  intro h
  obtain ⟨w, hr, hw⟩ := exists_reach_of_exec World.step Truthful.Allowed (World.start treePC)
    [.watchSubPath ['/', 'p'] 0, .serve, .deliver, .serve, .deliver, .serve, .deliver]
    (fun w => (decide w.Quiescent, (w.tree.get ['/', 'p']).isSome, picture w.tree 1 ['/', 'p'],
      (exec World.step (fun _ a => a.Internal)
        { w with client := w.client.watchSubPath ['/', 'p'] 1 }
        [.serve, .deliver, .serve, .deliver]).map fun w' : World =>
          (decide w'.Quiescent, decide (w'.client.calls = w.client.calls))))
    (true, true, [changedAt 1 ['/', 'p', '/', 'c'] (some ['a'])], some (true, true)) rfl
  simp only [Prod.mk.injEq, decide_eq_true_eq] at hw
  obtain ⟨hq, hsome, hpic, hrun⟩ := hw
  obtain ⟨w', hw', hrun⟩ := Option.map_eq_some_iff.mp hrun
  simp only [Prod.mk.injEq, decide_eq_true_eq] at hrun
  obtain ⟨ks, hks, hperm⟩ := h treePC w ['/', 'p'] 1 w' hr hq hsome (by decide)
    (reach_of_exec hw') hrun.1
  obtain rfl : ks = [] := by
    rw [hrun.2] at hks
    exact List.append_right_eq_self.mp hks.symm
  rw [hpic] at hperm
  exact absurd hperm.length_eq (by simp)

/-! ## What the subscription is told -/

variable {t : Tree} {w w' : World} {p : Path} {cb : Cb}

/-- The exists request of the call is all that owes anything. -/
lemma quiet_watchSubPath (p : Path) (cb : Cb) (hwf : w.Wf) (hw : w.Quiescent) :
    let w₁ : World := { w with client := w.client.watchSubPath p cb }
    Quiet w.tree w₁ ∧ w₁.client.calls = w.client.calls ∧
      owed w.tree w₁ = newPicture w.tree w.client cb p := by
  intro w₁
  have hnil : listing w = [] := by
    rw [listing, pending, hw.1, hw.2]
    rfl
  have hreg : Registers w.tree w (.watchSubPath cb p) w₁ :=
    (quiet_of_quiescent hwf hw).register (.watchSubPath cb p) w.client.watchRecord _ fun p' _ => by
      rw [hnil]
      simp
  refine ⟨hreg.quiet, hreg.calls, ?_⟩
  rw [hreg.owed, owed_of_quiescent hw]
  rfl

/-- In a quiet session what has been called since is what was owed. -/
lemma Quiet.calls_of_quiescent (h : Quiet t w)
    (hr : Reach World.step (fun _ a => a.Internal) w w') (hw' : w'.Quiescent) :
    ∃ ks, w'.client.calls = w.client.calls ++ ks ∧ ks.Perm (owed t w) := by
  have hstep : ∀ u a u', (∃ ks, Quiet t u ∧ u.client.calls = w.client.calls ++ ks ∧
      (ks ++ owed t u).Perm (owed t w)) → Action.Internal a → u.step a = some u' →
      ∃ ks, Quiet t u' ∧ u'.client.calls = w.client.calls ++ ks ∧
        (ks ++ owed t u').Perm (owed t w) := by
    rintro u a u' ⟨ks, hq, hks, hperm⟩ ha hs
    obtain ⟨ks', hadv⟩ := hq.step ha hs
    refine ⟨ks ++ ks', hadv.quiet, by rw [hadv.calls, hks, List.append_assoc], ?_⟩
    rw [List.append_assoc]
    exact (hadv.owed.append_left ks).trans hperm
  obtain ⟨ks, -, hks, hperm⟩ := hr.invariant
    ⟨[], h, (List.append_nil _).symm, List.Perm.refl _⟩ hstep
  refine ⟨ks, hks, ?_⟩
  rwa [owed_of_quiescent hw', List.append_nil] at hperm

/-- The children that are reported are all children if and only if none is known. -/
lemma newPicture_perm_iff {c : Client} (hsome : (t.get p).isSome) (hroot : p ≠ root) :
    (newPicture t c cb p).Perm (picture t cb p) ↔ ∀ s ∈ t.children p, knows c p s = false := by
  have hp : p ≠ [] := by
    rintro rfl
    have hv := Tree.isValidPath_of_get hsome
    simp [isValidPath] at hv
  have hfresh : fresh c p (t.children p) = (t.children p).filter fun s => !knows c p s := by
    rw [fresh]
    unfold knows
    cases c.lastSubPath.lookup p <;> simp
  have hvalue : ∀ s ∈ t.children p, (t.get (subPath p s)).isSome := fun s hs =>
    ((Tree.mem_children_iff hp hroot).mp hs).2
  have hlen : ∀ l : List Str, l ⊆ t.children p → (l.filterMap fun s =>
      (t.get (subPath p s)).map (changedAt cb (subPath p s))).length = l.length := by
    intro l hl
    rw [List.length_filterMap_eq_countP, List.countP_eq_length]
    intro s hs
    rw [Option.isSome_map]
    exact hvalue s (hl hs)
  rw [newPicture, if_pos hsome, picture, hfresh]
  constructor
  · intro hperm
    have hcount := hperm.length_eq
    rw [hlen _ (List.filter_subset_self _), hlen _ fun _ hs => hs,
      List.length_filter_eq_length_iff] at hcount
    exact fun s hs => by simpa using hcount s hs
  · intro hnone
    rw [List.filter_eq_self.mpr fun s hs => by rw [hnone s hs]; rfl]

/-- A fresh subscription gets the full picture if and only if no child of the path is in
`last_sub_path_` under it. -/
theorem pictured_iff_not_knows {t : Tree}
    (hr : Reach World.step Truthful.Allowed (World.start t) w) (hw : w.Quiescent)
    (hsome : (w.tree.get p).isSome) (hroot : p ≠ root)
    (hrun : Reach World.step (fun _ a => a.Internal)
      { w with client := w.client.watchSubPath p cb } w') (hw' : w'.Quiescent) :
    Pictured w p cb w' ↔ ∀ s ∈ w.tree.children p, knows w.client p s = false := by
  obtain ⟨hquiet, hcalls, howed⟩ :=
    quiet_watchSubPath p cb (World.wf_of_reach hr) hw
  obtain ⟨ks, hks, hperm⟩ := hquiet.calls_of_quiescent hrun hw'
  rw [hcalls] at hks
  rw [howed] at hperm
  rw [← newPicture_perm_iff hsome hroot]
  constructor
  · rintro ⟨ks', hks', hperm'⟩
    obtain rfl := List.append_cancel_left (hks.symm.trans hks')
    exact hperm.symm.trans hperm'
  · exact fun hpic => ⟨ks, hks, hperm.trans hpic⟩

/-- A node with one child is watched, let go again, and watched anew. -/
theorem pictured_iff_not_knows_treePC : ∃ w w' : World,
    w.client.calls = [changedAt 0 ['/', 'p', '/', 'c'] (some ['a']), .done 1 .zok] ∧
      Pictured w ['/', 'p'] 2 w' ∧
      w'.client.calls = w.client.calls ++ [changedAt 2 ['/', 'p', '/', 'c'] (some ['a'])] := by
  obtain ⟨w, hr, hw⟩ := exists_reach_of_exec World.step Truthful.Allowed (World.start treePC)
    [.watchSubPath ['/', 'p'] 0, .serve, .deliver, .serve, .deliver, .serve, .deliver,
      .asyncRemoveWatches ['/', 'p'] .watchSubPath 1, .serve, .deliver, .serve, .deliver, .serve,
      .deliver]
    (fun w => (decide w.Quiescent, w.client.calls, (w.tree.get ['/', 'p']).isSome,
      decide (∀ s ∈ w.tree.children ['/', 'p'], knows w.client ['/', 'p'] s = false),
      (exec World.step (fun _ a => a.Internal)
        { w with client := w.client.watchSubPath ['/', 'p'] 2 }
        [.serve, .deliver, .serve, .deliver, .serve, .deliver]).map fun w' : World =>
          (decide w'.Quiescent, w'.client.calls)))
    (true, [changedAt 0 ['/', 'p', '/', 'c'] (some ['a']), .done 1 .zok], true, true,
      some (true, [changedAt 0 ['/', 'p', '/', 'c'] (some ['a']), .done 1 .zok,
        changedAt 2 ['/', 'p', '/', 'c'] (some ['a'])])) rfl
  simp only [Prod.mk.injEq, decide_eq_true_eq] at hw
  obtain ⟨hq, hcalls, hsome, hnew, hrun⟩ := hw
  obtain ⟨w', hw', hrun⟩ := Option.map_eq_some_iff.mp hrun
  simp only [Prod.mk.injEq, decide_eq_true_eq] at hrun
  obtain ⟨hq', hcalls'⟩ := hrun
  refine ⟨w, w', hcalls, ?_, by rw [hcalls', hcalls]; rfl⟩
  exact (pictured_iff_not_knows hr hq hsome (by decide) (reach_of_exec hw') hq').mpr hnew

end Resubscribe

end ConfigMonitor
