/-
# The removals of watches

`remove_watches` removes the watches of the children in a loop and then the children watch,
`async_remove_watches` does so in a chain of completions.  Both are run here with nobody else
there, so that the state is the watches that are armed.
-/
import ConfigMonitor.Cppzk.Chain
import ConfigMonitor.Cppzk.Listing

namespace ConfigMonitor

namespace RemoveWatches

open Operations Chain

/-- A request to remove the watches of a kind. -/
def removeAllWatches (path : Path) (type : WatcherType) : Request where
  op := .removeWatchesOp type
  path := path
  watch := false
  ctx := 0

/-! ## `remove_watches` -/

/-- `zoo_remove_all_watches`: the code, and the watches that are left. -/
def zooRemoveAllWatches (t : Tree) (armed : List Watch) (path : Path) (type : WatcherType) :
    ZooError × List Watch :=
  if isValidPath path false then
    let rep := answer t armed (removeAllWatches path type)
    (rep.rc, activate armed rep)
  else (.zbadarguments, armed)

/-- The loop of `remove_watches` and what follows it: what `get_sub_path` has returned is joined
to the path once more. -/
def removeLoop (t : Tree) (path : Path) : List Path → List Watch → ZooError × List Watch
  | [], armed => zooRemoveAllWatches t armed path .child
  | sub :: rest, armed =>
      let r := zooRemoveAllWatches t armed (subPath path sub) .data
      if r.1 ≠ .zok then r else removeLoop t path rest r.2

/-- `remove_watches`. -/
def removeWatches (t : Tree) (armed : List Watch) (path : Path) :
    WatchType → ZooError × List Watch
  | .watchPath => zooRemoveAllWatches t armed path .data
  | .watchSubPath =>
      let r := Listing.getSubPath t path
      if r.1 ≠ .zok then (r.1, armed) else removeLoop t path r.2 armed

/-! ## `async_remove_watches` -/

/-- The server handles the requests of `async_remove_watches`. -/
def serve (t : Tree) (armed : List Watch) : ZooCall → Option (List Watch × Answer)
  | .agetChildren2 path =>
      let rep := answer t armed { op := .getChildrenOp, path := path, watch := false, ctx := 0 }
      some (armed, { rc := rep.rc, strings := rep.strings })
  | .aremoveAllWatches path type =>
      let rep := answer t armed (removeAllWatches path type)
      some (activate armed rep, { rc := rep.rc })
  | _ => none

/-- `async_remove_watches` for sub-paths ends with the code and leaves the watches `armed'`. -/
def Reports (t : Tree) (armed : List Watch) (path : Path) (rc : ZooError)
    (armed' : List Watch) : Prop :=
  Ends (serve t) armed (.request (.agetChildren2 path) (.listForRemove path)) (.operated rc) armed'

/-! ## Agreement -/

/-- Both removals report the same code and leave the same watches, none of them a data watch on a
child or a children watch on the path. -/
def Agree (t : Tree) (armed : List Watch) (p : Path) : Prop :=
  ∃ rc armed₁ armed₂, removeWatches t armed p .watchSubPath = (rc, armed₁) ∧
    Reports t armed p rc armed₂ ∧ (∀ w, w ∈ armed₁ ↔ w ∈ armed₂) ∧
    (∀ w ∈ armed₁, w.path ∈ t.paths → parentPath w.path = p →
      w.table ∉ WatcherType.data.tables) ∧
    ∀ w ∈ armed₁, w.path = p → w.table ∉ WatcherType.child.tables

/-- The removals agree for every node but the root. -/
def AlwaysAgree : Prop :=
  ∀ (t : Tree) (armed : List Watch) (p : Path), p ∈ t.paths → p ≠ root → Agree t armed p

/-- The data watch on the child of `/c` stays. -/
theorem not_alwaysAgree : ¬ AlwaysAgree := by
  intro h
  obtain ⟨rc, armed₁, armed₂, hsync, -, -, hdata, -⟩ :=
    h Listing.treeCD [⟨.node, ['/', 'c', '/', 'd'], 0⟩] ['/', 'c'] (by decide) (by decide)
  have hmem : ⟨.node, ['/', 'c', '/', 'd'], 0⟩ ∈ armed₁ := by
    rw [← (Prod.mk.inj hsync).2]
    exact List.mem_singleton.mpr rfl
  exact absurd (by decide) (hdata _ hmem (by decide) (by decide))

variable {t : Tree} {armed : List Watch} {p q : Path} {type : WatcherType}

/-! ## One request -/

/-- A removal succeeds when there is a watch of the kind on the path. -/
lemma answer_removeAll (t : Tree) (armed : List Watch) (q : Path) (type : WatcherType) :
    answer t armed (removeAllWatches q type) =
      { req := removeAllWatches q type
        rc := if ∃ w ∈ armed, w.table ∈ type.tables ∧ w.path = q then .zok else .znowatcher } := by
  have hany : (armed.any fun w => decide (w.table ∈ type.tables ∧ w.path = q)) = true ↔
      ∃ w ∈ armed, w.table ∈ type.tables ∧ w.path = q := by
    simp
  by_cases h : ∃ w ∈ armed, w.table ∈ type.tables ∧ w.path = q
  · rw [if_pos h]
    exact if_pos (hany.mpr h)
  · rw [if_neg h]
    exact if_neg fun h' => h (hany.mp h')

/-- The watches of the kind on the path are gone. -/
lemma mem_activate_removeAll {w : Watch} :
    w ∈ activate armed (answer t armed (removeAllWatches q type)) ↔
      w ∈ armed ∧ ¬ (w.table ∈ type.tables ∧ w.path = q) := by
  rw [answer_removeAll]
  split_ifs with h
  · rw [activate]
    simp only [Reply.table?, removeAllWatches]
    exact List.mem_filter.trans (and_congr_right fun _ => decide_eq_true_iff)
  · rw [activate]
    simp only [Reply.table?, removeAllWatches]
    exact ⟨fun hw => ⟨hw, fun hc => h ⟨w, hw, hc⟩⟩, fun hw => hw.1⟩

/-! ## The chain -/

lemma accepts_removeAll (hq : isValidPath q false = true) :
    usableHandle.accepts (.aremoveAllWatches q type) = true := by
  simp [Handle.accepts, usableHandle, hq]

/-- The last removal is of all watches on the path, and its code is reported. -/
lemma ends_last (hp : isValidPath p false = true) (armed : List Watch) :
    Ends (serve t) armed (removeNext [p])
      (.operated (answer t armed (removeAllWatches p .any)).rc)
      (activate armed (answer t armed (removeAllWatches p .any))) := by
  rw [removeNext, ends_request_iff (accepts_removeAll hp) rfl]
  exact ends_done _ _

/-- The chain of removals goes on whatever the codes are, and reports that of the last one. -/
lemma exists_ends (hp : isValidPath p false = true) {subs : List Path}
    (hsubs : ∀ c ∈ subs, isValidPath c false = true) (armed : List Watch) :
    ∃ rc armed', Ends (serve t) armed (removeNext (subs ++ [p])) (.operated rc) armed' ∧
      rc ≠ .zbadarguments := by
  induction subs generalizing armed with
  | nil =>
      refine ⟨_, _, ends_last hp armed, ?_⟩
      rw [answer_removeAll]
      dsimp only
      split_ifs <;> decide
  | cons c subs ih =>
      obtain ⟨hc, hsubs⟩ := List.forall_mem_cons.mp hsubs
      obtain ⟨a, rest, hrest⟩ : ∃ a rest, subs ++ [p] = a :: rest :=
        List.exists_cons_of_ne_nil (by simp)
      have hnext : removeNext (c :: (subs ++ [p])) =
          .request (.aremoveAllWatches c .data) (.removeChain (c :: (subs ++ [p]))) := by
        rw [hrest]
        rfl
      obtain ⟨rc, armed', hends, hrc⟩ :=
        ih hsubs (activate armed (answer t armed (removeAllWatches c .data)))
      refine ⟨rc, armed', ?_, hrc⟩
      rw [List.cons_append, hnext, ends_request_iff (accepts_removeAll hc) rfl]
      rw [hrest] at hends ⊢
      exact hends

/-- The listing names the children, and the chain begins. -/
lemma reports_iff (hp : p ∈ t.paths) (armed : List Watch) {rc : ZooError} {armed' : List Watch} :
    Reports t armed p rc armed' ↔ Ends (serve t) armed
      (removeNext ((t.children p).map (subPath p) ++ [p])) (.operated rc) armed' := by
  have hacc : usableHandle.accepts (.agetChildren2 p) = true := by
    simp [Handle.accepts, usableHandle, t.valid p hp]
  have hget : (t.get p).isSome := Tree.get_isSome_iff.mpr hp
  rw [Reports, ends_request_iff hacc rfl, Pending.complete, listForRemoveCompletion, if_neg]
  · simp [answer, hget]
  · simp [answer, hget]

/-! ## Agreement -/

/-- `remove_watches` joins the first child to the path twice, and the library refuses that. -/
lemma removeWatches_of_children (hp : p ∈ t.paths) (hchildren : t.children p ≠ []) :
    removeWatches t armed p .watchSubPath = (.zbadarguments, armed) := by
  obtain ⟨c, rest, hc⟩ := List.exists_cons_of_ne_nil hchildren
  obtain ⟨r, rfl⟩ := isValidPath_head (t.valid p hp)
  have hinvalid : isValidPath (subPath ('/' :: r) (subPath ('/' :: r) c)) false = false :=
    isValidPath_double r (r ++ '/' :: c) false
  rw [removeWatches, Listing.getSubPath_of_mem hp]
  simp [hc, removeLoop, zooRemoveAllWatches, hinvalid]

lemma removeWatches_of_no_children (hp : p ∈ t.paths) (hchildren : t.children p = []) :
    removeWatches t armed p .watchSubPath =
      ((answer t armed (removeAllWatches p .child)).rc,
        activate armed (answer t armed (removeAllWatches p .child))) := by
  rw [removeWatches, Listing.getSubPath_of_mem hp]
  simp [hchildren, removeLoop, zooRemoveAllWatches, t.valid p hp]

/-- What is left when the path has no children: the callback is called, with no watch on the path
left. -/
lemma reports_of_no_children (hp : p ∈ t.paths) (hchildren : t.children p = []) :
    Reports t armed p (answer t armed (removeAllWatches p .any)).rc
      (activate armed (answer t armed (removeAllWatches p .any))) := by
  rw [reports_iff hp, hchildren]
  exact ends_last (t.valid p hp) armed

/-- The removals agree exactly when the path has no children and none of its own watches is a
data watch. -/
theorem agree_iff (hp : p ∈ t.paths) (hroot : p ≠ root) : Agree t armed p ↔
    t.children p = [] ∧ ∀ w ∈ armed, w.path = p → w.table ∉ WatcherType.data.tables := by
  constructor
  · rintro ⟨rc, armed₁, armed₂, hsync, hasync, hset, -, -⟩
    have hchildren : t.children p = [] := by
      -- otherwise one removal reports a bad argument and the other one does not
      by_contra hne
      rw [removeWatches_of_children hp hne] at hsync
      obtain ⟨rc', armed', hends, hrc'⟩ := exists_ends (t := t) (t.valid p hp)
        (fun c hc => t.valid c (((Listing.childPaths_map hp hroot).mem_iff c).mp hc).1) armed
      obtain ⟨hresult, -⟩ := hends.unique ((reports_iff hp armed).mp hasync)
      rw [Result.operated.inj hresult] at hrc'
      exact hrc' (Prod.mk.inj hsync).1.symm
    refine ⟨hchildren, fun w hw hpath htable => ?_⟩
    rw [removeWatches_of_no_children hp hchildren] at hsync
    have hsync' := (hset w).mp ((Prod.mk.inj hsync).2 ▸ mem_activate_removeAll.mpr
      ⟨hw, fun hc => by
        have hchild := hc.1
        generalize w.table = tb at hchild htable
        cases tb <;> simp [WatcherType.tables] at hchild htable⟩)
    rw [(hasync.unique (reports_of_no_children hp hchildren)).2] at hsync'
    refine (mem_activate_removeAll.mp hsync').2 ⟨?_, hpath⟩
    generalize w.table = tb
    cases tb <;> simp [WatcherType.tables]
  · rintro ⟨hchildren, hdata⟩
    -- a watch on the path is a children watch
    have htables : ∀ w ∈ armed, w.table ∈ WatcherType.any.tables ∧ w.path = p ↔
        w.table ∈ WatcherType.child.tables ∧ w.path = p := by
      intro w hw
      refine and_congr_left fun hpath => ?_
      have hnot := hdata w hw hpath
      generalize w.table = tb at hnot
      cases tb <;> simp [WatcherType.tables] at hnot ⊢
    have hrc : (answer t armed (removeAllWatches p .child)).rc =
        (answer t armed (removeAllWatches p .any)).rc := by
      rw [answer_removeAll, answer_removeAll]
      dsimp only
      rw [if_congr (exists_congr fun w => and_congr_right fun hw => htables w hw) rfl rfl]
    refine ⟨_, _, _, removeWatches_of_no_children hp hchildren,
      hrc ▸ reports_of_no_children hp hchildren, fun w => ?_, fun w _ hpath hpar => ?_,
      fun w hw hpath htable => (mem_activate_removeAll.mp hw).2 ⟨htable, hpath⟩⟩
    · rw [mem_activate_removeAll, mem_activate_removeAll]
      exact and_congr_right fun hw => not_congr (htables w hw).symm
    · have hne : w.path ≠ root := by
        intro h
        rw [h] at hpar
        exact hroot hpar.symm
      exact absurd hpar (Tree.not_parent_of_children_nil hchildren hpath hne)

/-- A children watch on `/c/d`. -/
theorem agree_iff_treeCD :
    Agree Listing.treeCD [⟨.child, ['/', 'c', '/', 'd'], 0⟩] ['/', 'c', '/', 'd'] :=
  (agree_iff (by decide) (by decide)).mpr ⟨by decide, by decide⟩

end RemoveWatches

end ConfigMonitor
