/-
# Sessions in which nothing is removed

As long as `async_remove_watches` is not called, no object that belongs to a removal exists,
and therefore no request that takes watches away.
-/
import ConfigMonitor.Monitor.External

namespace ConfigMonitor

/-- The object does not belong to a removal. -/
def Userdata.Watching : Userdata → Prop
  | .existsData _ | .wget _ => True
  | .getChildren { cb := .watchSubPath _ _, path := _, advanced := _ } => True
  | .getChildren { cb := .removeWatches _ _, path := _, advanced := _ } => False
  | .operate _ | .removeChain _ _ => False

namespace Client

/-- No object belongs to a removal. -/
def Watching (c : Client) : Prop := ∀ x d, c.heap x = some d → d.Watching

variable {c c' : Client} {x : Ptr}

lemma Watching.of_heap_eq (h : c.Watching) (hheap : c'.heap = c.heap) : c'.Watching :=
  fun x d hx => h x d (hheap ▸ hx)

lemma Watching.of_update (h : c.Watching) {o : Option Userdata}
    (ho : ∀ d, o = some d → d.Watching) (hheap : c'.heap = Function.update c.heap x o) :
    c'.Watching := by
  intro y d hy
  rw [hheap] at hy
  by_cases hyx : y = x
  · subst hyx
    rw [Function.update_self] at hy
    exact ho d hy
  · rw [Function.update_of_ne hyx] at hy
    exact h y d hy

lemma Watching.watchPathEvent (h : c.Watching) (path : Path) (cb : ExistsCallback) :
    (c.watchPathEvent path cb).Watching :=
  h.of_update (o := some (.existsData { cb := cb }))
    (fun _ hd => Option.some.inj hd ▸ trivial) (heap_send _ _)

lemma Watching.watchPath (h : c.Watching) (path : Path) (cb : Cb) :
    (c.watchPath path cb).Watching :=
  Watching.watchPathEvent (c := { c with watchRecord := c.watchRecord.insert path cb }) h path _

lemma Watching.watchSubPath (h : c.Watching) (path : Path) (cb : Cb) :
    (c.watchSubPath path cb).Watching :=
  Watching.watchPathEvent (c := { c with watchSubRecord := c.watchSubRecord.insert path cb }) h
    path _

lemma Watching.asyncGetPathValue (h : c.Watching) (adv : Bool) (path : Path) (cb : GetCallback) :
    (Client.asyncGetPathValue adv c path cb).Watching := by
  rw [Client.asyncGetPathValue]
  split_ifs <;> exact h.of_update (o := some (.wget _))
    (fun _ hd => Option.some.inj hd ▸ trivial) (heap_send _ _)

lemma Watching.asyncGetSubPath (h : c.Watching) (adv : Bool) (path : Path) (cb : Cb)
    (pfx : Path) : (Client.asyncGetSubPath adv c path (.watchSubPath cb pfx)).Watching := by
  have hd : (Userdata.getChildren
      { cb := .watchSubPath cb pfx, path := path, advanced := adv }).Watching := trivial
  have halloc : (c.alloc (.getChildren
      { cb := .watchSubPath cb pfx, path := path, advanced := adv })).Watching :=
    h.of_update (fun _ heq => Option.some.inj heq ▸ hd) rfl
  rw [Client.asyncGetSubPath]
  split_ifs <;> exact halloc.of_heap_eq (heap_send _ _)

lemma Watching.release (h : c.Watching) (x : Ptr) : (c.release x).Watching := by
  rw [Client.release]
  split_ifs
  · exact h.of_update (o := none) (by simp) rfl
  · exact h

lemma Watching.free (h : c.Watching) (x : Ptr) : (c.free x).Watching :=
  h.of_update (o := none) (by simp) rfl

lemma Watching.runExists (h : c.Watching) (cb : ExistsCallback) (rc : ZooError) (eve : ZkEvent) :
    (c.runExists cb rc eve).Watching := by
  cases cb with
  | watchPath cb p =>
      rw [Client.runExists]
      split_ifs
      · exact h
      · exact h.asyncGetPathValue _ p _
      · exact h
  | watchSubPath cb pfx =>
      rw [Client.runExists]
      split_ifs
      · exact h
      · exact h
      · exact h.asyncGetSubPath _ pfx _ _

lemma Watching.runGet (h : c.Watching) (cb : GetCallback) (rc : ZooError) (eve : ZkEvent)
    (path : Path) (val : Data) : (c.runGet cb rc eve path val).Watching := by
  cases cb <;> rw [Client.runGet] <;> split_ifs <;> exact h

lemma Watching.runListing (h : c.Watching) (cb : Cb) (pfx : Path) (subPaths : List Str) :
    (c.runListing cb pfx subPaths).Watching := by
  have hfold : ∀ (subs : List Str) (c : Client), c.Watching →
      (subs.foldl (fun c sub => c.monitor cb pfx (subPath pfx sub)) c).Watching := by
    intro subs
    induction subs with
    | nil => exact fun _ h => h
    | cons sub subs ih => exact fun c h => ih _ (h.asyncGetPathValue true (subPath pfx sub) _)
  rw [Client.runListing]
  exact (hfold _ c h).of_heap_eq rfl

lemma Watching.onReply (h : c.Watching) (rep : Reply) : (c.onReply rep).Watching := by
  rw [Client.onReply]
  split
  · exact h.runExists _ _ _
  · rw [getCompletion]
    split_ifs
    · exact h.runGet _ _ _ _ _
    · exact (h.runGet _ _ _ _ _).free _
  · rename_i d hd
    have hcb := h _ _ hd
    rcases d with ⟨cb | cb, path, adv⟩
    · have hrun : (c.runChildren (.watchSubPath cb ‹Path›) rep.rc rep.strings).Watching := by
        rw [runChildren]
        split_ifs
        · exact h
        · exact h.runListing _ _ _
      rw [childrenCompletion]
      split_ifs
      · exact hrun
      · exact hrun.free _
    · exact absurd hcb id
  · rename_i cb hd
    exact absurd (h _ _ hd) id
  · rename_i cb subs hd
    exact absurd (h _ _ hd) id
  · exact h

lemma Watching.onEvent (h : c.Watching) (eve : ZkEvent) (q : Path) (x : Ptr) :
    (Client.onEvent eve q c x).Watching := by
  rw [Client.onEvent]
  split
  · rw [existsWatcher]
    split_ifs
    · exact h
    · exact h.of_update (o := some (.existsData _)) (fun _ hd => Option.some.inj hd ▸ trivial)
        (heap_send _ _)
  · rw [getWatcher]
    split_ifs
    · exact h
    · exact (h.runGet _ _ _ _ _).release _
    · exact h.of_update (o := some (.wget _)) (fun _ hd => Option.some.inj hd ▸ trivial)
        (heap_send _ _)
  · rw [childrenWatcher]
    split_ifs
    · exact h
    · exact h.release _
    · exact h.of_heap_eq (heap_send _ _)
  · exact h

lemma Watching.process (h : c.Watching) (m : Msg) : (c.process m).Watching := by
  cases m with
  | reply rep => exact h.onReply rep
  | event eve q ctxs =>
      rw [Client.process]
      induction ctxs generalizing c with
      | nil => exact h
      | cons x ctxs ih => exact ih (h.onEvent eve q x)

/-! ## The record of subscriptions -/

lemma watchRecord_runExists (c : Client) (cb : ExistsCallback) (rc : ZooError) (eve : ZkEvent) :
    (c.runExists cb rc eve).watchRecord = c.watchRecord := by
  cases cb <;> rw [Client.runExists] <;> split_ifs <;> simp

lemma watchRecord_runGet (c : Client) (cb : GetCallback) (rc : ZooError) (eve : ZkEvent)
    (path : Path) (val : Data) : (c.runGet cb rc eve path val).watchRecord = c.watchRecord := by
  cases cb <;> rw [Client.runGet] <;> split_ifs <;> rfl

/-- Only the end of a removal takes a subscription out of the record. -/
lemma Watching.watchRecord_process (h : c.Watching) (m : Msg) :
    (c.process m).watchRecord = c.watchRecord := by
  cases m with
  | reply rep =>
      rw [Client.process, Client.onReply]
      split
      · exact watchRecord_runExists c _ _ _
      · rw [getCompletion]
        split_ifs <;> exact watchRecord_runGet c _ _ _ _ _
      · rename_i d hd
        have hcb := h _ _ hd
        rcases d with ⟨cb | cb, path, adv⟩
        · rw [childrenCompletion, runChildren]
          split_ifs <;> first
            | rfl
            | exact watchRecord_runListing c _ _ _
        · exact absurd hcb id
      · rename_i cb hd
        exact absurd (h _ _ hd) id
      · rename_i cb subs hd
        exact absurd (h _ _ hd) id
      · rfl
  | event eve q ctxs =>
      rw [Client.process]
      induction ctxs generalizing c with
      | nil => rfl
      | cons x ctxs ih =>
          refine (ih (h.onEvent eve q x)).trans ?_
          rw [Client.onEvent]
          split
          · rw [existsWatcher]
            split_ifs <;> simp [zooAwexists]
          · rw [getWatcher]
            split_ifs <;> simp [zooAwget, watchRecord_runGet]
          · rw [childrenWatcher]
            split_ifs <;> simp [zooAwgetChildren2]
          · rfl

end Client

/-- A step that is not the removal of a watch. -/
def Action.Watching : Action → Prop
  | .asyncRemoveWatches .. => False
  | _ => True

instance : DecidablePred Action.Watching
  | .asyncRemoveWatches .. => instDecidableFalse
  | .create .. | .set .. | .delete _ | .watchPath .. | .watchSubPath .. | .serve | .deliver
  | .loss .. => instDecidableTrue

namespace World

variable {w w' : World}

lemma watching_step {a : Action} (ha : a.Watching) (h : w.client.Watching)
    (hs : w.step a = some w') : w'.client.Watching := by
  cases a with
  | create q v => exact (changed_of_external (a := .create q v) trivial hs).client ▸ h
  | set q v => exact (changed_of_external (a := .set q v) trivial hs).client ▸ h
  | delete q => exact (changed_of_external (a := .delete q) trivial hs).client ▸ h
  | watchPath p cb => exact Option.some.inj hs ▸ h.watchPath p cb
  | watchSubPath p cb => exact Option.some.inj hs ▸ h.watchSubPath p cb
  | asyncRemoveWatches p type cb => exact absurd ha id
  | serve =>
      obtain ⟨r, rs, -, rfl⟩ := serve_cases hs
      exact h
  | deliver =>
      obtain ⟨m, ms, -, rfl⟩ := deliver_cases hs
      exact h.process m
  | loss n order =>
      rw [client_loss hs]
      exact h

/-- Then no request takes watches away. -/
lemma no_removal (hwf : w.Wf) (h : w.client.Watching) :
    ∀ r ∈ w.client.sent, ∀ type, r.op ≠ .removeWatchesOp type := by
  intro r hr type hop
  obtain ⟨d, hd, hfor⟩ := (hwf.sent r hr).2
  have hw := h _ _ hd
  cases d with
  | existsData d => exact absurd (hop.symm.trans hfor.1) (by simp)
  | wget d => exact absurd (hop.symm.trans hfor.1) (by simp)
  | getChildren d => exact absurd (hop.symm.trans hfor.1) (by simp)
  | operate cb => exact absurd hw id
  | removeChain cb subs => exact absurd hw id

end World

end ConfigMonitor
