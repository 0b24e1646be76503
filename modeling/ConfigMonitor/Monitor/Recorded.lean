/-
# When a record is erased

The entries of `watch_record_` and `watch_sub_record_` are written by the calls of the user and
erased by the completion of a removal; every other completion and every watcher leaves them
alone.
-/
import ConfigMonitor.Monitor.Expiry
import ConfigMonitor.Cppzk.Completions

namespace ConfigMonitor

namespace Client

/-- The callback recorded for a path. -/
def recorded (c : Client) (k : WatchType × Path) : Option Cb := c.records.lookup k.1 k.2

/-- The removal that ends with the answer: its last request is answered, or its listing has
failed. -/
def ends (c : Client) : Msg → Option (WatchType × Path)
  | .reply rep =>
      match c.heap rep.req.ctx with
      | some (.operate cb) => some (cb.type, cb.p)
      | some (.removeChain cb subs) => if subs.tail = [] then some (cb.type, cb.p) else none
      | some (.getChildren { cb := .removeWatches cb _, path := _, advanced := _ }) =>
          if rep.rc ≠ .zok then some (cb.type, cb.p) else none
      | _ => none
  | .event .. => none

variable (c : Client) (k : WatchType × Path)

/-- What a message ends depends on the object it is for. -/
lemma ends_congr {c c' : Client} {m : Msg}
    (h : ∀ rep, m = .reply rep → c'.heap rep.req.ctx = c.heap rep.req.ctx) :
    c'.ends m = c.ends m := by
  cases m with
  | event eve q ctxs => rfl
  | reply rep => rw [ends, ends, h rep rfl]

/-! ## Steps that leave the records alone -/

lemma recorded_of_eq {c c' : Client} (h : c'.watchRecord = c.watchRecord)
    (h' : c'.watchSubRecord = c.watchSubRecord) : c'.recorded = c.recorded := by
  funext ⟨type, path⟩
  cases type
  · exact congrArg (AList.lookup path) h
  · exact congrArg (AList.lookup path) h'

@[simp] lemma recorded_send (r : Request) : (c.send r).recorded = c.recorded := by
  rw [send]
  split_ifs <;> exact recorded_of_eq rfl rfl

@[simp] lemma recorded_release (x : Ptr) : (c.release x).recorded = c.recorded := by
  rw [release]
  split_ifs <;> exact recorded_of_eq rfl rfl

@[simp] lemma recorded_asyncGetPathValue (adv : Bool) (path : Path) (cb : GetCallback) :
    (asyncGetPathValue adv c path cb).recorded = c.recorded := by
  rw [asyncGetPathValue]
  split_ifs <;> exact (recorded_send _ _).trans (recorded_of_eq rfl rfl)

@[simp] lemma recorded_asyncGetSubPath (adv : Bool) (path : Path) (cb : ChildrenCallback) :
    (asyncGetSubPath adv c path cb).recorded = c.recorded := by
  rw [asyncGetSubPath]
  split_ifs <;> exact (recorded_send _ _).trans (recorded_of_eq rfl rfl)

lemma recorded_runExists (cb : ExistsCallback) (rc : ZooError) (eve : ZkEvent) :
    (c.runExists cb rc eve).recorded = c.recorded := by
  cases cb <;> rw [runExists] <;> split_ifs <;> first
    | rfl
    | simp

lemma recorded_runGet (cb : GetCallback) (rc : ZooError) (eve : ZkEvent) (path : Path)
    (val : Data) : (c.runGet cb rc eve path val).recorded = c.recorded := by
  cases cb <;> rw [runGet] <;> split_ifs <;> rfl

lemma recorded_runListing (cb : Cb) (pfx : Path) (subPaths : List Str) :
    (c.runListing cb pfx subPaths).recorded = c.recorded := by
  have hfold : ∀ (subs : List Str) (c : Client),
      (subs.foldl (fun c sub => c.monitor cb pfx (subPath pfx sub)) c).recorded = c.recorded := by
    intro subs
    induction subs with
    | nil => exact fun _ => rfl
    | cons sub subs ih => exact fun c => (ih _).trans (recorded_asyncGetPathValue c _ _ _)
  rw [runListing]
  exact (recorded_of_eq rfl rfl).trans (hfold _ c)

lemma recorded_onEvent (eve : ZkEvent) (q : Path) (x : Ptr) :
    (onEvent eve q c x).recorded = c.recorded := by
  rw [onEvent]
  split
  · rw [existsWatcher]
    split_ifs
    · rfl
    · exact (recorded_send _ _).trans (recorded_of_eq rfl rfl)
  · rw [getWatcher]
    split_ifs
    · rfl
    · exact (recorded_release _ _).trans (recorded_runGet _ _ _ _ _ _)
    · exact (recorded_send _ _).trans (recorded_of_eq rfl rfl)
  · rw [childrenWatcher]
    split_ifs
    · rfl
    · exact recorded_release _ _
    · exact recorded_send _ _
  · rfl

lemma recorded_onEvent_foldl (eve : ZkEvent) (q : Path) (ctxs : List Ptr) (c : Client) :
    (ctxs.foldl (onEvent eve q) c).recorded = c.recorded := by
  induction ctxs generalizing c with
  | nil => rfl
  | cons x ctxs ih => exact (ih _).trans (recorded_onEvent c eve q x)

/-! ## The calls of the user and the completions of removals -/

/-- The callback of a finished removal erases its record, whatever the error code. -/
lemma recorded_runOperate (cb : OperateCallback) (rc : ZooError) :
    (c.runOperate cb rc).recorded = Function.update c.recorded (cb.type, cb.p) none := by
  refine Eq.trans (funext fun k => ?_) (Expiry.lookup_erase c.records cb.type cb.p)
  rw [recorded, records_runOperate]

lemma recorded_watchPath (path : Path) (cb : Cb) :
    (c.watchPath path cb).recorded = Function.update c.recorded (.watchPath, path) (some cb) := by
  refine Eq.trans (funext fun k => ?_) (Expiry.lookup_watch c.records .watchPath path cb)
  rw [recorded, records_watchPath]

lemma recorded_watchSubPath (path : Path) (cb : Cb) :
    (c.watchSubPath path cb).recorded =
      Function.update c.recorded (.watchSubPath, path) (some cb) := by
  refine Eq.trans (funext fun k => ?_) (Expiry.lookup_watch c.records .watchSubPath path cb)
  rw [recorded, records_watchSubPath]

/-- A call of `async_remove_watches` erases nothing yet. -/
lemma recorded_asyncRemoveWatches (path : Path) (type : WatchType) (cb : Cb) :
    (c.asyncRemoveWatches path type cb).recorded = c.recorded := by
  rw [asyncRemoveWatches]
  cases type
  · exact (recorded_send _ _).trans (recorded_of_eq rfl rfl)
  · exact recorded_asyncGetSubPath _ _ _ _

/-- The answer to a listing of a subscription leaves the records alone. -/
lemma recorded_runChildren_watchSubPath (cb : Cb) (pfx : Path) (rc : ZooError)
    (strings : List Str) :
    (c.runChildren (.watchSubPath cb pfx) rc strings).recorded = c.recorded := by
  rw [runChildren]
  split_ifs
  · rfl
  · exact recorded_runListing c _ _ _

/-- The answer to the listing of a removal ends the removal if it is an error. -/
lemma recorded_runChildren_removeWatches (cb : OperateCallback) (p : Path) (rc : ZooError)
    (strings : List Str) :
    (c.runChildren (.removeWatches cb p) rc strings).recorded =
      if rc ≠ .zok then Function.update c.recorded (cb.type, cb.p) none else c.recorded := by
  rw [runChildren]
  split_ifs
  · exact recorded_runOperate c cb rc
  · dsimp only
    split <;> first
      | exact (recorded_send _ _).trans (recorded_of_eq rfl rfl)
      | exact recorded_of_eq rfl rfl

/-- A request of the chain of a removal. -/
lemma recorded_store_send (x : Ptr) (d : Userdata) (r : Request) :
    ((c.store x d).send r).recorded = c.recorded :=
  (recorded_send _ _).trans (recorded_of_eq rfl rfl)

/-- What a message does to the records: it erases the one of the removal it ends. -/
lemma recorded_process (m : Msg) : (c.process m).recorded =
    match c.ends m with
    | some k => Function.update c.recorded k none
    | none => c.recorded := by
  cases m with
  | event eve q ctxs => exact recorded_onEvent_foldl eve q ctxs c
  | reply rep =>
      rw [process, onReply, ends]
      cases hd : c.heap rep.req.ctx with
      | none => rfl
      | some d =>
          cases d with
          | existsData d => exact recorded_runExists c _ _ _
          | wget d =>
              dsimp only
              rw [getCompletion]
              split_ifs <;> exact recorded_runGet c _ _ _ _ _
          | getChildren d =>
              rcases d with ⟨⟨cb, pfx⟩ | ⟨cb, p⟩, path, adv⟩
              · have hrun := c.recorded_runChildren_watchSubPath cb pfx rep.rc rep.strings
                dsimp only
                rw [childrenCompletion]
                split_ifs <;> exact hrun
              · have hrun := c.recorded_runChildren_removeWatches cb p rep.rc rep.strings
                dsimp only
                rw [childrenCompletion]
                split_ifs at hrun ⊢ <;> exact hrun
          | operate cb => exact recorded_runOperate c cb rep.rc
          | removeChain cb subs =>
              dsimp only
              rw [removeChainCompletion]
              -- the last request of the chain ends the removal, the others are followed up
              split
              · rename_i htail
                rw [if_pos htail]
                exact recorded_runOperate c cb rep.rc
              · rename_i htail
                rw [if_neg (by simp [htail])]
                exact recorded_store_send c _ _ _
              · rename_i htail
                rw [if_neg (by simp [htail])]
                exact recorded_store_send c _ _ _

end Client

end ConfigMonitor
