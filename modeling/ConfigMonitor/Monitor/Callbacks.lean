/-
# The calls of `config_monitor` and the bodies of its callbacks

`watch_path`, `watch_sub_path` and `async_remove_watches`, and what the lambdas they hand to
`cppzk` do when the completion or the watcher of a request runs them.
-/
import ConfigMonitor.Cppzk.Client

namespace ConfigMonitor

namespace Client

/-! ## The calls -/

/-- `config_monitor::watch_path`. -/
def watchPath (c : Client) (path : Path) (callback : Cb) : Client :=
  { c with watchRecord := c.watchRecord.insert path callback }.watchPathEvent path
    (.watchPath callback path)

/-- `config_monitor::watch_sub_path`. -/
def watchSubPath (c : Client) (path : Path) (callback : Cb) : Client :=
  { c with watchSubRecord := c.watchSubRecord.insert path callback }.watchPathEvent path
    (.watchSubPath callback path)

/-- `config_monitor::async_remove_watches`. -/
def asyncRemoveWatches (c : Client) (path : Path) (type : WatchType) (callback : Cb) : Client :=
  c.asyncRemoveWatchesCppzk path type { type := type, p := path, cb := callback }

/-! ## The callbacks -/

/-- The `exists_callback`s of `watch_path` and `watch_sub_path`. -/
def runExists (c : Client) (cb : ExistsCallback) (rc : ZooError) (eve : ZkEvent) : Client :=
  match cb with
  | .watchPath cb p =>
      if rc ≠ .zok ∧ eve = .deleted then c.call (.watch cb p .del none)
      else if eve = .dummy ∨ eve = .created ∨ eve = .changed then
        c.asyncGetPathValue false p (.watchPath cb p)
      else c
  | .watchSubPath cb pfx =>
      if rc ≠ .zok then c
      -- any other event of the target path is filtered out
      else if eve ≠ .dummy ∧ eve ≠ .created then c
      else c.asyncGetSubPath true pfx (.watchSubPath cb pfx)

/-- The `get_callback`s of `watch_path` and of `monitor`. -/
def runGet (c : Client) (cb : GetCallback) (rc : ZooError) (eve : ZkEvent) (path : Path)
    (val : Data) : Client :=
  match cb with
  | .watchPath cb p => if rc = .zok then c.call (.watch cb p .changed val) else c
  | .monitor cb _ =>
      if rc ≠ .zok ∧ eve = .deleted then c.call (.watchSub cb .del path none)
      else if rc = .zok then c.call (.watchSub cb .changed path val)
      else c

/-- `monitor` of `watch_sub_path`: read the value of a child and watch it. -/
def monitor (cb : Cb) (pfx : Path) (c : Client) (subPath : Path) : Client :=
  c.asyncGetPathValue true subPath (.monitor cb pfx)

/-- The callback of `config_monitor::async_remove_watches`. -/
def runOperate (c : Client) (cb : OperateCallback) (rc : ZooError) : Client :=
  match cb.type with
  | .watchPath => { c with watchRecord := c.watchRecord.erase cb.p }.call (.done cb.cb rc)
  | .watchSubPath =>
      { c with
        lastSubPath := c.lastSubPath.erase cb.p
        watchSubRecord := c.watchSubRecord.erase cb.p }.call (.done cb.cb rc)

/-- The `get_children_callback` of `watch_sub_path`, run without an error: the children that
are not in `last_sub_path_[prefix]` are monitored, and the listing replaces that set. -/
def runListing (c : Client) (cb : Cb) (pfx : Path) (subPaths : List Str) : Client :=
  let fresh := match c.lastSubPath.lookup pfx with
    | none => subPaths
    | some old => subPaths.filter (· ∉ old)
  let c := fresh.foldl (fun c sub => c.monitor cb pfx (subPath pfx sub)) c
  { c with lastSubPath := c.lastSubPath.insert pfx subPaths }

/-- The `get_children_callback`s of `watch_sub_path` and of `cppzk::async_remove_watches`. -/
def runChildren (c : Client) (cb : ChildrenCallback) (rc : ZooError) (subPaths : List Str) :
    Client :=
  match cb with
  | .watchSubPath cb pfx => if rc ≠ .zok then c else c.runListing cb pfx subPaths
  | .removeWatches cb p =>
      if rc ≠ .zok then c.runOperate cb rc
      else
        let subs := subPaths.map (subPath p) ++ [p]
        let x := c.next
        let c := c.alloc (.removeChain cb subs)
        match subs with
        | [q] => c.zooAremoveAllWatches q .any x
        | q :: _ => c.zooAremoveAllWatches q .data x
        | [] => c

/-- Calling `monitor` for the children of a listing makes no call of the user and touches no
member of the monitor. -/
lemma monitor_foldl_fields (cb : Cb) (pfx : Path) (subs : List Str) (c : Client) :
    let c' := subs.foldl (fun c sub => c.monitor cb pfx (subPath pfx sub)) c
    c'.calls = c.calls ∧ c'.lastSubPath = c.lastSubPath ∧ c'.watchRecord = c.watchRecord := by
  induction subs generalizing c with
  | nil => exact ⟨rfl, rfl, rfl⟩
  | cons sub subs ih =>
      obtain ⟨hcalls, hlast, hrec⟩ := ih (c.monitor cb pfx (subPath pfx sub))
      exact ⟨hcalls.trans (calls_asyncGetPathValue _ _ _ _),
        hlast.trans (lastSubPath_asyncGetPathValue _ _ _ _),
        hrec.trans (watchRecord_asyncGetPathValue _ _ _ _)⟩

@[simp] lemma calls_runListing (c : Client) (cb : Cb) (pfx : Path) (subPaths : List Str) :
    (c.runListing cb pfx subPaths).calls = c.calls := by
  rw [runListing]
  exact (monitor_foldl_fields cb pfx _ c).1

@[simp] lemma watchRecord_runListing (c : Client) (cb : Cb) (pfx : Path) (subPaths : List Str) :
    (c.runListing cb pfx subPaths).watchRecord = c.watchRecord := by
  rw [runListing]
  exact (monitor_foldl_fields cb pfx _ c).2.2

lemma lastSubPath_runListing (c : Client) (cb : Cb) (pfx : Path) (subPaths : List Str) :
    (c.runListing cb pfx subPaths).lastSubPath = c.lastSubPath.insert pfx subPaths := by
  rw [runListing]
  exact congrArg (·.insert pfx subPaths) (monitor_foldl_fields cb pfx _ c).2.1

end Client

end ConfigMonitor
