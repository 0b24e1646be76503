/-
# The watcher functions and completions of `cppzk`

What the library runs when an answer or a notification arrives: the lambdas `wfn`,
`exists_completion`, `gcb` and `completion` of `cppzk.hpp`.  A pointer to an object that is
no longer there has no defined behaviour; here nothing happens then, and
`ConfigMonitor.Monitor.Ownership` shows that it does not arise.
-/
import ConfigMonitor.Monitor.Callbacks

namespace ConfigMonitor

namespace Client

/-! ## Watchers -/

/-- `wfn` of `watch_path_event`. -/
def existsWatcher (c : Client) (d : ExistsUserdata) (eve : ZkEvent) (path : Path) (x : Ptr) :
    Client :=
  if eve = .session then c
  else (c.store x (.existsData { d with eve := eve })).zooAwexists path x

/-- `wfn` of `async_get_path_value`. -/
def getWatcher (c : Client) (d : WgetUserdata) (eve : ZkEvent) (path : Path) (x : Ptr) :
    Client :=
  if eve = .session then c
  else if eve = .deleted then (c.runGet d.cb .znonode .deleted path none).release x
  else (c.store x (.wget { d with path := path, eve := eve })).zooAwget path true x

/-- `wfn` of `async_get_sub_path`. -/
def childrenWatcher (c : Client) (eve : ZkEvent) (path : Path) (x : Ptr) : Client :=
  if eve = .session then c
  else if eve = .deleted then c.release x
  else c.zooAwgetChildren2 path true x

/-- The watcher function of the object at `x`. -/
def onEvent (eve : ZkEvent) (path : Path) (c : Client) (x : Ptr) : Client :=
  match c.heap x with
  | some (.existsData d) => c.existsWatcher d eve path x
  | some (.wget d) => c.getWatcher d eve path x
  | some (.getChildren _) => c.childrenWatcher eve path x
  | _ => c

/-! ## Completions -/

/-- `gcb` of `async_get_path_value`. -/
def getCompletion (c : Client) (d : WgetUserdata) (rc : ZooError) (val : Data) (x : Ptr) :
    Client :=
  let c := c.runGet d.cb rc d.eve d.path val
  if d.advanced then c else c.free x

/-- `completion` of `async_get_sub_path`. -/
def childrenCompletion (c : Client) (d : GetChildrenUserdata) (rc : ZooError)
    (strings : List Str) (x : Ptr) : Client :=
  let c := c.runChildren d.cb rc strings
  if d.advanced then c else c.free x

/-- `completion` of `async_remove_watches` for sub-paths: one more remove-watches request for
each path left, whatever the code of the last one. -/
def removeChainCompletion (c : Client) (cb : OperateCallback) (subs : List Path)
    (rc : ZooError) (x : Ptr) : Client :=
  match subs.tail with
  | [] => (c.runOperate cb rc).free x
  | [q] => (c.store x (.removeChain cb [q])).zooAremoveAllWatches q .any x
  | q :: rest => (c.store x (.removeChain cb (q :: rest))).zooAremoveAllWatches q .data x

/-- The completion of the object an answer is for. -/
def onReply (c : Client) (rep : Reply) : Client :=
  match c.heap rep.req.ctx with
  | some (.existsData d) => c.runExists d.cb rep.rc d.eve
  | some (.wget d) => c.getCompletion d rep.rc rep.val rep.req.ctx
  | some (.getChildren d) => c.childrenCompletion d rep.rc rep.strings rep.req.ctx
  | some (.operate cb) => (c.runOperate cb rep.rc).free rep.req.ctx
  | some (.removeChain cb subs) => c.removeChainCompletion cb subs rep.rc rep.req.ctx
  | none => c

/-- `process_completions`: one message, and for a notification its watchers one by one. -/
def process (c : Client) : Msg → Client
  | .reply rep => c.onReply rep
  | .event eve path ctxs => ctxs.foldl (onEvent eve path) c

end Client

end ConfigMonitor
