/-
# The state of the client and the requests of `cppzk`

The callbacks that `config_monitor` hands to `cppzk` are lambdas; here each is a constructor
that holds what the lambda captures, and `ConfigMonitor.Monitor.Callbacks` says what the body
does.  The userdata objects live on a heap: the library only has their addresses, and the
field `eve` of an object is rewritten by every notification.
-/
import ConfigMonitor.ZooKeeper.Session
import Mathlib.Data.List.AList
import Mathlib.Logic.Function.Basic

namespace ConfigMonitor

/-- `std::unordered_map<std::string, β>`. -/
abbrev UMap (β : Type) := AList (fun _ : Path => β)

/-- The identity of a callback given by the user. -/
abbrev Cb := ℕ

/-- `watch_type`. -/
inductive WatchType
  | watchPath
  | watchSubPath
deriving DecidableEq, Repr

/-- `path_event`. -/
inductive PathEvent
  | changed
  | del
deriving DecidableEq, Repr

/-- A call of a user callback.  A `watch_cb` is not told which path it is called for; `p` is
the path of the subscription that makes the call. -/
inductive Call
  | watch (cb : Cb) (p : Path) (eve : PathEvent) (val : Data)
  | watchSub (cb : Cb) (eve : PathEvent) (path : Path) (val : Data)
  | done (cb : Cb) (rc : ZooError)
deriving DecidableEq, Repr

/-- The `exists_callback`s of `watch_path` and `watch_sub_path`. -/
inductive ExistsCallback
  | watchPath (cb : Cb) (p : Path)
  | watchSubPath (cb : Cb) (pfx : Path)
deriving DecidableEq, Repr

/-- The `get_callback`s: the one `watch_path` reads a value with, and the one of `monitor` in
`watch_sub_path`. -/
inductive GetCallback
  | watchPath (cb : Cb) (p : Path)
  | monitor (cb : Cb) (pfx : Path)
deriving DecidableEq, Repr

/-- The callback `config_monitor::async_remove_watches` hands to `cppzk`. -/
structure OperateCallback where
  type : WatchType
  p : Path
  cb : Cb
deriving DecidableEq, Repr

/-- The `get_children_callback`s: of `watch_sub_path`, and of `cppzk::async_remove_watches`. -/
inductive ChildrenCallback
  | watchSubPath (cb : Cb) (pfx : Path)
  | removeWatches (cb : OperateCallback) (p : Path)
deriving DecidableEq, Repr

/-- `exists_userdata`. -/
structure ExistsUserdata where
  cb : ExistsCallback
  eve : ZkEvent := .dummy
deriving DecidableEq, Repr

/-- `wget_userdata`; `advanced` is the template argument its completion was made with. -/
structure WgetUserdata where
  cb : GetCallback
  path : Path
  advanced : Bool
  eve : ZkEvent := .dummy
deriving DecidableEq, Repr

/-- `get_children_userdata`. -/
structure GetChildrenUserdata where
  cb : ChildrenCallback
  path : Path
  advanced : Bool
deriving DecidableEq, Repr

/-- The objects the library holds pointers to. -/
inductive Userdata
  | existsData (d : ExistsUserdata)
  | wget (d : WgetUserdata)
  | getChildren (d : GetChildrenUserdata)
  | operate (cb : OperateCallback)
  | removeChain (cb : OperateCallback) (subs : List Path)
deriving DecidableEq, Repr

/-- The state of one `config_monitor<cppzk>` object: the requests in flight on its handle, its
userdata, and its members.  `calls` records the calls of user callbacks, oldest first. -/
structure Client where
  sent : List Request
  heap : Ptr → Option Userdata
  next : Ptr
  releaser : List Ptr
  lastSubPath : UMap (List Str)
  watchRecord : UMap Cb
  watchSubRecord : UMap Cb
  calls : List Call

namespace Client

/-- A client that has just been connected. -/
def init : Client where
  sent := []
  heap := fun _ => none
  next := 0
  releaser := []
  lastSubPath := ∅
  watchRecord := ∅
  watchSubRecord := ∅
  calls := []

/-- `zoo_a*` on a handle in a usable state: a path that is not valid is refused, and the error
code is not looked at by any caller. -/
def send (c : Client) (r : Request) : Client :=
  if isValidPath r.path false then { c with sent := c.sent ++ [r] } else c

/-- `new`, `std::make_shared`: a new object at the address `c.next`. -/
def alloc (c : Client) (d : Userdata) : Client :=
  { c with heap := Function.update c.heap c.next (some d), next := c.next + 1 }

/-- Assignment to the fields of an object. -/
def store (c : Client) (x : Ptr) (d : Userdata) : Client :=
  { c with heap := Function.update c.heap x (some d) }

/-- `delete`. -/
def free (c : Client) (x : Ptr) : Client :=
  { c with heap := Function.update c.heap x none }

/-- `releaser_.emplace`. -/
def emplace (c : Client) (x : Ptr) : Client :=
  { c with releaser := c.releaser ++ [x] }

/-- `releaser_.erase`, which destroys the object if it is there. -/
def release (c : Client) (x : Ptr) : Client :=
  if x ∈ c.releaser then
    { c with
      releaser := c.releaser.filter (· ≠ x)
      heap := Function.update c.heap x none }
  else c

/-- A call of a user callback. -/
def call (c : Client) (k : Call) : Client := { c with calls := c.calls ++ [k] }

/-! ## What the operations leave alone -/

section Fields

variable (c : Client) (r : Request) (d : Userdata) (x : Ptr) (k : Call)

@[simp] lemma heap_send : (c.send r).heap = c.heap := by rw [send]; split_ifs <;> rfl
@[simp] lemma next_send : (c.send r).next = c.next := by rw [send]; split_ifs <;> rfl
@[simp] lemma calls_send : (c.send r).calls = c.calls := by rw [send]; split_ifs <;> rfl
@[simp] lemma lastSubPath_send : (c.send r).lastSubPath = c.lastSubPath := by
  rw [send]; split_ifs <;> rfl
@[simp] lemma watchRecord_send : (c.send r).watchRecord = c.watchRecord := by
  rw [send]; split_ifs <;> rfl
@[simp] lemma releaser_send : (c.send r).releaser = c.releaser := by rw [send]; split_ifs <;> rfl

@[simp] lemma sent_alloc : (c.alloc d).sent = c.sent := rfl
@[simp] lemma heap_alloc : (c.alloc d).heap = Function.update c.heap c.next (some d) := rfl
@[simp] lemma next_alloc : (c.alloc d).next = c.next + 1 := rfl
@[simp] lemma calls_alloc : (c.alloc d).calls = c.calls := rfl
@[simp] lemma lastSubPath_alloc : (c.alloc d).lastSubPath = c.lastSubPath := rfl
@[simp] lemma watchRecord_alloc : (c.alloc d).watchRecord = c.watchRecord := rfl
@[simp] lemma releaser_alloc : (c.alloc d).releaser = c.releaser := rfl

@[simp] lemma sent_store : (c.store x d).sent = c.sent := rfl
@[simp] lemma heap_store : (c.store x d).heap = Function.update c.heap x (some d) := rfl
@[simp] lemma next_store : (c.store x d).next = c.next := rfl
@[simp] lemma calls_store : (c.store x d).calls = c.calls := rfl
@[simp] lemma lastSubPath_store : (c.store x d).lastSubPath = c.lastSubPath := rfl
@[simp] lemma watchRecord_store : (c.store x d).watchRecord = c.watchRecord := rfl
@[simp] lemma releaser_store : (c.store x d).releaser = c.releaser := rfl

@[simp] lemma sent_free : (c.free x).sent = c.sent := rfl
@[simp] lemma heap_free : (c.free x).heap = Function.update c.heap x none := rfl
@[simp] lemma next_free : (c.free x).next = c.next := rfl
@[simp] lemma calls_free : (c.free x).calls = c.calls := rfl
@[simp] lemma lastSubPath_free : (c.free x).lastSubPath = c.lastSubPath := rfl
@[simp] lemma watchRecord_free : (c.free x).watchRecord = c.watchRecord := rfl

@[simp] lemma sent_emplace : (c.emplace x).sent = c.sent := rfl
@[simp] lemma heap_emplace : (c.emplace x).heap = c.heap := rfl
@[simp] lemma next_emplace : (c.emplace x).next = c.next := rfl
@[simp] lemma calls_emplace : (c.emplace x).calls = c.calls := rfl
@[simp] lemma lastSubPath_emplace : (c.emplace x).lastSubPath = c.lastSubPath := rfl
@[simp] lemma watchRecord_emplace : (c.emplace x).watchRecord = c.watchRecord := rfl
@[simp] lemma releaser_emplace : (c.emplace x).releaser = c.releaser ++ [x] := rfl

@[simp] lemma sent_release : (c.release x).sent = c.sent := by rw [release]; split_ifs <;> rfl
@[simp] lemma next_release : (c.release x).next = c.next := by rw [release]; split_ifs <;> rfl
@[simp] lemma calls_release : (c.release x).calls = c.calls := by
  rw [release]; split_ifs <;> rfl
@[simp] lemma lastSubPath_release : (c.release x).lastSubPath = c.lastSubPath := by
  rw [release]; split_ifs <;> rfl
@[simp] lemma watchRecord_release : (c.release x).watchRecord = c.watchRecord := by
  rw [release]; split_ifs <;> rfl

@[simp] lemma sent_call : (c.call k).sent = c.sent := rfl
@[simp] lemma heap_call : (c.call k).heap = c.heap := rfl
@[simp] lemma next_call : (c.call k).next = c.next := rfl
@[simp] lemma calls_call : (c.call k).calls = c.calls ++ [k] := rfl
@[simp] lemma lastSubPath_call : (c.call k).lastSubPath = c.lastSubPath := rfl
@[simp] lemma watchRecord_call : (c.call k).watchRecord = c.watchRecord := rfl

lemma sent_send_of_valid {r : Request} (hr : isValidPath r.path false = true) :
    (c.send r).sent = c.sent ++ [r] := by
  rw [send, if_pos hr]

lemma sent_subset_send : c.sent ⊆ (c.send r).sent := by
  rw [send]
  split_ifs
  · exact List.subset_append_left _ _
  · exact fun _ hr => hr

end Fields

/-! ## Requests -/

/-- `zoo_awexists` with a watcher. -/
def zooAwexists (c : Client) (path : Path) (x : Ptr) : Client :=
  c.send { op := .existsOp, path := path, watch := true, ctx := x }

/-- `zoo_awget`. -/
def zooAwget (c : Client) (path : Path) (watch : Bool) (x : Ptr) : Client :=
  c.send { op := .getDataOp, path := path, watch := watch, ctx := x }

/-- `zoo_awget_children2`. -/
def zooAwgetChildren2 (c : Client) (path : Path) (watch : Bool) (x : Ptr) : Client :=
  c.send { op := .getChildrenOp, path := path, watch := watch, ctx := x }

/-- `zoo_aremove_all_watches`. -/
def zooAremoveAllWatches (c : Client) (path : Path) (type : WatcherType) (x : Ptr) : Client :=
  c.send { op := .removeWatchesOp type, path := path, watch := false, ctx := x }

/-- `cppzk::watch_path_event`. -/
def watchPathEvent (c : Client) (path : Path) (cb : ExistsCallback) : Client :=
  let x := c.next
  ((c.alloc (.existsData { cb := cb })).zooAwexists path x).emplace x

/-- `cppzk::async_get_path_value<Advanced>`. -/
def asyncGetPathValue (advanced : Bool) (c : Client) (path : Path) (cb : GetCallback) : Client :=
  let x := c.next
  let c := (c.alloc (.wget { cb := cb, path := path, advanced := advanced })).zooAwget
    path advanced x
  if advanced then c.emplace x else c

/-- `cppzk::async_get_sub_path<Advanced>`. -/
def asyncGetSubPath (advanced : Bool) (c : Client) (path : Path) (cb : ChildrenCallback) :
    Client :=
  let x := c.next
  let c := (c.alloc (.getChildren { cb := cb, path := path, advanced := advanced })).zooAwgetChildren2
    path advanced x
  if advanced then c.emplace x else c

/-- A new object, the first request for it, and its entry in `releaser_` if it is watched. -/
def issue (c : Client) (d : Userdata) (op : Op) (path : Path) (watch : Bool) : Client :=
  let x := c.next
  let c := (c.alloc d).send { op := op, path := path, watch := watch, ctx := x }
  if watch then c.emplace x else c

lemma watchPathEvent_eq (c : Client) (path : Path) (cb : ExistsCallback) :
    c.watchPathEvent path cb = c.issue (.existsData { cb := cb }) .existsOp path true := rfl

lemma asyncGetPathValue_eq (adv : Bool) (c : Client) (path : Path) (cb : GetCallback) :
    asyncGetPathValue adv c path cb =
      c.issue (.wget { cb := cb, path := path, advanced := adv }) .getDataOp path adv := rfl

lemma asyncGetSubPath_eq (adv : Bool) (c : Client) (path : Path) (cb : ChildrenCallback) :
    asyncGetSubPath adv c path cb =
      c.issue (.getChildren { cb := cb, path := path, advanced := adv }) .getChildrenOp path
        adv := rfl

@[simp] lemma next_issue (c : Client) (d : Userdata) (op : Op) (path : Path) (watch : Bool) :
    (c.issue d op path watch).next = c.next + 1 := by
  rw [issue]
  split_ifs <;> simp

lemma sent_issue (c : Client) (d : Userdata) (op : Op) (path : Path) (watch : Bool) :
    (c.issue d op path watch).sent = c.sent ++ if isValidPath path false then
      [{ op := op, path := path, watch := watch, ctx := c.next }] else [] := by
  have hsend : ((c.alloc d).send { op := op, path := path, watch := watch, ctx := c.next }).sent =
      c.sent ++ if isValidPath path false then
        [{ op := op, path := path, watch := watch, ctx := c.next }] else [] := by
    rw [send]
    dsimp only
    split_ifs
    · rfl
    · exact (List.append_nil _).symm
  cases watch <;> exact hsend

section Fields

variable (adv : Bool) (c : Client) (path : Path)

@[simp] lemma heap_watchPathEvent (cb : ExistsCallback) : (c.watchPathEvent path cb).heap =
    Function.update c.heap c.next (some (.existsData { cb := cb })) := by
  simp [watchPathEvent, zooAwexists]

@[simp] lemma next_watchPathEvent (cb : ExistsCallback) :
    (c.watchPathEvent path cb).next = c.next + 1 := by
  simp [watchPathEvent, zooAwexists]

@[simp] lemma calls_watchPathEvent (cb : ExistsCallback) :
    (c.watchPathEvent path cb).calls = c.calls := by
  simp [watchPathEvent, zooAwexists]

@[simp] lemma lastSubPath_watchPathEvent (cb : ExistsCallback) :
    (c.watchPathEvent path cb).lastSubPath = c.lastSubPath := by
  simp [watchPathEvent, zooAwexists]

@[simp] lemma watchRecord_watchPathEvent (cb : ExistsCallback) :
    (c.watchPathEvent path cb).watchRecord = c.watchRecord := by
  simp [watchPathEvent, zooAwexists]

lemma sent_watchPathEvent (cb : ExistsCallback) : (c.watchPathEvent path cb).sent =
    c.sent ++ if isValidPath path false then
      [{ op := .existsOp, path := path, watch := true, ctx := c.next }] else [] := by
  rw [watchPathEvent, sent_emplace, zooAwexists, send]
  split_ifs
  · rw [sent_alloc]
  · rw [sent_alloc, List.append_nil]

@[simp] lemma calls_asyncGetPathValue (cb : GetCallback) :
    (asyncGetPathValue adv c path cb).calls = c.calls := by
  rw [asyncGetPathValue]; split_ifs <;> simp [zooAwget]

@[simp] lemma lastSubPath_asyncGetPathValue (cb : GetCallback) :
    (asyncGetPathValue adv c path cb).lastSubPath = c.lastSubPath := by
  rw [asyncGetPathValue]; split_ifs <;> simp [zooAwget]

@[simp] lemma watchRecord_asyncGetPathValue (cb : GetCallback) :
    (asyncGetPathValue adv c path cb).watchRecord = c.watchRecord := by
  rw [asyncGetPathValue]; split_ifs <;> simp [zooAwget]

@[simp] lemma calls_asyncGetSubPath (cb : ChildrenCallback) :
    (asyncGetSubPath adv c path cb).calls = c.calls := by
  rw [asyncGetSubPath]; split_ifs <;> simp [zooAwgetChildren2]

@[simp] lemma lastSubPath_asyncGetSubPath (cb : ChildrenCallback) :
    (asyncGetSubPath adv c path cb).lastSubPath = c.lastSubPath := by
  rw [asyncGetSubPath]; split_ifs <;> simp [zooAwgetChildren2]

@[simp] lemma watchRecord_asyncGetSubPath (cb : ChildrenCallback) :
    (asyncGetSubPath adv c path cb).watchRecord = c.watchRecord := by
  rw [asyncGetSubPath]; split_ifs <;> simp [zooAwgetChildren2]

end Fields

/-- `cppzk::async_remove_watches`. -/
def asyncRemoveWatchesCppzk (c : Client) (path : Path) (watchType : WatchType)
    (cb : OperateCallback) : Client :=
  match watchType with
  | .watchPath =>
      let x := c.next
      (c.alloc (.operate cb)).zooAremoveAllWatches path .data x
  | .watchSubPath => c.asyncGetSubPath false path (.removeWatches cb path)

end Client

end ConfigMonitor
