/-
# The asynchronous operations

Each operation is a chain of requests: the completion of one request either calls the callback
of the user or sends the next request.  What `zoo_a*` returns is not looked at anywhere.  A
request that the library refuses has no completion, and the chain ends there in silence.

The operations of `config_monitor` with a callback are here, with the answers of the server left
open; the watches that are set by reads are the subject of `ConfigMonitor.Monitor`.
-/
import ConfigMonitor.ZooKeeper.Tree
import ConfigMonitor.Cppzk.Client
import ConfigMonitor.Lib.Run

namespace ConfigMonitor

open Run

namespace Operations

/-! ## Requests -/

/-- `zk_create_mode`; `create_mode` has all of them but the container. -/
inductive CreateMode
  | persistent
  | ephemeral
  | persistentSequential
  | ephemeralSequential
  | container
  | persistentWithTtl
  | persistentSequentialWithTtl
deriving DecidableEq, Repr

/-- `ZOOKEEPER_IS_SEQUENCE`. -/
def CreateMode.isSequence : CreateMode → Bool
  | .persistentSequential | .ephemeralSequential | .persistentSequentialWithTtl => true
  | _ => false

/-- `ZOOKEEPER_IS_TTL`, and `enable_ttl` of `async_create_path`. -/
def CreateMode.isTtl : CreateMode → Bool
  | .persistentWithTtl | .persistentSequentialWithTtl => true
  | _ => false

/-- `ZOO_MAX_TTL`. -/
def maxTtl : ℤ := 0xFFFFFFFFFF

/-- The calls of the library. -/
inductive ZooCall
  | acreate2Ttl (path : Path) (value : Data) (mode : CreateMode) (ttl : ℤ)
  | adelete (path : Path)
  | aset (path : Path) (value : Str)
  | aget (path : Path)
  | agetChildren2 (path : Path)
  | aremoveAllWatches (path : Path) (type : WatcherType)
deriving DecidableEq, Repr

/-- What the library looks at before it sends a request: whether the handle is in a usable
state. -/
structure Handle where
  usable : Bool

/-- Does the library send the request?  If not, it returns `ZBADARGUMENTS` or `ZINVALIDSTATE`.
Whether there is a watch to remove is not asked: `pathHasWatcher` holds for all of them. -/
def Handle.accepts (h : Handle) : ZooCall → Bool
  | .acreate2Ttl path _ mode ttl =>
      (if mode.isTtl then 0 < ttl ∧ ttl ≤ maxTtl else ttl < 0) && isValidPath path mode.isSequence
        && h.usable
  | .adelete path | .aset path _ | .aget path | .agetChildren2 path | .aremoveAllWatches path _ =>
      isValidPath path false && h.usable

/-- A usable handle. -/
def usableHandle : Handle := { usable := true }

/-- What a completion is run with: the code, the string, the value and the children of the
answer; and the results of the calls of `recursive_get_sub_path` that the completion makes. -/
structure Answer where
  rc : ZooError
  str : Option Str := none
  val : Data := none
  strings : List Str := []
  recursiveGetSubPath : Path → Except ZooError (List Path) := fun _ => .ok []

/-! ## Chains -/

/-- The completion of a request in flight, with the data it was made with. -/
inductive Pending
  | create
  | createChain (splitPaths : List Path) (value : Data) (mode : CreateMode) (ttl : ℤ)
  | listForDelete (prefixPath : Path)
  | deleteChain (subs : List Path)
  | operate
  | get
  | listForRemove (p : Path)
  | removeChain (subs : List Path)
deriving DecidableEq, Repr

/-- What the callback of the user is called with. -/
inductive Result
  | created (rc : ZooError) (newPath : Str)
  | operated (rc : ZooError)
  | got (rc : ZooError) (val : Data)
deriving DecidableEq, Repr

/-- A completion calls the callback, or sends one more request. -/
inductive Next
  | done (result : Result)
  | request (call : ZooCall) (pending : Pending)
deriving DecidableEq, Repr

/-- The loop of `split_path`: the parts of the path before each of its `/`, in front of `acc`.
The path gets shorter, so that its length bounds the number of rounds. -/
def splitLoop : ℕ → Path → List Path → List Path
  | 0, _, acc => acc
  | n + 1, path, acc =>
      match path.reverse.dropWhile (· ≠ '/') with
      | [] => acc
      | _ :: r => splitLoop n r.reverse (r.reverse :: acc)

/-- `split_path`, which throws when there is no `/`. -/
def splitPath (path : Path) : Option (List Path) :=
  match path.count '/' with
  | 0 => none
  | 1 => some [path]
  | _ => some ((splitLoop path.length path []).tail ++ [path])

/-- The first request of `async_create_path`, or nothing if it throws. -/
def asyncCreatePath (path : Path) (value : Data) (mode : CreateMode) (ttl : ℤ) :
    Option (ZooCall × Pending) :=
  if mode.isTtl ∧ ttl < 0 then none
  else
    match splitPath path with
    | none => none
    | some [] => none
    | some [_] => some (.acreate2Ttl path value mode ttl, .create)
    | some (first :: rest) =>
        some (.acreate2Ttl first none .persistent (-1), .createChain (first :: rest) value mode ttl)

/-- The completion of `async_create_path`. -/
def createCompletion (splitPaths : List Path) (value : Data) (mode : CreateMode) (ttl : ℤ)
    (a : Answer) : Next :=
  if a.rc ≠ .zok ∧ a.rc ≠ .znodeexists then .done (.created a.rc (a.str.getD []))
  else
    match splitPaths.tail with
    | [] => .done (.created a.rc (a.str.getD []))
    | [path] => .request (.acreate2Ttl path value mode ttl) (.createChain [path] value mode ttl)
    | path :: rest =>
        .request (.acreate2Ttl path none .persistent (-1))
          (.createChain (path :: rest) value mode ttl)

/-- The loop of the completion of `async_recursive_get_sub_path`. -/
def gather (recursiveGetSubPath : Path → Except ZooError (List Path)) :
    List Path → List Path → Except ZooError (List Path)
  | subs, [] => .ok subs
  | subs, full :: rest =>
      match recursiveGetSubPath full with
      | .error ec => .error ec
      | .ok below => gather recursiveGetSubPath (subs ++ below ++ [full]) rest

/-- The completion of `async_recursive_get_sub_path` with the callback of `async_delete_path`. -/
def listForDeleteCompletion (prefixPath : Path) (a : Answer) : Next :=
  if a.rc ≠ .zok then .done (.operated a.rc)
  else
    match gather a.recursiveGetSubPath [] (a.strings.map (subPath prefixPath)) with
    | .error ec => .done (.operated ec)
    | .ok subs =>
        let subs := subs ++ [prefixPath]
        .request (.adelete (subs.headD [])) (.deleteChain subs)

/-- The completion of `async_delete_path`. -/
def deleteCompletion (subs : List Path) (a : Answer) : Next :=
  match subs.tail with
  | [] => .done (.operated a.rc)
  | path :: rest =>
      if a.rc ≠ .zok then .done (.operated a.rc)
      else .request (.adelete path) (.deleteChain (path :: rest))

/-- The request for the first of the paths whose watches are left to be removed. -/
def removeNext (subs : List Path) : Next :=
  match subs with
  | [path] => .request (.aremoveAllWatches path .any) (.removeChain subs)
  | _ => .request (.aremoveAllWatches (subs.headD []) .data) (.removeChain subs)

/-- The `get_children_callback` of `async_remove_watches`. -/
def listForRemoveCompletion (p : Path) (a : Answer) : Next :=
  if a.rc ≠ .zok then .done (.operated a.rc)
  else removeNext (a.strings.map (subPath p) ++ [p])

/-- The completion of `async_remove_watches` for sub-paths. -/
def removeCompletion (subs : List Path) (a : Answer) : Next :=
  match subs.tail with
  | [] => .done (.operated a.rc)
  | path :: rest => removeNext (path :: rest)

/-- The completion of a request. -/
def Pending.complete : Pending → Answer → Next
  | .create, a => .done (.created a.rc (a.str.getD []))
  | .createChain splitPaths value mode ttl, a => createCompletion splitPaths value mode ttl a
  | .listForDelete prefixPath, a => listForDeleteCompletion prefixPath a
  | .deleteChain subs, a => deleteCompletion subs a
  | .operate, a => .done (.operated a.rc)
  | .get, a => .done (.got a.rc a.val)
  | .listForRemove p, a => listForRemoveCompletion p a
  | .removeChain subs, a => removeCompletion subs a

/-- The asynchronous operations of `config_monitor`. -/
inductive Op
  | asyncCreatePath (path : Path) (value : Data) (mode : CreateMode) (ttl : ℤ)
  | asyncDelPath (path : Path)
  | asyncSetPathValue (path : Path) (value : Str)
  | asyncGetPathValue (path : Path)
  | asyncRemoveWatches (path : Path) (type : WatchType)
deriving DecidableEq, Repr

/-- The first request of an operation, or nothing if it throws. -/
def Op.first : Op → Option (ZooCall × Pending)
  | .asyncCreatePath path value mode ttl => Operations.asyncCreatePath path value mode ttl
  | .asyncDelPath path => some (.agetChildren2 path, .listForDelete path)
  | .asyncSetPathValue path value => some (.aset path value, .operate)
  | .asyncGetPathValue path => some (.aget path, .get)
  | .asyncRemoveWatches path .watchPath => some (.aremoveAllWatches path .data, .operate)
  | .asyncRemoveWatches path .watchSubPath => some (.agetChildren2 path, .listForRemove path)

/-! ## The client -/

/-- The operations of a client, numbered in the order of their calls: the completions of the
requests in flight, oldest first, and the calls of the callbacks. -/
structure State where
  handle : Handle
  next : ℕ
  inFlight : List (ℕ × Pending)
  calls : List (ℕ × Result)

/-- A client that has called nothing. -/
def init (handle : Handle) : State :=
  { handle := handle, next := 0, inFlight := [], calls := [] }

/-- `zoo_a*` for the operation `id`; a request that is refused leaves nothing behind. -/
def issue (s : State) (id : ℕ) (call : ZooCall) (pending : Pending) : State :=
  if s.handle.accepts call then { s with inFlight := s.inFlight ++ [(id, pending)] } else s

/-- A call of an operation, the completion of the oldest request in flight, and a change of the
handle. -/
inductive Action
  | call (op : Op)
  | complete (a : Answer)
  | setHandle (handle : Handle)

/-- One step.  An operation that throws is not called. -/
def step (s : State) : Action → Option State
  | .call op =>
      op.first.map fun first => issue { s with next := s.next + 1 } s.next first.1 first.2
  | .complete a =>
      match s.inFlight with
      | [] => none
      | (id, pending) :: rest =>
          match pending.complete a with
          | .done result => some { s with inFlight := rest, calls := s.calls ++ [(id, result)] }
          | .request call pending => some (issue { s with inFlight := rest } id call pending)
  | .setHandle handle => some { s with handle := handle }

variable {s s' : State} {id : ℕ}

@[simp] lemma next_issue (s : State) (id : ℕ) (call : ZooCall) (pending : Pending) :
    (issue s id call pending).next = s.next := by
  rw [issue]
  split_ifs <;> rfl

end Operations

end ConfigMonitor
