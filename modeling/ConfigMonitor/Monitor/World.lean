/-
# The monitor, its session and the server as one transition system

The state is the tree of the server, the watches armed in the session, the messages on their
way to the client, oldest first, and the client with its requests in flight.  Other clients
change the tree at any time; the server handles the requests in the order sent; the client
handles the messages in the order of the server.
-/
import ConfigMonitor.Cppzk.Completions
import ConfigMonitor.Lib.Run

namespace ConfigMonitor

/-- The state of the system. -/
structure World where
  tree : Tree
  armed : List Watch
  inbox : List Msg
  client : Client

/-- The actions: changes by other clients, calls of the monitor, the two ends of the session, and a
lost connection (`received` messages have already been read by the client library, and `order` is
the order in which it sets the watches again whose notifications are lost). -/
inductive Action
  | create (q : Path) (v : Data)
  | set (q : Path) (v : Data)
  | delete (q : Path)
  | watchPath (p : Path) (cb : Cb)
  | watchSubPath (p : Path) (cb : Cb)
  | asyncRemoveWatches (p : Path) (type : WatchType) (cb : Cb)
  | serve
  | deliver
  | loss (received : ℕ) (order : List Watch)
deriving DecidableEq, Repr

namespace World

/-- A client just connected to a server with tree `t`. -/
def start (t : Tree) : World := { tree := t, armed := [], inbox := [], client := Client.init }

/-- An event at `q`: the watches it fires are consumed and one notification is sent for them,
if there are any. -/
def fire (w : World) (eve : ZkEvent) (q : Path) : World :=
  match collectWatchers eve q w.armed with
  | [] => w
  | x :: xs =>
      { w with
        armed := w.armed.filter fun a => ¬ a.FiredBy eve q
        inbox := w.inbox ++ [.event eve q (x :: xs)] }

/-- Another client creates `q`. -/
def create (w : World) (q : Path) (v : Data) : Option World :=
  (w.tree.create q v).map fun t =>
    (({ w with tree := t }).fire .created q).fire .child (parentPath q)

/-- Another client changes the value of `q`. -/
def set (w : World) (q : Path) (v : Data) : Option World :=
  (w.tree.set q v).map fun t => ({ w with tree := t }).fire .changed q

/-- Another client deletes `q`. -/
def delete (w : World) (q : Path) : Option World :=
  (w.tree.delete q).map fun t =>
    (({ w with tree := t }).fire .deleted q).fire .child (parentPath q)

/-- The server handles the oldest request in flight. -/
def serve (w : World) : Option World :=
  match w.client.sent with
  | [] => none
  | r :: rs =>
      let rep := answer w.tree w.armed r
      some { w with
        armed := activate w.armed rep
        inbox := w.inbox ++ [.reply rep]
        client := { w.client with sent := rs } }

/-- The client handles the oldest message. -/
def deliver (w : World) : Option World :=
  match w.inbox with
  | [] => none
  | m :: ms => some { w with inbox := ms, client := w.client.process m }

/-- The requests whose answers are among `ms`. -/
def answered (ms : List Msg) : List Request :=
  ms.filterMap fun
    | .reply rep => some rep.req
    | .event .. => none

/-- The table that a watcher was registered in whose notification is on its way.  The watcher of an
exists request is in `active_exist_watchers` until the node is created. -/
def tableOf (c : Client) (eve : ZkEvent) (x : Ptr) : Table :=
  match c.heap x with
  | some (.getChildren _) => .child
  | some (.wget _) => .node
  | _ => if eve = .created then .exist else .node

/-- The watches whose notifications are among `ms`, as they were in the tables of the library,
without the watchers in `gone`. -/
def restored (c : Client) (gone : List Ptr) (ms : List Msg) : List Watch :=
  ms.flatMap fun
    | .reply _ => []
    | .event eve q ctxs => (ctxs.filter (· ∉ gone)).map fun x => ⟨tableOf c eve x, q, x⟩

/-- What the server sends at once for a watch of a node that has changed since `relativeZxid`. -/
def eventAgain (t : Tree) (a : Watch) : Option ZkEvent :=
  match a.table with
  | .node => some (if (t.get a.path).isSome then .changed else .deleted)
  | .exist => if (t.get a.path).isSome then some .created else none
  | .child => some (if (t.get a.path).isSome then .child else .deleted)

/-- Such a watch is set again. -/
def setAgain (w : World) (a : Watch) : World :=
  match eventAgain w.tree a with
  | some eve => w.fire eve a.path
  | none => w

/-- The session when the requests in flight, and those whose answers are among the lost
messages, have failed with `rc`, and the watches of the lost notifications are restored. -/
def failed (w : World) (kept lost : List Msg) (rc : ZooError) : World :=
  { w with
    armed := (w.armed.filter fun a => a.ctx ∉ (answered lost).map Request.ctx) ++
      restored w.client ((answered lost).map Request.ctx) lost
    inbox := kept ++ (answered lost ++ w.client.sent).map fun r =>
      Msg.reply { req := r, rc := rc }
    client := { w.client with sent := [] } }

/-- The connection is lost and established again.  Every request that is not answered yet, or
whose answer has not been received, ends with a connection-loss error and its watch is not
registered.  The library sets the watches in its tables again (`send_set_watches`), those of the
lost notifications among them.  The server compares the nodes with the last zxid that the client
has seen: the ones that have changed since are those whose notifications are lost, and for their
watches it sends the event that fits the node as it is now, if there is one; the other watches are
armed as they were.  While a remove-watches request is unanswered, or its answer has not been
received, no connection is lost here. -/
def loss (w : World) (received : ℕ) (order : List Watch) : Option World :=
  let lost := w.inbox.drop received
  let back := restored w.client ((answered lost).map Request.ctx) lost
  if ((answered lost ++ w.client.sent).any fun r => r.op matches .removeWatchesOp _) ∨
      ¬ order.Perm back then none
  else some (order.foldl setAgain (w.failed (w.inbox.take received) lost .zconnectionloss))

/-- One step of the system. -/
def step (w : World) : Action → Option World
  | .create q v => w.create q v
  | .set q v => w.set q v
  | .delete q => w.delete q
  | .watchPath p cb => some { w with client := w.client.watchPath p cb }
  | .watchSubPath p cb => some { w with client := w.client.watchSubPath p cb }
  | .asyncRemoveWatches p type cb =>
      some { w with client := w.client.asyncRemoveWatches p type cb }
  | .serve => w.serve
  | .deliver => w.deliver
  | .loss n order => w.loss n order

/-! ## What a step can do -/

variable {w w' : World}

lemma serve_cases (hs : w.serve = some w') : ∃ r rs, w.client.sent = r :: rs ∧
    w' = { w with
      armed := activate w.armed (answer w.tree w.armed r)
      inbox := w.inbox ++ [.reply (answer w.tree w.armed r)]
      client := { w.client with sent := rs } } := by
  rw [serve] at hs
  cases hsent : w.client.sent with
  | nil => rw [hsent] at hs; simp at hs
  | cons r rs =>
      rw [hsent] at hs
      exact ⟨r, rs, rfl, (Option.some.inj hs).symm⟩

lemma deliver_cases (hs : w.deliver = some w') : ∃ m ms, w.inbox = m :: ms ∧
    w' = { w with inbox := ms, client := w.client.process m } := by
  rw [deliver] at hs
  cases hin : w.inbox with
  | nil => rw [hin] at hs; simp at hs
  | cons m ms =>
      rw [hin] at hs
      exact ⟨m, ms, rfl, (Option.some.inj hs).symm⟩

@[simp] lemma client_fire (w : World) (eve : ZkEvent) (q : Path) :
    (w.fire eve q).client = w.client := by
  rw [fire]; split <;> rfl

@[simp] lemma tree_fire (w : World) (eve : ZkEvent) (q : Path) :
    (w.fire eve q).tree = w.tree := by
  rw [fire]; split <;> rfl

/-- Nothing of the session is in flight. -/
def Quiescent (w : World) : Prop := w.client.sent = [] ∧ w.inbox = []

instance (w : World) : Decidable w.Quiescent := by unfold Quiescent; infer_instance

end World

end ConfigMonitor
