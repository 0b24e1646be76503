/-
# One session with the server

The requests a client can have in flight, the answers the server gives from its tree, the
watches a session has armed and the notifications a change of the tree sends.

The client library keeps three tables of watchers (`active_node_watchers`,
`active_exist_watchers`, `active_child_watchers`).  An answer that registers a watcher and the
notification that takes it out again reach the client in the order in which the server armed
and fired the watch, so the tables are kept here as the server sees them: a watch is entered
when the answer is given, and a notification carries the watchers that `collectWatchers` is
going to find when it arrives.  A watcher is the pointer to its userdata; the functions stored
in the userdata follow from its type.
-/
import ConfigMonitor.ZooKeeper.Tree

namespace ConfigMonitor

/-- The error codes of the client library. -/
inductive ZooError
  | zok
  | znonode
  | znoauth
  | znochildrenforephemerals
  | znodeexists
  | znotempty
  | znowatcher
  | zconnectionloss
  | zsessionexpired
  | zinvalidacl
  | zbadarguments
  | zinvalidstate
  | zclosing
deriving DecidableEq, Repr

/-- `zk_event`. -/
inductive ZkEvent
  | dummy
  | created
  | deleted
  | changed
  | child
  | session
deriving DecidableEq, Repr

/-- `ZooWatcherType`. -/
inductive WatcherType
  | child
  | data
  | any
deriving DecidableEq, Repr

/-- The address of a userdata object. -/
abbrev Ptr := ℕ

/-- What a request asks for. -/
inductive Op
  | existsOp
  | getDataOp
  | getChildrenOp
  | removeWatchesOp (type : WatcherType)
deriving DecidableEq, Repr

/-- A request in flight: `watch` says whether a watcher is registered with it, `ctx` is the
userdata handed to its completion and to its watcher. -/
structure Request where
  op : Op
  path : Path
  watch : Bool
  ctx : Ptr
deriving DecidableEq, Repr

/-- The answer to a request; `val` and `strings` are empty where the operation has none. -/
structure Reply where
  req : Request
  rc : ZooError
  val : Data := none
  strings : List Str := []
deriving DecidableEq, Repr

/-- What the server sends: answers, and notifications with the watchers they are for. -/
inductive Msg
  | reply (rep : Reply)
  | event (eve : ZkEvent) (path : Path) (ctxs : List Ptr)
deriving DecidableEq, Repr

/-- The table of the client library a watcher is registered in. -/
inductive Table
  | node
  | exist
  | child
deriving DecidableEq, Repr

/-- An armed watch. -/
structure Watch where
  table : Table
  path : Path
  ctx : Ptr
deriving DecidableEq, Repr

/-- The tables `collectWatchers` takes the watchers of an event from, in delivery order. -/
def ZkEvent.tables : ZkEvent → List Table
  | .created | .changed => [.exist, .node]
  | .child => [.child]
  | .deleted => [.child, .exist, .node]
  | .dummy | .session => []

/-- A session event fires no watch. -/
lemma ZkEvent.ne_session {eve : ZkEvent} {tb : Table} (h : tb ∈ eve.tables) :
    eve ≠ .session := by
  rintro rfl
  simp [ZkEvent.tables] at h

/-- Only a child event and a session event leave the node and exist tables alone. -/
lemma ZkEvent.ne_of_mem_tables {eve : ZkEvent} {tb : Table} (h : tb ∈ eve.tables)
    (htb : tb ≠ .child) : eve ≠ .child ∧ eve ≠ .session := by
  cases eve <;> simp_all [ZkEvent.tables]

/-- The tables `removeWatchers` clears. -/
def WatcherType.tables : WatcherType → List Table
  | .child => [.child]
  | .data => [.node, .exist]
  | .any => [.child, .node, .exist]

/-- Does an event at `q` fire the watch? -/
abbrev Watch.FiredBy (w : Watch) (eve : ZkEvent) (q : Path) : Prop :=
  w.table ∈ eve.tables ∧ w.path = q

/-- `collectWatchers`: the watchers an event at `q` is delivered to. -/
def collectWatchers (eve : ZkEvent) (q : Path) (armed : List Watch) : List Ptr :=
  eve.tables.flatMap fun tb =>
    (armed.filter fun w => w.table = tb ∧ w.path = q).map Watch.ctx

/-- `exists_result_checker`, `data_result_checker`, `child_result_checker`: the table an
answer registers its watcher in. -/
def resultChecker : Op → ZooError → Option Table
  | .existsOp, .zok => some .node
  | .existsOp, .znonode => some .exist
  | .getDataOp, .zok => some .node
  | .getChildrenOp, .zok => some .child
  | _, _ => none

/-- A request answered with the code registers no watcher, whatever it is. -/
def ZooError.Fails (rc : ZooError) : Prop := ∀ op, resultChecker op rc = none

/-- The table the answer registers the watcher of its request in, if there is a watcher. -/
def Reply.table? (rep : Reply) : Option Table :=
  if rep.req.watch then resultChecker rep.req.op rep.rc else none

/-- The watches armed after an answer: `activateWatcher`, and `deactivateWatcher` for a
remove-watches request. -/
def activate (armed : List Watch) (rep : Reply) : List Watch :=
  match rep.table? with
  | some tb => armed ++ [⟨tb, rep.req.path, rep.req.ctx⟩]
  | none =>
      match rep.req.op, rep.rc with
      | .removeWatchesOp type, .zok =>
          armed.filter fun w => ¬ (w.table ∈ type.tables ∧ w.path = rep.req.path)
      | _, _ => armed

/-- The answer of the server: it is read off the tree as it is when the request is handled. -/
def answer (t : Tree) (armed : List Watch) (r : Request) : Reply :=
  match r.op with
  | .existsOp => { req := r, rc := if (t.get r.path).isSome then .zok else .znonode }
  | .getDataOp =>
      match t.get r.path with
      | some v => { req := r, rc := .zok, val := v }
      | none => { req := r, rc := .znonode }
  | .getChildrenOp =>
      if (t.get r.path).isSome then { req := r, rc := .zok, strings := t.children r.path }
      else { req := r, rc := .znonode }
  | .removeWatchesOp type =>
      if armed.any fun w => decide (w.table ∈ type.tables ∧ w.path = r.path) then
        { req := r, rc := .zok }
      else { req := r, rc := .znowatcher }

@[simp] lemma answer_req (t : Tree) (armed : List Watch) (r : Request) :
    (answer t armed r).req = r := by
  rw [answer]
  cases r.op with
  | existsOp => rfl
  | getDataOp => cases t.get r.path <;> rfl
  | getChildrenOp => dsimp only; split_ifs <;> rfl
  | removeWatchesOp type => dsimp only; split_ifs <;> rfl

lemma answer_existsOp {t : Tree} {armed : List Watch} {r : Request} (h : r.op = .existsOp) :
    answer t armed r = { req := r, rc := if (t.get r.path).isSome then .zok else .znonode } := by
  rw [answer, h]

lemma answer_getDataOp {t : Tree} {armed : List Watch} {r : Request} (h : r.op = .getDataOp) :
    answer t armed r =
      match t.get r.path with
      | some v => { req := r, rc := .zok, val := v }
      | none => { req := r, rc := .znonode } := by
  rw [answer, h]

lemma answer_getChildrenOp {t : Tree} {armed : List Watch} {r : Request}
    (h : r.op = .getChildrenOp) :
    answer t armed r =
      if (t.get r.path).isSome then { req := r, rc := .zok, strings := t.children r.path }
      else { req := r, rc := .znonode } := by
  rw [answer, h]

/-- An exists watch is armed whether the node is there or not. -/
lemma table?_answer_existsOp (t : Tree) (armed : List Watch) {r : Request}
    (h : r.op = .existsOp) (hw : r.watch = true) :
    (answer t armed r).table? = some (if (t.get r.path).isSome then .node else .exist) := by
  rw [answer_existsOp h, Reply.table?, if_pos hw, h]
  split_ifs <;> rfl

lemma activate_of_some {rep : Reply} {tb : Table} (h : rep.table? = some tb)
    (armed : List Watch) :
    activate armed rep = armed ++ [⟨tb, rep.req.path, rep.req.ctx⟩] := by
  rw [activate, h]

lemma mem_activate {rep : Reply} {tb : Table} (h : rep.table? = some tb) (armed : List Watch) :
    ⟨tb, rep.req.path, rep.req.ctx⟩ ∈ activate armed rep := by
  rw [activate_of_some h]
  exact List.mem_append_right _ (List.mem_singleton.mpr rfl)

/-- An answer that registers no watcher adds no watch. -/
lemma activate_sublist {rep : Reply} (h : rep.table? = none) (armed : List Watch) :
    (activate armed rep).Sublist armed := by
  rw [activate, h]
  dsimp only
  split
  · exact List.filter_sublist
  · exact List.Sublist.refl _

/-- A watch after an answer was there before, or is the one the answer registers. -/
lemma mem_of_mem_activate {rep : Reply} {armed : List Watch} {a : Watch}
    (ha : a ∈ activate armed rep) :
    a ∈ armed ∨ ∃ tb, rep.table? = some tb ∧ a = ⟨tb, rep.req.path, rep.req.ctx⟩ := by
  cases htb : rep.table? with
  | some tb =>
      rw [activate_of_some htb, List.mem_append, List.mem_singleton] at ha
      exact ha.imp_right fun heq => ⟨tb, rfl, heq⟩
  | none => exact Or.inl ((activate_sublist htb armed).subset ha)

/-- Only a remove-watches request takes watches away. -/
lemma activate_answer (t : Tree) (armed : List Watch) {r : Request}
    (hr : ∀ type, r.op ≠ .removeWatchesOp type) :
    activate armed (answer t armed r) = armed ++
      ((answer t armed r).table?.map fun tb => (⟨tb, r.path, r.ctx⟩ : Watch)).toList := by
  cases htb : (answer t armed r).table? with
  | some tb =>
      rw [activate_of_some htb, answer_req]
      rfl
  | none =>
      rw [activate, htb, answer_req]
      dsimp only
      split
      · rename_i type hop _
        exact absurd hop (hr type)
      · exact (List.append_nil armed).symm

/-- A removal takes away the watches that it is for. -/
lemma activate_answer_removeWatchesOp (t : Tree) (armed : List Watch) {r : Request}
    {type : WatcherType} (hr : r.op = .removeWatchesOp type) :
    activate armed (answer t armed r) =
      armed.filter fun a => ¬ (a.table ∈ type.tables ∧ a.path = r.path) := by
  have htb : (answer t armed r).table? = none := by
    rw [Reply.table?, answer_req, hr]
    split_ifs <;> rfl
  rw [activate, htb, answer_req, hr, answer, hr]
  dsimp only
  split_ifs with hany
  · rfl
  · -- no watch is concerned
    refine (List.filter_eq_self.mpr fun a ha => ?_).symm
    simp only [List.any_eq_true, not_exists, not_and, decide_eq_true_eq] at hany ⊢
    exact hany a ha

lemma subset_activate (t : Tree) (armed : List Watch) {r : Request}
    (hr : ∀ type, r.op ≠ .removeWatchesOp type) :
    armed ⊆ activate armed (answer t armed r) := by
  rw [activate_answer t armed hr]
  exact List.subset_append_left _ _

lemma mem_collectWatchers {eve : ZkEvent} {q : Path} {armed : List Watch} {x : Ptr} :
    x ∈ collectWatchers eve q armed ↔ ∃ w ∈ armed, w.FiredBy eve q ∧ w.ctx = x := by
  simp only [collectWatchers, List.mem_flatMap, List.mem_map, List.mem_filter,
    decide_eq_true_eq]
  constructor
  · rintro ⟨tb, htb, w, ⟨hw, rfl, hq⟩, hx⟩
    exact ⟨w, hw, ⟨htb, hq⟩, hx⟩
  · rintro ⟨w, hw, ⟨htb, hq⟩, hx⟩
    exact ⟨w.table, htb, w, ⟨hw, rfl, hq⟩, hx⟩

end ConfigMonitor
