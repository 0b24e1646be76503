/-
# `loc_file` as a transition system

The state is the file system, the members of `loc_file`, how far the calls of the user threads
and the task thread are, and the calls of user callbacks so far.  A step is one section under
`task_mtx_`, one read of the file system or one call of a callback; between any two steps other
threads run and other processes change the file system.

The three pairs of maps are treated alike and differ in what they remember of a path
(`Kind.Last`), in how it is read (`look`) and in what a difference leads to (`onChange`).
-/
import ConfigMonitor.LocalFile.FileSystem
import ConfigMonitor.Lib.Registry
import ConfigMonitor.Lib.Run

namespace ConfigMonitor

namespace LocalFile

/-- The three monitors: of existence, of the value and of the children of a path. -/
inductive Kind
  | exist
  | get
  | sub
deriving DecidableEq, Repr

/-- What is remembered of a path: whether it existed, its modification time, its children. -/
abbrev Kind.Last : Kind → Type
  | .exist => Bool
  | .get => ℕ
  | .sub => List Str

instance : ∀ k : Kind, DecidableEq k.Last
  | .exist => inferInstanceAs (DecidableEq Bool)
  | .get => inferInstanceAs (DecidableEq ℕ)
  | .sub => inferInstanceAs (DecidableEq (List Str))

/-- What the poll reads of a path. -/
def look (fs : FileSystem) : (k : Kind) → Path → k.Last
  | .exist, path => pathExists fs path
  | .get, path => (fileModifyTime fs path).2
  | .sub, path => getPathChildren fs path

/-- A callback handed to `exists_path`, `get_path_value` or `get_sub_path`: what it is
registered for, and the number of the call. -/
structure Callback where
  kind : Kind
  path : Path
  id : ℕ
deriving DecidableEq, Repr

/-- A call of a user callback. -/
inductive Call
  | existed (cb : Callback) (err : FileError) (eve : FileEvent)
  | get (cb : Callback) (err : FileError) (val : Option Str)
  | children (cb : Callback) (err : FileError) (eve : FileEvent) (paths : List Str)
  | removed (id : ℕ) (err : FileError)
deriving DecidableEq, Repr

/-- The number of the call of the user that the callback was handed to. -/
def Call.id : Call → ℕ
  | .existed cb _ _ | .get cb _ _ | .children cb _ _ _ => cb.id
  | .removed id _ => id

/-- The lambdas in `task_queue_`. -/
inductive Task
  | report (call : Call)
  | removeWatches (path : Path) (watchType : ℕ) (id : ℕ)
deriving DecidableEq, Repr

/-- What a user thread has still to do of its call; `addTask` queues a report first. -/
inductive Progress
  | returned
  | existsPath (advanced : Bool) (path : Path)
  | getPathValue (advanced : Bool) (path : Path)
  | getSubPath (advanced : Bool) (path : Path)
  | getPathChildren (advanced : Bool) (path : Path)
  | addTask (report : Call) (rest : Progress)
  | fileModifyTime (path : Path)
  | emplace (kind : Kind) (path : Path) (last : kind.Last)

/-- A section of the task thread.  The callback of a `call` has been looked up in the copy the
thread works on: `none` is an empty `std::function`, which throws. -/
inductive Step
  | call (call : Option Call)
  | remove (kind : Kind) (path : Path)
  | removeChildren (path : Path)
  | getFileValue (path : Path) (cb : Option Callback) (thisTimestamp : ℕ)
  | update (kind : Kind) (path : Path) (this : kind.Last)

/-- A pair of maps: `last_existed_status_` and `monitor_exist_path_`, or `last_changed_time_` and
`monitor_get_path_`, or `last_path_children_` and `monitor_sub_path_`. -/
abbrev Monitors (k : Kind) := Registry Path k.Last Callback

/-- One iteration of the task thread: the tasks and the entries of the copies it has still to
deal with, and what it has still to do for the one it is at. -/
structure Iteration where
  tasks : List Task
  copies : (k : Kind) → Monitors k
  todo : List Step

/-- The state.  `next` is the number of the next call of the user. -/
structure State where
  fs : FileSystem
  monitors : (k : Kind) → Monitors k
  taskQueue : List Task
  threads : ℕ → Progress
  next : ℕ
  iteration : Option Iteration
  calls : List Call
  terminated : Bool

/-- The actions: changes of the file system, calls of the user and their sections, and the
sections of the task thread. -/
inductive Action
  | change (fs : FileSystem)
  | existsPath (advanced : Bool) (path : Path)
  | getPathValue (advanced : Bool) (path : Path)
  | getSubPath (advanced : Bool) (path : Path)
  | removeWatches (path : Path) (watchType : ℕ)
  | advance (id : ℕ)
  | wake
  | task
  | proceed
  | check (kind : Kind) (path : Path)
  | finish

namespace State

/-- A `loc_file` that has just been initialized. -/
def init (fs : FileSystem) : State where
  fs := fs
  monitors := fun _ => Registry.empty
  taskQueue := []
  threads := fun _ => .returned
  next := 0
  iteration := none
  calls := []
  terminated := false

/-! ## The calls of the user -/

/-- A thread enters a call of `loc_file`. -/
def enter (s : State) (p : Progress) : State :=
  { s with threads := Function.update s.threads s.next p, next := s.next + 1 }

/-- `add_task`. -/
def addTask (s : State) (task : Task) : State := { s with taskQueue := s.taskQueue ++ [task] }

/-- `remove_watches`. -/
def removeWatches (s : State) (path : Path) (watchType : ℕ) : State :=
  { s.addTask (.removeWatches path watchType s.next) with next := s.next + 1 }

/-- A pair of maps is replaced. -/
def setMonitors (s : State) (k : Kind) (r : Monitors k) : State :=
  { s with monitors := Function.update s.monitors k r }

/-- The last section of `exists_path<true>`, `get_path_value<true>` and `get_sub_path<true>`. -/
def emplace (s : State) (k : Kind) (path : Path) (last : k.Last) (id : ℕ) : State :=
  s.setMonitors k ((s.monitors k).register path last { kind := k, path := path, id := id })

/-- `exists_path`: the read, then the report, then the entry in the maps. -/
def existsPath (s : State) (advanced : Bool) (path : Path) (id : ℕ) : Progress :=
  let existed := pathExists s.fs path
  .addTask (.existed ⟨.exist, path, id⟩ (if existed then .ok else .notExist) .dummy)
    (if advanced then .emplace .exist path existed else .returned)

/-- `get_path_value`: the value is read first, and reported; then the time is read.  An exception
goes to the caller. -/
def getPathValue (s : State) (advanced : Bool) (path : Path) (id : ℕ) : Progress :=
  match LocalFile.getFileValue s.fs path with
  | none => .returned
  | some (err, value) =>
      if err ≠ .ok then .addTask (.get ⟨.get, path, id⟩ .notExist none) .returned
      else .addTask (.get ⟨.get, path, id⟩ .ok (some value))
        (if advanced then .fileModifyTime path else .returned)

/-- `get_sub_path` up to the listing. -/
def getSubPath (s : State) (advanced : Bool) (path : Path) (id : ℕ) : Progress :=
  if pathExists s.fs path then .getPathChildren advanced path
  else .addTask (.children ⟨.sub, path, id⟩ .notExist .dummy []) .returned

/-- `get_sub_path` from the listing on. -/
def getPathChildren (s : State) (advanced : Bool) (path : Path) (id : ℕ) : Progress :=
  let children := LocalFile.getPathChildren s.fs path
  .addTask (.children ⟨.sub, path, id⟩ .ok .dummy children)
    (if advanced then .emplace .sub path children else .returned)

/-- A thread goes on with `p`. -/
def goto (s : State) (id : ℕ) (p : Progress) : State :=
  { s with threads := Function.update s.threads id p }

/-- The next section of a user thread. -/
def advance (s : State) (id : ℕ) : Option State :=
  match s.threads id with
  | .returned => none
  | .existsPath advanced path => some (s.goto id (s.existsPath advanced path id))
  | .getPathValue advanced path => some (s.goto id (s.getPathValue advanced path id))
  | .getSubPath advanced path => some (s.goto id (s.getSubPath advanced path id))
  | .getPathChildren advanced path => some (s.goto id (s.getPathChildren advanced path id))
  | .addTask report rest => some ((s.addTask (.report report)).goto id rest)
  | .fileModifyTime path =>
      some (s.goto id (.emplace .get path (LocalFile.fileModifyTime s.fs path).2))
  | .emplace k path last => some ((s.emplace k path last id).goto id .returned)

/-! ## The task thread -/

/-- `remove_monitor_exist_path`, `remove_monitor_get_path`, `remove_monitor_sub_path`. -/
def removeMonitor (s : State) (k : Kind) (path : Path) : State :=
  s.setMonitors k ((s.monitors k).remove path)

/-- `update_last_existed_status`, `update_last_changed_time`, `updata_path_children`. -/
def update (s : State) (k : Kind) (path : Path) (this : k.Last) : State :=
  s.setMonitors k ((s.monitors k).store path this)

/-- The thread takes the tasks and copies the maps. -/
def wake (s : State) : Option State :=
  match s.iteration with
  | none => some { s with
      taskQueue := []
      iteration := some { tasks := s.taskQueue, copies := s.monitors, todo := [] } }
  | some _ => none

end State

/-- The body of a task. -/
def Task.body : Task → List Step
  | .report call => [.call (some call)]
  | .removeWatches path watchType id =>
      if watchType = 0 then
        [.remove .exist path, .remove .get path, .call (some (.removed id .ok))]
      else
        [.remove .exist path, .remove .sub path, .removeChildren path,
          .call (some (.removed id .ok))]

/-- What follows when what is remembered of a path differs from what is there; a value is read
before anything is told. -/
def onChange : (k : Kind) → Path → k.Last → k.Last → Option Callback → List Step
  | .exist, path, lastStatus, thisStatus, cb =>
      [.update .exist path thisStatus, .call (cb.map fun cb =>
        if lastStatus then .existed cb .notExist .deleted else .existed cb .ok .created)]
  | .get, path, _, thisTimestamp, cb => [.getFileValue path cb thisTimestamp]
  | .sub, path, _, thisChildren, cb =>
      [.update .sub path thisChildren, .call (cb.map fun cb => .children cb .ok .child thisChildren)]

/-- The bodies of the loops of `handle_monitor_exist`, `handle_monitor_get` and
`handle_monitor_sub`. -/
def onCheck (k : Kind) (path : Path) (last this : k.Last) (cb : Option Callback) : List Step :=
  if last = this then [] else onChange k path last this cb

/-- The rest of `handle_monitor_get` for a path, once its value has been read. -/
def onValue (path : Path) (cb : Option Callback) (thisTimestamp : ℕ) (err : FileError)
    (value : Str) : List Step :=
  if err ≠ .ok then [.call (cb.map fun cb => .get cb .notExist none), .remove .get path]
  else [.call (cb.map fun cb => .get cb .ok (some value)), .update .get path thisTimestamp]

/-- The kinds whose entries are dealt with earlier. -/
def Kind.before : Kind → List Kind
  | .exist => []
  | .get => [.exist]
  | .sub => [.exist, .get]

/-- Have the entries of the kinds been dealt with? -/
def Iteration.Done (it : Iteration) (ks : List Kind) : Prop :=
  it.tasks = [] ∧ it.todo = [] ∧ ∀ k ∈ ks, (it.copies k).last.keys = []

instance (it : Iteration) (ks : List Kind) : Decidable (it.Done ks) := by
  unfold Iteration.Done; infer_instance

/-- Where the thread of a call with a report starts. -/
def Action.begins : Action → Option Progress
  | .existsPath advanced path => some (.existsPath advanced path)
  | .getPathValue advanced path => some (.getPathValue advanced path)
  | .getSubPath advanced path => some (.getSubPath advanced path)
  | _ => none

namespace State

/-- The next task is begun. -/
def task (s : State) : Option State :=
  match s.iteration with
  | some { tasks := task :: tasks, copies := copies, todo := [] } =>
      some { s with iteration := some { tasks := tasks, copies := copies, todo := task.body } }
  | _ => none

/-- The section of the task thread that is next, `it` being the iteration without it; an
exception in the task thread ends the process. -/
def runStep (s : State) (it : Iteration) : Step → State
  | .call (some call) => { s with calls := s.calls ++ [call], iteration := some it }
  | .call none => { s with terminated := true }
  | .remove k path => { s.removeMonitor k path with iteration := some it }
  | .removeChildren path =>
      { s with iteration := some { it with
          todo := ((LocalFile.getPathChildren s.fs path).map fun child =>
            Step.remove .get (subPath path child)) ++ it.todo } }
  | .getFileValue path cb thisTimestamp =>
      match LocalFile.getFileValue s.fs path with
      | none => { s with terminated := true }
      | some (err, value) =>
          { s with iteration := some { it with
              todo := onValue path cb thisTimestamp err value ++ it.todo } }
  | .update k path this => { s.update k path this with iteration := some it }

/-- The task thread runs its next section. -/
def proceed (s : State) : Option State :=
  match s.iteration with
  | some { tasks := tasks, copies := copies, todo := step :: todo } =>
      some (s.runStep { tasks := tasks, copies := copies, todo := todo } step)
  | _ => none

/-- The task thread reads what has become of one of the paths in its copies. -/
def check (s : State) (k : Kind) (path : Path) : Option State :=
  match s.iteration with
  | none => none
  | some it =>
      if it.Done k.before then
        ((it.copies k).last.lookup path).map fun last =>
          { s with iteration := some { it with
              copies := Function.update it.copies k
                { it.copies k with last := (it.copies k).last.erase path }
              todo := onCheck k path last (look s.fs k path) ((it.copies k).entry.lookup path) } }
      else none

/-- The iteration is complete. -/
def finish (s : State) : Option State :=
  match s.iteration with
  | none => none
  | some it => if it.Done [.exist, .get, .sub] then some { s with iteration := none } else none

/-- One step. -/
def step (s : State) (a : Action) : Option State :=
  if s.terminated then none
  else match a with
    | .change fs => some { s with fs := fs }
    | .existsPath advanced path => some (s.enter (.existsPath advanced path))
    | .getPathValue advanced path => some (s.enter (.getPathValue advanced path))
    | .getSubPath advanced path => some (s.enter (.getSubPath advanced path))
    | .removeWatches path watchType => some (s.removeWatches path watchType)
    | .advance id => s.advance id
    | .wake => s.wake
    | .task => s.task
    | .proceed => s.proceed
    | .check k path => s.check k path
    | .finish => s.finish

/-! ## What a step can do -/

variable {s s' : State}

lemma step_eq {a : Action} (h : s.step a = some s') : s.terminated = false := by
  rw [step.eq_def] at h
  split_ifs at h with ht
  exact Bool.eq_false_iff.mpr ht

lemma change_cases {fs : FileSystem} (h : s.step (.change fs) = some s') :
    s' = { s with fs := fs } := by
  have ht := step_eq h
  rw [step.eq_def, if_neg (Bool.eq_false_iff.mp ht)] at h
  exact (Option.some.inj h).symm

lemma removeWatches_cases {path : Path} {watchType : ℕ}
    (h : s.step (.removeWatches path watchType) = some s') :
    s' = s.removeWatches path watchType := by
  have ht := step_eq h
  rw [step.eq_def, if_neg (Bool.eq_false_iff.mp ht)] at h
  exact (Option.some.inj h).symm

lemma enter_cases {a : Action} {p : Progress} (hp : a.begins = some p)
    (h : s.step a = some s') : s' = s.enter p := by
  have ht := step_eq h
  rw [step.eq_def, if_neg (Bool.eq_false_iff.mp ht)] at h
  cases a with
  | existsPath advanced path =>
      obtain rfl := Option.some.inj hp
      exact (Option.some.inj h).symm
  | getPathValue advanced path =>
      obtain rfl := Option.some.inj hp
      exact (Option.some.inj h).symm
  | getSubPath advanced path =>
      obtain rfl := Option.some.inj hp
      exact (Option.some.inj h).symm
  | _ => simp [Action.begins] at hp

lemma advance_cases {id : ℕ} (h : s.step (.advance id) = some s') : s.advance id = some s' := by
  have ht := step_eq h
  rw [step.eq_def, if_neg (Bool.eq_false_iff.mp ht)] at h
  exact h

lemma wake_cases (h : s.step .wake = some s') : s.iteration = none ∧ s' = { s with
    taskQueue := []
    iteration := some { tasks := s.taskQueue, copies := s.monitors, todo := [] } } := by
  have ht := step_eq h
  rw [step.eq_def, if_neg (Bool.eq_false_iff.mp ht)] at h
  simp only [wake] at h
  split at h
  · rename_i hit
    exact ⟨hit, (Option.some.inj h).symm⟩
  · simp at h

lemma task_cases (h : s.step .task = some s') : ∃ task tasks copies,
    s.iteration = some { tasks := task :: tasks, copies := copies, todo := [] } ∧
      s' = { s with
        iteration := some { tasks := tasks, copies := copies, todo := task.body } } := by
  have ht := step_eq h
  rw [step.eq_def, if_neg (Bool.eq_false_iff.mp ht)] at h
  simp only [task] at h
  split at h
  · rename_i task tasks copies hit
    exact ⟨task, tasks, copies, hit, (Option.some.inj h).symm⟩
  · simp at h

lemma proceed_cases (h : s.step .proceed = some s') : ∃ tasks copies step todo,
    s.iteration = some { tasks := tasks, copies := copies, todo := step :: todo } ∧
      s' = s.runStep { tasks := tasks, copies := copies, todo := todo } step := by
  have ht := step_eq h
  rw [step.eq_def, if_neg (Bool.eq_false_iff.mp ht)] at h
  simp only [proceed] at h
  split at h
  · rename_i tasks copies step todo hit
    exact ⟨tasks, copies, step, todo, hit, (Option.some.inj h).symm⟩
  · simp at h

lemma check_cases {k : Kind} {path : Path} (h : s.step (.check k path) = some s') :
    ∃ it last, s.iteration = some it ∧ it.Done k.before ∧
      (it.copies k).last.lookup path = some last ∧
      s' = { s with iteration := some { it with
        copies := Function.update it.copies k
          { it.copies k with last := (it.copies k).last.erase path }
        todo := onCheck k path last (look s.fs k path)
          ((it.copies k).entry.lookup path) } } := by
  have ht := step_eq h
  rw [step.eq_def, if_neg (Bool.eq_false_iff.mp ht)] at h
  simp only [check] at h
  split at h
  · simp at h
  · rename_i it hit
    split_ifs at h with hdone
    obtain ⟨last, hlast, rfl⟩ := Option.map_eq_some_iff.mp h
    exact ⟨it, last, hit, hdone, hlast, rfl⟩

lemma finish_cases (h : s.step .finish = some s') : ∃ it, s.iteration = some it ∧
    it.Done [.exist, .get, .sub] ∧ s' = { s with iteration := none } := by
  have ht := step_eq h
  rw [step.eq_def, if_neg (Bool.eq_false_iff.mp ht)] at h
  simp only [finish] at h
  split at h
  · simp at h
  · rename_i it hit
    split_ifs at h with hdone
    exact ⟨it, hit, hdone, (Option.some.inj h).symm⟩

end State

end LocalFile

end ConfigMonitor
