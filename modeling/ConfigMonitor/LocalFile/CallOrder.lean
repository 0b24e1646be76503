/-
# The order of the calls of `loc_file`

A write is queued and executed by the task thread; a read without a watch looks at the file system
in the thread of the caller, and only its report is queued.  One thread calls, nobody else changes
the file system, and the task thread gets on at any time between the steps of the caller.  A whole
read of a file (`fopen`, `file_size`, `fread`) is one step of the caller, and a task is one step of
the task thread, with the whole of its write (`fopen`, `fwrite`).
-/
import ConfigMonitor.Lib.Program
import ConfigMonitor.Lib.Run
import ConfigMonitor.LocalFile.CreateFile

namespace ConfigMonitor

namespace LocalFile

namespace CallOrder

open Run

/-- `file_create_mode`. -/
inductive FileCreateMode
  | persistent
  | ephemeral
  | persistentSequential
  | ephemeralSequential
  | persistentWithTtl
  | persistentSequentialWithTtl
deriving DecidableEq, Repr

/-- `enable_ttl` of `create_path`. -/
def FileCreateMode.isTtl : FileCreateMode → Bool
  | .persistentWithTtl | .persistentSequentialWithTtl => true
  | _ => false

/-- The calls. -/
inductive Op
  | createPath (path : Path) (value : Str) (mode : FileCreateMode) (ttl : ℤ)
  | deletePath (path : Path)
  | setPathValue (path : Path) (value : Str)
  | existsPath (path : Path)
  | getPathValue (path : Path)
  | getSubPath (path : Path)
deriving DecidableEq, Repr

/-- The lambdas in `task_queue_`. -/
inductive Task
  | createPath (path : Path) (value : Str)
  | deletePath (path : Path)
  | setPathValue (path : Path) (value : Str)
  | report (result : Result)
deriving DecidableEq, Repr

/-- What the caller has still to do of its call. -/
inductive Progress
  | existsPath (path : Path)
  | getPathValue (path : Path)
  | getSubPath (path : Path)
  | getPathChildren (path : Path)
  | addTask (task : Task)
deriving DecidableEq, Repr

/-- A call is begun, or it throws at once. -/
def Op.begin : Op → Option Progress
  | .createPath path value mode ttl =>
      if mode.isTtl ∧ ttl < 0 then none else some (.addTask (.createPath path value))
  | .deletePath path => some (.addTask (.deletePath path))
  | .setPathValue path value => some (.addTask (.setPathValue path value))
  | .existsPath path => some (.existsPath path)
  | .getPathValue path => some (.getPathValue path)
  | .getSubPath path => some (.getSubPath path)

section Ops

variable {σ : Type*} (ops : FileOps σ)

/-- A task is executed: what it leaves and what its callback is called with, or nothing if an
exception escapes. -/
def Task.execute (s : σ) : Task → Option (σ × Result)
  | .createPath path value => ops.createPath s path value
  | .deletePath path => ops.deletePath s path
  | .setPathValue path value => ops.setPathValue s path value
  | .report result => some (s, result)

/-- What `exists_path` reports, or nothing if it throws. -/
def existed (s : σ) (path : Path) : Option Result :=
  (ops.pathExists s path).map fun existed =>
    .existed (if existed then .ok else .notExist) .dummy

/-- What `get_path_value` reports, or nothing if it throws. -/
def got (s : σ) (path : Path) : Option Result :=
  match ops.fopenRead s path with
  | none => some (.got .notExist none)
  | some none => none
  | some (some value) => some (.got .ok (some value))

/-- `get_path_children`. -/
def getPathChildren (s : σ) (path : Path) : List Str :=
  ((ops.directoryIterator s path).filter Prod.snd).map Prod.fst

/-- What `get_sub_path` reports, or nothing if it throws. -/
def listed (s : σ) (path : Path) : Option Result :=
  (ops.pathExists s path).map fun existed =>
    if existed then .children .ok .dummy (getPathChildren ops s path)
    else .children .notExist .dummy []

/-- The next part of a call finds the same in both. -/
def Progress.SameIn (s s' : σ) : Progress → Prop
  | .existsPath path | .getSubPath path => ops.pathExists s path = ops.pathExists s' path
  | .getPathValue path => got ops s path = got ops s' path
  | .getPathChildren path => CallOrder.getPathChildren ops s path = CallOrder.getPathChildren ops s' path
  | .addTask _ => True

/-! ## One after another -/

/-- A call that is executed at once: what it leaves and what its callback is called with, if it
is.  The program ends with a write that throws; the other exceptions are the caller's. -/
def Op.execute (s : σ) : Op → Option (σ × Option Result)
  | .createPath path value mode ttl =>
      if mode.isTtl ∧ ttl < 0 then some (s, none)
      else (ops.createPath s path value).map fun r => (r.1, some r.2)
  | .deletePath path => (ops.deletePath s path).map fun r => (r.1, some r.2)
  | .setPathValue path value => (ops.setPathValue s path value).map fun r => (r.1, some r.2)
  | .existsPath path => some (s, existed ops s path)
  | .getPathValue path => some (s, got ops s path)
  | .getSubPath path => some (s, listed ops s path)

/-- A call with its number as an instruction. -/
def Op.instr (s : σ) (call : Op × ℕ) : Option (σ × List (ℕ × Result)) :=
  (call.1.execute ops s).map fun r => (r.1, r.2.toList.map fun result => (call.2, result))

/-- A task with the number of its call as an instruction. -/
def Task.instr (s : σ) (task : ℕ × Task) : Option (σ × List (ℕ × Result)) :=
  (task.2.execute ops s).map fun r => (r.1, [(task.1, r.2)])

/-- The calls, executed in their order: the results with the numbers of the calls, and the file
system that is left. -/
def inTurn (s : σ) (calls : List Op) : List (ℕ × Result) × Option σ :=
  Program.run (Op.instr ops) s calls.zipIdx

end Ops

/-! ## The system -/

/-- The state: the file system, the calls that have returned, the one that has not, the tasks, and
what callbacks have been called with, each with the number of its call. -/
structure State (σ : Type*) where
  fs : σ
  returned : List Op
  current : Option (Op × Progress)
  taskQueue : List (ℕ × Task)
  running : List (ℕ × Task)
  results : List (ℕ × Result)
  terminated : Bool

/-- The caller begins a call or does the next part of it; the task thread takes the queue or
executes a task. -/
inductive Action
  | call (op : Op)
  | advance
  | wake
  | task

namespace State

variable {σ : Type*} (ops : FileOps σ)

/-- Nobody has called. -/
def init (fs : σ) : State σ where
  fs := fs
  returned := []
  current := none
  taskQueue := []
  running := []
  results := []
  terminated := false

/-- The call goes on. -/
def goto (s : State σ) (op : Op) (progress : Progress) : State σ :=
  { s with current := some (op, progress) }

/-- The call returns. -/
def back (s : State σ) (op : Op) : State σ :=
  { s with returned := s.returned ++ [op], current := none }

/-- `add_task`, the last thing a call does. -/
def addTask (s : State σ) (op : Op) (task : Task) : State σ :=
  { s with
    returned := s.returned ++ [op]
    current := none
    taskQueue := s.taskQueue ++ [(s.returned.length, task)] }

/-- The call has a report to queue, or returns with an exception. -/
def answer (s : State σ) (op : Op) : Option Result → State σ
  | none => s.back op
  | some result => s.goto op (.addTask (.report result))

/-- The next part of a call. -/
def advance (s : State σ) (op : Op) : Progress → State σ
  | .existsPath path => s.answer op (existed ops s.fs path)
  | .getPathValue path => s.answer op (got ops s.fs path)
  | .getSubPath path =>
      match ops.pathExists s.fs path with
      | none => s.back op
      | some true => s.goto op (.getPathChildren path)
      | some false => s.goto op (.addTask (.report (.children .notExist .dummy [])))
  | .getPathChildren path =>
      s.goto op (.addTask (.report (.children .ok .dummy (getPathChildren ops s.fs path))))
  | .addTask task => s.addTask op task

/-- The task thread executes the next task. -/
def task (s : State σ) : Option (State σ) :=
  match s.running with
  | [] => none
  | (id, task) :: rest =>
      match task.execute ops s.fs with
      | none => some { s with terminated := true }
      | some r =>
          some { s with fs := r.1, running := rest, results := s.results ++ [(id, r.2)] }

/-- One step. -/
def step (s : State σ) (a : Action) : Option (State σ) :=
  if s.terminated then none
  else
    match a with
    | .call op =>
        match s.current with
        | some _ => none
        | none =>
            match op.begin with
            | none => some (s.back op)
            | some progress => some (s.goto op progress)
    | .advance => s.current.map fun c => s.advance ops c.1 c.2
    | .wake =>
        if s.running = [] then some { s with running := s.taskQueue, taskQueue := [] } else none
    | .task => s.task ops

/-- The calls so far. -/
def calls (s : State σ) : List Op := s.returned ++ (s.current.map Prod.fst).toList

/-- Nothing is left to be done. -/
def Idle (s : State σ) : Prop :=
  s.current = none ∧ s.taskQueue = [] ∧ s.running = [] ∧ s.terminated = false

/-- The callbacks have been called with the results of the calls executed one after another in
their order; with all of them, when nothing is left to be done. -/
def InOrder (fs : σ) (s : State σ) : Prop :=
  s.results <+: (inTurn ops fs s.calls).1 ∧ (s.Idle → s.results = (inTurn ops fs s.calls).1)

/-- What is left when the queued tasks have been executed, unless one of them throws. -/
def afterTasks (s : State σ) : List (ℕ × Result) × Option σ :=
  Program.run (Task.instr ops) s.fs (s.running ++ s.taskQueue)

/-- A read finds something else than it would if the queued tasks had been executed. -/
def Stale (s : State σ) : Action → Prop
  | .advance => ∃ op progress fs, s.current = some (op, progress) ∧
      (s.afterTasks ops).2 = some fs ∧ ¬ progress.SameIn ops s.fs fs
  | .call _ | .wake | .task => False

end State

variable {σ : Type*} {ops : FileOps σ} {fs₀ fs : σ} {s s' : State σ} {op : Op}
  {progress : Progress} {task : Task}

/-! ## The invariant -/

/-- What a call has still to do is part of the call; a task leaves what the call would have. -/
inductive Fits (ops : FileOps σ) : Op → Progress → Prop
  | existsPath (path : Path) : Fits ops (.existsPath path) (.existsPath path)
  | getPathValue (path : Path) : Fits ops (.getPathValue path) (.getPathValue path)
  | getSubPath (path : Path) : Fits ops (.getSubPath path) (.getSubPath path)
  | getPathChildren (path : Path) : Fits ops (.getSubPath path) (.getPathChildren path)
  | addTask {op : Op} {task : Task}
      (leaves : ∀ s, (task.execute ops s).map Prod.fst = (op.execute ops s).map Prod.fst) :
      Fits ops op (.addTask task)

/-- What the call has found so far is what it would find in `fs`. -/
def Right (ops : FileOps σ) (fs : σ) (op : Op) : Progress → Prop
  | .existsPath _ | .getPathValue _ | .getSubPath _ => True
  | .getPathChildren path => ops.pathExists fs path = some true
  | .addTask task => op.execute ops fs = (task.execute ops fs).map fun r => (r.1, some r.2)

/-- The invariant: the queued tasks leave what the calls would have left, and the numbers of the
results and of the tasks are those of calls that have returned. -/
structure Inv (ops : FileOps σ) (fs₀ : σ) (s : State σ) : Prop where
  leaves : (s.afterTasks ops).2 = (inTurn ops fs₀ s.returned).2
  results_lt : ∀ x ∈ s.results, x.1 < s.returned.length
  tasks_lt : ∀ t ∈ s.running ++ s.taskQueue, t.1 < s.returned.length
  fits : ∀ op progress, s.current = some (op, progress) → Fits ops op progress

/-- The results so far, and those of the queued tasks. -/
def total (ops : FileOps σ) (s : State σ) : List (ℕ × Result) :=
  s.results ++ (s.afterTasks ops).1

/-- All results are those of the calls one after another, and the call that has not returned has
found what it should have. -/
def Good (ops : FileOps σ) (fs₀ : σ) (s : State σ) : Prop :=
  total ops s = (inTurn ops fs₀ s.returned).1 ∧
    ∀ op progress fs, s.current = some (op, progress) → (s.afterTasks ops).2 = some fs →
      Right ops fs op progress

/-! ## Calls and tasks as programs -/

/-- The results of a call that is executed at once. -/
def callOut (ops : FileOps σ) (fs : σ) (op : Op) (id : ℕ) : List (ℕ × Result) :=
  ((op.execute ops fs).map fun r => r.2.toList.map fun result => (id, result)).getD []

/-- The results of a task. -/
def taskOut (ops : FileOps σ) (fs : σ) (task : Task) (id : ℕ) : List (ℕ × Result) :=
  ((task.execute ops fs).map fun r => [(id, r.2)]).getD []

lemma inTurn_snoc_none {calls : List Op} (h : (inTurn ops fs₀ calls).2 = none) (op : Op) :
    inTurn ops fs₀ (calls ++ [op]) = inTurn ops fs₀ calls := by
  rw [inTurn, List.zipIdx_append]
  exact Program.run_append_none h

/-- One more call, after those that have not ended the program. -/
lemma inTurn_snoc_some {calls : List Op} (h : (inTurn ops fs₀ calls).2 = some fs) (op : Op) :
    inTurn ops fs₀ (calls ++ [op]) = ((inTurn ops fs₀ calls).1 ++ callOut ops fs op calls.length,
      (op.execute ops fs).map Prod.fst) := by
  rw [inTurn, List.zipIdx_append]
  refine (Program.run_append_some h).trans ?_
  cases he : op.execute ops fs <;> simp [inTurn, callOut, Program.run, Op.instr, he]

lemma afterTasks_addTask_none (h : (s.afterTasks ops).2 = none) (op : Op) (task : Task) :
    (s.addTask op task).afterTasks ops = s.afterTasks ops := by
  rw [State.afterTasks, State.addTask]
  dsimp only
  rw [← List.append_assoc]
  exact Program.run_append_none h

lemma afterTasks_addTask_some (h : (s.afterTasks ops).2 = some fs) (op : Op) (task : Task) :
    (s.addTask op task).afterTasks ops =
      ((s.afterTasks ops).1 ++ taskOut ops fs task s.returned.length,
        (task.execute ops fs).map Prod.fst) := by
  rw [State.afterTasks, State.addTask]
  dsimp only
  rw [← List.append_assoc]
  refine (Program.run_append_some h).trans ?_
  cases he : task.execute ops fs <;>
    simp [State.afterTasks, taskOut, Program.run, Task.instr, he]

/-- The results of the call and of its task are the same if the task reports what it should. -/
lemma taskOut_eq_iff (h : (task.execute ops fs).map Prod.fst = (op.execute ops fs).map Prod.fst)
    (id : ℕ) : taskOut ops fs task id = callOut ops fs op id ↔ Right ops fs op (.addTask task) := by
  rw [taskOut, callOut, Right]
  cases ht : task.execute ops fs with
  | none =>
      rw [ht] at h
      simp [Option.map_eq_none_iff.mp h.symm]
  | some r =>
      rw [ht] at h
      obtain ⟨r', hr', heq⟩ := Option.map_eq_some_iff.mp h.symm
      rw [hr']
      obtain ⟨s', result⟩ := r'
      cases result with
      | none => simp
      | some result =>
          obtain rfl : s' = r.1 := heq
          simp [eq_comm]

/-- Lists of results of earlier calls, each followed by results of this call. -/
lemma append_eq_append_iff {n : ℕ} {A S a b : List (ℕ × Result)} (hA : ∀ x ∈ A, x.1 < n)
    (hS : ∀ x ∈ S, x.1 < n) (ha : ∀ x ∈ a, x.1 = n) (hb : ∀ x ∈ b, x.1 = n) :
    A ++ a = S ++ b ↔ A = S ∧ a = b := by
  refine ⟨fun h => ?_, fun h => by rw [h.1, h.2]⟩
  have hold : ∀ {l : List (ℕ × Result)}, (∀ x ∈ l, x.1 < n) →
      l.filter (fun x => x.1 < n) = l := by
    intro l hl
    exact List.filter_eq_self.mpr fun x hx => by simpa using hl x hx
  have hnew : ∀ {l : List (ℕ × Result)}, (∀ x ∈ l, x.1 = n) →
      l.filter (fun x => x.1 < n) = [] := by
    intro l hl
    exact List.filter_eq_nil_iff.mpr fun x hx => by simp [hl x hx]
  have hfilter := congrArg (List.filter fun x => x.1 < n) h
  rw [List.filter_append, List.filter_append, hold hA, hold hS, hnew ha, hnew hb,
    List.append_nil, List.append_nil] at hfilter
  subst hfilter
  exact ⟨rfl, List.append_cancel_left h⟩

lemma total_lt (h : Inv ops fs₀ s) : ∀ x ∈ total ops s, x.1 < s.returned.length := by
  refine List.forall_mem_append.mpr ⟨h.results_lt, Program.run_forall fun fs t ht r hr x hx => ?_⟩
  obtain ⟨r', -, rfl⟩ := Option.map_eq_some_iff.mp hr
  rw [List.mem_singleton.mp hx]
  exact h.tasks_lt t ht

lemma inTurn_lt (calls : List Op) : ∀ x ∈ (inTurn ops fs₀ calls).1, x.1 < calls.length := by
  refine Program.run_forall fun fs c hc r hr x hx => ?_
  obtain ⟨r', -, rfl⟩ := Option.map_eq_some_iff.mp hr
  obtain ⟨result, -, rfl⟩ := List.mem_map.mp hx
  have hlt := List.snd_lt_add_of_mem_zipIdx hc
  simpa using hlt

lemma callOut_id (id : ℕ) : ∀ x ∈ callOut ops fs op id, x.1 = id := by
  intro x hx
  rw [callOut] at hx
  cases he : op.execute ops fs with
  | none => simp [he] at hx
  | some r =>
      simp only [he, Option.map_some, Option.getD_some, List.mem_map] at hx
      obtain ⟨result, -, rfl⟩ := hx
      rfl

lemma taskOut_id (id : ℕ) : ∀ x ∈ taskOut ops fs task id, x.1 = id := by
  intro x hx
  rw [taskOut] at hx
  cases he : task.execute ops fs with
  | none => simp [he] at hx
  | some r =>
      simp only [he, Option.map_some, Option.getD_some, List.mem_singleton] at hx
      rw [hx]

/-! ## The steps -/

/-- A call that throws at once changes nothing. -/
lemma execute_of_begin_none (h : op.begin = none) (fs : σ) : op.execute ops fs = some (fs, none) := by
  cases op with
  | createPath path value mode ttl =>
      rw [Op.begin] at h
      split_ifs at h with hthrows
      rw [Op.execute, if_pos hthrows]
  | _ => simp [Op.begin] at h

lemma begin_right (h : op.begin = some progress) (fs : σ) : Right ops fs op progress := by
  cases op with
  | createPath path value mode ttl =>
      rw [Op.begin] at h
      split_ifs at h with hthrows
      obtain rfl := Option.some.inj h
      rw [Right, Op.execute, if_neg hthrows]
      rfl
  | _ =>
      obtain rfl := Option.some.inj h
      trivial

lemma begin_fits (h : op.begin = some progress) : Fits ops op progress := by
  have hright : ∀ fs, Right ops fs op progress := begin_right h
  cases op with
  | existsPath path =>
      obtain rfl := Option.some.inj h
      exact .existsPath path
  | getPathValue path =>
      obtain rfl := Option.some.inj h
      exact .getPathValue path
  | getSubPath path =>
      obtain rfl := Option.some.inj h
      exact .getSubPath path
  | createPath path value mode ttl =>
      rw [Op.begin] at h
      split_ifs at h with hthrows
      obtain rfl := Option.some.inj h
      refine .addTask fun s => ?_
      rw [hright s, Option.map_map]
      rfl
  | deletePath path =>
      obtain rfl := Option.some.inj h
      refine .addTask fun s => ?_
      rw [hright s, Option.map_map]
      rfl
  | setPathValue path value =>
      obtain rfl := Option.some.inj h
      refine .addTask fun s => ?_
      rw [hright s, Option.map_map]
      rfl

/-- What a step does. -/
lemma step_cases {a : Action} (hs : s.step ops a = some s') :
    (∃ op, a = .call op ∧ s.current = none ∧ op.begin = none ∧ s' = s.back op) ∨
    (∃ op progress, a = .call op ∧ s.current = none ∧ op.begin = some progress ∧
      s' = s.goto op progress) ∨
    (∃ op progress, a = .advance ∧ s.current = some (op, progress) ∧
      s' = s.advance ops op progress) ∨
    (a = .wake ∧ s.running = [] ∧ s' = { s with running := s.taskQueue, taskQueue := [] }) ∨
    (a = .task ∧ s' = { s with terminated := true }) ∨
    (∃ id task rest r, a = .task ∧ s.running = (id, task) :: rest ∧
      task.execute ops s.fs = some r ∧
      s' = { s with fs := r.1, running := rest, results := s.results ++ [(id, r.2)] }) := by
  rw [State.step.eq_def] at hs
  by_cases hterm : s.terminated = true
  · simp [hterm] at hs
  rw [if_neg hterm] at hs
  cases a with
  | call op =>
      cases hcur : s.current with
      | some c => simp [hcur] at hs
      | none =>
          cases hbegin : op.begin with
          | none =>
              simp only [hcur, hbegin, Option.some.injEq] at hs
              exact Or.inl ⟨op, rfl, rfl, hbegin, hs.symm⟩
          | some progress =>
              simp only [hcur, hbegin, Option.some.injEq] at hs
              exact Or.inr (Or.inl ⟨op, progress, rfl, rfl, hbegin, hs.symm⟩)
  | advance =>
      obtain ⟨⟨op, progress⟩, hcur, rfl⟩ := Option.map_eq_some_iff.mp hs
      exact Or.inr (Or.inr (Or.inl ⟨op, progress, rfl, hcur, rfl⟩))
  | wake =>
      dsimp only at hs
      split_ifs at hs with hrunning
      exact Or.inr (Or.inr (Or.inr (Or.inl ⟨rfl, hrunning, (Option.some.inj hs).symm⟩)))
  | task =>
      dsimp only at hs
      rw [State.task] at hs
      cases hrunning : s.running with
      | nil => simp [hrunning] at hs
      | cons t rest =>
          obtain ⟨id, task⟩ := t
          cases he : task.execute ops s.fs with
          | none =>
              simp only [hrunning, he, Option.some.injEq] at hs
              exact Or.inr (Or.inr (Or.inr (Or.inr (Or.inl ⟨rfl, hs.symm⟩))))
          | some r =>
              simp only [hrunning, he, Option.some.injEq] at hs
              exact Or.inr (Or.inr (Or.inr (Or.inr (Or.inr ⟨id, task, rest, r, rfl, rfl, he,
                hs.symm⟩))))

/-! ## The invariant is kept -/

lemma inv_init : Inv ops fs₀ (.init fs₀) where
  leaves := rfl
  results_lt := by simp [State.init]
  tasks_lt := by simp [State.init]
  fits := by simp [State.init]

lemma Inv.goto (h : Inv ops fs₀ s) (hfits : Fits ops op progress) :
    Inv ops fs₀ (s.goto op progress) where
  leaves := h.leaves
  results_lt := h.results_lt
  tasks_lt := h.tasks_lt
  fits := by
    rintro op' progress' heq
    obtain ⟨rfl, rfl⟩ := Prod.mk.inj (Option.some.inj heq)
    exact hfits

/-- A call returns that leaves everything as it is. -/
lemma Inv.back (h : Inv ops fs₀ s) (hop : ∀ fs, (op.execute ops fs).map Prod.fst = some fs) :
    Inv ops fs₀ (s.back op) where
  leaves := by
    have hleaves : ((s.back op).afterTasks ops).2 = (inTurn ops fs₀ s.returned).2 := h.leaves
    rw [hleaves, State.back]
    cases hafter : (inTurn ops fs₀ s.returned).2 with
    | none => rw [inTurn_snoc_none hafter, hafter]
    | some fs => rw [inTurn_snoc_some hafter, hop]
  results_lt x hx := by simpa [State.back] using Nat.lt_succ_of_lt (h.results_lt x hx)
  tasks_lt t ht := by simpa [State.back] using Nat.lt_succ_of_lt (h.tasks_lt t ht)
  fits := by simp [State.back]

/-- A call returns with its task queued. -/
lemma Inv.addTask (h : Inv ops fs₀ s)
    (hleaves : ∀ fs, (task.execute ops fs).map Prod.fst = (op.execute ops fs).map Prod.fst) :
    Inv ops fs₀ (s.addTask op task) where
  leaves := by
    have hreturned : (s.addTask op task).returned = s.returned ++ [op] := rfl
    rw [hreturned]
    cases hafter : (s.afterTasks ops).2 with
    | none =>
        have hturn := h.leaves.symm.trans hafter
        rw [afterTasks_addTask_none hafter, inTurn_snoc_none hturn, h.leaves]
    | some fs =>
        have hturn := h.leaves.symm.trans hafter
        rw [afterTasks_addTask_some hafter, inTurn_snoc_some hturn, hleaves]
  results_lt x hx := by simpa [State.addTask] using Nat.lt_succ_of_lt (h.results_lt x hx)
  tasks_lt t ht := by
    rw [State.addTask] at ht ⊢
    dsimp only at ht ⊢
    rw [← List.append_assoc, List.mem_append, List.mem_singleton] at ht
    rw [List.length_append, List.length_singleton]
    rcases ht with ht | rfl
    · exact Nat.lt_succ_of_lt (h.tasks_lt t ht)
    · exact Nat.lt_succ_self _
  fits := by simp [State.addTask]

/-- A report leaves everything as it is, as the read does that it belongs to. -/
lemma fits_report {result : Result} (hop : ∀ fs, (op.execute ops fs).map Prod.fst = some fs) :
    Fits ops op (.addTask (.report result)) :=
  .addTask fun fs => by rw [hop]; rfl

lemma Inv.answer (h : Inv ops fs₀ s) (hop : ∀ fs, (op.execute ops fs).map Prod.fst = some fs)
    (result : Option Result) : Inv ops fs₀ (s.answer op result) := by
  cases result with
  | none => exact h.back hop
  | some result => exact h.goto (fits_report hop)

lemma Inv.advance (h : Inv ops fs₀ s) (hfits : Fits ops op progress) :
    Inv ops fs₀ (s.advance ops op progress) := by
  cases hfits with
  | existsPath path => exact h.answer (fun fs => rfl) _
  | getPathValue path => exact h.answer (fun fs => rfl) _
  | getSubPath path =>
      rw [State.advance]
      split
      · exact h.back fun fs => rfl
      · exact h.goto (.getPathChildren path)
      · exact h.goto (fits_report fun fs => rfl)
  | getPathChildren path => exact h.goto (fits_report fun fs => rfl)
  | addTask hleaves => exact h.addTask hleaves

/-- The queue is taken as it is. -/
lemma afterTasks_wake (hrunning : s.running = []) :
    State.afterTasks ops { s with running := s.taskQueue, taskQueue := [] } =
      s.afterTasks ops := by
  simp [State.afterTasks, hrunning]

/-- The executed task is the first of those that are left. -/
lemma afterTasks_task {id : ℕ} {rest : List (ℕ × Task)} {r : σ × Result}
    (hrunning : s.running = (id, task) :: rest) (he : task.execute ops s.fs = some r) :
    s.afterTasks ops = ((id, r.2) :: (State.afterTasks ops
      { s with fs := r.1, running := rest, results := s.results ++ [(id, r.2)] }).1,
      (State.afterTasks ops
        { s with fs := r.1, running := rest, results := s.results ++ [(id, r.2)] }).2) := by
  have hinstr : Task.instr ops s.fs (id, task) = some (r.1, [(id, r.2)]) := by
    rw [Task.instr, he]
    rfl
  rw [State.afterTasks, hrunning, List.cons_append, Program.run_cons_some hinstr]
  rfl

lemma Inv.step {a : Action} (h : Inv ops fs₀ s) (hs : s.step ops a = some s') :
    Inv ops fs₀ s' := by
  obtain ⟨op, -, -, hbegin, rfl⟩ | ⟨op, progress, -, -, hbegin, rfl⟩ |
    ⟨op, progress, -, hcur, rfl⟩ | ⟨-, hrunning, rfl⟩ | ⟨-, rfl⟩ |
    ⟨id, task, rest, r, -, hrunning, he, rfl⟩ := step_cases hs
  · exact h.back fun fs => by rw [execute_of_begin_none hbegin]; rfl
  · exact h.goto (begin_fits hbegin)
  · exact h.advance (h.fits op progress hcur)
  · refine ⟨?_, h.results_lt, fun t ht => h.tasks_lt t (by simpa [hrunning] using ht), h.fits⟩
    rw [afterTasks_wake hrunning, h.leaves]
  · exact ⟨h.leaves, h.results_lt, h.tasks_lt, h.fits⟩
  · have htasks := h.tasks_lt
    rw [hrunning, List.cons_append, List.forall_mem_cons] at htasks
    refine ⟨?_, ?_, htasks.2, h.fits⟩
    · rw [← h.leaves, afterTasks_task hrunning he]
    · exact List.forall_mem_append.mpr ⟨h.results_lt, by simpa using htasks.1⟩

/-! ## What a step makes of the results -/

/-- The call that has not returned has found what it should have. -/
lemma good_iff (hcur : s.current = some (op, progress)) :
    Good ops fs₀ s ↔ total ops s = (inTurn ops fs₀ s.returned).1 ∧
      ∀ fs, (s.afterTasks ops).2 = some fs → Right ops fs op progress := by
  refine and_congr_right fun _ => ⟨fun h fs => h op progress fs hcur, ?_⟩
  rintro h op' progress' fs hcur'
  obtain ⟨rfl, rfl⟩ := Prod.mk.inj (Option.some.inj (hcur.symm.trans hcur'))
  exact h fs

lemma good_iff_of_none (hcur : s.current = none) :
    Good ops fs₀ s ↔ total ops s = (inTurn ops fs₀ s.returned).1 := by
  refine and_iff_left ?_
  rintro op progress fs hcur'
  simp [hcur] at hcur'

lemma good_goto : Good ops fs₀ (s.goto op progress) ↔
    total ops s = (inTurn ops fs₀ s.returned).1 ∧
      ∀ fs, (s.afterTasks ops).2 = some fs → Right ops fs op progress :=
  good_iff rfl

/-- A call that returns without a task must have no result. -/
lemma good_back (h : Inv ops fs₀ s) : Good ops fs₀ (s.back op) ↔
    total ops s = (inTurn ops fs₀ s.returned).1 ∧
      ∀ fs, (s.afterTasks ops).2 = some fs → callOut ops fs op s.returned.length = [] := by
  have hreturned : (s.back op).returned = s.returned ++ [op] := rfl
  have htotal : total ops (s.back op) = total ops s := rfl
  rw [good_iff_of_none rfl, htotal, hreturned]
  cases hafter : (s.afterTasks ops).2 with
  | none =>
      rw [inTurn_snoc_none (h.leaves.symm.trans hafter)]
      exact (and_iff_left (by simp)).symm
  | some fs =>
      rw [inTurn_snoc_some (h.leaves.symm.trans hafter)]
      have hnil : ∀ x ∈ ([] : List (ℕ × Result)), x.1 = s.returned.length := by simp
      nth_rewrite 1 [← List.append_nil (total ops s)]
      refine (append_eq_append_iff (total_lt h) (inTurn_lt s.returned) hnil
        (callOut_id _)).trans (and_congr_right fun _ => ⟨?_, fun hout => (hout fs rfl).symm⟩)
      rintro hout fs' heq
      rw [← Option.some.inj heq, ← hout]

/-- A call that returns with a task must have the result of the task. -/
lemma good_addTask (h : Inv ops fs₀ s)
    (hleaves : ∀ fs, (task.execute ops fs).map Prod.fst = (op.execute ops fs).map Prod.fst) :
    Good ops fs₀ (s.addTask op task) ↔ total ops s = (inTurn ops fs₀ s.returned).1 ∧
      ∀ fs, (s.afterTasks ops).2 = some fs → Right ops fs op (.addTask task) := by
  have hreturned : (s.addTask op task).returned = s.returned ++ [op] := rfl
  have hresults : (s.addTask op task).results = s.results := rfl
  rw [good_iff_of_none rfl, total, hreturned, hresults]
  cases hafter : (s.afterTasks ops).2 with
  | none =>
      rw [inTurn_snoc_none (h.leaves.symm.trans hafter), afterTasks_addTask_none hafter]
      exact (and_iff_left (by simp)).symm
  | some fs =>
      rw [inTurn_snoc_some (h.leaves.symm.trans hafter), afterTasks_addTask_some hafter]
      dsimp only
      rw [← List.append_assoc]
      refine (append_eq_append_iff (total_lt h) (inTurn_lt s.returned) (taskOut_id _)
        (callOut_id _)).trans (and_congr_right fun _ => ?_)
      rw [taskOut_eq_iff (hleaves fs)]
      simp

/-- A step is good if the state before it was and the read has found what it should. -/
lemma forall_and_iff {T : Prop} {A R R' M : σ → Prop} (h : ∀ fs, R' fs ↔ R fs ∧ M fs) :
    (T ∧ ∀ fs, A fs → R' fs) ↔ (T ∧ ∀ fs, A fs → R fs) ∧ ∀ fs, A fs → M fs := by
  simp only [h, imp_and, forall_and, and_assoc]

/-- A read with a result is right if it finds the same in the file system it should have read. -/
lemma good_answer (h : Inv ops fs₀ s) (find : σ → Option Result)
    (hop : ∀ fs, op.execute ops fs = some (fs, find fs)) :
    Good ops fs₀ (s.answer op (find s.fs)) ↔ total ops s = (inTurn ops fs₀ s.returned).1 ∧
      ∀ fs, (s.afterTasks ops).2 = some fs → find s.fs = find fs := by
  cases hfind : find s.fs with
  | none =>
      refine (good_back h).trans (and_congr_right fun _ => forall₂_congr fun fs _ => ?_)
      rw [callOut, hop]
      cases find fs <;> simp
  | some result =>
      refine good_goto.trans (and_congr_right fun _ => forall₂_congr fun fs _ => ?_)
      rw [Right, hop]
      simp [Task.execute, eq_comm]

lemma existed_eq_iff {path : Path} {s : σ} : existed ops s path = existed ops fs path ↔
    ops.pathExists s path = ops.pathExists fs path := by
  rw [existed, existed]
  rcases ops.pathExists fs path with - | - | - <;> rcases ops.pathExists s path with - | - | - <;>
    simp

/-- The next part of a call makes the state good if it finds what it should. -/
lemma good_advance (h : Inv ops fs₀ s) (hcur : s.current = some (op, progress)) :
    Good ops fs₀ (s.advance ops op progress) ↔ Good ops fs₀ s ∧
      ∀ fs, (s.afterTasks ops).2 = some fs → progress.SameIn ops s.fs fs := by
  rw [good_iff hcur]
  -- a part of the call is right if and only if the tasks before it do not change what it reads
  cases h.fits op progress hcur with
  | existsPath path =>
      refine (good_answer h (fun fs => existed ops fs path) fun fs => rfl).trans (forall_and_iff fun fs => ?_)
      exact existed_eq_iff.trans (and_iff_right trivial).symm
  | getPathValue path =>
      refine (good_answer h (fun fs => got ops fs path) fun fs => rfl).trans (forall_and_iff fun fs => ?_)
      exact (and_iff_right trivial).symm
  | getSubPath path =>
      rw [State.advance]
      cases hex : ops.pathExists s.fs path with
      | none =>
          refine (good_back h).trans (forall_and_iff fun fs => ?_)
          rw [Right, true_and, Progress.SameIn, hex, callOut, Op.execute, listed]
          cases ops.pathExists fs path <;> simp
      | some found =>
          cases found with
          | true =>
              refine good_goto.trans (forall_and_iff fun fs => ?_)
              rw [Right, Right, true_and, Progress.SameIn, hex]
              exact eq_comm
          | false =>
              refine good_goto.trans (forall_and_iff fun fs => ?_)
              rw [Right, true_and, Progress.SameIn, hex, Right, Op.execute, listed]
              rcases ops.pathExists fs path with - | - | - <;> simp [Task.execute]
  | getPathChildren path =>
      refine good_goto.trans (forall_and_iff fun fs => ?_)
      rw [Right, Right, Progress.SameIn, Op.execute, listed]
      rcases ops.pathExists fs path with - | - | -
      · simp [Task.execute]
      · simp [Task.execute]
      · simp [Task.execute, eq_comm]
  | addTask hleaves =>
      refine (good_addTask h hleaves).trans (forall_and_iff fun fs => ?_)
      exact (and_iff_left trivial).symm

/-- Only a stale read spoils the results, and it does. -/
lemma good_step {a : Action} (h : Inv ops fs₀ s) (hs : s.step ops a = some s') :
    Good ops fs₀ s' ↔ Good ops fs₀ s ∧ ¬ s.Stale ops a := by
  obtain ⟨op, rfl, hcur, hbegin, rfl⟩ | ⟨op, progress, rfl, hcur, hbegin, rfl⟩ |
    ⟨op, progress, rfl, hcur, rfl⟩ | ⟨rfl, hrunning, rfl⟩ | ⟨rfl, rfl⟩ |
    ⟨id, task, rest, r, rfl, hrunning, he, rfl⟩ := step_cases hs
  · rw [good_back h, good_iff_of_none hcur]
    refine and_congr_right fun _ => iff_of_true (fun fs _ => ?_) id
    rw [callOut, execute_of_begin_none hbegin]
    rfl
  · rw [good_goto, good_iff_of_none hcur]
    exact and_congr_right fun _ => iff_of_true (fun fs _ => begin_right hbegin fs) id
  · rw [good_advance h hcur]
    refine and_congr_right fun _ => ⟨?_, fun hfresh fs hafter => ?_⟩
    · rintro hsame ⟨op', progress', fs, hcur', hafter, hne⟩
      obtain ⟨rfl, rfl⟩ := Prod.mk.inj (Option.some.inj (hcur.symm.trans hcur'))
      exact hne (hsame fs hafter)
    · by_contra hne
      exact hfresh ⟨op, progress, fs, hcur, hafter, hne⟩
  · refine Iff.trans ?_ (and_iff_left id).symm
    rw [Good, Good, total, total, afterTasks_wake hrunning]
  · exact (and_iff_left id).symm
  · refine Iff.trans ?_ (and_iff_left fun hstale => hstale).symm
    rw [Good, Good, total, total, afterTasks_task hrunning he]
    simp

/-- The results of a run are good exactly when no read was stale. -/
lemma good_runs {acts : List Action} (h : Runs (State.step ops) (.init fs₀) acts s) :
    Inv ops fs₀ s ∧
      (Good ops fs₀ s ↔ ¬ Occurs (State.step ops) (.init fs₀) (State.Stale ops) acts) := by
  induction h with
  | nil =>
      refine ⟨inv_init, iff_of_true ?_ not_occurs_nil⟩
      exact (good_iff_of_none rfl).mpr rfl
  | snoc hrun hs ih =>
      refine ⟨ih.1.step hs, ?_⟩
      rw [good_step ih.1 hs, ih.2, hrun.occurs_snoc, not_or]

/-- The results are a part of those of the calls that have returned. -/
lemma inOrder_of_good (hgood : Good ops fs₀ s) : s.InOrder ops fs₀ := by
  constructor
  · refine List.IsPrefix.trans ?_ (?_ : (inTurn ops fs₀ s.returned).1 <+: _)
    · rw [← hgood.1]
      exact List.prefix_append _ _
    · rw [State.calls, inTurn, inTurn, List.zipIdx_append]
      exact Program.run_prefix_append
  · rintro ⟨hcur, hqueue, hrunning, -⟩
    have htotal := hgood.1
    rw [total, State.afterTasks, hqueue, hrunning] at htotal
    simpa [State.calls, hcur] using htotal

lemma good_of_inOrder (hidle : s.Idle) (h : s.InOrder ops fs₀) : Good ops fs₀ s := by
  obtain ⟨hcur, hqueue, hrunning, -⟩ := id hidle
  have hresults := h.2 hidle
  rw [State.calls, hcur] at hresults
  rw [good_iff_of_none hcur, total, State.afterTasks, hqueue, hrunning]
  simpa using hresults

/-- Reports leave everything as it is. -/
lemma run_reports {tasks : List (ℕ × Task)} (h : ∀ t ∈ tasks, ∃ result, t.2 = .report result) :
    (Program.run (Task.instr ops) fs tasks).2 = some fs := by
  induction tasks with
  | nil => rfl
  | cons t tasks ih =>
      rw [List.forall_mem_cons] at h
      obtain ⟨result, hresult⟩ := h.1
      have hinstr : Task.instr ops fs t = some (fs, [(t.1, result)]) := by
        rw [Task.instr, hresult]
        rfl
      rw [Program.run_cons_some hinstr]
      exact ih h.2

/-- A read is not stale when no write is queued. -/
lemma not_stale_of_reports (h : ∀ t ∈ s.running ++ s.taskQueue, ∃ result, t.2 = .report result)
    (a : Action) : ¬ s.Stale ops a := by
  intro hstale
  cases a with
  | advance =>
      obtain ⟨op, progress, fs, -, hafter, hne⟩ := hstale
      obtain rfl := Option.some.inj ((run_reports h).symm.trans hafter)
      refine hne ?_
      cases progress with
      | addTask task => trivial
      | _ => rfl
  | _ => exact hstale

/-! ## The order -/

/-- Whatever the file system does, the results are those of the calls in their order, unless a
read has found something else than it would have after the queued tasks; and then they are not,
once everything has been done. -/
theorem inOrder_iff (ops : FileOps σ) (fs₀ : σ) (acts : List Action) (s : State σ)
    (h : Runs (State.step ops) (.init fs₀) acts s) :
    (¬ Occurs (State.step ops) (.init fs₀) (State.Stale ops) acts → s.InOrder ops fs₀) ∧
      (s.Idle → (s.InOrder ops fs₀ ↔
        ¬ Occurs (State.step ops) (.init fs₀) (State.Stale ops) acts)) := by
  obtain ⟨-, hgood⟩ := good_runs h
  refine ⟨fun hno => inOrder_of_good (hgood.mpr hno), fun hidle => ?_⟩
  exact ⟨fun horder => hgood.mp (good_of_inOrder hidle horder),
    fun hno => inOrder_of_good (hgood.mpr hno)⟩

/-- The path is created, and found by a read that comes after the task thread. -/
theorem inOrder_iff_created :
    ∃ acts s, Runs (State.step (Files.ops .posix)) (.init .empty) acts s ∧
      s.results = [(0, .created .ok ['/', 'x']), (1, .existed .ok .dummy)] ∧
      (¬ Occurs (State.step (Files.ops .posix)) (.init .empty)
          (State.Stale (Files.ops .posix)) acts → s.InOrder (Files.ops .posix) .empty) ∧
      (s.Idle → (s.InOrder (Files.ops .posix) .empty ↔
        ¬ Occurs (State.step (Files.ops .posix)) (.init .empty)
          (State.Stale (Files.ops .posix)) acts)) := by
  have hexec : (exec (State.step (Files.ops .posix)) (fun _ _ => True) (.init .empty)
      [.call (.createPath ['/', 'x'] [] .persistent 0), .advance, .wake, .task,
        .call (.existsPath ['/', 'x']), .advance, .advance, .wake, .task]).map State.results =
      some [(0, .created .ok ['/', 'x']), (1, .existed .ok .dummy)] := by decide
  obtain ⟨s, hs, hresults⟩ := Option.map_eq_some_iff.mp hexec
  exact ⟨_, s, runs_of_exec hs, hresults,
    inOrder_iff (Files.ops .posix) .empty _ s (runs_of_exec hs)⟩

/-- The results are always those of the calls in their order. -/
def AlwaysInOrder : Prop :=
  ∀ lim fs₀ acts s, Runs (State.step (Files.ops lim)) (.init fs₀) acts s →
    s.InOrder (Files.ops lim) fs₀

/-- The path is not found by a read that comes before the task thread. -/
theorem not_alwaysInOrder : ¬ AlwaysInOrder := by
  intro h
  have hexec : (exec (State.step (Files.ops .posix)) (fun _ _ => True) (.init .empty)
      [.call (.createPath ['/', 'x'] [] .persistent 0), .advance,
        .call (.existsPath ['/', 'x']), .advance, .advance, .wake, .task, .task]).map
        (fun s => (s.results, s.calls)) =
      some ([(0, .created .ok ['/', 'x']), (1, .existed .notExist .dummy)],
        [.createPath ['/', 'x'] [] .persistent 0, .existsPath ['/', 'x']]) := by decide
  obtain ⟨s, hs, heq⟩ := Option.map_eq_some_iff.mp hexec
  obtain ⟨hresults, hcalls⟩ := Prod.mk.inj heq
  have hprefix := (h .posix .empty _ s (runs_of_exec hs)).1
  rw [hresults, hcalls] at hprefix
  revert hprefix
  decide

end CallOrder

end LocalFile

end ConfigMonitor
