/-
# The end of a `loc_file`

The destructor takes `run_` away and joins the task thread, which looks at `run_` between two
iterations and when it waits.  A thread that is waiting then takes the tasks once more; a thread
that is in an iteration, or has just left one, takes none, and what has been queued since it took
the tasks last is never told.  The tasks are those of `exists_path`, `get_path_value`,
`get_sub_path` and `remove_watches`.
-/
import ConfigMonitor.Lib.Settle
import ConfigMonitor.LocalFile.Reports
import Mathlib.Algebra.GroupWithZero.Nat
import Mathlib.Algebra.Order.BigOperators.Group.List
import Mathlib.Algebra.Order.Group.Nat

namespace ConfigMonitor

namespace LocalFile

open Run

/-- The calls a task makes, the one of a removal included. -/
def Task.made (task : Task) : List Call := task.body.flatMap Step.calls

/-- The calls that the iteration has still to make. -/
def State.due (s : State) : List Call :=
  match s.iteration with
  | some it => it.todo.flatMap Step.calls ++ it.tasks.flatMap Task.made
  | none => []

/-- The actions of the threads of the user. -/
def Action.OfUser : Action → Prop
  | .existsPath .. | .getPathValue .. | .getSubPath .. | .removeWatches .. | .advance _ => True
  | _ => False

/-- The actions of the task thread. -/
def Action.OfThread : Action → Prop
  | .wake | .task | .proceed | .check .. | .finish => True
  | _ => False

/-- The sections that a section leads to, with itself, as long as no file changes. -/
def Step.cost (fs : FileSystem) : Step → ℕ
  | .removeChildren path => 1 + (LocalFile.getPathChildren fs path).length
  | .getFileValue .. => 3
  | _ => 1

def Task.cost (fs : FileSystem) (task : Task) : ℕ := 1 + (task.body.map (Step.cost fs)).sum

/-- The entries of three pairs of maps. -/
def entries (maps : (k : Kind) → Monitors k) : ℕ :=
  (maps .exist).last.keys.length + (maps .get).last.keys.length + (maps .sub).last.keys.length

def Iteration.cost (fs : FileSystem) (it : Iteration) : ℕ :=
  (it.todo.map (Step.cost fs)).sum + (it.tasks.map (Task.cost fs)).sum + 4 * entries it.copies

namespace Shutdown

/-- Where the task thread is: at the test of `run_`, in `wait_for`, between that and the next
test, or at its end. -/
inductive Loop
  | test
  | waiting
  | iterating
  | ended
deriving DecidableEq, Repr

/-- The monitor with `run_`. -/
structure State where
  monitor : LocalFile.State
  run : Bool
  loop : Loop

/-- The actions: the test of `run_`, the destructor, and the others. -/
inductive Action
  | test
  | destruct
  | monitor (a : LocalFile.Action)

/-- Just initialized. -/
def init (fs : FileSystem) : State := { monitor := .init fs, run := true, loop := .test }

/-- One step.  The wait ends when there is a task, when `run_` is gone or when the time is up. -/
def step (s : State) : Action → Option State
  | .test =>
      if s.loop = .test ∧ s.monitor.terminated = false then
        some { s with loop := if s.run then .waiting else .ended }
      else none
  | .destruct =>
      if s.run ∧ s.monitor.terminated = false then some { s with run := false } else none
  | .monitor .wake =>
      if s.loop = .waiting then
        (s.monitor.step .wake).map fun m => { s with monitor := m, loop := .iterating }
      else none
  | .monitor .finish =>
      (s.monitor.step .finish).map fun m => { s with monitor := m, loop := .test }
  | .monitor a => (s.monitor.step a).map fun m => { s with monitor := m }

/-- The calls made, those that have been begun, and those of the tasks that are going to be
taken when `run_` is gone. -/
def owed (s : State) : List Call :=
  s.monitor.calls ++ s.monitor.due ++
    if s.loop = .waiting then s.monitor.taskQueue.flatMap Task.made else []

/-- The tasks that are not going to be taken when `run_` is gone. -/
def left (s : State) : List Task := if s.loop = .waiting then [] else s.monitor.taskQueue

/-- The invariant. -/
structure Inv (s : State) : Prop where
  base : Base s.monitor
  iterating : s.monitor.iteration.isSome ↔ s.loop = .iterating

variable {s s' w w' : State} {m m' : LocalFile.State} {fs : FileSystem}

/-- What a step can do. -/
lemma step_cases {a : Action} (hs : step s a = some s') :
    (a = .test ∧ s.loop = .test ∧
      s' = { s with loop := if s.run then .waiting else .ended }) ∨
    (a = .destruct ∧ s.run = true ∧ s' = { s with run := false }) ∨
    (∃ m, a = .monitor .wake ∧ s.loop = .waiting ∧ s.monitor.step .wake = some m ∧
      s' = { s with monitor := m, loop := .iterating }) ∨
    (∃ m, a = .monitor .finish ∧ s.monitor.step .finish = some m ∧
      s' = { s with monitor := m, loop := .test }) ∨
    ∃ b m, a = .monitor b ∧ b ≠ .wake ∧ b ≠ .finish ∧ s.monitor.step b = some m ∧
      s' = { s with monitor := m } := by
  cases a with
  | test =>
      rw [step] at hs
      by_cases h : s.loop = .test ∧ s.monitor.terminated = false
      · rw [if_pos h] at hs
        exact .inl ⟨rfl, h.1, (Option.some.inj hs).symm⟩
      · rw [if_neg h] at hs
        contradiction
  | destruct =>
      rw [step] at hs
      split_ifs at hs with h
      exact .inr (.inl ⟨rfl, h.1, (Option.some.inj hs).symm⟩)
  | monitor b =>
      cases b with
      | wake =>
          rw [step] at hs
          split_ifs at hs with h
          obtain ⟨m, hm, rfl⟩ := Option.map_eq_some_iff.mp hs
          exact .inr (.inr (.inl ⟨m, rfl, h, hm, rfl⟩))
      | finish =>
          obtain ⟨m, hm, rfl⟩ := Option.map_eq_some_iff.mp hs
          exact .inr (.inr (.inr (.inl ⟨m, rfl, hm, rfl⟩)))
      | _ =>
          simp only [step] at hs
          obtain ⟨m, hm, rfl⟩ := Option.map_eq_some_iff.mp hs
          refine .inr (.inr (.inr (.inr ⟨_, m, rfl, ?_, ?_, hm, rfl⟩)))
          all_goals nofun

/-! ## One step -/

/-- Only `wake` and `finish` begin and end an iteration. -/
lemma isSome_iteration {b : LocalFile.Action} (hs : m.step b = some m') (hwake : b ≠ .wake)
    (hfinish : b ≠ .finish) : m'.iteration.isSome = m.iteration.isSome := by
  cases b with
  | wake => exact absurd rfl hwake
  | finish => exact absurd rfl hfinish
  | change fs =>
      obtain rfl := LocalFile.State.change_cases hs
      rfl
  | removeWatches path watchType =>
      obtain rfl := LocalFile.State.removeWatches_cases hs
      rfl
  | advance id =>
      have hadv := LocalFile.State.advance_cases hs
      rw [LocalFile.State.advance] at hadv
      split at hadv
      · simp at hadv
      all_goals
        obtain rfl := Option.some.inj hadv
        rfl
  | task =>
      obtain ⟨task, tasks, copies, hit, rfl⟩ := LocalFile.State.task_cases hs
      rw [hit]
      rfl
  | proceed =>
      obtain ⟨tasks, copies, step, todo, hit, rfl⟩ := LocalFile.State.proceed_cases hs
      cases step with
      | call call => cases call <;> simp [LocalFile.State.runStep, hit]
      | getFileValue path cb t =>
          simp only [LocalFile.State.runStep]
          split <;> simp [hit]
      | _ => simp [LocalFile.State.runStep, hit]
  | check k path =>
      obtain ⟨it, last, hit, -, -, rfl⟩ := LocalFile.State.check_cases hs
      rw [hit]
      rfl
  | _ =>
      obtain rfl := LocalFile.State.enter_cases rfl hs
      rfl

lemma Inv.step (hi : Inv s) {a : Action} (hs : step s a = some s') : Inv s' := by
  obtain ⟨-, hloop, rfl⟩ | ⟨-, -, rfl⟩ | ⟨m, -, -, hm, rfl⟩ | ⟨m, -, hm, rfl⟩ |
    ⟨b, m, -, hwake, hfinish, hm, rfl⟩ := step_cases hs
  · refine ⟨hi.base, ?_⟩
    rw [hi.iterating, hloop]
    cases s.run <;> simp
  · exact ⟨hi.base, hi.iterating⟩
  · refine ⟨hi.base.step hm, ?_⟩
    obtain ⟨-, rfl⟩ := LocalFile.State.wake_cases hm
    simp
  · refine ⟨hi.base.step hm, ?_⟩
    obtain ⟨it, -, -, rfl⟩ := LocalFile.State.finish_cases hm
    simp
  · refine ⟨hi.base.step hm, ?_⟩
    rw [isSome_iteration hm hwake hfinish]
    exact hi.iterating

/-- In an iteration the calls made and begun only become more, and no task is queued. -/
lemma made_step (hb : Base m) {b : LocalFile.Action} (hs : m.step b = some m')
    (huser : ¬ b.OfUser) (hwake : b ≠ .wake) :
    m'.taskQueue = m.taskQueue ∧ m.calls ++ m.due <+: m'.calls ++ m'.due := by
  cases b with
  | wake => exact absurd rfl hwake
  | change fs =>
      obtain rfl := LocalFile.State.change_cases hs
      exact ⟨rfl, List.prefix_refl _⟩
  | task =>
      obtain ⟨task, tasks, copies, hit, rfl⟩ := LocalFile.State.task_cases hs
      refine ⟨rfl, ?_⟩
      simp [LocalFile.State.due, hit, Task.made]
  | proceed =>
      obtain ⟨tasks, copies, step, todo, hit, rfl⟩ := LocalFile.State.proceed_cases hs
      cases step with
      | call call =>
          cases call with
          | none => exact ⟨rfl, List.prefix_refl _⟩
          | some call =>
              refine ⟨rfl, ?_⟩
              simp [LocalFile.State.due, LocalFile.State.runStep, hit, Step.calls]
      | getFileValue path cb t =>
          -- a value is read when everything else has been dealt with
          obtain ⟨rfl, htodo, -⟩ := hb.reading _ hit path cb t List.mem_cons_self
          obtain rfl := (List.cons.inj htodo).2
          have hdue : m.due = [] := by simp [LocalFile.State.due, hit, Step.calls]
          rw [hdue, List.append_nil]
          simp only [LocalFile.State.runStep]
          split
          · exact ⟨rfl, List.prefix_append _ _⟩
          · exact ⟨rfl, List.prefix_append _ _⟩
      | removeChildren path =>
          refine ⟨rfl, ?_⟩
          have hnil : ((LocalFile.getPathChildren m.fs path).map fun child =>
              Step.remove .get (subPath path child)).flatMap Step.calls = [] := by
            simp [List.flatMap_eq_nil_iff, Step.calls]
          simp [LocalFile.State.due, LocalFile.State.runStep, hit, Step.calls, hnil]
      | remove k path =>
          refine ⟨rfl, ?_⟩
          simp [LocalFile.State.due, LocalFile.State.runStep, hit, Step.calls,
            LocalFile.State.removeMonitor, LocalFile.State.setMonitors]
      | update k path this =>
          refine ⟨rfl, ?_⟩
          simp [LocalFile.State.due, LocalFile.State.runStep, hit, Step.calls,
            LocalFile.State.update, LocalFile.State.setMonitors]
  | check k path =>
      obtain ⟨it, last, hit, ⟨htasks, htodo, -⟩, -, rfl⟩ := LocalFile.State.check_cases hs
      have hdue : m.due = [] := by simp [LocalFile.State.due, hit, htasks, htodo]
      rw [hdue, List.append_nil]
      exact ⟨rfl, List.prefix_append _ _⟩
  | finish =>
      obtain ⟨it, hit, ⟨htasks, htodo, -⟩, rfl⟩ := LocalFile.State.finish_cases hs
      refine ⟨rfl, ?_⟩
      simp [LocalFile.State.due, hit, htasks, htodo]
  | _ => exact absurd trivial huser

/-- Without an iteration the thread does nothing but take the tasks. -/
lemma quiet_step (hnone : m.iteration = none) {b : LocalFile.Action} (hs : m.step b = some m')
    (huser : ¬ b.OfUser) (hwake : b ≠ .wake) :
    ∃ fs, b = .change fs ∧ m' = { m with fs := fs } := by
  cases b with
  | wake => exact absurd rfl hwake
  | change fs => exact ⟨fs, rfl, LocalFile.State.change_cases hs⟩
  | task =>
      obtain ⟨task, tasks, copies, hit, -⟩ := LocalFile.State.task_cases hs
      exact absurd (hnone.symm.trans hit) nofun
  | proceed =>
      obtain ⟨tasks, copies, step, todo, hit, -⟩ := LocalFile.State.proceed_cases hs
      exact absurd (hnone.symm.trans hit) nofun
  | check k path =>
      obtain ⟨it, last, hit, -⟩ := LocalFile.State.check_cases hs
      exact absurd (hnone.symm.trans hit) nofun
  | finish =>
      obtain ⟨it, hit, -⟩ := LocalFile.State.finish_cases hs
      exact absurd (hnone.symm.trans hit) nofun
  | _ => exact absurd trivial huser

lemma Inv.iteration_eq_none (hi : Inv s) (hloop : s.loop ≠ .iterating) :
    s.monitor.iteration = none := by
  have hnot : ¬ s.monitor.iteration.isSome := fun hsome => hloop (hi.iterating.mp hsome)
  simpa using hnot

/-- When `run_` is gone what is owed becomes more and what is left stays. -/
lemma owed_step (hi : Inv s) (hrun : s.run = false) {a : Action} (hs : step s a = some s')
    (huser : ∀ b, a = .monitor b → ¬ b.OfUser) : owed s <+: owed s' ∧ left s' = left s := by
  obtain ⟨-, hloop, rfl⟩ | ⟨-, hrun', -⟩ | ⟨m, -, hloop, hm, rfl⟩ | ⟨m, rfl, hm, rfl⟩ |
    ⟨b, m, rfl, hwake, -, hm, rfl⟩ := step_cases hs
  · simp [owed, left, hloop, hrun]
  · rw [hrun] at hrun'
    contradiction
  · -- the tasks are taken for the last time
    obtain ⟨hnone, rfl⟩ := LocalFile.State.wake_cases hm
    simp [owed, left, hloop, LocalFile.State.due, hnone]
  · obtain ⟨hqueue, hmade⟩ := made_step hi.base hm (huser _ rfl) nofun
    have hloop : s.loop = .iterating := by
      obtain ⟨it, hit, -⟩ := LocalFile.State.finish_cases hm
      exact hi.iterating.mp (by rw [hit]; rfl)
    simpa [owed, left, hloop, hqueue] using hmade
  · by_cases hloop : s.loop = .waiting
    · have hnone := hi.iteration_eq_none (by rw [hloop]; nofun)
      obtain ⟨fs, -, rfl⟩ := quiet_step hnone hm (huser _ rfl) hwake
      exact ⟨List.prefix_refl _, rfl⟩
    · obtain ⟨hqueue, hmade⟩ := made_step hi.base hm (huser _ rfl) hwake
      simpa [owed, left, hloop, hqueue] using hmade

/-! ## Every run -/

/-- `run_` does not come back. -/
lemma run_step (hrun : s.run = false) {a : Action} (hs : step s a = some s') : s'.run = false := by
  obtain ⟨-, -, rfl⟩ | ⟨-, -, rfl⟩ | ⟨m, -, -, -, rfl⟩ | ⟨m, -, -, rfl⟩ |
    ⟨b, m, -, -, -, -, rfl⟩ := step_cases hs
  · exact hrun
  · rfl
  · exact hrun
  · exact hrun
  · exact hrun

/-- The steps of the task thread. -/
def Action.OfThread : Action → Prop
  | .test => True
  | .destruct => False
  | .monitor b => b.OfThread

lemma inv_init (fs : FileSystem) : Inv (init fs) :=
  ⟨base_init fs, by simp [init, LocalFile.State.init]⟩

lemma step_of_live (hlive : m.terminated = false) : m.step .wake = m.wake ∧ m.step .task = m.task ∧
    m.step .proceed = m.proceed ∧ (∀ k path, m.step (.check k path) = m.check k path) ∧
    m.step .finish = m.finish := by
  simp [LocalFile.State.step.eq_def, hlive]

/-- In an iteration the thread always has a step to take. -/
lemma exists_step {it : Iteration} (hit : m.iteration = some it) (hlive : m.terminated = false) :
    ∃ b m', b.OfThread ∧ b ≠ .wake ∧ m.step b = some m' := by
  obtain ⟨-, htask, hproceed, hcheck, hfinish⟩ := step_of_live hlive
  have hsome : ∀ b, b.OfThread → b ≠ .wake → (m.step b).isSome →
      ∃ b m', b.OfThread ∧ b ≠ .wake ∧ m.step b = some m' := by
    intro b hb hne h
    obtain ⟨m', hm⟩ := Option.isSome_iff_exists.mp h
    exact ⟨b, m', hb, hne, hm⟩
  -- an entry of the copies can be looked at when those before it have been dealt with
  have hentry : ∀ k, it.Done k.before → (it.copies k).last.keys ≠ [] →
      ∃ b m', b.OfThread ∧ b ≠ .wake ∧ m.step b = some m' := by
    intro k hdone hne
    obtain ⟨path, hpath⟩ := List.exists_mem_of_ne_nil _ hne
    obtain ⟨last, hlast⟩ :=
      Option.isSome_iff_exists.mp (AList.lookup_isSome.mpr (AList.mem_keys.mpr hpath))
    refine hsome (.check k path) trivial (by simp) ?_
    rw [hcheck, LocalFile.State.check, hit]
    simp [hdone, hlast]
  obtain ⟨tasks, copies, todo⟩ := it
  cases todo with
  | cons step todo =>
      refine hsome .proceed trivial (by simp) ?_
      simp [hproceed, LocalFile.State.proceed, hit]
  | nil =>
      cases tasks with
      | cons task tasks =>
          refine hsome .task trivial (by simp) ?_
          simp [htask, LocalFile.State.task, hit]
      | nil =>
          by_cases hexist : (copies .exist).last.keys = []
          · by_cases hget : (copies .get).last.keys = []
            · by_cases hsub : (copies .sub).last.keys = []
              · have hdone : (Iteration.mk [] copies []).Done [.exist, .get, .sub] :=
                  ⟨rfl, rfl, by simp [hexist, hget, hsub]⟩
                refine hsome .finish trivial (by simp) ?_
                simp [hfinish, LocalFile.State.finish, hit, hdone]
              · exact hentry .sub ⟨rfl, rfl, by simp [Kind.before, hexist, hget]⟩ hsub
            · exact hentry .get ⟨rfl, rfl, by simp [Kind.before, hexist]⟩ hget
          · exact hentry .exist ⟨rfl, rfl, by simp [Kind.before]⟩ hexist

lemma exists_monitor {b : LocalFile.Action} (hwake : b ≠ .wake) (hm : s.monitor.step b = some m) :
    ∃ s', step s (.monitor b) = some s' := by
  cases b with
  | wake => exact absurd rfl hwake
  | _ =>
      simp only [step, hm, Option.map_some]
      exact ⟨_, rfl⟩

/-- As long as the thread has not ended it has a step to take. -/
lemma Inv.goes_on (hi : Inv s) (hlive : s.monitor.terminated = false) (hne : s.loop ≠ .ended) :
    ∃ a s', a.OfThread ∧ Shutdown.step s a = some s' := by
  cases hloop : s.loop with
  | test =>
      refine ⟨.test, { s with loop := if s.run then .waiting else .ended }, trivial, ?_⟩
      rw [Shutdown.step, if_pos ⟨hloop, hlive⟩]
  | waiting =>
      have hnone : s.monitor.iteration = none := hi.iteration_eq_none (by rw [hloop]; nofun)
      have hsome : (Shutdown.step s (.monitor .wake)).isSome := by
        rw [Shutdown.step, if_pos hloop, (step_of_live hlive).1, LocalFile.State.wake, hnone]
        rfl
      obtain ⟨s', hs⟩ := Option.isSome_iff_exists.mp hsome
      exact ⟨.monitor .wake, s', trivial, hs⟩
  | iterating =>
      obtain ⟨it, hit⟩ := Option.isSome_iff_exists.mp (hi.iterating.mpr hloop)
      obtain ⟨b, m', hb, hwake, hm⟩ := exists_step hit hlive
      obtain ⟨s', hs⟩ := exists_monitor hwake hm
      exact ⟨.monitor b, s', hb, hs⟩
  | ended => exact absurd hloop hne

/-! ## The thread ends -/

/-- What the thread has to do when `run_` is gone. -/
def work (s : State) : ℕ :=
  if s.monitor.terminated then 0
  else match s.loop with
    | .ended => 0
    | .test => 1
    | .iterating => 2 + (s.monitor.iteration.elim 0 (Iteration.cost s.monitor.fs))
    | .waiting => 3 + Iteration.cost s.monitor.fs ⟨s.monitor.taskQueue, s.monitor.monitors, []⟩

lemma entries_update {copies : (k : Kind) → Monitors k} {k : Kind} {path : Path} {last : k.Last}
    {r : Monitors k} (hlast : (copies k).last.lookup path = some last)
    (hr : r.last = (copies k).last.erase path) :
    entries (Function.update copies k r) + 1 = entries copies := by
  have hmem : path ∈ (copies k).last.keys :=
    AList.mem_keys.mp (AList.lookup_isSome.mp (by rw [hlast]; rfl))
  have hlen : r.last.keys.length + 1 = (copies k).last.keys.length := by
    rw [hr, AList.keys_erase]
    exact @List.length_erase_add_one Path instBEqOfDecidableEq inferInstance path _ hmem
  cases k <;> simp [entries, Function.update] <;> omega

lemma cost_onCheck (fs : FileSystem) (k : Kind) (path : Path) (last this : k.Last)
    (cb : Option Callback) : ((onCheck k path last this cb).map (Step.cost fs)).sum ≤ 3 := by
  rw [onCheck]
  split_ifs
  · exact Nat.zero_le _
  · cases k <;> simp [onChange, Step.cost]

/-- In an iteration every section leaves less to do. -/
lemma cost_step {it : Iteration} (hit : m.iteration = some it) {b : LocalFile.Action}
    (hs : m.step b = some m') (hb : b.OfThread) (hwake : b ≠ .wake) (hfinish : b ≠ .finish) :
    m'.terminated = true ∨
      ∃ it', m'.iteration = some it' ∧ it'.cost m'.fs < it.cost m.fs := by
  cases b with
  | wake => exact absurd rfl hwake
  | finish => exact absurd rfl hfinish
  | task =>
      obtain ⟨task, tasks, copies, hit', rfl⟩ := LocalFile.State.task_cases hs
      obtain rfl := Option.some.inj (hit.symm.trans hit')
      refine .inr ⟨_, rfl, ?_⟩
      simp [Iteration.cost, Task.cost]
  | proceed =>
      obtain ⟨tasks, copies, step, todo, hit', rfl⟩ := LocalFile.State.proceed_cases hs
      obtain rfl := Option.some.inj (hit.symm.trans hit')
      cases step with
      | call call =>
          cases call with
          | none => exact .inl rfl
          | some call =>
              refine .inr ⟨_, rfl, ?_⟩
              simp [Iteration.cost, Step.cost, LocalFile.State.runStep]
      | getFileValue path cb t =>
          simp only [LocalFile.State.runStep]
          cases LocalFile.getFileValue m.fs path with
          | none => exact .inl rfl
          | some r =>
              refine .inr ⟨_, rfl, ?_⟩
              rw [onValue]
              split_ifs <;> simp [Iteration.cost, Step.cost] <;> omega
      | removeChildren path =>
          refine .inr ⟨_, rfl, ?_⟩
          simp [Iteration.cost, Step.cost, LocalFile.State.runStep, Function.comp_def]
      | remove k path =>
          refine .inr ⟨_, rfl, ?_⟩
          simp [Iteration.cost, Step.cost, LocalFile.State.runStep, LocalFile.State.removeMonitor,
            LocalFile.State.setMonitors]
      | update k path this =>
          refine .inr ⟨_, rfl, ?_⟩
          simp [Iteration.cost, Step.cost, LocalFile.State.runStep, LocalFile.State.update,
            LocalFile.State.setMonitors]
  | check k path =>
      obtain ⟨it', last, hit', ⟨htasks, htodo, -⟩, hlast, rfl⟩ := LocalFile.State.check_cases hs
      obtain rfl := Option.some.inj (hit.symm.trans hit')
      refine .inr ⟨_, rfl, ?_⟩
      have hentries := entries_update hlast (r := { it.copies k with
        last := (it.copies k).last.erase path }) rfl
      have hcost := cost_onCheck m.fs k path last (look m.fs k path)
        ((it.copies k).entry.lookup path)
      simp only [Iteration.cost, htasks, htodo, List.map_nil, List.sum_nil]
      dsimp only at hentries
      omega
  | _ => exact absurd hb id

lemma live_of_step {a : Action} (hs : step s a = some s') : s.monitor.terminated = false := by
  cases a with
  | test =>
      by_contra hdead
      rw [step, if_neg fun h => hdead h.2] at hs
      contradiction
  | destruct =>
      by_contra hdead
      rw [step, if_neg fun h => hdead h.2] at hs
      contradiction
  | monitor b =>
      obtain ⟨h, -⟩ | ⟨h, -⟩ | ⟨m, -, -, hm, -⟩ | ⟨m, -, hm, -⟩ | ⟨b, m, -, -, -, hm, -⟩ :=
        step_cases hs
      · contradiction
      · contradiction
      · exact LocalFile.State.step_eq hm
      · exact LocalFile.State.step_eq hm
      · exact LocalFile.State.step_eq hm

lemma work_of_iterating (hlive : s.monitor.terminated = false) (hloop : s.loop = .iterating) :
    work s = 2 + s.monitor.iteration.elim 0 (Iteration.cost s.monitor.fs) := by
  rw [work, if_neg (Bool.eq_false_iff.mp hlive), hloop]

lemma not_ofUser {b : LocalFile.Action} (hb : b.OfThread) : ¬ b.OfUser := by
  cases b with
  | wake | task | proceed | check | finish => exact id
  | _ => exact absurd hb id

/-- Every step of the thread leaves less work. -/
lemma lowers : Lowers step Action.OfThread (fun s => Inv s ∧ s.run = false) work := by
  rintro s a s' ⟨hi, hrun⟩ ha hs
  refine ⟨⟨hi.step hs, run_step hrun hs⟩, ?_⟩
  have hlive : s.monitor.terminated = false := live_of_step hs
  obtain ⟨rfl, hloop, rfl⟩ | ⟨rfl, -⟩ | ⟨m, rfl, hloop, hm, rfl⟩ | ⟨m, rfl, hm, rfl⟩ |
    ⟨b, m, rfl, hwake, hfinish, hm, rfl⟩ := step_cases hs
  · simp [work, hlive, hloop, hrun]
  · exact absurd ha id
  · obtain ⟨-, rfl⟩ := LocalFile.State.wake_cases hm
    simp [work, hlive, hloop]
  · obtain ⟨it, hit, -, rfl⟩ := LocalFile.State.finish_cases hm
    have hloop : s.loop = .iterating := hi.iterating.mp (by rw [hit]; rfl)
    have hone : work { s with
        monitor := { s.monitor with iteration := none }, loop := .test } = 1 :=
      if_neg (Bool.eq_false_iff.mp hlive)
    rw [hone, work_of_iterating hlive hloop]
    omega
  · have hloop : s.loop = .iterating := by
      by_contra hne
      have hnone := hi.iteration_eq_none hne
      obtain ⟨fs, rfl, -⟩ := quiet_step hnone hm (not_ofUser ha) hwake
      exact absurd ha id
    obtain ⟨it, hit⟩ := Option.isSome_iff_exists.mp (hi.iterating.mpr hloop)
    rw [work_of_iterating hlive hloop, hit]
    rcases Bool.eq_false_or_eq_true m.terminated with hdead | hlive'
    · rw [work, if_pos hdead]
      omega
    · rcases cost_step hit hm ha hwake hfinish with hdead | ⟨it', hit', hlt⟩
      · rw [hdead] at hlive'
        contradiction
      · have hwork := work_of_iterating (s := { s with monitor := m }) hlive' hloop
        dsimp only at hwork
        rw [hwork, hit']
        exact Nat.add_lt_add_left hlt 2

/-- A run after the destructor. -/
lemma owed_runs (hr : Reach step (fun _ _ => True) (init fs) w) (hd : step w .destruct = some w')
    {acts : List Action} (hrun : Runs step w' acts s)
    (huser : ∀ b, .monitor b ∈ acts → ¬ b.OfUser) :
    Inv s ∧ s.run = false ∧ owed w <+: owed s ∧ left s = left w := by
  have hw : Inv w := hr.invariant (inv_init fs) fun _ _ _ hi _ hs => hi.step hs
  have hstart : Inv w' ∧ w'.run = false ∧ owed w' = owed w ∧ left w' = left w := by
    refine ⟨hw.step hd, ?_⟩
    rw [step] at hd
    split_ifs at hd
    obtain rfl := Option.some.inj hd
    exact ⟨rfl, rfl, rfl⟩
  induction hrun with
  | nil => exact ⟨hstart.1, hstart.2.1, hstart.2.2.1 ▸ List.prefix_refl _, hstart.2.2.2⟩
  | snoc hrun hs ih =>
      obtain ⟨hi, hrun', howed, hleft⟩ := ih fun b hb => huser b (List.mem_append_left _ hb)
      obtain ⟨howed', hleft'⟩ := owed_step hi hrun' hs fun b hb =>
        huser b (List.mem_append_right _ (by rw [hb]; exact List.mem_cons_self))
      exact ⟨hi.step hs, run_step hrun' hs, howed.trans howed', hleft'.trans hleft⟩

/-- When the thread has ended after the destructor was called, the calls that were owed then have
been made, in that order and before all others, and the tasks that were left then are in the queue,
where nothing takes them; and the thread ends after no more steps than it has work, unless an
exception ends the process. -/
theorem told_before_end (hr : Reach step (fun _ _ => True) (init fs) w)
    (hd : step w .destruct = some w') {acts : List Action} (hrun : Runs step w' acts s)
    (huser : ∀ b, .monitor b ∈ acts → ¬ b.OfUser) :
    (s.loop = .ended → s.monitor.taskQueue = left w ∧ owed w <+: s.monitor.calls) ∧
      (∀ acts' u, Runs step s acts' u → (∀ a ∈ acts', a.OfThread) → acts'.length ≤ work s) ∧
      ∃ acts' u, Runs step s acts' u ∧ (∀ a ∈ acts', a.OfThread) ∧
        (u.loop = .ended ∨ u.monitor.terminated = true) := by
  obtain ⟨hi, hrun', howed, hleft⟩ := owed_runs hr hd hrun huser
  refine ⟨fun hend => ?_, fun acts' u h hown => ?_, ?_⟩
  · have hnone := hi.iteration_eq_none (by rw [hend]; nofun)
    constructor
    · rw [← hleft, left, if_neg (by rw [hend]; nofun)]
    · simpa [owed, hend, LocalFile.State.due, hnone] using howed
  · exact (Nat.le_add_right _ _).trans (lowers.runs ⟨hi, hrun'⟩ h hown).2
  · obtain ⟨acts', u, h, hown, hset⟩ := lowers.exists_settled ⟨hi, hrun'⟩
    refine ⟨acts', u, h, hown, ?_⟩
    by_contra hno
    obtain ⟨hne, hlive⟩ := not_or.mp hno
    obtain ⟨a, v, ha, hs⟩ :=
      (lowers.runs ⟨hi, hrun'⟩ h hown).1.1.goes_on (Bool.eq_false_iff.mpr hlive) hne
    rw [hset a ha] at hs
    contradiction

/-- The answer to a query that is made while the thread is in an iteration is lost when the monitor
is destroyed then. -/
theorem told_before_end_queried : ∃ w w' s, Reach step (fun _ _ => True) (init emptyFs) w ∧
    step w .destruct = some w' ∧ Runs step w' [.monitor .finish, .test] s ∧ s.loop = .ended ∧
    s.monitor.taskQueue.length = 1 ∧ s.monitor.taskQueue = left w ∧ owed w <+: s.monitor.calls := by
  obtain ⟨w, hr, hw⟩ := exists_reach_of_exec step (fun _ _ => True) (init emptyFs)
    [.test, .monitor .wake, .monitor (.existsPath false ['/', 'a']), .monitor (.advance 0),
      .monitor (.advance 0)]
    (fun w => (step w .destruct).bind fun w' => (step w' (.monitor .finish)).bind fun v =>
      (step v .test).map fun s => (s.loop, s.monitor.taskQueue.length))
    (some (.ended, 1)) (by decide +kernel)
  obtain ⟨w', hd, hw⟩ := Option.bind_eq_some_iff.mp hw
  obtain ⟨v, hfinish, hw⟩ := Option.bind_eq_some_iff.mp hw
  obtain ⟨s, htest, hs⟩ := Option.map_eq_some_iff.mp hw
  obtain ⟨hend, hlen⟩ := Prod.mk.inj hs
  have hrun : Runs step w' [.monitor .finish, .test] s := (Runs.nil.snoc hfinish).snoc htest
  have huser : ∀ b, .monitor b ∈ [Action.monitor .finish, .test] → ¬ b.OfUser := by
    intro b hb
    obtain rfl : b = .finish := by simpa using hb
    exact id
  obtain ⟨hqueue, howed⟩ := (told_before_end hr hd hrun huser).1 hend
  exact ⟨w, w', s, hr, hd, hrun, hend, hlen, hqueue, howed⟩

end Shutdown

end LocalFile

end ConfigMonitor
