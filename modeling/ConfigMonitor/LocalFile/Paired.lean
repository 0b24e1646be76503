/-
# The pairs of maps

What is remembered of a path and the callback that is told of it are entered together and taken
out together, but the poll writes back what it has read with `operator[]`, which makes an entry
where there is none.  When a removal has run in the same iteration, the path is left with
something remembered and without a callback, and the next iteration but one calls an empty
function.
-/
import ConfigMonitor.LocalFile.LocFile
import ConfigMonitor.Lib.Simulation

namespace ConfigMonitor

namespace LocalFile

open Run

/-- The section that is next does not call an empty function. -/
def State.FindsCallback (s : State) : Prop :=
  ∀ it, s.iteration = some it → it.todo.head? ≠ some (.call none)

/-- The maps of each pair have the same keys, and the callback that is called is there. -/
def State.Sound (s : State) : Prop := (∀ k, (s.monitors k).Paired) ∧ s.FindsCallback

/-- In every state of every run the maps of each pair have the same keys, and the callback that
is called is there. -/
def AlwaysSound : Prop :=
  ∀ fs acts s, Runs State.step (State.init fs) acts s →
    Always State.step (State.init fs) State.Sound acts

/-! ## A removal and a change in one iteration -/

/-- `/p` is watched; in one iteration its watch is removed and the poll finds that it has been
created; then it is deleted. -/
def removedAndChanged : List Action :=
  [.existsPath true ['/', 'p'], .advance 0, .advance 0, .advance 0,
    .removeWatches ['/', 'p'] 0, .change (oneFile ['/', 'p'] [] 1),
    .wake, .task, .proceed, .task, .proceed, .proceed, .proceed,
    .check .exist ['/', 'p'], .proceed, .proceed, .finish,
    .change emptyFs, .wake, .check .exist ['/', 'p'], .proceed]

lemma callsEmpty_removedAndChanged : ∃ s,
    Runs State.step (State.init emptyFs) removedAndChanged s ∧ ¬ s.FindsCallback := by
  obtain ⟨s, hs, hw⟩ := Option.map_eq_some_iff.mp (show
    (exec State.step (fun _ _ => True) (State.init emptyFs) removedAndChanged).map
      (fun s => s.iteration.map fun it => it.todo.head?) = some (some (some (.call none))) from rfl)
  refine ⟨s, runs_of_exec hs, fun hfind => ?_⟩
  obtain ⟨it, hit, htodo⟩ := Option.map_eq_some_iff.mp hw
  exact hfind it hit htodo

theorem not_alwaysSound : ¬ AlwaysSound := by
  intro h
  obtain ⟨s, hs, hempty⟩ := callsEmpty_removedAndChanged
  exact hempty (h _ _ s hs _ [] s (List.append_nil _).symm hs).2

/-! ## The exact condition -/

/-- The poll writes back what it has read of a path whose monitor has been removed since the
copies were taken. -/
def WritesBackRemoved (s : State) : Action → Prop
  | .proceed =>
      match s.iteration with
      | some { tasks := _, copies := _, todo := .update k path _ :: _ } =>
          path ∉ (s.monitors k).entry
      | _ => False
  | _ => False

instance (s : State) (a : Action) : Decidable (WritesBackRemoved s a) := by
  unfold WritesBackRemoved
  split
  · split <;> infer_instance
  · infer_instance

/-- The callback of the section has been found. -/
def Step.Callable : Step → Prop
  | .call none | .getFileValue _ none _ => False
  | _ => True

/-- The invariant: the pairs, those of the copies, and the callbacks found in them. -/
structure Inv (s : State) : Prop where
  paired : ∀ k, (s.monitors k).Paired
  copies : ∀ it, s.iteration = some it → ∀ k path, path ∈ (it.copies k).last →
    path ∈ (it.copies k).entry
  todo : ∀ it, s.iteration = some it → ∀ step ∈ it.todo, step.Callable

variable {s s' : State}

lemma Inv.of_eq (h : Inv s) (hm : s'.monitors = s.monitors) (hi : s'.iteration = s.iteration) :
    Inv s' := by
  refine ⟨?_, ?_, ?_⟩
  · rw [hm]; exact h.paired
  · rw [hi]; exact h.copies
  · rw [hi]; exact h.todo

/-- One pair is replaced and the task thread goes on with what is left. -/
lemma Inv.set (h : Inv s) {k : Kind} {r : Monitors k} (hr : r.Paired)
    (hm : s'.monitors = Function.update s.monitors k r)
    (hi : ∀ it', s'.iteration = some it' → ∃ it, s.iteration = some it ∧
      it'.copies = it.copies ∧ it'.todo ⊆ it.todo) : Inv s' := by
  refine ⟨?_, fun it' hit' => ?_, fun it' hit' step hstep => ?_⟩
  · rw [hm, Function.forall_update_iff s.monitors fun _ r => r.Paired]
    exact ⟨hr, fun k' _ => h.paired k'⟩
  · obtain ⟨it, hit, hc, -⟩ := hi it' hit'
    rw [hc]
    exact h.copies it hit
  · obtain ⟨it, hit, -, ht⟩ := hi it' hit'
    exact h.todo it hit step (ht hstep)

/-- The task thread goes on with other sections, whose callbacks have been found. -/
lemma Inv.goto (h : Inv s) {it it' : Iteration} (hit : s.iteration = some it)
    (hm : s'.monitors = s.monitors) (hit' : s'.iteration = some it') (hc : it'.copies = it.copies)
    (ht : ∀ step ∈ it'.todo, step.Callable) : Inv s' := by
  refine ⟨hm ▸ h.paired, fun it₁ h₁ => ?_, fun it₁ h₁ => ?_⟩
  · obtain rfl := Option.some.inj (hit'.symm.trans h₁)
    rw [hc]
    exact h.copies it hit
  · obtain rfl := Option.some.inj (hit'.symm.trans h₁)
    exact ht

lemma callable_body (task : Task) : ∀ step ∈ task.body, step.Callable := by
  cases task with
  | report call => simp [Task.body, Step.Callable]
  | removeWatches path watchType id =>
      rw [Task.body]
      split_ifs <;> simp [Step.Callable]

lemma callable_onCheck (k : Kind) (path : Path) (last this : k.Last) (cb : Callback) :
    ∀ step ∈ onCheck k path last this (some cb), step.Callable := by
  rw [onCheck]
  split_ifs
  · simp
  · cases k <;> simp [onChange, Step.Callable]

lemma callable_onValue (path : Path) (cb : Callback) (thisTimestamp : ℕ) (err : FileError)
    (value : Str) : ∀ step ∈ onValue path (some cb) thisTimestamp err value, step.Callable := by
  rw [onValue]
  split_ifs <;> simp [Step.Callable]

lemma Inv.advance (h : Inv s) {id : ℕ} (hs : s.advance id = some s') : Inv s' := by
  rw [State.advance] at hs
  cases hp : s.threads id with
  | returned => rw [hp] at hs; simp at hs
  | emplace k path last =>
      rw [hp] at hs
      obtain rfl := Option.some.inj hs
      exact h.set ((h.paired k).register path last _) rfl
        fun it hit => ⟨it, hit, rfl, List.Subset.refl _⟩
  | _ =>
      rw [hp] at hs
      obtain rfl := Option.some.inj hs
      exact h.of_eq rfl rfl

lemma Inv.proceed (h : Inv s) (hno : ¬ WritesBackRemoved s .proceed)
    (hs : s.step .proceed = some s') : Inv s' := by
  obtain ⟨tasks, copies, step, todo, hit, rfl⟩ := State.proceed_cases hs
  have htodo := h.todo _ hit
  have hrest : ∀ st ∈ todo, st.Callable := fun st hst => htodo st (List.mem_cons_of_mem _ hst)
  cases step with
  | call call =>
      cases call with
      | none => exact absurd (htodo _ List.mem_cons_self) id
      | some call => exact h.goto hit rfl rfl rfl hrest
  | remove k path =>
      refine h.set ((h.paired k).remove path) rfl fun it' hit' => ⟨_, hit, ?_⟩
      obtain rfl := Option.some.inj hit'
      exact ⟨rfl, List.subset_cons_self _ _⟩
  | removeChildren path =>
      refine h.goto hit rfl rfl rfl fun st hst => ?_
      rcases List.mem_append.mp hst with hst | hst
      · obtain ⟨child, -, rfl⟩ := List.mem_map.mp hst
        trivial
      · exact hrest st hst
  | getFileValue path cb thisTimestamp =>
      cases cb with
      | none => exact absurd (htodo _ List.mem_cons_self) id
      | some cb =>
          rw [State.runStep]
          split
          · exact h.of_eq rfl rfl
          · rename_i err value _
            refine h.goto hit rfl rfl rfl fun st hst => ?_
            rcases List.mem_append.mp hst with hst | hst
            · exact callable_onValue path cb thisTimestamp err value st hst
            · exact hrest st hst
  | update k path this =>
      -- the path is still monitored, or the step is one that is excluded
      have hmem : path ∈ (s.monitors k).entry := by
        by_contra hno'
        refine hno ?_
        rw [WritesBackRemoved, hit]
        exact hno'
      refine h.set ((h.paired k).store_iff.mpr hmem) rfl fun it' hit' => ⟨_, hit, ?_⟩
      obtain rfl := Option.some.inj hit'
      exact ⟨rfl, List.subset_cons_self _ _⟩

lemma Inv.check (h : Inv s) {k : Kind} {path : Path} (hs : s.step (.check k path) = some s') :
    Inv s' := by
  obtain ⟨it, last, hit, -, hlast, rfl⟩ := State.check_cases hs
  have hmem : path ∈ (it.copies k).entry :=
    h.copies it hit k path (Registry.mem_of_lookup hlast)
  obtain ⟨cb, hcb⟩ := Registry.exists_lookup hmem
  refine ⟨h.paired, fun it' hit' => ?_, fun it' hit' => ?_⟩
  · obtain rfl := Option.some.inj hit'
    rw [Function.forall_update_iff it.copies
      fun k r => ∀ path, path ∈ Registry.last r → path ∈ Registry.entry r]
    exact ⟨fun path' hp => h.copies it hit k path' (AList.mem_erase.mp hp).2,
      fun k' _ => h.copies it hit k'⟩
  · obtain rfl := Option.some.inj hit'
    dsimp only
    rw [hcb]
    exact callable_onCheck k path last _ cb

lemma Inv.step (h : Inv s) {a : Action} (hno : ¬ WritesBackRemoved s a)
    (hs : s.step a = some s') : Inv s' := by
  cases a with
  | advance id => exact h.advance (State.advance_cases hs)
  | wake =>
      obtain ⟨-, rfl⟩ := State.wake_cases hs
      refine ⟨h.paired, fun it hit k path => ?_, fun it hit => ?_⟩
      · obtain rfl := Option.some.inj hit
        exact (h.paired k path).mp
      · obtain rfl := Option.some.inj hit
        simp
  | task =>
      obtain ⟨task, tasks, copies, hit, rfl⟩ := State.task_cases hs
      exact h.goto hit rfl rfl rfl (callable_body task)
  | proceed => exact h.proceed hno hs
  | check k path => exact h.check hs
  | finish =>
      obtain ⟨it, -, -, rfl⟩ := State.finish_cases hs
      exact ⟨h.paired, by simp, by simp⟩
  | change fs =>
      obtain rfl := State.change_cases hs
      exact h.of_eq rfl rfl
  | removeWatches path watchType =>
      obtain rfl := State.removeWatches_cases hs
      exact h.of_eq rfl rfl
  | _ =>
      obtain rfl := State.enter_cases rfl hs
      exact h.of_eq rfl rfl

lemma inv_init (fs : FileSystem) : Inv (State.init fs) :=
  ⟨fun _ => Registry.paired_empty, by simp [State.init], by simp [State.init]⟩

lemma Inv.sound (h : Inv s) : s.Sound := by
  refine ⟨h.paired, fun it hit hhead => ?_⟩
  exact h.todo it hit _ (List.mem_of_mem_head? hhead)

lemma not_sound_of_writesBackRemoved {a : Action} (h : WritesBackRemoved s a)
    (hs : s.step a = some s') : ¬ s'.Sound := by
  cases a with
  | proceed =>
      obtain ⟨tasks, copies, step, todo, hit, rfl⟩ := State.proceed_cases hs
      rw [WritesBackRemoved, hit] at h
      cases step with
      | update k path this =>
          rintro ⟨hp, -⟩
          have hk := (hp k path).mp
          simp only [State.runStep, State.update, State.setMonitors, Function.update_self,
            Registry.store, AList.mem_insert, true_or, forall_const] at hk
          exact h hk
      | _ => exact absurd h id
  | _ => exact absurd h id

/-- In a run the maps of each pair keep the same keys, and every callback that is called is
there, exactly as long as the poll writes nothing back for a path whose monitor has been
removed since the copies were taken. -/
theorem always_sound_iff {fs : FileSystem} {acts : List Action}
    (hr : Runs State.step (State.init fs) acts s) :
    Always State.step (State.init fs) State.Sound acts ↔
      ¬ Occurs State.step (State.init fs) WritesBackRemoved acts :=
  hr.always_iff_not_occurs (inv_init fs) (fun _ _ _ h hno hs => h.step hno hs)
    (fun _ h => h.sound) fun _ _ _ h hs => not_sound_of_writesBackRemoved h hs

/-- `/p` is watched, the poll finds that it has been created, and its watch is removed in the next
iteration. -/
def changedAndRemoved : List Action :=
  [.existsPath true ['/', 'p'], .advance 0, .advance 0, .advance 0,
    .change (oneFile ['/', 'p'] [] 1), .wake, .task, .proceed, .check .exist ['/', 'p'],
    .proceed, .proceed, .finish, .removeWatches ['/', 'p'] 0, .wake, .task, .proceed, .proceed,
    .proceed, .check .exist ['/', 'p'], .finish]

/-- The poll writes back in the run above that ends with an empty function, and not in this one. -/
theorem always_sound_iff_removedAndChanged :
    Occurs State.step (State.init emptyFs) WritesBackRemoved removedAndChanged ∧
      Always State.step (State.init emptyFs) State.Sound changedAndRemoved := by
  constructor
  · obtain ⟨s, hs, hempty⟩ := callsEmpty_removedAndChanged
    by_contra hno
    exact hempty ((always_sound_iff hs).mpr hno _ [] s (List.append_nil _).symm hs).2
  · obtain ⟨s, hs⟩ := Option.isSome_iff_exists.mp (by decide :
      (exec State.step (fun s a => ¬ WritesBackRemoved s a) (State.init emptyFs)
        changedAndRemoved).isSome)
    obtain ⟨hrun, hno⟩ := not_occurs_of_exec hs
    exact (always_sound_iff hrun).mpr hno

end LocalFile

end ConfigMonitor
