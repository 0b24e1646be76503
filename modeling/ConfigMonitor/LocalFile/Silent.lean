/-
# After a removal

The tasks and what is under way are one stream of sections, which the task thread runs in order;
only the poll adds sections in front.  When `remove_watches` has told its callback ok, the
reports of the earlier registrations have been made and their callbacks are out of the maps.
They may still be in the copies of the iteration, where the poll finds them when there has been a
change; and a child that the directory does not have at the moment of the removal is left out, as
is every child of the root, whose path the removal joins with a second separator.
-/
import ConfigMonitor.LocalFile.Alternate

namespace ConfigMonitor

namespace LocalFile

open Run

/-! ## The property -/

/-- The callbacks that `remove_watches(path, watchType, cb)` is to silence.  A child is given by
the path of its entry in the directory, or with a separator of its own; the two differ when `path`
ends in one. -/
def Covers (path : Path) (watchType : ℕ) (cb : Callback) : Prop :=
  if watchType = 0 then cb.path = path ∧ cb.kind ≠ .sub
  else cb.path = path ∧ cb.kind ≠ .get ∨
    cb.kind = .get ∧ ∃ child, child ≠ [] ∧ '/' ∉ child ∧
      (cb.path = entryPath path child ∨ cb.path = subPath path child)

/-- Once a removal has told ok, no callback of a call that had returned before it is called. -/
def RemovedSilent : Prop :=
  ∀ fs (s₁ s₂ s₃ s₄ : State) path watchType cb,
    Reach State.step (fun _ _ => True) (State.init fs) s₁ →
    s₁.step (.removeWatches path watchType) = some s₂ →
    Covers path watchType cb → cb.id < s₁.next → s₁.threads cb.id = .returned →
    Reach State.step (fun _ _ => True) s₂ s₃ → .removed s₁.next .ok ∈ s₃.calls →
    Reach State.step (fun _ _ => True) s₃ s₄ → s₄.callsOf cb = s₃.callsOf cb

/-! ## A change in the iteration of the removal -/

/-- `/p` is watched while it is absent; it is created after its watch has been removed, before
the poll of the same iteration. -/
theorem not_removedSilent : ¬ RemovedSilent := by
  intro h
  obtain ⟨s₁, hr, hobs⟩ := exists_reach_of_exec State.step (fun _ _ => True) (State.init emptyFs)
    [.existsPath true ['/', 'p'], .advance 0, .advance 0, .advance 0]
    (fun s => (s.next, s.threads 0, (s.step (.removeWatches ['/', 'p'] 0)).bind fun s₂ =>
      (exec State.step (fun _ _ => True) s₂
        [.wake, .task, .proceed, .task, .proceed, .proceed, .proceed]).bind fun s₃ =>
          (exec State.step (fun _ _ => True) s₃ [.change (oneFile ['/', 'p'] [] 1),
            .check .exist ['/', 'p'], .proceed, .proceed]).map fun s₄ => (s₃.calls, s₄.calls)))
    (1, .returned, some
      ([.existed ⟨.exist, ['/', 'p'], 0⟩ .notExist .dummy, .removed 1 .ok],
        [.existed ⟨.exist, ['/', 'p'], 0⟩ .notExist .dummy, .removed 1 .ok,
          .existed ⟨.exist, ['/', 'p'], 0⟩ .ok .created])) rfl
  obtain ⟨hnext, hret, hend⟩ : s₁.next = 1 ∧ s₁.threads 0 = .returned ∧ _ = some _ := by
    simpa only [Prod.mk.injEq] using hobs
  obtain ⟨s₂, hs, hend⟩ := Option.bind_eq_some_iff.mp hend
  obtain ⟨s₃, hr₃, hend⟩ := Option.bind_eq_some_iff.mp hend
  obtain ⟨s₄, hr₄, hend⟩ := Option.map_eq_some_iff.mp hend
  obtain ⟨h₃, h₄⟩ := Prod.mk.inj hend
  have heq := h emptyFs s₁ s₂ s₃ s₄ ['/', 'p'] 0 ⟨.exist, ['/', 'p'], 0⟩ hr hs
    (by simp [Covers]) (by rw [hnext]; decide) hret (reach_of_exec hr₃)
    (by rw [hnext, h₃]; decide) (reach_of_exec hr₄)
  rw [State.callsOf, State.callsOf, h₃, h₄] at heq
  exact absurd heq (by decide)

/-! ## The stream of sections -/

/-- What the task thread has still to do, apart from its poll. -/
def State.stream (s : State) : List Step :=
  (match s.iteration with
  | some it => it.todo ++ it.tasks.flatMap Task.body
  | none => []) ++ s.taskQueue.flatMap Task.body

/-- The sections that a section leads to. -/
def Step.leads (fs : FileSystem) : Step → List Step
  | .removeChildren path => (LocalFile.getPathChildren fs path).map fun child =>
      .remove .get (subPath path child)
  | .getFileValue path cb thisTimestamp =>
      match LocalFile.getFileValue fs path with
      | none => []
      | some (err, value) => onValue path cb thisTimestamp err value
  | _ => []

variable {s s' : State} {a : Action} {cb : Callback} {path : Path} {d : ℕ}

/-- Each step leaves the stream alone, puts a task behind it, puts what the poll has found in
front of it, or runs its first section. -/
lemma stream_step (hs : s.step a = some s') :
    (s'.stream = s.stream ∧ s'.calls = s.calls) ∨
    (∃ task : Task, s'.stream = s.stream ++ task.body ∧ s'.calls = s.calls ∧
      ((∃ id report rest, a = .advance id ∧ s.threads id = .addTask report rest ∧
          task = .report report) ∨
        ∃ path watchType, a = .removeWatches path watchType ∧ s'.next = s.next + 1 ∧
          task = .removeWatches path watchType s.next)) ∨
    (∃ k path it last, a = .check k path ∧ s.iteration = some it ∧
      (it.copies k).last.lookup path = some last ∧ s'.calls = s.calls ∧
      s'.stream = onCheck k path last (look s.fs k path) ((it.copies k).entry.lookup path) ++
        s.stream) ∨
    ∃ tasks copies step todo rest, a = .proceed ∧
      s.iteration = some ⟨tasks, copies, step :: todo⟩ ∧ s.stream = step :: rest ∧
      s'.stream = step.leads s.fs ++ rest ∧ s'.calls = s.calls ++ step.calls := by
  cases a with
  | advance id =>
      have hs' := State.advance_cases hs
      rw [State.advance] at hs'
      cases hp : s.threads id with
      -- only a section that queues a report changes the stream
      | returned => rw [hp] at hs'; simp at hs'
      | addTask report rest =>
          rw [hp] at hs'
          obtain rfl := Option.some.inj hs'
          refine Or.inr (Or.inl ⟨.report report, ?_, rfl, Or.inl ⟨id, report, rest, rfl, hp, rfl⟩⟩)
          simp [State.stream, State.goto, State.addTask]
      | _ =>
          rw [hp] at hs'
          obtain rfl := Option.some.inj hs'
          exact Or.inl ⟨rfl, rfl⟩
  | wake =>
      obtain ⟨hnone, rfl⟩ := State.wake_cases hs
      exact Or.inl ⟨by simp [State.stream, hnone], rfl⟩
  | task =>
      obtain ⟨task, tasks, copies, hit, rfl⟩ := State.task_cases hs
      exact Or.inl ⟨by simp [State.stream, hit], rfl⟩
  | finish =>
      obtain ⟨it, hit, ⟨htasks, htodo, -⟩, rfl⟩ := State.finish_cases hs
      exact Or.inl ⟨by simp [State.stream, hit, htasks, htodo], rfl⟩
  | check k path =>
      obtain ⟨it, last, hit, ⟨htasks, htodo, -⟩, hlast, rfl⟩ := State.check_cases hs
      exact Or.inr (Or.inr (Or.inl ⟨k, path, it, last, rfl, hit, hlast, rfl,
        by simp [State.stream, hit, htasks, htodo]⟩))
  | proceed =>
      obtain ⟨tasks, copies, step, todo, hit, rfl⟩ := State.proceed_cases hs
      -- the section is the first of the stream, and what it leads to takes its place
      have hrun : ∀ {u : State}, u.taskQueue = s.taskQueue →
          u.iteration = some ⟨tasks, copies, step.leads s.fs ++ todo⟩ →
          u.calls = s.calls ++ step.calls → ∃ tasks copies step' todo rest,
            Action.proceed = .proceed ∧ s.iteration = some ⟨tasks, copies, step' :: todo⟩ ∧
            s.stream = step' :: rest ∧ u.stream = step'.leads s.fs ++ rest ∧
            u.calls = s.calls ++ step'.calls := by
        intro u hq hu hc
        refine ⟨tasks, copies, step, todo,
          todo ++ tasks.flatMap Task.body ++ s.taskQueue.flatMap Task.body, rfl, hit, ?_, ?_, hc⟩
        · rw [State.stream, hit]
          rfl
        · rw [State.stream, hu, hq]
          simp
      cases step with
      | call call =>
          cases call with
          | none => exact Or.inl ⟨rfl, rfl⟩
          | some call =>
              refine Or.inr (Or.inr (Or.inr (hrun ?_ ?_ ?_)))
              all_goals rfl
      | getFileValue path' cb' t =>
          cases hv : LocalFile.getFileValue s.fs path' with
          | none => exact Or.inl (by simp [State.runStep, hv, State.stream])
          | some r =>
              refine Or.inr (Or.inr (Or.inr (hrun ?_ ?_ ?_)))
              all_goals simp [State.runStep, hv, Step.leads, Step.calls]
      | _ =>
          refine Or.inr (Or.inr (Or.inr (hrun ?_ ?_ ?_)))
          · rfl
          · rfl
          · exact (List.append_nil _).symm
  | removeWatches path watchType =>
      obtain rfl := State.removeWatches_cases hs
      refine Or.inr (Or.inl ⟨.removeWatches path watchType s.next, ?_, rfl,
        Or.inr ⟨path, watchType, rfl, rfl, rfl⟩⟩)
      simp [State.stream, State.removeWatches, State.addTask]
  | change fs =>
      obtain rfl := State.change_cases hs
      exact Or.inl ⟨rfl, rfl⟩
  | _ =>
      obtain rfl := State.enter_cases rfl hs
      exact Or.inl ⟨rfl, rfl⟩

/-! ## The condition -/

/-- The path whose children are to be listed. -/
def Step.lists : Step → Option Path
  | .removeChildren path => some path
  | _ => none

/-- The removal that is told to be done. -/
def Step.removal : Step → Option ℕ
  | .call (some (.removed id .ok)) => some id
  | _ => none

/-- The poll looks at a path whose callback is in its copies and not in the map any more, and
finds a change; or the removal of the children of a path, the last section of the task `d` before
it tells ok, does not take out the path of a callback that is in the map: the child is not in the
directory, or `path` ends in a separator and the callback is at the path of the entry. -/
def Misses (path : Path) (d : ℕ) (cb : Callback) (s : State) : Action → Prop
  | .check k path' => k = cb.kind ∧ path' = cb.path ∧
      (s.monitors k).entry.lookup path' ≠ some cb ∧ ∃ it ∈ s.iteration,
        (it.copies k).entry.lookup path' = some cb ∧
          (it.copies k).last.lookup path' ≠ some (look s.fs k path')
  | .proceed => s.stream.head?.bind Step.lists = some path ∧
      s.stream.tail.head?.bind Step.removal = some d ∧
      (s.monitors .get).entry.lookup cb.path = some cb ∧
      cb.path ∉ (getPathChildren s.fs path).map (subPath path)
  | _ => False

instance (path : Path) (d : ℕ) (cb : Callback) (s : State) : DecidablePred (Misses path d cb s)
  | .check k path' =>
      inferInstanceAs (Decidable (k = cb.kind ∧ path' = cb.path ∧
        (s.monitors k).entry.lookup path' ≠ some cb ∧ ∃ it ∈ s.iteration,
          (it.copies k).entry.lookup path' = some cb ∧
            (it.copies k).last.lookup path' ≠ some (look s.fs k path')))
  | .proceed =>
      inferInstanceAs (Decidable (s.stream.head?.bind Step.lists = some path ∧
        s.stream.tail.head?.bind Step.removal = some d ∧
        (s.monitors .get).entry.lookup cb.path = some cb ∧
        cb.path ∉ (getPathChildren s.fs path).map (subPath path)))
  | .change _ | .existsPath .. | .getPathValue .. | .getSubPath .. | .removeWatches ..
  | .advance _ | .wake | .task | .finish => instDecidableFalse

/-- A removal of the children of the root takes out `//c`, not `/c`. -/
example : Covers ['/'] 1 ⟨.get, ['/', 'c'], 0⟩ ∧ ['/', 'c'] ∉ [['c']].map (subPath ['/']) :=
  ⟨Or.inr ⟨rfl, ['c'], by decide, by decide, Or.inl rfl⟩, by decide⟩

/-! ## The invariants -/

/-- A section that calls the callback, or is going to. -/
def Step.Tells (cb : Callback) : Step → Prop
  | .call (some c) => c.cb? = some cb
  | .getFileValue _ cb' _ => cb' = some cb
  | _ => False

/-- The call of the callback has returned: it is not entered any more, and not reported. -/
structure Returned (cb : Callback) (s : State) : Prop where
  base : Base s
  lt_next : cb.id < s.next
  returned : s.threads cb.id = .returned

/-- The removal has still to tell ok.  No report of the callback is queued behind it, and while
the callback is in the map its removal comes before. -/
structure Pending (path : Path) (d : ℕ) (cb : Callback) (s : State) : Prop where
  returned : Returned cb s
  lt_next : d < s.next
  calls : .removed d .ok ∉ s.calls
  stream : ∃ before after, s.stream = before ++ .call (some (.removed d .ok)) :: after ∧
    (∀ step ∈ before ++ after, step.removal ≠ some d) ∧
    (∀ step ∈ after, ¬ step.Tells cb) ∧
    ((s.monitors cb.kind).entry.lookup cb.path = some cb →
      .remove cb.kind cb.path ∈ before ∨
        cb.kind = .get ∧ before.getLast? = some (.removeChildren path))

/-- The removal has told ok: the callback is not in the map, and nothing is going to call it. -/
structure Gone (cb : Callback) (s : State) : Prop where
  returned : Returned cb s
  entry : (s.monitors cb.kind).entry.lookup cb.path ≠ some cb
  stream : ∀ step ∈ s.stream, ¬ step.Tells cb

lemma Returned.step (h : Returned cb s) (hs : s.step a = some s') : Returned cb s' := by
  obtain ⟨hnext, heq | rfl | ⟨heq, -⟩⟩ := threads_step hs cb.id
  · exact ⟨h.base.step hs, h.lt_next.trans_le hnext, heq.trans h.returned⟩
  · exact absurd h.returned (threads_advance (State.advance_cases hs)).1
  · exact absurd heq h.lt_next.ne

/-- A callback whose call has returned is not entered. -/
lemma Returned.entry (h : Returned cb s) (hs : s.step a = some s') {k : Kind} {path' : Path}
    (hcb : (s'.monitors k).entry.lookup path' = some cb) :
    (s.monitors k).entry.lookup path' = some cb := by
  rcases entry_step k path' hs with ⟨id, rfl⟩ | heq | ⟨rfl, tasks, copies, todo, hit⟩
  · rcases lookup_advance (State.advance_cases hs) hcb with hold | ⟨rfl, -, -, last, hp⟩
    · exact hold
    · have hret := h.returned
      rw [hp] at hret
      simp at hret
  · exact heq ▸ hcb
  · exact absurd (Registry.mem_of_lookup hcb) (lookup_proceed_remove hit hs)

/-- The report that a thread queues is not one of a call that has returned. -/
lemma Returned.report (h : Returned cb s) {id : ℕ} {report : Call} {rest : Progress}
    (hp : s.threads id = .addTask report rest) : report.cb? ≠ some cb := by
  intro hcb
  have hprog := h.base.progress id
  rw [hp] at hprog
  have hid := to_unique hprog.2.1 (to_iff.mpr ⟨cb, hcb, rfl⟩)
  have hret := h.returned
  rw [← hid, hp] at hret
  simp at hret

/-! ### What is added to the stream -/

lemma tells_onCheck {k : Kind} {path' : Path} {last this : k.Last} {cb' : Option Callback}
    {step : Step} (hstep : step ∈ onCheck k path' last this cb') :
    step.removal = none ∧ ∀ cb, step.Tells cb → cb' = some cb ∧ last ≠ this := by
  rw [onCheck] at hstep
  split_ifs at hstep with heq
  · simp at hstep
  cases cb' with
  | none =>
      cases k <;>
        · simp only [onChange, Option.map_none, List.mem_cons, List.not_mem_nil, or_false] at hstep
          rcases hstep with rfl | rfl <;> simp [Step.removal, Step.Tells]
  | some cb' =>
      cases k with
      | exist =>
          simp only [onChange, Option.map_some, List.mem_cons, List.not_mem_nil, or_false] at hstep
          rcases hstep with rfl | rfl
          · simp [Step.removal, Step.Tells]
          · cases last <;> exact ⟨rfl, fun _ h => ⟨h, heq⟩⟩
      | get =>
          simp only [onChange, List.mem_singleton] at hstep
          subst hstep
          exact ⟨rfl, fun _ h => ⟨h, heq⟩⟩
      | sub =>
          simp only [onChange, Option.map_some, List.mem_cons, List.not_mem_nil, or_false] at hstep
          rcases hstep with rfl | rfl
          · simp [Step.removal, Step.Tells]
          · exact ⟨rfl, fun _ h => ⟨h, heq⟩⟩

lemma tells_leads {fs : FileSystem} {step step' : Step} (h : step' ∈ step.leads fs) :
    step'.removal = none ∧ ∀ cb, step'.Tells cb → step.Tells cb := by
  cases step with
  | removeChildren path' =>
      obtain ⟨child, -, rfl⟩ := List.mem_map.mp h
      simp [Step.removal, Step.Tells]
  | getFileValue path' cb' t =>
      rw [Step.leads] at h
      split at h
      · simp at h
      · rw [onValue] at h
        split_ifs at h <;>
          · simp only [List.mem_cons, List.not_mem_nil, or_false] at h
            rcases h with rfl | rfl <;> cases cb' <;> simp [Step.removal, Step.Tells, Call.cb?]
  | _ => simp [Step.leads] at h

lemma tells_removeWatches {path' : Path} {watchType id : ℕ} {step : Step}
    (h : step ∈ (Task.removeWatches path' watchType id).body) :
    (∀ cb, ¬ step.Tells cb) ∧ (step.removal = none ∨ step.removal = some id) := by
  rw [Task.body] at h
  split_ifs at h <;>
    · simp only [List.mem_cons, List.not_mem_nil, or_false] at h
      rcases h with rfl | rfl | rfl | rfl <;> simp [Step.removal, Step.Tells, Call.cb?]

lemma removal_of_mem_calls {step : Step} (h : .removed d .ok ∈ step.calls) :
    step.removal = some d := by
  cases step with
  | call call =>
      cases call with
      | none => simp [Step.calls] at h
      | some call =>
          obtain rfl := List.mem_singleton.mp h
          rfl
  | _ => simp [Step.calls] at h

/-- A task that is queued reports of other callbacks, and a removal has a new number. -/
lemma Returned.queued (h : Returned cb s) {task : Task}
    (htask : (∃ id report rest, a = .advance id ∧ s.threads id = .addTask report rest ∧
        task = .report report) ∨
      ∃ path watchType, a = .removeWatches path watchType ∧ s'.next = s.next + 1 ∧
        task = .removeWatches path watchType s.next) {step : Step} (hstep : step ∈ task.body) :
    ¬ step.Tells cb ∧ (step.removal = none ∨ step.removal = some s.next) := by
  rcases htask with ⟨id, report, rest, -, hp, rfl⟩ | ⟨path', watchType, -, -, rfl⟩
  · obtain rfl := List.mem_singleton.mp hstep
    refine ⟨h.report hp, Or.inl ?_⟩
    have hprog := h.base.progress id
    rw [hp] at hprog
    obtain ⟨cb', hcb', -⟩ := to_iff.mp hprog.2.1
    cases report with
    | removed id' err => simp [Call.cb?] at hcb'
    | _ => rfl
  · exact (tells_removeWatches hstep).imp_left fun h => h cb

/-! ### The steps -/

/-- Nothing calls the callback, and the poll does not find it in its copies. -/
lemma Gone.step (h : Gone cb s) (hm : ¬ Misses path d cb s a) (hs : s.step a = some s') :
    Gone cb s' ∧ s'.callsOf cb = s.callsOf cb := by
  have hret := h.returned.step hs
  have hentry : (s'.monitors cb.kind).entry.lookup cb.path ≠ some cb :=
    fun hcb => h.entry (h.returned.entry hs hcb)
  rcases stream_step hs with ⟨hstream, hcalls⟩ | ⟨task, hstream, hcalls, htask⟩ |
    ⟨k, path', it, last, rfl, hit, hlast, hcalls, hstream⟩ |
    ⟨tasks, copies, step, todo, rest, rfl, hit, hold, hstream, hcalls⟩
  · exact ⟨⟨hret, hentry, hstream ▸ h.stream⟩, by rw [State.callsOf, hcalls, State.callsOf]⟩
  · -- a task is queued behind, which tells a callback that has returned nothing
    refine ⟨⟨hret, hentry, fun step hstep => ?_⟩, by rw [State.callsOf, hcalls, State.callsOf]⟩
    rw [hstream] at hstep
    rcases List.mem_append.mp hstep with hstep | hstep
    · exact h.stream step hstep
    · exact (h.returned.queued htask hstep).1
  · refine ⟨⟨hret, hentry, fun step hstep htells => ?_⟩,
      by rw [State.callsOf, hcalls, State.callsOf]⟩
    rw [hstream] at hstep
    rcases List.mem_append.mp hstep with hstep | hstep
    · -- a change has been found of the callback, which is in the copies only
      obtain ⟨hcopy, hne⟩ := (tells_onCheck hstep).2 cb htells
      obtain ⟨hown, -⟩ := h.returned.base.copied it hit k path' cb hcopy
      obtain rfl := hown.kind
      obtain rfl := hown.path
      refine hm ⟨rfl, rfl, h.entry, it, hit, hcopy, ?_⟩
      rw [hlast]
      exact fun heq => hne (Option.some.inj heq)
    · exact h.stream step hstep htells
  · have hhead := h.stream step (hold ▸ List.mem_cons_self)
    refine ⟨⟨hret, hentry, fun step' hstep htells => ?_⟩, ?_⟩
    · rw [hstream] at hstep
      rcases List.mem_append.mp hstep with hstep | hstep
      · exact hhead ((tells_leads hstep).2 cb htells)
      · exact h.stream step' (hold ▸ List.mem_cons_of_mem _ hstep) htells
    · -- the section that runs does not tell the callback, so it makes no call of it
      have hnil : step.calls.filter (fun call => call.cb? = some cb) = [] := by
        refine List.filter_eq_nil_iff.mpr fun call hcall => ?_
        cases step with
        | call c =>
            cases c with
            | none => simp [Step.calls] at hcall
            | some c =>
                obtain rfl := List.mem_singleton.mp hcall
                simpa [Step.Tells] using hhead
        | _ => simp [Step.calls] at hcall
      rw [State.callsOf, hcalls, List.filter_append, hnil, List.append_nil, State.callsOf]

/-- The removal runs, and then tells ok. -/
lemma Pending.step (h : Pending path d cb s) (hm : ¬ Misses path d cb s a)
    (hs : s.step a = some s') : Pending path d cb s' ∨ Gone cb s' := by
  have hret := h.returned.step hs
  have hlt : d < s'.next := h.lt_next.trans_le (threads_step hs 0).1
  have hentry : (s'.monitors cb.kind).entry.lookup cb.path = some cb →
      (s.monitors cb.kind).entry.lookup cb.path = some cb := h.returned.entry hs
  -- the stream splits at the ok of the removal, and the callback is taken out in `before`
  obtain ⟨before, after, hold, hrem, hafter, hstored⟩ := h.stream
  rcases stream_step hs with ⟨hstream, hcalls⟩ | ⟨task, hstream, hcalls, htask⟩ |
    ⟨k, path', it, last, rfl, hit, hlast, hcalls, hstream⟩ |
    ⟨tasks, copies, step, todo, rest, rfl, hit, hhead, hstream, hcalls⟩
  · exact Or.inl ⟨hret, hlt, hcalls ▸ h.calls, before, after, hstream.trans hold, hrem, hafter,
      fun hcb => hstored (hentry hcb)⟩
  · -- a task is queued behind
    refine Or.inl ⟨hret, hlt, hcalls ▸ h.calls, before, after ++ task.body, ?_, fun step hstep => ?_,
      fun step hstep => ?_, fun hcb => hstored (hentry hcb)⟩
    · rw [hstream, hold, List.append_assoc, List.cons_append]
    · rw [← List.append_assoc] at hstep
      rcases List.mem_append.mp hstep with hstep | hstep
      · exact hrem step hstep
      · rcases (h.returned.queued htask hstep).2 with hnone | hnext
        · simp [hnone]
        · rw [hnext]
          simpa using h.lt_next.ne'
    · rcases List.mem_append.mp hstep with hstep | hstep
      · exact hafter step hstep
      · exact (h.returned.queued htask hstep).1
  · -- the poll has found a change
    refine Or.inl ⟨hret, hlt, hcalls ▸ h.calls,
      onCheck k path' last (look s.fs k path') ((it.copies k).entry.lookup path') ++ before, after,
      ?_, fun step hstep => ?_, hafter, fun hcb => ?_⟩
    · rw [hstream, hold, ← List.append_assoc]
    · rw [List.append_assoc] at hstep
      rcases List.mem_append.mp hstep with hstep | hstep
      · simp [(tells_onCheck hstep).1]
      · exact hrem step hstep
    · rcases hstored (hentry hcb) with hin | ⟨hk, hl⟩
      · exact Or.inl (List.mem_append_right _ hin)
      · refine Or.inr ⟨hk, ?_⟩
        rw [List.getLast?_append, hl]
        rfl
  · cases before with
    | nil =>
        -- ok is told
        rw [hhead] at hold
        obtain ⟨rfl, rfl⟩ := List.cons.inj hold
        refine Or.inr ⟨hret, fun hcb => ?_, hstream ▸ hafter⟩
        rcases hstored (hentry hcb) with hin | ⟨-, hl⟩
        · simp at hin
        · simp at hl
    | cons step' before =>
        rw [hhead] at hold
        obtain ⟨rfl, rfl⟩ := List.cons.inj hold
        refine Or.inl ⟨hret, hlt, ?_, step.leads s.fs ++ before, after, ?_, fun st hst => ?_, hafter,
          fun hcb => ?_⟩
        · rw [hcalls]
          refine fun hin => (List.mem_append.mp hin).elim h.calls fun hin => ?_
          exact hrem step List.mem_cons_self (removal_of_mem_calls hin)
        · rw [hstream, List.append_assoc]
          rfl
        · rw [List.append_assoc] at hst
          rcases List.mem_append.mp hst with hst | hst
          · simp [(tells_leads hst).1]
          · exact hrem st (List.mem_cons_of_mem _ hst)
        · rcases hstored (hentry hcb) with hin | ⟨hk, hl⟩
          · rcases List.mem_cons.mp hin with rfl | hin
            · exact absurd (Registry.mem_of_lookup hcb) (lookup_proceed_remove hit hs)
            · exact Or.inl (List.mem_append_right _ hin)
          · cases before with
            | nil =>
                obtain rfl : step = .removeChildren path := by simpa using hl
                have hlisted : cb.path ∈ (getPathChildren s.fs path).map (subPath path) := by
                  -- a child that is not listed is missed, which is excluded
                  by_contra hnot
                  refine hm ⟨by rw [hhead]; rfl, by rw [hhead]; rfl, ?_, hnot⟩
                  rw [← hk]
                  exact hentry hcb
                obtain ⟨child, hchild, heq⟩ := List.mem_map.mp hlisted
                refine Or.inl (List.mem_append_left _ ?_)
                rw [hk, ← heq]
                exact List.mem_map_of_mem hchild
            | cons st before =>
                refine Or.inr ⟨hk, ?_⟩
                rw [List.getLast?_cons_cons] at hl
                rw [List.getLast?_append, hl]
                rfl

/-! ### The start -/

/-- The numbers of the removals that have been called or are to be called. -/
structure Numbered (s : State) : Prop where
  base : Base s
  calls : ∀ id, .removed id .ok ∈ s.calls → id < s.next
  stream : ∀ step ∈ s.stream, ∀ id, step.removal = some id → id < s.next

lemma Numbered.step (h : Numbered s) (hs : s.step a = some s') : Numbered s' := by
  have hnext := (threads_step hs 0).1
  have hbase := h.base.step hs
  rcases stream_step hs with ⟨hstream, hcalls⟩ | ⟨task, hstream, hcalls, htask⟩ |
    ⟨k, path', it, last, rfl, hit, hlast, hcalls, hstream⟩ |
    ⟨tasks, copies, step, todo, rest, rfl, hit, hold, hstream, hcalls⟩
  · exact ⟨hbase, fun id hid => (h.calls id (hcalls ▸ hid)).trans_le hnext,
      fun step hstep id hid => (h.stream step (hstream ▸ hstep) id hid).trans_le hnext⟩
  · refine ⟨hbase, fun id hid => (h.calls id (hcalls ▸ hid)).trans_le hnext,
      fun step hstep id hid => ?_⟩
    rw [hstream] at hstep
    rcases List.mem_append.mp hstep with hstep | hstep
    · exact (h.stream step hstep id hid).trans_le hnext
    · -- a task is queued behind: a report, or a removal with the next number
      rcases htask with ⟨id', report, rest, -, hp, rfl⟩ | ⟨path', watchType, -, hn, rfl⟩
      · obtain rfl := List.mem_singleton.mp hstep
        have hprog := h.base.progress id'
        rw [hp] at hprog
        obtain ⟨cb', hcb', -⟩ := to_iff.mp hprog.2.1
        cases report with
        | removed => simp [Call.cb?] at hcb'
        | _ => simp [Step.removal] at hid
      · rcases (tells_removeWatches hstep).2 with hnone | hsome
        · rw [hnone] at hid
          simp at hid
        · rw [hsome] at hid
          obtain rfl := Option.some.inj hid
          omega
  · refine ⟨hbase, fun id hid => (h.calls id (hcalls ▸ hid)).trans_le hnext,
      fun step hstep id hid => ?_⟩
    rw [hstream] at hstep
    rcases List.mem_append.mp hstep with hstep | hstep
    · rw [(tells_onCheck hstep).1] at hid
      simp at hid
    · exact (h.stream step hstep id hid).trans_le hnext
  · -- what the first section tells has been in the stream
    have hhead := h.stream step (hold ▸ List.mem_cons_self)
    refine ⟨hbase, fun id hid => ?_, fun step' hstep id hid => ?_⟩
    · rw [hcalls] at hid
      rcases List.mem_append.mp hid with hid | hid
      · exact (h.calls id hid).trans_le hnext
      · exact (hhead id (removal_of_mem_calls hid)).trans_le hnext
    · rw [hstream] at hstep
      rcases List.mem_append.mp hstep with hstep | hstep
      · rw [(tells_leads hstep).1] at hid
        simp at hid
      · exact (h.stream step' (hold ▸ List.mem_cons_of_mem _ hstep) id hid).trans_le hnext

lemma numbered_init (fs : FileSystem) : Numbered (State.init fs) :=
  ⟨base_init fs, by simp [State.init], by simp [State.init, State.stream]⟩

/-- The sections of a removal before it tells ok. -/
def removalSteps (path : Path) (watchType : ℕ) : List Step :=
  if watchType = 0 then [.remove .exist path, .remove .get path]
  else [.remove .exist path, .remove .sub path, .removeChildren path]

lemma body_removeWatches (path : Path) (watchType id : ℕ) :
    (Task.removeWatches path watchType id).body =
      removalSteps path watchType ++ [.call (some (.removed id .ok))] := by
  rw [Task.body, removalSteps]
  split_ifs <;> rfl

/-- The removal takes out every callback that it covers, or lists the children. -/
lemma Covers.removalSteps {watchType : ℕ} (h : Covers path watchType cb) (before : List Step) :
    .remove cb.kind cb.path ∈ before ++ removalSteps path watchType ∨
      cb.kind = .get ∧
        (before ++ LocalFile.removalSteps path watchType).getLast? = some (.removeChildren path) := by
  rw [Covers] at h
  rw [LocalFile.removalSteps]
  split_ifs at h ⊢ with hw
  · obtain ⟨rfl, hk⟩ := h
    refine Or.inl (List.mem_append_right _ ?_)
    cases hkind : cb.kind with
    | sub => exact absurd hkind hk
    | _ => simp
  · rcases h with ⟨rfl, hk⟩ | ⟨hk, -⟩
    · refine Or.inl (List.mem_append_right _ ?_)
      cases hkind : cb.kind with
      | get => exact absurd hkind hk
      | _ => simp
    · exact Or.inr ⟨hk, by simp⟩

lemma Numbered.pending (h : Numbered s) {watchType : ℕ} (hcov : Covers path watchType cb)
    (hlt : cb.id < s.next) (hret : s.threads cb.id = .returned)
    (hs : s.step (.removeWatches path watchType) = some s') : Pending path s.next cb s' := by
  have hret' := (Returned.mk h.base hlt hret).step hs
  obtain rfl := State.removeWatches_cases hs
  refine ⟨hret', Nat.lt_succ_self _, fun hin => (h.calls _ hin).false,
    s.stream ++ removalSteps path watchType, [], ?_, fun step hstep hrem => ?_, by simp,
    fun _ => hcov.removalSteps _⟩
  · simp [State.stream, State.removeWatches, State.addTask, body_removeWatches]
  · rw [List.append_nil] at hstep
    rcases List.mem_append.mp hstep with hstep | hstep
    · exact (h.stream step hstep _ hrem).false
    · rw [removalSteps] at hstep
      split_ifs at hstep <;>
        · simp only [List.mem_cons, List.not_mem_nil, or_false] at hstep
          rcases hstep with rfl | rfl | rfl <;> simp [Step.removal] at hrem

/-! ## The runs -/

/-- Once a removal has told ok, no callback that it covers is called again, as long as the poll
finds no change for the callback when it is left in its copies only, and the removal takes out the
path of the callback when it goes through the children. -/
theorem removedSilent_of_not_misses {fs : FileSystem} {s₁ s₂ s₃ s₄ : State} {watchType : ℕ}
    (hr : Reach State.step (fun _ _ => True) (State.init fs) s₁)
    (hs : s₁.step (.removeWatches path watchType) = some s₂) (hcov : Covers path watchType cb)
    (hlt : cb.id < s₁.next) (hret : s₁.threads cb.id = .returned)
    (hr₃ : Reach State.step (fun s a => ¬ Misses path s₁.next cb s a) s₂ s₃)
    (hcall : .removed s₁.next .ok ∈ s₃.calls)
    (hr₄ : Reach State.step (fun s a => ¬ Misses path s₁.next cb s a) s₃ s₄) :
    s₄.callsOf cb = s₃.callsOf cb := by
  have hnum : Numbered s₁ := hr.invariant (numbered_init fs) fun _ _ _ h _ hs => h.step hs
  have h₃ : Pending path s₁.next cb s₃ ∨ Gone cb s₃ := by
    refine hr₃.invariant (I := fun s => Pending path s₁.next cb s ∨ Gone cb s)
      (Or.inl (hnum.pending hcov hlt hret hs)) fun t a u h hm hs => ?_
    rcases h with h | h
    · exact h.step hm hs
    · exact Or.inr (h.step hm hs).1
  have hgone : Gone cb s₃ := h₃.resolve_left fun h => h.calls hcall
  have h₄ : Gone cb s₄ ∧ s₄.callsOf cb = s₃.callsOf cb := by
    refine hr₄.invariant (I := fun s => Gone cb s ∧ s.callsOf cb = s₃.callsOf cb) ⟨hgone, rfl⟩ ?_
    rintro t a u ⟨h, heq⟩ hm hs
    obtain ⟨h', heq'⟩ := h.step hm hs
    exact ⟨h', heq'.trans heq⟩
  exact h₄.2

/-- `/p` is watched and its watch removed; after the iteration of the removal it is created, and
the next iteration tells nothing. -/
theorem removedSilent_of_not_misses_later : ∃ (s₃ s₄ : State) (cb : Callback),
    .removed 1 .ok ∈ s₃.calls ∧ pathExists s₃.fs ['/', 'p'] ≠ pathExists s₄.fs ['/', 'p'] ∧
      s₄.callsOf cb = s₃.callsOf cb := by
  obtain ⟨s₁, hr, hobs⟩ := exists_reach_of_exec State.step (fun _ _ => True) (State.init emptyFs)
    [.existsPath true ['/', 'p'], .advance 0, .advance 0, .advance 0]
    (fun s₁ => (s₁.next, s₁.threads 0, (s₁.step (.removeWatches ['/', 'p'] 0)).bind fun s₂ =>
      (exec State.step (fun s a => ¬ Misses ['/', 'p'] s₁.next ⟨.exist, ['/', 'p'], 0⟩ s a) s₂
        [.wake, .task, .proceed, .task, .proceed, .proceed, .proceed,
          .check .exist ['/', 'p'], .finish]).bind fun s₃ =>
        (exec State.step (fun s a => ¬ Misses ['/', 'p'] s₁.next ⟨.exist, ['/', 'p'], 0⟩ s a) s₃
          [.change (oneFile ['/', 'p'] [] 1), .wake, .finish]).map fun s₄ =>
            (s₃.calls, pathExists s₃.fs ['/', 'p'], pathExists s₄.fs ['/', 'p'])))
    (1, .returned, some ([.existed ⟨.exist, ['/', 'p'], 0⟩ .notExist .dummy, .removed 1 .ok],
      false, true)) rfl
  obtain ⟨hnext, hret, hend⟩ : s₁.next = 1 ∧ s₁.threads 0 = .returned ∧ _ = some _ := by
    simpa only [Prod.mk.injEq] using hobs
  obtain ⟨s₂, hs, hend⟩ := Option.bind_eq_some_iff.mp hend
  obtain ⟨s₃, hr₃, hend⟩ := Option.bind_eq_some_iff.mp hend
  obtain ⟨s₄, hr₄, hend⟩ := Option.map_eq_some_iff.mp hend
  obtain ⟨hcalls, hfs₃, hfs₄⟩ : s₃.calls = _ ∧ pathExists s₃.fs ['/', 'p'] = false ∧
      pathExists s₄.fs ['/', 'p'] = true := by
    simpa only [Prod.mk.injEq] using hend
  have hcall : .removed 1 .ok ∈ s₃.calls := by
    rw [hcalls]
    decide
  refine ⟨s₃, s₄, ⟨.exist, ['/', 'p'], 0⟩, hcall, by simp [hfs₃, hfs₄], ?_⟩
  exact removedSilent_of_not_misses hr hs (by simp [Covers]) (by rw [hnext]; decide) hret
    (reach_of_exec hr₃) (by rw [hnext]; exact hcall) (reach_of_exec hr₄)

end LocalFile

end ConfigMonitor
