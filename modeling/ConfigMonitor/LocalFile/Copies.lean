/-
# The copies of the poll without removals

The poll works on copies of the maps.  As long as no watch is removed by the user, the copies
agree with the maps for every path that the poll has still to deal with: only the poll writes to
an entry that is there, and only for the path it is at.
-/
import ConfigMonitor.LocalFile.Paired
import ConfigMonitor.LocalFile.Reports

namespace ConfigMonitor

namespace LocalFile

open Run

/-- A step that is no call of `remove_watches`. -/
def Action.Keeps : Action → Prop
  | .removeWatches .. => False
  | _ => True

instance : DecidablePred Action.Keeps
  | .removeWatches .. => instDecidableFalse
  | .change _ | .existsPath .. | .getPathValue .. | .getSubPath .. | .advance _ | .wake | .task
  | .proceed | .check .. | .finish => instDecidableTrue

/-- The entry that a section deals with. -/
def Step.at? : Step → Option (Kind × Path)
  | .remove k path | .update k path _ => some (k, path)
  | .getFileValue path _ _ => some (.get, path)
  | .call _ | .removeChildren _ => none

/-- A section that the poll has made in a loop of `handle_monitor_*`, or that of a report. -/
def Step.Polls : Step → Prop
  | .remove k _ => k = .get
  | .removeChildren _ => False
  | _ => True

/-- The poll is at one entry, which is there and which it has taken out of its copies; the
entries it has still to deal with are as they are in the maps. -/
structure Fresh (m : (k : Kind) → Monitors k) (it : Iteration) : Prop where
  tasks : ∀ task ∈ it.tasks, ∃ call, task = .report call
  polls : ∀ step ∈ it.todo, step.Polls
  one : it.todo.Pairwise fun a b => a.at? = none ∨ b.at? = none
  at_mem : ∀ step ∈ it.todo, ∀ k path, step.at? = some (k, path) →
    path ∉ (it.copies k).last ∧ path ∈ (m k).entry
  copies : ∀ k path last, (it.copies k).last.lookup path = some last →
    (m k).last.lookup path = some last ∧
      ∃ cb, (it.copies k).entry.lookup path = some cb ∧ (m k).entry.lookup path = some cb

/-- The invariant of the runs without a removal. -/
structure Watched (s : State) : Prop where
  base : Base s
  inv : Inv s
  queue : ∀ task ∈ s.taskQueue, ∃ call, task = .report call
  fresh : ∀ it, s.iteration = some it → Fresh s.monitors it

variable {s s' : State} {it it' : Iteration} {m m' : (k : Kind) → Monitors k}

/-- The maps change for entries that the poll is not going to deal with, or get new ones. -/
lemma Fresh.mono (h : Fresh m it) (hm : ∀ k path, (path ∈ (m k).entry → path ∈ (m' k).entry) ∧
    (∀ last, (m k).last.lookup path = some last → (m' k).last.lookup path = some last) ∧
    ∀ cb, (m k).entry.lookup path = some cb → (m' k).entry.lookup path = some cb) :
    Fresh m' it := by
  refine ⟨h.tasks, h.polls, h.one, fun step hstep k path hat => ?_, fun k path last hlast => ?_⟩
  · exact (h.at_mem step hstep k path hat).imp_right (hm k path).1
  · obtain ⟨hl, cb, hcb, hcb'⟩ := h.copies k path last hlast
    exact ⟨(hm k path).2.1 last hl, cb, hcb, (hm k path).2.2 cb hcb'⟩

/-- The first section is done, and leaves the other entries alone. -/
lemma Fresh.tail (h : Fresh m it) {step : Step} {todo : List Step} (htodo : it.todo = step :: todo)
    (hm : ∀ k path, step.at? ≠ some (k, path) →
      (m' k).last.lookup path = (m k).last.lookup path ∧
      (m' k).entry.lookup path = (m k).entry.lookup path) :
    Fresh m' { it with todo := todo } := by
  have hone := h.one
  rw [htodo, List.pairwise_cons] at hone
  refine ⟨h.tasks, fun st hst => h.polls st (htodo ▸ List.mem_cons_of_mem _ hst), hone.2,
    fun st hst k path hat => ?_, fun k path last hlast => ?_⟩
  · obtain ⟨hnot, hmem⟩ := h.at_mem st (htodo ▸ List.mem_cons_of_mem _ hst) k path hat
    have hnone : step.at? = none := (hone.1 st hst).resolve_right (by rw [hat]; simp)
    refine ⟨hnot, ?_⟩
    rw [← AList.lookup_isSome] at hmem ⊢
    rwa [(hm k path (by rw [hnone]; simp)).2]
  · obtain ⟨hl, cb, hcb, hcb'⟩ := h.copies k path last hlast
    have hne : step.at? ≠ some (k, path) := fun hat =>
      (h.at_mem step (htodo ▸ List.mem_cons_self) k path hat).1 (Registry.mem_of_lookup hlast)
    rw [(hm k path hne).1, (hm k path hne).2]
    exact ⟨hl, cb, hcb, hcb'⟩

/-- A step that writes nothing back for a removed path, since there is none. -/
lemma Watched.not_writesBackRemoved (h : Watched s) (a : Action) : ¬ WritesBackRemoved s a := by
  intro hw
  cases a with
  | proceed =>
      cases hit : s.iteration with
      | none => rw [WritesBackRemoved, hit] at hw; exact hw
      | some it =>
          have hf := h.fresh it hit
          rcases it with ⟨tasks, copies, todo⟩
          rw [WritesBackRemoved, hit] at hw
          split at hw
          · rename_i heq
            obtain rfl := congrArg Iteration.todo (Option.some.inj heq)
            exact hw (hf.at_mem _ List.mem_cons_self _ _ rfl).2
          · exact hw
  | _ => exact hw

lemma emplace_monitors (s : State) (k₀ : Kind) (path₀ : Path) (last₀ : k₀.Last) (id k path) :
    (path ∈ (s.monitors k).entry → path ∈ ((s.emplace k₀ path₀ last₀ id).monitors k).entry) ∧
    (∀ last, (s.monitors k).last.lookup path = some last →
      ((s.emplace k₀ path₀ last₀ id).monitors k).last.lookup path = some last) ∧
    ∀ cb, (s.monitors k).entry.lookup path = some cb →
      ((s.emplace k₀ path₀ last₀ id).monitors k).entry.lookup path = some cb := by
  by_cases hk : k = k₀
  · subst hk
    simp only [State.emplace, State.setMonitors, Function.update_self, Registry.register]
    exact ⟨fun hp => Registry.mem_emplace.mpr (Or.inr hp),
      fun _ => Registry.lookup_emplace_of_some, fun _ => Registry.lookup_emplace_of_some⟩
  · simp only [State.emplace, State.setMonitors, Function.update_of_ne hk]
    exact ⟨fun hp => hp, fun _ h => h, fun _ h => h⟩

/-- A section of a user thread queues reports only, and makes new entries only. -/
lemma Watched.advance (h : Watched s) {id : ℕ} (hs : s.step (.advance id) = some s') :
    Watched s' := by
  have hbase := h.base.step hs
  have hinv := h.inv.step (h.not_writesBackRemoved _) hs
  have hs' := State.advance_cases hs
  rw [State.advance] at hs'
  cases hp : s.threads id with
  | returned => rw [hp] at hs'; simp at hs'
  | addTask report rest =>
      rw [hp] at hs'
      obtain rfl := Option.some.inj hs'
      refine ⟨hbase, hinv, fun task htask => ?_, fun it hit => (h.fresh it hit).mono
        fun _ _ => ⟨fun hp => hp, fun _ hl => hl, fun _ hcb => hcb⟩⟩
      rcases List.mem_append.mp htask with htask | htask
      · exact h.queue task htask
      · exact ⟨report, List.mem_singleton.mp htask⟩
  | emplace k path last =>
      rw [hp] at hs'
      obtain rfl := Option.some.inj hs'
      exact ⟨hbase, hinv, h.queue, fun it hit => (h.fresh it hit).mono
        fun k' path' => emplace_monitors s k path last id k' path'⟩
  | _ =>
      rw [hp] at hs'
      obtain rfl := Option.some.inj hs'
      exact ⟨hbase, hinv, h.queue, fun it hit => (h.fresh it hit).mono
        fun _ _ => ⟨fun hp => hp, fun _ hl => hl, fun _ hcb => hcb⟩⟩

lemma lookup_removeMonitor_of_ne {k k' : Kind} {path path' : Path} (h : (k, path) ≠ (k', path')) :
    ((s.removeMonitor k path).monitors k').last.lookup path' = (s.monitors k').last.lookup path' ∧
      ((s.removeMonitor k path).monitors k').entry.lookup path' =
        (s.monitors k').entry.lookup path' := by
  by_cases hk : k' = k
  · subst hk
    have hp : path' ≠ path := fun hp => h (by rw [hp])
    simp [State.removeMonitor, State.setMonitors, Registry.remove, AList.lookup_erase_ne hp]
  · simp [State.removeMonitor, State.setMonitors, Function.update_of_ne hk]

lemma lookup_update_of_ne {k k' : Kind} {path path' : Path} {this : k.Last}
    (h : (k, path) ≠ (k', path')) :
    ((s.update k path this).monitors k').last.lookup path' = (s.monitors k').last.lookup path' := by
  by_cases hk : k' = k
  · subst hk
    have hp : path' ≠ path := fun hp => h (by rw [hp])
    simp [State.update, State.setMonitors, Registry.store, AList.lookup_insert_ne hp]
  · simp [State.update, State.setMonitors, Function.update_of_ne hk]

/-- Once the value has been read, the poll tells it and writes its time, or removes the monitor. -/
lemma Fresh.onValue (h : Fresh m it) {path : Path} {cb : Option Callback} {t : ℕ}
    {todo : List Step} (htodo : it.todo = .getFileValue path cb t :: todo) (err : FileError)
    (value : Str) : Fresh m { it with todo := onValue path cb t err value ++ todo } := by
  have htail : Fresh m { it with todo := todo } := h.tail htodo fun _ _ _ => ⟨rfl, rfl⟩
  have hone := h.one
  rw [htodo, List.pairwise_cons] at hone
  have hat := h.at_mem _ (htodo ▸ List.mem_cons_self) .get path rfl
  have hnone : ∀ step ∈ todo, step.at? = none := fun step hstep =>
    (hone.1 step hstep).resolve_left (by simp [Step.at?])
  have hnew : ∀ step ∈ LocalFile.onValue path cb t err value, step.Polls ∧
      (step.at? = none ∨ step.at? = some (.get, path)) := by
    intro step hstep
    rw [LocalFile.onValue] at hstep
    split_ifs at hstep <;>
      · simp only [List.mem_cons, List.not_mem_nil, or_false] at hstep
        rcases hstep with rfl | rfl <;> simp [Step.Polls, Step.at?]
  refine ⟨h.tasks, fun step hstep => ?_, ?_, fun step hstep k path' hat' => ?_, h.copies⟩
  · rcases List.mem_append.mp hstep with hstep | hstep
    · exact (hnew step hstep).1
    · exact htail.polls step hstep
  · refine List.pairwise_append.mpr ⟨?_, htail.one, fun a _ b hb => Or.inr (hnone b hb)⟩
    rw [LocalFile.onValue]
    split_ifs <;> simp [Step.at?]
  · rcases List.mem_append.mp hstep with hstep | hstep
    · rcases (hnew step hstep).2 with hn | hs
      · rw [hn] at hat'
        simp at hat'
      · rw [hs] at hat'
        obtain ⟨rfl, rfl⟩ := Prod.mk.inj (Option.some.inj hat')
        exact hat
    · exact htail.at_mem step hstep k path' hat'

lemma Watched.proceed (h : Watched s) (hs : s.step .proceed = some s') : Watched s' := by
  have hbase := h.base.step hs
  have hinv := h.inv.step (h.not_writesBackRemoved _) hs
  obtain ⟨tasks, copies, step, todo, hit, rfl⟩ := State.proceed_cases hs
  have hf := h.fresh _ hit
  cases step with
  | call call =>
      cases call with
      | none => exact ⟨hbase, hinv, h.queue, h.fresh⟩
      | some call =>
          refine ⟨hbase, hinv, h.queue, fun it hit' => ?_⟩
          obtain rfl := Option.some.inj hit'
          exact hf.tail rfl fun _ _ _ => ⟨rfl, rfl⟩
  | remove k path =>
      refine ⟨hbase, hinv, h.queue, fun it hit' => ?_⟩
      obtain rfl := Option.some.inj hit'
      exact hf.tail rfl fun k' path' hne =>
        lookup_removeMonitor_of_ne fun heq => hne (congrArg some heq)
  | removeChildren path => exact absurd (hf.polls _ List.mem_cons_self) id
  | getFileValue path cb t =>
      rw [State.runStep] at hbase hinv ⊢
      cases hv : LocalFile.getFileValue s.fs path with
      | none =>
          simp only [hv] at hbase hinv
          exact ⟨hbase, hinv, h.queue, h.fresh⟩
      | some r =>
          obtain ⟨err, value⟩ := r
          simp only [hv] at hbase hinv
          refine ⟨hbase, hinv, h.queue, fun it hit' => ?_⟩
          obtain rfl := Option.some.inj hit'
          exact hf.onValue rfl err value
  | update k path this =>
      refine ⟨hbase, hinv, h.queue, fun it hit' => ?_⟩
      obtain rfl := Option.some.inj hit'
      exact hf.tail rfl fun k' path' hne =>
        ⟨lookup_update_of_ne fun heq => hne (congrArg some heq),
          congrArg (AList.lookup path') (entry_update k k' path this)⟩

/-- What a change leads to is about the path that has been read. -/
lemma at?_onCheck {k : Kind} {path : Path} {last this : k.Last} {cb : Option Callback} {step : Step}
    (h : step ∈ onCheck k path last this cb) :
    step.Polls ∧ (step.at? = none ∨ step.at? = some (k, path)) := by
  rw [onCheck] at h
  split_ifs at h
  · simp at h
  · cases k <;>
      · simp only [onChange, List.mem_cons, List.not_mem_nil, or_false] at h
        rcases h with rfl | rfl <;> simp [Step.Polls, Step.at?]

/-- The poll goes to one of the entries it has still to deal with. -/
lemma Watched.check (h : Watched s) {k : Kind} {path : Path}
    (hs : s.step (.check k path) = some s') : Watched s' := by
  have hbase := h.base.step hs
  have hinv := h.inv.step (h.not_writesBackRemoved _) hs
  obtain ⟨it, last, hit, hdone, hlast, rfl⟩ := State.check_cases hs
  have hf := h.fresh it hit
  obtain ⟨-, cb, hcb, hcb'⟩ := hf.copies k path last hlast
  refine ⟨hbase, hinv, h.queue, fun it' hit' => ?_⟩
  obtain rfl := Option.some.inj hit'
  dsimp only
  rw [hcb]
  refine ⟨hf.tasks, fun step hstep => (at?_onCheck hstep).1, ?_, fun step hstep k' path' hat => ?_,
    fun k' path' last' hlast' => ?_⟩
  · dsimp only
    rw [onCheck]
    split_ifs
    · exact List.Pairwise.nil
    · cases k <;> simp [onChange, Step.at?]
  · -- a section at the path needs the entry, which the copies have
    rcases (at?_onCheck hstep).2 with hn | hs'
    · rw [hn] at hat
      simp at hat
    · rw [hs'] at hat
      obtain ⟨rfl, rfl⟩ := Prod.mk.inj (Option.some.inj hat)
      refine ⟨?_, Registry.mem_of_lookup hcb'⟩
      simp [AList.mem_erase]
  · -- the other entries are still in the copies
    by_cases hk : k' = k
    · subst hk
      simp only [Function.update_self] at hlast' ⊢
      by_cases hp : path' = path
      · subst hp
        simp at hlast'
      · rw [AList.lookup_erase_ne hp] at hlast'
        exact hf.copies k' path' last' hlast'
    · simp only [Function.update_of_ne hk] at hlast' ⊢
      exact hf.copies k' path' last' hlast'

lemma Watched.wake (h : Watched s) (hs : s.step .wake = some s') : Watched s' := by
  have hbase := h.base.step hs
  have hinv := h.inv.step (h.not_writesBackRemoved _) hs
  obtain ⟨-, rfl⟩ := State.wake_cases hs
  refine ⟨hbase, hinv, by simp, fun it hit => ?_⟩
  obtain rfl := Option.some.inj hit
  refine ⟨h.queue, by simp, List.Pairwise.nil, by simp, fun k path last hlast => ⟨hlast, ?_⟩⟩
  obtain ⟨cb, hcb⟩ := Registry.exists_lookup
    ((h.inv.paired k path).mp (Registry.mem_of_lookup hlast))
  exact ⟨cb, hcb, hcb⟩

theorem Watched.step (h : Watched s) {a : Action} (ha : a.Keeps) (hs : s.step a = some s') :
    Watched s' := by
  have hbase := h.base.step hs
  have hinv := h.inv.step (h.not_writesBackRemoved _) hs
  cases a with
  | advance id => exact h.advance hs
  | proceed => exact h.proceed hs
  | check k path => exact h.check hs
  | wake => exact h.wake hs
  | removeWatches path watchType => exact absurd ha id
  | task =>
      obtain ⟨task, tasks, copies, hit, rfl⟩ := State.task_cases hs
      have hf := h.fresh _ hit
      obtain ⟨call, rfl⟩ := hf.tasks task List.mem_cons_self
      refine ⟨hbase, hinv, h.queue, fun it hit' => ?_⟩
      obtain rfl := Option.some.inj hit'
      exact ⟨fun task' ht => hf.tasks task' (List.mem_cons_of_mem _ ht),
        by simp [Task.body, Step.Polls], by simp [Task.body], by simp [Task.body, Step.at?],
        hf.copies⟩
  | finish =>
      obtain ⟨it, -, -, rfl⟩ := State.finish_cases hs
      exact ⟨hbase, hinv, h.queue, by simp⟩
  | change fs =>
      obtain rfl := State.change_cases hs
      exact ⟨hbase, hinv, h.queue, fun it hit => (h.fresh it hit).mono
        fun _ _ => ⟨fun hp => hp, fun _ hl => hl, fun _ hcb => hcb⟩⟩
  | _ =>
      obtain rfl := State.enter_cases rfl hs
      exact ⟨hbase, hinv, h.queue, fun it hit => (h.fresh it hit).mono
        fun _ _ => ⟨fun hp => hp, fun _ hl => hl, fun _ hcb => hcb⟩⟩

lemma watched_init (fs : FileSystem) : Watched (State.init fs) :=
  ⟨base_init fs, inv_init fs, by simp [State.init], by simp [State.init]⟩

end LocalFile

end ConfigMonitor
