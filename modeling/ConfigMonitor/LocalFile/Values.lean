/-
# Value monitors

The value that is told and the time that is remembered come from two reads.  The poll reads the
time first, so that a change in between is found again; a registration reads the value first.
What has to hold is that the file has never had another value at the time that is remembered,
and that the time is one of a file.
-/
import ConfigMonitor.LocalFile.Alternate

namespace ConfigMonitor

namespace LocalFile

open Run

/-! ## Runs with the times of a file -/

/-- The modification time of a file. -/
def mtimes (fs : FileSystem) (path : Path) : List ℕ :=
  match fs path with
  | some (.file _ mtime) => [mtime]
  | _ => []

/-- A state, with the modification times that a file has had. -/
structure Timed where
  state : State
  times : List ℕ

/-- A write gives a file a modification time that it never had before and that is not 0. -/
def FreshTime (times : List ℕ) : Option Node → Prop
  | none => True
  | some (.file _ mtime) => mtime ≠ 0 ∧ mtime ∉ times
  | some (.dir ..) => False

instance (times : List ℕ) : DecidablePred (FreshTime times)
  | none => instDecidableTrue
  | some (.file _ mtime) => inferInstanceAs (Decidable (mtime ≠ 0 ∧ mtime ∉ times))
  | some (.dir ..) => instDecidableFalse

namespace Timed

/-- A `loc_file` that has just been initialized. -/
def init (fs : FileSystem) (path : Path) : Timed where
  state := State.init fs
  times := mtimes fs path

/-- One step. -/
def step (path : Path) (x : Timed) (a : Action) : Option Timed :=
  (x.state.step a).map fun s => { state := s, times := mtimes s.fs path ++ x.times }

/-- A step that removes no watch; other processes write to the file and delete it. -/
def Keeps (path : Path) (x : Timed) : Action → Prop
  | .change fs => fs path = x.state.fs path ∨ FreshTime x.times (fs path)
  | .removeWatches .. => False
  | _ => True

instance (path : Path) (x : Timed) : DecidablePred (x.Keeps path)
  | .change fs =>
      inferInstanceAs (Decidable (fs path = x.state.fs path ∨ FreshTime x.times (fs path)))
  | .removeWatches .. => instDecidableFalse
  | .existsPath .. | .getPathValue .. | .getSubPath .. | .advance _ | .wake | .task | .proceed
  | .check .. | .finish => instDecidableTrue

end Timed

/-! ## The property -/

/-- While the path is monitored, the callback has been told last what is in the file; and when
there is no file, that there is none. -/
def State.Agrees (s : State) (path : Path) (cb : Callback) : Prop :=
  ((s.monitors .get).entry.lookup path = some cb → ∀ value mtime,
    s.fs path = some (.file value mtime) →
      (s.callsOf cb).getLast? = some (.get cb .ok (some value))) ∧
    (s.fs path = none → (s.callsOf cb).getLast? = some (.get cb .notExist none))

/-- After a complete iteration that begins after the registration and during which the file
system does not change, the callback has been told what there is. -/
def ValuesConverge : Prop :=
  ∀ fs path (x₀ x : Timed) cb s', FreshTime [] (fs path) →
    Reach (Timed.step path) (fun x a => x.Keeps path a) (Timed.init fs path) x₀ →
    (x₀.state.monitors .get).entry.lookup path = some cb →
    Reach (Timed.step path) (fun x a => x.Keeps path a) x₀ x →
    CompleteIteration (fun _ a => a.Keeps) x.state s' → s'.Agrees path cb

/-! ## A file deleted between the two reads of a registration -/

/-- The file `/p`. -/
def fileP : FileSystem := oneFile ['/', 'p'] ['a'] 1

/-- `/p` is read and deleted, and then its time is read: 0, which is what the poll reads. -/
theorem not_valuesConverge : ¬ ValuesConverge := by
  intro h
  obtain ⟨x, hx, hobs⟩ := exists_reach_of_exec (Timed.step ['/', 'p'])
    (fun x a => x.Keeps ['/', 'p'] a) (Timed.init fileP ['/', 'p'])
    [.getPathValue true ['/', 'p'], .advance 0, .advance 0, .change emptyFs, .advance 0, .advance 0]
    (fun x => ((x.state.monitors .get).entry.lookup ['/', 'p'],
      (x.state.step .wake).bind fun t => (exec State.step (fun _ a => a.Keeps ∧ a.Still) t
        [.task, .proceed, .check .get ['/', 'p']]).bind fun u =>
          (u.step .finish).map fun s' => (s'.fs ['/', 'p'], s'.calls)))
    (some ⟨.get, ['/', 'p'], 0⟩,
      some (none, [.get ⟨.get, ['/', 'p'], 0⟩ .ok (some ['a'])])) rfl
  obtain ⟨hcb, hend⟩ := Prod.mk.inj hobs
  obtain ⟨s', hit, hs'⟩ := exists_completeIteration _ hend
  obtain ⟨hfs, hcalls⟩ := Prod.mk.inj hs'
  have hlast := (h fileP ['/', 'p'] x x _ s' (by decide) hx hcb .refl hit).2 hfs
  rw [State.callsOf, hcalls] at hlast
  exact absurd hlast (by decide)

/-! ## The exact condition -/

/-- The first report of the value that a file has. -/
def State.valueReport (s : State) (path : Path) (id : ℕ) : List Call :=
  match s.fs path with
  | some (.file value _) => [.get ⟨.get, path, id⟩ .ok (some value)]
  | _ => []

/-- A thread is at the read of the time. -/
def Progress.ReadsTime (path : Path) : Progress → Prop
  | .fileModifyTime path' => path' = path
  | _ => False

instance (path : Path) : DecidablePred (Progress.ReadsTime path)
  | .fileModifyTime path' => inferInstanceAs (Decidable (path' = path))
  | .returned | .existsPath .. | .getPathValue .. | .getSubPath .. | .getPathChildren ..
  | .addTask .. | .emplace .. => instDecidableFalse

/-- The poll is at the read of the value of a path at which it has found no file. -/
def Step.ReadsAbsent (path : Path) : Step → Prop
  | .getFileValue path' _ mtime => path' = path ∧ mtime = 0
  | _ => False

instance (path : Path) : DecidablePred (Step.ReadsAbsent path)
  | .getFileValue path' _ mtime => inferInstanceAs (Decidable (path' = path ∧ mtime = 0))
  | .call _ | .remove .. | .removeChildren _ | .update .. => instDecidableFalse

/-- A registration reads the time of a file when the value it has read and reported before is not
the one that is there; or the poll, having found no file, finds one when it reads the value. -/
def Races (path : Path) (s : State) : Action → Prop
  | .advance id => (s.threads id).ReadsTime path ∧ s.told id ≠ s.valueReport path id
  | .proceed => (∃ it ∈ s.iteration, ∃ step ∈ it.todo.head?, step.ReadsAbsent path) ∧
      s.fs path ≠ none
  | _ => False

instance (path : Path) (s : State) : DecidablePred (Races path s)
  | .advance id =>
      inferInstanceAs (Decidable ((s.threads id).ReadsTime path ∧
        s.told id ≠ s.valueReport path id))
  | .proceed =>
      inferInstanceAs (Decidable ((∃ it ∈ s.iteration, ∃ step ∈ it.todo.head?,
        step.ReadsAbsent path) ∧ s.fs path ≠ none))
  | .change _ | .existsPath .. | .getPathValue .. | .getSubPath .. | .removeWatches .. | .wake
  | .task | .check .. | .finish => instDecidableFalse

/-- The time is one of a file, and the file has had no other value at that time. -/
structure Dated (path : Path) (fs : FileSystem) (times : List ℕ) (value : Str) (mtime : ℕ) :
    Prop where
  ne_zero : mtime ≠ 0
  mem : mtime ∈ times
  value_eq : ∀ value', fs path = some (.file value' mtime) → value' = value

/-- A section is under way. -/
def State.At (s : State) (step : Step) : Prop := ∃ it, s.iteration = some it ∧ step ∈ it.todo

/-- What the callback in the map has been told last, and what the poll is at: it remembers a time
of the value, or is going to read the value, or has told that the file is gone. -/
inductive Status (path : Path) (s : State) (times : List ℕ) (cb : Callback) : Prop
  | known {value : Str} {mtime : ℕ}
      (told : (s.told cb.id).getLast? = some (.get cb .ok (some value)))
      (remembers : s.Remembers .get path mtime) (dated : Dated path s.fs times value mtime)
  | reading {mtime : ℕ} (at_read : s.At (.getFileValue path (some cb) mtime))
      (mem : mtime ≠ 0 → mtime ∈ times)
  | removing (told : (s.told cb.id).getLast? = some (.get cb .notExist none))
      (at_remove : s.At (.remove .get path))

/-- What follows a report: the entry of a value follows the read of its time. -/
def Progress.Orderly : Progress → Prop
  | .addTask _ (.addTask ..) | .addTask _ (.emplace .get ..) => False
  | _ => True

/-- The invariant. -/
structure Timely (path : Path) (s : State) (times : List ℕ) : Prop where
  watched : Watched s
  node : ∀ n, s.fs path = some n → ∃ value mtime, n = .file value mtime ∧ mtime ≠ 0 ∧ mtime ∈ times
  orderly : ∀ id, (s.threads id).Orderly
  read : ∀ id mtime value, s.threads id = .emplace .get path mtime →
    s.told id = [.get ⟨.get, path, id⟩ .ok (some value)] → Dated path s.fs times value mtime
  stored : ∀ cb, (s.monitors .get).entry.lookup path = some cb → Status path s times cb

variable {s s' : State} {a : Action} {path : Path} {times times' : List ℕ} {cb : Callback}

/-! ### What stays -/

lemma Dated.mono {fs fs' : FileSystem} {value : Str} {mtime : ℕ}
    (h : Dated path fs times value mtime) (hsub : times ⊆ times')
    (hfs : fs' path = fs path ∨ FreshTime times (fs' path)) :
    Dated path fs' times' value mtime := by
  refine ⟨h.ne_zero, hsub h.mem, fun value' hfile => ?_⟩
  rcases hfs with heq | hfresh
  · exact h.value_eq value' (heq ▸ hfile)
  · rw [hfile] at hfresh
    exact absurd h.mem hfresh.2

/-- A section that is under way stays until it is run. -/
lemma State.At.step {step : Step} (h : s.At step) (hw : Watched s) (hs : s.step a = some s') :
    s'.At step ∨ a = .proceed ∧ ∃ tasks copies todo,
      s.iteration = some { tasks := tasks, copies := copies, todo := step :: todo } := by
  obtain ⟨it, hit, hmem⟩ := h
  -- every action but a section of the iteration needs the iteration to be between two tasks
  have hidle : ¬ ∀ it', s.iteration = some it' → it'.todo = [] := fun hnil => by
    rw [hnil it hit] at hmem
    simp at hmem
  cases a with
  | advance id =>
      refine Or.inl ⟨it, ?_, hmem⟩
      rw [(threads_advance (State.advance_cases hs)).2.2.1, hit]
  | wake =>
      rw [(State.wake_cases hs).1] at hit
      simp at hit
  | task =>
      obtain ⟨_, _, _, hit', -⟩ := State.task_cases hs
      refine absurd (fun it' heq => ?_) hidle
      obtain rfl := Option.some.inj (hit'.symm.trans heq)
      rfl
  | finish =>
      obtain ⟨it₁, hit₁, ⟨-, htodo, -⟩, -⟩ := State.finish_cases hs
      refine absurd (fun it' heq => ?_) hidle
      obtain rfl := Option.some.inj (hit₁.symm.trans heq)
      exact htodo
  | check k' path' =>
      obtain ⟨it₁, _, hit₁, ⟨-, htodo, -⟩, -⟩ := State.check_cases hs
      refine absurd (fun it' heq => ?_) hidle
      obtain rfl := Option.some.inj (hit₁.symm.trans heq)
      exact htodo
  | proceed =>
      obtain ⟨tasks, copies, step', todo, hit', rfl⟩ := State.proceed_cases hs
      obtain rfl := Option.some.inj (hit.symm.trans hit')
      rcases List.mem_cons.mp hmem with rfl | hmem
      · exact Or.inr ⟨rfl, tasks, copies, todo, hit'⟩
      · obtain ⟨it₁, hit₁⟩ := exists_runStep ⟨tasks, copies, todo⟩ hit'
        exact Or.inl ⟨it₁, hit₁, (todo_runStep ⟨tasks, copies, todo⟩ hit' hit₁
          ((hw.fresh _ hit').polls _ List.mem_cons_self)).1 _ hmem⟩
  | change fs =>
      obtain rfl := State.change_cases hs
      exact Or.inl ⟨it, hit, hmem⟩
  | removeWatches path watchType =>
      obtain rfl := State.removeWatches_cases hs
      exact Or.inl ⟨it, hit, hmem⟩
  | _ =>
      obtain rfl := State.enter_cases rfl hs
      exact Or.inl ⟨it, hit, hmem⟩

/-- The poll is at one entry. -/
lemma State.At.unique {step step' : Step} (h : s.At step) (h' : s.At step') (hw : Watched s)
    (hat : step.at? ≠ none) (hat' : step'.at? ≠ none) : step = step' := by
  obtain ⟨it, hit, hmem⟩ := h
  obtain ⟨it', hit', hmem'⟩ := h'
  obtain rfl := Option.some.inj (hit.symm.trans hit')
  have : Std.Symm fun a b : Step => a.at? = none ∨ b.at? = none := ⟨fun _ _ => Or.symm⟩
  by_contra hne
  exact ((hw.fresh it hit).one.forall hmem hmem' hne).elim hat hat'

/-- When the poll is at an entry, what is remembered is under way. -/
lemma State.Remembers.not_at {mtime : ℕ} (h : s.Remembers .get path mtime) (hw : Watched s)
    {step : Step} (hstep : s.At step) (hat : step.at? = some (.get, path)) :
    step = .update .get path mtime := by
  rcases h with hup | ⟨hno, -⟩
  · exact hstep.unique hup hw (by rw [hat]; simp) (by simp [Step.at?])
  · obtain ⟨it, hit, hmem⟩ := hstep
    exact absurd hat (hno it hit step hmem)

/-- At most one thing is to be said of a callback. -/
lemma Status.of_reading (h : Status path s times cb) (hw : Watched s) {cb' : Option Callback}
    {mtime : ℕ} (hat : s.At (.getFileValue path cb' mtime)) :
    cb' = some cb ∧ (mtime ≠ 0 → mtime ∈ times) := by
  cases h with
  | known told remembers dated =>
      have heq := remembers.not_at hw hat rfl
      simp at heq
  | reading at_read mem =>
      have heq := hat.unique at_read hw (by simp [Step.at?]) (by simp [Step.at?])
      obtain ⟨-, rfl, rfl⟩ := Step.getFileValue.inj heq
      exact ⟨rfl, mem⟩
  | removing told at_remove =>
      have heq := hat.unique at_remove hw (by simp [Step.at?]) (by simp [Step.at?])
      simp at heq

lemma Status.of_removing (h : Status path s times cb) (hw : Watched s)
    (hat : s.At (.remove .get path)) : (s.told cb.id).getLast? = some (.get cb .notExist none) := by
  cases h with
  | known told remembers dated =>
      have heq := remembers.not_at hw hat rfl
      simp at heq
  | reading at_read mem =>
      have heq := hat.unique at_read hw (by simp [Step.at?]) (by simp [Step.at?])
      simp at heq
  | removing told at_remove => exact told

/-! ### The steps -/

/-- The poll reads the value: it tells it, or that there is none. -/
lemma Watched.told_value (h : Watched s) {tasks : List Task} {copies : (k : Kind) → Monitors k}
    {todo : List Step} {mtime : ℕ} {err : FileError} {value : Str}
    (hit : s.iteration = some ⟨tasks, copies, .getFileValue path (some cb) mtime :: todo⟩)
    (hv : LocalFile.getFileValue s.fs path = some (err, value)) (hs : s.step .proceed = some s') :
    (s'.told cb.id).getLast? = some (if err ≠ .ok then .get cb .notExist none
      else .get cb .ok (some value)) ∧
      s'.iteration = some ⟨tasks, copies, onValue path (some cb) mtime err value ++ todo⟩ ∧
      s'.monitors = s.monitors := by
  obtain ⟨tasks', copies', step, todo', hit', rfl⟩ := State.proceed_cases hs
  obtain ⟨rfl, rfl, heq⟩ := Iteration.mk.inj (Option.some.inj (hit.symm.trans hit'))
  obtain ⟨rfl, rfl⟩ := List.cons.inj heq
  have htold := h.base.told_proceed hit rfl cb.id
  simp only [hv] at htold
  refine ⟨?_, ?_, ?_⟩
  · rw [htold, onValue]
    have hto : ∀ err val, (Call.get cb err val).To cb.id = true :=
      fun err val => to_iff.mpr ⟨cb, rfl, rfl⟩
    split_ifs <;> simp [Step.calls, hto]
  · rw [State.runStep, hv]
  · rw [State.runStep, hv]

/-- Nothing is told while the poll does not read the value for the callback. -/
lemma Watched.told_get (h : Watched s) (hown : s.Owns .get path cb)
    (hread : a = .proceed → ∀ tasks copies todo mtime,
      s.iteration ≠ some ⟨tasks, copies, .getFileValue path (some cb) mtime :: todo⟩)
    (hs : s.step a = some s') : s'.told cb.id = s.told cb.id := by
  by_cases hcheck : a = .check .get path
  · subst hcheck
    obtain ⟨it, last, hit, hdone, -, rfl⟩ := State.check_cases hs
    refine (h.base.told_check hit hdone cb.id).trans ?_
    rw [onCheck]
    split_ifs <;> simp [onChange, Step.calls]
  · refine h.base.told_eq hown hcheck (fun heq _ it t hit htodo => ?_) hs
    rcases it with ⟨tasks, copies, todo⟩
    subst htodo
    exact hread heq tasks copies [] t hit

/-- What is said of a callback stays true, unless the poll looks at its path or takes it out. -/
lemma Status.step (h : Status path s times cb) (hw : Watched s) (hown : s.Owns .get path cb)
    (ha : a.Keeps) (hrace : ¬ Races path s a)
    (hnode : ∀ n, s.fs path = some n → ∃ value mtime, n = .file value mtime)
    (hsub : times ⊆ times') (hfs : s'.fs path = s.fs path ∨ FreshTime times (s'.fs path))
    (hne : a ≠ .check .get path) (hs : s.step a = some s') :
    Status path s' times' cb ∨ a = .proceed ∧ ∃ tasks copies todo,
      s.iteration = some ⟨tasks, copies, .remove .get path :: todo⟩ := by
  cases h with
  | known told remembers dated =>
      -- a section at the path can only write what is remembered, so nothing is told
      refine Or.inl (.known ?_ (remembers.step hw ha hne hs) (dated.mono hsub hfs))
      rw [hw.told_get hown (fun _ tasks copies todo mtime hit => ?_) hs]
      · exact told
      · have heq := remembers.not_at hw ⟨_, hit, List.mem_cons_self⟩ rfl
        simp at heq
  | removing told at_remove =>
      -- the section that takes the callback out is the only one at the path
      rcases at_remove.step hw hs with hat | ⟨rfl, tasks, copies, todo, hit⟩
      · refine Or.inl (.removing ?_ hat)
        rw [hw.told_get hown (fun _ tasks copies todo mtime hit => ?_) hs]
        · exact told
        · have heq := at_remove.unique ⟨_, hit, List.mem_cons_self⟩ hw (by simp [Step.at?])
            (by simp [Step.at?])
          simp at heq
      · exact Or.inr ⟨rfl, tasks, copies, todo, hit⟩
  | @reading mtime at_read mem =>
      -- the read that is under way is run, or waits
      rcases at_read.step hw hs with hat | ⟨rfl, tasks, copies, todo, hit⟩
      · exact Or.inl (.reading hat fun hne => hsub (mem hne))
      · have hfs' : s'.fs = s.fs := fs_step (by simp) hs
        cases hn : s.fs path with
        | none =>
            obtain ⟨htold, hit', -⟩ := hw.told_value hit (getFileValue_none hn) hs
            exact Or.inl (.removing htold ⟨_, hit', by simp [onValue]⟩)
        | some n =>
            obtain ⟨value, mtime', rfl⟩ := hnode n hn
            obtain ⟨htold, hit', -⟩ := hw.told_value hit (getFileValue_file hn) hs
            -- the time the poll has read is one of a file
            have hne : mtime ≠ 0 := by
              rintro rfl
              refine hrace ?_
              rw [Races, hit]
              exact ⟨⟨_, rfl, _, rfl, rfl, rfl⟩, by simp [hn]⟩
            refine Or.inl (.known htold (Or.inl ⟨_, hit', by simp [onValue]⟩)
              ⟨hne, hsub (mem hne), fun value' hfile => ?_⟩)
            rw [hfs', hn] at hfile
            obtain ⟨rfl, -⟩ := Node.file.inj (Option.some.inj hfile)
            rfl

/-- The poll looks at the path: nothing has changed, or it is going to read the value. -/
lemma Status.check (h : Status path s times cb) (hw : Watched s) (hown : s.Owns .get path cb)
    (hcb : (s.monitors .get).entry.lookup path = some cb)
    (hnode : ∀ n, s.fs path = some n → ∃ value mtime, n = .file value mtime ∧ mtime ∈ times)
    (hsub : times ⊆ times') (hs : s.step (.check .get path) = some s') :
    Status path s' times' cb ∧ ((∃ mtime, s'.At (.getFileValue path (some cb) mtime)) ∨
      ∃ value mtime, s.fs path = some (.file value mtime) ∧
        (s'.told cb.id).getLast? = some (.get cb .ok (some value))) := by
  have htold := hw.told_get hown (fun h => by simp at h) hs
  obtain ⟨it, last, hit, hdone, hlast, rfl⟩ := State.check_cases hs
  obtain ⟨hlast', cb', hcopy, hcb'⟩ := (hw.fresh it hit).copies .get path last hlast
  obtain rfl := Option.some.inj (hcb.symm.trans hcb')
  -- between two tasks no section is under way, so the callback is up to date
  have hnot : ∀ step, ¬ s.At step := by
    rintro step ⟨it', hit', hmem⟩
    obtain rfl := Option.some.inj (hit.symm.trans hit')
    rw [hdone.2.1] at hmem
    simp at hmem
  cases h with
  | reading at_read => exact absurd at_read (hnot _)
  | removing _ at_remove => exact absurd at_remove (hnot _)
  | @known value mtime told remembers dated =>
      have hv := remembers.lookup fun it' hit' => by
        obtain rfl := Option.some.inj (hit.symm.trans hit')
        exact hdone.2.1
      obtain rfl := Option.some.inj (hlast'.symm.trans hv)
      rw [← htold] at told
      by_cases heq : last = look s.fs .get path
      · -- the file is there, at the time that is remembered
        refine ⟨.known told (Or.inr ⟨fun it' hit' => ?_, hlast'⟩) (dated.mono hsub (Or.inl rfl)),
          Or.inr ?_⟩
        · obtain rfl := Option.some.inj hit'
          simp [onCheck, heq]
        · cases hn : s.fs path with
          | none =>
              rw [look, fileModifyTime_none hn] at heq
              exact absurd heq dated.ne_zero
          | some n =>
              obtain ⟨value', mtime', rfl, -⟩ := hnode n hn
              rw [look, fileModifyTime_file hn] at heq
              subst heq
              exact ⟨value', _, rfl, dated.value_eq value' hn ▸ told⟩
      · -- the time differs: the poll is going to read the value
        have hat : ∃ it', (some it' : Option Iteration) = some { it with
            copies := Function.update it.copies .get
              { it.copies .get with last := (it.copies .get).last.erase path }
            todo := onCheck .get path last (look s.fs .get path)
              ((it.copies .get).entry.lookup path) } ∧
            .getFileValue path (some cb) (look s.fs .get path) ∈ it'.todo :=
          ⟨_, rfl, by simp [onCheck, heq, onChange, hcopy]⟩
        obtain ⟨it', hit', hmem⟩ := hat
        refine ⟨.reading ⟨it', hit'.symm, hmem⟩ fun hne => ?_, Or.inl ⟨_, it', hit'.symm, hmem⟩⟩
        cases hn : s.fs path with
        | none =>
            rw [look, fileModifyTime_none hn] at hne
            exact absurd rfl hne
        | some n =>
            obtain ⟨value', mtime', rfl, hmem'⟩ := hnode n hn
            rw [look, fileModifyTime_file hn]
            exact hsub hmem'

lemma Progress.Orderly.advance {i : ℕ} (h : (s.threads i).Orderly)
    (hs : s.advance i = some s') : (s'.threads i).Orderly ∧
      ∀ path' mtime, s'.threads i = .emplace .get path' mtime →
        s.threads i = .fileModifyTime path' ∧ mtime = (LocalFile.fileModifyTime s.fs path').2 := by
  rw [State.advance] at hs
  cases hp : s.threads i with
  | returned => rw [hp] at hs; simp at hs
  | existsPath advanced path' =>
      rw [hp] at hs
      obtain rfl := Option.some.inj hs
      simp only [State.goto, Function.update_self, State.existsPath]
      cases advanced <;> simp [Progress.Orderly]
  | getPathValue advanced path' =>
      rw [hp] at hs
      obtain rfl := Option.some.inj hs
      simp only [State.goto, Function.update_self, State.getPathValue]
      split
      · simp [Progress.Orderly]
      · split_ifs <;> simp [Progress.Orderly]
  | getSubPath advanced path' =>
      rw [hp] at hs
      obtain rfl := Option.some.inj hs
      simp only [State.goto, Function.update_self, State.getSubPath]
      split_ifs <;> simp [Progress.Orderly]
  | getPathChildren advanced path' =>
      rw [hp] at hs
      obtain rfl := Option.some.inj hs
      simp only [State.goto, Function.update_self, State.getPathChildren]
      cases advanced <;> simp [Progress.Orderly]
  -- what follows the report is no entry of a value: its time is read in between
  | addTask report rest =>
      rw [hp] at hs h
      obtain rfl := Option.some.inj hs
      simp only [State.goto, Function.update_self]
      cases rest with
      | addTask => exact absurd h id
      | emplace k' path' last =>
          refine ⟨trivial, fun path₁ mtime heq => ?_⟩
          obtain ⟨rfl, -⟩ := Progress.emplace.inj heq
          exact absurd h id
      | _ => simp [Progress.Orderly]
  | fileModifyTime path' =>
      rw [hp] at hs
      obtain rfl := Option.some.inj hs
      simp only [State.goto, Function.update_self]
      refine ⟨trivial, fun path₁ mtime heq => ?_⟩
      obtain ⟨-, rfl, hm⟩ := Progress.emplace.inj heq
      exact ⟨rfl, (eq_of_heq hm).symm⟩
  | emplace k' path' last =>
      rw [hp] at hs
      obtain rfl := Option.some.inj hs
      simp [State.goto, Progress.Orderly]

/-- A registration reads the time of the value it has reported. -/
lemma Timely.read_step (h : Timely path s times) (hrace : ¬ Races path s a) (hsub : times ⊆ times')
    (hfs : s'.fs path = s.fs path ∨ FreshTime times (s'.fs path)) (hs : s.step a = some s')
    {id mtime : ℕ} {value : Str} (hp : s'.threads id = .emplace .get path mtime)
    (htold : s'.told id = [.get ⟨.get, path, id⟩ .ok (some value)]) :
    Dated path s'.fs times' value mtime := by
  have hbase := h.watched.base
  by_cases hadv : a = .advance id
  · subst hadv
    have hs' := State.advance_cases hs
    obtain ⟨hread, rfl⟩ := ((h.orderly id).advance hs').2 path mtime hp
    have heq := told_advance hs' id
    rw [hread] at heq
    have hreport : s.told id = s.valueReport path id := by
      by_contra hne
      refine hrace ?_
      rw [Races, hread]
      exact ⟨rfl, hne⟩
    rw [htold, List.append_nil] at heq
    rw [← heq, State.valueReport] at hreport
    -- the file is there, with the value that has been reported
    rw [fs_step (by simp) hs]
    cases hn : s.fs path with
    | none =>
        rw [hn] at hreport
        simp at hreport
    | some n =>
        obtain ⟨value', mtime', rfl, hne, hmem⟩ := h.node n hn
        rw [hn] at hreport
        obtain rfl : value = value' := by simpa using hreport
        rw [fileModifyTime_file hn]
        refine ⟨hne, hsub hmem, fun value' hfile => ?_⟩
        rw [hn] at hfile
        obtain ⟨rfl, -⟩ := Node.file.inj (Option.some.inj hfile)
        rfl
  · rcases (threads_step hs id).2 with heq | hadv' | ⟨-, advanced, path', hnew⟩
    · rw [heq] at hp
      -- the poll tells nothing under the number of a call that has not returned
      refine (h.read id mtime value hp ?_).mono hsub hfs
      rcases hbase.told_step hs id with heq' | hadv' | ⟨k', path', cb', hown, rfl, -⟩
      · exact heq' ▸ htold
      · exact absurd hadv' hadv
      · rw [hown.returned] at hp
        simp at hp
    · exact absurd hadv' hadv
    · rw [hp] at hnew
      simp at hnew

lemma Timely.orderly_step (h : Timely path s times) (hs : s.step a = some s') (id : ℕ) :
    (s'.threads id).Orderly := by
  by_cases hadv : a = .advance id
  · subst hadv
    exact ((h.orderly id).advance (State.advance_cases hs)).1
  · rcases (threads_step hs id).2 with heq | hadv' | ⟨-, advanced, path', hnew | hnew | hnew⟩
    · rw [heq]
      exact h.orderly id
    · exact absurd hadv' hadv
    all_goals
      rw [hnew]
      trivial

/-- A new callback has been told the value of the time that is remembered. -/
lemma Timely.advance (h : Timely path s times) {id : ℕ} (hs : s.step (.advance id) = some s')
    (hcb : (s'.monitors .get).entry.lookup path = some cb)
    (hnew : (s.monitors .get).entry.lookup path ≠ some cb) (hsub : times ⊆ times') :
    Status path s' times' cb := by
  have hs' := State.advance_cases hs
  obtain ⟨rfl, -, hnot, mtime, hp⟩ := (lookup_advance hs' hcb).resolve_left hnew
  have hprog := h.watched.base.progress id
  have htold := told_advance hs' id
  rw [hp] at hprog htold
  obtain ⟨value, hvalue⟩ := hprog
  rw [hvalue] at htold
  refine .known (by rw [htold]; rfl) (h.watched.remembers_advance hs' hp hnot)
    ((h.read id mtime value hp hvalue).mono hsub (Or.inl ?_))
  rw [fs_step (by simp) hs]

/-- The times that are recorded, and the node at the path. -/
lemma Timed.Keeps.node_step {path : Path} (ha : (Timed.mk s times).Keeps path a)
    (hnode : ∀ n, s.fs path = some n →
      ∃ value mtime, n = .file value mtime ∧ mtime ≠ 0 ∧ mtime ∈ times)
    (hs : s.step a = some s') : (s'.fs path = s.fs path ∨ FreshTime times (s'.fs path)) ∧
      ∀ n, s'.fs path = some n → ∃ value mtime, n = .file value mtime ∧ mtime ≠ 0 ∧
        mtime ∈ mtimes s'.fs path ++ times := by
  have hfs : s'.fs path = s.fs path ∨ FreshTime times (s'.fs path) := by
    by_cases hne : ∀ fs, a ≠ .change fs
    · exact Or.inl (by rw [fs_step hne hs])
    · push Not at hne
      obtain ⟨fs, rfl⟩ := hne
      obtain rfl := State.change_cases hs
      exact ha
  refine ⟨hfs, fun n hn => ?_⟩
  rcases hfs with heq | hfresh
  · obtain ⟨value, mtime, rfl, hne, hmem⟩ := hnode n (heq ▸ hn)
    exact ⟨value, mtime, rfl, hne, List.mem_append_right _ hmem⟩
  · rw [hn] at hfresh
    cases n with
    | file value mtime => exact ⟨value, mtime, rfl, hfresh.1, by simp [mtimes, hn]⟩
    | dir entries mtime => exact absurd hfresh id

lemma Timed.Keeps.keeps {path : Path} (ha : (Timed.mk s times).Keeps path a) : a.Keeps := by
  cases a with
  | removeWatches path' watchType => exact absurd ha id
  | _ => trivial

/-- What is said of the callback in the map stays true. -/
lemma Timely.stored_step (h : Timely path s times) (ha : a.Keeps) (hrace : ¬ Races path s a)
    (hsub : times ⊆ times') (hfs : s'.fs path = s.fs path ∨ FreshTime times (s'.fs path))
    (hs : s.step a = some s') (hcb : (s'.monitors .get).entry.lookup path = some cb) :
    Status path s' times' cb := by
  by_cases hold : (s.monitors .get).entry.lookup path = some cb
  · have hown := h.watched.base.stored .get path cb hold
    by_cases hcheck : a = .check .get path
    · subst hcheck
      refine ((h.stored cb hold).check h.watched hown hold (fun n hn => ?_) hsub hs).1
      obtain ⟨value, mtime, rfl, -, hmem⟩ := h.node n hn
      exact ⟨value, mtime, rfl, hmem⟩
    · have hfile : ∀ n, s.fs path = some n → ∃ value mtime, n = .file value mtime := by
        intro n hn
        obtain ⟨value, mtime, rfl, -⟩ := h.node n hn
        exact ⟨value, mtime, rfl⟩
      rcases (h.stored cb hold).step h.watched hown ha hrace hfile hsub hfs hcheck hs
        with hst | ⟨rfl, tasks, copies, todo, hit⟩
      · exact hst
      · exact absurd (Registry.mem_of_lookup hcb) (lookup_proceed_remove hit hs)
  · rcases entry_step .get path hs with ⟨id, rfl⟩ | heq | ⟨rfl, tasks, copies, todo, hit⟩
    · exact h.advance hs hcb hold hsub
    · exact absurd (heq ▸ hcb) hold
    · exact absurd (Registry.mem_of_lookup hcb) (lookup_proceed_remove hit hs)

theorem Timely.step (h : Timely path s times) (ha : (Timed.mk s times).Keeps path a)
    (hrace : ¬ Races path s a) (hs : s.step a = some s') :
    Timely path s' (mtimes s'.fs path ++ times) := by
  obtain ⟨hfs, hnode⟩ := ha.node_step h.node hs
  have hsub : times ⊆ mtimes s'.fs path ++ times := List.subset_append_right _ _
  exact ⟨h.watched.step ha.keeps hs, hnode, h.orderly_step hs,
    fun id mtime value hp htold => h.read_step hrace hsub hfs hs hp htold,
    fun cb hcb => h.stored_step ha.keeps hrace hsub hfs hs hcb⟩

lemma timely_init {fs : FileSystem} (h : FreshTime [] (fs path)) :
    Timely path (State.init fs) (mtimes fs path) := by
  refine ⟨watched_init fs, fun n hn => ?_, fun _ => trivial, by simp [State.init],
    by simp [State.init, Registry.empty]⟩
  have hn' : fs path = some n := hn
  rw [hn'] at h
  cases n with
  | file value mtime => exact ⟨value, mtime, rfl, h.1, by simp [mtimes, hn']⟩
  | dir entries mtime => exact absurd h id

/-! ### A callback that has been entered -/

/-- A callback that has been entered: when it has been taken out again, it has been told last
that there is no file. -/
structure Known (path : Path) (cb : Callback) (s : State) (times : List ℕ) : Prop where
  timely : Timely path s times
  owns : s.Owns .get path cb
  gone : (s.monitors .get).entry.lookup path ≠ some cb →
    (s.told cb.id).getLast? = some (.get cb .notExist none)

/-- A callback that has been taken out is told nothing. -/
lemma Known.told_gone (h : Known path cb s times)
    (hgone : (s.monitors .get).entry.lookup path ≠ some cb) (hs : s.step a = some s') :
    s'.told cb.id = s.told cb.id := by
  refine h.timely.watched.told_get h.owns (fun _ tasks copies todo mtime hit => hgone ?_) hs
  have hw := h.timely.watched
  obtain ⟨cb', hcb'⟩ := Registry.exists_lookup
    ((hw.fresh _ hit).at_mem _ List.mem_cons_self .get path rfl).2
  obtain ⟨heq, -⟩ := (h.timely.stored cb' hcb').of_reading hw ⟨_, hit, List.mem_cons_self⟩
  rw [hcb', heq]

theorem Known.step (h : Known path cb s times) (ha : (Timed.mk s times).Keeps path a)
    (hrace : ¬ Races path s a) (hs : s.step a = some s') :
    Known path cb s' (mtimes s'.fs path ++ times) := by
  have hw := h.timely.watched
  have htimely := h.timely.step ha hrace hs
  by_cases hcb' : (s'.monitors .get).entry.lookup path = some cb
  · exact ⟨htimely, htimely.watched.base.stored .get path cb hcb', fun hne => absurd hcb' hne⟩
  by_cases hcb : (s.monitors .get).entry.lookup path = some cb
  · -- it is taken out after it has been told that there is no file
    rcases entry_step .get path hs with ⟨id, rfl⟩ | heq | ⟨rfl, tasks, copies, todo, hit⟩
    · exact absurd ((monitors_advance (State.advance_cases hs)).2 cb hcb) hcb'
    · exact absurd (heq ▸ hcb) hcb'
    · have hat : s.At (.remove .get path) := ⟨_, hit, List.mem_cons_self⟩
      have htold := hw.told_get h.owns (fun _ _ _ _ _ hit' => by rw [hit] at hit'; simp at hit') hs
      refine ⟨htimely, h.owns.step htold hs, fun _ => ?_⟩
      rw [htold]
      exact (h.timely.stored cb hcb).of_removing hw hat
  · have htold := h.told_gone hcb hs
    refine ⟨htimely, h.owns.step htold hs, fun _ => ?_⟩
    rw [htold]
    exact h.gone hcb

/-! ### A complete iteration -/

/-- What is told last is what there is. -/
def State.ToldValue (s : State) (path : Path) (cb : Callback) : Prop :=
  (∀ value mtime, s.fs path = some (.file value mtime) →
    (s.told cb.id).getLast? = some (.get cb .ok (some value))) ∧
  (s.fs path = none → (s.told cb.id).getLast? = some (.get cb .notExist none))

/-- The invariant of an iteration while the file system does not change: the poll has still to
look at the path, or to read the value, or has told what there is. -/
structure Converging (path : Path) (cb : Callback) (s : State) : Prop where
  known : ∃ times, Known path cb s times
  queued : ∀ call ∈ s.queued, call.To cb.id = false
  within : ∃ it, s.iteration = some it ∧
    ((s.monitors .get).entry.lookup path = some cb → path ∈ (it.copies .get).last ∨
      (∃ mtime, s.At (.getFileValue path (some cb) mtime)) ∨ s.ToldValue path cb)

/-- The read of the value: what there is is told. -/
lemma Known.toldValue (h : Known path cb s times) {mtime : ℕ} {tasks : List Task}
    {copies : (k : Kind) → Monitors k} {todo : List Step}
    (hit : s.iteration = some ⟨tasks, copies, .getFileValue path (some cb) mtime :: todo⟩)
    (hs : s.step .proceed = some s') : s'.ToldValue path cb := by
  have hw := h.timely.watched
  rw [State.ToldValue, fs_step (by simp) hs]
  refine ⟨fun value t hn => ?_, fun hn => ?_⟩
  · exact (hw.told_value hit (getFileValue_file hn) hs).1
  · exact (hw.told_value hit (getFileValue_none hn) hs).1

lemma Converging.step (h : Converging path cb s) (ha : a.Keeps) (hrace : ¬ Races path s a)
    (hstill : a.Still) (hs : s.step a = some s') : Converging path cb s' := by
  obtain ⟨times, hknown⟩ := h.known
  obtain ⟨it, hit, hwithin⟩ := h.within
  have hw := hknown.timely.watched
  have hne : ∀ fs, a ≠ .change fs := fun fs heq => by subst heq; exact hstill
  have hkeeps : (Timed.mk s times).Keeps path a := by
    cases a with
    | change fs => exact absurd rfl (hne fs)
    | removeWatches path' watchType => exact absurd ha id
    | _ => trivial
  have hknown' := hknown.step hkeeps hrace hs
  obtain ⟨it', hit', hmem⟩ := iteration_step .get path hit hstill hs
  refine ⟨⟨_, hknown'⟩, hw.base.queued_step hknown.owns h.queued hs, it', hit', fun hcb' => ?_⟩
  -- the callback was in the map before
  have hcb : (s.monitors .get).entry.lookup path = some cb := by
    rcases entry_step .get path hs with ⟨id, rfl⟩ | heq | ⟨rfl, tasks, copies, todo, hit⟩
    · rcases lookup_advance (State.advance_cases hs) hcb' with hold | ⟨rfl, -, -, mtime, hp⟩
      · exact hold
      · have hret := hknown.owns.returned
        rw [hp] at hret
        simp at hret
    · exact heq ▸ hcb'
    · exact absurd (Registry.mem_of_lookup hcb') (lookup_proceed_remove hit hs)
  -- the callback is told something by the read of its value only
  by_cases hread : a = .proceed ∧ ∃ tasks copies todo mtime,
      s.iteration = some ⟨tasks, copies, .getFileValue path (some cb) mtime :: todo⟩
  · obtain ⟨rfl, tasks, copies, todo, mtime, hit⟩ := hread
    exact Or.inr (Or.inr (hknown.toldValue hit hs))
  · have htold := hw.told_get hknown.owns
      (fun heq tasks copies todo mtime hit => hread ⟨heq, tasks, copies, todo, mtime, hit⟩) hs
    -- the look at the path, the read that it leads to, and what the read has told
    rcases hwithin hcb with hin | ⟨mtime, hat⟩ | hvalue
    · by_cases hcheck : a = .check .get path
      · subst hcheck
        refine Or.inr (((hknown.timely.stored cb hcb).check hw hknown.owns hcb (fun n hn => ?_)
          (List.Subset.refl _) hs).2.imp_right ?_)
        · obtain ⟨value, mtime, rfl, -, hmem⟩ := hknown.timely.node n hn
          exact ⟨value, mtime, rfl, hmem⟩
        · rintro ⟨value, mtime, hn, hlast⟩
          rw [State.ToldValue, fs_step hne hs, hn]
          refine ⟨fun value' mtime' heq => ?_, by simp⟩
          obtain ⟨rfl, -⟩ := Node.file.inj (Option.some.inj heq)
          exact hlast
      · exact Or.inl (hmem hcheck hin)
    · rcases hat.step hw hs with hat' | ⟨rfl, tasks, copies, todo, hit⟩
      · exact Or.inr (Or.inl ⟨mtime, hat'⟩)
      · exact absurd ⟨rfl, tasks, copies, todo, mtime, hit⟩ hread
    · refine Or.inr (Or.inr ?_)
      rw [State.ToldValue, fs_step hne hs, htold]
      exact hvalue

lemma Known.converging (h : Known path cb s times) (hrace : ¬ Races path s .wake)
    (hs : s.step .wake = some s') : Converging path cb s' := by
  have hknown := h.step (a := .wake) trivial hrace hs
  obtain ⟨hnone, rfl⟩ := State.wake_cases hs
  refine ⟨⟨_, hknown⟩, by simp [State.queued], _, rfl, fun hcb => Or.inl ?_⟩
  exact (h.timely.watched.inv.paired .get path).mpr (Registry.mem_of_lookup hcb)

lemma Converging.finish (h : Converging path cb s) (hs : s.step .finish = some s') :
    s'.Agrees path cb := by
  obtain ⟨times, hknown⟩ := h.known
  obtain ⟨it, hit, hwithin⟩ := h.within
  rw [State.Agrees, hknown.owns.callsOf_finish h.queued hs, fs_step (by simp) hs]
  obtain ⟨it', hit', ⟨-, htodo, hcopies⟩, rfl⟩ := State.finish_cases hs
  obtain rfl := Option.some.inj (hit.symm.trans hit')
  -- nothing is left to look at or to read
  have hvalue : (s.monitors .get).entry.lookup path = some cb → s.ToldValue path cb := by
    intro hcb
    rcases hwithin hcb with hin | ⟨mtime, it', hit', hmem⟩ | hvalue
    · rw [AList.mem_keys, hcopies .get (by simp)] at hin
      simp at hin
    · obtain rfl := Option.some.inj (hit.symm.trans hit')
      rw [htodo] at hmem
      simp at hmem
    · exact hvalue
  refine ⟨fun hcb => (hvalue hcb).1, fun hn => ?_⟩
  by_cases hcb : (s.monitors .get).entry.lookup path = some cb
  · exact (hvalue hcb).2 hn
  · exact hknown.gone hcb

/-! ### The runs -/

/-- In every run in which no registration reads the time of another value than the one it has
reported, and the poll does not find a file after it has found none, the callback has been told
what there is after every complete iteration. -/
theorem agrees_of_not_races {fs : FileSystem} {x₀ x : Timed} (hfresh : FreshTime [] (fs path))
    (hr₀ : Reach (Timed.step path) (fun x a => x.Keeps path a ∧ ¬ Races path x.state a)
      (Timed.init fs path) x₀)
    (hcb : (x₀.state.monitors .get).entry.lookup path = some cb)
    (hr : Reach (Timed.step path) (fun x a => x.Keeps path a ∧ ¬ Races path x.state a) x₀ x)
    (hit : CompleteIteration (fun s a => a.Keeps ∧ ¬ Races path s a) x.state s') :
    s'.Agrees path cb := by
  have htimely : Timely path x₀.state x₀.times := by
    refine hr₀.invariant (I := fun x => Timely path x.state x.times) (timely_init hfresh) ?_
    rintro t a u ht ⟨ha, hrace⟩ hs
    obtain ⟨s₁, hs₁, rfl⟩ := Option.map_eq_some_iff.mp hs
    exact ht.step ha hrace hs₁
  have hknown : Known path cb x.state x.times := by
    refine hr.invariant (I := fun x => Known path cb x.state x.times)
      ⟨htimely, htimely.watched.base.stored .get path cb hcb, fun hne => absurd hcb hne⟩ ?_
    rintro t a u ht ⟨ha, hrace⟩ hs
    obtain ⟨s₁, hs₁, rfl⟩ := Option.map_eq_some_iff.mp hs
    exact ht.step ha hrace hs₁
  obtain ⟨t, u, hwake, hrun, hfinish⟩ := hit
  have hu := hrun.invariant (I := Converging path cb) (hknown.converging id hwake)
    fun _ _ _ h ha hs => h.step ha.1.1 ha.1.2 ha.2 hs
  exact hu.finish hfinish

/-- `/p` is written between two iterations, and the second one tells the new value. -/
theorem agrees_of_not_races_written : ∃ (s : State) (cb : Callback),
    s.callsOf cb = [.get cb .ok (some ['a']), .get cb .ok (some ['b'])] ∧
      s.Agrees ['/', 'p'] cb := by
  obtain ⟨x, hx, hobs⟩ := exists_reach_of_exec (Timed.step ['/', 'p'])
    (fun x a => x.Keeps ['/', 'p'] a ∧ ¬ Races ['/', 'p'] x.state a) (Timed.init fileP ['/', 'p'])
    [.getPathValue true ['/', 'p'], .advance 0, .advance 0, .advance 0, .advance 0,
      .change (oneFile ['/', 'p'] ['b'] 2)]
    (fun x => ((x.state.monitors .get).entry.lookup ['/', 'p'],
      (x.state.step .wake).bind fun t =>
        (exec State.step (fun s a => (a.Keeps ∧ ¬ Races ['/', 'p'] s a) ∧ a.Still) t
          [.task, .proceed, .check .get ['/', 'p'], .proceed, .proceed, .proceed]).bind fun u =>
            (u.step .finish).map fun s' => s'.calls))
    (some ⟨.get, ['/', 'p'], 0⟩, some [.get ⟨.get, ['/', 'p'], 0⟩ .ok (some ['a']),
      .get ⟨.get, ['/', 'p'], 0⟩ .ok (some ['b'])]) rfl
  obtain ⟨hcb, hend⟩ := Prod.mk.inj hobs
  obtain ⟨s', hit, hcalls⟩ := exists_completeIteration _ hend
  exact ⟨s', _, by rw [State.callsOf, hcalls]; rfl,
    agrees_of_not_races (by decide) hx hcb .refl hit⟩

end LocalFile

end ConfigMonitor
