/-
# What a callback has been told

The first report of a call goes through the task queue; the later ones are made by the poll,
for the callbacks in its copies.  `State.told` puts them in one list: the calls of a callback so
far, and those that what has been queued or begun is going to make.  A step leaves it alone or
adds one call at its end, whatever else is queued, since no callback is entered in the maps
before its first report is queued.
-/
import ConfigMonitor.LocalFile.LocFile

namespace ConfigMonitor

namespace LocalFile

/-- The callback of `exists_path`, `get_path_value` or `get_sub_path` that is called. -/
def Call.cb? : Call → Option Callback
  | .existed cb _ _ | .get cb _ _ | .children cb _ _ _ => some cb
  | .removed .. => none

/-- Is the call one of the callback with this number? -/
def Call.To (id : ℕ) (call : Call) : Bool := call.cb?.any fun cb => cb.id = id

/-- The calls a section makes of itself. -/
def Step.calls : Step → List Call
  | .call (some c) => [c]
  | _ => []

/-- The reports a task makes. -/
def Task.calls : Task → List Call
  | .report c => [c]
  | .removeWatches .. => []

/-- The calls the iteration has been going to make since it took the tasks or found a change. -/
def Iteration.calls (it : Iteration) : List Call :=
  it.todo.flatMap Step.calls ++ it.tasks.flatMap Task.calls

/-- The reports in the queue. -/
def State.queued (s : State) : List Call := s.taskQueue.flatMap Task.calls

/-- The calls that have been begun and not made. -/
def State.begun (s : State) : List Call :=
  match s.iteration with
  | some it => it.calls
  | none => []

/-- What a callback has been told and is going to be told. -/
def State.told (s : State) (id : ℕ) : List Call :=
  (s.calls ++ s.begun ++ s.queued).filter (Call.To id)

/-- A callback that has been entered at a path: its call has returned, and nothing has been told
under its number but to itself. -/
structure State.Owns (s : State) (k : Kind) (path : Path) (cb : Callback) : Prop where
  kind : cb.kind = k
  path : cb.path = path
  lt_next : cb.id < s.next
  returned : s.threads cb.id = .returned
  told_ne : s.told cb.id ≠ []
  told_eq : ∀ call ∈ s.told cb.id, call.cb? = some cb

/-- What has been told to the callback of a call, depending on how far the call is. -/
def Progress.Told (id : ℕ) : Progress → List Call → Prop
  | .returned, _ => True
  | .existsPath .., told | .getPathValue .., told | .getSubPath .., told
  | .getPathChildren .., told => told = []
  | .addTask report rest, told => told = [] ∧ report.To id = true ∧ rest.Told id [report]
  | .fileModifyTime path, told => ∃ value, told = [.get ⟨.get, path, id⟩ .ok (some value)]
  | .emplace .exist path existed, told =>
      told = [.existed ⟨.exist, path, id⟩ (if existed then .ok else .notExist) .dummy]
  | .emplace .get path _, told => ∃ value, told = [.get ⟨.get, path, id⟩ .ok (some value)]
  | .emplace .sub path children, told => told = [.children ⟨.sub, path, id⟩ .ok .dummy children]

/-- The invariant: what has been told fits how far the calls are, and the callbacks in the maps
and in the copies of the poll are of calls that have returned. -/
structure Base (s : State) : Prop where
  above : ∀ id, s.next ≤ id → s.threads id = .returned ∧ s.told id = []
  progress : ∀ id, (s.threads id).Told id (s.told id)
  stored : ∀ k path cb, (s.monitors k).entry.lookup path = some cb → s.Owns k path cb
  copied : ∀ it, s.iteration = some it → ∀ k path cb,
    (it.copies k).entry.lookup path = some cb →
      s.Owns k path cb ∧ ∀ call ∈ s.queued, call.To cb.id = false
  reading : ∀ it, s.iteration = some it → ∀ path cb t, .getFileValue path cb t ∈ it.todo →
    it.tasks = [] ∧ it.todo = [.getFileValue path cb t] ∧
      (it.copies .get).entry.lookup path = cb

variable {s s' : State} {id : ℕ}

/-! ## The list of calls -/

/-- Calls put in front of the queue are told last when the queue holds none for the callback. -/
lemma filter_insert {α : Type*} {f : α → Bool} {before new queue : List α}
    (h : new.filter f ≠ [] → queue.filter f = []) :
    (before ++ new ++ queue).filter f = (before ++ queue).filter f ++ new.filter f := by
  simp only [List.filter_append]
  by_cases hn : new.filter f = []
  · rw [hn]
    simp
  · rw [h hn]
    simp

lemma cb?_onCheck {k : Kind} {path : Path} {last this : k.Last} {cb : Option Callback} {call : Call}
    (h : call ∈ (onCheck k path last this cb).flatMap Step.calls) : ∃ cb', cb = some cb' ∧
      call.cb? = some cb' := by
  rw [onCheck] at h
  split_ifs at h
  · simp at h
  cases cb with
  | none => cases k <;> simp [onChange, Step.calls] at h
  | some cb =>
      refine ⟨cb, rfl, ?_⟩
      cases k with
      | exist =>
          simp only [onChange, Option.map_some, List.flatMap_cons, Step.calls, List.flatMap_nil,
            List.nil_append, List.append_nil, List.mem_singleton] at h
          rw [h]
          split_ifs <;> rfl
      | get => simp [onChange, Step.calls] at h
      | sub =>
          simp only [onChange, Option.map_some, List.flatMap_cons, Step.calls, List.flatMap_nil,
            List.nil_append, List.append_nil, List.mem_singleton] at h
          rw [h]
          rfl

lemma cb?_onValue {path : Path} {cb : Option Callback} {t : ℕ} {err : FileError} {value : Str}
    {call : Call} (h : call ∈ (onValue path cb t err value).flatMap Step.calls) :
    ∃ cb', cb = some cb' ∧ call.cb? = some cb' := by
  cases cb with
  | none =>
      rw [onValue] at h
      split_ifs at h <;> simp [Step.calls] at h
  | some cb =>
      refine ⟨cb, rfl, ?_⟩
      rw [onValue] at h
      split_ifs at h <;>
        · simp only [Option.map_some, List.flatMap_cons, Step.calls, List.flatMap_nil,
            List.append_nil, List.mem_singleton] at h
          rw [h]
          rfl

/-- A call begun for a callback in the copies is told last. -/
lemma Base.queued_eq_nil (h : Base s) {it : Iteration} (hit : s.iteration = some it) {k : Kind}
    {path : Path} {cb : Callback} (hcb : (it.copies k).entry.lookup path = some cb) :
    s.queued.filter (Call.To cb.id) = [] := by
  rw [List.filter_eq_nil_iff]
  intro call hcall
  rw [(h.copied it hit k path cb hcb).2 call hcall]
  simp

lemma told_congr (h : s'.calls ++ s'.begun ++ s'.queued = s.calls ++ s.begun ++ s.queued) :
    s'.told id = s.told id := by
  rw [State.told, State.told, h]

lemma to_iff {call : Call} : call.To id = true ↔ ∃ cb, call.cb? = some cb ∧ cb.id = id := by
  rw [Call.To, Option.any_eq_true]
  simp only [decide_eq_true_eq]

/-- What is told to a number, of calls to one callback at most, is told to that callback. -/
lemma exists_of_mem_filter {calls : List Call} {cb : Option Callback} {call : Call}
    (hcalls : ∀ call ∈ calls, ∃ cb', cb = some cb' ∧ call.cb? = some cb')
    (h : call ∈ calls.filter (Call.To id)) :
    ∃ cb', cb = some cb' ∧ call.cb? = some cb' ∧ cb'.id = id := by
  obtain ⟨hcall, hto⟩ := List.mem_filter.mp h
  obtain ⟨cb', hcb, hcb'⟩ := hcalls call hcall
  obtain ⟨cb₁, heq, rfl⟩ := to_iff.mp hto
  obtain rfl := Option.some.inj (hcb'.symm.trans heq)
  exact ⟨cb', hcb, hcb', rfl⟩

lemma to_unique {call : Call} {id' : ℕ} (h : call.To id = true) (h' : call.To id' = true) :
    id = id' := by
  obtain ⟨cb, hcb, rfl⟩ := to_iff.mp h
  obtain ⟨cb', hcb', rfl⟩ := to_iff.mp h'
  rw [Option.some.inj (hcb.symm.trans hcb')]

lemma State.Owns.mono {k : Kind} {path : Path} {cb : Callback} (h : s.Owns k path cb)
    (hn : s.next ≤ s'.next) (ht : s'.threads cb.id = s.threads cb.id)
    (htold : s'.told cb.id = s.told cb.id) : s'.Owns k path cb :=
  ⟨h.kind, h.path, h.lt_next.trans_le hn, ht.trans h.returned, by rw [htold]; exact h.told_ne,
    by rw [htold]; exact h.told_eq⟩

/-- The number tells the callback. -/
lemma State.Owns.unique {k k' : Kind} {path path' : Path} {cb cb' : Callback}
    (h : s.Owns k path cb) (h' : s.Owns k' path' cb') (hid : cb.id = cb'.id) :
    cb = cb' ∧ k = k' ∧ path = path' := by
  obtain ⟨call, hcall⟩ := List.exists_mem_of_ne_nil _ h.told_ne
  have heq : cb = cb' := Option.some.inj
    ((h.told_eq call hcall).symm.trans (h'.told_eq call (hid ▸ hcall)))
  exact ⟨heq, h.kind.symm.trans (heq ▸ h'.kind), h.path.symm.trans (heq ▸ h'.path)⟩

/-! ## Calls of the user -/

/-- A section of a user thread queues a report, or leaves what has been told alone. -/
lemma told_advance {id₀ : ℕ} (hs : s.advance id₀ = some s') (id : ℕ) :
    s'.told id = s.told id ++
      match s.threads id₀ with
      | .addTask report _ => [report].filter (Call.To id)
      | _ => [] := by
  rw [State.advance] at hs
  cases hp : s.threads id₀ with
  | addTask report rest =>
      rw [hp] at hs
      obtain rfl := Option.some.inj hs
      simp only [State.told, State.goto, State.addTask, State.begun, State.queued, List.flatMap_append,
        List.filter_append, List.flatMap_cons, List.flatMap_nil, Task.calls, List.append_nil,
        List.append_assoc]
  | returned => rw [hp] at hs; simp at hs
  | _ =>
      rw [hp] at hs
      obtain rfl := Option.some.inj hs
      exact (List.append_nil _).symm

/-- Where the thread is after a section. -/
lemma threads_advance {id₀ : ℕ} (hs : s.advance id₀ = some s') : s.threads id₀ ≠ .returned ∧
    s'.next = s.next ∧ s'.iteration = s.iteration ∧
    ∃ p, s'.threads = Function.update s.threads id₀ p := by
  rw [State.advance] at hs
  cases hp : s.threads id₀ with
  | returned => rw [hp] at hs; simp at hs
  | _ =>
      rw [hp] at hs
      obtain rfl := Option.some.inj hs
      exact ⟨by simp, rfl, rfl, _, rfl⟩

lemma Base.told_ne (h : Base s) {id₀ : ℕ} (hs : s.advance id₀ = some s') (hid : id ≠ id₀) :
    s'.told id = s.told id := by
  rw [told_advance hs]
  have hprog := h.progress id₀
  cases hp : s.threads id₀ with
  | addTask report rest =>
      rw [hp] at hprog
      have hto : ¬ report.To id = true := fun hto => hid (to_unique hto hprog.2.1)
      simp [hto]
  | _ => simp

/-- The thread is where the calls it has made leave it. -/
lemma Base.progress_advance (h : Base s) {id₀ : ℕ} (hs : s.advance id₀ = some s') :
    (s'.threads id₀).Told id₀ (s'.told id₀) := by
  have hprog := h.progress id₀
  rw [told_advance hs]
  rw [State.advance] at hs
  cases hp : s.threads id₀ with
  | returned => rw [hp] at hs; simp at hs
  -- a read tells nothing yet; it only decides which report is queued next
  | existsPath advanced path =>
      rw [hp] at hs hprog
      obtain rfl := Option.some.inj hs
      simp only [State.goto, Function.update_self, State.existsPath, List.append_nil]
      refine ⟨hprog, to_iff.mpr ⟨_, rfl, rfl⟩, ?_⟩
      cases advanced <;> simp [Progress.Told]
  | getPathValue advanced path =>
      rw [hp] at hs hprog
      obtain rfl := Option.some.inj hs
      simp only [State.goto, Function.update_self, State.getPathValue, List.append_nil]
      split
      · trivial
      · split_ifs
        · exact ⟨hprog, to_iff.mpr ⟨_, rfl, rfl⟩, trivial⟩
        · exact ⟨hprog, to_iff.mpr ⟨_, rfl, rfl⟩, _, rfl⟩
        · exact ⟨hprog, to_iff.mpr ⟨_, rfl, rfl⟩, trivial⟩
  | getSubPath advanced path =>
      rw [hp] at hs hprog
      obtain rfl := Option.some.inj hs
      simp only [State.goto, Function.update_self, State.getSubPath, List.append_nil]
      split_ifs
      · exact hprog
      · exact ⟨hprog, to_iff.mpr ⟨_, rfl, rfl⟩, trivial⟩
  | getPathChildren advanced path =>
      rw [hp] at hs hprog
      obtain rfl := Option.some.inj hs
      simp only [State.goto, Function.update_self, State.getPathChildren, List.append_nil]
      refine ⟨hprog, to_iff.mpr ⟨_, rfl, rfl⟩, ?_⟩
      cases advanced <;> simp [Progress.Told]
  | addTask report rest =>
      rw [hp] at hs hprog
      obtain rfl := Option.some.inj hs
      obtain ⟨hnil, hto, hrest⟩ := hprog
      simp only [State.goto, Function.update_self, hnil]
      simpa [hto] using hrest
  | fileModifyTime path =>
      rw [hp] at hs hprog
      obtain rfl := Option.some.inj hs
      simp only [State.goto, Function.update_self, List.append_nil]
      exact hprog
  | emplace k path last =>
      rw [hp] at hs
      obtain rfl := Option.some.inj hs
      simp only [State.goto, Function.update_self]
      trivial

/-- When the callback of a call is entered, its first report has been queued. -/
lemma Progress.Told.of_emplace {k : Kind} {path : Path} {last : k.Last} {told : List Call}
    (h : (Progress.emplace k path last).Told id told) :
    ∃ call, told = [call] ∧ call.cb? = some ⟨k, path, id⟩ := by
  cases k with
  | exist => exact ⟨_, h, rfl⟩
  | get =>
      obtain ⟨value, h⟩ := h
      exact ⟨_, h, rfl⟩
  | sub => exact ⟨_, h, rfl⟩

/-- The callbacks in the maps after a section of a thread. -/
lemma lookup_advance {id₀ : ℕ} (hs : s.advance id₀ = some s') {k : Kind} {path : Path}
    {cb : Callback} (hcb : (s'.monitors k).entry.lookup path = some cb) :
    (s.monitors k).entry.lookup path = some cb ∨
      cb = ⟨k, path, id₀⟩ ∧ s'.threads id₀ = .returned ∧ path ∉ (s.monitors k).entry ∧
        ∃ last, s.threads id₀ = .emplace k path last := by
  rw [State.advance] at hs
  cases hp : s.threads id₀ with
  | returned => rw [hp] at hs; simp at hs
  | emplace k' path' last =>
      rw [hp] at hs
      obtain rfl := Option.some.inj hs
      by_cases hk : k = k'
      · subst hk
        simp only [State.goto, State.emplace, State.setMonitors, Function.update_self] at hcb
        rcases Registry.lookup_emplace_eq_some hcb with hold | ⟨rfl, rfl, hnot⟩
        · exact Or.inl hold
        · exact Or.inr ⟨rfl, by simp [State.goto], hnot, last, rfl⟩
      · simp only [State.goto, State.emplace, State.setMonitors, Function.update_of_ne hk] at hcb
        exact Or.inl hcb
  | _ =>
      rw [hp] at hs
      obtain rfl := Option.some.inj hs
      exact Or.inl hcb

lemma queued_advance {id₀ : ℕ} (hs : s.advance id₀ = some s') {call : Call}
    (hcall : call ∈ s'.queued) :
    call ∈ s.queued ∨ ∃ rest, s.threads id₀ = .addTask call rest := by
  rw [State.advance] at hs
  cases hp : s.threads id₀ with
  | returned => rw [hp] at hs; simp at hs
  | addTask report rest =>
      rw [hp] at hs
      obtain rfl := Option.some.inj hs
      simp only [State.queued, State.goto, State.addTask, List.flatMap_append, List.flatMap_cons,
        Task.calls, List.flatMap_nil, List.append_nil, List.mem_append, List.mem_singleton] at hcall
      rcases hcall with hcall | rfl
      · exact Or.inl hcall
      · exact Or.inr ⟨rest, rfl⟩
  | _ =>
      rw [hp] at hs
      obtain rfl := Option.some.inj hs
      exact Or.inl hcall

lemma Base.advance (h : Base s) {id₀ : ℕ} (hs : s.advance id₀ = some s') : Base s' := by
  obtain ⟨hne, hnext, hit', p, hthreads⟩ := threads_advance hs
  have hlt : id₀ < s.next := by
    by_contra hge
    exact hne (h.above id₀ (not_lt.mp hge)).1
  have hother : ∀ id, id ≠ id₀ → s'.threads id = s.threads id := fun id hid => by
    rw [hthreads, Function.update_of_ne hid]
  -- a callback in the maps is not the one of the thread that runs
  have howns : ∀ k path cb, s.Owns k path cb → cb.id ≠ id₀ ∧ s'.Owns k path cb := by
    intro k path cb hcb
    have hid : cb.id ≠ id₀ := fun hid => hne (hid ▸ hcb.returned)
    exact ⟨hid, hcb.mono hnext.ge (hother _ hid) (h.told_ne hs hid)⟩
  refine ⟨fun id hid => ?_, fun id => ?_, fun k path cb hcb => ?_,
    fun it hit k path cb hcb => ?_, fun it hit => ?_⟩
  · have hid₀ : id ≠ id₀ := fun heq => absurd hid (by rw [hnext, heq]; exact not_le.mpr hlt)
    rw [hother id hid₀, h.told_ne hs hid₀]
    exact h.above id (hnext ▸ hid)
  · by_cases hid : id = id₀
    · subst hid
      exact h.progress_advance hs
    · rw [hother id hid, h.told_ne hs hid]
      exact h.progress id
  · -- a callback that is new in the maps was entered by this section, after its report
    rcases lookup_advance hs hcb with hold | ⟨rfl, hret, -, last, hp⟩
    · exact (howns k path cb (h.stored k path cb hold)).2
    · have htold := told_advance hs id₀
      have hprog := h.progress id₀
      rw [hp] at htold hprog
      obtain ⟨call, hcall, hcb'⟩ := hprog.of_emplace
      rw [hcall] at htold
      exact ⟨rfl, rfl, hlt.trans_le hnext.ge, hret, by simp [htold], by simpa [htold] using hcb'⟩
  · rw [hit'] at hit
    obtain ⟨hcopy, hq⟩ := h.copied it hit k path cb hcb
    obtain ⟨hid, hown⟩ := howns k path cb hcopy
    refine ⟨hown, fun call hcall => ?_⟩
    -- a report that is new in the queue is one of the thread that runs
    rcases queued_advance hs hcall with hold | ⟨rest, hp⟩
    · exact hq call hold
    · have hprog := h.progress id₀
      rw [hp] at hprog
      exact Bool.eq_false_iff.mpr fun hto => hid (to_unique hto hprog.2.1)
  · rw [hit'] at hit
    exact h.reading it hit

/-- A thread enters a call. -/
lemma Base.enter (h : Base s) {p : Progress} (hp : ∀ id, p.Told id []) : Base (s.enter p) := by
  have hother : ∀ id, id ≠ s.next → (s.enter p).threads id = s.threads id :=
    fun id hid => Function.update_of_ne hid _ _
  have hnext : s.next ≤ (s.enter p).next := Nat.le_succ _
  refine ⟨fun id hid => ?_, fun id => ?_, fun k path cb hcb => ?_,
    fun it hit k path cb hcb => ?_, h.reading⟩
  · have hle : s.next ≤ id := hnext.trans hid
    have hne : id ≠ s.next := by
      rintro rfl
      exact absurd hid (by rw [State.enter]; exact Nat.not_succ_le_self _)
    rw [hother id hne]
    exact h.above id hle
  · by_cases hid : id = s.next
    · subst hid
      have hnil := (h.above s.next le_rfl).2
      rw [State.enter]
      dsimp only
      rw [Function.update_self]
      exact (show (State.enter s p).told s.next = [] from hnil) ▸ hp _
    · rw [hother id hid]
      exact h.progress id
  · have hold := h.stored k path cb hcb
    exact hold.mono hnext (hother _ hold.lt_next.ne) rfl
  · obtain ⟨hold, hq⟩ := h.copied it hit k path cb hcb
    exact ⟨hold.mono hnext (hother _ hold.lt_next.ne) rfl, hq⟩

/-! ## The task thread -/

/-- The maps and what has been told are left alone. -/
lemma Base.of_eq (h : Base s) (hn : s.next ≤ s'.next) (ht : s'.threads = s.threads)
    (htold : ∀ id, s'.told id = s.told id)
    (hm : ∀ k path cb, (s'.monitors k).entry.lookup path = some cb →
      (s.monitors k).entry.lookup path = some cb)
    (hc : ∀ it, s'.iteration = some it → ∀ k path cb,
      (it.copies k).entry.lookup path = some cb → s.Owns k path cb ∧
        ∀ call ∈ s'.queued, call.To cb.id = false)
    (hr : ∀ it, s'.iteration = some it → ∀ path cb t, .getFileValue path cb t ∈ it.todo →
      it.tasks = [] ∧ it.todo = [.getFileValue path cb t] ∧
        (it.copies .get).entry.lookup path = cb) : Base s' := by
  refine ⟨fun id hid => ?_, fun id => ?_, fun k path cb hcb => ?_,
    fun it hit k path cb hcb => ?_, hr⟩
  · rw [ht, htold]
    exact h.above id (hn.trans hid)
  · rw [ht, htold]
    exact h.progress id
  · exact (h.stored k path cb (hm k path cb hcb)).mono hn (by rw [ht]) (htold _)
  · exact (hc it hit k path cb hcb).imp_left fun hown => hown.mono hn (by rw [ht]) (htold _)

/-- What is queued is begun. -/
lemma told_wake (hs : s.step .wake = some s') (id : ℕ) : s'.told id = s.told id := by
  obtain ⟨hnone, rfl⟩ := State.wake_cases hs
  refine told_congr ?_
  simp [State.begun, State.queued, hnone, Iteration.calls]

lemma Base.wake (h : Base s) (hs : s.step .wake = some s') : Base s' := by
  have htold := told_wake hs
  obtain ⟨hnone, rfl⟩ := State.wake_cases hs
  refine h.of_eq le_rfl rfl htold (fun k path cb hcb => hcb)
    (fun it hit k path cb hcb => ?_) fun it hit path cb t hmem => ?_
  · obtain rfl := Option.some.inj hit
    exact ⟨h.stored k path cb hcb, by simp [State.queued]⟩
  · obtain rfl := Option.some.inj hit
    simp at hmem

/-- The sections of a task make the reports of the task. -/
lemma filter_body (task : Task) (id : ℕ) :
    (task.body.flatMap Step.calls).filter (Call.To id) = task.calls.filter (Call.To id) := by
  cases task with
  | report call => rfl
  | removeWatches path watchType id' =>
      rw [Task.body]
      split_ifs <;> rfl

lemma told_task (hs : s.step .task = some s') (id : ℕ) : s'.told id = s.told id := by
  obtain ⟨task, tasks, copies, hit, rfl⟩ := State.task_cases hs
  simp only [State.told, State.begun, State.queued, hit, Iteration.calls, List.flatMap_nil,
    List.nil_append, List.flatMap_cons, List.filter_append, filter_body]

lemma Base.task (h : Base s) (hs : s.step .task = some s') : Base s' := by
  have htold := told_task hs
  obtain ⟨task, tasks, copies, hit, rfl⟩ := State.task_cases hs
  refine h.of_eq le_rfl rfl htold (fun k path cb hcb => hcb)
    (fun it hit' k path cb hcb => ?_) fun it hit' path cb t hmem => ?_
  · obtain rfl := Option.some.inj hit'
    exact h.copied _ hit k path cb hcb
  · obtain rfl := Option.some.inj hit'
    cases task with
    | report call => simp [Task.body] at hmem
    | removeWatches path' watchType id =>
        rw [Task.body] at hmem
        split_ifs at hmem <;> simp at hmem

/-- What a change that the poll has found leads to is told last. -/
lemma Base.told_check (h : Base s) {k : Kind} {path : Path} {it : Iteration} {last : k.Last}
    (hit : s.iteration = some it) (hdone : it.Done k.before) {copies : (k : Kind) → Monitors k}
    (id : ℕ) :
    ({ s with iteration := some { it with
        copies := copies
        todo := onCheck k path last (look s.fs k path)
          ((it.copies k).entry.lookup path) } } : State).told id = s.told id ++
      ((onCheck k path last (look s.fs k path)
        ((it.copies k).entry.lookup path)).flatMap Step.calls).filter (Call.To id) := by
  obtain ⟨htasks, htodo, -⟩ := hdone
  simp only [State.told, State.begun, hit, Iteration.calls, htasks, htodo, List.flatMap_nil,
    List.append_nil]
  refine filter_insert fun hne => ?_
  obtain ⟨call, hcall⟩ := List.exists_mem_of_ne_nil _ hne
  obtain ⟨cb, hcb, -, rfl⟩ := exists_of_mem_filter (fun _ => cb?_onCheck) hcall
  exact h.queued_eq_nil hit hcb

/-- Only callbacks whose call has returned are told something by the poll. -/
lemma Base.of_told (h : Base s) (hn : s'.next = s.next) (ht : s'.threads = s.threads)
    {new : ℕ → List Call} (htold : ∀ id, s'.told id = s.told id ++ new id)
    (hnew : ∀ id, ∀ call ∈ new id, ∃ k path cb, s.Owns k path cb ∧ cb.id = id ∧
      call.cb? = some cb)
    (hm : s'.monitors = s.monitors) (hq : s'.queued = s.queued)
    (hc : ∀ it', s'.iteration = some it' → ∃ it, s.iteration = some it ∧
      ∀ k, (it'.copies k).entry = (it.copies k).entry)
    (hr : ∀ it, s'.iteration = some it → ∀ path cb t, .getFileValue path cb t ∈ it.todo →
      it.tasks = [] ∧ it.todo = [.getFileValue path cb t] ∧
        (it.copies .get).entry.lookup path = cb) : Base s' := by
  -- the thread of a callback that is told something has returned
  have hret : ∀ id, new id = [] ∨ s.threads id = .returned ∧ id < s.next := by
    intro id
    by_cases hnil : new id = []
    · exact Or.inl hnil
    · obtain ⟨call, hcall⟩ := List.exists_mem_of_ne_nil _ hnil
      obtain ⟨k, path, cb, hown, rfl, -⟩ := hnew id call hcall
      exact Or.inr ⟨hown.returned, hown.lt_next⟩
  -- a callback keeps its number, and what it is told names it
  have howns : ∀ k path cb, s.Owns k path cb → s'.Owns k path cb := by
    intro k path cb hown
    refine ⟨hown.kind, hown.path, hn ▸ hown.lt_next, ht ▸ hown.returned, ?_, fun call hcall => ?_⟩
    · rw [htold]
      exact List.append_ne_nil_of_left_ne_nil hown.told_ne _
    · rw [htold] at hcall
      rcases List.mem_append.mp hcall with hcall | hcall
      · exact hown.told_eq call hcall
      · obtain ⟨k', path', cb', hown', hid, hcb'⟩ := hnew _ call hcall
        rw [hcb', (hown'.unique hown hid).1]
  refine ⟨fun id hid => ?_, fun id => ?_, fun k path cb hcb => ?_,
    fun it' hit' k path cb hcb => ?_, hr⟩
  · rw [hn] at hid
    rcases hret id with hnil | ⟨-, hlt⟩
    · rw [ht, htold, hnil, List.append_nil]
      exact h.above id hid
    · exact absurd hlt (not_lt.mpr hid)
  · rw [ht, htold]
    rcases hret id with hnil | ⟨hr', -⟩
    · rw [hnil, List.append_nil]
      exact h.progress id
    · rw [hr']
      trivial
  · rw [hm] at hcb
    exact howns k path cb (h.stored k path cb hcb)
  · obtain ⟨it, hit, hentry⟩ := hc it' hit'
    rw [hentry] at hcb
    rw [hq]
    exact (h.copied it hit k path cb hcb).imp_left (howns k path cb)

lemma Base.check (h : Base s) {k : Kind} {path : Path} (hs : s.step (.check k path) = some s') :
    Base s' := by
  obtain ⟨it, last, hit, hdone, hlast, rfl⟩ := State.check_cases hs
  refine h.of_told rfl rfl (h.told_check hit hdone) (fun id call hcall => ?_) rfl rfl
    (fun it' hit' => ⟨it, hit, fun k' => ?_⟩) fun it' hit' path' cb t hmem => ?_
  · obtain ⟨cb, hcb, hcb', rfl⟩ := exists_of_mem_filter (fun _ => cb?_onCheck) hcall
    exact ⟨k, path, cb, (h.copied it hit k path cb hcb).1, rfl, hcb'⟩
  · obtain rfl := Option.some.inj hit'
    by_cases hk : k' = k
    · subst hk
      simp
    · simp [Function.update_of_ne hk]
  · obtain rfl := Option.some.inj hit'
    dsimp only at hmem ⊢
    -- only a change of a value queues a read, as the one section left
    rw [onCheck] at hmem ⊢
    split_ifs at hmem ⊢
    · simp at hmem
    · cases k with
      | get =>
          simp only [onChange, List.mem_singleton, Step.getFileValue.injEq] at hmem
          obtain ⟨rfl, rfl, rfl⟩ := hmem
          exact ⟨hdone.1, rfl, by simp⟩
      | exist => simp [onChange] at hmem
      | sub => simp [onChange] at hmem

/-- What the poll tells of a value it has read is told last; the other sections add nothing. -/
lemma Base.told_proceed (h : Base s) {it : Iteration} {step : Step} {todo : List Step}
    (hit : s.iteration = some it) (htodo : it.todo = step :: todo) (id : ℕ) :
    (s.runStep { it with todo := todo } step).told id = s.told id ++
      match step with
      | .getFileValue path cb t =>
          match LocalFile.getFileValue s.fs path with
          | none => []
          | some (err, value) =>
              ((onValue path cb t err value).flatMap Step.calls).filter (Call.To id)
      | _ => [] := by
  cases step with
  | call call =>
      cases call <;>
        simp [State.told, State.runStep, State.begun, hit, htodo, Iteration.calls, Step.calls,
          State.queued]
  | getFileValue path cb t =>
      obtain ⟨htasks, hsingle, hcb⟩ := h.reading it hit path cb t (htodo ▸ List.mem_cons_self)
      obtain rfl : todo = [] := by
        rw [htodo] at hsingle
        exact (List.cons.inj hsingle).2
      simp only [State.runStep]
      cases hv : LocalFile.getFileValue s.fs path with
      | none => exact (List.append_nil _).symm
      | some r =>
          obtain ⟨err, value⟩ := r
          simp only [State.told, State.begun, hit, htodo, htasks, Iteration.calls, Step.calls,
            List.flatMap_cons, List.flatMap_nil, List.append_nil]
          refine filter_insert fun hne => ?_
          obtain ⟨call, hcall⟩ := List.exists_mem_of_ne_nil _ hne
          obtain ⟨cb', rfl, -, rfl⟩ := exists_of_mem_filter (fun _ => cb?_onValue) hcall
          exact h.queued_eq_nil hit hcb
  | removeChildren path =>
      have hnil : ((LocalFile.getPathChildren s.fs path).map fun child =>
          Step.remove .get (subPath path child)).flatMap Step.calls = [] := by
        simp [List.flatMap_eq_nil_iff, Step.calls]
      simp [State.told, State.runStep, State.begun, hit, htodo, Iteration.calls, Step.calls,
        State.queued, hnil]
  | _ =>
      simp [State.told, State.runStep, State.begun, hit, htodo, Iteration.calls, Step.calls,
        State.queued, State.removeMonitor, State.update, State.setMonitors]

/-- A section that is no read of a value leaves no such read behind. -/
lemma Base.reading_tail (h : Base s) {it : Iteration} {step : Step} {todo : List Step}
    (hit : s.iteration = some it) (htodo : it.todo = step :: todo) {path : Path}
    {cb : Option Callback} {t : ℕ} : .getFileValue path cb t ∉ todo := by
  intro hmem
  obtain ⟨-, hsingle, -⟩ := h.reading it hit path cb t (htodo ▸ List.mem_cons_of_mem _ hmem)
  rw [htodo] at hsingle
  rw [(List.cons.inj hsingle).2] at hmem
  simp at hmem

lemma lookup_removeMonitor {k k' : Kind} {path path' : Path} {cb : Callback}
    (h : ((s.removeMonitor k path).monitors k').entry.lookup path' = some cb) :
    (s.monitors k').entry.lookup path' = some cb := by
  by_cases hk : k' = k
  · subst hk
    simp only [State.removeMonitor, State.setMonitors, Function.update_self, Registry.remove] at h
    by_cases hp : path' = path
    · subst hp
      simp at h
    · rwa [AList.lookup_erase_ne hp] at h
  · simpa only [State.removeMonitor, State.setMonitors, Function.update_of_ne hk] using h

lemma entry_update (k k' : Kind) (path : Path) (this : k.Last) :
    ((s.update k path this).monitors k').entry = (s.monitors k').entry := by
  by_cases hk : k' = k
  · subst hk
    simp [State.update, State.setMonitors, Registry.store]
  · simp only [State.update, State.setMonitors, Function.update_of_ne hk]

lemma Base.proceed (h : Base s) (hs : s.step .proceed = some s') : Base s' := by
  obtain ⟨tasks, copies, step, todo, hit, rfl⟩ := State.proceed_cases hs
  have htold := h.told_proceed hit rfl
  have hcopied := h.copied _ hit
  -- a read of a value is never queued behind another section
  have htail : ∀ {path : Path} {cb : Option Callback} {t : ℕ}, .getFileValue path cb t ∉ todo :=
    h.reading_tail hit rfl
  cases step with
  | call call =>
      have htold' := fun id => (htold id).trans (List.append_nil _)
      cases call with
      | none => exact h.of_eq le_rfl rfl htold' (fun _ _ _ hcb => hcb) h.copied h.reading
      | some call =>
          refine h.of_eq le_rfl rfl htold' (fun _ _ _ hcb => hcb) (fun it hit' => ?_)
            fun it hit' path cb t hmem => ?_
          · obtain rfl := Option.some.inj hit'
            exact hcopied
          · obtain rfl := Option.some.inj hit'
            exact absurd hmem htail
  | remove k path =>
      refine h.of_eq le_rfl rfl (fun id => (htold id).trans (List.append_nil _))
        (fun _ _ _ => lookup_removeMonitor) (fun it hit' => ?_) fun it hit' path cb t hmem => ?_
      · obtain rfl := Option.some.inj hit'
        exact hcopied
      · obtain rfl := Option.some.inj hit'
        exact absurd hmem htail
  | update k path this =>
      refine h.of_eq le_rfl rfl (fun id => (htold id).trans (List.append_nil _))
        (fun k' _ _ hcb => ?_) (fun it hit' => ?_) fun it hit' path cb t hmem => ?_
      · exact (congrArg (AList.lookup _) (entry_update k k' path this)).symm.trans hcb
      · obtain rfl := Option.some.inj hit'
        exact hcopied
      · obtain rfl := Option.some.inj hit'
        exact absurd hmem htail
  | removeChildren path =>
      refine h.of_eq le_rfl rfl (fun id => (htold id).trans (List.append_nil _))
        (fun _ _ _ hcb => hcb) (fun it hit' => ?_) fun it hit' path cb t hmem => ?_
      · obtain rfl := Option.some.inj hit'
        exact hcopied
      · obtain rfl := Option.some.inj hit'
        rcases List.mem_append.mp hmem with hmem | hmem
        · simp at hmem
        · exact absurd hmem htail
  | getFileValue path cb t =>
      obtain ⟨-, -, hcb⟩ := h.reading _ hit path cb t List.mem_cons_self
      rw [State.runStep] at htold ⊢
      cases hv : LocalFile.getFileValue s.fs path with
      | none =>
          simp only [hv] at htold
          exact h.of_eq le_rfl rfl (fun id => (htold id).trans (List.append_nil _))
            (fun _ _ _ hcb => hcb) h.copied h.reading
      | some r =>
          obtain ⟨err, value⟩ := r
          simp only [hv] at htold
          refine h.of_told rfl rfl htold (fun id call hcall => ?_) rfl rfl
            (fun it' hit' => ⟨_, hit, fun k => ?_⟩) fun it' hit' path' cb' t' hmem => ?_
          · -- the callback told of the value is the one the poll has copied
            obtain ⟨cb', rfl, hcb', rfl⟩ := exists_of_mem_filter (fun _ => cb?_onValue) hcall
            exact ⟨.get, path, cb', (hcopied .get path cb' hcb).1, rfl, hcb'⟩
          · obtain rfl := Option.some.inj hit'
            rfl
          · obtain rfl := Option.some.inj hit'
            rcases List.mem_append.mp hmem with hmem | hmem
            · rw [onValue] at hmem
              split_ifs at hmem <;> simp at hmem
            · exact absurd hmem htail

lemma told_finish (hs : s.step .finish = some s') (id : ℕ) : s'.told id = s.told id := by
  obtain ⟨it, hit, ⟨htasks, htodo, -⟩, rfl⟩ := State.finish_cases hs
  refine told_congr ?_
  simp [State.begun, State.queued, hit, Iteration.calls, htasks, htodo]

lemma Base.finish (h : Base s) (hs : s.step .finish = some s') : Base s' := by
  have htold := told_finish hs
  obtain ⟨it, -, -, rfl⟩ := State.finish_cases hs
  exact h.of_eq le_rfl rfl htold (fun _ _ _ hcb => hcb) (by simp) (by simp)

/-- A removal is no report. -/
lemma State.queued_removeWatches (s : State) (path : Path) (watchType : ℕ) :
    (s.removeWatches path watchType).queued = s.queued := by
  simp [State.queued, State.removeWatches, State.addTask, Task.calls]

lemma Base.step (h : Base s) {a : Action} (hs : s.step a = some s') : Base s' := by
  cases a with
  | advance id => exact h.advance (State.advance_cases hs)
  | wake => exact h.wake hs
  | task => exact h.task hs
  | proceed => exact h.proceed hs
  | check k path => exact h.check hs
  | finish => exact h.finish hs
  | removeWatches path watchType =>
      obtain rfl := State.removeWatches_cases hs
      have hq := s.queued_removeWatches path watchType
      refine h.of_eq (Nat.le_succ _) rfl (fun id => ?_) (fun _ _ _ hcb => hcb)
        (fun it hit k path cb hcb => ?_) h.reading
      · rw [State.told, State.told, hq]
        rfl
      · rw [hq]
        exact h.copied it hit k path cb hcb
  | change fs =>
      obtain rfl := State.change_cases hs
      exact h.of_eq le_rfl rfl (fun _ => rfl) (fun _ _ _ hcb => hcb) h.copied h.reading
  | _ =>
      obtain rfl := State.enter_cases rfl hs
      exact h.enter fun _ => rfl

/-- A thread goes on only by its own sections, and begins with a read of the path. -/
lemma threads_step {a : Action} (hs : s.step a = some s') (id : ℕ) : s.next ≤ s'.next ∧
    (s'.threads id = s.threads id ∨ a = .advance id ∨ id = s.next ∧ ∃ advanced path,
      s'.threads id = .existsPath advanced path ∨ s'.threads id = .getPathValue advanced path ∨
        s'.threads id = .getSubPath advanced path) := by
  cases a with
  | advance id₀ =>
      obtain ⟨-, hnext, -, p, hp⟩ := threads_advance (State.advance_cases hs)
      refine ⟨hnext.ge, ?_⟩
      by_cases hid : id = id₀
      · exact Or.inr (Or.inl (by rw [hid]))
      · exact Or.inl (by rw [hp, Function.update_of_ne hid])
  | wake =>
      obtain ⟨-, rfl⟩ := State.wake_cases hs
      exact ⟨le_rfl, Or.inl rfl⟩
  | task =>
      obtain ⟨_, _, _, -, rfl⟩ := State.task_cases hs
      exact ⟨le_rfl, Or.inl rfl⟩
  | finish =>
      obtain ⟨_, -, -, rfl⟩ := State.finish_cases hs
      exact ⟨le_rfl, Or.inl rfl⟩
  | check k' path' =>
      obtain ⟨_, _, -, -, -, rfl⟩ := State.check_cases hs
      exact ⟨le_rfl, Or.inl rfl⟩
  | proceed =>
      obtain ⟨_, _, step, _, -, rfl⟩ := State.proceed_cases hs
      cases step with
      | call call => cases call <;> exact ⟨le_rfl, Or.inl rfl⟩
      | getFileValue path' cb' t =>
          rw [State.runStep]
          split <;> exact ⟨le_rfl, Or.inl rfl⟩
      | _ => exact ⟨le_rfl, Or.inl rfl⟩
  | change fs =>
      obtain rfl := State.change_cases hs
      exact ⟨le_rfl, Or.inl rfl⟩
  | removeWatches path' watchType =>
      obtain rfl := State.removeWatches_cases hs
      exact ⟨Nat.le_succ _, Or.inl rfl⟩
  | _ advanced path' =>
      obtain rfl := State.enter_cases rfl hs
      refine ⟨Nat.le_succ _, ?_⟩
      -- the new thread has the next number
      by_cases hid : id = s.next
      · exact Or.inr (Or.inr ⟨hid, advanced, path', by simp [hid, State.enter]⟩)
      · exact Or.inl (Function.update_of_ne hid _ _)

/-- A callback that is told nothing new stays the one of its number. -/
lemma State.Owns.step {k : Kind} {path : Path} {cb : Callback} (h : s.Owns k path cb)
    (htold : s'.told cb.id = s.told cb.id) {a : Action} (hs : s.step a = some s') :
    s'.Owns k path cb := by
  obtain ⟨hnext, heq | rfl | ⟨heq, -⟩⟩ := threads_step hs cb.id
  · exact h.mono hnext heq htold
  · exact absurd h.returned (threads_advance (State.advance_cases hs)).1
  · exact absurd heq h.lt_next.ne

/-- Something is told by a section of the thread of the call, or by the poll, for the path it
looks at or has read the value of. -/
lemma Base.told_step (h : Base s) {a : Action} (hs : s.step a = some s') (id : ℕ) :
    s'.told id = s.told id ∨ a = .advance id ∨ ∃ k path cb, s.Owns k path cb ∧ cb.id = id ∧
      (a = .check k path ∨ a = .proceed ∧ k = .get ∧ ∃ it t, s.iteration = some it ∧
        it.todo = [.getFileValue path (some cb) t]) := by
  cases a with
  | advance id₀ =>
      by_cases hid : id = id₀
      · exact Or.inr (Or.inl (by rw [hid]))
      · exact Or.inl (h.told_ne (State.advance_cases hs) hid)
  | wake => exact Or.inl (told_wake hs id)
  | task => exact Or.inl (told_task hs id)
  | finish => exact Or.inl (told_finish hs id)
  | proceed =>
      obtain ⟨tasks, copies, step, todo, hit, rfl⟩ := State.proceed_cases hs
      have htold := h.told_proceed hit rfl id
      cases step with
      | getFileValue path cb t =>
          obtain ⟨-, hsingle, hcb⟩ := h.reading _ hit path cb t List.mem_cons_self
          cases cb with
          -- without a callback in the copies nobody is told of the value
          | none =>
              refine Or.inl (htold.trans ?_)
              dsimp only
              split
              · exact List.append_nil _
              · rw [List.filter_eq_nil_iff.mpr fun call hcall _ => ?_, List.append_nil]
                obtain ⟨cb, hnone, -⟩ := cb?_onValue hcall
                simp at hnone
          | some cb =>
              have hown := (h.copied _ hit .get path cb hcb).1
              -- the one told is the callback in the copies
              by_cases hid : cb.id = id
              · exact Or.inr (Or.inr ⟨.get, path, cb, hown, hid, Or.inr ⟨rfl, rfl, _, t, hit, hsingle⟩⟩)
              · refine Or.inl (htold.trans ?_)
                dsimp only
                split
                · exact List.append_nil _
                · rw [List.filter_eq_nil_iff.mpr fun call hcall hto => hid ?_, List.append_nil]
                  obtain ⟨cb₁, heq, hcb₁⟩ := cb?_onValue hcall
                  obtain ⟨cb₂, heq', rfl⟩ := to_iff.mp hto
                  rw [Option.some.inj heq, Option.some.inj (hcb₁.symm.trans heq')]
      | _ => exact Or.inl (htold.trans (List.append_nil _))
  | check k path =>
      obtain ⟨it, last, hit, hdone, -, rfl⟩ := State.check_cases hs
      by_cases hnil : ((onCheck k path last (look s.fs k path)
          ((it.copies k).entry.lookup path)).flatMap Step.calls).filter (Call.To id) = []
      · refine Or.inl ((h.told_check hit hdone id).trans ?_)
        rw [hnil, List.append_nil]
      · obtain ⟨call, hcall⟩ := List.exists_mem_of_ne_nil _ hnil
        obtain ⟨cb, hcb, -, rfl⟩ := exists_of_mem_filter (fun _ => cb?_onCheck) hcall
        exact Or.inr (Or.inr ⟨k, path, cb, (h.copied it hit k path cb hcb).1, rfl, Or.inl rfl⟩)
  | removeWatches path watchType =>
      obtain rfl := State.removeWatches_cases hs
      refine Or.inl ?_
      rw [State.told, State.told, s.queued_removeWatches path watchType]
      rfl
  | change fs =>
      obtain rfl := State.change_cases hs
      exact Or.inl rfl
  | _ =>
      obtain rfl := State.enter_cases rfl hs
      exact Or.inl rfl

lemma base_init (fs : FileSystem) : Base (State.init fs) :=
  ⟨fun _ _ => ⟨rfl, rfl⟩, fun _ => trivial, by simp [State.init, Registry.empty],
    by simp [State.init], by simp [State.init]⟩

end LocalFile

end ConfigMonitor
