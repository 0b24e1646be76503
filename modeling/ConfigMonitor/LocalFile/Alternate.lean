/-
# Existence and child monitors

The poll tells the callback of a path of a change when what it reads differs from what is
remembered, and writes what it has read into the map.  What is remembered is then what the
callback has been told last, whatever is still queued or begun, and a complete iteration over an
unchanged file system leaves it at what is there.
-/
import ConfigMonitor.LocalFile.Copies
import Mathlib.Data.List.Chain

namespace ConfigMonitor

namespace LocalFile

open Run

/-! ## The property -/

/-- The first report of `exists_path`. -/
def existReport (cb : Callback) (existed : Bool) : Call :=
  .existed cb (if existed then .ok else .notExist) .dummy

/-- The later reports of existence. -/
def existEvent (cb : Callback) (status : Bool) : Call :=
  if status then .existed cb .ok .created else .existed cb .notExist .deleted

/-- The first report of `get_sub_path`. -/
def subReport (cb : Callback) (children : List Str) : Call := .children cb .ok .dummy children

/-- The later reports of children. -/
def subEvent (cb : Callback) (children : List Str) : Call := .children cb .ok .child children

/-- The calls of a callback so far. -/
def State.callsOf (s : State) (cb : Callback) : List Call :=
  s.calls.filter fun call => call.cb? = some cb

/-- The calls are a first report and events, and no value equals the one before. -/
def Alternates {α : Type} (report event : α → Call) (calls : List Call) : Prop :=
  calls = [] ∨ ∃ v vs, calls = report v :: vs.map event ∧ (v :: vs).IsChain (· ≠ ·)

/-- The last call told the value. -/
def ToldLast {α : Type} (report event : α → Call) (v : α) (calls : List Call) : Prop :=
  ∃ call, calls.getLast? = some call ∧ (call = report v ∨ call = event v)

/-- A step within an iteration that does not change the file system. -/
def Action.Still : Action → Prop
  | .change _ | .finish => False
  | _ => True

instance : DecidablePred Action.Still
  | .change _ | .finish => instDecidableFalse
  | .removeWatches .. | .existsPath .. | .getPathValue .. | .getSubPath .. | .advance _ | .wake
  | .task | .proceed | .check .. => instDecidableTrue

/-- A complete iteration of the poll, during which the file system does not change and the
actions are as `ok` says. -/
def CompleteIteration (ok : State → Action → Prop) (s s' : State) : Prop :=
  ∃ t u, s.step .wake = some t ∧ Reach State.step (fun s a => ok s a ∧ a.Still) t u ∧
    u.step .finish = some s'

/-- A complete iteration found by execution, with what can be observed of the state after it. -/
lemma exists_completeIteration {β : Type*} {ok : State → Action → Prop}
    [∀ s a, Decidable (ok s a)] {s : State} (acts : List Action) {f : State → β} {b : β}
    (h : ((s.step .wake).bind fun t =>
      (exec State.step (fun s a => ok s a ∧ a.Still) t acts).bind fun u =>
        (u.step .finish).map f) = some b) : ∃ s', CompleteIteration ok s s' ∧ f s' = b := by
  obtain ⟨t, ht, h⟩ := Option.bind_eq_some_iff.mp h
  obtain ⟨u, hu, h⟩ := Option.bind_eq_some_iff.mp h
  obtain ⟨s', hs', hf⟩ := Option.map_eq_some_iff.mp h
  exact ⟨s', ⟨t, u, ht, reach_of_exec hu, hs'⟩, hf⟩

/-! ## What is remembered is what has been told last -/

/-- The first report and the events of a kind of monitors that are told what is remembered. -/
structure Follows (k : Kind) (report event : Callback → k.Last → Call) : Prop where
  ne_get : k ≠ .get
  told : ∀ {path id last told}, (Progress.emplace k path last).Told id told →
    told = [report ⟨k, path, id⟩ last]
  change : ∀ {path last this cb}, last ≠ this → onChange k path last this (some cb) =
    [.update k path this, .call (some (event cb this))]
  cb?_event : ∀ cb v, (event cb v).cb? = some cb

lemma follows_exist : Follows .exist existReport existEvent := by
  refine ⟨by simp, id, fun {path last this cb} hne => ?_, fun cb v => ?_⟩
  · rw [onChange, Option.map_some]
    cases last <;> cases this <;> simp_all [existEvent]
  · cases v <;> rfl

lemma follows_sub : Follows .sub subReport subEvent :=
  ⟨by simp, id, fun _ => rfl, fun _ _ => rfl⟩

/-- The values told, with the last of them. -/
def Told {α : Type} (report event : α → Call) (told : List Call) (v : α) : Prop :=
  ∃ v₀ vs, told = report v₀ :: vs.map event ∧ (v₀ :: vs).IsChain (· ≠ ·) ∧
    (v₀ :: vs).getLast? = some v

/-- What the map remembers of a path once the write that is under way is done. -/
def State.Remembers (s : State) (k : Kind) (path : Path) (v : k.Last) : Prop :=
  (∃ it, s.iteration = some it ∧ .update k path v ∈ it.todo) ∨
    (∀ it, s.iteration = some it → ∀ step ∈ it.todo, step.at? ≠ some (k, path)) ∧
      (s.monitors k).last.lookup path = some v

/-- The invariant: the callback in the map has been told what the map remembers. -/
structure Reporting (k : Kind) (report event : Callback → k.Last → Call) (s : State) : Prop where
  watched : Watched s
  value : ∀ path cb, (s.monitors k).entry.lookup path = some cb →
    ∃ v, Told (report cb) (event cb) (s.told cb.id) v ∧ s.Remembers k path v

section Told

variable {α : Type} {report event : α → Call} {told : List Call} {v : α}

/-- One more value is told. -/
lemma Told.snoc {this : α} (h : Told report event told v) (hne : v ≠ this) :
    Told report event (told ++ [event this]) this := by
  obtain ⟨v₀, vs, rfl, hchain, hlast⟩ := h
  refine ⟨v₀, vs ++ [this], by simp, ?_, by rw [← List.cons_append, List.getLast?_concat]⟩
  rw [← List.cons_append, List.isChain_append]
  refine ⟨hchain, List.isChain_singleton _, fun x hx y hy => ?_⟩
  rw [hlast] at hx
  obtain rfl := Option.some.inj hx
  obtain rfl := Option.some.inj hy
  exact hne

/-- What has been told so far begins with the report and does not repeat itself. -/
lemma Told.alternates {calls : List Call} (h : Told report event told v) (hp : calls <+: told) :
    Alternates report event calls := by
  obtain ⟨v₀, vs, rfl, hchain, -⟩ := h
  cases calls with
  | nil => exact Or.inl rfl
  | cons call calls =>
      obtain ⟨rfl, hrest⟩ := List.cons_prefix_cons.mp hp
      obtain ⟨ws, ⟨ws', rfl⟩, rfl⟩ := List.prefix_map_iff.mp hrest
      rw [← List.cons_append, List.isChain_append] at hchain
      exact Or.inr ⟨v₀, ws, rfl, hchain.1⟩

lemma Told.toldLast (h : Told report event told v) : ToldLast report event v told := by
  obtain ⟨v₀, vs, rfl, -, hlast⟩ := h
  rcases List.eq_nil_or_concat vs with rfl | ⟨vs, w, rfl⟩
  · obtain rfl := Option.some.inj hlast
    exact ⟨_, rfl, Or.inl rfl⟩
  · rw [List.concat_eq_append, ← List.cons_append, List.getLast?_concat] at hlast
    obtain rfl := Option.some.inj hlast
    refine ⟨event w, ?_, Or.inr rfl⟩
    rw [List.concat_eq_append, List.map_append, ← List.cons_append, List.map_singleton,
      List.getLast?_concat]

end Told

variable {s s' : State} {k : Kind} {report event : Callback → k.Last → Call} {path : Path}
  {cb : Callback} {v : k.Last} {a : Action}

/-- Only what the poll finds of its path is told to a callback that has been entered. -/
lemma Base.told_eq (h : Base s) (hown : s.Owns k path cb) (hne : a ≠ .check k path)
    (hread : a = .proceed → k = .get → ∀ it t, s.iteration = some it →
      it.todo ≠ [.getFileValue path (some cb) t])
    (hs : s.step a = some s') : s'.told cb.id = s.told cb.id := by
  rcases h.told_step hs cb.id with heq | rfl | ⟨k', path', cb', hown', hid, hcheck | hproceed⟩
  · exact heq
  · exact absurd hown.returned (threads_advance (State.advance_cases hs)).1
  · obtain ⟨-, rfl, rfl⟩ := hown.unique hown' hid.symm
    exact absurd hcheck hne
  · obtain ⟨rfl, hk, it, t, hit, htodo⟩ := hproceed
    obtain ⟨rfl, rfl, rfl⟩ := hown.unique hown' hid.symm
    exact absurd htodo (hread rfl hk it t hit)

lemma Watched.told_eq (h : Watched s) (hk : k ≠ .get)
    (hcb : (s.monitors k).entry.lookup path = some cb) (hne : a ≠ .check k path)
    (hs : s.step a = some s') : s'.told cb.id = s.told cb.id :=
  h.base.told_eq (h.base.stored k path cb hcb) hne (fun _ heq => absurd heq hk) hs

/-- While nothing is under way, it is in the map. -/
lemma State.Remembers.lookup (h : s.Remembers k path v)
    (hidle : ∀ it, s.iteration = some it → it.todo = []) :
    (s.monitors k).last.lookup path = some v := by
  rcases h with ⟨it, hit, hmem⟩ | ⟨-, hlast⟩
  · rw [hidle it hit] at hmem
    simp at hmem
  · exact hlast

lemma State.Remembers.mono (h : s.Remembers k path v) (hit : s'.iteration = s.iteration)
    (hm : (s.monitors k).last.lookup path = some v →
      (s'.monitors k).last.lookup path = some v) : s'.Remembers k path v := by
  rw [State.Remembers, hit]
  exact h.imp_right (And.imp_right hm)

/-- A section writes to the entry it deals with only. -/
lemma lookup_runStep {it : Iteration} {step : Step} (h : step.at? ≠ some (k, path)) :
    ((s.runStep it step).monitors k).last.lookup path = (s.monitors k).last.lookup path := by
  cases step with
  | call call => cases call <;> rfl
  | remove k' path' => exact (lookup_removeMonitor_of_ne fun heq => h (congrArg some heq)).1
  | removeChildren path' => rfl
  | getFileValue path' cb t =>
      rw [State.runStep]
      split <;> rfl
  | update k' path' this => exact lookup_update_of_ne fun heq => h (congrArg some heq)

/-- A section leaves what is under way, and what it adds is about the path it has read. -/
lemma todo_runStep (it : Iteration) {it' : Iteration} {step : Step}
    (hit : s.iteration = some { it with todo := step :: it.todo })
    (hit' : (s.runStep it step).iteration = some it') (hp : step.Polls) :
    (∀ st ∈ it.todo, st ∈ it'.todo) ∧
      ∀ st ∈ it'.todo, st ∈ step :: it.todo ∨ st.at? = none ∨ st.at? = step.at? := by
  -- the sections that are added in front
  have hadd : ∀ new : List Step, it'.todo = new ++ it.todo →
      (∀ st ∈ new, st.at? = none ∨ st.at? = step.at?) → (∀ st ∈ it.todo, st ∈ it'.todo) ∧
        ∀ st ∈ it'.todo, st ∈ step :: it.todo ∨ st.at? = none ∨ st.at? = step.at? := by
    intro new heq hnew
    rw [heq]
    refine ⟨fun st hst => List.mem_append_right _ hst, fun st hst => ?_⟩
    exact (List.mem_append.mp hst).symm.imp (List.mem_cons_of_mem _) (hnew st)
  have hsame : s.iteration = some it' → (∀ st ∈ it.todo, st ∈ it'.todo) ∧
      ∀ st ∈ it'.todo, st ∈ step :: it.todo ∨ st.at? = none ∨ st.at? = step.at? := by
    intro heq
    obtain rfl := Option.some.inj (hit.symm.trans heq)
    exact ⟨fun st hst => List.mem_cons_of_mem _ hst, fun st hst => Or.inl hst⟩
  cases step with
  | call call =>
      cases call with
      | none => exact hsame hit'
      | some call =>
          obtain rfl := Option.some.inj hit'
          exact hadd [] rfl (by simp)
  | removeChildren path' => exact absurd hp id
  | getFileValue path' cb' t =>
      rw [State.runStep] at hit'
      split at hit'
      · exact hsame hit'
      · obtain rfl := Option.some.inj hit'
        refine hadd _ rfl fun st hst => ?_
        rw [onValue] at hst
        split_ifs at hst <;>
          · simp only [List.mem_cons, List.not_mem_nil, or_false] at hst
            rcases hst with rfl | rfl <;> simp [Step.at?]
  | _ =>
      obtain rfl := Option.some.inj hit'
      exact hadd [] rfl (by simp)

lemma exists_runStep (it : Iteration) {step : Step}
    (hit : s.iteration = some { it with todo := step :: it.todo }) :
    ∃ it', (s.runStep it step).iteration = some it' := by
  cases step with
  | call call =>
      cases call with
      | none => exact ⟨_, hit⟩
      | some call => exact ⟨_, rfl⟩
  | getFileValue path' cb' t =>
      rw [State.runStep]
      split
      · exact ⟨_, hit⟩
      · exact ⟨_, rfl⟩
  | _ => exact ⟨_, rfl⟩

/-- The poll goes on with what is under way: the write of the path is made, or still to come. -/
lemma State.Remembers.proceed (h : Watched s) (hr : s.Remembers k path v)
    (hs : s.step .proceed = some s') : s'.Remembers k path v := by
  obtain ⟨tasks, copies, step, todo, hit, rfl⟩ := State.proceed_cases hs
  have hf := h.fresh _ hit
  have hone := hf.one
  rw [List.pairwise_cons] at hone
  obtain ⟨it', hit'⟩ := exists_runStep ⟨tasks, copies, todo⟩ hit
  obtain ⟨hold, hnew⟩ := todo_runStep ⟨tasks, copies, todo⟩ hit hit' (hf.polls step List.mem_cons_self)
  rcases hr with ⟨it, hit₀, hmem⟩ | ⟨hno, hlast⟩
  · obtain rfl := Option.some.inj (hit.symm.trans hit₀)
    rcases List.mem_cons.mp hmem with rfl | hmem
    · -- the write is made
      refine Or.inr ⟨fun it₁ hit₁ st hst => ?_, ?_⟩
      · obtain rfl := Option.some.inj hit₁
        rw [(hone.1 st hst).resolve_left (by simp [Step.at?])]
        simp
      · simp [State.runStep, State.update, State.setMonitors, Registry.store]
    · exact Or.inl ⟨it', hit', hold _ hmem⟩
  · have hne := hno _ hit step List.mem_cons_self
    refine Or.inr ⟨fun it₁ hit₁ st hst => ?_, ?_⟩
    · obtain rfl := Option.some.inj (hit'.symm.trans hit₁)
      rcases hnew st hst with hst | hnone | hat
      · exact hno _ hit st hst
      · rw [hnone]
        simp
      · rw [hat]
        exact hne
    · rw [lookup_runStep hne]
      exact hlast

/-- The entries that are there stay when a section of a user thread makes a new one. -/
lemma monitors_advance {id : ℕ} (hs : s.advance id = some s') :
    (∀ last, (s.monitors k).last.lookup path = some last →
      (s'.monitors k).last.lookup path = some last) ∧
    ∀ cb, (s.monitors k).entry.lookup path = some cb →
      (s'.monitors k).entry.lookup path = some cb := by
  rw [State.advance] at hs
  cases hp : s.threads id with
  | returned => rw [hp] at hs; simp at hs
  | emplace k' path' last' =>
      rw [hp] at hs
      obtain rfl := Option.some.inj hs
      exact (emplace_monitors s k' path' last' id k path).2
  | _ =>
      rw [hp] at hs
      obtain rfl := Option.some.inj hs
      exact ⟨fun _ h => h, fun _ h => h⟩

/-- What is remembered of a path changes only when the poll finds a change of it. -/
lemma State.Remembers.step (hr : s.Remembers k path v) (h : Watched s) (ha : a.Keeps)
    (hne : a ≠ .check k path) (hs : s.step a = some s') : s'.Remembers k path v := by
  cases a with
  | advance id =>
      have hs' := State.advance_cases hs
      exact hr.mono (threads_advance hs').2.2.1 ((monitors_advance hs').1 v)
  -- the copies are replaced only where no section is under way
  | wake =>
      obtain ⟨hnone, rfl⟩ := State.wake_cases hs
      refine Or.inr ⟨fun it hit => ?_, hr.lookup (by simp [hnone])⟩
      obtain rfl := Option.some.inj hit
      simp
  | task =>
      obtain ⟨task, tasks, copies, hit, rfl⟩ := State.task_cases hs
      refine Or.inr ⟨fun it hit' => ?_, hr.lookup fun it hit' => ?_⟩
      · obtain rfl := Option.some.inj hit'
        obtain ⟨call, rfl⟩ := (h.fresh _ hit).tasks task List.mem_cons_self
        simp [Task.body, Step.at?]
      · obtain rfl := Option.some.inj (hit.symm.trans hit')
        rfl
  | finish =>
      obtain ⟨it, hit, ⟨-, htodo, -⟩, rfl⟩ := State.finish_cases hs
      refine Or.inr ⟨by simp, hr.lookup fun it' hit' => ?_⟩
      obtain rfl := Option.some.inj (hit.symm.trans hit')
      exact htodo
  | proceed => exact hr.proceed h hs
  | check k' path' =>
      obtain ⟨it, last, hit, ⟨-, htodo, -⟩, -, rfl⟩ := State.check_cases hs
      refine Or.inr ⟨fun it' hit' step hstep hat => ?_, hr.lookup fun it' hit' => ?_⟩
      · obtain rfl := Option.some.inj hit'
        rcases (at?_onCheck hstep).2 with hnone | hsome
        · rw [hnone] at hat
          simp at hat
        · rw [hsome] at hat
          obtain ⟨rfl, rfl⟩ := Prod.mk.inj (Option.some.inj hat)
          exact hne rfl
      · obtain rfl := Option.some.inj (hit.symm.trans hit')
        exact htodo
  | removeWatches path' watchType => exact absurd ha id
  | change fs =>
      obtain rfl := State.change_cases hs
      exact hr
  | _ =>
      obtain rfl := State.enter_cases rfl hs
      exact hr

/-- Once the poll has looked at a path, its callback has been told what is there. -/
lemma Reporting.check (h : Reporting k report event s) (hf : Follows k report event)
    (hcb : (s.monitors k).entry.lookup path = some cb)
    (hs : s.step (.check k path) = some s') :
    Told (report cb) (event cb) (s'.told cb.id) (look s.fs k path) ∧
      s'.Remembers k path (look s.fs k path) := by
  obtain ⟨v, htold, hrem⟩ := h.value path cb hcb
  obtain ⟨it, last, hit, hdone, hlast, rfl⟩ := State.check_cases hs
  obtain ⟨hlast', cb', hcopy, hcb'⟩ := (h.watched.fresh it hit).copies k path last hlast
  obtain rfl := Option.some.inj (hcb.symm.trans hcb')
  have hv := hrem.lookup fun it' hit' => by
    obtain rfl := Option.some.inj (hit.symm.trans hit')
    exact hdone.2.1
  obtain rfl := Option.some.inj (hlast'.symm.trans hv)
  rw [h.watched.base.told_check hit hdone, hcopy]
  by_cases heq : last = look s.fs k path
  · rw [onCheck, if_pos heq, ← heq]
    refine ⟨by simpa using htold, Or.inr ⟨fun it' hit' => ?_, hlast'⟩⟩
    obtain rfl := Option.some.inj hit'
    simp
  · rw [onCheck, if_neg heq, hf.change heq]
    refine ⟨?_, Or.inl ⟨_, rfl, List.mem_cons_self⟩⟩
    have hto : (event cb (look s.fs k path)).To cb.id = true :=
      to_iff.mpr ⟨cb, hf.cb?_event _ _, rfl⟩
    simpa [Step.calls, hto] using htold.snoc heq

/-- What a thread enters for a new path is remembered. -/
lemma Watched.remembers_advance (h : Watched s) {id : ℕ} (hs : s.advance id = some s')
    (hp : s.threads id = .emplace k path v) (hnot : path ∉ (s.monitors k).entry) :
    s'.Remembers k path v := by
  refine Or.inr ⟨fun it hit step hstep hat => ?_, ?_⟩
  · -- a section at the path would need its entry, which is new
    rw [(threads_advance hs).2.2.1] at hit
    exact hnot ((h.fresh it hit).at_mem step hstep k path hat).2
  · rw [State.advance, hp] at hs
    obtain rfl := Option.some.inj hs
    simp only [State.goto, State.emplace, State.setMonitors, Function.update_self,
      Registry.register]
    exact Registry.lookup_emplace_self fun hmem => hnot ((h.inv.paired k path).mp hmem)

/-- A new callback has been told what is remembered. -/
lemma Reporting.advance (h : Reporting k report event s) (hf : Follows k report event) {id : ℕ}
    (hs : s.advance id = some s') (hcb : (s'.monitors k).entry.lookup path = some cb)
    (hnew : (s.monitors k).entry.lookup path ≠ some cb) :
    ∃ v, Told (report cb) (event cb) (s'.told cb.id) v ∧ s'.Remembers k path v := by
  obtain ⟨rfl, -, hnot, last, hp⟩ := (lookup_advance hs hcb).resolve_left hnew
  have hprog := h.watched.base.progress id
  have htold := told_advance hs id
  rw [hp] at hprog htold
  refine ⟨last, ⟨last, [], ?_, List.isChain_singleton _, rfl⟩,
    h.watched.remembers_advance hs hp hnot⟩
  exact (htold.trans (List.append_nil _)).trans (hf.told hprog)

/-- The callback of a path stays in the map unless the task thread takes it out, and is a new one
only when a thread has entered it. -/
lemma entry_step (k : Kind) (path : Path) (hs : s.step a = some s') :
    (∃ id, a = .advance id) ∨
      (s'.monitors k).entry.lookup path = (s.monitors k).entry.lookup path ∨
      a = .proceed ∧ ∃ tasks copies todo,
        s.iteration = some ⟨tasks, copies, .remove k path :: todo⟩ := by
  cases a with
  | advance id => exact Or.inl ⟨id, rfl⟩
  | proceed =>
      obtain ⟨tasks, copies, step, todo, hit, rfl⟩ := State.proceed_cases hs
      cases step with
      | call call => cases call <;> exact Or.inr (Or.inl rfl)
      | remove k' path' =>
          by_cases heq : (k', path') = (k, path)
          · obtain ⟨rfl, rfl⟩ := Prod.mk.inj heq
            exact Or.inr (Or.inr ⟨rfl, tasks, copies, todo, hit⟩)
          · exact Or.inr (Or.inl (lookup_removeMonitor_of_ne heq).2)
      | removeChildren path' => exact Or.inr (Or.inl rfl)
      | getFileValue path' cb' t =>
          rw [State.runStep]
          split <;> exact Or.inr (Or.inl rfl)
      | update k' path' this =>
          exact Or.inr (Or.inl (congrArg (AList.lookup path) (entry_update k' k path' this)))
  | wake =>
      obtain ⟨-, rfl⟩ := State.wake_cases hs
      exact Or.inr (Or.inl rfl)
  | task =>
      obtain ⟨_, _, _, -, rfl⟩ := State.task_cases hs
      exact Or.inr (Or.inl rfl)
  | finish =>
      obtain ⟨_, -, -, rfl⟩ := State.finish_cases hs
      exact Or.inr (Or.inl rfl)
  | check k' path' =>
      obtain ⟨_, _, -, -, -, rfl⟩ := State.check_cases hs
      exact Or.inr (Or.inl rfl)
  | change fs =>
      obtain rfl := State.change_cases hs
      exact Or.inr (Or.inl rfl)
  | removeWatches path watchType =>
      obtain rfl := State.removeWatches_cases hs
      exact Or.inr (Or.inl rfl)
  | _ =>
      obtain rfl := State.enter_cases rfl hs
      exact Or.inr (Or.inl rfl)

/-- The task thread takes a callback out. -/
lemma lookup_proceed_remove {tasks : List Task} {copies : (k : Kind) → Monitors k}
    {todo : List Step}
    (hit : s.iteration = some ⟨tasks, copies, .remove k path :: todo⟩)
    (hs : s.step .proceed = some s') : path ∉ (s'.monitors k).entry := by
  obtain ⟨_, _, step, _, hit', rfl⟩ := State.proceed_cases hs
  obtain ⟨-, -, heq⟩ := Iteration.mk.inj (Option.some.inj (hit.symm.trans hit'))
  obtain ⟨rfl, -⟩ := List.cons.inj heq
  simp [State.runStep, State.removeMonitor, State.setMonitors, Registry.remove]

/-- The poll takes callbacks out of `monitor_get_path_` only. -/
lemma Watched.entry_step (h : Watched s) (hk : k ≠ .get) (hs : s.step a = some s') :
    (∃ id, a = .advance id) ∨
      (s'.monitors k).entry.lookup path = (s.monitors k).entry.lookup path := by
  rcases LocalFile.entry_step k path hs with hadv | heq | ⟨-, tasks, copies, todo, hit⟩
  · exact Or.inl hadv
  · exact Or.inr heq
  · exact absurd ((h.fresh _ hit).polls _ List.mem_cons_self) hk

theorem Reporting.step (h : Reporting k report event s) (hf : Follows k report event)
    (ha : a.Keeps) (hs : s.step a = some s') : Reporting k report event s' := by
  refine ⟨h.watched.step ha hs, fun path cb hcb => ?_⟩
  by_cases hold : (s.monitors k).entry.lookup path = some cb
  · by_cases hcheck : a = .check k path
    · subst hcheck
      exact ⟨_, h.check hf hold hs⟩
    · obtain ⟨v, htold, hrem⟩ := h.value path cb hold
      refine ⟨v, ?_, hrem.step h.watched ha hcheck hs⟩
      rw [h.watched.told_eq hf.ne_get hold hcheck hs]
      exact htold
  · rcases h.watched.entry_step hf.ne_get hs with ⟨id, rfl⟩ | heq
    · exact h.advance hf (State.advance_cases hs) hcb hold
    · rw [heq] at hcb
      exact absurd hcb hold

lemma reporting_init (fs : FileSystem) : Reporting k report event (State.init fs) :=
  ⟨watched_init fs, by simp [State.init, Registry.empty]⟩

lemma reporting_of_reach (hf : Follows k report event) {fs : FileSystem}
    (hr : Reach State.step (fun _ a => a.Keeps) (State.init fs) s) :
    Reporting k report event s :=
  hr.invariant (reporting_init fs) fun _ _ _ h ha hs => h.step hf ha hs

/-- The calls made so far are those told first. -/
lemma State.Owns.callsOf (h : s.Owns k path cb) :
    s.callsOf cb = s.calls.filter (Call.To cb.id) ∧ s.callsOf cb <+: s.told cb.id := by
  have heq : s.callsOf cb = s.calls.filter (Call.To cb.id) := by
    refine List.filter_congr fun call hcall => ?_
    rw [Bool.eq_iff_iff, decide_eq_true_iff, to_iff]
    refine ⟨fun hc => ⟨cb, hc, rfl⟩, fun hto => h.told_eq call ?_⟩
    rw [State.told, List.mem_filter, to_iff]
    exact ⟨by simp [hcall], hto⟩
  refine ⟨heq, ?_⟩
  rw [heq, State.told, List.append_assoc, List.filter_append]
  exact List.prefix_append _ _

/-- When an iteration is complete and no report is queued, everything told has been called. -/
lemma State.Owns.callsOf_finish (h : s.Owns k path cb)
    (hq : ∀ call ∈ s.queued, call.To cb.id = false) (hs : s.step .finish = some s') :
    s'.callsOf cb = s.told cb.id := by
  have hcalls := h.callsOf.1
  obtain ⟨it, hit, ⟨htasks, htodo, -⟩, rfl⟩ := State.finish_cases hs
  have hnil : s.queued.filter (Call.To cb.id) = [] :=
    List.filter_eq_nil_iff.mpr fun call hcall => by simp [hq call hcall]
  calc s.callsOf cb = s.calls.filter (Call.To cb.id) := hcalls
    _ = s.told cb.id := by
      simp [State.told, State.begun, hit, Iteration.calls, htasks, htodo, hnil]

/-! ## A complete iteration -/

/-- The invariant of an iteration while the file system does not change: the callback has been
told what is there, or the poll has still to look at its path. -/
structure Settling (k : Kind) (report event : Callback → k.Last → Call) (path : Path)
    (cb : Callback) (s : State) : Prop where
  reporting : Reporting k report event s
  entry : (s.monitors k).entry.lookup path = some cb
  queued : ∀ call ∈ s.queued, call.To cb.id = false
  within : ∃ it, s.iteration = some it ∧
    (path ∈ (it.copies k).last ∨ Told (report cb) (event cb) (s.told cb.id) (look s.fs k path))

lemma fs_advance {id : ℕ} (hs : s.advance id = some s') : s'.fs = s.fs := by
  rw [State.advance] at hs
  cases hp : s.threads id with
  | returned => rw [hp] at hs; simp at hs
  | _ =>
      rw [hp] at hs
      obtain rfl := Option.some.inj hs
      rfl

/-- Only other processes change the file system. -/
lemma fs_step (hne : ∀ fs, a ≠ .change fs) (hs : s.step a = some s') : s'.fs = s.fs := by
  cases a with
  | change fs => exact absurd rfl (hne fs)
  | advance id => exact fs_advance (State.advance_cases hs)
  | wake =>
      obtain ⟨-, rfl⟩ := State.wake_cases hs
      rfl
  | task =>
      obtain ⟨_, _, _, -, rfl⟩ := State.task_cases hs
      rfl
  | finish =>
      obtain ⟨_, -, -, rfl⟩ := State.finish_cases hs
      rfl
  | check k' path' =>
      obtain ⟨_, _, -, -, -, rfl⟩ := State.check_cases hs
      rfl
  | proceed =>
      obtain ⟨_, _, step, _, -, rfl⟩ := State.proceed_cases hs
      cases step with
      | call call => cases call <;> rfl
      | getFileValue path' cb' t =>
          rw [State.runStep]
          split <;> rfl
      | _ => rfl
  | removeWatches path watchType =>
      obtain rfl := State.removeWatches_cases hs
      rfl
  | _ =>
      obtain rfl := State.enter_cases rfl hs
      rfl

/-- The iteration goes on, and the poll has still to look at the path unless it has. -/
lemma iteration_step (k : Kind) (path : Path) {it : Iteration} (hit : s.iteration = some it)
    (ha : a.Still) (hs : s.step a = some s') : ∃ it', s'.iteration = some it' ∧
      (a ≠ .check k path → path ∈ (it.copies k).last → path ∈ (it'.copies k).last) := by
  cases a with
  | advance id =>
      rw [(threads_advance (State.advance_cases hs)).2.2.1]
      exact ⟨it, hit, fun _ h => h⟩
  | wake =>
      rw [(State.wake_cases hs).1] at hit
      simp at hit
  | task =>
      obtain ⟨task, tasks, copies, hit', rfl⟩ := State.task_cases hs
      obtain rfl := Option.some.inj (hit.symm.trans hit')
      exact ⟨_, rfl, fun _ h => h⟩
  | finish => exact absurd ha id
  | change fs => exact absurd ha id
  | proceed =>
      obtain ⟨tasks, copies, step, todo, hit', rfl⟩ := State.proceed_cases hs
      obtain rfl := Option.some.inj (hit.symm.trans hit')
      cases step with
      | call call =>
          cases call with
          | none => exact ⟨_, hit, fun _ h => h⟩
          | some call => exact ⟨_, rfl, fun _ h => h⟩
      | getFileValue path' cb' t =>
          rw [State.runStep]
          split
          · exact ⟨_, hit, fun _ h => h⟩
          · exact ⟨_, rfl, fun _ h => h⟩
      | _ => exact ⟨_, rfl, fun _ h => h⟩
  | check k' path' =>
      obtain ⟨it', last, hit', -, -, rfl⟩ := State.check_cases hs
      obtain rfl := Option.some.inj (hit.symm.trans hit')
      refine ⟨_, rfl, fun hne hmem => ?_⟩
      -- a look erases the copy of its own path only
      by_cases hk : k = k'
      · subst hk
        simp only [Function.update_self, AList.mem_erase]
        exact ⟨fun hp => hne (by rw [hp]), hmem⟩
      · simpa only [Function.update_of_ne hk] using hmem
  | removeWatches path watchType =>
      obtain rfl := State.removeWatches_cases hs
      exact ⟨it, hit, fun _ h => h⟩
  | _ =>
      obtain rfl := State.enter_cases rfl hs
      exact ⟨it, hit, fun _ h => h⟩

/-- No report to a callback that has been entered is queued. -/
lemma Base.queued_step (h : Base s) (hown : s.Owns k path cb)
    (hq : ∀ call ∈ s.queued, call.To cb.id = false) (hs : s.step a = some s') :
    ∀ call ∈ s'.queued, call.To cb.id = false := by
  cases a with
  | advance id =>
      have hs' := State.advance_cases hs
      intro call hcall
      rcases queued_advance hs' hcall with hold | ⟨rest, hp⟩
      · exact hq call hold
      · -- a report that is queued now is one of the thread that runs, which has not returned
        have hprog := h.progress id
        rw [hp] at hprog
        refine Bool.eq_false_iff.mpr fun hto => (threads_advance hs').1 ?_
        rw [← to_unique hto hprog.2.1]
        exact hown.returned
  | wake =>
      obtain ⟨-, rfl⟩ := State.wake_cases hs
      simp [State.queued]
  | task =>
      obtain ⟨_, _, _, -, rfl⟩ := State.task_cases hs
      exact hq
  | finish =>
      obtain ⟨_, -, -, rfl⟩ := State.finish_cases hs
      exact hq
  | check k' path' =>
      obtain ⟨_, _, -, -, -, rfl⟩ := State.check_cases hs
      exact hq
  | proceed =>
      obtain ⟨_, _, step, _, -, rfl⟩ := State.proceed_cases hs
      cases step with
      | call call => cases call <;> exact hq
      | getFileValue path' cb' t =>
          rw [State.runStep]
          split <;> exact hq
      | _ => exact hq
  | change fs =>
      obtain rfl := State.change_cases hs
      exact hq
  | removeWatches path' watchType =>
      obtain rfl := State.removeWatches_cases hs
      simpa [State.queued, State.removeWatches, State.addTask, Task.calls] using hq
  | _ =>
      obtain rfl := State.enter_cases rfl hs
      exact hq

lemma Watched.lookup_step (h : Watched s) (hk : k ≠ .get)
    (hcb : (s.monitors k).entry.lookup path = some cb) (hs : s.step a = some s') :
    (s'.monitors k).entry.lookup path = some cb := by
  rcases h.entry_step hk hs with ⟨id, rfl⟩ | heq
  · exact (monitors_advance (State.advance_cases hs)).2 cb hcb
  · rw [heq]
    exact hcb

lemma Settling.step (h : Settling k report event path cb s) (hf : Follows k report event)
    (ha : a.Keeps) (hstill : a.Still) (hs : s.step a = some s') :
    Settling k report event path cb s' := by
  have hw := h.reporting.watched
  obtain ⟨it, hit, hwithin⟩ := h.within
  obtain ⟨it', hit', hmem⟩ := iteration_step k path hit hstill hs
  have hfs := fs_step (fun fs heq => by subst heq; exact hstill) hs
  refine ⟨h.reporting.step hf ha hs, hw.lookup_step hf.ne_get h.entry hs,
    hw.base.queued_step (hw.base.stored k path cb h.entry) h.queued hs, it', hit', ?_⟩
  rw [hfs]
  by_cases hcheck : a = .check k path
  · subst hcheck
    exact Or.inr (h.reporting.check hf h.entry hs).1
  · refine hwithin.imp (hmem hcheck) fun htold => ?_
    rw [hw.told_eq hf.ne_get h.entry hcheck hs]
    exact htold

/-- When an iteration begins, the poll has everything to look at. -/
lemma Reporting.settling (h : Reporting k report event s)  (hf : Follows k report event)
    (hcb : (s.monitors k).entry.lookup path = some cb) (hs : s.step .wake = some s') :
    Settling k report event path cb s' := by
  have hkeeps : Action.wake.Keeps := trivial
  have hstep : Reporting k report event s' := h.step hf hkeeps hs
  obtain ⟨-, rfl⟩ := State.wake_cases hs
  refine ⟨hstep, hcb, by simp [State.queued], _, rfl, Or.inl ?_⟩
  exact (h.watched.inv.paired k path).mpr (Registry.mem_of_lookup hcb)

/-- When it is complete, everything has been looked at, and told. -/
lemma Settling.finish (h : Settling k report event path cb s) (hs : s.step .finish = some s') :
    ToldLast (report cb) (event cb) (look s'.fs k path) (s'.callsOf cb) := by
  obtain ⟨it, hit, hwithin⟩ := h.within
  have hown := h.reporting.watched.base.stored k path cb h.entry
  rw [hown.callsOf_finish h.queued hs, fs_step (by simp) hs]
  obtain ⟨it', hit', ⟨-, -, hcopies⟩, -⟩ := State.finish_cases hs
  obtain rfl := Option.some.inj (hit.symm.trans hit')
  refine (hwithin.resolve_left fun hmem => ?_).toldLast
  rw [AList.mem_keys, hcopies k (by cases k <;> simp)] at hmem
  simp at hmem

/-- The callback in the map has been told alternating values, and after a complete iteration over
an unchanged file system it has been told what is there. -/
def State.Informed (s : State) (k : Kind) (report event : Callback → k.Last → Call)
    (path : Path) (cb : Callback) : Prop :=
  Alternates (report cb) (event cb) (s.callsOf cb) ∧
    ∀ s', CompleteIteration (fun _ a => a.Keeps) s s' →
      ToldLast (report cb) (event cb) (look s'.fs k path) (s'.callsOf cb)

lemma Reporting.inform (h : Reporting k report event s) (hf : Follows k report event)
    (hcb : (s.monitors k).entry.lookup path = some cb) : s.Informed k report event path cb := by
  constructor
  · obtain ⟨v, htold, -⟩ := h.value path cb hcb
    exact htold.alternates (h.watched.base.stored k path cb hcb).callsOf.2
  · rintro s' ⟨t, u, hwake, hrun, hfinish⟩
    have hu := hrun.invariant (I := Settling k report event path cb) (h.settling hf hcb hwake)
      fun _ _ _ h ha hs => h.step hf ha.1 ha.2 hs
    exact hu.finish hfinish

/-- In every run without a removal, the callbacks of the existence and of the child monitors
have been told alternating values, and after a complete iteration over an unchanged file system
what is there. -/
theorem informed {fs : FileSystem}
    (hr : Reach State.step (fun _ a => a.Keeps) (State.init fs) s) (path : Path) (cb : Callback) :
    ((s.monitors .exist).entry.lookup path = some cb →
      s.Informed .exist existReport existEvent path cb) ∧
    ((s.monitors .sub).entry.lookup path = some cb →
      s.Informed .sub subReport subEvent path cb) :=
  ⟨(reporting_of_reach follows_exist hr).inform follows_exist,
    (reporting_of_reach follows_sub hr).inform follows_sub⟩

/-- A path is watched before it is created; one iteration finds it, and the next one finds that it
is gone again. -/
theorem informed_created : ∃ (s s' : State) (cb : Callback),
    (s.monitors .exist).entry.lookup ['/', 'p'] = some cb ∧
      s.callsOf cb = [existReport cb false, existEvent cb true] ∧
      CompleteIteration (fun _ a => a.Keeps) s s' ∧
      s'.callsOf cb = [existReport cb false, existEvent cb true, existEvent cb false] ∧
      Alternates (existReport cb) (existEvent cb) (s.callsOf cb) ∧
      ToldLast (existReport cb) (existEvent cb) (look s'.fs .exist ['/', 'p']) (s'.callsOf cb) := by
  obtain ⟨s, hs, hobs⟩ := exists_reach_of_exec State.step (fun _ a => a.Keeps) (State.init emptyFs)
    [.existsPath true ['/', 'p'], .advance 0, .advance 0, .advance 0,
      .change (oneFile ['/', 'p'] [] 1), .wake, .task, .proceed, .check .exist ['/', 'p'],
      .proceed, .proceed, .finish, .change emptyFs]
    (fun s => ((s.monitors .exist).entry.lookup ['/', 'p'], s.calls,
      (s.step .wake).bind fun t => (exec State.step (fun _ a => a.Keeps ∧ a.Still) t
        [.check .exist ['/', 'p'], .proceed, .proceed]).bind fun u =>
          (u.step .finish).map State.calls))
    (some ⟨.exist, ['/', 'p'], 0⟩,
      [.existed ⟨.exist, ['/', 'p'], 0⟩ .notExist .dummy,
        .existed ⟨.exist, ['/', 'p'], 0⟩ .ok .created],
      some [.existed ⟨.exist, ['/', 'p'], 0⟩ .notExist .dummy,
        .existed ⟨.exist, ['/', 'p'], 0⟩ .ok .created,
        .existed ⟨.exist, ['/', 'p'], 0⟩ .notExist .deleted]) rfl
  obtain ⟨hcb, hobs⟩ := Prod.mk.inj hobs
  obtain ⟨hcalls, hend⟩ := Prod.mk.inj hobs
  obtain ⟨s', hit, hcalls'⟩ := exists_completeIteration _ hend
  obtain ⟨halt, htold⟩ := (informed hs _ _).1 hcb
  exact ⟨s, s', _, hcb, by rw [State.callsOf, hcalls]; rfl, hit,
    by rw [State.callsOf, hcalls']; rfl, halt, htold s' hit⟩

end LocalFile

end ConfigMonitor
