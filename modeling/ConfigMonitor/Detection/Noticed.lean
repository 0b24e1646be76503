/-
# Expired sessions are noticed

Once `is_conntected_` is down and the thread has the wait for the connection behind it, the
handler is entered after a few steps of the thread, whatever the others do.  While the thread
waits for the connection the flag may go up and down again unseen; then it waits for ever.
-/
import ConfigMonitor.Detection.Handled
import ConfigMonitor.Lib.Progress

namespace ConfigMonitor

open Run

namespace Detection

variable {s s' : State} {h h' : Handle} {i : ℕ} {a : Action}

/-! ## What the threads of a handle leave alone -/

/-- Nothing has changed but a handle and the flags that the watcher writes. -/
structure Frame (s s' : State) : Prop where
  run : s'.run = s.run
  hasCredential : s'.hasCredential = s.hasCredential
  zh : s'.zh = s.zh
  opened : s'.opened = s.opened
  control : s'.control = s.control
  started : s'.started = s.started
  destructor : s'.destructor = s.destructor
  entered : s'.entered = s.entered

lemma frame_watcher (hs : s.watcher i = some s') : Frame s s' := by
  rw [State.watcher] at hs
  split_ifs at hs
  · obtain rfl := Option.some.inj hs
    exact ⟨rfl, rfl, rfl, rfl, rfl, rfl, rfl, rfl⟩
  · cases hev : (s.handles i).events with
    | nil => simp [hev] at hs
    | cons e rest =>
        rw [hev] at hs
        cases e with
        | connected | expired | connecting | authFailed =>
            obtain rfl := Option.some.inj hs
            exact ⟨rfl, rfl, rfl, rfl, rfl, rfl, rfl, rfl⟩

/-- The destructor stops the loop and closes a handle. -/
lemma frame_destruct (hs : s.destruct = some s') :
    s'.entered = s.entered ∧ s'.control = s.control ∧ (s.run = false → s'.run = false) := by
  rw [State.destruct] at hs
  cases hd : s.destructor with
  | idle =>
      rw [hd] at hs
      dsimp only at hs
      split_ifs at hs
      obtain rfl := Option.some.inj hs
      exact ⟨rfl, rfl, fun _ => rfl⟩
  | joining =>
      rw [hd] at hs
      dsimp only at hs
      split_ifs at hs
      obtain rfl := Option.some.inj hs
      exact ⟨rfl, rfl, id⟩
  | closing =>
      rw [hd] at hs
      dsimp only at hs
      cases hz : s.zh with
      | none =>
          rw [hz] at hs
          obtain rfl := Option.some.inj hs
          exact ⟨rfl, rfl, id⟩
      | some i =>
          rw [hz] at hs
          obtain ⟨s₁, hclose, rfl⟩ := Option.map_eq_some_iff.mp hs
          rw [State.close] at hclose
          split_ifs at hclose
          obtain rfl := Option.some.inj hclose
          exact ⟨rfl, rfl, id⟩
  | done => simp [hd] at hs

/-- The destructor waits for the thread. -/
lemma idle_of_destruct (hi : Inv s) (hover : s.control.isOver = false)
    (hs : s.destruct = some s') : s.destructor = .idle ∧ s'.run = false := by
  rw [State.destruct] at hs
  cases hd : s.destructor with
  | idle =>
      rw [hd] at hs
      dsimp only at hs
      split_ifs at hs
      obtain rfl := Option.some.inj hs
      exact ⟨rfl, rfl⟩
  | joining =>
      rw [hd] at hs
      dsimp only at hs
      split_ifs at hs with hmay
      exfalso
      rcases hmay with hfin | hst
      · simp [hfin, Control.isOver] at hover
      · rw [hi.stops (Or.inr (Or.inr ⟨hd, hst⟩))] at hover
        simp at hover
  | closing =>
      rw [hi.stops (Or.inl hd)] at hover
      simp at hover
  | done => simp [hd] at hs

/-- A step of the IO thread or of the completion thread of an open handle, of the thread, or of the
destructor. -/
lemma step_cases (hs : s.step a = some s') :
    (∃ i e h, a = .io i e ∧ s.isOpen i = true ∧ (s.handles i).io e = some h ∧
      s' = s.setHandle i h) ∨
    (∃ i, a = .watcher i ∧ s.isOpen i = true ∧ s.watcher i = some s') ∨
    (∃ ok, a = .thread ok ∧ s.thread ok = some s') ∨ (a = .destructor ∧ s.destruct = some s') := by
  unfold State.step at hs
  split_ifs at hs
  cases a with
  | io i e =>
      dsimp only at hs
      split_ifs at hs with ho
      obtain ⟨h, hh, rfl⟩ := Option.map_eq_some_iff.mp hs
      exact Or.inl ⟨i, e, h, rfl, ho, hh, rfl⟩
  | watcher i =>
      dsimp only at hs
      split_ifs at hs with ho
      exact Or.inr (Or.inl ⟨i, rfl, ho, hs⟩)
  | thread ok => exact Or.inr (Or.inr (Or.inl ⟨ok, rfl, hs⟩))
  | destructor => exact Or.inr (Or.inr (Or.inr ⟨rfl, hs⟩))

/-! ## In time -/

/-- The steps that are left until the handler has been entered. -/
def Control.left : Control → ℕ
  | .auth => 9
  | .setNeedDetect => 8
  | .recvTimeout => 7
  | .rewatch => 6
  | .check => 5
  | .readNeedDetect => 4
  | .probe => 3
  | .readConnected => 2
  | .clear => 1
  | _ => 0

/-- A step of the thread that detects. -/
def Action.isThread : Action → Bool
  | .thread _ => true
  | _ => false

/-- The flag is down, and the thread is past the wait for the connection. -/
structure Down (i : ℕ) (s : State) : Prop where
  inv : Inv s
  index : s.entered.length = i
  stage : s.control.stage ≠ .other
  down : s.isConnected = false
  run : s.run = true

/-- The handler has been entered for the session, or the destructor has been called, or the
authentication has failed. -/
def Settled (i : ℕ) (s : State) : Prop :=
  i ∈ s.entered ∨ s.run = false ∨ s.control = .authThrew

lemma serving_of_stage {c : Control} (hc : c.stage ≠ .other) :
    c.isServing = true ∧ c.isOver = false ∧ 0 < c.left := by
  cases c <;> simp_all [Control.stage, Control.isServing, Control.isOver, Control.left]

lemma Down.hasExpired (hd : Down i s) : s.HasExpired := by
  have he := hd.inv.explained
  rw [State.Explained, hd.down, hd.run] at he
  cases hst : s.control.stage with
  | other => exact absurd hst hd.stage
  | waited | looking =>
      rw [hst] at he
      simpa using he
  | decided =>
      rw [hst] at he
      exact he

/-- An expired session whose end has been told has no more events. -/
lemma Handle.Fits.events_eq_nil (hf : h.Fits) (ht : .expired ∈ h.told) :
    h.phase = .expired ∧ h.events = [] := by
  cases hf with
  | going ne events told => exact absurd ht told
  | ending phase events front_ne told => exact absurd ht told
  | ended phase events => exact ⟨phase, events⟩

/-- Where the thread goes it is nearer to the handler. -/
lemma Goes.left {c : Control} (hg : Goes s c) (hst : s.control.stage ≠ .other)
    (hdown : s.isConnected = false) (hrun : s.run = true) :
    c = .authThrew ∨ c.stage ≠ .other ∧ c.left + 1 ≤ s.control.left := by
  cases hg with
  | connected hc | waits hc | again hc | givesUp hc => simp [hc, Control.stage] at hst
  | throws => exact Or.inl rfl
  | ends hc stopped => simp [hrun] at stopped
  | isUp hc up => simp [hdown] at up
  | authenticated hc | detects hc | returns hc | begins hc | rewatched hc | round hc | probes hc
  | skips hc | probed hc | isDown hc => exact Or.inr (by simp [hc, Control.stage, Control.left])

lemma Settled.step (hset : Settled i s) (hs : s.step a = some s') : Settled i s' := by
  rcases step_cases hs with ⟨j, e, h, rfl, ho, hh, rfl⟩ | ⟨j, rfl, ho, hw⟩ | ⟨ok, rfl, hth⟩ |
    ⟨rfl, hdes⟩
  · exact hset
  · have hframe := frame_watcher hw
    rw [Settled, hframe.entered, hframe.run, hframe.control]
    exact hset
  · rcases thread_cases hth with ⟨c, n, t, hg, -, rfl⟩ | hturns
    · refine hset.imp_right fun hor => hor.imp_right fun hthrew => ?_
      cases hg <;> simp_all
    · cases hturns with
      | starts hc | opens hc | throws hc =>
          exact hset.imp_right fun hor => hor.imp_right fun hthrew => by simp [hthrew] at hc
      | enters hc =>
          exact hset.imp (List.mem_append_left _)
            fun hor => hor.imp_right fun hthrew => by simp [hthrew] at hc
      | closes hc hzh hclose =>
          rw [State.close] at hclose
          split_ifs at hclose
          obtain rfl := Option.some.inj hclose
          exact hset.imp_right fun hor => hor.imp_right fun hthrew => by simp [hthrew] at hc
  · obtain ⟨hentered, hcontrol, hrun⟩ := frame_destruct hdes
    rw [Settled, hentered, hcontrol]
    exact hset.imp_right fun hor => hor.imp_left hrun

lemma drives : Drives State.step Action.isThread (Down i) (Settled i) fun s => s.control.left where
  pos s hd := (serving_of_stage hd.stage).2.2
  keeps _ _ _ hset hs := hset.step hs
  drives s a s' hd hs := by
    have hinv := hd.inv.step hs
    obtain ⟨hserv, hover, -⟩ := serving_of_stage hd.stage
    rcases step_cases hs with ⟨j, e, h, rfl, ho, hh, rfl⟩ | ⟨j, rfl, ho, hw⟩ | ⟨ok, rfl, hth⟩ |
      ⟨rfl, hdes⟩
    · exact Or.inr ⟨⟨hinv, hd.index, hd.stage, hd.down, hd.run⟩, Nat.le_refl _⟩
    · have hframe := frame_watcher hw
      obtain rfl := hd.inv.current ho hserv
      obtain ⟨-, hev⟩ := (hd.inv.fits _).events_eq_nil hd.hasExpired
      -- there is nothing to be told but the second write
      have hdown : s'.isConnected = false := by
        cases told_of_watcher (hd.inv.fits _) hw with
        | reset => rfl
        | expired fits events => simp [hev] at events
        | other events => simp [hev] at events
      refine Or.inr ⟨⟨hinv, ?_, ?_, hdown, hframe.run.trans hd.run⟩, ?_⟩
      · rw [hframe.entered, hd.index]
      · rw [hframe.control]
        exact hd.stage
      · rw [hframe.control]
        exact Nat.le_refl _
    · rcases thread_cases hth with ⟨c, n, t, hg, -, rfl⟩ | hturns
      · rcases hg.left hd.stage hd.down hd.run with rfl | ⟨hst, hlt⟩
        · exact Or.inl (Or.inr (Or.inr rfl))
        · exact Or.inr ⟨⟨hinv, hd.index, hst, hd.down, hd.run⟩, hlt⟩
      · cases hturns with
        | starts hc | opens hc | throws hc | closes hc =>
            exact absurd (by rw [hc]; rfl) hd.stage
        | enters hc =>
            refine Or.inl (Or.inl ?_)
            rw [(hd.inv.zh_of_serving hserv).1, hd.index]
            exact List.mem_append_right _ List.mem_cons_self
    · exact Or.inl (Or.inr (Or.inl (idle_of_destruct hd.inv hover hdes).2))

/-- Whatever the other threads do, the handler has been entered for the session after as many
steps of the thread as `left` says, unless the destructor has been called or the authentication
has failed. -/
theorem noticed_in_time {hasCredential : Bool}
    (hr : Reach State.step (fun _ _ => True) (State.init hasCredential) s)
    (hstage : s.control.stage ≠ .other) (hdown : s.isConnected = false) (hrun : s.run = true)
    {acts : List Action} (hruns : Runs State.step s acts s')
    (hlong : s.control.left ≤ acts.countP Action.isThread) :
    Settled s.entered.length s' :=
  drives.reaches ⟨inv_of_reach hr, rfl, hstage, hdown, hrun⟩ hruns hlong

/-- The flag goes down after the thread has looked at `run_`; the handler is entered in the fourth
step of the thread from there. -/
theorem noticed_in_time_looking : ∃ s : State, s.control = .readNeedDetect ∧
    ∀ s' acts, Runs State.step s acts s' → 4 ≤ acts.countP Action.isThread → Settled 0 s' := by
  obtain ⟨s, hr, hobs⟩ := exists_reach_of_exec State.step (fun _ _ => True) (State.init false)
    (firstExpiry.take 15) (fun s => (s.control, s.isConnected, s.run, s.entered))
    (.readNeedDetect, false, true, []) (by decide +kernel)
  simp only [Prod.mk.injEq] at hobs
  obtain ⟨hctl, hdown, hrun, hentered⟩ := hobs
  refine ⟨s, hctl, fun s' acts hruns hlong => ?_⟩
  have hset := noticed_in_time hr (by simp [hctl, Control.stage]) hdown hrun hruns
    (by rw [hctl]; exact hlong)
  rwa [hentered] at hset

end Detection

end ConfigMonitor
