/-
# Expired sessions and their handles

The handler is entered for one session after the other, each time because the session has
expired, and each handle is closed once, by the handler or by the destructor.
-/
import ConfigMonitor.Detection.Threads

namespace ConfigMonitor

open Run

namespace Detection

/-! ## What the thread does -/

/-- Where the thread goes with the handle it works with. -/
inductive Goes (s : State) : Control → Prop
  | connected (at_poll : s.control = .pollConnected) (up : s.isConnected = true) : Goes s .auth
  | waits (at_poll : s.control = .pollConnected) (down : s.isConnected = false) : Goes s .pollRun
  | again (at_run : s.control = .pollRun) (run : s.run = true) : Goes s .pollConnected
  | givesUp (at_run : s.control = .pollRun) (stopped : s.run = false) : Goes s .auth
  | authenticated {i : ℕ} {ok : Bool} (at_auth : s.control = .auth) (zh : s.zh = some i)
      (accepted : s.authFails i ok = false) : Goes s .setNeedDetect
  | throws {i : ℕ} {ok : Bool} (at_auth : s.control = .auth) (zh : s.zh = some i)
      (refused : s.authFails i ok = true) : Goes s .authThrew
  | detects (at_set : s.control = .setNeedDetect) : Goes s .recvTimeout
  | returns (at_recv : s.control = .recvTimeout) (started : s.started = true) : Goes s .rewatch
  | begins (at_recv : s.control = .recvTimeout) (first : s.started = false) : Goes s .check
  | rewatched (at_rewatch : s.control = .rewatch) : Goes s .check
  | round (at_check : s.control = .check) (run : s.run = true) : Goes s .readNeedDetect
  | ends (at_check : s.control = .check) (stopped : s.run = false) : Goes s .finished
  | probes (at_read : s.control = .readNeedDetect) : Goes s .probe
  | skips (at_read : s.control = .readNeedDetect) : Goes s .readConnected
  | probed (at_probe : s.control = .probe) : Goes s .readConnected
  | isUp (at_read : s.control = .readConnected) (up : s.isConnected = true) : Goes s .check
  | isDown (at_read : s.control = .readConnected) (down : s.isConnected = false) : Goes s .clear

/-- What else the thread does: it starts, opens a handle or fails to, enters the handler, and
closes a handle. -/
inductive Turns (s : State) : State → Prop
  | starts (at_start : s.control = .start) : Turns s { s with control := .opening }
  | opens (at_opening : s.control = .opening) : Turns s
      { s.setHandle s.opened .new with
        zh := some s.opened, opened := s.opened + 1, control := .pollConnected }
  | throws (at_opening : s.control = .opening) :
      Turns s { s with zh := none, control := .initThrew }
  | enters (at_clear : s.control = .clear) :
      Turns s { s with entered := s.entered ++ s.zh.toList, control := .closing }
  | closes {i : ℕ} {s' : State} (at_closing : s.control = .closing) (zh : s.zh = some i)
      (closed : s.close i = some s') : Turns s { s' with control := .opening }

lemma thread_cases {s s' : State} {ok : Bool} (hs : s.thread ok = some s') :
    (∃ c n t, Goes s c ∧ (t = s.started ∨ t = true) ∧
      s' = { s with control := c, needDetect := n, started := t }) ∨ Turns s s' := by
  have hgoes : ∀ {c : Control}, Goes s c → ∃ c' n t, Goes s c' ∧ (t = s.started ∨ t = true) ∧
      { s with control := c } = { s with control := c', needDetect := n, started := t } :=
    fun hc => ⟨_, s.needDetect, s.started, hc, Or.inl rfl, rfl⟩
  rw [State.thread] at hs
  cases hc : s.control with
  | start =>
      rw [hc] at hs
      obtain rfl := Option.some.inj hs
      exact Or.inr (.starts hc)
  | opening =>
      rw [hc] at hs
      dsimp only at hs
      split_ifs at hs
      · obtain rfl := Option.some.inj hs
        exact Or.inr (.opens hc)
      · obtain rfl := Option.some.inj hs
        exact Or.inr (.throws hc)
  | pollConnected =>
      rw [hc] at hs
      obtain rfl := Option.some.inj hs
      split_ifs with hup
      · exact Or.inl (hgoes (.connected hc hup))
      · exact Or.inl (hgoes (.waits hc (Bool.eq_false_iff.mpr hup)))
  | pollRun =>
      rw [hc] at hs
      obtain rfl := Option.some.inj hs
      split_ifs with hrun
      · exact Or.inl (hgoes (.again hc hrun))
      · exact Or.inl (hgoes (.givesUp hc (Bool.eq_false_iff.mpr hrun)))
  | auth =>
      rw [hc] at hs
      obtain ⟨i, hzh, rfl⟩ := Option.map_eq_some_iff.mp hs
      split_ifs with hfails
      · exact Or.inl (hgoes (.throws hc hzh hfails))
      · exact Or.inl (hgoes (.authenticated hc hzh (Bool.eq_false_iff.mpr hfails)))
  | setNeedDetect =>
      rw [hc] at hs
      obtain rfl := Option.some.inj hs
      exact Or.inl ⟨_, _, _, .detects hc, Or.inl rfl, rfl⟩
  | recvTimeout =>
      rw [hc] at hs
      obtain rfl := Option.some.inj hs
      refine Or.inl ⟨_, s.needDetect, _, ?_, Or.inr rfl, rfl⟩
      split_ifs with hst
      · exact .returns hc hst
      · exact .begins hc (Bool.eq_false_iff.mpr hst)
  | rewatch =>
      rw [hc] at hs
      obtain rfl := Option.some.inj hs
      exact Or.inl (hgoes (.rewatched hc))
  | check =>
      rw [hc] at hs
      obtain rfl := Option.some.inj hs
      split_ifs with hrun
      · exact Or.inl (hgoes (.round hc hrun))
      · exact Or.inl (hgoes (.ends hc (Bool.eq_false_iff.mpr hrun)))
  | readNeedDetect =>
      rw [hc] at hs
      obtain rfl := Option.some.inj hs
      split_ifs
      · exact Or.inl (hgoes (.probes hc))
      · exact Or.inl (hgoes (.skips hc))
  | probe =>
      rw [hc] at hs
      obtain rfl := Option.some.inj hs
      exact Or.inl (hgoes (.probed hc))
  | readConnected =>
      rw [hc] at hs
      obtain rfl := Option.some.inj hs
      split_ifs with hup
      · exact Or.inl (hgoes (.isUp hc hup))
      · exact Or.inl (hgoes (.isDown hc (Bool.eq_false_iff.mpr hup)))
  | clear =>
      rw [hc] at hs
      obtain rfl := Option.some.inj hs
      exact Or.inr (.enters hc)
  | closing =>
      rw [hc] at hs
      obtain ⟨i, hzh, hs⟩ := Option.bind_eq_some_iff.mp hs
      obtain ⟨s₁, hclose, rfl⟩ := Option.map_eq_some_iff.mp hs
      exact Or.inr (.closes hc hzh hclose)
  | finished => simp [hc] at hs
  | initThrew => simp [hc] at hs
  | authThrew => simp [hc] at hs

/-! ## The invariant -/

/-- A session that expires reports this last. -/
inductive Handle.Fits (h : Handle) : Prop
  | going (ne : h.phase ≠ .expired) (events : .expired ∉ h.events) (told : .expired ∉ h.told)
      (resetting : h.resetting = false)
  | ending (phase : h.phase = .expired) {front : List SessionState}
      (events : h.events = front ++ [.expired]) (front_ne : .expired ∉ front)
      (told : .expired ∉ h.told) (resetting : h.resetting = false)
  | ended (phase : h.phase = .expired) (events : h.events = []) (told : .expired ∈ h.told)

/-- The thread works with a handle for which the handler has not been entered. -/
def Control.isServing : Control → Bool
  | .start | .opening | .closing | .initThrew => false
  | _ => true

/-- The thread is done. -/
def Control.isOver : Control → Bool
  | .finished | .initThrew | .authThrew => true
  | _ => false

/-- How much the thread has made sure of. -/
inductive Stage
  | other
  | waited
  | looking
  | decided

/-- After the wait for the connection, in a round of the loop, and when the flag has been found
down. -/
def Control.stage : Control → Stage
  | .auth | .setNeedDetect | .recvTimeout | .rewatch | .check => .waited
  | .readNeedDetect | .probe | .readConnected => .looking
  | .clear => .decided
  | _ => .other

namespace State

/-- The newest handle is open. -/
def holds (s : State) : Prop :=
  (s.control.isServing = true ∨ s.control = .closing) ∧ s.destructor ≠ .done

/-- The newest session has expired, as the watcher has been told. -/
def HasExpired (s : State) : Prop := .expired ∈ (s.handles s.entered.length).told

/-- Why the thread is where it is: past the wait for the connection the flag is up, or the session
has expired, or the wait was given up. -/
def Explained (s : State) : Prop :=
  match s.control.stage with
  | .other => True
  | .waited => s.isConnected = true ∨ s.HasExpired ∨ s.run = false
  | .looking => s.isConnected = true ∨ s.HasExpired
  | .decided => s.HasExpired

end State

/-- The flags: `run_` is up until the destructor is called, the loop ends when it is down, and
`is_conntected_` is up after the session has expired only while the watcher is between its two
writes. -/
structure Flags (s : State) : Prop where
  running : s.destructor = .idle → s.run = true
  finished : s.control = .finished → s.run = false
  up : s.isConnected = true → s.control.isServing = true → s.HasExpired →
    (s.handles s.entered.length).resetting = true

/-- The invariant. -/
structure Inv (s : State) : Prop where
  fits : ∀ i, (s.handles i).Fits
  entered_eq : s.entered = List.range s.entered.length
  opened_eq : s.opened = s.entered.length + if s.control.isServing = true then 1 else 0
  start_eq : s.control = .start → s.opened = 0
  closing_pos : s.control = .closing → 0 < s.opened
  started_pos : s.started = true → 0 < s.opened
  zh_eq : s.zh = if s.control = .initThrew ∨ s.opened = 0 then none else some (s.opened - 1)
  closes_held : s.holds → ∀ i, i + 1 = s.opened → (s.handles i).closes = 0
  closes_past : ∀ i < s.opened, i + 1 ≠ s.opened ∨ ¬ s.holds → (s.handles i).closes = 1
  expired : ∀ i ∈ s.entered, .expired ∈ (s.handles i).told
  explained : s.Explained
  flags : Flags s
  stops : s.destructor = .closing ∨ s.destructor = .done ∨
    (s.destructor = .joining ∧ s.started = false) → s.control.isOver = true

variable {s s' : State} {h h' : Handle} {i : ℕ}

/-! ## Handles -/

/-- The IO thread changes the state of the session and queues events. -/
lemma Handle.Fits.io (hf : h.Fits) {e : Io} (hs : h.io e = some h') :
    h'.Fits ∧ h'.told = h.told ∧ h'.closes = h.closes ∧ h'.resetting = h.resetting := by
  cases hf with
  | ending phase events front_ne told resetting => cases e <;> simp [Handle.io, phase] at hs
  | ended phase events told => cases e <;> simp [Handle.io, phase] at hs
  | going ne events told resetting =>
      cases e with
      | dial =>
          rw [Handle.io] at hs
          split_ifs at hs
          obtain rfl := Option.some.inj hs
          exact ⟨.going (by simp) events told resetting, rfl, rfl, rfl⟩
      | establish =>
          rw [Handle.io] at hs
          split_ifs at hs
          obtain rfl := Option.some.inj hs
          exact ⟨.going (by simp) (by simpa using events) told resetting, rfl, rfl, rfl⟩
      | lose =>
          rw [Handle.io] at hs
          split at hs
          · obtain rfl := Option.some.inj hs
            exact ⟨.going (by simp) events told resetting, rfl, rfl, rfl⟩
          · obtain rfl := Option.some.inj hs
            exact ⟨.going (by simp) (by simpa using events) told resetting, rfl, rfl, rfl⟩
          · simp at hs
      | expire =>
          rw [Handle.io] at hs
          split_ifs at hs
          obtain rfl := Option.some.inj hs
          exact ⟨.ending rfl rfl events told resetting, rfl, rfl, rfl⟩
      | authFail =>
          rw [Handle.io] at hs
          split_ifs at hs
          obtain rfl := Option.some.inj hs
          exact ⟨.going (by simp) (by simpa using events) told resetting, rfl, rfl, rfl⟩

/-- What the completion thread does for a handle, and what it writes. -/
inductive Told (s : State) (i : ℕ) : State → Prop
  | reset (expired : .expired ∈ (s.handles i).told)
      (fits : { s.handles i with resetting := false }.Fits) :
      Told s i
        { s.setHandle i { s.handles i with resetting := false } with isConnected := false }
  | expired (fits : { s.handles i with
        events := [], told := (s.handles i).told ++ [SessionState.expired]
        resetting := true }.Fits)
      (events : (s.handles i).events = [.expired]) :
      Told s i
        { s.setHandle i { s.handles i with
            events := [], told := (s.handles i).told ++ [.expired], resetting := true } with
          needDetect := false }
  | other {e : SessionState} {rest : List SessionState} {b : Bool}
      (events : (s.handles i).events = e :: rest) (ne : e ≠ .expired)
      (flag : b = s.isConnected ∨ b = true ∧ e = .connected)
      (fits : { s.handles i with events := rest, told := (s.handles i).told ++ [e] }.Fits) :
      Told s i
        { s.setHandle i { s.handles i with events := rest, told := (s.handles i).told ++ [e] } with
          isConnected := b }

/-- The watcher is told the next event, or makes its second write. -/
lemma told_of_watcher (hf : (s.handles i).Fits) (hs : s.watcher i = some s') : Told s i s' := by
  rw [State.watcher] at hs
  cases hf with
  | going ne events told resetting =>
      rw [if_neg (by simp [resetting])] at hs
      cases hev : (s.handles i).events with
      | nil => simp [hev] at hs
      | cons e rest =>
          rw [hev] at hs events
          obtain ⟨he, hrest⟩ := List.ne_and_not_mem_of_not_mem_cons events
          have hfits : { s.handles i with
              events := rest, told := (s.handles i).told ++ [e] }.Fits :=
            .going ne hrest (by simp [told, he]) resetting
          cases e with
          | expired => exact absurd rfl he
          | connected =>
              obtain rfl := Option.some.inj hs
              exact .other hev (by simp) (Or.inr ⟨rfl, rfl⟩) hfits
          | connecting | authFailed =>
              obtain rfl := Option.some.inj hs
              exact .other hev (by simp) (Or.inl rfl) hfits
  | @ending phase front events front_ne told resetting =>
      rw [if_neg (by simp [resetting])] at hs
      cases front with
      | nil =>
          rw [List.nil_append] at events
          rw [events] at hs
          obtain rfl := Option.some.inj hs
          exact .expired (.ended phase rfl (List.mem_append_right _ List.mem_cons_self)) events
      | cons e rest =>
          rw [List.cons_append] at events
          rw [events] at hs
          obtain ⟨he, hrest⟩ := List.ne_and_not_mem_of_not_mem_cons front_ne
          have hfits : { s.handles i with
              events := rest ++ [SessionState.expired], told := (s.handles i).told ++ [e] }.Fits :=
            .ending phase rfl hrest (by simp [told, he]) resetting
          cases e with
          | expired => exact absurd rfl he
          | connected =>
              obtain rfl := Option.some.inj hs
              exact .other events (by simp) (Or.inr ⟨rfl, rfl⟩) hfits
          | connecting | authFailed =>
              obtain rfl := Option.some.inj hs
              exact .other events (by simp) (Or.inl rfl) hfits
  | ended phase events told =>
      split_ifs at hs with hreset
      · obtain rfl := Option.some.inj hs
        exact .reset told (.ended phase events told)
      · simp [events] at hs

/-! ## The steps of a handle -/

lemma State.HasExpired.explained (he : s.HasExpired) : s.Explained := by
  rw [State.Explained]
  cases s.control.stage with
  | other => trivial
  | waited => exact Or.inr (Or.inl he)
  | looking => exact Or.inr he
  | decided => exact he

lemma explained_of_not_serving (hc : s.control.isServing = false) : s.Explained := by
  rw [State.Explained]
  cases hctl : s.control <;> simp_all [Control.isServing, Control.stage]

/-- The thread stays where it is: the flag goes down only for a session that has expired. -/
lemma State.Explained.mono (he : s.Explained) (hc : s'.control = s.control) (hr : s'.run = s.run)
    (hflag : s.isConnected = true → s'.isConnected = true ∨ s'.HasExpired)
    (hexp : s.HasExpired → s'.HasExpired) : s'.Explained := by
  rw [State.Explained] at he ⊢
  rw [hc, hr]
  cases hst : s.control.stage with
  | other => trivial
  | waited =>
      rw [hst] at he
      rcases he with he | he | he
      · exact (hflag he).imp_right Or.inl
      · exact Or.inr (Or.inl (hexp he))
      · exact Or.inr (Or.inr he)
  | looking =>
      rw [hst] at he
      exact he.elim hflag fun he => Or.inr (hexp he)
  | decided =>
      rw [hst] at he
      exact hexp he

/-- Only the newest handle is open. -/
lemma Inv.newest (hi : Inv s) (ho : s.isOpen i = true) : i + 1 = s.opened ∧ s.holds := by
  rw [State.isOpen, Bool.and_eq_true, decide_eq_true_eq, beq_iff_eq] at ho
  by_contra hno
  have hone := hi.closes_past i ho.1 (not_and_or.mp hno)
  omega

/-- While the thread serves, the newest handle is the one it works with. -/
lemma Inv.current (hi : Inv s) (ho : s.isOpen i = true) (hserv : s.control.isServing = true) :
    i = s.entered.length := by
  obtain ⟨hnew, -⟩ := hi.newest ho
  have hopened := hi.opened_eq
  rw [if_pos hserv] at hopened
  omega

/-- A handle changes, and the flags with it. -/
lemma Inv.setHandle (hi : Inv s) {b n : Bool} (ho : s.isOpen i = true) (hfits : h.Fits)
    (htold : ∀ e ∈ (s.handles i).told, e ∈ h.told) (hcloses : h.closes = (s.handles i).closes)
    (hflag : s.isConnected = true → b = true ∨ .expired ∈ h.told)
    (hup : b = true → .expired ∈ h.told → h.resetting = true ∨
      s.isConnected = true ∧ .expired ∈ (s.handles i).told ∧
        h.resetting = (s.handles i).resetting) :
    Inv { s.setHandle i h with isConnected := b, needDetect := n } := by
  have hmono : ∀ j, ∀ e ∈ (s.handles j).told, e ∈ (Function.update s.handles i h j).told := by
    intro j e he
    rw [Function.update_apply]
    split_ifs with hj
    · exact htold e (hj ▸ he)
    · exact he
  have hsame : ∀ j, (Function.update s.handles i h j).closes = (s.handles j).closes := by
    intro j
    rw [Function.update_apply]
    split_ifs with hj
    · rw [hcloses, hj]
    · rfl
  refine ⟨fun j => ?_, hi.entered_eq, hi.opened_eq, hi.start_eq, hi.closing_pos, hi.started_pos,
    hi.zh_eq, fun hh j hj => (hsame j).trans (hi.closes_held hh j hj),
    fun j hj hh => (hsame j).trans (hi.closes_past j hj hh),
    fun j hj => hmono j _ (hi.expired j hj), ?_, ⟨hi.flags.running, hi.flags.finished, ?_⟩, hi.stops⟩
  · dsimp only [State.setHandle]
    rw [Function.update_apply]
    split_ifs
    · exact hfits
    · exact hi.fits j
  · by_cases hserv : s.control.isServing = true
    · refine hi.explained.mono rfl rfl (fun hc => (hflag hc).imp_right fun he => ?_) (hmono _ _)
      dsimp only [State.HasExpired, State.setHandle]
      rwa [← hi.current ho hserv, Function.update_self]
    · exact explained_of_not_serving (Bool.eq_false_iff.mpr hserv)
  · intro hb hserv he
    have hcur := hi.current ho hserv
    dsimp only [State.HasExpired, State.setHandle] at he ⊢
    rw [← hcur, Function.update_self] at he ⊢
    rcases hup hb he with hreset | ⟨hc, he, hreset⟩
    · exact hreset
    · rw [hcur] at hreset he
      rw [hreset]
      exact hi.flags.up hc hserv he

lemma Inv.io (hi : Inv s) {e : Io} (ho : s.isOpen i = true)
    (hs : (s.handles i).io e = some h) : Inv (s.setHandle i h) := by
  obtain ⟨hfits, htold, hcloses, hreset⟩ := (hi.fits i).io hs
  exact hi.setHandle (b := s.isConnected) (n := s.needDetect) ho hfits (fun _ he => htold ▸ he)
    hcloses Or.inl fun hb he => Or.inr ⟨hb, by rwa [← htold], hreset⟩

lemma Inv.watcher (hi : Inv s) (ho : s.isOpen i = true) (hs : s.watcher i = some s') : Inv s' := by
  cases told_of_watcher (hi.fits i) hs with
  | reset expired fits =>
      exact hi.setHandle (n := s.needDetect) ho fits (fun _ he => he) rfl
        (fun _ => Or.inr expired) fun hb => absurd hb Bool.false_ne_true
  | expired fits events =>
      exact hi.setHandle (b := s.isConnected) ho fits (fun _ he => List.mem_append_left _ he) rfl
        Or.inl fun _ _ => Or.inl rfl
  | @other e rest b events ne flag fits =>
      refine hi.setHandle (n := s.needDetect) ho fits (fun _ he => List.mem_append_left _ he) rfl
        (fun hc => Or.inl ?_) fun _ he => ?_
      · rcases flag with hb | ⟨hb, -⟩
        · exact hb.trans hc
        · exact hb
      · -- an expired session has no more events
        have hold : .expired ∈ (s.handles i).told :=
          (List.mem_append.mp he).resolve_right fun he => ne (List.mem_singleton.mp he).symm
        cases hi.fits i with
        | going _ _ told => exact absurd hold told
        | ending _ _ _ told => exact absurd hold told
        | ended _ noEvents => simp [noEvents] at events

/-! ## The steps of the thread -/

lemma flags_of_not_serving (hf : Flags s) (hd : s'.destructor = s.destructor)
    (hr : s'.run = s.run) (hc : s'.control.isServing = false) : Flags s' where
  running hidle := hr.trans (hf.running (hd ▸ hidle))
  finished hfin := by simp [hfin, Control.isServing] at hc
  up _ hserv := by simp [hc] at hserv

lemma Control.ne_of_isServing {c : Control} (hc : c.isServing = true) :
    c ≠ .start ∧ c ≠ .closing ∧ c ≠ .initThrew := by
  refine ⟨?_, ?_, ?_⟩ <;> rintro rfl <;> simp [Control.isServing] at hc

lemma Goes.serves {c : Control} (hg : Goes s c) :
    s.control.isServing = true ∧ s.control.isOver = false ∧ c.isServing = true := by
  refine ⟨?_, ?_, by cases hg <;> rfl⟩ <;> cases hg <;> simp [*, Control.isServing, Control.isOver]

/-- Where the thread goes is explained by where it was. -/
lemma Goes.explained {c : Control} {n t : Bool} (hg : Goes s c) (he : s.Explained) :
    State.Explained { s with control := c, needDetect := n, started := t } := by
  rw [State.Explained] at he
  cases hg with
  | connected hc up => exact Or.inl up
  | waits | again | throws | ends => trivial
  | givesUp hc stopped => exact Or.inr (Or.inr stopped)
  | authenticated hc | detects hc | returns hc | begins hc | rewatched hc =>
      rw [hc] at he
      exact he
  | round hc run =>
      rw [hc] at he
      rcases he with he | he | he
      · exact Or.inl he
      · exact Or.inr he
      · simp [he] at run
  | probes hc | skips hc | probed hc =>
      rw [hc] at he
      exact he
  | isUp hc up => exact Or.inl up
  | isDown hc down =>
      rw [hc] at he
      exact he.resolve_left (by simp [down])

/-- The thread gets on with the handle it works with. -/
lemma Inv.goto (hi : Inv s) {c : Control} {n t : Bool} (hg : Goes s c)
    (ht : t = s.started ∨ t = true) :
    Inv { s with control := c, needDetect := n, started := t } := by
  obtain ⟨hserv, hover, hc⟩ := hg.serves
  have hfin : c = .finished → s.run = false := by
    rintro rfl
    cases hg with
    | ends hc stopped => exact stopped
  have hno : ¬ (s.destructor = .closing ∨ s.destructor = .done ∨
      (s.destructor = .joining ∧ s.started = false)) := by
    intro hor
    rw [hi.stops hor] at hover
    simp at hover
  have hheld : s.holds ↔ State.holds { s with control := c, needDetect := n, started := t } := by
    simp [State.holds, hserv, hc]
  obtain ⟨-, -, hs⟩ := Control.ne_of_isServing hserv
  obtain ⟨hstart, hclosing, hthrew⟩ := Control.ne_of_isServing hc
  refine ⟨hi.fits, hi.entered_eq, ?_, fun h => absurd h hstart, fun h => absurd h hclosing,
    fun _ => ?_, ?_, fun hh => hi.closes_held (hheld.mpr hh),
    fun j hj hh => hi.closes_past j hj (hh.imp_right fun hh => fun hs => hh (hheld.mp hs)),
    hi.expired, hg.explained hi.explained,
    ⟨hi.flags.running, hfin, fun hb _ => hi.flags.up hb hserv⟩, fun hor => ?_⟩
  · rw [hi.opened_eq, if_pos hserv, if_pos hc]
  · dsimp only
    rw [hi.opened_eq, if_pos hserv]
    omega
  · rw [hi.zh_eq]
    simp [hs, hthrew]
  · rcases hor with h | h | ⟨h, hst⟩
    · exact absurd (Or.inl h) hno
    · exact absurd (Or.inr (Or.inl h)) hno
    · rcases ht with rfl | rfl
      · exact absurd (Or.inr (Or.inr ⟨h, hst⟩)) hno
      · simp at hst

/-- The handle that the thread works with. -/
lemma Inv.zh_of_serving (hi : Inv s) (hserv : s.control.isServing = true) :
    s.zh = some s.entered.length ∧ s.opened = s.entered.length + 1 := by
  obtain ⟨-, -, hthrew⟩ := Control.ne_of_isServing hserv
  have hopened := hi.opened_eq
  rw [if_pos hserv] at hopened
  refine ⟨?_, hopened⟩
  rw [hi.zh_eq, hopened, if_neg (by simp [hthrew])]
  rfl

/-- A new handle is opened. -/
lemma Inv.opens (hi : Inv s) (hc : s.control = .opening) :
    Inv { s.setHandle s.opened .new with
      zh := some s.opened, opened := s.opened + 1, control := .pollConnected } := by
  have hlen := hi.opened_eq
  rw [hc, if_neg (by simp [Control.isServing]), Nat.add_zero] at hlen
  have hpast : ∀ j < s.opened, Function.update s.handles s.opened .new j = s.handles j :=
    fun j hj => Function.update_of_ne (by omega) _ _
  refine ⟨fun j => ?_, hi.entered_eq, by simp [State.setHandle, Control.isServing, hlen],
    fun h => by simp at h, fun _ => Nat.succ_pos _, fun _ => Nat.succ_pos _, by simp,
    fun _ j hj => ?_, fun j hj hor => ?_, fun j hj => ?_, trivial,
    ⟨hi.flags.running, fun h => by simp at h, fun _ _ he => ?_⟩, fun hor => ?_⟩
  · dsimp only [State.setHandle]
    rw [Function.update_apply]
    split_ifs
    · exact .going (by simp [Handle.new]) (by simp [Handle.new]) (by simp [Handle.new]) rfl
    · exact hi.fits j
  · obtain rfl : j = s.opened := Nat.succ.inj hj
    dsimp only [State.setHandle]
    rw [Function.update_self]
    rfl
  · dsimp only [State.setHandle] at hj hor ⊢
    have hlt : j < s.opened := by
      rcases hor with hne | hno
      · omega
      · refine absurd ⟨Or.inl rfl, fun hdone => ?_⟩ hno
        have hover := hi.stops (Or.inr (Or.inl hdone))
        simp [hc, Control.isOver] at hover
    rw [hpast j hlt]
    refine hi.closes_past j hlt (Or.inr fun hh => ?_)
    simp [State.holds, hc, Control.isServing] at hh
  · change j ∈ s.entered at hj
    have hlt : j < s.opened := by
      rw [hi.entered_eq, hlen.symm] at hj
      exact List.mem_range.mp hj
    dsimp only [State.setHandle]
    rw [hpast j hlt]
    exact hi.expired j hj
  · dsimp only [State.HasExpired, State.setHandle] at he
    rw [← hlen, Function.update_self] at he
    simp [Handle.new] at he
  · have hover := hi.stops hor
    simp [hc, Control.isOver] at hover

/-- The handler is entered. -/
lemma Inv.enters (hi : Inv s) (hc : s.control = .clear) :
    Inv { s with entered := s.entered ++ s.zh.toList, control := .closing } := by
  have hserv : s.control.isServing = true := by rw [hc]; rfl
  obtain ⟨hzh, hopened⟩ := hi.zh_of_serving hserv
  have hexp : s.HasExpired := by
    have he := hi.explained
    rwa [State.Explained, hc] at he
  rw [hzh, Option.toList_some]
  refine ⟨hi.fits, ?_, ?_, fun h => by simp at h, fun _ => by dsimp only; omega, hi.started_pos,
    ?_, fun hh => ?_, fun j hj hor => ?_, fun j hj => ?_, trivial,
    flags_of_not_serving hi.flags rfl rfl rfl, fun hor => ?_⟩
  · rw [List.length_append, List.length_singleton, List.range_succ, ← hi.entered_eq]
  · simp [Control.isServing, hopened]
  · simp [hopened]
  · exact hi.closes_held ⟨Or.inl hserv, hh.2⟩
  · exact hi.closes_past j hj (hor.imp_right fun hno hh => hno ⟨Or.inr rfl, hh.2⟩)
  · rcases List.mem_append.mp hj with hj | hj
    · exact hi.expired j hj
    · rw [List.mem_singleton.mp hj]
      exact hexp
  · have hover := hi.stops hor
    simp [hc, Control.isOver] at hover

/-- The open handle is closed, by the handler or by the destructor. -/
lemma Inv.closes (hi : Inv s) (hheld : s.holds) (hs : s.close (s.opened - 1) = some s')
    (hpos : 0 < s.opened) :
    s' = s.setHandle (s.opened - 1) (s'.handles (s.opened - 1)) ∧ (∀ j, (s'.handles j).Fits) ∧
      (∀ j < s.opened, (s'.handles j).closes = 1) ∧
      (∀ j, (s'.handles j).told = (s.handles j).told) ∧
      (s.handles (s.opened - 1)).resetting = false := by
  rw [State.close] at hs
  split_ifs at hs with hreset
  obtain rfl := Option.some.inj hs
  have hzero := hi.closes_held hheld (s.opened - 1) (by omega)
  refine ⟨by simp [State.setHandle], fun j => ?_, fun j hj => ?_, fun j => ?_,
    Bool.eq_false_iff.mpr hreset⟩ <;>
    dsimp only [State.setHandle] <;> rw [Function.update_apply] <;> split_ifs with hlast
  · cases hi.fits (s.opened - 1) with
    | going ne events told resetting => exact .going ne events told resetting
    | ending phase events front_ne told resetting =>
        exact .ending phase events front_ne told resetting
    | ended phase events told => exact .ended phase events told
  · exact hi.fits j
  · dsimp only
    omega
  · exact hi.closes_past j hj (Or.inl (by omega))
  · rw [hlast]
  · rfl

lemma Inv.thread (hi : Inv s) {ok : Bool} (hs : s.thread ok = some s') : Inv s' := by
  rcases thread_cases hs with ⟨c, n, t, hg, ht, rfl⟩ | hturns
  · exact hi.goto hg ht
  · cases hturns with
    | starts hc =>
        have hzero := hi.start_eq hc
        refine ⟨hi.fits, hi.entered_eq, ?_, fun h => by simp at h, fun h => by simp at h,
          hi.started_pos, ?_, fun hh => ?_, fun j hj => ?_, hi.expired, trivial,
          flags_of_not_serving hi.flags rfl rfl rfl, fun hor => ?_⟩
        · rw [hi.opened_eq, hc]
          rfl
        · rw [hi.zh_eq, hzero]
          simp
        · simp [State.holds, Control.isServing] at hh
        · dsimp only at hj
          omega
        · have hover := hi.stops hor
          simp [hc, Control.isOver] at hover
    | opens hc => exact hi.opens hc
    | throws hc =>
        refine ⟨hi.fits, hi.entered_eq, ?_, fun h => by simp at h, fun h => by simp at h,
          hi.started_pos, by simp, fun hh => ?_,
          fun j hj _ => hi.closes_past j hj (Or.inr fun hh => ?_), hi.expired, trivial,
          flags_of_not_serving hi.flags rfl rfl rfl, fun _ => rfl⟩
        · rw [hi.opened_eq, hc]
          rfl
        · simp [State.holds, Control.isServing] at hh
        · simp [State.holds, hc, Control.isServing] at hh
    | enters hc => exact hi.enters hc
    | @closes i s₁ hc hzh hclose =>
        have hpos := hi.closing_pos hc
        rw [hi.zh_eq, hc, if_neg (by simp; omega)] at hzh
        obtain rfl := Option.some.inj hzh
        have hdone : s.destructor ≠ .done := by
          intro hdone
          have hover := hi.stops (Or.inr (Or.inl hdone))
          simp [hc, Control.isOver] at hover
        obtain ⟨heq, hfits, hone, htold, -⟩ := hi.closes ⟨Or.inr hc, hdone⟩ hclose hpos
        have hopened := hi.opened_eq
        rw [hc] at hopened
        rw [heq] at hfits hone htold ⊢
        refine ⟨hfits, hi.entered_eq, hopened, fun h => by simp at h, fun h => by simp at h,
          fun _ => hpos, ?_, fun hh => ?_, fun j hj _ => hone j hj, fun j hj => ?_, trivial,
          flags_of_not_serving hi.flags rfl rfl rfl, fun hor => ?_⟩
        · change s.zh = if Control.opening = .initThrew ∨ s.opened = 0 then none else
            some (s.opened - 1)
          rw [hi.zh_eq, hc]
          simp
        · simp [State.holds, Control.isServing] at hh
        · rw [htold]
          exact hi.expired j hj
        · have hover := hi.stops hor
          simp [hc, Control.isOver] at hover

/-! ## The steps of the destructor -/

lemma Inv.destruct (hi : Inv s) (hs : s.destruct = some s') : Inv s' := by
  rw [State.destruct] at hs
  cases hd : s.destructor with
  | idle =>
      rw [hd] at hs
      dsimp only at hs
      split_ifs at hs with hmay
      obtain rfl := Option.some.inj hs
      have hheld : s.holds ↔ State.holds { s with run := false, destructor := .joining } := by
        simp [State.holds, hd]
      refine ⟨hi.fits, hi.entered_eq, hi.opened_eq, hi.start_eq, hi.closing_pos, hi.started_pos,
        hi.zh_eq, fun hh => hi.closes_held (hheld.mpr hh),
        fun j hj hor => hi.closes_past j hj (hor.imp_right fun hno hh => hno (hheld.mp hh)),
        hi.expired, ?_, ⟨fun h => by simp at h, fun _ => rfl, hi.flags.up⟩, fun hor => ?_⟩
      · have he := hi.explained
        rw [State.Explained] at he ⊢
        dsimp only
        cases hst : s.control.stage with
        | waited => exact Or.inr (Or.inr rfl)
        | other | looking | decided =>
            rw [hst] at he
            exact he
      · simp only [reduceCtorEq, true_and, false_or] at hor
        rcases hmay with h | h | h
        · rw [hor] at h
          simp at h
        · rw [h]
          rfl
        · rw [h]
          rfl
  | joining =>
      rw [hd] at hs
      dsimp only at hs
      split_ifs at hs with hmay
      obtain rfl := Option.some.inj hs
      have hheld : s.holds ↔ State.holds { s with destructor := .closing } := by
        simp [State.holds, hd]
      refine ⟨hi.fits, hi.entered_eq, hi.opened_eq, hi.start_eq, hi.closing_pos, hi.started_pos,
        hi.zh_eq, fun hh => hi.closes_held (hheld.mpr hh),
        fun j hj hor => hi.closes_past j hj (hor.imp_right fun hno hh => hno (hheld.mp hh)),
        hi.expired, hi.explained, ⟨fun h => by simp at h, hi.flags.finished, hi.flags.up⟩,
        fun _ => ?_⟩
      rcases hmay with h | h
      · dsimp only
        rw [h]
        rfl
      · exact hi.stops (Or.inr (Or.inr ⟨hd, h⟩))
  | closing =>
      have hover := hi.stops (Or.inl hd)
      rw [hd] at hs
      dsimp only at hs
      have hzh := hi.zh_eq
      cases hz : s.zh with
      | none =>
          rw [hz] at hs hzh
          obtain rfl := Option.some.inj hs
          refine ⟨hi.fits, hi.entered_eq, hi.opened_eq, hi.start_eq, hi.closing_pos, hi.started_pos,
            hzh, fun hh => absurd rfl hh.2, fun j hj _ => hi.closes_past j hj (Or.inr fun hh => ?_),
            hi.expired, hi.explained, ⟨fun h => by simp at h, hi.flags.finished, hi.flags.up⟩,
            fun _ => hover⟩
          change j < s.opened at hj
          split_ifs at hzh with hthrew
          rcases hthrew with hthrew | hzero
          · simp [State.holds, hthrew, Control.isServing] at hh
          · omega
      | some i =>
          rw [hz] at hs hzh
          obtain ⟨s₁, hclose, rfl⟩ := Option.map_eq_some_iff.mp hs
          split_ifs at hzh with hno
          obtain ⟨hthrew, hpos⟩ := not_or.mp hno
          obtain rfl := Option.some.inj hzh
          have hserv : s.control.isServing = true := by
            cases hctl : s.control <;> simp_all [Control.isOver, Control.isServing]
          obtain ⟨heq, hfits, hone, htold, hreset⟩ :=
            hi.closes ⟨Or.inl hserv, by simp [hd]⟩ hclose (by omega)
          obtain ⟨-, hopened⟩ := hi.zh_of_serving hserv
          rw [hopened, Nat.add_sub_cancel] at hreset
          rw [heq] at hfits hone htold ⊢
          refine ⟨hfits, hi.entered_eq, hi.opened_eq, hi.start_eq, hi.closing_pos, hi.started_pos,
            hi.zh_eq, fun hh => absurd rfl hh.2, fun j hj _ => hone j hj, fun j hj => ?_, ?_,
            ⟨fun h => by simp at h, hi.flags.finished, fun hb _ he => ?_⟩, fun _ => hover⟩
          · rw [htold]
            exact hi.expired j hj
          · refine hi.explained.mono rfl rfl Or.inl fun he => ?_
            change SessionState.expired ∈ _
            rwa [htold]
          · change SessionState.expired ∈ _ at he
            rw [htold] at he
            rw [hi.flags.up hb hserv he] at hreset
            simp at hreset
  | done => simp [hd] at hs

lemma Inv.step (hi : Inv s) {a : Action} (hs : s.step a = some s') : Inv s' := by
  unfold State.step at hs
  split_ifs at hs
  cases a with
  | io i e =>
      dsimp only at hs
      split_ifs at hs with ho
      obtain ⟨h, hh, rfl⟩ := Option.map_eq_some_iff.mp hs
      exact hi.io ho hh
  | watcher i =>
      dsimp only at hs
      split_ifs at hs with ho
      exact hi.watcher ho hs
  | thread ok => exact hi.thread hs
  | destructor => exact hi.destruct hs

lemma inv_init (hasCredential : Bool) : Inv (State.init hasCredential) := by
  refine ⟨fun j => .going (by simp [State.init, Handle.new]) (by simp [State.init, Handle.new])
    (by simp [State.init, Handle.new]) rfl, rfl, rfl, fun _ => rfl,
    fun h => by simp [State.init] at h, fun h => by simp [State.init] at h, rfl, fun hh => ?_,
    fun j hj => ?_, fun j hj => ?_, trivial,
    ⟨fun _ => rfl, fun h => by simp [State.init] at h, fun h => by simp [State.init] at h⟩,
    fun hor => ?_⟩
  · simp [State.holds, State.init, Control.isServing] at hh
  · simp [State.init] at hj
  · simp [State.init] at hj
  · simp [State.init] at hor

lemma inv_of_reach {hasCredential : Bool}
    (hr : Reach State.step (fun _ _ => True) (State.init hasCredential) s) : Inv s :=
  hr.invariant (inv_init hasCredential) fun _ _ _ hi _ hs => hi.step hs

/-! ## Sessions -/

/-- The handler is entered for the sessions in the order in which they were opened, once for each,
and only when the session has expired; the next one is opened after that. -/
theorem handled_in_order {hasCredential : Bool}
    (hr : Reach State.step (fun _ _ => True) (State.init hasCredential) s) :
    s.entered = List.range s.entered.length ∧
    (∀ i ∈ s.entered, .expired ∈ (s.handles i).told ∧ (s.handles i).phase = .expired) ∧
    ∀ i < s.opened, i ∉ s.entered → i + 1 = s.opened := by
  have hi := inv_of_reach hr
  refine ⟨hi.entered_eq, fun i hmem => ?_, fun i hlt hno => ?_⟩
  · have hexp := hi.expired i hmem
    refine ⟨hexp, ?_⟩
    cases hi.fits i with
    | going ne events told => exact absurd hexp told
    | ending phase => exact phase
    | ended phase => exact phase
  · rw [hi.entered_eq, List.mem_range] at hno
    have hopened := hi.opened_eq
    split_ifs at hopened <;> omega

/-- The first session is connected and expires, and the handler closes its handle. -/
def firstExpiry : List Action :=
  [.thread true, .thread true, .io 0 .establish, .watcher 0, .thread true, .thread true,
    .thread true, .thread true, .thread true, .io 0 .lose, .io 0 .dial, .io 0 .expire, .watcher 0,
    .watcher 0, .watcher 0, .thread true, .thread true, .thread true, .thread true]

/-- The session expires once, and is followed by a new one. -/
theorem handled_in_order_expired : ∃ s : State, s.entered = [0] ∧ s.opened = 2 ∧
    .expired ∈ (s.handles 0).told := by
  obtain ⟨s, hr, hobs⟩ := exists_reach_of_exec State.step (fun _ _ => True) (State.init false)
    (firstExpiry ++ [.thread true]) (fun s => (s.entered, s.opened)) ([0], 2) (by decide +kernel)
  obtain ⟨hentered, hopened⟩ := Prod.mk.inj hobs
  obtain ⟨-, hexp, -⟩ := handled_in_order hr
  exact ⟨s, hentered, hopened, (hexp 0 (by simp [hentered])).1⟩

/-! ## Handles -/

/-- The thread hands `zh_` to the library. -/
def Control.uses : Control → Bool
  | .auth | .recvTimeout | .rewatch | .probe | .closing => true
  | _ => false

lemma Control.isServing_of_uses {c : Control} (hc : c.uses = true) :
    c.isOver = false ∧ (c.isServing = true ∨ c = .closing) := by
  cases c <;> simp_all [Control.uses, Control.isServing, Control.isOver]

/-- A handle is closed at most once; when the next one is open it has been closed; the thread and
the destructor use and close no handle that has been closed, and when the destructor is done every
handle has been.  Another thread that uses `zh_` finds a handle that has been closed if and only
if the handler is between `zookeeper_close` and `zookeeper_init`. -/
theorem closed_once {hasCredential : Bool}
    (hr : Reach State.step (fun _ _ => True) (State.init hasCredential) s) :
    (∀ i < s.opened, (s.handles i).closes ≤ 1 ∧
      (i + 1 < s.opened → (s.handles i).closes = 1)) ∧
    (s.control.uses = true → ∃ i, s.zh = some i ∧ (s.handles i).closes = 0) ∧
    (s.destructor = .closing → ∀ i, s.zh = some i → (s.handles i).closes = 0) ∧
    (s.destructor = .done → ∀ i < s.opened, (s.handles i).closes = 1) ∧
    (s.started = true → s.destructor = .idle → s.terminated = false → ∃ i, s.zh = some i ∧
      ((s.handles i).closes = 1 ↔ s.control = .opening)) := by
  have hi := inv_of_reach hr
  have hzh : s.control ≠ .initThrew → 0 < s.opened → s.zh = some (s.opened - 1) := by
    intro hthrew hpos
    rw [hi.zh_eq, if_neg (by simp [hthrew]; omega)]
  have hzero : s.holds → 0 < s.opened → (s.handles (s.opened - 1)).closes = 0 :=
    fun hh hpos => hi.closes_held hh _ (by omega)
  have hlive : s.control.isServing = true ∨ s.control = .closing →
      s.control ≠ .initThrew ∧ 0 < s.opened := by
    rintro (hserv | hclosing)
    · refine ⟨(Control.ne_of_isServing hserv).2.2, ?_⟩
      rw [hi.opened_eq, if_pos hserv]
      omega
    · exact ⟨by simp [hclosing], hi.closing_pos hclosing⟩
  refine ⟨fun i hlt => ⟨?_, fun hnext => hi.closes_past i hlt (Or.inl (by omega))⟩,
    fun huses => ?_, fun hd i hz => ?_, fun hd i hlt => hi.closes_past i hlt ?_,
    fun hst hd hterm => ?_⟩
  · by_cases hcur : i + 1 = s.opened ∧ s.holds
    · rw [hi.closes_held hcur.2 i hcur.1]
      omega
    · exact Nat.le_of_eq (hi.closes_past i hlt (not_and_or.mp hcur))
  · obtain ⟨hover, hctl⟩ := Control.isServing_of_uses huses
    obtain ⟨hthrew, hpos⟩ := hlive hctl
    refine ⟨_, hzh hthrew hpos, hzero ⟨hctl, fun hdone => ?_⟩ hpos⟩
    rw [hi.stops (Or.inr (Or.inl hdone))] at hover
    simp at hover
  · have hover := hi.stops (Or.inl hd)
    have hz' := hi.zh_eq
    rw [hz] at hz'
    split_ifs at hz' with hno
    obtain ⟨hthrew, hpos⟩ := not_or.mp hno
    obtain rfl := Option.some.inj hz'
    have hserv : s.control.isServing = true := by
      cases hctl : s.control <;> simp_all [Control.isOver, Control.isServing]
    exact hzero ⟨Or.inl hserv, by simp [hd]⟩ (by omega)
  · exact Or.inr fun hh => hh.2 hd
  · have hpos := hi.started_pos hst
    have hthrew : s.control ≠ .initThrew := by
      intro hthrew
      simp [State.terminated, hst, hthrew] at hterm
    refine ⟨_, hzh hthrew hpos, ⟨fun hone => ?_, fun hopening => ?_⟩⟩
    · by_contra hno
      have hctl : s.control.isServing = true ∨ s.control = .closing := by
        have hstart : s.control ≠ .start := fun h => by have hz := hi.start_eq h; omega
        cases hctl : s.control <;> simp_all [Control.isServing]
      rw [hzero ⟨hctl, by simp [hd]⟩ hpos] at hone
      simp at hone
    · refine hi.closes_past _ (by omega) (Or.inr fun hh => ?_)
      simp [State.holds, hopening, Control.isServing] at hh

/-- The handler has closed the handle of an expired session and not opened the next one. -/
theorem closed_once_opening : ∃ s : State, s.control = .opening ∧ s.zh = some 0 ∧
    (s.handles 0).closes = 1 := by
  obtain ⟨s, hr, hobs⟩ := exists_reach_of_exec State.step (fun _ _ => True) (State.init false)
    firstExpiry (fun s => (s.control, s.zh, s.started, s.destructor))
    (.opening, some 0, true, .idle) (by decide +kernel)
  simp only [Prod.mk.injEq] at hobs
  obtain ⟨hctl, hzh, hst, hd⟩ := hobs
  obtain ⟨-, -, -, -, huser⟩ := closed_once hr
  obtain ⟨i, hi, hiff⟩ := huser hst hd (by simp [State.terminated, hctl])
  rw [hzh] at hi
  obtain rfl := Option.some.inj hi
  exact ⟨s, hctl, hzh, hiff.mpr hctl⟩

end Detection

end ConfigMonitor
