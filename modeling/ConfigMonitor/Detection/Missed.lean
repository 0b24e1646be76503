/-
# Expired sessions that are missed

The handler can be missed for good in three ways: the session expires while the thread still
waits to see it connected, it expires before `zoo_add_auth` is called, or the authentication fails,
which does not take the flag down.  As long as none of them has happened some run leads to the
handler.
-/
import ConfigMonitor.Detection.Noticed

namespace ConfigMonitor

open Run

namespace Detection

variable {s s' : State} {h h' : Handle} {n : ℕ} {a : Action}

/-- The thread waits for the connection. -/
def Control.isPolling : Control → Bool
  | .pollConnected | .pollRun => true
  | _ => false

/-- The session is lost, and the thread cannot find out any more. -/
def Missed (s : State) : Prop :=
  let h := s.handles s.entered.length
  (s.control.isPolling = true ∧ s.isConnected = false ∧ h.phase = .expired ∧
      .connected ∉ h.events) ∨
    (s.hasCredential = true ∧ (s.control.isPolling = true ∨ s.control = .auth) ∧
      h.phase = .expired) ∨
    (s.control.isServing = true ∧ h.phase = .authFailed)

/-- The destructor is not called. -/
def undisturbed (_ : State) (a : Action) : Prop := a ≠ .destructor

instance (s : State) (a : Action) : Decidable (undisturbed s a) :=
  inferInstanceAs (Decidable (a ≠ .destructor))

/-! ## What is missed -/

/-- The completion thread does not change the state of a session, and it tells the events in
order. -/
lemma Told.handle (ht : Told s n s') :
    (s'.handles n).phase = (s.handles n).phase ∧
      ((s'.handles n).events = (s.handles n).events ∨
        ∃ e, (s.handles n).events = e :: (s'.handles n).events) := by
  cases ht with
  | reset => simp [State.setHandle]
  | expired fits events => simp [State.setHandle, events]
  | other events => simp [State.setHandle, events]

lemma Told.flag (ht : Told s n s') (hev : .connected ∉ (s.handles n).events)
    (hdown : s.isConnected = false) : s'.isConnected = false := by
  cases ht with
  | reset => rfl
  | expired => exact hdown
  | other events ne flag =>
      rcases flag with rfl | ⟨-, rfl⟩
      · exact hdown
      · exact absurd (events ▸ List.mem_cons_self) hev

/-- Where the thread goes when the session has been missed. -/
lemma Goes.missed {c : Control} {d t : Bool} (hg : Goes s c) (hi : Inv s) (hrun : s.run = true)
    (hm : Missed s) :
    Missed { s with control := c, needDetect := d, started := t } ∨ c = .authThrew := by
  obtain ⟨hfrom, -, hto⟩ := hg.serves
  rcases hm with ⟨hpoll, hdown, hphase, hev⟩ | ⟨hcred, hctl, hphase⟩ | ⟨hserv, hphase⟩
  · refine Or.inl (Or.inl ⟨?_, hdown, hphase, hev⟩)
    cases hg <;> simp_all [Control.isPolling]
  · cases hg with
    | connected | waits | again | givesUp =>
        exact Or.inl (Or.inr (Or.inl ⟨hcred, by simp [Control.isPolling], hphase⟩))
    | throws => exact Or.inr rfl
    | authenticated hc hzh accepted =>
        rw [(hi.zh_of_serving hfrom).1] at hzh
        obtain rfl := Option.some.inj hzh
        simp [State.authFails, hcred, hphase, Phase.isUnrecoverable] at accepted
    | detects hc | returns hc | begins hc | rewatched hc | round hc | ends hc | probes hc
    | skips hc | probed hc | isUp hc | isDown hc => simp [hc, Control.isPolling] at hctl
  · exact Or.inl (Or.inr (Or.inr ⟨hto, hphase⟩))

/-- What a run without the destructor keeps when the session has been missed. -/
structure Lost (l : List ℕ) (s : State) : Prop where
  inv : Inv s
  run : s.run = true
  entered : s.entered = l
  missed : Missed s ∨ s.control = .authThrew

lemma Missed.serving (hm : Missed s ∨ s.control = .authThrew) : s.control.isServing = true := by
  rcases hm with (⟨hpoll, -⟩ | ⟨-, hctl, -⟩ | ⟨hserv, -⟩) | hthrew
  · cases hc : s.control <;> simp_all [Control.isPolling, Control.isServing]
  · cases hc : s.control <;> simp_all [Control.isPolling, Control.isServing]
  · exact hserv
  · rw [hthrew]
    rfl

lemma Lost.step {l : List ℕ} (hl : Lost l s) (ha : a ≠ .destructor) (hs : s.step a = some s') :
    Lost l s' := by
  have hinv := hl.inv.step hs
  have hserv := Missed.serving hl.missed
  rcases step_cases hs with ⟨i, e, h, rfl, ho, hh, rfl⟩ | ⟨i, rfl, ho, hw⟩ | ⟨ok, rfl, hth⟩ |
    ⟨rfl, -⟩
  · refine ⟨hinv, hl.run, hl.entered, hl.missed.imp_left fun hm => ?_⟩
    obtain rfl := hl.inv.current ho hserv
    -- the IO thread has ended
    exfalso
    rcases hm with ⟨-, -, hphase, -⟩ | ⟨-, -, hphase⟩ | ⟨-, hphase⟩ <;>
      cases e <;> simp [Handle.io, hphase] at hh
  · have hframe := frame_watcher hw
    refine ⟨hinv, hframe.run.trans hl.run, hframe.entered.trans hl.entered, ?_⟩
    rw [hframe.control]
    refine hl.missed.imp_left fun hm => ?_
    obtain rfl := hl.inv.current ho hserv
    have htold := told_of_watcher (hl.inv.fits _) hw
    obtain ⟨hphase, hevents⟩ := htold.handle
    simp only [Missed, hframe.control, hframe.entered, hframe.hasCredential, hphase]
    refine hm.imp_left ?_
    rintro ⟨hpoll, hdown, hexp, hev⟩
    refine ⟨hpoll, htold.flag hev hdown, hexp, fun hmem => ?_⟩
    rcases hevents with heq | ⟨e, heq⟩
    · exact hev (heq ▸ hmem)
    · exact hev (heq ▸ List.mem_cons_of_mem e hmem)
  · rcases thread_cases hth with ⟨c, d, t, hg, -, rfl⟩ | hturns
    · refine ⟨hinv, hl.run, hl.entered, ?_⟩
      rcases hl.missed with hm | hthrew
      · exact hg.missed hl.inv hl.run hm
      · cases hg <;> simp_all
    · exfalso
      cases hturns with
      | starts hc | opens hc | throws hc | closes hc => simp [hc, Control.isServing] at hserv
      | enters hc =>
          -- the session has expired, and the thread has passed `zoo_add_auth`
          have hexp := hl.inv.explained
          simp only [State.Explained, hc, Control.stage] at hexp
          obtain ⟨hphase, -⟩ := (hl.inv.fits _).events_eq_nil hexp
          rcases hl.missed with (⟨hpoll, -⟩ | ⟨-, hctl, -⟩ | ⟨-, hfail⟩) | hthrew
          · simp [hc, Control.isPolling] at hpoll
          · simp [hc, Control.isPolling] at hctl
          · rw [hphase] at hfail
            simp at hfail
          · simp [hc] at hthrew
  · exact absurd rfl ha

/-! ## What is not missed -/

/-- The handler can be entered again. -/
def Able (n : ℕ) (s : State) : Prop :=
  ∃ s', Reach State.step undisturbed s s' ∧ n < s'.entered.length

lemma Able.of_step (ha : a ≠ .destructor) (hs : s.step a = some s') (hable : Able n s') :
    Able n s := by
  obtain ⟨u, hr, hlt⟩ := hable
  have hok : undisturbed s a := ha
  exact ⟨u, (Reach.refl.tail hok hs).trans hr, hlt⟩

/-- The thread is going, and the destructor has not been called. -/
structure Alive (n : ℕ) (s : State) : Prop where
  inv : Inv s
  index : s.entered.length = n
  idle : s.destructor = .idle
  live : s.control.isOver = false

lemma Alive.run (hal : Alive n s) : s.run = true := hal.inv.flags.running hal.idle

lemma Alive.step_eq (hal : Alive n s) : s.terminated = false := by
  have hlive := hal.live
  rw [State.terminated]
  cases hc : s.control <;> simp_all [Control.isOver]

lemma Alive.step_thread {ok : Bool} (hal : Alive n s) (hs : s.thread ok = some s') :
    s.step (.thread ok) = some s' := by
  unfold State.step
  rw [if_neg (by simp [hal.step_eq])]
  exact hs

lemma Alive.able_thread {ok : Bool} (hal : Alive n s) (hs : s.thread ok = some s')
    (hidx : s'.entered = s.entered) (hidle : s'.destructor = s.destructor)
    (hlive : s'.control.isOver = false) (hnext : Alive n s' → Able n s') : Able n s :=
  .of_step (by simp) (hal.step_thread hs) (hnext ⟨hal.inv.step (hal.step_thread hs),
    by rw [hidx, hal.index], hidle.trans hal.idle, hlive⟩)

lemma Alive.isOpen (hal : Alive n s) (hheld : s.control.isServing = true ∨ s.control = .closing)
    {i : ℕ} (hi : i + 1 = s.opened) : s.isOpen i = true := by
  have hclose := hal.inv.closes_held ⟨hheld, by simp [hal.idle]⟩ i hi
  simp [State.isOpen, hclose, ← hi]

lemma Alive.opened_eq (hal : Alive n s) (hserv : s.control.isServing = true) :
    n + 1 = s.opened := by
  rw [hal.inv.opened_eq, if_pos hserv, hal.index]

lemma Alive.able_io {e : Io} (hal : Alive n s) (hserv : s.control.isServing = true)
    (hh : (s.handles n).io e = some h)
    (hnext : Alive n (s.setHandle n h) → Able n (s.setHandle n h)) : Able n s := by
  have hstep : s.step (.io n e) = some (s.setHandle n h) := by
    unfold State.step
    rw [if_neg (by simp [hal.step_eq])]
    dsimp only
    rw [if_pos (hal.isOpen (Or.inl hserv) (hal.opened_eq hserv)), hh]
    rfl
  exact .of_step (by simp) hstep (hnext ⟨hal.inv.step hstep, hal.index, hal.idle, hal.live⟩)

lemma Alive.able_watcher {i : ℕ} (hal : Alive n s)
    (hheld : s.control.isServing = true ∨ s.control = .closing) (hi : i + 1 = s.opened)
    (hw : s.watcher i = some s') (hnext : Alive n s' → Able n s') : Able n s := by
  have hframe := frame_watcher hw
  have hstep : s.step (.watcher i) = some s' := by
    unfold State.step
    rw [if_neg (by simp [hal.step_eq])]
    dsimp only
    rw [if_pos (hal.isOpen hheld hi), hw]
  refine .of_step (by simp) hstep (hnext ⟨hal.inv.step hstep, ?_, ?_, ?_⟩)
  · rw [hframe.entered, hal.index]
  · rw [hframe.destructor, hal.idle]
  · rw [hframe.control, hal.live]

lemma exists_watcher (hmore : (s.handles n).resetting = true ∨ (s.handles n).events ≠ []) :
    ∃ s', s.watcher n = some s' := by
  rw [State.watcher]
  split_ifs with hreset
  · exact ⟨_, rfl⟩
  · have hne := hmore.resolve_left hreset
    cases hev : (s.handles n).events with
    | nil => exact absurd hev hne
    | cons e rest => cases e <;> exact ⟨_, rfl⟩

/-! ## The way to the handler -/

/-- `zoo_add_auth` has been called for the session. -/
def Control.isPast (c : Control) : Prop := c.stage ≠ .other ∧ c ≠ .auth

lemma Goes.past {c : Control} (hg : Goes s c) (hpast : s.control.isPast)
    (hdown : s.isConnected = false) (hrun : s.run = true) :
    c.isPast ∧ c.left + 1 ≤ s.control.left := by
  rcases hg.left hpast.1 hdown hrun with rfl | ⟨hstage, hlt⟩
  · cases hg with
    | throws hc => exact absurd hc hpast.2
  · refine ⟨⟨hstage, ?_⟩, hlt⟩
    rintro rfl
    cases hg with
    | connected hc | givesUp hc => exact hpast.1 (by rw [hc]; rfl)

lemma Control.isPast.serving {c : Control} (hpast : c.isPast) :
    c.isServing = true ∧ c.isOver = false := by
  obtain ⟨hserv, hover, -⟩ := serving_of_stage hpast.1
  exact ⟨hserv, hover⟩

lemma exists_thread (hpast : s.control.isPast) : ∃ s', s.thread true = some s' := by
  obtain ⟨hstage, hne⟩ := hpast
  rw [State.thread]
  cases hc : s.control <;> simp_all [Control.stage]

/-- The flag is down. -/
lemma able_of_down (hal : Alive n s) (hpast : s.control.isPast) (hdown : s.isConnected = false) :
    Able n s := by
  induction hk : s.control.left using Nat.strongRecOn generalizing s with
  | ind k ih =>
    subst hk
    obtain ⟨s', hth⟩ := exists_thread hpast
    rcases thread_cases hth with ⟨c, d, t, hg, -, rfl⟩ | hturns
    · obtain ⟨hpast', hlt⟩ := hg.past hpast hdown hal.run
      exact hal.able_thread hth rfl rfl hpast'.serving.2
        fun hal' => ih _ hlt hal' hpast' hdown rfl
    · cases hturns with
      | starts hc | opens hc | throws hc | closes hc => exact absurd (by rw [hc]; rfl) hpast.1
      | enters hc =>
          have hzh := (hal.inv.zh_of_serving hpast.serving.1).1
          refine ⟨_, Reach.refl.tail (by simp [undisturbed]) (hal.step_thread hth), ?_⟩
          dsimp only
          rw [hzh, List.length_append, hal.index]
          exact Nat.lt_succ_self n

/-- What the completion thread has left to do. -/
def Handle.pending (h : Handle) : ℕ := 2 * h.events.length + h.resetting.toNat

lemma Told.pending (ht : Told s n s') (hmore : (s.handles n).resetting = true ∨
    (s.handles n).events ≠ []) : (s'.handles n).pending < (s.handles n).pending := by
  cases ht with
  | reset expired fits =>
      have hreset : (s.handles n).resetting = true := by
        refine hmore.resolve_right fun hne => hne ?_
        cases fits with
        | going ne events told => exact absurd expired told
        | ending phase events front_ne told => exact absurd expired told
        | ended phase events => exact events
      simp [Handle.pending, State.setHandle, hreset]
  | expired fits events =>
      simp only [Handle.pending, State.setHandle, Function.update_self, events]
      simp
      omega
  | other events =>
      simp only [Handle.pending, State.setHandle, Function.update_self, events, List.length_cons]
      omega

/-- The session has expired, and the watcher is told. -/
lemma able_of_expired (hal : Alive n s) (hpast : s.control.isPast)
    (hphase : (s.handles n).phase = .expired) : Able n s := by
  induction hk : (s.handles n).pending using Nat.strongRecOn generalizing s with
  | ind k ih =>
    subst hk
    have hserv := hpast.serving.1
    by_cases hmore : (s.handles n).resetting = true ∨ (s.handles n).events ≠ []
    · obtain ⟨s', hw⟩ := exists_watcher hmore
      have htold := told_of_watcher (hal.inv.fits n) hw
      refine hal.able_watcher (Or.inl hserv) (hal.opened_eq hserv) hw fun hal' => ?_
      refine ih _ (htold.pending hmore) hal' ?_ (htold.handle.1.trans hphase) rfl
      rw [(frame_watcher hw).control]
      exact hpast
    · obtain ⟨hreset, hev⟩ := not_or.mp hmore
      refine able_of_down hal hpast (Bool.eq_false_iff.mpr fun hup => hreset ?_)
      rw [← hal.index]
      refine hal.inv.flags.up hup hserv ?_
      rw [State.HasExpired, hal.index]
      cases hal.inv.fits n with
      | going ne => exact absurd hphase ne
      | ending phase events => simp [events] at hev
      | ended phase events told => exact told

/-- How far a session is from its end. -/
def Handle.age (h : Handle) : ℕ :=
  match h.phase with
  | .connecting => if h.seen then 1 else 4
  | .lost => if h.seen then 2 else 5
  | .connected => if h.seen then 3 else 6
  | .expired | .authFailed => 0

lemma Handle.ages (hne : h.phase ≠ .expired) (hfail : h.phase ≠ .authFailed) :
    ∃ e h', h.io e = some h' ∧ h'.phase ≠ .authFailed ∧ h'.age < h.age := by
  cases hphase : h.phase with
  | expired => exact absurd hphase hne
  | authFailed => exact absurd hphase hfail
  | lost =>
      refine ⟨.dial, _, if_pos hphase, by simp, ?_⟩
      simp only [Handle.age, hphase]
      split_ifs <;> decide
  | connected =>
      refine ⟨.lose, { h with phase := .lost, events := h.events ++ [.connecting] }, ?_, by simp,
        ?_⟩
      · simp [Handle.io, hphase]
      · simp only [Handle.age, hphase]
        split_ifs <;> decide
  | connecting =>
      by_cases hseen : h.seen = true
      · exact ⟨.expire, _, if_pos ⟨hphase, hseen⟩, by simp, by simp [Handle.age, hphase, hseen]⟩
      · exact ⟨.establish, _, if_pos hphase, by simp, by simp [Handle.age, hphase, hseen]⟩

lemma able_of_past (hal : Alive n s) (hpast : s.control.isPast)
    (hfail : (s.handles n).phase ≠ .authFailed) : Able n s := by
  induction hk : (s.handles n).age using Nat.strongRecOn generalizing s with
  | ind k ih =>
    subst hk
    by_cases hphase : (s.handles n).phase = .expired
    · exact able_of_expired hal hpast hphase
    · obtain ⟨e, h', hh, hfail', hlt⟩ := Handle.ages hphase hfail
      have hself : (s.setHandle n h').handles n = h' := by simp [State.setHandle]
      refine hal.able_io hpast.serving.1 hh fun hal' => ih h'.age hlt hal' hpast ?_ ?_
      · rwa [hself]
      · rw [hself]

/-- The credential is accepted. -/
lemma able_of_accepted (hal : Alive n s) (hc : s.control = .auth)
    (haccept : s.authFails n true = false) (hfail : (s.handles n).phase ≠ .authFailed) :
    Able n s := by
  have hserv : s.control.isServing = true := by
    rw [hc]
    rfl
  have hzh := (hal.inv.zh_of_serving hserv).1
  rw [hal.index] at hzh
  have hth : s.thread true = some { s with control := .setNeedDetect } := by
    rw [State.thread, hc]
    dsimp only
    rw [hzh, Option.map_some, if_neg (by simp [haccept])]
  exact hal.able_thread hth rfl rfl rfl
    fun hal' => able_of_past hal' ⟨by simp [Control.stage], by simp⟩ hfail

lemma able_of_auth (hal : Alive n s) (hc : s.control = .auth)
    (hexp : s.hasCredential = true → (s.handles n).phase ≠ .expired)
    (hfail : (s.handles n).phase ≠ .authFailed) : Able n s := by
  by_cases hlost : (s.handles n).phase = .lost
  · -- `zoo_add_auth` wants a connection that is on its way
    have hserv : s.control.isServing = true := by
      rw [hc]
      rfl
    refine hal.able_io hserv (e := .dial) (if_pos hlost)
      fun hal' => able_of_accepted hal' hc ?_ ?_
    · simp [State.authFails, State.setHandle, Phase.isUnrecoverable]
    · simp [State.setHandle]
  · refine able_of_accepted hal hc ?_ hfail
    rw [State.authFails]
    cases hcred : s.hasCredential with
    | false => rfl
    | true =>
        have hne := hexp hcred
        cases hphase : (s.handles n).phase <;> simp_all [Phase.isUnrecoverable]

/-! ## The wait for the connection -/

lemma Control.isServing_of_isPolling {c : Control} (hpoll : c.isPolling = true) :
    c.isServing = true := by
  cases c <;> simp_all [Control.isPolling, Control.isServing]

lemma able_of_up (hal : Alive n s) (hpoll : s.control.isPolling = true)
    (hup : s.isConnected = true)
    (hexp : s.hasCredential = true → (s.handles n).phase ≠ .expired)
    (hfail : (s.handles n).phase ≠ .authFailed) : Able n s := by
  have hconnected : ∀ {t : State}, Alive n t → t.control = .pollConnected →
      t.isConnected = true → (t.hasCredential = true → (t.handles n).phase ≠ .expired) →
      (t.handles n).phase ≠ .authFailed → Able n t := by
    intro t hal hc hup hexp hfail
    have hth : t.thread true = some { t with control := .auth } := by
      simp [State.thread, hc, hup]
    exact hal.able_thread hth rfl rfl rfl fun hal' => able_of_auth hal' rfl hexp hfail
  cases hc : s.control with
  | pollConnected => exact hconnected hal hc hup hexp hfail
  | pollRun =>
      have hth : s.thread true = some { s with control := .pollConnected } := by
        simp [State.thread, hc, hal.run]
      exact hal.able_thread hth rfl rfl rfl fun hal' => hconnected hal' rfl hup hexp hfail
  | _ => simp [hc, Control.isPolling] at hpoll

/-- The flag is going to be up. -/
lemma able_of_told (hal : Alive n s) (hpoll : s.control.isPolling = true)
    (hev : .connected ∈ (s.handles n).events)
    (hexp : s.hasCredential = true → (s.handles n).phase ≠ .expired)
    (hfail : (s.handles n).phase ≠ .authFailed) : Able n s := by
  induction hk : (s.handles n).pending using Nat.strongRecOn generalizing s with
  | ind k ih =>
    subst hk
    have hserv := Control.isServing_of_isPolling hpoll
    have hne : (s.handles n).events ≠ [] := List.ne_nil_of_mem hev
    obtain ⟨s', hw⟩ := exists_watcher (Or.inr hne)
    have htold := told_of_watcher (hal.inv.fits n) hw
    have hframe := frame_watcher hw
    obtain ⟨hphase, hevents⟩ := htold.handle
    refine hal.able_watcher (Or.inl hserv) (hal.opened_eq hserv) hw fun hal' => ?_
    rw [← hframe.hasCredential, ← hphase] at hexp
    rw [← hphase] at hfail
    rw [← hframe.control] at hpoll
    by_cases hup : s'.isConnected = true
    · exact able_of_up hal' hpoll hup hexp hfail
    · refine ih _ (htold.pending (Or.inr hne)) hal' hpoll ?_ hexp hfail rfl
      rcases hevents with heq | ⟨e, heq⟩
      · rwa [heq]
      · rw [heq] at hev
        refine (List.mem_cons.mp hev).resolve_left fun he => hup ?_
        -- the event that is told is the one that takes the flag up
        rw [← he] at heq
        rw [State.watcher, heq] at hw
        split_ifs at hw with hreset
        · cases hal.inv.fits n with
          | going ne events told resetting => simp [resetting] at hreset
          | ending phase events front_ne told resetting => simp [resetting] at hreset
          | ended phase events => exact absurd events hne
        · rw [← Option.some.inj hw]

lemma able_of_connecting (hal : Alive n s) (hpoll : s.control.isPolling = true)
    (hphase : (s.handles n).phase = .connecting) : Able n s :=
  hal.able_io (Control.isServing_of_isPolling hpoll) (e := .establish) (if_pos hphase)
    fun hal' => able_of_told hal' hpoll (by simp [State.setHandle]) (by simp [State.setHandle])
      (by simp [State.setHandle])

lemma able_of_lost (hal : Alive n s) (hpoll : s.control.isPolling = true)
    (hphase : (s.handles n).phase = .lost) : Able n s :=
  hal.able_io (Control.isServing_of_isPolling hpoll) (e := .dial) (if_pos hphase)
    fun hal' => able_of_connecting hal' hpoll (by simp [State.setHandle])

lemma able_of_polling (hal : Alive n s) (hpoll : s.control.isPolling = true) (hm : ¬ Missed s) :
    Able n s := by
  have hserv := Control.isServing_of_isPolling hpoll
  rw [Missed, hal.index] at hm
  obtain ⟨hseen, hcred, hfail⟩ := not_or.mp hm |>.imp_right not_or.mp
  have hfail' : (s.handles n).phase ≠ .authFailed := fun h => hfail ⟨hserv, h⟩
  have hexp : s.hasCredential = true → (s.handles n).phase ≠ .expired :=
    fun h h' => hcred ⟨h, Or.inl hpoll, h'⟩
  by_cases hup : s.isConnected = true
  · exact able_of_up hal hpoll hup hexp hfail'
  by_cases hev : .connected ∈ (s.handles n).events
  · exact able_of_told hal hpoll hev hexp hfail'
  cases hphase : (s.handles n).phase with
  | expired => exact absurd ⟨hpoll, Bool.eq_false_iff.mpr hup, hphase, hev⟩ hseen
  | authFailed => exact absurd hphase hfail'
  | connecting => exact able_of_connecting hal hpoll hphase
  | lost => exact able_of_lost hal hpoll hphase
  | connected =>
      have hlose : (s.handles n).io .lose = some { s.handles n with
          phase := .lost, events := (s.handles n).events ++ [.connecting] } := by
        rw [Handle.io, hphase]
      exact hal.able_io hserv hlose
        fun hal' => able_of_lost hal' hpoll (by simp [State.setHandle])

/-! ## From one session to the next -/

lemma able_of_opening (hal : Alive n s) (hc : s.control = .opening) : Able n s := by
  have hopened : s.opened = n := by
    rw [hal.inv.opened_eq, hc, hal.index]
    rfl
  have hth : s.thread true = some { s.setHandle s.opened .new with
      zh := some s.opened, opened := s.opened + 1, control := .pollConnected } := by
    rw [State.thread, hc]
    rfl
  refine hal.able_thread hth rfl rfl rfl fun hal' => able_of_connecting hal' rfl ?_
  rw [hopened]
  simp [State.setHandle, Handle.new]

/-- `zookeeper_close` waits for the completion thread. -/
lemma able_of_closing (hal : Alive n s) (hc : s.control = .closing) : Able n s := by
  have hpos := hal.inv.closing_pos hc
  induction hk : (s.handles (s.opened - 1)).pending using Nat.strongRecOn generalizing s with
  | ind k ih =>
    subst hk
    by_cases hreset : (s.handles (s.opened - 1)).resetting = true
    · obtain ⟨s', hw⟩ := exists_watcher (Or.inl hreset)
      have hframe := frame_watcher hw
      have htold := told_of_watcher (hal.inv.fits _) hw
      refine hal.able_watcher (Or.inr hc) (by omega) hw fun hal' => ?_
      refine ih _ (htold.pending (Or.inl hreset)) hal' (by rw [hframe.control, hc]) ?_ ?_
      · rwa [hframe.opened]
      · rw [hframe.opened]
    · have hzh := hal.inv.zh_eq
      rw [hc, if_neg (by simp; omega)] at hzh
      have hth : s.thread true = some { s.setHandle (s.opened - 1)
          { s.handles (s.opened - 1) with closes := (s.handles (s.opened - 1)).closes + 1 } with
          control := .opening } := by
        rw [State.thread, hc]
        dsimp only
        rw [hzh, Option.bind_some, State.close, if_neg hreset]
        rfl
      exact hal.able_thread hth rfl rfl rfl fun hal' => able_of_opening hal' rfl

lemma able_of_not_missed (hal : Alive n s) (hm : ¬ Missed s) : Able n s := by
  have hfail : s.control.isServing = true → (s.handles n).phase ≠ .authFailed := by
    intro hserv hphase
    rw [Missed, hal.index] at hm
    exact hm (Or.inr (Or.inr ⟨hserv, hphase⟩))
  cases hc : s.control with
  | start =>
      have hth : s.thread true = some { s with control := .opening } := by
        rw [State.thread, hc]
      exact hal.able_thread hth rfl rfl rfl fun hal' => able_of_opening hal' rfl
  | opening => exact able_of_opening hal hc
  | closing => exact able_of_closing hal hc
  | pollConnected | pollRun =>
      exact able_of_polling hal (by simp [hc, Control.isPolling]) hm
  | auth =>
      refine able_of_auth hal hc (fun hcred hphase => hm ?_)
        (hfail (by simp [hc, Control.isServing]))
      rw [Missed, hal.index]
      exact Or.inr (Or.inl ⟨hcred, Or.inr hc, hphase⟩)
  | setNeedDetect | recvTimeout | rewatch | check | readNeedDetect | probe | readConnected |
    clear =>
      exact able_of_past hal ⟨by simp [hc, Control.stage], by simp [hc]⟩
        (hfail (by simp [hc, Control.isServing]))
  | finished | initThrew | authThrew =>
      have hlive := hal.live
      simp [hc, Control.isOver] at hlive

/-- The handler is not entered any more, as long as the destructor is not called, in exactly the
three cases of `Missed`. -/
theorem missed_iff {hasCredential : Bool}
    (hr : Reach State.step (fun _ _ => True) (State.init hasCredential) s)
    (hidle : s.destructor = .idle) (hlive : s.control.isOver = false) :
    Missed s ↔ ∀ s', Reach State.step undisturbed s s' → s'.entered = s.entered := by
  have hi := inv_of_reach hr
  constructor
  · intro hm s' hr'
    have hlost : Lost s.entered s' :=
      hr'.invariant ⟨hi, hi.flags.running hidle, rfl, Or.inl hm⟩
        fun _ _ _ hl hok hs => hl.step hok hs
    exact hlost.entered
  · intro hnever
    by_contra hm
    obtain ⟨s', hr', hlt⟩ := able_of_not_missed ⟨hi, rfl, hidle, hlive⟩ hm
    rw [hnever s' hr'] at hlt
    exact Nat.lt_irrefl _ hlt

/-- The session expires before the thread has looked at the flag. -/
theorem missed_iff_waiting : ∃ s : State, s.control = .pollConnected ∧ s.isConnected = false ∧
    ∀ s', Reach State.step undisturbed s s' → s'.entered = [] := by
  obtain ⟨s, hr, hobs⟩ := exists_reach_of_exec State.step (fun _ _ => True) (State.init false)
    [.thread true, .thread true, .io 0 .establish, .watcher 0, .io 0 .lose, .io 0 .dial,
      .io 0 .expire, .watcher 0, .watcher 0, .watcher 0]
    (fun s => ((s.control, s.isConnected, s.entered), s.destructor, (s.handles 0).phase,
      (s.handles 0).events))
    ((.pollConnected, false, []), .idle, .expired, []) (by decide +kernel)
  simp only [Prod.mk.injEq] at hobs
  obtain ⟨⟨hctl, hdown, hentered⟩, hidle, hphase, hevents⟩ := hobs
  have hnever := (missed_iff hr hidle (by simp [hctl, Control.isOver])).mp
    (Or.inl ⟨by simp [hctl, Control.isPolling], hdown, by simp [hentered, hphase],
      by simp [hentered, hevents]⟩)
  rw [hentered] at hnever
  exact ⟨s, hctl, hdown, hnever⟩

end Detection

end ConfigMonitor
